import Sluice.Proofs.Delivery
import Sluice.Proofs.Trails

/-!
# The trail of a reader

Every call on a reader is a trail: of pulls, of turns of the codec, and of what went wrong with them.

* `Reader.Acts` — a reader that makes some moves.
* `Reader.Worked`, `Reader.feed_worked`, `Reader.drain_worked` — the moves of the two loops of a
  request, and what they leave in the window.
* `Reader.Served`, `Reader.fill_served`, `Reader.readAll_served`, `Reader.seek_served` — the moves of
  whole calls, and how many bytes they count as delivered.
-/

namespace Sluice

variable {σ : Type} [Codec σ]

/-! ## Readers -/

namespace Reader

/-- The reader, with its codec in state `s`, makes the `moves`, and is `r'` then. -/
structure Acts (r : Reader σ) (s : σ) (moves : List Move) (s' : σ) (r' : Reader σ) : Prop where
  trail : Trail r.readSize ⟨s, r.source, r.pending⟩ moves ⟨s', r'.source, r'.pending⟩
  codec : r'.codec = .live s'
  phase : r'.phase = r.phase
  readSize : r'.readSize = r.readSize
  inputDone : r.inputDone = true → r'.inputDone = true
  outputDone : r.outputDone = true → r'.outputDone = true

variable {r r₁ r' : Reader σ} {s s₁ s' : σ} {moves later : List Move}

theorem Acts.refl (hcodec : r.codec = .live s) : r.Acts s [] s r :=
  ⟨.nil, hcodec, rfl, rfl, id, id⟩

theorem Acts.trans (h : r.Acts s moves s₁ r₁) (h' : r₁.Acts s₁ later s' r') :
    r.Acts s (moves ++ later) s' r' where
  trail := h.trail.append (h.readSize ▸ h'.trail)
  codec := h'.codec
  phase := h'.phase.trans h.phase
  readSize := h'.readSize.trans h.readSize
  inputDone := h'.inputDone ∘ h.inputDone
  outputDone := h'.outputDone ∘ h.outputDone

/-- A pull is one more move, whether the source gives something or fails. It is a frugal one if
nothing is unread; and where something is, a turn before it has done nothing. -/
theorem Acts.pull {result : Except Failure Unit} (h : r.Acts s moves s₁ r₁)
    (hthrifty : Thrifty moves)
    (hpending : r₁.pending = [] ∨ ¬ ∀ t ∈ turnsOf moves, t.Advances) (hp : r₁.pull = (result, r')) :
    ∃ m : Move, r.Acts s (moves ++ [m]) s₁ r' ∧ Thrifty (moves ++ [m]) ∧ m.Asks ∧
      r'.delivered = r₁.delivered := by
  have hfrugal : ∀ {m : Move}, (r₁.pending = [] → m.Frugal) → Thrifty (moves ++ [m]) := by
    intro m hm
    rcases hpending with hnil | hidle
    · exact hthrifty.append (.single (hm hnil))
    · intro hadvances
      refine absurd (fun t ht => hadvances t ?_) hidle
      rw [turnsOf_append]
      exact List.mem_append_left _ ht
  cases result with
  | ok =>
    obtain ⟨bytes, source, hsource, rfl⟩ := pull_ok_inv hp
    refine ⟨.pull r₁.pending bytes, h.trans ⟨.single (.pull hsource), h.codec, rfl, rfl, ?_, id⟩,
      hfrugal id, trivial, rfl⟩
    intro hdone
    simp [hdone]
  | error failure =>
    obtain ⟨source, hsource, rfl⟩ := pull_error_inv hp
    exact ⟨.refused r₁.pending, h.trans ⟨.single (.refused hsource), h.codec, rfl, rfl, id, id⟩,
      hfrugal id, trivial, rfl⟩

/-- A turn over what is pending is one move. -/
theorem FeedStep.acts {window w₁ : Window} {t : Turn} (h : FeedStep r window s t s₁ w₁ r₁) :
    r.Acts s [.turn t] s₁ r₁ where
  trail := by
    rw [← h.offered, ← h.rest, h.source]
    exact .single (.turn h.leads)
  codec := h.codec
  phase := by rw [h.same]
  readSize := by rw [h.same]
  inputDone := by
    rw [h.inputDone]
    exact id
  outputDone := by
    rw [h.outputDone]
    exact id

/-! ## The loops of a request -/

/-- What a loop that fills a window has done. -/
structure Worked (r : Reader σ) (window : Window) (s : σ) (moves : List Move) (s' : σ)
    (result : Except Failure Window) (r' : Reader σ) : Prop where
  acts : r.Acts s moves s' r'
  thrifty : Thrifty moves
  delivered : r'.delivered = r.delivered
  written : ∀ w, result = .ok w →
    w.written.toList = window.written.toList ++ madeBy (turnsOf moves)

/-- A step that fails. -/
theorem acts_broken {held : List UInt8} {room : Nat} {directive : Directive} {failure : Failure}
    (hheld : r.pending = held) (h : (Codec.step s held room directive).result = .error failure) :
    r.Acts s [.broken] (Codec.step s held room directive).state
      { r with codec := .live (Codec.step s held room directive).state } := by
  subst hheld
  exact ⟨.single (.broken h), rfl, rfl, rfl, id, id⟩

namespace Worked

variable {window w₁ : Window} {result : Except Failure Window}

/-- The loop ends at once. -/
theorem nil (hcodec : r.codec = .live s) : Worked r window s [] s (.ok window) r :=
  ⟨.refl hcodec, .nil, rfl, fun w hw => by cases hw; exact (List.append_nil _).symm⟩

/-- The loop ends with a failure. -/
theorem failed {failure : Failure} (h : r.Acts s moves s' r') (hthrifty : Thrifty moves)
    (hdelivered : r'.delivered = r.delivered) :
    Worked r window s moves s' (.error failure) r' :=
  ⟨h, hthrifty, hdelivered, fun _ hw => by cases hw⟩

/-- The loop ends after some moves, and the stream may have ended. -/
theorem ends {done : Bool} (h : r.Acts s moves s₁ r₁) (hthrifty : Thrifty moves)
    (hdelivered : r₁.delivered = r.delivered)
    (hwritten : w₁.written.toList = window.written.toList ++ madeBy (turnsOf moves))
    (hdone : r₁.outputDone = true → done = true) :
    Worked r window s moves s₁ (.ok w₁) { r₁ with outputDone := done } where
  acts := ⟨h.trail, h.codec, h.phase, h.readSize, h.inputDone, hdone ∘ h.outputDone⟩
  thrifty := hthrifty
  delivered := hdelivered
  written := fun w hw => by cases hw; exact hwritten

/-- The loop goes on after some moves. -/
theorem after (h : r.Acts s moves s₁ r₁) (hthrifty : Thrifty moves)
    (hdelivered : r₁.delivered = r.delivered)
    (hwritten : w₁.written.toList = window.written.toList ++ madeBy (turnsOf moves))
    (hlater : Worked r₁ w₁ s₁ later s' result r') :
    Worked r window s (moves ++ later) s' result r' where
  acts := h.trans hlater.acts
  thrifty := hthrifty.append hlater.thrifty
  delivered := hlater.delivered.trans hdelivered
  written := by
    intro w hw
    rw [hlater.written w hw, hwritten, turnsOf_append, madeBy_append, List.append_assoc]

end Worked

theorem FeedStep.delivered {window w₁ : Window} {t : Turn} (h : FeedStep r window s t s₁ w₁ r₁) :
    r₁.delivered = r.delivered := by
  rw [h.same]

/-- What is in the window after a turn. -/
theorem FeedStep.written_turnsOf {window w₁ : Window} {t : Turn}
    (h : FeedStep r window s t s₁ w₁ r₁) :
    w₁.written.toList = window.written.toList ++ madeBy (turnsOf [.turn t]) := by
  rw [h.written]
  exact congrArg _ (List.append_nil _).symm

/-- A turn that takes nothing and makes nothing, although it has input and room. -/
theorem FeedStep.idle {window w₁ : Window} {t : Turn} (h : FeedStep r window s t s₁ w₁ r₁)
    (hidle : t.taken = [] ∧ t.made = []) : ¬ ∀ u ∈ turnsOf [.turn t], u.Advances := by
  intro hadvances
  rcases hadvances t List.mem_cons_self h.turn.offered h.turn.room_pos with htaken | hmade
  · exact htaken hidle.1
  · exact hmade hidle.2

/-- The moves of the loop that steps and pulls. -/
theorem feed_worked {eager : Bool} {window : Window} {result : Except Failure Window}
    (h : feed eager r window = (result, r')) (hcodec : r.codec = .live s) (hroom : 0 < window.spare) :
    ∃ moves s', Worked r window s moves s' result r' := by
  have key := feed_induction eager (motive := fun r window s result r' =>
      ∃ moves s', Worked r window s moves s' result r')
    ?ended ?refused ?pulled ?broken ?frame ?enough ?moved ?stuck ?stuck_refused ?stuck_pulled
    hcodec hroom
  · rwa [h] at key
  case ended => exact fun hcodec _ _ _ => ⟨[], _, .nil hcodec⟩
  case refused =>
    intro r r' window s failure hcodec hpending hp
    obtain ⟨m, hacts, hthrifty, -, hsame⟩ := (Acts.refl hcodec).pull .nil (.inl hpending) hp
    exact ⟨_, s, .failed hacts hthrifty hsame⟩
  case pulled =>
    rintro r r₁ r' window s result hcodec hpending hp ⟨moves, s', hworked⟩
    obtain ⟨m, hacts, hthrifty, hasks, hsame⟩ := (Acts.refl hcodec).pull .nil (.inl hpending) hp
    exact ⟨_, s', .after hacts hthrifty hsame (by simp [hasks.turns]) hworked⟩
  case broken =>
    intro r window s failure _ _ hresult
    exact ⟨[.broken], _, .failed (acts_broken rfl hresult) (.single (m := .broken) trivial) rfl⟩
  -- a step ends the loop, or the loop goes on
  case frame =>
    intro r r₁ window w₁ s s₁ t hstep _ _
    exact ⟨_, _, .ends hstep.acts (.turn t) hstep.delivered hstep.written_turnsOf fun _ => rfl⟩
  case enough =>
    intro r r₁ window w₁ s s₁ t hstep _ _
    exact ⟨_, _, .ends hstep.acts (.turn t) hstep.delivered hstep.written_turnsOf id⟩
  case moved =>
    rintro r r₁ r' window w₁ s s₁ t result hstep _ _ ⟨moves, s', hworked⟩
    exact ⟨_, s', .after hstep.acts (.turn t) hstep.delivered hstep.written_turnsOf hworked⟩
  -- a step that moves nothing shows that the codec does not advance, so that the pull may follow
  case stuck =>
    intro r r₁ window w₁ s s₁ t hstep _ _ _
    exact ⟨_, _, .ends hstep.acts (.turn t) hstep.delivered hstep.written_turnsOf id⟩
  case stuck_refused =>
    intro r r₁ r' window w₁ s s₁ t failure hstep _ _ hidle hp
    obtain ⟨m, hacts, hthrifty, -, hsame⟩ := hstep.acts.pull (.turn t) (.inr (hstep.idle hidle)) hp
    exact ⟨_, _, .failed hacts hthrifty (hsame.trans hstep.delivered)⟩
  case stuck_pulled =>
    rintro r r₁ r₂ r' window w₁ s s₁ t result hstep _ _ hidle hp ⟨moves, s', hworked⟩
    obtain ⟨m, hacts, hthrifty, hasks, hsame⟩ :=
      hstep.acts.pull (.turn t) (.inr (hstep.idle hidle)) hp
    refine ⟨_, s', .after hacts hthrifty (hsame.trans hstep.delivered) ?_ hworked⟩
    rw [hstep.written_turnsOf, turnsOf_append, turnsOf_cons m, hasks.turns]
    rfl

/-- A step of the loop that empties the codec is one move, if nothing is pending. -/
theorem acts_drainStep {window : Window} {left : Nat} (hpending : r.pending = [])
    (hres : (drive s .empty window .finish).result = .ok left) :
    r.Acts s [.turn (drainStep s window left)] (drive s .empty window .finish).codec
      { r with codec := .live (drive s .empty window .finish).codec } := by
  have hlead : (drainStep s window left).Leads s (drive s .empty window .finish).codec :=
    Turn.leads_ofStep hres
  have hoffered : (drainStep s window left).offered = [] := Turn.offered_ofStep ..
  have hrest : (drainStep s window left).rest = [] := (List.append_eq_nil_iff.1 hoffered).2
  have hturn : Move.Leads r.readSize (.turn (drainStep s window left))
      ⟨s, r.source, (drainStep s window left).offered⟩
      ⟨(drive s .empty window .finish).codec, r.source, (drainStep s window left).rest⟩ :=
    .turn hlead
  rw [hoffered, hrest, ← hpending] at hturn
  exact ⟨.single hturn, rfl, rfl, rfl, id, id⟩

/-- What is in the window after such a step. -/
theorem written_turnsOf_drainStep (s : σ) (window : Window) (left : Nat) :
    (drive s .empty window .finish).window.written.toList =
      window.written.toList ++ madeBy (turnsOf [.turn (drainStep s window left)]) :=
  written_drainStep.trans (congrArg _ (List.append_nil _).symm)

/-- The moves of the loop that empties the codec. The source is not among them. -/
theorem drain_worked {window : Window} {result : Except Failure Window}
    (h : drain r window = (result, r')) (hcodec : r.codec = .live s) (hpending : r.pending = []) :
    ∃ moves s', Worked r window s moves s' result r' ∧ ∀ m ∈ moves, ¬ m.Asks := by
  fun_induction drain r window generalizing s
  case case1 r window codec hretired =>
    rw [hcodec] at hretired
    cases hretired
  case case2 r window codec hlive driven stepped failure hres =>
    obtain ⟨rfl, rfl⟩ := Prod.mk.inj h
    obtain rfl : codec = s := Slot.live.inj (hlive.symm.trans hcodec)
    exact ⟨[.broken], _, .failed (acts_broken hpending hres) (.single (m := .broken) trivial) rfl,
      List.forall_mem_singleton.2 id⟩
  case case3 r window codec hlive driven stepped left hres hmoved hfull =>
    obtain ⟨rfl, rfl⟩ := Prod.mk.inj h
    obtain rfl : codec = s := Slot.live.inj (hlive.symm.trans hcodec)
    exact ⟨_, _, .ends (acts_drainStep hpending hres) (.turn _) rfl
      (written_turnsOf_drainStep codec window left) id, List.forall_mem_singleton.2 id⟩
  case case4 r window codec hlive driven stepped left hres hmoved hfull ih =>
    obtain rfl : codec = s := Slot.live.inj (hlive.symm.trans hcodec)
    obtain ⟨moves, s', hworked, hquiet⟩ := ih h rfl hpending
    exact ⟨_, s', .after (acts_drainStep hpending hres) (.turn _) rfl
      (written_turnsOf_drainStep codec window left) hworked, List.forall_mem_cons.2 ⟨id, hquiet⟩⟩
  case case5 r window codec hlive driven stepped left hres hmoved =>
    obtain ⟨rfl, rfl⟩ := Prod.mk.inj h
    obtain rfl : codec = s := Slot.live.inj (hlive.symm.trans hcodec)
    exact ⟨_, _, .ends (acts_drainStep hpending hres) (.turn _) rfl
      (written_turnsOf_drainStep codec window left) fun _ => rfl, List.forall_mem_singleton.2 id⟩

/-! ## Requests -/

/-- What a call has done. If it is a success, it has delivered or discarded all that was made. -/
structure Served (r : Reader σ) (s : σ) (moves : List Move) (s' : σ) (success : Prop)
    (r' : Reader σ) : Prop where
  acts : r.Acts s moves s' r'
  thrifty : Thrifty moves
  delivered : success → r'.delivered = r.delivered + (madeBy (turnsOf moves)).length

/-- One call after the other. -/
theorem Served.trans {first success : Prop} (h : Served r s moves s₁ first r₁) (hfirst : first)
    (h' : Served r₁ s₁ later s' success r') : Served r s (moves ++ later) s' success r' where
  acts := h.acts.trans h'.acts
  thrifty := h.thrifty.append h'.thrifty
  delivered := by
    intro hsuccess
    rw [h'.delivered hsuccess, h.delivered hfirst, turnsOf_append, madeBy_append, List.length_append,
      Nat.add_assoc]

/-- A call that does nothing. -/
theorem Served.nil {success : Prop} (hcodec : r.codec = .live s) : Served r s [] s success r :=
  ⟨.refl hcodec, .nil, fun _ => rfl⟩

/-- The codec is told that the size is unknown, if it has to be told. -/
theorem settlePledge_acts {result : Except Failure Unit} (h : r.settlePledge = (result, r'))
    (hcodec : r.codec = .live s) :
    ∃ moves s', r.Acts s moves s' r' ∧ Thrifty moves ∧ turnsOf moves = [] ∧
      (∀ m ∈ moves, m.Idle) ∧ r'.delivered = r.delivered := by
  obtain ⟨s', owes, rfl, hs', -⟩ := settlePledge_inv h hcodec
  rcases hs' with rfl | rfl
  · exact ⟨[], s', ⟨.nil, rfl, rfl, rfl, id, id⟩, .nil, rfl, nofun, rfl⟩
  · exact ⟨[.pledge], _, ⟨.single .pledge, rfl, rfl, rfl, id, id⟩, .single (m := .pledge) trivial,
      rfl, List.forall_mem_singleton.2 trivial, rfl⟩

/-- The moves of both loops, one after the other. -/
theorem feedThenDrain_worked {eager : Bool} {window w : Window} {r₂ : Reader σ}
    {result : Except Failure Window} (hfeed : feed eager r window = (.ok w, r₁))
    (hdrain : (if r₁.canDrain w then drain r₁ w else (.ok w, r₁)) = (result, r₂))
    (hcodec : r.codec = .live s) (hroom : 0 < window.spare) :
    ∃ moves s', Worked r window s moves s' result r₂ := by
  obtain ⟨fed, s₁, hfed⟩ := feed_worked hfeed hcodec hroom
  have hdrained : ∃ drained s', Worked r₁ w s₁ drained s' result r₂ := by
    split at hdrain
    · next hcan =>
      have hpending : r₁.pending = [] := by
        simp only [canDrain, Bool.and_eq_true, List.isEmpty_iff] at hcan
        exact hcan.2
      obtain ⟨drained, s', hworked, -⟩ := drain_worked hdrain hfed.acts.codec hpending
      exact ⟨drained, s', hworked⟩
    · cases hdrain
      exact ⟨[], s₁, .nil hfed.acts.codec⟩
  obtain ⟨drained, s', hworked⟩ := hdrained
  exact ⟨_, s', .after hfed.acts hfed.thrifty hfed.delivered (hfed.written w rfl) hworked⟩

/-- The moves of one request. What it delivers is what was made. -/
theorem fill_served {eager : Bool} {size : Nat} {result : Except Failure (List UInt8)}
    (h : r.fill eager size = (result, r')) (hcodec : r.codec = .live s) :
    ∃ moves s', Served r s moves s' (∃ bytes, result = .ok bytes) r' ∧
      ∀ bytes, result = .ok bytes → bytes = madeBy (turnsOf moves) := by
  have hfailed : ∀ {moves : List Move} {s' : σ} {r₁ : Reader σ} {failure : Failure},
      r.Acts s moves s' r₁ → Thrifty moves → (.error failure, r₁) = (result, r') →
        ∃ moves s', Served r s moves s' (∃ bytes, result = .ok bytes) r' ∧
          ∀ bytes, result = .ok bytes → bytes = madeBy (turnsOf moves) := by
    rintro moves s' r₁ failure hacts hthrifty ⟨⟩
    exact ⟨moves, s', ⟨hacts, hthrifty, nofun⟩, nofun⟩
  rw [fill] at h
  split at h
  · exact hfailed (.refl hcodec) .nil h
  split at h
  · cases h
    exact ⟨[], s, .nil hcodec, fun bytes hok => by cases hok; rfl⟩
  next hsize =>
  have hroom : 0 < (Window.fresh size).spare := Nat.pos_of_ne_zero fun hzero => hsize (.inr hzero)
  rcases hsettle : r.settlePledge with ⟨failure | ⟨⟩, r₁⟩
  · obtain ⟨moves, s₁, hacts, hthrifty, -⟩ := settlePledge_acts hsettle hcodec
    rw [hsettle] at h
    exact hfailed hacts hthrifty h
  obtain ⟨told, s₁, hacts, hthrifty, hturns, -, hsame⟩ := settlePledge_acts hsettle hcodec
  simp only [hsettle] at h
  rcases hfeed : feed eager r₁ (.fresh size) with ⟨failure | w₁, r₂⟩
  · obtain ⟨moves, s₂, hworked⟩ := feed_worked hfeed hacts.codec hroom
    simp only [hfeed] at h
    exact hfailed (hacts.trans hworked.acts) (hthrifty.append hworked.thrifty) h
  simp only [hfeed] at h
  rcases hdrain : (if r₂.canDrain w₁ then drain r₂ w₁ else (.ok w₁, r₂)) with ⟨failure | w, r₃⟩
  · obtain ⟨moves, s₂, hworked⟩ := feedThenDrain_worked hfeed hdrain hacts.codec hroom
    simp only [hdrain] at h
    exact hfailed (hacts.trans hworked.acts) (hthrifty.append hworked.thrifty) h
  obtain ⟨moves, s', hworked⟩ := feedThenDrain_worked hfeed hdrain hacts.codec hroom
  simp only [hdrain] at h
  cases h
  have hmade : w.written.toList = madeBy (turnsOf (told ++ moves)) := by
    rw [hworked.written w rfl, turnsOf_append, hturns]
    rfl
  have hall := hacts.trans hworked.acts
  refine ⟨told ++ moves, s', ⟨⟨hall.trail, hall.codec, hall.phase, hall.readSize, hall.inputDone,
    hall.outputDone⟩, hthrifty.append hworked.thrifty, fun _ => ?_⟩, ?_⟩
  · rw [← hmade]
    change r₃.delivered + w.pos = _
    rw [hworked.delivered, hsame]
    rfl
  · rintro bytes ⟨⟩
    exact hmade

/-- The moves of reading everything. -/
theorem readAll_served {limit : Nat} {acc : Array UInt8} {result : Except Failure (List UInt8)}
    (h : readAll limit r acc = (result, r')) (hcodec : r.codec = .live s) :
    ∃ moves s', Served r s moves s' (∃ bytes, result = .ok bytes) r' ∧
      ∀ bytes, result = .ok bytes → bytes = acc.toList ++ madeBy (turnsOf moves) := by
  induction limit generalizing r s acc with
  | zero =>
    cases h
    exact ⟨[], s, .nil hcodec, nofun⟩
  | succ limit ih =>
    rw [readAll] at h
    rcases hread : r.readInto decompressionOutputSize with ⟨failure | ⟨_ | ⟨byte, bytes⟩⟩, r₁⟩
    · obtain ⟨moves, s', hserved, -⟩ := fill_served hread hcodec
      simp only [hread] at h
      cases h
      exact ⟨moves, s', ⟨hserved.acts, hserved.thrifty, nofun⟩, nofun⟩
    · obtain ⟨moves, s', hserved, hmade⟩ := fill_served hread hcodec
      simp only [hread] at h
      cases h
      refine ⟨moves, s', ⟨hserved.acts, hserved.thrifty, fun _ => hserved.delivered ⟨[], rfl⟩⟩, ?_⟩
      rintro all ⟨⟩
      rw [← hmade [] rfl, List.append_nil]
    -- some bytes, and all the others
    · obtain ⟨moves, s₁, hserved, hmade⟩ := fill_served hread hcodec
      simp only [hread] at h
      obtain ⟨later, s', hserved', hall⟩ := ih h hserved.acts.codec
      refine ⟨_, s', hserved.trans ⟨_, rfl⟩ hserved', ?_⟩
      intro all hok
      rw [hall all hok, turnsOf_append, madeBy_append, ← hmade _ rfl, Array.toList_appendList,
        List.append_assoc]

/-- The moves of reading and discarding. -/
theorem discard_served {distance : Nat} {result : Except Failure Unit}
    (h : r.discard distance = (result, r')) (hcodec : r.codec = .live s) :
    ∃ moves s', Served r s moves s' (result = .ok ()) r' := by
  fun_induction discard r distance generalizing s
  case case1 r =>
    cases h
    exact ⟨[], s, .nil hcodec⟩
  case case2 r distance hdistance failure r₁ hread =>
    cases h
    obtain ⟨moves, s', hserved, -⟩ := fill_served hread hcodec
    exact ⟨moves, s', hserved.acts, hserved.thrifty, nofun⟩
  case case3 r distance hdistance r₁ hread =>
    cases h
    obtain ⟨moves, s', hserved, -⟩ := fill_served hread hcodec
    exact ⟨moves, s', hserved.acts, hserved.thrifty, fun _ => hserved.delivered ⟨[], rfl⟩⟩
  case case4 r distance hdistance byte rest r₁ hread ih =>
    obtain ⟨moves, s₁, hserved, -⟩ := fill_served hread hcodec
    obtain ⟨later, s', hserved'⟩ := ih h hserved.acts.codec
    exact ⟨_, s', hserved.trans ⟨_, rfl⟩ hserved'⟩

/-- The moves of a seek. Its answer is the position that it has got to. -/
theorem seek_served {goal : SeekFrom} {result : Except Failure Nat}
    (h : r.seek goal = (result, r')) (hcodec : r.codec = .live s) :
    ∃ moves s', Served r s moves s' (∃ position, result = .ok position) r' ∧
      ∀ position, result = .ok position → position = r'.delivered := by
  have hrefused : ∀ {failure : Failure}, (.error failure, r) = (result, r') →
      ∃ moves s', Served r s moves s' (∃ position, result = .ok position) r' ∧
        ∀ position, result = .ok position → position = r'.delivered := by
    rintro failure ⟨⟩
    refine ⟨[], s, .nil hcodec, ?_⟩
    rintro position ⟨⟩
  rw [seek] at h
  split at h
  · exact hrefused h
  split at h
  · exact hrefused h
  split at h
  · exact hrefused h
  next target htarget =>
  rcases hdiscard : r.discard (target - r.delivered) with ⟨failure | ⟨⟩, r₁⟩
  · obtain ⟨moves, s', hserved⟩ := discard_served hdiscard hcodec
    simp only [hdiscard] at h
    cases h
    refine ⟨moves, s', ⟨hserved.acts, hserved.thrifty, ?_⟩, ?_⟩
    · rintro ⟨position, ⟨⟩⟩
    · rintro position ⟨⟩
  · obtain ⟨moves, s', hserved⟩ := discard_served hdiscard hcodec
    simp only [hdiscard] at h
    cases h
    exact ⟨moves, s', ⟨hserved.acts, hserved.thrifty, fun _ => hserved.delivered rfl⟩,
      fun position hok => by cases hok; rfl⟩

end Reader

end Sluice
