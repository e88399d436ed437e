import Sluice.Proofs.PretendedEnds

/-!
# Eager requests

An eager request is content with any output. As soon as there is some, it leaves the source alone.

* `Brisk` — moves in which the source is not asked any more once something has been made.
* `Reader.Hurried`, `Reader.feed_eager`, `Reader.drain_eager` — the loops of an eager request.
* `Reader.Hastens`, `Reader.fill_eager` — the whole request, for every codec and every source.
-/

namespace Sluice

variable {σ : Type} [Codec σ]

/-- The source is asked only as long as nothing has been made. -/
def Brisk (moves : List Move) : Prop :=
  moves.Pairwise fun earlier later => later.Asks → earlier.Idle

namespace Brisk

variable {moves later : List Move}

theorem of_idle (h : ∀ m ∈ moves, m.Idle) : Brisk moves :=
  List.pairwise_of_forall_mem_list fun m hm _ _ _ => h m hm

/-- As long as nothing has been made, anything may follow. -/
theorem idle_append (h : ∀ m ∈ moves, m.Idle) (h' : Brisk later) : Brisk (moves ++ later) :=
  List.pairwise_append.2 ⟨of_idle h, h', fun m hm _ _ _ => h m hm⟩

/-- Moves without the source may always follow. -/
theorem append_quiet (h : Brisk moves) (h' : ∀ m ∈ later, ¬ m.Asks) : Brisk (moves ++ later) := by
  have hquiet : ∀ earlier : Move, ∀ m ∈ later, m.Asks → earlier.Idle :=
    fun _ m hm hasks => absurd hasks (h' m hm)
  exact List.pairwise_append.2
    ⟨h, List.pairwise_of_forall_mem_list fun m _ => hquiet m, fun m _ => hquiet m⟩

theorem single (m : Move) : Brisk [m] := List.pairwise_singleton _ _

end Brisk

namespace Reader

variable {r r₁ r' : Reader σ} {s s₁ s' : σ} {moves later : List Move} {window w₁ : Window}
  {result : Except Failure Window}

/-! ## Stepping and pulling -/

/-- There is some output, or the stream is over. -/
def Answered (r : Reader σ) (w : Window) : Prop := 0 < w.pos ∨ r.outputDone = true

/-- Or else all of the input has been taken. -/
def Settled (r : Reader σ) (w : Window) : Prop :=
  Answered r w ∨ r.inputDone = true ∧ r.pending = []

/-- What a loop has done in an eager request. If all turns do something, it does not end without a
`Reason`. -/
structure Hurried (Reason : Reader σ → Window → Prop) (r : Reader σ) (window : Window) (s : σ)
    (moves : List Move) (s' : σ) (result : Except Failure Window) (r' : Reader σ) : Prop extends
    Worked r window s moves s' result r' where
  brisk : Brisk moves
  capacity : ∀ w, result = .ok w → w.capacity = window.capacity
  reason : ∀ w, result = .ok w → (∀ t ∈ turnsOf moves, t.Advances) → Reason r' w

namespace Hurried

variable {Reason : Reader σ → Window → Prop}

/-- The loop ends with a failure. -/
theorem failed {failure : Failure} (h : r.Acts s moves s' r') (hthrifty : Thrifty moves)
    (hdelivered : r'.delivered = r.delivered) (hbrisk : Brisk moves) :
    Hurried Reason r window s moves s' (.error failure) r' where
  toWorked := .failed h hthrifty hdelivered
  brisk := hbrisk
  capacity := nofun
  reason := nofun

/-- The loop goes on after moves that have made nothing. -/
theorem after (h : r.Acts s moves s₁ r₁) (hthrifty : Thrifty moves)
    (hdelivered : r₁.delivered = r.delivered)
    (hwritten : w₁.written.toList = window.written.toList ++ madeBy (turnsOf moves))
    (hcapacity : w₁.capacity = window.capacity) (hidle : ∀ m ∈ moves, m.Idle)
    (hlater : Hurried Reason r₁ w₁ s₁ later s' result r') :
    Hurried Reason r window s (moves ++ later) s' result r' where
  toWorked := .after h hthrifty hdelivered hwritten hlater.toWorked
  brisk := .idle_append hidle hlater.brisk
  capacity := fun w hw => (hlater.capacity w hw).trans hcapacity
  reason := by
    intro w hw hadvances
    refine hlater.reason w hw fun t ht => hadvances t ?_
    rw [turnsOf_append]
    exact List.mem_append_right _ ht

end Hurried

/-- A turn that ends the loop. -/
theorem FeedStep.hurried {t : Turn} {done : Bool} (h : FeedStep r window s t s₁ w₁ r₁)
    (hdone : r₁.outputDone = true → done = true)
    (hsettled : t.Advances → Settled { r₁ with outputDone := done } w₁) :
    Hurried Settled r window s [.turn t] s₁ (.ok w₁) { r₁ with outputDone := done } where
  toWorked := .ends h.acts (.turn t) h.delivered h.written_turnsOf hdone
  brisk := .single _
  capacity := by
    rintro w ⟨⟩
    exact h.capacity
  reason := by
    rintro w ⟨⟩ hadvances
    exact hsettled (hadvances t List.mem_cons_self)

/-- A turn after which nothing is in the window has made nothing. -/
theorem FeedStep.idle_of_wanting {t : Turn} (h : FeedStep r window s t s₁ w₁ r₁)
    (hwanting : Wanting true w₁) : ∀ m ∈ [Move.turn t], m.Idle := by
  have hpos := h.spare.1
  rw [hwanting.2 rfl] at hpos
  have hmade : t.made = [] := List.length_eq_zero_iff.1 (by omega)
  exact List.forall_mem_singleton.2 hmade

/-- In an eager request, the loop that steps and pulls does not ask the source any more once there is
some output. -/
theorem feed_eager (h : feed true r window = (result, r')) (hcodec : r.codec = .live s)
    (hroom : 0 < window.spare) :
    ∃ moves s', Hurried Settled r window s moves s' result r' := by
  have key := feed_induction true (motive := fun r window s result r' =>
      0 < window.spare → ∃ moves s', Hurried Settled r window s moves s' result r')
    ?ended ?refused ?pulled ?broken ?frame ?enough ?moved ?stuck ?stuck_refused ?stuck_pulled
    hcodec hroom
  · rw [h] at key
    exact key hroom
  case ended =>
    intro r window s hcodec _ hpending hdone _
    refine ⟨[], s, .nil hcodec, List.Pairwise.nil, ?_, ?_⟩
    · rintro w ⟨⟩
      rfl
    · rintro w ⟨⟩ _
      exact .inr ⟨hdone, hpending⟩
  case refused =>
    intro r r' window s failure hcodec hpending hp _
    obtain ⟨m, hacts, hthrifty, -, hsame⟩ := (Acts.refl hcodec).pull .nil (.inl hpending) hp
    exact ⟨_, s, .failed hacts hthrifty hsame (.single m)⟩
  case pulled =>
    intro r r₁ r' window s result hcodec hpending hp ih hroom
    obtain ⟨moves, s', hfed⟩ := ih hroom
    obtain ⟨m, hacts, hthrifty, hasks, hsame⟩ := (Acts.refl hcodec).pull .nil (.inl hpending) hp
    exact ⟨_, s', .after hacts hthrifty hsame (by simp [hasks.turns]) rfl
      (List.forall_mem_singleton.2 hasks.idle) hfed⟩
  case broken =>
    intro r window s failure _ _ hresult _
    exact ⟨[.broken], _, .failed (acts_broken rfl hresult) (.single (m := .broken) trivial) rfl
      (.single _)⟩
  -- a turn ends the loop
  case frame =>
    intro r r₁ window w₁ s s₁ t hstep _ _ _
    exact ⟨_, _, hstep.hurried (fun _ => rfl) fun _ => .inl (.inr rfl)⟩
  case enough =>
    intro r r₁ window w₁ s s₁ t hstep _ hgot hroom
    refine ⟨_, _, hstep.hurried id fun _ => .inl (.inl ?_)⟩
    rcases hgot with hfull | ⟨-, hpos⟩
    · obtain ⟨hpos, hspare⟩ := hstep.spare
      rw [Window.isFull, beq_iff_eq] at hfull
      omega
    · exact hpos
  case stuck =>
    intro r r₁ window w₁ s s₁ t hstep _ hidle _ _
    refine ⟨_, _, hstep.hurried id fun hadvances => absurd ?_ (hstep.idle hidle)⟩
    exact List.forall_mem_singleton.2 hadvances
  -- or it has made nothing, and the loop goes on
  case moved =>
    intro r r₁ r' window w₁ s s₁ t result hstep _ hwanting ih _
    obtain ⟨moves, s', hfed⟩ := ih hwanting.1
    exact ⟨_, s', .after hstep.acts (.turn t) hstep.delivered hstep.written_turnsOf hstep.capacity
      (hstep.idle_of_wanting hwanting) hfed⟩
  case stuck_refused =>
    intro r r₁ r' window w₁ s s₁ t failure hstep _ hwanting hidle hp _
    obtain ⟨m, hacts, hthrifty, -, hsame⟩ := hstep.acts.pull (.turn t) (.inr (hstep.idle hidle)) hp
    exact ⟨_, _, .failed hacts hthrifty (hsame.trans hstep.delivered)
      (.idle_append (hstep.idle_of_wanting hwanting) (.single m))⟩
  case stuck_pulled =>
    intro r r₁ r₂ r' window w₁ s s₁ t result hstep _ hwanting hidle hp ih _
    obtain ⟨moves, s', hfed⟩ := ih hwanting.1
    obtain ⟨m, hacts, hthrifty, hasks, hsame⟩ :=
      hstep.acts.pull (.turn t) (.inr (hstep.idle hidle)) hp
    refine ⟨_, s', .after hacts hthrifty (hsame.trans hstep.delivered) ?_ hstep.capacity ?_ hfed⟩
    · rw [hstep.written_turnsOf, turnsOf_append, turnsOf_cons m, hasks.turns]
      rfl
    · exact List.forall_mem_append.2
        ⟨hstep.idle_of_wanting hwanting, List.forall_mem_singleton.2 hasks.idle⟩

/-! ## The whole request -/

omit [Codec σ] in
/-- A full window is not empty. -/
theorem pos_of_isFull {w : Window} {size : Nat} (hsize : 0 < size) (hcapacity : w.capacity = size)
    (hfull : w.isFull = true) : 0 < w.pos := by
  rw [Window.isFull, beq_iff_eq] at hfull
  rw [Window.capacity, hfull] at hcapacity
  omega

omit [Codec σ] in
/-- Where a window is not drained into, there is a reason already. -/
theorem Settled.answered {w : Window} {size : Nat} (h : Settled r w) (hsize : 0 < size)
    (hcapacity : w.capacity = size) (hcan : ¬ r.canDrain w = true) : Answered r w := by
  rcases h with hanswered | ⟨hdone, hpending⟩
  · exact hanswered
  by_cases hout : r.outputDone = true
  · exact .inr hout
  · refine .inl (pos_of_isFull hsize hcapacity ?_)
    simpa [canDrain, hdone, hpending, hout] using hcan

/-- The loop that empties the codec does not ask the source at all. -/
theorem Hurried.drain {size : Nat} {w : Window} (hsize : 0 < size)
    (h : Hurried Settled r (.fresh size) s moves s₁ (.ok w) r₁)
    (hdrain : (if r₁.canDrain w then drain r₁ w else (.ok w, r₁)) = (result, r')) :
    ∃ moves s', Hurried Answered r (.fresh size) s moves s' result r' := by
  have hcapacity : w.capacity = size := (h.capacity w rfl).trans (Nat.zero_add size)
  split at hdrain
  · next hcan =>
    have hpending : r₁.pending = [] := by
      simp only [canDrain, Bool.and_eq_true, List.isEmpty_iff] at hcan
      exact hcan.2
    obtain ⟨drained, s', hworked, hquiet⟩ := drain_worked hdrain h.acts.codec hpending
    have hends : ∀ w', result = .ok w' → w'.capacity = w.capacity ∧ Answered r' w' := by
      rintro w' rfl
      obtain ⟨turns, s₂, hdrained⟩ := drain_ok hdrain h.acts.codec (spare_pos_of_canDrain hcan)
      refine ⟨hdrained.capacity, ?_⟩
      cases hdrained.ending with
      | finished _ _ _ done => exact .inr done
      | full _ got _ => exact .inl (pos_of_isFull hsize (hdrained.capacity.trans hcapacity) got)
    exact ⟨_, s', .after h.acts h.thrifty h.delivered (h.written w rfl) hworked,
      h.brisk.append_quiet hquiet, fun w' hw => (hends w' hw).1.trans (h.capacity w rfl),
      fun w' hw _ => (hends w' hw).2⟩
  · next hcan =>
    cases hdrain
    refine ⟨moves, s₁, h.toWorked, h.brisk, h.capacity, ?_⟩
    rintro w' ⟨⟩ hadvances
    exact (h.reason w rfl hadvances).answered hsize hcapacity hcan

/-- What an eager request for up to `size` bytes does. -/
structure Hastens (r : Reader σ) (size : Nat) (s : σ) (moves : List Move) (s' : σ)
    (result : Except Failure (List UInt8)) (r' : Reader σ) : Prop extends
    Served r s moves s' (∃ bytes, result = .ok bytes) r' where
  /-- the source is not asked any more once something has been made -/
  brisk : Brisk moves
  /-- an answer is what has been made, and no more than was asked for -/
  made : ∀ bytes, result = .ok bytes → bytes = madeBy (turnsOf moves) ∧ bytes.length ≤ size
  /-- if every turn with input and room does something, an empty answer is the end of the stream -/
  ends : result = .ok [] → 0 < size → (∀ t ∈ turnsOf moves, t.Advances) → r'.outputDone = true

/-- A request that fails. -/
theorem Hastens.failed {size : Nat} {failure : Failure} (h : r.Acts s moves s' r')
    (hthrifty : Thrifty moves) (hbrisk : Brisk moves) :
    Hastens r size s moves s' (.error failure) r' :=
  ⟨⟨h, hthrifty, nofun⟩, hbrisk, nofun, nofun⟩

/-- A request that is not served. -/
theorem Hastens.unserved {size : Nat} {answer : Except Failure (List UInt8)}
    (hcodec : r.codec = .live s) (hanswer : answer = .ok [] ∨ ∃ failure, answer = .error failure)
    (hends : answer = .ok [] → 0 < size → r.outputDone = true) :
    Hastens r size s [] s answer r := by
  refine ⟨.nil hcodec, .of_idle nofun, ?_, fun hok hsize _ => hends hok hsize⟩
  rintro bytes rfl
  rcases hanswer with hok | ⟨failure, hfails⟩
  · cases hok
    exact ⟨rfl, Nat.zero_le _⟩
  · cases hfails

/-- An eager request, whatever the codec and the source do. -/
theorem fill_eager {size : Nat} {result : Except Failure (List UInt8)}
    (h : r.fill true size = (result, r')) (hcodec : r.codec = .live s) :
    ∃ moves s', Hastens r size s moves s' result r' := by
  rw [fill] at h
  split at h
  · cases h
    exact ⟨[], s, .unserved hcodec (.inr ⟨_, rfl⟩) (by simp)⟩
  split at h
  · next hanswered =>
    cases h
    refine ⟨[], s, .unserved hcodec (.inl rfl) fun _ hsize => ?_⟩
    exact hanswered.resolve_right (Nat.ne_of_gt hsize)
  next hanswered =>
  have hsize : 0 < size := Nat.pos_of_ne_zero fun hzero => hanswered (.inr hzero)
  have hroom : 0 < (Window.fresh size).spare := hsize
  rcases hsettle : r.settlePledge with ⟨failure | ⟨⟩, r₁⟩
  · obtain ⟨told, s₁, hacts, hthrifty, -, hidle, -⟩ := settlePledge_acts hsettle hcodec
    simp only [hsettle] at h
    cases h
    exact ⟨told, s₁, .failed hacts hthrifty (.of_idle hidle)⟩
  obtain ⟨told, s₁, hacts, hthrifty, hturns, hidle, hsame⟩ := settlePledge_acts hsettle hcodec
  simp only [hsettle] at h
  rcases hfeed : feed true r₁ (.fresh size) with ⟨failure | w₁, r₂⟩
  · obtain ⟨moves, s₂, hhurried⟩ := feed_eager hfeed hacts.codec hroom
    simp only [hfeed] at h
    cases h
    exact ⟨told ++ moves, s₂, .failed (hacts.trans hhurried.acts)
      (hthrifty.append hhurried.thrifty) (.idle_append hidle hhurried.brisk)⟩
  obtain ⟨fed, s₂, hfed⟩ := feed_eager hfeed hacts.codec hroom
  simp only [hfeed] at h
  rcases hdrain : (if r₂.canDrain w₁ then drain r₂ w₁ else (.ok w₁, r₂)) with ⟨failure | w, r₃⟩
  · obtain ⟨moves, s₃, hhurried⟩ := hfed.drain hsize hdrain
    simp only [hdrain] at h
    cases h
    exact ⟨told ++ moves, s₃, .failed (hacts.trans hhurried.acts)
      (hthrifty.append hhurried.thrifty) (.idle_append hidle hhurried.brisk)⟩
  obtain ⟨moves, s₃, hhurried⟩ := hfed.drain hsize hdrain
  simp only [hdrain] at h
  cases h
  have hall := hacts.trans hhurried.acts
  have hmade : w.written.toList = madeBy (turnsOf (told ++ moves)) := by
    rw [hhurried.written w rfl, turnsOf_append, hturns]
    rfl
  refine ⟨told ++ moves, s₃, ⟨⟨hall.trail, hall.codec, hall.phase, hall.readSize, hall.inputDone,
    hall.outputDone⟩, hthrifty.append hhurried.thrifty, fun _ => ?_⟩,
    .idle_append hidle hhurried.brisk, ?_, ?_⟩
  · rw [← hmade]
    change r₃.delivered + w.pos = _
    rw [hhurried.delivered, hsame]
    rfl
  · rintro bytes ⟨⟩
    refine ⟨hmade, ?_⟩
    have hcapacity : w.capacity = size := (hhurried.capacity w rfl).trans (Nat.zero_add size)
    rw [← hcapacity, Array.length_toList]
    exact Nat.le_add_right _ _
  · intro hnil _ hadvances
    have hempty : w.pos = 0 := by
      rw [Window.pos, ← Array.length_toList, Except.ok.inj hnil, List.length_nil]
    refine (hhurried.reason w rfl fun t ht => hadvances t ?_).resolve_left (by omega)
    rw [turnsOf_append]
    exact List.mem_append_right _ ht

end Reader

end Sluice
