import Sluice.Proofs.ReaderBooks
import Sluice.Toy.Script

/-!
# Short reads

A request that is not eager is answered with less than was asked for only where the reader has come
to an end. That may be the end of the stream. A reader that goes on across frames can also give up
in front of input that it holds: a codec that reports the end of a frame in a step of its own, which
moves nothing, is not asked again once the source has ended.

* `Survives`, `Reader.Stuck` — what turns over input keep, and a reader whose codec has done nothing.
* `Reader.feed_stop`, `Reader.fill_stop` — why a request stops, for every codec and every source.
* `Responsive` — codecs that move something or report the end of a frame.
* `Reader.Over`, `Reader.GivesUp` — the stream is over, and the reader stops in front of its input.
* `Reader.short_answers` — what short answers mean, after any calls.
* `Reader.short_in_front_of_input` — two bytes of three, and the third one later.
-/

namespace Sluice

open Reader (FeedTurn DrainTurn)

variable {σ : Type} [Codec σ]

/-- What holds of a codec and of the input in front of it keeps holding in turns over that input. -/
structure Survives (I : σ → List UInt8 → Prop) : Prop where
  turn {s s' : σ} {t : Turn} {later : List UInt8} :
    I s (t.offered ++ later) → FeedTurn t → t.Leads s s' → I s' (t.rest ++ later)

namespace Reader

/-! ## Why a request stops -/

/-- The input has ended, and in front of what is pending the codec has taken and made nothing. Before
that step, `I` held of it. -/
inductive Stuck (I : σ → List UInt8 → Prop) (r : Reader σ) : Prop where
  | intro {s s' : σ} {t : Turn} {later : List UInt8} (inputDone : r.inputDone = true)
      (holds : I s (t.offered ++ later)) (turn : FeedTurn t) (leads : t.Leads s s')
      (idle : t.taken = [] ∧ t.made = []) (left : r.stopsAtFrameEnd = true → t.left ≠ 0)
      (codec : r.codec = .live s') (pending : t.rest = r.pending)

/-- Nothing that has been pulled is left to be decoded: there is no input any more, or what is
pending lies behind the end of the frame that is the end of the stream. -/
inductive Decoded (r : Reader σ) : Prop where
  | inputGone (inputDone : r.inputDone = true) (pending : r.pending = [])
  | frameEnded {s s' : σ} {t : Turn} (stops : r.stopsAtFrameEnd = true) (turn : FeedTurn t)
      (leads : t.Leads s s') (left : t.left = 0) (codec : r.codec = .live s')
      (pending : t.rest = r.pending)

/-- How the loop that steps and pulls stops, on a window of some capacity. -/
inductive FeedStop (I : σ → List UInt8 → Prop) (eager : Bool) (capacity : Nat) :
    Except Failure Window → Reader σ → Prop where
  | failed {failure : Failure} {r' : Reader σ} (goes_on : r'.outputDone = false) :
      FeedStop I eager capacity (.error failure) r'
  /-- the frame has ended, and the stream with it -/
  | ended {w : Window} {r' : Reader σ} (done : r'.outputDone = true) (decoded : r'.Decoded) :
      FeedStop I eager capacity (.ok w) r'
  | enough {w : Window} {r' : Reader σ} {s' : σ} (goes_on : r'.outputDone = false)
      (codec : r'.codec = .live s') (capacity_eq : w.capacity = capacity)
      (got : w.isFull = true ∨ eager = true ∧ 0 < w.pos) : FeedStop I eager capacity (.ok w) r'
  | inputGone {w : Window} {r' : Reader σ} {s' : σ} (goes_on : r'.outputDone = false)
      (codec : r'.codec = .live s') (capacity_eq : w.capacity = capacity)
      (inputDone : r'.inputDone = true) (pending : r'.pending = []) (room : 0 < w.spare) :
      FeedStop I eager capacity (.ok w) r'
  | stuck {w : Window} {r' : Reader σ} (goes_on : r'.outputDone = false)
      (stuck : r'.Stuck I) : FeedStop I eager capacity (.ok w) r'

omit [Codec σ] in
/-- A pull changes nothing about the input ahead, and does not end the stream. -/
theorem ahead_pull {r r' : Reader σ} (hp : r.pull = (.ok (), r')) :
    r'.ahead = r.ahead ∧ r'.outputDone = r.outputDone := by
  obtain ⟨bytes, source, hsource, rfl⟩ := pull_ok_inv hp
  refine ⟨?_, rfl⟩
  rw [ahead, ahead, Source.content_pull hsource, List.append_assoc]

/-- The loop that steps and pulls stops for one of these reasons, whatever the source does. -/
theorem feed_stop {I : σ → List UInt8 → Prop} (hI : Survives I) {eager : Bool} {r r' : Reader σ}
    {window : Window} {result : Except Failure Window} {s : σ}
    (h : feed eager r window = (result, r')) (hcodec : r.codec = .live s) (hroom : 0 < window.spare)
    (hout : r.outputDone = false) (holds : I s r.ahead) :
    FeedStop I eager window.capacity result r' := by
  have key := feed_induction eager (motive := fun r window s result r' =>
      r.outputDone = false → I s r.ahead → FeedStop I eager window.capacity result r')
    ?ended ?refused ?pulled ?broken ?frame ?enough ?moved ?stuck ?stuck_refused ?stuck_pulled
    hcodec hroom
  · rw [h] at key
    exact key hout holds
  case ended =>
    intro r window s hcodec hroom hpending hdone hout _
    exact .inputGone hout hcodec rfl hdone hpending hroom
  case refused =>
    intro r r' window s failure _ _ hp hout _
    obtain ⟨source, -, rfl⟩ := pull_error_inv hp
    exact .failed hout
  case pulled =>
    intro r r₁ r' window s result _ _ hp ih hout holds
    obtain ⟨hahead, hsame⟩ := ahead_pull hp
    exact ih (hsame.trans hout) (hahead ▸ holds)
  case broken =>
    intro r window s failure _ _ _ hout _
    exact .failed hout
  -- a step that ends the loop
  case frame =>
    intro r r₁ window w₁ s s₁ t hstep hleft hstops _ _
    refine .ended rfl (.frameEnded ?_ hstep.turn hstep.leads hleft hstep.codec hstep.rest)
    exact hstep.same.stops.trans hstops
  case enough =>
    intro r r₁ window w₁ s s₁ t hstep _ hgot hout _
    exact .enough (hstep.outputDone.trans hout) hstep.codec hstep.capacity hgot
  case stuck =>
    intro r r₁ window w₁ s s₁ t hstep hleft hidle hdone hout holds
    refine .stuck (hstep.outputDone.trans hout) (.intro hdone (hstep.ahead ▸ holds) hstep.turn
      hstep.leads hidle ?_ hstep.codec hstep.rest)
    rw [hstep.same.stops]
    exact hleft
  -- or the loop goes on
  case moved =>
    intro r r₁ r' window w₁ s s₁ t result hstep _ _ ih hout holds
    have holds₁ := hI.turn (hstep.ahead ▸ holds) hstep.turn hstep.leads
    rw [← hstep.capacity]
    exact ih (hstep.outputDone.trans hout) (hstep.ahead_after ▸ holds₁)
  case stuck_refused =>
    intro r r₁ r' window w₁ s s₁ t failure hstep _ _ _ hp hout _
    obtain ⟨source, -, rfl⟩ := pull_error_inv hp
    exact .failed (hstep.outputDone.trans hout)
  case stuck_pulled =>
    intro r r₁ r₂ r' window w₁ s s₁ t result hstep _ _ _ hp ih hout holds
    obtain ⟨hahead, hsame⟩ := ahead_pull hp
    have holds₁ := hI.turn (hstep.ahead ▸ holds) hstep.turn hstep.leads
    rw [← hstep.capacity]
    refine ih (hsame.trans (hstep.outputDone.trans hout)) ?_
    rw [hahead, hstep.ahead_after]
    exact holds₁

/-- How a request for `size` bytes stops. -/
inductive FillStop (I : σ → List UInt8 → Prop) (eager : Bool) (size : Nat) :
    Except Failure (List UInt8) → Reader σ → Prop where
  | failed {failure : Failure} {r' : Reader σ} (goes_on : r'.outputDone = false) :
      FillStop I eager size (.error failure) r'
  | ended {bytes : List UInt8} {r' : Reader σ} (done : r'.outputDone = true)
      (decoded : r'.Decoded) : FillStop I eager size (.ok bytes) r'
  | enough {bytes : List UInt8} {r' : Reader σ} (goes_on : r'.outputDone = false)
      (got : bytes.length = size ∨ eager = true) : FillStop I eager size (.ok bytes) r'
  | stuck {bytes : List UInt8} {r' : Reader σ} (goes_on : r'.outputDone = false)
      (stuck : r'.Stuck I) : FillStop I eager size (.ok bytes) r'

omit [Codec σ] in
theorem length_of_isFull {w : Window} {size : Nat} (hcapacity : w.capacity = size)
    (hfull : w.isFull = true) : w.written.toList.length = size := by
  simp only [Window.isFull, beq_iff_eq] at hfull
  rw [← hcapacity, Window.capacity, hfull, Array.length_toList]
  rfl

/-- How much has been delivered does not matter. -/
theorem Stuck.count {I : σ → List UInt8 → Prop} {r : Reader σ} (h : r.Stuck I) (count : Nat) :
    Stuck I { r with delivered := count } := by
  cases h with
  | intro inputDone holds turn leads idle left codec pending =>
    exact .intro inputDone holds turn leads idle left codec pending

theorem Decoded.count {r : Reader σ} (h : r.Decoded) (count : Nat) :
    Decoded { r with delivered := count } := by
  cases h with
  | inputGone inputDone pending => exact .inputGone inputDone pending
  | frameEnded stops turn leads left codec pending =>
    exact .frameEnded stops turn leads left codec pending

/-- A window is drained into only if the loop before has not come to an end in another way. -/
theorem FeedStop.of_canDrain {I : σ → List UInt8 → Prop} {eager : Bool} {capacity : Nat}
    {r : Reader σ} {w : Window} (h : FeedStop I eager capacity (.ok w) r)
    (hcan : r.canDrain w = true) :
    w.capacity = capacity ∧ r.inputDone = true ∧ r.pending = [] ∧ ∃ s, r.codec = .live s := by
  have hout := outputDone_of_canDrain hcan
  simp only [canDrain, Bool.and_eq_true, List.isEmpty_iff] at hcan
  obtain ⟨⟨⟨hdone, -⟩, -⟩, hpending⟩ := hcan
  cases h with
  | ended done _ => exact Bool.noConfusion (hout.symm.trans done)
  | enough _ codec capacity_eq _ => exact ⟨capacity_eq, hdone, hpending, _, codec⟩
  | inputGone _ codec capacity_eq _ _ _ => exact ⟨capacity_eq, hdone, hpending, _, codec⟩
  | stuck _ stuck =>
    cases stuck with
    | intro _ _ turn _ idle _ _ pending =>
      -- a turn that takes nothing leaves what it was offered
      refine absurd (pending.trans hpending) fun hrest => turn.offered ?_
      rw [Turn.offered, idle.1, hrest]
      rfl

/-- A window that has been drained into is full, or the stream is over. -/
theorem FeedStop.drain {I : σ → List UInt8 → Prop} {eager : Bool} {size : Nat} {r r' : Reader σ}
    {w w' : Window} (h : FeedStop I eager size (.ok w) r) (hcan : r.canDrain w = true)
    (hdrain : r.drain w = (.ok w', r')) :
    FillStop I eager size (.ok w'.written.toList) { r' with delivered := r'.delivered + w'.pos } := by
  obtain ⟨hcapacity, hdone, hpending, s, hcodec⟩ := h.of_canDrain hcan
  obtain ⟨turns, s', hdrained⟩ := drain_ok hdrain hcodec (spare_pos_of_canDrain hcan)
  have hsame := hdrained.same
  cases hdrained.ending with
  | finished _ _ _ done =>
    refine .ended done (.inputGone ?_ ?_)
    · rw [hsame]
      exact hdone
    · rw [hsame]
      exact hpending
  | full _ got same =>
    refine .enough (same.trans (outputDone_of_canDrain hcan)) (.inl ?_)
    exact length_of_isFull (hdrained.capacity.trans hcapacity) got

/-- A window that is not drained into is what the loop before has left of it. -/
theorem FeedStop.keep {I : σ → List UInt8 → Prop} {eager : Bool} {size : Nat} {r : Reader σ}
    {w : Window} (h : FeedStop I eager size (.ok w) r) (hcan : ¬ r.canDrain w = true) :
    FillStop I eager size (.ok w.written.toList) { r with delivered := r.delivered + w.pos } := by
  cases h with
  | ended done decoded => exact .ended done (decoded.count _)
  | enough goes_on _ capacity_eq got =>
    exact .enough goes_on (got.imp (length_of_isFull capacity_eq) And.left)
  | inputGone goes_on _ _ inputDone pending room =>
    -- there is room to drain into
    refine absurd ?_ hcan
    simp [canDrain, inputDone, goes_on, pending, Window.isFull, Nat.ne_of_gt room]
  | stuck goes_on stuck => exact .stuck goes_on (stuck.count _)

/-- A request stops for one of these reasons, whatever the codec and the source do. -/
theorem fill_stop {I : σ → List UInt8 → Prop} (hI : Survives I) {eager : Bool} {r r' : Reader σ}
    {size : Nat} {result : Except Failure (List UInt8)} {s : σ}
    (h : r.fill eager size = (result, r')) (hphase : r.phase ≠ .closed)
    (hout : r.outputDone = false) (hpledged : r.owesPledge = false) (hcodec : r.codec = .live s)
    (holds : I s r.ahead) (hsize : 0 < size) : FillStop I eager size result r' := by
  rw [fill, if_neg hphase, if_neg (not_answered hout hsize), settlePledge, hpledged] at h
  simp only [Bool.false_eq_true, if_false] at h
  rcases hfeed : feed eager r (.fresh size) with ⟨failure | w, r₁⟩
  · have hstop := feed_stop hI hfeed hcodec hsize hout holds
    simp only [hfeed] at h
    cases h
    cases hstop with
    | failed goes_on => exact .failed goes_on
  have hstop := feed_stop hI hfeed hcodec hsize hout holds
  have hcapacity : (Window.fresh size).capacity = size := Nat.zero_add size
  rw [hcapacity] at hstop
  simp only [hfeed] at h
  by_cases hcan : r₁.canDrain w = true
  · rw [if_pos hcan] at h
    rcases hdrain : drain r₁ w with ⟨failure | w', r₂⟩
    · obtain ⟨-, -, -, s₁, hlive⟩ := hstop.of_canDrain hcan
      obtain ⟨turns, s', hfailed⟩ := drain_error hdrain hlive (spare_pos_of_canDrain hcan)
      obtain ⟨room, -, -, rfl⟩ := hfailed.step
      simp only [hdrain] at h
      cases h
      exact .failed (outputDone_of_canDrain hcan)
    · simp only [hdrain] at h
      cases h
      exact hstop.drain hcan hdrain
  · rw [if_neg hcan] at h
    cases h
    exact hstop.keep hcan

/-- A request is answered with what the loop that steps and pulls has left, if nothing can be
drained. -/
theorem fill_of_feed {eager : Bool} {r r' : Reader σ} {size : Nat} {w : Window}
    (hphase : r.phase ≠ .closed) (hanswered : ¬ (r.outputDone = true ∨ size = 0))
    (hpledged : r.owesPledge = false) (hfeed : feed eager r (.fresh size) = (.ok w, r'))
    (hcan : r'.canDrain w = false) :
    r.fill eager size = (.ok w.written.toList, { r' with delivered := r'.delivered + w.pos }) := by
  rw [fill, if_neg hphase, if_neg hanswered, settlePledge, hpledged]
  simp only [Bool.false_eq_true, if_false, hfeed, hcan]

/-- A request fails if the loop that steps and pulls does. -/
theorem fill_of_feed_error {eager : Bool} {r r' : Reader σ} {size : Nat} {failure : Failure}
    (hphase : r.phase ≠ .closed) (hanswered : ¬ (r.outputDone = true ∨ size = 0))
    (hpledged : r.owesPledge = false) (hfeed : feed eager r (.fresh size) = (.error failure, r')) :
    r.fill eager size = (.error failure, r') := by
  rw [fill, if_neg hphase, if_neg hanswered, settlePledge, hpledged]
  simp only [Bool.false_eq_true, if_false, hfeed]

end Reader

/-! ## Codecs that respond -/

/-- Codecs that move something in every turn over input, or report the end of a frame. Whatever is
done to them, they stay in `Good` states. -/
structure Responsive (Good : σ → Prop) : Prop where
  step {s : σ} (unread : List UInt8) (room : Nat) (directive : Directive) :
    Good s → Good (Codec.step s unread room directive).state
  pledge {s : σ} (size : Option Nat) : Good s → Good (Codec.pledge s size).2
  responds {s s' : σ} {t : Turn} :
    Good s → FeedTurn t → t.Leads s s' → t.taken ≠ [] ∨ t.made ≠ [] ∨ t.left = 0

namespace Responsive

variable {Good : σ → Prop}

/-- A turn is a step. -/
theorem turn (hG : Responsive Good) {s s' : σ} {t : Turn} (hgood : Good s) (h : t.Leads s s') :
    Good s' := by
  rw [← h.state]
  exact hG.step _ _ _ hgood

theorem survives (hG : Responsive Good) : Survives fun s _ => Good s :=
  ⟨fun hgood _ hlead => hG.turn hgood hlead⟩

/-- Along a trail, the codec stays in good states. -/
theorem trail (hG : Responsive Good) {size : Nat} {p p' : Place σ} {moves : List Move}
    (h : Trail size p moves p') (hgood : Good p.codec) : Good p'.codec := by
  induction h with
  | nil => exact hgood
  | cons first others ih =>
    apply ih
    cases first with
    | pull | refused => exact hgood
    | turn leads => exact hG.turn hgood leads
    | broken => exact hG.step _ _ _ hgood
    | pledge => exact hG.pledge _ hgood

end Responsive

namespace Reader

variable {Good : σ → Prop} {stops : Bool} {r r' : Reader σ} {s s' : σ}

/-- A reader over a codec in a good state, which is done only where nothing is left to be decoded. It
stops at the end of a frame, or it does not. -/
structure Fit (Good : σ → Prop) (stops : Bool) (r : Reader σ) : Prop where
  phase : r.phase ≠ .closed
  codec : ∃ s, r.codec = .live s ∧ Good s
  stops : r.stopsAtFrameEnd = stops
  decoded : r.outputDone = true → r.Decoded

/-- A request on a reader over a codec that responds stops for one of the reasons. -/
theorem Fit.fill_stop (hG : Responsive Good) (h : r.Fit Good stops) {eager : Bool} {size : Nat}
    {result : Except Failure (List UInt8)} (hfill : r.fill eager size = (result, r'))
    (hout : r.outputDone = false) (hsize : 0 < size) :
    FillStop (fun s _ => Good s) eager size result r' := by
  obtain ⟨s, hcodec, hgood⟩ := h.codec
  rcases hsettle : r.settlePledge with ⟨answer, r₁⟩
  obtain ⟨s₁, owes, rfl, hs₁, hsettled⟩ := settlePledge_inv hsettle hcodec
  have hgood₁ : Good s₁ := by
    rcases hs₁ with rfl | rfl
    · exact hgood
    · exact hG.pledge none hgood
  rw [fill, if_neg h.phase, if_neg (not_answered hout hsize), hsettle] at hfill
  cases answer with
  | error failure =>
    cases hfill
    exact .failed hout
  | ok =>
    -- from now on the request is one on the reader that has told its codec
    obtain rfl := hsettled rfl
    refine Reader.fill_stop (r := { r with codec := .live s₁, owesPledge := false })
      hG.survives ?_ h.phase hout rfl rfl hgood₁ hsize
    rw [fill, if_neg h.phase, if_neg (not_answered hout hsize), settlePledge,
      if_neg Bool.false_ne_true]
    exact hfill

/-- Every request leaves the reader fit, whether it fails or not. -/
theorem Fit.fill (hG : Responsive Good) (h : r.Fit Good stops) {eager : Bool} {size : Nat}
    {result : Except Failure (List UInt8)} (hfill : r.fill eager size = (result, r')) :
    r'.Fit Good stops := by
  obtain ⟨s, hcodec, hgood⟩ := h.codec
  obtain ⟨moves, s', hserved, -⟩ := fill_served hfill hcodec
  have hphase : r'.phase ≠ .closed := by
    rw [hserved.acts.phase]
    exact h.phase
  have hsettings : r.SameSettings r' := by
    have hkept := settings_fill eager r size
    rwa [hfill] at hkept
  have hgood' : Good s' := hG.trail hserved.acts.trail hgood
  refine ⟨hphase, ⟨s', hserved.acts.codec, hgood'⟩, hsettings.stops.trans h.stops,
    fun hdone => ?_⟩
  by_cases hanswered : r.outputDone = true ∨ size = 0
  · rw [Reader.fill, if_neg h.phase, if_pos hanswered] at hfill
    cases hfill
    exact h.decoded hdone
  · obtain ⟨hout, hsize⟩ := not_or.1 hanswered
    cases h.fill_stop hG hfill (Bool.eq_false_iff.2 hout) (Nat.pos_of_ne_zero hsize) with
    | ended _ decoded => exact decoded
    | failed goes_on | enough goes_on _ | stuck goes_on _ =>
      exact Bool.noConfusion (goes_on.symm.trans hdone)

/-! ## What a short answer means -/

/-- The stream is over: nothing is left to be decoded, and from now on every request is answered with
nothing, without a step and without a pull. -/
structure Over (r : Reader σ) : Prop where
  done : r.outputDone = true
  decoded : r.Decoded
  silent {requests : List Request} : (∀ request ∈ requests, 0 < request.size) →
    r.serve requests = (requests.map fun _ => .ok [], r)

/-- The reader stops in front of input that it holds, and that it will go on with when it is asked
again. The codec has reported the end of a frame in a step of its own, after the source had ended.
-/
inductive GivesUp (Good : σ → Prop) (r : Reader σ) : Prop where
  | intro {s s' : σ} {t : Turn} (goes_on : r.outputDone = false)
      (across : r.stopsAtFrameEnd = false) (inputDone : r.inputDone = true)
      (pending : r.pending ≠ []) (good : Good s) (turn : FeedTurn t) (leads : t.Leads s s')
      (offered : t.offered = r.pending) (idle : t.taken = [] ∧ t.made = []) (left : t.left = 0)
      (codec : r.codec = .live s')

/-- A reader that is done is silent. -/
theorem Fit.isOver (h : r.Fit Good stops) (hdone : r.outputDone = true) : r.Over where
  done := hdone
  decoded := h.decoded hdone
  silent {requests} := by
    intro hpos
    induction requests with
    | nil => rfl
    | cons request requests ih =>
      have hanswer : r.answer request = (.ok [], r) := by
        rw [answer_eq_fill r (hpos request List.mem_cons_self), Reader.fill, if_neg h.phase,
          if_pos (.inl hdone)]
      rw [serve, hanswer]
      simp only [ih fun request hmem => hpos request (List.mem_cons_of_mem _ hmem), List.map_cons]

/-- A codec that responds is stuck only where it has reported the end of a frame. -/
theorem Stuck.givesUp (hG : Responsive Good) (h : r.Stuck fun s _ => Good s)
    (hout : r.outputDone = false) : r.GivesUp Good := by
  cases h with
  | @intro s s' t later inputDone holds turn leads idle left codec pending =>
    have hoffered : t.offered = r.pending := by
      rw [Turn.offered, idle.1, pending]
      rfl
    have hleft : t.left = 0 := by
      rcases hG.responds holds turn leads with htaken | hmade | hleft
      · exact absurd idle.1 htaken
      · exact absurd idle.2 hmade
      · exact hleft
    refine .intro hout ?_ inputDone (hoffered ▸ turn.offered) holds turn leads hoffered idle hleft
      codec
    exact Bool.eq_false_iff.2 fun hstops => left hstops hleft

/-- How a reader comes to answer with less than was asked for: the stream is over, or one that does
not stop at the end of a frame gives up. -/
def Ends (Good : σ → Prop) (stops : Bool) (r : Reader σ) : Prop :=
  r.Over ∨ stops = false ∧ r.GivesUp Good

theorem GivesUp.across (h : r.GivesUp Good) : r.stopsAtFrameEnd = false := by
  cases h
  assumption

/-- A request that is not eager and answered with less than was asked for has come to the end of the
stream, or the reader gives up. -/
theorem Fit.of_short (hG : Responsive Good) (h : r.Fit Good stops) {size : Nat} {bytes : List UInt8}
    (hfill : r.fill false size = (.ok bytes, r')) (hshort : bytes.length < size) :
    r'.Ends Good stops := by
  have hfit := h.fill hG hfill
  by_cases hout : r.outputDone = true
  · rw [Reader.fill, if_neg h.phase, if_pos (.inl hout)] at hfill
    cases hfill
    exact .inl (h.isOver hout)
  · cases h.fill_stop hG hfill (Bool.eq_false_iff.2 hout) (Nat.zero_lt_of_lt hshort) with
    | ended done _ => exact .inl (hfit.isOver done)
    | enough _ got =>
      rcases got with hfull | heager
      · exact absurd hfull (Nat.ne_of_lt hshort)
      · cases heager
    | stuck goes_on stuck =>
      have hgivesUp := stuck.givesUp hG goes_on
      exact .inr ⟨hfit.stops.symm.trans hgivesUp.across, hgivesUp⟩

/-- `P` holds of the reader after every short answer to a request that is not eager, and after
everything has been read. -/
structure ShortMeans (P : Reader σ → Prop) (r : Reader σ) : Prop where
  answer {request : Request} {bytes : List UInt8} : request.isEager = false →
    (r.answer request).1 = .ok bytes → bytes.length < request.size → P (r.answer request).2
  readAll {limit : Nat} {bytes : List UInt8} :
    (r.readAll limit).1 = .ok bytes → P (r.readAll limit).2

theorem ShortMeans.imp {P Q : Reader σ → Prop} (himp : ∀ r, P r → Q r) (h : ShortMeans P r) :
    ShortMeans Q r :=
  ⟨fun heager hok hshort => himp _ (h.answer heager hok hshort), fun hok => himp _ (h.readAll hok)⟩

/-- Reading everything ends with an answer that is short. -/
theorem Fit.readAll (hG : Responsive Good) (h : r.Fit Good stops) {limit : Nat} {acc : Array UInt8}
    {bytes : List UInt8} (hread : r.readAll limit acc = (.ok bytes, r')) :
    r'.Ends Good stops := by
  induction limit generalizing r acc with
  | zero => cases hread
  | succ limit ih =>
    rw [Reader.readAll] at hread
    rcases hanswer : r.readInto decompressionOutputSize with ⟨failure | ⟨_ | ⟨byte, rest⟩⟩, r₁⟩
    · simp only [hanswer] at hread
      cases hread
    · simp only [hanswer] at hread
      cases hread
      exact h.of_short hG hanswer (by decide)
    · simp only [hanswer] at hread
      exact ih (h.fill hG hanswer) hread

theorem Fit.shortMeans (hG : Responsive Good) (h : r.Fit Good stops) :
    ShortMeans (Ends Good stops) r where
  answer {request bytes} := by
    intro heager hok hshort
    rw [answer_eq_fill r (Nat.zero_lt_of_lt hshort), heager] at hok ⊢
    exact h.of_short hG (Prod.ext hok rfl) hshort
  readAll {limit bytes} := by
    intro hok
    exact h.readAll hG (Prod.ext hok rfl)

theorem fit_of_new {direction : Direction} {codec : σ} {source : Source} {settings : ReaderSettings}
    (hgood : Good codec) (hnew : Reader.new direction codec source settings = .ok r)
    (hopen : r' = r ∨ r.enter = (.ok (), r')) :
    r'.Fit Good (direction = .decompressing && !settings.acrossFrames) := by
  obtain ⟨-, rfl⟩ := new_ok hnew
  rcases hopen with rfl | henter
  · exact ⟨Phase.noConfusion, ⟨codec, rfl, hgood⟩, rfl, nofun⟩
  · obtain rfl := enter_ok henter
    exact ⟨Phase.noConfusion, ⟨codec, rfl, hgood⟩, rfl, nofun⟩

/-- A short answer means that the stream is over, or that the reader gives up; this may happen only
to one that goes on across frames, with a codec that can report the end of a frame without moving
anything. -/
theorem short_answers {direction : Direction} {codec : σ} {source : Source}
    {settings : ReaderSettings} (hG : Responsive Good) (hgood : Good codec)
    (hnew : Reader.new direction codec source settings = .ok r)
    (hopen : r' = r ∨ r.enter = (.ok (), r')) (calls : List ReaderCall) :
    ShortMeans (Ends Good (direction = .decompressing && !settings.acrossFrames))
        (r'.callAll calls).2 ∧
      ((∀ {s s' : σ} {t : Turn}, Good s → FeedTurn t → t.Leads s s' → t.taken ≠ [] ∨ t.made ≠ []) →
        ShortMeans Over (r'.callAll calls).2) := by
  have hfit := callAll_preserves (fun eager size h _ => h.fill hG rfl) (fit_of_new hgood hnew hopen)
    calls False.elim
  have hmeans := hfit.shortMeans hG
  refine ⟨hmeans, fun hmoves => hmeans.imp fun r hends => ?_⟩
  rcases hends with hover | ⟨-, hgivesUp⟩
  · exact hover
  · cases hgivesUp with
    | intro _ _ _ _ good turn leads _ idle _ _ =>
      rcases hmoves good turn leads with htaken | hmade
      · exact absurd idle.1 htaken
      · exact absurd idle.2 hmade

end Reader

namespace Toy.Script

/-- Every line takes something, or reports the end of a frame. -/
def Reports (s : Script) : Prop := ∀ line ∈ s.lines, 0 < line.take ∨ line.result = .ok 0

theorem responsive : Responsive Reports where
  step {s} unread room directive := by
    intro hreports
    rcases s with ⟨_ | ⟨line, lines⟩⟩
    · exact hreports
    · exact fun later hmem => hreports later (List.mem_cons_of_mem line hmem)
  pledge {s} size := id
  responds {s s' t} := by
    intro hreports hturn hlead
    obtain ⟨byte, others, hoffered⟩ := List.exists_cons_of_ne_nil hturn.offered
    have htaken : 0 < (Codec.step s t.offered t.room t.directive).taken → t.taken ≠ [] := by
      intro hpos
      obtain ⟨count, hcount⟩ := Nat.exists_eq_succ_of_ne_zero (Nat.ne_of_gt hpos)
      rw [hlead.taken, hcount, hoffered, List.take_succ_cons]
      exact List.cons_ne_nil _ _
    have hlength : 0 < t.offered.length := List.length_pos_iff.2 hturn.offered
    rcases s with ⟨_ | ⟨line, lines⟩⟩
    · -- the script is over, and the step copies
      refine .inl (htaken ?_)
      have hcopied : (Codec.step (⟨[]⟩ : Script) t.offered t.room t.directive).taken =
        (t.offered.take t.room).length := rfl
      have := hturn.room_pos
      rw [hcopied, List.length_take]
      omega
    · rcases hreports line List.mem_cons_self with htake | hzero
      · refine .inl (htaken ?_)
        have htook : (Codec.step (⟨line :: lines⟩ : Script) t.offered t.room t.directive).taken =
          min line.take t.offered.length := rfl
        omega
      · have hresult : line.result = .ok t.left := hlead.result
        exact .inr (.inr (Except.ok.inj (hresult.symm.trans hzero)))

/-- Two frames of a byte each, whose ends are reported in steps of their own. -/
def lone : Script :=
  ⟨[⟨1, [0x61], .ok 1⟩, ⟨0, [], .ok 0⟩, ⟨1, [0x62], .ok 1⟩, ⟨0, [], .ok 0⟩]⟩

theorem reports_lone : lone.Reports := by
  simp [Reports, lone]

/-- A reader that goes on across frames, in the middle of its work on three bytes. -/
def midway (lines : List Line) (requests : Array Nat) (pending : List UInt8) (inputDone : Bool)
    (delivered : Nat) : Reader Script where
  phase := .notEntered
  direction := .decompressing
  source := ⟨[], [], requests⟩
  codec := .live ⟨lines⟩
  readSize := 8
  pending := pending
  inputDone := inputDone
  outputDone := false
  delivered := delivered
  owesPledge := false
  stopsAtFrameEnd := false

end Toy.Script

namespace Reader

open Toy.Script (lone midway)

/-- After the first byte of three, the next short answer is one of those. -/
theorem short_answers_script :
    ∃ r, Reader.new .decompressing lone ⟨[0x61, 0x62, 0x63], [], #[]⟩ ⟨8, true⟩ = .ok r ∧
      ShortMeans (Ends Toy.Script.Reports false) (r.callAll [.request (.read 1)]).2 := by
  have hnew : Reader.new .decompressing lone ⟨[0x61, 0x62, 0x63], [], #[]⟩ ⟨8, true⟩ =
    .ok _ := rfl
  exact ⟨_, hnew, (short_answers Toy.Script.responsive Toy.Script.reports_lone hnew (.inl rfl) _).1⟩

/-- The second end of a frame is reported when the source has ended, and the third byte is still
pending. -/
theorem feed_lone {r : Reader Toy.Script}
    (hnew : Reader.new .decompressing lone ⟨[0x61, 0x62, 0x63], [], #[]⟩ ⟨8, true⟩ = .ok r) :
    feed false r (.fresh 10) = (.ok ⟨#[0x61, 0x62], 8, []⟩, midway [] #[8, 8] [0x63] true 0) := by
  cases hnew
  have hend : (midway (lone.lines.drop 2) #[8] [0x62, 0x63] false 0).pull =
      (.ok (), midway (lone.lines.drop 2) #[8, 8] [0x62, 0x63] true 0) :=
    pull_of_source_ok (Source.pull_of_read_ok rfl)
  calc
    _ = feed false (midway lone.lines #[8] [0x61, 0x62, 0x63] false 0) (.fresh 10) :=
        feed_pull rfl rfl (pull_of_source_ok (Source.pull_of_read_ok rfl))
    _ = feed false (midway (lone.lines.drop 1) #[8] [0x62, 0x63] false 0) ⟨#[0x61], 9, []⟩ :=
        feed_eq_feedStepped (r := midway lone.lines #[8] [0x61, 0x62, 0x63] false 0) (by decide)
          rfl rfl
    _ = feed false (midway (lone.lines.drop 2) #[8, 8] [0x62, 0x63] true 0) ⟨#[0x61], 9, []⟩ :=
        (feed_eq_feedStepped (by decide) rfl rfl).trans
          (feedStepped_idle (by decide) rfl (by decide) rfl hend)
    _ = feed false (midway (lone.lines.drop 3) #[8, 8] [0x63] true 0) ⟨#[0x61, 0x62], 8, []⟩ :=
        feed_eq_feedStepped (r := midway (lone.lines.drop 2) #[8, 8] [0x62, 0x63] true 0) (by decide)
          rfl rfl
    _ = (.ok ⟨#[0x61, 0x62], 8, []⟩, midway [] #[8, 8] [0x63] true 0) :=
        feed_eq_feedStepped (r := midway (lone.lines.drop 3) #[8, 8] [0x63] true 0) (by decide)
          rfl rfl

/-- Over a codec that responds, of ten bytes that are asked for two are delivered, although the stream
goes on: the next request gets the third byte. -/
theorem short_in_front_of_input :
    Responsive Toy.Script.Reports ∧ lone.Reports ∧ ∃ r r',
      Reader.new .decompressing lone ⟨[0x61, 0x62, 0x63], [], #[]⟩ ⟨8, true⟩ = .ok r ∧
      r.answer (.read 10) = (.ok [0x61, 0x62], r') ∧ r'.outputDone = false ∧ r'.pending = [0x63] ∧
      (r'.answer (.read 1)).1 = .ok [0x63] := by
  have hnew : Reader.new .decompressing lone ⟨[0x61, 0x62, 0x63], [], #[]⟩ ⟨8, true⟩ = .ok _ := rfl
  have hlast : feed false (midway [] #[8, 8] [0x63] true 2) (.fresh 1) =
      (.ok ⟨#[0x63], 0, []⟩, midway [] #[8, 8] [] true 2) :=
    feed_eq_feedStepped (r := midway [] #[8, 8] [0x63] true 2) (by decide) rfl rfl
  refine ⟨Toy.Script.responsive, Toy.Script.reports_lone, _, midway [] #[8, 8] [0x63] true 2, hnew,
    ?_, rfl, rfl, ?_⟩
  · exact fill_of_feed Phase.noConfusion (by decide) rfl (feed_lone hnew) rfl
  · exact congrArg Prod.fst (fill_of_feed Phase.noConfusion (by decide) rfl hlast rfl)

end Reader

end Sluice
