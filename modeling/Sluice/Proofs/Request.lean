import Sluice.Proofs.Feeding

/-!
# Requests

A request steps and pulls, and empties the codec once the input has ended. What it delivers is what
the codec made on the way.

* `Reader.drain_ok`, `Reader.drain_error` — the loop that empties the codec.
* `Reader.fill_ok`, `Reader.fill_error` — a whole request.
* `Reader.settings_fill` — what no request changes.
-/

namespace Sluice

namespace Reader

variable {σ : Type} [Codec σ]

/-! ## Emptying the codec -/

/-- A turn of the loop that empties the codec. -/
structure DrainTurn (t : Turn) : Prop where
  directive : t.directive = .finish
  offered : t.offered = []
  room_pos : 0 < t.room

/-- How far the loop that empties the codec came. A turn after which it goes on has asked for
another one and has made something. -/
inductive DrainEnd (r r' : Reader σ) (w : Window) (turns : List Turn) : Prop where
  /-- the stream has ended -/
  | finished {before : List Turn} {last : Turn} (split : turns = before ++ [last])
      (before_left : ∀ t ∈ before, t.left ≠ 0 ∧ t.made ≠ [])
      (last_left : last.left = 0 ∨ last.made = []) (done : r'.outputDone = true)
  /-- the window is full, and there is more to come -/
  | full (left : ∀ t ∈ turns, t.left ≠ 0 ∧ t.made ≠ []) (got : w.isFull = true)
      (same : r'.outputDone = r.outputDone)

/-- What the loop that empties the codec has done when it succeeds. -/
structure Drained (r : Reader σ) (window : Window) (s : σ) (turns : List Turn) (s' : σ)
    (w : Window) (r' : Reader σ) : Prop where
  course : Course s [] turns s' []
  turn : ∀ t ∈ turns, DrainTurn t
  same : r' = { r with codec := .live s', outputDone := r'.outputDone }
  written : w.written.toList = window.written.toList ++ madeBy turns
  capacity : w.capacity = window.capacity
  ending : DrainEnd r r' w turns

section Step

variable {s : σ} {window : Window} {left : Nat}

/-- The step of the loop that empties the codec, as a turn. -/
abbrev drainStep (s : σ) (window : Window) (left : Nat) : Turn :=
  .ofStep s [] window.spare .finish left

theorem drainTurn_drainStep (hroom : 0 < window.spare) : DrainTurn (drainStep s window left) :=
  ⟨rfl, Turn.offered_ofStep .., hroom⟩

theorem drainStep_made_ne_nil :
    (drainStep s window left).made ≠ [] ↔
      window.pos < (drive s .empty window .finish).window.pos := by
  have hpos := drive_pos s .empty window .finish left
  rw [hpos, ← List.length_pos_iff]
  exact (Nat.lt_add_right_iff_pos).symm

theorem written_drainStep :
    (drive s .empty window .finish).window.written.toList =
      window.written.toList ++ (drainStep s window left).made := drive_written ..

/-- Without input, a course is the turns one after the other. -/
theorem course_cons_drainStep {s' : σ} {turns : List Turn}
    (hres : (drive s .empty window .finish).result = .ok left)
    (h : Course (drive s .empty window .finish).codec [] turns s' []) :
    Course s [] (drainStep s window left :: turns) s' [] := by
  refine Course.cons_drive (s := s) hres ?_
  have hunread : (drive s .empty window .finish).input.unread = [] := List.drop_nil
  rw [hunread]
  exact h

end Step

theorem drain_ok {r r' : Reader σ} {window w : Window} {s : σ}
    (h : drain r window = (.ok w, r')) (hcodec : r.codec = .live s) (hroom : 0 < window.spare) :
    ∃ turns s', Drained r window s turns s' w r' := by
  fun_induction drain r window generalizing s
  case case1 => cases h
  case case2 => cases h
  case case3 r window codec hlive driven stepped left hres hmoved hfull =>
    simp only [Prod.mk.injEq, Except.ok.injEq] at h
    obtain ⟨rfl, rfl⟩ := h
    obtain rfl : codec = s := Slot.live.inj (hlive.symm.trans hcodec)
    refine ⟨[drainStep codec window left], _, course_cons_drainStep hres .nil, ?_, rfl, ?_,
      Window.capacity_put .., .full ?_ hfull rfl⟩
    · simpa using drainTurn_drainStep hroom
    · rw [madeBy_cons, madeBy_nil, List.append_nil]
      exact written_drainStep
    · simpa using ⟨hmoved.1, drainStep_made_ne_nil.2 hmoved.2⟩
  case case4 r window codec hlive driven stepped left hres hmoved hfull ih =>
    obtain rfl : codec = s := Slot.live.inj (hlive.symm.trans hcodec)
    -- the window is not full, so that there is room for another turn
    have hroom₁ : 0 < driven.window.spare := by
      simp only [Window.isFull, beq_iff_eq] at hfull
      omega
    obtain ⟨turns, s', hd⟩ := ih h rfl hroom₁
    have hleft : (drainStep codec window left).left ≠ 0 ∧ (drainStep codec window left).made ≠ [] :=
      ⟨hmoved.1, drainStep_made_ne_nil.2 hmoved.2⟩
    refine ⟨drainStep codec window left :: turns, s', course_cons_drainStep hres hd.course, ?_,
      hd.same, ?_, hd.capacity.trans (Window.capacity_put ..), ?_⟩
    · simpa using ⟨drainTurn_drainStep hroom, hd.turn⟩
    · rw [hd.written, madeBy_cons, ← List.append_assoc]
      exact congrArg (· ++ madeBy turns) written_drainStep
    · cases hd.ending with
      | @finished before last split before_left last_left done =>
        have hsplit : drainStep codec window left :: turns =
            (drainStep codec window left :: before) ++ [last] := congrArg (_ :: ·) split
        refine .finished hsplit ?_ last_left done
        simpa using ⟨hleft, before_left⟩
      | full left got same =>
        refine .full ?_ got same
        simpa using ⟨hleft, left⟩
  case case5 r window codec hlive driven stepped left hres hmoved =>
    simp only [Prod.mk.injEq, Except.ok.injEq] at h
    obtain ⟨rfl, rfl⟩ := h
    obtain rfl : codec = s := Slot.live.inj (hlive.symm.trans hcodec)
    refine ⟨[drainStep codec window left], _, course_cons_drainStep hres .nil, ?_, rfl, ?_,
      Window.capacity_put .., .finished (List.nil_append _).symm (by simp) ?_ rfl⟩
    · simpa using drainTurn_drainStep hroom
    · rw [madeBy_cons, madeBy_nil, List.append_nil]
      exact written_drainStep
    · by_cases hleft : left = 0
      · exact .inl hleft
      · refine .inr (Classical.not_not.1 fun hmade => hmoved ⟨hleft, ?_⟩)
        exact drainStep_made_ne_nil.1 hmade

/-- What the loop that empties the codec has done when it fails. -/
structure DrainFailed (r : Reader σ) (s : σ) (turns : List Turn) (s' : σ) (r' : Reader σ)
    (failure : Failure) : Prop where
  course : Course s [] turns s' []
  turn : ∀ t ∈ turns, DrainTurn t ∧ t.left ≠ 0
  step : ∃ room, 0 < room ∧ (Codec.step s' [] room .finish).result = .error failure ∧
    r' = { r with codec := .live (Codec.step s' [] room .finish).state }

/-- What the loop that empties the codec has done, if it fails. -/
theorem drain_error {r r' : Reader σ} {window : Window} {s : σ} {failure : Failure}
    (h : drain r window = (.error failure, r')) (hcodec : r.codec = .live s)
    (hroom : 0 < window.spare) : ∃ turns s', DrainFailed r s turns s' r' failure := by
  fun_induction drain r window generalizing s
  case case1 r window codec hretired =>
    rw [hcodec] at hretired
    cases hretired
  case case2 r window codec hlive driven stepped failure hres =>
    simp only [Prod.mk.injEq, Except.error.injEq] at h
    obtain ⟨rfl, rfl⟩ := h
    obtain rfl : codec = s := Slot.live.inj (hlive.symm.trans hcodec)
    exact ⟨[], codec, .nil, by simp, window.spare, hroom, hres, rfl⟩
  case case3 => cases h
  case case4 r window codec hlive driven stepped left hres hmoved hfull ih =>
    obtain rfl : codec = s := Slot.live.inj (hlive.symm.trans hcodec)
    have hroom₁ : 0 < driven.window.spare := by
      simp only [Window.isFull, beq_iff_eq] at hfull
      omega
    obtain ⟨turns, s', hfailed⟩ := ih h rfl hroom₁
    refine ⟨drainStep codec window left :: turns, s', course_cons_drainStep hres hfailed.course, ?_,
      hfailed.step⟩
    intro t ht
    rcases List.mem_cons.1 ht with rfl | ht
    · exact ⟨drainTurn_drainStep hroom, hmoved.1⟩
    · exact hfailed.turn t ht
  case case5 => cases h

/-! ## Whole requests -/

/-- A reader that requests work on: it is open, the stream has not ended, and the codec knows all
that it is to be told. -/
structure Running (r : Reader σ) (s : σ) : Prop where
  phase : r.phase ≠ .closed
  outputDone : r.outputDone = false
  pledged : r.owesPledge = false
  codec : r.codec = .live s
  sound : r.Sound

/-- Why a request came to its end. The turns `fed` step and pull, the turns `drained` empty the
codec. -/
inductive FillEnd (r r' : Reader σ) (bytes : List UInt8) (fed drained : List Turn) : Prop where
  /-- the frame has ended, and the stream with it -/
  | frame {before : List Turn} {last : Turn} (split : fed = before ++ [last])
      (last_left : last.left = 0) (before_left : ∀ t ∈ before, t.left ≠ 0)
      (stops : r.stopsAtFrameEnd = true) (drained_nil : drained = []) (done : r'.outputDone = true)
  /-- there is something to deliver -/
  | enough (left : r.stopsAtFrameEnd = true → ∀ t ∈ fed, t.left ≠ 0) (drained_nil : drained = [])
      (got : bytes ≠ []) (goes_on : r'.outputDone = false)
  /-- the codec has been emptied -/
  | finished {before : List Turn} {last : Turn}
      (left : r.stopsAtFrameEnd = true → ∀ t ∈ fed, t.left ≠ 0) (ahead : r'.ahead = [])
      (split : drained = before ++ [last]) (before_left : ∀ t ∈ before, t.left ≠ 0 ∧ t.made ≠ [])
      (last_left : last.left = 0 ∨ last.made = []) (done : r'.outputDone = true)
  /-- there is something to deliver, and more to come without any input -/
  | full (left : r.stopsAtFrameEnd = true → ∀ t ∈ fed, t.left ≠ 0) (ahead : r'.ahead = [])
      (drained_left : ∀ t ∈ drained, t.left ≠ 0 ∧ t.made ≠ []) (got : bytes ≠ [])
      (goes_on : r'.outputDone = false)
  /-- the codec does nothing with the last of the input -/
  | stuck {before : List Turn} {last : Turn} (split : fed = before ++ [last])
      (taken : last.taken = []) (made : last.made = []) (goes_on : r'.outputDone = false)

/-- What a request that succeeds has done. -/
structure Filled (r : Reader σ) (s : σ) (fed drained : List Turn) (s' : σ) (bytes : List UInt8)
    (r' : Reader σ) : Prop where
  course : Course s r.ahead (fed ++ drained) s' r'.ahead
  feedTurn : ∀ t ∈ fed, FeedTurn t
  drainTurn : ∀ t ∈ drained, DrainTurn t
  made : bytes = madeBy (fed ++ drained)
  sound : r'.Sound
  same : SameStream { r with delivered := r.delivered + bytes.length } r'
  plan : r'.source.plan <:+ r.source.plan
  codec : r'.codec = .live s'
  ending : FillEnd r r' bytes fed drained

namespace Filled

variable {r r' : Reader σ} {s s' : σ} {fed drained : List Turn} {bytes : List UInt8}

theorem stops (h : Filled r s fed drained s' bytes r') :
    r'.stopsAtFrameEnd = r.stopsAtFrameEnd := by
  rw [h.same]

theorem delivered (h : Filled r s fed drained s' bytes r') :
    r'.delivered = r.delivered + bytes.length := by
  rw [h.same]

/-- A reader goes on unless its stream has ended. -/
theorem running (h : Filled r s fed drained s' bytes r') (hr : r.Running s)
    (hout : r'.outputDone = false) : r'.Running s' where
  phase := by
    rw [h.same]
    exact hr.phase
  outputDone := hout
  pledged := by
    rw [h.same]
    exact hr.pledged
  codec := h.codec
  sound := h.sound

end Filled

/-- A full window of some size has something in it. -/
theorem written_ne_nil {w : Window} (hcap : 0 < w.capacity)
    (h : w.isFull = true ∨ 0 < w.pos) : w.written.toList ≠ [] := by
  have hpos : 0 < w.pos := by
    rcases h with hfull | hpos
    · simp only [Window.isFull, beq_iff_eq] at hfull
      simpa [Window.capacity, hfull] using hcap
    · exact hpos
  rw [← List.length_pos_iff]
  exact hpos

omit [Codec σ] in
/-- A request for some bytes of a stream that has not ended is not answered at once. -/
theorem not_answered {r : Reader σ} {size : Nat} (hout : r.outputDone = false) (hsize : 0 < size) :
    ¬ (r.outputDone = true ∨ size = 0) := by
  rintro (hdone | rfl)
  · exact Bool.noConfusion (hout.symm.trans hdone)
  · exact Nat.lt_irrefl 0 hsize

/-- A request on a running reader, without the checks. -/
theorem Running.fill_eq {r : Reader σ} {s : σ} (hr : r.Running s) {eager : Bool} {size : Nat}
    (hsize : 0 < size) :
    r.fill eager size =
      match feed eager r (.fresh size) with
      | (.error failure, r) => (.error failure, r)
      | (.ok window, r) =>
        match if r.canDrain window then drain r window else (.ok window, r) with
        | (.error failure, r) => (.error failure, r)
        | (.ok window, r) =>
          (.ok window.written.toList, { r with delivered := r.delivered + window.pos }) := by
  rw [fill, if_neg hr.phase, if_neg (not_answered hr.outputDone hsize), settlePledge, hr.pledged]
  rfl

/-- What a request has done, if the window was not drained. -/
theorem Fed.filled {eager : Bool} {r r' : Reader σ} {size : Nat} {s s' : σ} {turns : List Turn}
    {w : Window} (hr : r.Running s) (hsize : 0 < size)
    (h : Fed eager r (.fresh size) s turns s' w r') (hcan : r'.canDrain w = false) :
    Filled r s turns [] s' w.written.toList { r' with delivered := r'.delivered + w.pos } where
  course := by
    rw [List.append_nil]
    exact h.course
  feedTurn := h.turn
  drainTurn := by simp
  made := by simpa using h.written
  sound := ⟨h.sound.readSize_pos, h.sound.whole, h.sound.content_nil⟩
  same := by
    have := h.same
    unfold SameStream at this ⊢
    rw [this]
    rfl
  plan := h.plan
  codec := h.codec
  ending := by
    have hcap : 0 < w.capacity := by rw [h.capacity]; simpa [Window.capacity, Window.pos] using hsize
    cases h.ending with
    | frame split last_left before_left stops done =>
      exact .frame split last_left before_left stops rfl done
    | enough same left got =>
      exact .enough left rfl (written_ne_nil hcap (got.imp_right And.right))
        (same.trans hr.outputDone)
    | inputGone same left done pending room =>
      have : r'.canDrain w = true := by
        simp [canDrain, done, pending, same, hr.outputDone, Window.isFull, Nat.ne_of_gt room]
      rw [hcan] at this
      cases this
    | stuck same done pending split taken made =>
      exact .stuck split taken made (same.trans hr.outputDone)

omit [Codec σ] in
/-- A window is drained into only if it has room. -/
theorem spare_pos_of_canDrain {r : Reader σ} {w : Window} (h : r.canDrain w = true) :
    0 < w.spare := by
  simp only [canDrain, Window.isFull, Bool.and_eq_true, Bool.not_eq_true', beq_eq_false_iff_ne] at h
  omega

omit [Codec σ] in
/-- A window is drained into only if there is no input left. -/
theorem Sound.ahead_of_canDrain {r : Reader σ} {w : Window} (hs : r.Sound)
    (h : r.canDrain w = true) : r.ahead = [] := by
  simp only [canDrain, Bool.and_eq_true, List.isEmpty_iff] at h
  obtain ⟨⟨⟨hdone, -⟩, -⟩, hpending⟩ := h
  rw [ahead, hpending, hs.content_nil hdone]
  rfl

omit [Codec σ] in
/-- And only if the stream has not ended. -/
theorem outputDone_of_canDrain {r : Reader σ} {w : Window} (h : r.canDrain w = true) :
    r.outputDone = false := by
  simp only [canDrain, Bool.and_eq_true, Bool.not_eq_true'] at h
  exact h.1.1.2

/-- The window is drained into only where stepping and pulling has not ended the stream. -/
theorem Fed.left_of_canDrain {eager : Bool} {r r₁ : Reader σ} {window w₁ : Window} {s s₁ : σ}
    {fed : List Turn} (h : Fed eager r window s fed s₁ w₁ r₁) (hcan : r₁.canDrain w₁ = true) :
    r.stopsAtFrameEnd = true → ∀ t ∈ fed, t.left ≠ 0 := by
  have hout := outputDone_of_canDrain hcan
  simp only [canDrain, Bool.and_eq_true, List.isEmpty_iff] at hcan
  obtain ⟨-, hpending⟩ := hcan
  cases h.ending with
  | frame _ _ _ _ done => exact Bool.noConfusion (hout.symm.trans done)
  | enough _ left _ => exact left
  | inputGone _ left _ _ _ => exact left
  | stuck _ _ pending _ _ _ => exact absurd hpending pending

/-- What a request has done, if the window was drained. -/
theorem Fed.filled_drained {eager : Bool} {r r₁ r' : Reader σ} {size : Nat} {s s₁ s' : σ}
    {fed drained : List Turn} {w₁ w : Window}
    (hfed : Fed eager r (.fresh size) s fed s₁ w₁ r₁) (hcan : r₁.canDrain w₁ = true)
    (h : Drained r₁ w₁ s₁ drained s' w r') :
    Filled r s fed drained s' w.written.toList { r' with delivered := r'.delivered + w.pos } := by
  have hahead : r₁.ahead = [] := hfed.sound.ahead_of_canDrain hcan
  have hspare := spare_pos_of_canDrain hcan
  have hahead' : r'.ahead = [] := by
    rw [h.same]
    exact hahead
  have hcap : 0 < w.capacity := by
    rw [h.capacity, Window.capacity]
    omega
  have hleft := hfed.left_of_canDrain hcan
  refine ⟨?_, hfed.turn, h.turn, ?_, ?_, ?_, ?_, ?_, ?_⟩
  · have hcourse := hfed.course
    rw [hahead] at hcourse
    exact hcourse.append (hahead'.symm ▸ h.course)
  · simpa [hfed.written] using h.written
  · rw [h.same]
    exact ⟨hfed.sound.readSize_pos, hfed.sound.whole, hfed.sound.content_nil⟩
  · have hsame := hfed.same
    unfold SameStream at hsame ⊢
    rw [h.same, hsame]
    rfl
  · rw [h.same]
    exact hfed.plan
  · rw [h.same]
  · cases h.ending with
    | finished split before_left last_left done =>
      exact .finished hleft hahead' split before_left last_left done
    | full left got same =>
      exact .full hleft hahead' left (written_ne_nil hcap (.inl got))
        (same.trans (outputDone_of_canDrain hcan))

/-- What a request on a running reader has done, if it succeeds. -/
theorem fill_ok {eager : Bool} {r r' : Reader σ} {s : σ} {size : Nat} {bytes : List UInt8}
    (h : r.fill eager size = (.ok bytes, r')) (hr : r.Running s) (hsize : 0 < size) :
    ∃ fed drained s', Filled r s fed drained s' bytes r' := by
  rw [hr.fill_eq hsize] at h
  split at h
  · cases h
  · next w₁ r₁ hfeed =>
    obtain ⟨fed, s₁, hfed⟩ := feed_ok hfeed hr.sound hr.codec hsize
    split at h
    · cases h
    · next w r₂ hdrain =>
      simp only [Prod.mk.injEq, Except.ok.injEq] at h
      obtain ⟨rfl, rfl⟩ := h
      by_cases hcan : r₁.canDrain w₁ = true
      · rw [if_pos hcan] at hdrain
        obtain ⟨drained, s', hdrained⟩ :=
          drain_ok hdrain hfed.codec (spare_pos_of_canDrain hcan)
        exact ⟨fed, drained, s', hfed.filled_drained hcan hdrained⟩
      · rw [if_neg hcan] at hdrain
        simp only [Prod.mk.injEq, Except.ok.injEq] at hdrain
        obtain ⟨rfl, rfl⟩ := hdrain
        exact ⟨fed, [], s₁, hfed.filled hr hsize (by simpa using hcan)⟩

/-- A request delivers no more than was asked for. -/
theorem Running.length_fill_le {eager : Bool} {r r' : Reader σ} {s : σ} {size : Nat}
    {bytes : List UInt8} (hr : r.Running s) (hsize : 0 < size)
    (h : r.fill eager size = (.ok bytes, r')) : bytes.length ≤ size := by
  rw [hr.fill_eq hsize] at h
  rcases hfeed : feed eager r (.fresh size) with ⟨failure | w₁, r₁⟩
  · simp [hfeed] at h
  obtain ⟨fed, s₁, hfed⟩ := feed_ok hfeed hr.sound hr.codec hsize
  have hcapacity : w₁.capacity = size := by simpa [Window.capacity, Window.pos] using hfed.capacity
  simp only [hfeed] at h
  rcases hdrain : (if r₁.canDrain w₁ then drain r₁ w₁ else (.ok w₁, r₁)) with ⟨failure | w, r₂⟩
  · simp [hdrain] at h
  have hlast : w.capacity = size := by
    split at hdrain
    · next hcan =>
      obtain ⟨drained, s', hdrained⟩ := drain_ok hdrain hfed.codec (spare_pos_of_canDrain hcan)
      exact hdrained.capacity.trans hcapacity
    · cases hdrain
      exact hcapacity
  simp only [hdrain, Prod.mk.injEq, Except.ok.injEq] at h
  rw [← h.1, ← hlast, Array.length_toList, Window.capacity]
  exact Nat.le_add_right _ _

/-- What a request has done when the source fails: the caller had not got what it asked for. -/
structure CutShort (eager : Bool) (size : Nat) (r : Reader σ) (s : σ) (turns : List Turn) (s' : σ)
    (r' : Reader σ) : Prop where
  fails : r'.source.failures < r.source.failures
  course : Course s r.ahead turns s' r'.ahead
  turn : ∀ t ∈ turns, FeedTurn t
  left : r.stopsAtFrameEnd = true → ∀ t ∈ turns, t.left ≠ 0
  room : (madeBy turns).length < size
  eager_made : eager = true → madeBy turns = []
  running : r'.Running s'

/-- The codec fails in a request on a running reader. -/
inductive Refused (r : Reader σ) (s : σ) (r' : Reader σ) (failure : Failure) : Prop where
  /-- in a step over input -/
  | step {turns : List Turn} {s' : σ} {offered later : List UInt8} {room : Nat}
      (course : Course s r.ahead turns s' (offered ++ later)) (turn : ∀ t ∈ turns, FeedTurn t)
      (offered_ne : offered ≠ []) (room_pos : 0 < room)
      (result : (Codec.step s' offered room .proceed).result = .error failure)
  /-- in a step that was to empty it -/
  | finish {fed drained : List Turn} {s' : σ} {room : Nat}
      (course : Course s r.ahead (fed ++ drained) s' []) (feedTurn : ∀ t ∈ fed, FeedTurn t)
      (drainTurn : ∀ t ∈ drained, DrainTurn t ∧ t.left ≠ 0) (room_pos : 0 < room)
      (result : (Codec.step s' [] room .finish).result = .error failure)
      (ahead : r'.ahead = []) (running : r'.Running (Codec.step s' [] room .finish).state)

/-- Why a request on a running reader failed: the source did, or the codec. -/
inductive FillFailure (eager : Bool) (size : Nat) (r : Reader σ) (s : σ) (r' : Reader σ)
    (failure : Failure) : Prop where
  | source {turns : List Turn} {s' : σ} (cut : CutShort eager size r s turns s' r')
  | codec (refused : Refused r s r' failure)

/-- What a request that fails has done. -/
structure FillFailed (eager : Bool) (size : Nat) (r : Reader σ) (s : σ) (r' : Reader σ)
    (failure : Failure) : Prop where
  same : r.SameStream r'
  plan : r'.source.plan <:+ r.source.plan
  cause : FillFailure eager size r s r' failure

omit [Codec σ] in
/-- A reader goes on working, with a codec in another state. -/
theorem Running.after {r r' : Reader σ} {s s' : σ} (hr : r.Running s) (hsame : r.SameStream r')
    (hout : r'.outputDone = r.outputDone) (hcodec : r'.codec = .live s') (hs : r'.Sound) :
    r'.Running s' where
  phase := by
    rw [hsame]
    exact hr.phase
  outputDone := hout.trans hr.outputDone
  pledged := by
    rw [hsame]
    exact hr.pledged
  codec := hcodec
  sound := hs

/-- A request on a running reader fails because the source does, or a step of the codec. -/
theorem fill_error {eager : Bool} {r r' : Reader σ} {s : σ} {size : Nat} {failure : Failure}
    (h : r.fill eager size = (.error failure, r')) (hr : r.Running s) (hsize : 0 < size) :
    FillFailed eager size r s r' failure := by
  rw [hr.fill_eq hsize] at h
  split at h
  · next f r₁ hfeed =>
    simp only [Prod.mk.injEq, Except.error.injEq] at h
    obtain ⟨rfl, rfl⟩ := h
    obtain ⟨turns, s', hfailed⟩ := feed_error hfeed hr.sound hr.codec hsize
    refine ⟨hfailed.same, hfailed.plan, ?_⟩
    cases hfailed.cause with
    | source fails codec =>
      exact .source ⟨fails, hfailed.course, hfailed.turn, hfailed.left, hfailed.room,
        hfailed.eager_made, hr.after hfailed.same hfailed.outputDone codec hfailed.sound⟩
    | step pending room_pos result _ =>
      exact .codec (.step hfailed.course hfailed.turn pending room_pos result)
  · next w₁ r₁ hfeed =>
    obtain ⟨fed, s₁, hfed⟩ := feed_ok hfeed hr.sound hr.codec hsize
    split at h
    · next f r₂ hdrain =>
      simp only [Prod.mk.injEq, Except.error.injEq] at h
      obtain ⟨rfl, rfl⟩ := h
      by_cases hcan : r₁.canDrain w₁ = true
      · rw [if_pos hcan] at hdrain
        obtain ⟨drained, s', hfailed⟩ :=
          drain_error hdrain hfed.codec (spare_pos_of_canDrain hcan)
        obtain ⟨room, hpos, hresult, rfl⟩ := hfailed.step
        have hahead := hfed.sound.ahead_of_canDrain hcan
        have hall := hfed.course
        rw [hahead] at hall
        have hout := outputDone_of_canDrain hcan
        have hsound : Sound { r₁ with codec := .live (Codec.step s' [] room .finish).state } :=
          ⟨hfed.sound.readSize_pos, hfed.sound.whole, hfed.sound.content_nil⟩
        have hsame : r.SameStream { r₁ with codec := .live (Codec.step s' [] room .finish).state } :=
          hfed.same.trans rfl
        exact ⟨hsame, hfed.plan, .codec (.finish (hall.append hfailed.course) hfed.turn
          hfailed.turn hpos hresult hahead
          (hr.after hsame (hout.trans hr.outputDone.symm) rfl hsound))⟩
      · rw [if_neg hcan] at hdrain
        cases hdrain
    · cases h

/-- To tell the codec that the size is unknown changes nothing but its state. -/
theorem settlePledge_inv {r r' : Reader σ} {s : σ} {result : Except Failure Unit}
    (h : r.settlePledge = (result, r')) (hcodec : r.codec = .live s) :
    ∃ s' owes, r' = { r with codec := .live s', owesPledge := owes } ∧
      (s' = s ∨ s' = (Codec.pledge s none).2) ∧ (result = .ok () → owes = false) := by
  rw [settlePledge, hcodec] at h
  cases howes : r.owesPledge with
  | false =>
    rw [howes, if_neg Bool.false_ne_true] at h
    cases h
    exact ⟨s, false, by rw [← hcodec, ← howes], .inl rfl, fun _ => rfl⟩
  | true =>
    rw [howes, if_pos rfl] at h
    rcases hpledge : Codec.pledge s none with ⟨failure | ⟨⟩, s₁⟩
    · simp only [hpledge] at h
      cases h
      exact ⟨s₁, true, by rw [← howes], .inr rfl, fun h => by cases h⟩
    · simp only [hpledge] at h
      cases h
      exact ⟨s₁, false, rfl, .inr rfl, fun _ => rfl⟩

/-- The first request on a compressing reader tells the codec that the size is unknown, and is
from then on like any other. -/
theorem fill_of_owesPledge {eager : Bool} {r r' : Reader σ} {s : σ} {size : Nat}
    {bytes : List UInt8} (h : r.fill eager size = (.ok bytes, r')) (hphase : r.phase ≠ .closed)
    (hout : r.outputDone = false) (howes : r.owesPledge = true) (hcodec : r.codec = .live s)
    (hsize : 0 < size) :
    ∃ s', Codec.pledge s none = (.ok (), s') ∧
      Reader.fill eager { r with codec := .live s', owesPledge := false } size =
        (.ok bytes, r') := by
  rw [fill, if_neg hphase, if_neg (not_answered hout hsize), settlePledge,
    if_pos howes, hcodec] at h
  rcases hpledge : Codec.pledge s none with ⟨_ | ⟨⟩, s'⟩
  · simp [hpledge] at h
  · refine ⟨s', rfl, ?_⟩
    rw [fill, if_neg hphase, if_neg (not_answered hout hsize)]
    simpa [hpledge, settlePledge] using h

/-! ## What requests leave alone -/

/-- No request turns a reader round, or changes where it stops. -/
structure SameSettings (r r' : Reader σ) : Prop where
  direction : r'.direction = r.direction
  stops : r'.stopsAtFrameEnd = r.stopsAtFrameEnd

omit [Codec σ] in
theorem SameSettings.trans {r r₁ r' : Reader σ} (h : r.SameSettings r₁) (h' : r₁.SameSettings r') :
    r.SameSettings r' :=
  ⟨h'.direction.trans h.direction, h'.stops.trans h.stops⟩

omit [Codec σ] in
theorem settings_pull {r r' : Reader σ} {result : Except Failure Unit}
    (h : r.pull = (result, r')) : r.SameSettings r' := by
  rw [pull] at h
  split at h <;> cases h <;> exact ⟨rfl, rfl⟩

theorem settings_feed (eager : Bool) (r : Reader σ) (window : Window) :
    r.SameSettings (feed eager r window).2 := by
  fun_induction feed eager r window
  case case1 | case4 | case5 | case6 | case7 | case9 => exact ⟨rfl, rfl⟩
  case case8 ih => exact ⟨ih.direction, ih.stops⟩
  case case2 hp => exact settings_pull hp
  case case3 hp ih => exact (settings_pull hp).trans ih
  case case10 hp =>
    have hpulled := settings_pull hp
    exact ⟨hpulled.direction, hpulled.stops⟩
  case case11 hp ih =>
    have hpulled := (settings_pull hp).trans ih
    exact ⟨hpulled.direction, hpulled.stops⟩

theorem settings_drain (r : Reader σ) (window : Window) :
    r.SameSettings (drain r window).2 := by
  fun_induction drain r window
  case case1 | case2 | case3 | case5 => exact ⟨rfl, rfl⟩
  case case4 ih => exact ⟨ih.direction, ih.stops⟩

theorem settings_settlePledge {r r' : Reader σ} {result : Except Failure Unit}
    (h : r.settlePledge = (result, r')) : r.SameSettings r' := by
  rw [settlePledge] at h
  split at h
  · split at h
    · cases h
      exact ⟨rfl, rfl⟩
    · split at h <;> cases h <;> exact ⟨rfl, rfl⟩
  · cases h
    exact ⟨rfl, rfl⟩

theorem settings_fill (eager : Bool) (r : Reader σ) (size : Nat) :
    r.SameSettings (r.fill eager size).2 := by
  rw [fill]
  split
  · exact ⟨rfl, rfl⟩
  split
  · exact ⟨rfl, rfl⟩
  split
  · next hsettle => exact settings_settlePledge hsettle
  · next r₁ hsettle =>
    have hfed := (settings_settlePledge hsettle).trans (settings_feed eager r₁ (.fresh size))
    split
    · next hfeed => rwa [hfeed] at hfed
    · next w r₂ hfeed =>
      rw [hfeed] at hfed
      have hdrained : r₂.SameSettings (if r₂.canDrain w then drain r₂ w else (.ok w, r₂)).2 := by
        split
        · exact settings_drain r₂ w
        · exact ⟨rfl, rfl⟩
      have hall := hfed.trans hdrained
      split
      · next hdrain => rwa [hdrain] at hall
      · next hdrain =>
        rw [hdrain] at hall
        exact ⟨hall.direction, hall.stops⟩

end Reader

end Sluice
