import Sluice.Proofs.Course
import Sluice.Proofs.Supply
import Sluice.Reader

/-!
# Stepping and pulling

A request on a reader is a course of its codec over the input ahead: what has been pulled and what
the source still holds. Here the loop that steps the codec and pulls input is described in this
way, once and for all codecs.

* `Reader.ahead`, `Reader.Sound`, `Reader.SameStream` — the input in front of the codec, what holds
  of a reader over a source that does not pretend its end, and what no request changes.
* `Reader.FeedStep`, `Reader.feed_induction` — one turn of the loop, and what the loop can do, as an
  induction.
* `Reader.feed_ok` — what the loop has done when it succeeds, and why it came to its end.
* `Reader.feed_error` — what it has done when it fails, and why it failed.
-/

namespace Sluice

namespace Reader

variable {σ : Type}

/-- What a reader is like that has done nothing yet. -/
theorem new_ok {direction : Direction} {codec : σ} {source : Source} {settings : ReaderSettings}
    {r : Reader σ} (h : Reader.new direction codec source settings = .ok r) :
    0 < settings.readSize ∧
      r = ⟨.notEntered, direction, source, .live codec, settings.readSize, [], false, false, 0,
        direction = .compressing, direction = .decompressing && !settings.acrossFrames⟩ := by
  rw [Reader.new] at h
  split at h
  · cases h
  · next hsize => exact ⟨Nat.pos_of_ne_zero hsize, (Except.ok.inj h).symm⟩

theorem enter_ok {r r' : Reader σ} (h : r.enter = (.ok (), r')) :
    r' = { r with phase := .active } := by
  unfold Reader.enter at h
  rcases hphase : r.phase with _ | _ | _
  · simpa [hphase, Phase.enter] using h.symm
  · simp [hphase, Phase.enter] at h
  · simp [hphase, Phase.enter] at h

/-- The input in front of the codec: what has been pulled, and what the source holds. -/
def ahead (r : Reader σ) : List UInt8 := r.pending ++ r.source.content

/-- What a reader over a source that does not pretend its end can rely on. -/
structure Sound (r : Reader σ) : Prop where
  readSize_pos : 0 < r.readSize
  whole : r.source.Whole
  content_nil : r.inputDone = true → r.source.content = []

/-- Only what a request works on has changed: codec, source, pending input, and what is done. -/
def SameStream (r r' : Reader σ) : Prop :=
  r' = { r with
    codec := r'.codec
    source := r'.source
    pending := r'.pending
    inputDone := r'.inputDone
    outputDone := r'.outputDone }

theorem SameStream.refl (r : Reader σ) : r.SameStream r := rfl

theorem SameStream.trans {r₁ r₂ r₃ : Reader σ} (h : r₁.SameStream r₂) (h' : r₂.SameStream r₃) :
    r₁.SameStream r₃ := by
  unfold SameStream at h h'
  rw [h] at h'
  exact h'

theorem SameStream.stops {r r' : Reader σ} (h : r.SameStream r') :
    r'.stopsAtFrameEnd = r.stopsAtFrameEnd := by
  rw [h]

/-! ## Pulls -/

theorem pull_of_source_ok {r : Reader σ} {source : Source} {bytes : List UInt8}
    (h : r.source.pull r.readSize = (.ok bytes, source)) :
    r.pull = (.ok (), { r with
      source
      pending := r.pending ++ bytes
      inputDone := r.inputDone || bytes == [] }) := by
  rw [pull, h]

theorem pull_of_source_error {r : Reader σ} {source : Source} {failure : Failure}
    (h : r.source.pull r.readSize = (.error failure, source)) :
    r.pull = (.error failure, { r with source }) := by
  rw [pull, h]

theorem pull_ok_inv {r r' : Reader σ} (h : r.pull = (.ok (), r')) :
    ∃ bytes source, r.source.pull r.readSize = (.ok bytes, source) ∧
      r' = { r with
        source
        pending := r.pending ++ bytes
        inputDone := r.inputDone || bytes == [] } := by
  rw [pull] at h
  split at h
  · next bytes source hp =>
    cases h
    exact ⟨bytes, source, hp, rfl⟩
  · cases h

theorem pull_error_inv {r r' : Reader σ} {failure : Failure} (h : r.pull = (.error failure, r')) :
    ∃ source, r.source.pull r.readSize = (.error failure, source) ∧ r' = { r with source } := by
  rw [pull] at h
  split at h
  · cases h
  · next failure' source hp =>
    cases h
    exact ⟨source, hp, rfl⟩

/-- A pull moves bytes from the source to the pending input. -/
theorem pull_ok {r r' : Reader σ} (hs : r.Sound) (h : r.pull = (.ok (), r')) :
    r'.ahead = r.ahead ∧ r'.Sound ∧ r.SameStream r' ∧ r'.source.plan <:+ r.source.plan ∧
      r'.outputDone = r.outputDone := by
  obtain ⟨bytes, source, hp, rfl⟩ := pull_ok_inv h
  have hcontent := Source.content_pull hp
  have hplan := Source.plan_pull hp
  refine ⟨?_, ⟨hs.readSize_pos, hs.whole.of_suffix hplan, ?_⟩, rfl, hplan, rfl⟩
  · simp [ahead, hcontent]
  · -- the end is noted when it is met, or has been noted before
    intro hdone
    rcases Bool.or_eq_true_iff.1 hdone with hdone | hnil
    · have := hs.content_nil hdone
      rw [hcontent] at this
      exact (List.append_eq_nil_iff.1 this).2
    · obtain rfl : bytes = [] := by simpa using hnil
      have := hs.whole.content_of_pull_nil hs.readSize_pos hp
      rw [hcontent] at this
      exact (List.append_eq_nil_iff.1 this).2

/-- A pull that fails leaves everything where it was, but for a failure that is used up. -/
theorem pull_error {r r' : Reader σ} {failure : Failure} (hs : r.Sound)
    (h : r.pull = (.error failure, r')) :
    r'.ahead = r.ahead ∧ r'.Sound ∧ r.SameStream r' ∧ r'.codec = r.codec ∧
      r'.outputDone = r.outputDone ∧ r'.source.plan <:+ r.source.plan ∧
      r'.source.failures < r.source.failures := by
  obtain ⟨source, hp, rfl⟩ := pull_error_inv h
  have hcontent := Source.content_pull_error hp
  have hplan := Source.plan_pull hp
  refine ⟨by simp [ahead, hcontent], ⟨hs.readSize_pos, hs.whole.of_suffix hplan, ?_⟩, rfl, rfl, rfl,
    hplan, Source.failures_pull_error hp⟩
  intro hdone
  rw [hcontent]
  exact hs.content_nil hdone

/-! ## Stepping and pulling -/

/-- A turn of the loop that steps and pulls: it offers some input, and room for output. -/
structure FeedTurn (t : Turn) : Prop where
  directive : t.directive = .proceed
  offered : t.offered ≠ []
  room_pos : 0 < t.room

/-- Why the loop that steps and pulls came to its end. -/
inductive FeedEnd (eager : Bool) (r r' : Reader σ) (w : Window) (turns : List Turn) : Prop where
  /-- the frame has ended, and the stream with it -/
  | frame {before : List Turn} {last : Turn} (split : turns = before ++ [last])
      (last_left : last.left = 0) (before_left : ∀ t ∈ before, t.left ≠ 0)
      (stops : r.stopsAtFrameEnd = true) (done : r'.outputDone = true)
  /-- the caller has got what it asked for -/
  | enough (same : r'.outputDone = r.outputDone)
      (left : r.stopsAtFrameEnd = true → ∀ t ∈ turns, t.left ≠ 0)
      (got : w.isFull = true ∨ eager = true ∧ 0 < w.pos)
  /-- the input has ended, and all of it has been taken -/
  | inputGone (same : r'.outputDone = r.outputDone)
      (left : r.stopsAtFrameEnd = true → ∀ t ∈ turns, t.left ≠ 0)
      (done : r'.inputDone = true) (pending : r'.pending = []) (room : 0 < w.spare)
  /-- the input has ended, and the codec does nothing with what is pending -/
  | stuck {before : List Turn} {last : Turn} (same : r'.outputDone = r.outputDone)
      (done : r'.inputDone = true) (pending : r'.pending ≠ []) (split : turns = before ++ [last])
      (taken : last.taken = []) (made : last.made = [])

/-- One more turn in front. -/
theorem FeedEnd.cons {eager : Bool} {r r₁ r' : Reader σ} {w : Window} {t : Turn}
    {turns : List Turn} (h : FeedEnd eager r₁ r' w turns)
    (hleft : r.stopsAtFrameEnd = true → t.left ≠ 0)
    (hstops : r₁.stopsAtFrameEnd = r.stopsAtFrameEnd) (hout : r₁.outputDone = r.outputDone) :
    FeedEnd eager r r' w (t :: turns) := by
  have hmore : (r₁.stopsAtFrameEnd = true → ∀ u ∈ turns, u.left ≠ 0) →
      r.stopsAtFrameEnd = true → ∀ u ∈ t :: turns, u.left ≠ 0 := by
    intro hturns hstop u hu
    rcases List.mem_cons.1 hu with rfl | hu
    · exact hleft hstop
    · exact hturns (hstops.trans hstop) u hu
  cases h with
  | @frame before last split last_left before_left stops done =>
    have hsplit : t :: turns = (t :: before) ++ [last] := congrArg (t :: ·) split
    refine .frame hsplit last_left ?_ (hstops ▸ stops) done
    intro u hu
    rcases List.mem_cons.1 hu with rfl | hu
    · exact hleft (hstops ▸ stops)
    · exact before_left u hu
  | enough same left got => exact .enough (same.trans hout) (hmore left) got
  | inputGone same left done pending room =>
    exact .inputGone (same.trans hout) (hmore left) done pending room
  | @stuck before last same done pending split taken made =>
    have hsplit : t :: turns = (t :: before) ++ [last] := congrArg (t :: ·) split
    exact .stuck (same.trans hout) done pending hsplit taken made

/-- No turn in front. -/
theorem FeedEnd.of_pull {eager : Bool} {r r₁ r' : Reader σ} {w : Window} {turns : List Turn}
    (h : FeedEnd eager r₁ r' w turns) (hstops : r₁.stopsAtFrameEnd = r.stopsAtFrameEnd)
    (hout : r₁.outputDone = r.outputDone) : FeedEnd eager r r' w turns := by
  cases h with
  | frame split last_left before_left stops done =>
    exact .frame split last_left before_left (hstops ▸ stops) done
  | enough same left got => exact .enough (same.trans hout) (hstops ▸ left) got
  | inputGone same left done pending room =>
    exact .inputGone (same.trans hout) (hstops ▸ left) done pending room
  | stuck same done pending split taken made =>
    exact .stuck (same.trans hout) done pending split taken made

variable [Codec σ]

/-- What the loop that steps and pulls has done when it succeeds. -/
structure Fed (eager : Bool) (r : Reader σ) (window : Window) (s : σ) (turns : List Turn) (s' : σ)
    (w : Window) (r' : Reader σ) : Prop where
  course : Course s r.ahead turns s' r'.ahead
  turn : ∀ t ∈ turns, FeedTurn t
  sound : r'.Sound
  same : r.SameStream r'
  plan : r'.source.plan <:+ r.source.plan
  codec : r'.codec = .live s'
  written : w.written.toList = window.written.toList ++ madeBy turns
  capacity : w.capacity = window.capacity
  ending : FeedEnd eager r r' w turns

section Pull

variable {r r' : Reader σ} {eager : Bool} {window : Window} {failure : Failure}

/-- Without anything pending, the loop that steps and pulls goes on with a pull. -/
theorem feed_pull (hpending : r.pending = []) (hdone : r.inputDone = false)
    (hp : r.pull = (.ok (), r')) : feed eager r window = feed eager r' window := by
  rw [feed, hpending, List.isEmpty_nil, if_pos rfl, dif_neg (by simp [hdone])]
  split
  · next h => cases hp.symm.trans h
  · next h =>
    cases hp.symm.trans h
    rfl

theorem feed_refused (hpending : r.pending = []) (hdone : r.inputDone = false)
    (hp : r.pull = (.error failure, r')) : feed eager r window = (.error failure, r') := by
  rw [feed, hpending, List.isEmpty_nil, if_pos rfl, dif_neg (by simp [hdone])]
  split
  · next h =>
    cases hp.symm.trans h
    rfl
  · next h => cases hp.symm.trans h

end Pull

/-- What the loop that steps and pulls does after a step that has returned `left`, and that has moved
a cursor or has not. -/
def feedStepped (eager : Bool) (r : Reader σ) (left : Nat) (moved : Prop) [Decidable moved]
    (window : Window) : Except Failure Window × Reader σ :=
  if left = 0 ∧ r.stopsAtFrameEnd then (.ok window, { r with outputDone := true })
  else if window.isFull || (eager && 0 < window.pos) then (.ok window, r)
  else if moved then feed eager r window
  else if r.inputDone then (.ok window, r)
  else
    match r.pull with
    | (.error failure, r') => (.error failure, r')
    | (.ok (), r') => feed eager r' window

theorem feed_eq_feedStepped {eager : Bool} {r : Reader σ} {window : Window} {s : σ} {left : Nat}
    (hpending : ¬ r.pending.isEmpty = true) (hlive : r.codec = .live s)
    (hres : (drive s (.ofList r.pending) window .proceed).result = .ok left) :
    feed eager r window =
      feedStepped eager
        { r with
          codec := .live (drive s (.ofList r.pending) window .proceed).codec
          pending := (drive s (.ofList r.pending) window .proceed).input.unread }
        left
        (0 < (drive s (.ofList r.pending) window .proceed).input.pos ∨
          window.pos < (drive s (.ofList r.pending) window .proceed).window.pos)
        (drive s (.ofList r.pending) window .proceed).window := by
  rw [feed, if_neg hpending]
  simp only [hlive, hres, feedStepped]
  rcases pull _ with ⟨_ | ⟨⟩, _⟩ <;> rfl

/-- A step that has moved nothing, and that ends nothing, is followed by a pull. -/
theorem feedStepped_idle {eager : Bool} {r r' : Reader σ} {left : Nat} {moved : Prop}
    [Decidable moved] {window : Window} (hgoes : ¬ (left = 0 ∧ r.stopsAtFrameEnd = true))
    (hgot : (window.isFull || (eager && 0 < window.pos)) = false) (hmoved : ¬ moved)
    (hdone : r.inputDone = false) (hp : r.pull = (.ok (), r')) :
    feedStepped eager r left moved window = feed eager r' window := by
  rw [feedStepped, if_neg hgoes, if_neg (Bool.eq_false_iff.1 hgot), if_neg hmoved,
    if_neg (Bool.eq_false_iff.1 hdone), hp]

/-- One turn of the loop that steps and pulls. -/
structure FeedStep (r : Reader σ) (window : Window) (s : σ) (t : Turn) (s₁ : σ) (w₁ : Window)
    (r₁ : Reader σ) : Prop where
  leads : t.Leads s s₁
  turn : FeedTurn t
  offered : t.offered = r.pending
  rest : t.rest = r₁.pending
  same : r.SameStream r₁
  source : r₁.source = r.source
  inputDone : r₁.inputDone = r.inputDone
  outputDone : r₁.outputDone = r.outputDone
  codec : r₁.codec = .live s₁
  written : w₁.written.toList = window.written.toList ++ t.made
  capacity : w₁.capacity = window.capacity

theorem feedStep {r : Reader σ} {window : Window} {s : σ} {left : Nat}
    (hpending : r.pending ≠ []) (hroom : 0 < window.spare)
    (hres : (drive s (.ofList r.pending) window .proceed).result = .ok left) :
    FeedStep r window s (.ofStep s r.pending window.spare .proceed left)
      (drive s (.ofList r.pending) window .proceed).codec
      (drive s (.ofList r.pending) window .proceed).window
      { r with
        codec := .live (drive s (.ofList r.pending) window .proceed).codec
        pending := (drive s (.ofList r.pending) window .proceed).input.unread } where
  leads := Turn.leads_ofStep hres
  turn := ⟨rfl, by rwa [Turn.offered_ofStep], hroom⟩
  offered := Turn.offered_ofStep ..
  rest := rfl
  same := rfl
  source := rfl
  inputDone := rfl
  outputDone := rfl
  codec := rfl
  written := drive_written ..
  capacity := Window.capacity_put ..

namespace FeedStep

variable {r r₁ : Reader σ} {window w₁ : Window} {s s₁ : σ} {t : Turn}

theorem sound (h : FeedStep r window s t s₁ w₁ r₁) (hs : r.Sound) : r₁.Sound where
  readSize_pos := by
    rw [h.same]
    exact hs.readSize_pos
  whole := h.source ▸ hs.whole
  content_nil := by
    rw [h.inputDone, h.source]
    exact hs.content_nil

theorem ahead (h : FeedStep r window s t s₁ w₁ r₁) : r.ahead = t.offered ++ r₁.source.content := by
  rw [h.offered, h.source]
  rfl

theorem ahead_after (h : FeedStep r window s t s₁ w₁ r₁) :
    r₁.ahead = t.rest ++ r₁.source.content := by
  rw [h.rest]
  rfl

/-- The loop ends after this turn. -/
theorem fed {eager done : Bool} (h : FeedStep r window s t s₁ w₁ r₁) (hs : r.Sound)
    (hend : FeedEnd eager r { r₁ with outputDone := done } w₁ [t]) :
    Fed eager r window s [t] s₁ w₁ { r₁ with outputDone := done } where
  course := by
    rw [h.ahead]
    exact h.ahead_after ▸ Course.single h.leads
  turn := by
    intro u hu
    rw [List.mem_singleton.1 hu]
    exact h.turn
  sound := ⟨(h.sound hs).readSize_pos, (h.sound hs).whole, (h.sound hs).content_nil⟩
  same := h.same.trans rfl
  plan := by simp only [h.source, List.suffix_rfl]
  codec := h.codec
  written := by rw [h.written, madeBy_cons, madeBy_nil, List.append_nil]
  capacity := h.capacity
  ending := hend

/-- The loop goes on after this turn. -/
theorem fed_cons {eager : Bool} {r' : Reader σ} {s' : σ} {w : Window} {turns : List Turn}
    (h : FeedStep r window s t s₁ w₁ r₁) (hleft : r.stopsAtFrameEnd = true → t.left ≠ 0)
    (hfed : Fed eager r₁ w₁ s₁ turns s' w r') : Fed eager r window s (t :: turns) s' w r' where
  course := .cons h.ahead h.leads (h.ahead_after ▸ hfed.course)
  turn := by
    intro u hu
    rcases List.mem_cons.1 hu with rfl | hu
    · exact h.turn
    · exact hfed.turn u hu
  sound := hfed.sound
  same := h.same.trans hfed.same
  plan := h.source ▸ hfed.plan
  codec := hfed.codec
  written := by rw [hfed.written, h.written, madeBy_cons, List.append_assoc]
  capacity := hfed.capacity.trans h.capacity
  ending := hfed.ending.cons hleft h.same.stops h.outputDone

end FeedStep

/-- The loop goes on after a pull. -/
theorem Fed.of_pull {eager : Bool} {r r₁ r' : Reader σ} {window w : Window} {s s' : σ}
    {turns : List Turn} (hs : r.Sound) (hp : r.pull = (.ok (), r₁))
    (h : Fed eager r₁ window s turns s' w r') : Fed eager r window s turns s' w r' := by
  obtain ⟨hahead, -, hsame, hplan, hout⟩ := pull_ok hs hp
  exact ⟨hahead ▸ h.course, h.turn, h.sound, hsame.trans h.same, h.plan.trans hplan, h.codec,
    h.written, h.capacity, h.ending.of_pull hsame.stops hout⟩

/-- The caller has not got what it asked for: there is room, and for an eager one there is nothing
yet. -/
def Wanting (eager : Bool) (w : Window) : Prop := 0 < w.spare ∧ (eager = true → w.pos = 0)

/-- The loop goes on only if there is something to go on for. -/
theorem wanting_of_not_enough {eager : Bool} {w : Window}
    (h : ¬ (w.isFull || eager && decide (0 < w.pos)) = true) : Wanting eager w := by
  simp only [Bool.or_eq_true, Bool.and_eq_true, decide_eq_true_eq, not_or, Window.isFull,
    beq_iff_eq] at h
  exact ⟨Nat.pos_of_ne_zero h.1, fun heager => Nat.eq_zero_of_not_pos fun hpos => h.2 ⟨heager, hpos⟩⟩

/-- A turn that moves neither cursor takes nothing and makes nothing. -/
theorem stalls_of_not_moved {s : σ} {u : List UInt8} {window : Window} {left : Nat}
    (h : ¬ (0 < (drive s (.ofList u) window .proceed).input.pos ∨
      window.pos < (drive s (.ofList u) window .proceed).window.pos)) :
    (Turn.ofStep s u window.spare .proceed left).taken = [] ∧
      (Turn.ofStep s u window.spare .proceed left).made = [] := by
  have hin := drive_inputPos s (.ofList u) window .proceed left
  have hout := drive_pos s (.ofList u) window .proceed left
  simp only [Input.unread_ofList, Input.pos_ofList, Nat.zero_add] at hin hout
  constructor <;> apply List.eq_nil_of_length_eq_zero <;> omega

/-- Induction on the loop that steps and pulls, for a live codec and a window with room. Without
anything pending, the input has ended, or there is a pull. Otherwise there is a step: it fails, or
ends the loop, or the loop goes on; and where the step has moved nothing, it ends the loop only if
there is no more to pull. -/
theorem feed_induction (eager : Bool)
    {motive : Reader σ → Window → σ → Except Failure Window → Reader σ → Prop}
    (ended : ∀ {r : Reader σ} {window : Window} {s : σ}, r.codec = .live s → 0 < window.spare →
      r.pending = [] → r.inputDone = true → motive r window s (.ok window) r)
    (refused : ∀ {r r' : Reader σ} {window : Window} {s : σ} {failure : Failure},
      r.codec = .live s → r.pending = [] → r.pull = (.error failure, r') →
        motive r window s (.error failure) r')
    (pulled : ∀ {r r₁ r' : Reader σ} {window : Window} {s : σ} {result : Except Failure Window},
      r.codec = .live s → r.pending = [] → r.pull = (.ok (), r₁) → motive r₁ window s result r' →
        motive r window s result r')
    (broken : ∀ {r : Reader σ} {window : Window} {s : σ} {failure : Failure},
      r.pending ≠ [] → 0 < window.spare →
      (Codec.step s r.pending window.spare .proceed).result = .error failure →
        motive r window s (.error failure)
          { r with codec := .live (Codec.step s r.pending window.spare .proceed).state })
    (frame : ∀ {r r₁ : Reader σ} {window w₁ : Window} {s s₁ : σ} {t : Turn},
      FeedStep r window s t s₁ w₁ r₁ → t.left = 0 → r.stopsAtFrameEnd = true →
        motive r window s (.ok w₁) { r₁ with outputDone := true })
    (enough : ∀ {r r₁ : Reader σ} {window w₁ : Window} {s s₁ : σ} {t : Turn},
      FeedStep r window s t s₁ w₁ r₁ → (r.stopsAtFrameEnd = true → t.left ≠ 0) →
      w₁.isFull = true ∨ eager = true ∧ 0 < w₁.pos → motive r window s (.ok w₁) r₁)
    (moved : ∀ {r r₁ r' : Reader σ} {window w₁ : Window} {s s₁ : σ} {t : Turn}
      {result : Except Failure Window},
      FeedStep r window s t s₁ w₁ r₁ → (r.stopsAtFrameEnd = true → t.left ≠ 0) →
      Wanting eager w₁ → motive r₁ w₁ s₁ result r' → motive r window s result r')
    (stuck : ∀ {r r₁ : Reader σ} {window w₁ : Window} {s s₁ : σ} {t : Turn},
      FeedStep r window s t s₁ w₁ r₁ → (r.stopsAtFrameEnd = true → t.left ≠ 0) →
      t.taken = [] ∧ t.made = [] → r₁.inputDone = true → motive r window s (.ok w₁) r₁)
    (stuck_refused : ∀ {r r₁ r' : Reader σ} {window w₁ : Window} {s s₁ : σ} {t : Turn}
      {failure : Failure}, FeedStep r window s t s₁ w₁ r₁ →
      (r.stopsAtFrameEnd = true → t.left ≠ 0) → Wanting eager w₁ → t.taken = [] ∧ t.made = [] →
      r₁.pull = (.error failure, r') → motive r window s (.error failure) r')
    (stuck_pulled : ∀ {r r₁ r₂ r' : Reader σ} {window w₁ : Window} {s s₁ : σ} {t : Turn}
      {result : Except Failure Window}, FeedStep r window s t s₁ w₁ r₁ →
      (r.stopsAtFrameEnd = true → t.left ≠ 0) → Wanting eager w₁ → t.taken = [] ∧ t.made = [] →
      r₁.pull = (.ok (), r₂) → motive r₂ w₁ s₁ result r' → motive r window s result r')
    {r : Reader σ} {window : Window} {s : σ} (hcodec : r.codec = .live s)
    (hroom : 0 < window.spare) :
    motive r window s (feed eager r window).1 (feed eager r window).2 := by
  fun_induction feed eager r window generalizing s
  case case1 r window hpending hdone =>
    exact ended hcodec hroom (by simpa using hpending) hdone
  case case2 r window hpending hdone failure r₁ hp =>
    exact refused hcodec (by simpa using hpending) hp
  case case3 r window hpending hdone r₁ hp ih =>
    have hcodec₁ : r₁.codec = .live s := by
      obtain ⟨bytes, source, -, rfl⟩ := pull_ok_inv hp
      exact hcodec
    exact pulled hcodec (by simpa using hpending) hp (ih hcodec₁ hroom)
  case case4 r window hpending codec hretired =>
    rw [hcodec] at hretired
    cases hretired
  case case5 r window hpending codec hlive driven failure hres =>
    obtain rfl : codec = s := Slot.live.inj (hlive.symm.trans hcodec)
    exact broken (by simpa using hpending) hroom hres
  case case6 r window hpending codec hlive driven left hres stepped hstop =>
    obtain rfl : codec = s := Slot.live.inj (hlive.symm.trans hcodec)
    exact frame (feedStep (by simpa using hpending) hroom hres) hstop.1 hstop.2
  case case7 r window hpending codec hlive driven left hres stepped hstop hgot =>
    obtain rfl : codec = s := Slot.live.inj (hlive.symm.trans hcodec)
    have hstep := feedStep (by simpa using hpending) hroom hres
    exact enough hstep (fun hstops hleft => hstop ⟨hleft, hstops⟩) (by simpa using hgot)
  case case8 r window hpending codec hlive driven left hres stepped hstop hgot hmoved ih =>
    obtain rfl : codec = s := Slot.live.inj (hlive.symm.trans hcodec)
    have hstep := feedStep (by simpa using hpending) hroom hres
    have hwanting := wanting_of_not_enough hgot
    exact moved hstep (fun hstops hleft => hstop ⟨hleft, hstops⟩) hwanting (ih rfl hwanting.1)
  case case9 r window hpending codec hlive driven left hres stepped hstop hgot hmoved hdone =>
    obtain rfl : codec = s := Slot.live.inj (hlive.symm.trans hcodec)
    have hstep := feedStep (by simpa using hpending) hroom hres
    exact stuck hstep (fun hstops hleft => hstop ⟨hleft, hstops⟩) (stalls_of_not_moved hmoved) hdone
  case case10 r window hpending codec hlive driven left hres stepped hstop hgot hmoved hdone failure
      r₁ hp =>
    obtain rfl : codec = s := Slot.live.inj (hlive.symm.trans hcodec)
    have hstep := feedStep (by simpa using hpending) hroom hres
    exact stuck_refused hstep (fun hstops hleft => hstop ⟨hleft, hstops⟩)
      (wanting_of_not_enough hgot) (stalls_of_not_moved hmoved) hp
  case case11 r window hpending codec hlive driven left hres stepped hstop hgot hmoved hdone r₁ hp
      ih =>
    obtain rfl : codec = s := Slot.live.inj (hlive.symm.trans hcodec)
    have hstep := feedStep (by simpa using hpending) hroom hres
    have hcodec₁ : r₁.codec = .live driven.codec := by
      obtain ⟨bytes, source, -, rfl⟩ := pull_ok_inv hp
      rfl
    have hwanting := wanting_of_not_enough hgot
    exact stuck_pulled hstep (fun hstops hleft => hstop ⟨hleft, hstops⟩) hwanting
      (stalls_of_not_moved hmoved) hp (ih hcodec₁ hwanting.1)

/-- What the loop that steps and pulls has done, if it succeeds. -/
theorem feed_ok {eager : Bool} {r r' : Reader σ} {window w : Window} {s : σ}
    (h : feed eager r window = (.ok w, r')) (hs : r.Sound) (hcodec : r.codec = .live s)
    (hroom : 0 < window.spare) :
    ∃ turns s', Fed eager r window s turns s' w r' := by
  have key := feed_induction eager (motive := fun r window s result r' =>
      r.Sound → ∀ w, result = .ok w → ∃ turns s', Fed eager r window s turns s' w r')
    ?ended ?refused ?pulled ?broken ?frame ?enough ?moved ?stuck ?stuck_refused ?stuck_pulled
    hcodec hroom
  · rw [h] at key
    exact key hs w rfl
  case ended =>
    rintro r window s hcodec hroom hpending hdone hs _ ⟨⟩
    refine ⟨[], s, .nil, by simp, hs, .refl r, List.suffix_rfl, hcodec, by simp, rfl, ?_⟩
    exact .inputGone rfl (by simp) hdone hpending hroom
  case refused => rintro r r' window s failure _ _ _ _ w ⟨⟩
  case pulled =>
    intro r r₁ r' window s result hcodec hpending hp ih hs w hw
    obtain ⟨-, hs₁, -⟩ := pull_ok hs hp
    obtain ⟨turns, s', hfed⟩ := ih hs₁ w hw
    exact ⟨turns, s', hfed.of_pull hs hp⟩
  case broken => rintro r window s failure _ _ _ _ w ⟨⟩
  -- a step that ends the loop for one of two reasons
  case frame =>
    rintro r r₁ window w₁ s s₁ t hstep hleft hstops hs _ ⟨⟩
    exact ⟨_, _, hstep.fed hs (.frame (List.nil_append _).symm hleft (by simp) hstops rfl)⟩
  case enough =>
    rintro r r₁ window w₁ s s₁ t hstep hleft hgot hs _ ⟨⟩
    refine ⟨_, _, hstep.fed hs (.enough hstep.outputDone ?_ hgot)⟩
    intro hstops u hu
    rw [List.mem_singleton.1 hu]
    exact hleft hstops
  -- or the loop goes on
  case moved =>
    intro r r₁ r' window w₁ s s₁ t result hstep hleft _ ih hs w hw
    obtain ⟨turns, s', hfed⟩ := ih (hstep.sound hs) w hw
    exact ⟨_, s', hstep.fed_cons hleft hfed⟩
  case stuck =>
    rintro r r₁ window w₁ s s₁ t hstep - ⟨htaken, hmade⟩ hdone hs _ ⟨⟩
    have hrest : r₁.pending ≠ [] := by
      have hoffered := hstep.turn.offered
      rw [Turn.offered, htaken, List.nil_append, hstep.rest] at hoffered
      exact hoffered
    exact ⟨_, _, hstep.fed hs
      (.stuck hstep.outputDone hdone hrest (List.nil_append _).symm htaken hmade)⟩
  case stuck_refused => rintro r r₁ r' window w₁ s s₁ t failure _ _ _ _ _ _ w ⟨⟩
  case stuck_pulled =>
    intro r r₁ r₂ r' window w₁ s s₁ t result hstep hleft _ _ hp ih hs w hw
    obtain ⟨-, hs₂, -⟩ := pull_ok (hstep.sound hs) hp
    obtain ⟨turns, s', hfed⟩ := ih hs₂ w hw
    exact ⟨_, s', hstep.fed_cons hleft (hfed.of_pull (hstep.sound hs) hp)⟩

/-- Why the loop that steps and pulls failed: the source did, or a step over the pending input. -/
inductive FeedFailure (r : Reader σ) (s' : σ) (r' : Reader σ) (failure : Failure) : Prop where
  | source (fails : r'.source.failures < r.source.failures) (codec : r'.codec = .live s')
  | step {room : Nat} (pending : r'.pending ≠ []) (room_pos : 0 < room)
      (result : (Codec.step s' r'.pending room .proceed).result = .error failure)
      (codec : r'.codec = .live (Codec.step s' r'.pending room .proceed).state)

/-- What the loop that steps and pulls has done when it fails. The window was not full, and for an
eager caller it was empty. -/
structure FeedFailed (eager : Bool) (r : Reader σ) (window : Window) (s : σ) (turns : List Turn)
    (s' : σ) (r' : Reader σ) (failure : Failure) : Prop where
  course : Course s r.ahead turns s' r'.ahead
  turn : ∀ t ∈ turns, FeedTurn t
  left : r.stopsAtFrameEnd = true → ∀ t ∈ turns, t.left ≠ 0
  room : (madeBy turns).length < window.spare
  eager_made : eager = true → madeBy turns = []
  sound : r'.Sound
  same : r.SameStream r'
  outputDone : r'.outputDone = r.outputDone
  plan : r'.source.plan <:+ r.source.plan
  cause : FeedFailure r s' r' failure

section Failed

variable {eager : Bool} {r r₁ r' : Reader σ} {window w₁ : Window} {s s₁ s' : σ} {t : Turn}
  {turns : List Turn} {failure : Failure}

/-- The source fails. -/
theorem FeedFailed.pull (hs : r.Sound) (hcodec : r.codec = .live s) (hroom : 0 < window.spare)
    (hp : r.pull = (.error failure, r')) : FeedFailed eager r window s [] s r' failure := by
  obtain ⟨hahead, hs', hsame, hcodec', hout, hplan, hfails⟩ := pull_error hs hp
  exact ⟨hahead ▸ .nil, by simp, by simp, hroom, fun _ => rfl, hs', hsame, hout, hplan,
    .source hfails (hcodec'.trans hcodec)⟩

/-- A step fails. -/
theorem FeedFailed.broken (hs : r.Sound) (hpending : r.pending ≠ []) (hroom : 0 < window.spare)
    (hresult : (Codec.step s r.pending window.spare .proceed).result = .error failure) :
    FeedFailed eager r window s [] s
      { r with codec := .live (Codec.step s r.pending window.spare .proceed).state } failure :=
  ⟨.nil, by simp, by simp, hroom, fun _ => rfl, ⟨hs.readSize_pos, hs.whole, hs.content_nil⟩, rfl,
    rfl, List.suffix_rfl, .step hpending hroom hresult rfl⟩

/-- The loop goes on after a pull. -/
theorem FeedFailed.of_pull (hs : r.Sound) (hp : r.pull = (.ok (), r₁))
    (h : FeedFailed eager r₁ window s turns s' r' failure) :
    FeedFailed eager r window s turns s' r' failure := by
  obtain ⟨hahead, -, hsame, hplan, hout⟩ := pull_ok hs hp
  refine ⟨hahead ▸ h.course, h.turn, hsame.stops ▸ h.left, h.room, h.eager_made, h.sound,
    hsame.trans h.same, h.outputDone.trans hout, h.plan.trans hplan, ?_⟩
  cases h.cause with
  | source fails codec =>
    exact .source (Nat.lt_of_lt_of_le fails (Source.failures_le_of_suffix hplan)) codec
  | step pending room_pos result codec => exact .step pending room_pos result codec

/-- A turn uses up as much room as it makes. -/
theorem FeedStep.spare (h : FeedStep r window s t s₁ w₁ r₁) :
    w₁.pos = window.pos + t.made.length ∧ w₁.spare + t.made.length = window.spare := by
  have hpos : w₁.pos = window.pos + t.made.length := by
    have := congrArg List.length h.written
    simpa [Window.pos] using this
  have hcapacity := h.capacity
  simp only [Window.capacity] at hcapacity
  omega

/-- The loop goes on after a turn. -/
theorem FeedStep.failed_cons (h : FeedStep r window s t s₁ w₁ r₁)
    (hleft : r.stopsAtFrameEnd = true → t.left ≠ 0) (hwanting : Wanting eager w₁)
    (hfailed : FeedFailed eager r₁ w₁ s₁ turns s' r' failure) :
    FeedFailed eager r window s (t :: turns) s' r' failure where
  course := .cons h.ahead h.leads (h.ahead_after ▸ hfailed.course)
  turn := by
    intro u hu
    rcases List.mem_cons.1 hu with rfl | hu
    · exact h.turn
    · exact hfailed.turn u hu
  left := by
    intro hstops u hu
    rcases List.mem_cons.1 hu with rfl | hu
    · exact hleft hstops
    · exact hfailed.left (h.same.stops.trans hstops) u hu
  room := by
    have hroom := hfailed.room
    have hspare := h.spare.2
    rw [madeBy_cons, List.length_append]
    omega
  eager_made := by
    intro heager
    have hpos := h.spare.1
    rw [hwanting.2 heager] at hpos
    rw [madeBy_cons, hfailed.eager_made heager, List.append_nil]
    exact List.eq_nil_of_length_eq_zero (by omega)
  sound := hfailed.sound
  same := h.same.trans hfailed.same
  outputDone := hfailed.outputDone.trans h.outputDone
  plan := h.source ▸ hfailed.plan
  cause := by
    cases hfailed.cause with
    | source fails codec => exact .source (h.source ▸ fails) codec
    | step pending room_pos result codec => exact .step pending room_pos result codec

end Failed

/-- What the loop that steps and pulls has done, if it fails. -/
theorem feed_error {eager : Bool} {r r' : Reader σ} {window : Window} {s : σ} {failure : Failure}
    (h : feed eager r window = (.error failure, r')) (hs : r.Sound) (hcodec : r.codec = .live s)
    (hroom : 0 < window.spare) :
    ∃ turns s', FeedFailed eager r window s turns s' r' failure := by
  have key := feed_induction eager (motive := fun r window s result r' =>
      r.Sound → 0 < window.spare → ∀ failure, result = .error failure →
        ∃ turns s', FeedFailed eager r window s turns s' r' failure)
    ?ended ?refused ?pulled ?broken ?frame ?enough ?moved ?stuck ?stuck_refused ?stuck_pulled
    hcodec hroom
  · rw [h] at key
    exact key hs hroom failure rfl
  case ended => rintro r window s _ _ _ _ _ _ failure ⟨⟩
  case refused =>
    rintro r r' window s failure hcodec _ hp hs hroom _ ⟨⟩
    exact ⟨[], s, .pull hs hcodec hroom hp⟩
  case pulled =>
    intro r r₁ r' window s result hcodec hpending hp ih hs hroom failure hfailure
    obtain ⟨-, hs₁, -⟩ := pull_ok hs hp
    obtain ⟨turns, s', hfailed⟩ := ih hs₁ hroom failure hfailure
    exact ⟨turns, s', hfailed.of_pull hs hp⟩
  case broken =>
    rintro r window s failure hpending hroom hresult hs _ _ ⟨⟩
    exact ⟨[], s, .broken hs hpending hroom hresult⟩
  case frame => rintro r r₁ window w₁ s s₁ t _ _ _ _ _ failure ⟨⟩
  case enough => rintro r r₁ window w₁ s s₁ t _ _ _ _ _ failure ⟨⟩
  case moved =>
    intro r r₁ r' window w₁ s s₁ t result hstep hleft hwanting ih hs _ failure hfailure
    obtain ⟨turns, s', hfailed⟩ := ih (hstep.sound hs) hwanting.1 failure hfailure
    exact ⟨_, s', hstep.failed_cons hleft hwanting hfailed⟩
  case stuck => rintro r r₁ window w₁ s s₁ t _ _ _ _ _ _ failure ⟨⟩
  case stuck_refused =>
    rintro r r₁ r' window w₁ s s₁ t failure hstep hleft hwanting _ hp hs _ _ ⟨⟩
    exact ⟨_, _, hstep.failed_cons hleft hwanting
      (.pull (hstep.sound hs) hstep.codec hwanting.1 hp)⟩
  case stuck_pulled =>
    intro r r₁ r₂ r' window w₁ s s₁ t result hstep hleft hwanting _ hp ih hs _ failure hfailure
    obtain ⟨-, hs₂, -⟩ := pull_ok (hstep.sound hs) hp
    obtain ⟨turns, s', hfailed⟩ := ih hs₂ hwanting.1 failure hfailure
    exact ⟨_, s', hstep.failed_cons hleft hwanting (hfailed.of_pull (hstep.sound hs) hp)⟩

end Reader

end Sluice
