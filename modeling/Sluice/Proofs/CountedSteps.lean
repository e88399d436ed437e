import Sluice.Proofs.Delivery
import Sluice.Proofs.Supply

/-!
# Counted steps

Every call on a reader comes to its end, whatever the codec is: one that never makes progress, that
never reports the end of anything, or that ignores that there is no more input. How many steps it
takes, and how often the source is asked, is bounded by what the call wants and by what is left.

* `Counted` — a codec that counts its steps.
* `Projects`, `Reader.through` — codecs that do the same in other states, and readers over them:
  `Reader.fill_through`, `Reader.seek_through` and `Reader.skipInput_through` give the same answers.
* `Reader.workLeft`, `Reader.Spends` — what is left to be stepped over, and what a call spends.
* `Reader.fill_spends`, `Reader.seek_spends`, `Reader.skipInput_spends` — the bounds.
* `Reader.within_bounds` — what every call on every reader comes to.
-/

namespace Sluice

/-! ## Counting -/

/-- A codec together with the number of steps it has taken. -/
structure Counted (σ : Type) where
  codec : σ
  steps : Nat

instance {σ : Type} [Codec σ] : Codec (Counted σ) where
  name c := Codec.name c.codec
  step c unread room directive :=
    (Codec.step c.codec unread room directive).map fun codec => ⟨codec, c.steps + 1⟩
  reset c := ⟨Codec.reset c.codec, c.steps⟩
  pledge c size := (Codec.pledge c.codec size).map id fun codec => ⟨codec, c.steps⟩

/-! ## The same codec in other states -/

section Projections

variable {σ τ : Type} [Codec σ] [Codec τ]

/-- What the codec does in state `s`, the other one does in state `f s`. -/
structure Projects (f : τ → σ) : Prop where
  step (s : τ) (unread : List UInt8) (room : Nat) (directive : Directive) :
    Codec.step (f s) unread room directive = (Codec.step s unread room directive).map f
  pledge (s : τ) (size : Option Nat) : Codec.pledge (f s) size = (Codec.pledge s size).map id f

/-- Not to look at the count changes nothing. -/
theorem Counted.projects : Projects (Counted.codec (σ := σ)) := ⟨fun _ _ _ _ => rfl, fun _ _ => rfl⟩

namespace Projects

variable {f : τ → σ}

theorem drive (hf : Projects f) (s : τ) (input : Input) (window : Window) (directive : Directive) :
    drive (f s) input window directive =
      ⟨f (Sluice.drive s input window directive).codec,
        (Sluice.drive s input window directive).input,
        (Sluice.drive s input window directive).window,
        (Sluice.drive s input window directive).result⟩ := by
  rw [Sluice.drive, hf.step]
  rfl

end Projects

/-- The same place, with another state in it. -/
def Slot.map (f : τ → σ) : Slot τ → Slot σ
  | live s => live (f s)
  | retired s => retired (f s)

namespace Reader

/-- The same reader over the other codec. -/
def through (f : τ → σ) (r : Reader τ) : Reader σ := { r with codec := r.codec.map f }

section Through

variable {f : τ → σ} (r : Reader τ)

omit [Codec σ] [Codec τ]

@[simp] theorem pending_through : (r.through f).pending = r.pending := rfl

@[simp] theorem inputDone_through : (r.through f).inputDone = r.inputDone := rfl

@[simp] theorem codec_through : (r.through f).codec = r.codec.map f := rfl

@[simp] theorem pull_through : (r.through f).pull = r.pull.map id (through f) := by
  have hpull : (r.through f).source.pull (r.through f).readSize = r.source.pull r.readSize := rfl
  rw [Reader.pull, Reader.pull, hpull]
  rcases r.source.pull r.readSize with ⟨_ | _, _⟩ <;> rfl

/-- Skipping, with the answer to a pull left open. -/
theorem skipInput_eq (r : Reader σ) (count : Nat) :
    r.skipInput count =
      if count ≤ r.pending.length then (.ok (), { r with pending := r.pending.drop count })
      else if r.inputDone then (.error (.misuse .skipPastEnd), r)
      else
        match r.pull with
        | (.error failure, r') => (.error failure, r')
        | (.ok (), r') => skipInput r' count := by
  rw [skipInput]
  rcases r.pull with ⟨_ | ⟨⟩, _⟩ <;> rfl

theorem skipInput_through (r : Reader τ) (count : Nat) :
    (r.through f).skipInput count = (r.skipInput count).map id (through f) := by
  fun_induction skipInput r count
  case case1 r hle => rw [skipInput_eq, pending_through, if_pos hle]; rfl
  case case2 r hlt hdone => simp [skipInput_eq (r.through f), hlt, hdone]
  case case3 r hlt hdone failure r₁ hp => simp [skipInput_eq (r.through f), hlt, hdone, hp]
  case case4 r hlt hdone r₁ hp ih => simp [skipInput_eq (r.through f), hlt, hdone, hp, ih]

end Through

section Through

variable {f : τ → σ}

/-- A step of the loop is the same over both codecs. -/
theorem feed_through_of_step (hf : Projects f) {eager : Bool} {r : Reader τ} {window : Window}
    {s : τ} {left : Nat} (hpending : ¬ r.pending.isEmpty = true) (hlive : r.codec = .live s)
    (hres : (drive s (.ofList r.pending) window .proceed).result = .ok left) :
    feed eager (r.through f) window =
      feedStepped eager
        (through f { r with
          codec := .live (drive s (.ofList r.pending) window .proceed).codec
          pending := (drive s (.ofList r.pending) window .proceed).input.unread })
        left
        (0 < (drive s (.ofList r.pending) window .proceed).input.pos ∨
          window.pos < (drive s (.ofList r.pending) window .proceed).window.pos)
        (drive s (.ofList r.pending) window .proceed).window := by
  have hlive' : (r.through f).codec = .live (f s) := by
    rw [codec_through, hlive]
    rfl
  have hdriven := hf.drive s (.ofList r.pending) window .proceed
  have hres' : (drive (f s) (.ofList (r.through f).pending) window .proceed).result = .ok left := by
    rw [pending_through, hdriven]
    exact hres
  have hfeed : feed eager (r.through f) window = _ := feed_eq_feedStepped hpending hlive' hres'
  simp only [pending_through, hdriven] at hfeed
  exact hfeed

/-- The loop that steps and pulls does the same over both codecs. -/
theorem feed_through (hf : Projects f) (eager : Bool) (r : Reader τ) (window : Window) :
    feed eager (r.through f) window = (feed eager r window).map id (through f) := by
  fun_induction feed eager r window
  case case1 r window hpending hdone =>
    rw [feed, pending_through, if_pos hpending, inputDone_through, dif_pos hdone]
    rfl
  case case2 r window hpending hdone failure r₁ hp =>
    refine feed_refused (List.isEmpty_iff.1 hpending) (by simpa using hdone) ?_
    rw [pull_through, hp]
    rfl
  case case3 r window hpending hdone r₁ hp ih =>
    rw [← ih]
    refine feed_pull (List.isEmpty_iff.1 hpending) (by simpa using hdone) ?_
    rw [pull_through, hp]
    rfl
  case case4 r window hpending codec hretired =>
    rw [feed, pending_through, if_neg hpending, codec_through, hretired]
    rfl
  case case5 r window hpending codec hlive driven failure hres =>
    rw [feed, pending_through, if_neg hpending, codec_through, hlive]
    simp only [Slot.map, hf.drive, driven, hres]
    rfl
  -- a step ends the loop, or the loop goes on
  case case6 r window hpending codec hlive driven left hres stepped hstop =>
    exact (feed_through_of_step hf hpending hlive hres).trans (if_pos hstop)
  case case7 r window hpending codec hlive driven left hres stepped hstop hgot =>
    exact (feed_through_of_step hf hpending hlive hres).trans
      ((if_neg hstop).trans (if_pos hgot))
  case case8 r window hpending codec hlive driven left hres stepped hstop hgot hmoved ih =>
    exact (feed_through_of_step hf hpending hlive hres).trans
      ((if_neg hstop).trans ((if_neg hgot).trans ((if_pos hmoved).trans ih)))
  case case9 r window hpending codec hlive driven left hres stepped hstop hgot hmoved hdone =>
    exact (feed_through_of_step hf hpending hlive hres).trans
      ((if_neg hstop).trans ((if_neg hgot).trans ((if_neg hmoved).trans (if_pos hdone))))
  case case10 r window hpending codec hlive driven left hres stepped hstop hgot hmoved hdone failure
      r₁ hp =>
    refine (feed_through_of_step hf hpending hlive hres).trans
      ((if_neg hstop).trans ((if_neg hgot).trans ((if_neg hmoved).trans ((if_neg hdone).trans ?_))))
    rw [pull_through, hp]
    rfl
  case case11 r window hpending codec hlive driven left hres stepped hstop hgot hmoved hdone r₁ hp
      ih =>
    refine (feed_through_of_step hf hpending hlive hres).trans
      ((if_neg hstop).trans ((if_neg hgot).trans ((if_neg hmoved).trans ((if_neg hdone).trans ?_))))
    rw [pull_through, hp]
    exact ih

theorem drain_through (hf : Projects f) (r : Reader τ) (window : Window) :
    drain (r.through f) window = (drain r window).map id (through f) := by
  fun_induction drain r window
  case case1 r window codec hretired =>
    rw [drain, codec_through, hretired]
    rfl
  case case2 r window codec hlive driven stepped failure hres =>
    rw [drain, codec_through, hlive]
    simp only [Slot.map, hf.drive, driven, hres]
    rfl
  case case3 r window codec hlive driven stepped left hres hmoved hfull =>
    rw [drain, codec_through, hlive]
    simp only [Slot.map, hf.drive]
    simp only [driven] at hres hmoved hfull
    rw [hres]
    exact (dif_pos hmoved).trans (if_pos hfull)
  case case4 r window codec hlive driven stepped left hres hmoved hfull ih =>
    rw [drain, codec_through, hlive]
    simp only [Slot.map, hf.drive]
    simp only [driven] at hres hmoved hfull
    rw [hres]
    exact (dif_pos hmoved).trans ((if_neg hfull).trans ih)
  case case5 r window codec hlive driven stepped left hres hmoved =>
    rw [drain, codec_through, hlive]
    simp only [Slot.map, hf.drive]
    simp only [driven] at hres hmoved
    rw [hres]
    exact dif_neg hmoved

theorem settlePledge_through (hf : Projects f) (r : Reader τ) :
    (r.through f).settlePledge = r.settlePledge.map id (through f) := by
  have howes : (r.through f).owesPledge = r.owesPledge := rfl
  rw [settlePledge, settlePledge, howes]
  cases r.owesPledge with
  | false => rfl
  | true =>
    rw [codec_through]
    cases r.codec with
    | retired s => rfl
    | live s =>
      simp only [if_true, Slot.map, hf.pledge]
      rcases Codec.pledge s none with ⟨_ | ⟨⟩, _⟩ <;> rfl

/-- A request is answered in the same way over both codecs. -/
theorem fill_through (hf : Projects f) (r : Reader τ) (eager : Bool) (size : Nat) :
    (r.through f).fill eager size = (r.fill eager size).map id (through f) := by
  have hphase : (r.through f).phase = r.phase := rfl
  have hout : (r.through f).outputDone = r.outputDone := rfl
  rw [fill, fill, hphase, hout]
  split
  · rfl
  split
  · rfl
  rw [settlePledge_through hf]
  rcases r.settlePledge with ⟨_ | ⟨⟩, r₁⟩
  · rfl
  simp only [Prod.map, id, feed_through hf]
  rcases feed eager r₁ (.fresh size) with ⟨_ | w₁, r₂⟩
  · rfl
  have hcan : (r₂.through f).canDrain w₁ = r₂.canDrain w₁ := rfl
  simp only [hcan]
  cases r₂.canDrain w₁ with
  | false => rfl
  | true =>
    simp only [if_true, drain_through hf]
    rcases drain r₂ w₁ with ⟨_ | _, _⟩ <;> rfl

theorem answer_through (hf : Projects f) (r : Reader τ) (request : Request) :
    (r.through f).answer request = (r.answer request).map id (through f) := by
  cases request with
  | read size =>
    rw [answer, answer, Reader.read, Reader.read]
    split
    · rfl
    · exact fill_through hf r false size
  | readInto size => exact fill_through hf r false size
  | read1 size => exact fill_through hf r true size
  | readInto1 size => exact fill_through hf r true size

theorem discard_through (hf : Projects f) (r : Reader τ) (distance : Nat) :
    (r.through f).discard distance = (r.discard distance).map id (through f) := by
  have hread : ∀ {r r₁ : Reader τ} {size : Nat} {answer : Except Failure (List UInt8)},
      r.readInto size = (answer, r₁) → (r.through f).readInto size = (answer, r₁.through f) := by
    intro r r₁ size answer h
    rw [readInto, fill_through hf, show r.fill false size = _ from h]
    rfl
  fun_induction discard r distance
  case case1 r => rw [discard, dif_pos rfl]; rfl
  case case2 r distance hdistance failure r₁ hanswer =>
    rw [discard, dif_neg hdistance, hread hanswer]
    rfl
  case case3 r distance hdistance r₁ hanswer =>
    rw [discard, dif_neg hdistance, hread hanswer]
    rfl
  case case4 r distance hdistance byte rest r₁ hanswer ih =>
    rw [discard, dif_neg hdistance, hread hanswer]
    exact ih

theorem seek_through (hf : Projects f) (r : Reader τ) (goal : SeekFrom) :
    (r.through f).seek goal = (r.seek goal).map id (through f) := by
  have hdirection : (r.through f).direction = r.direction := rfl
  have hphase : (r.through f).phase = r.phase := rfl
  have hdelivered : (r.through f).delivered = r.delivered := rfl
  rw [seek, seek, hdirection]
  cases r.direction with
  | compressing => rfl
  | decompressing =>
    simp only [hphase, hdelivered]
    split
    · rfl
    split
    · rfl
    next target htarget =>
      rw [discard_through hf]
      rcases r.discard (target - r.delivered) with ⟨_ | _, _⟩ <;> rfl

end Through

end Reader

end Projections

/-! ## What a pull uses up -/

namespace Source

variable {s s' : Source} {size : Nat}

/-- A request is counted, and the bytes that it brings are gone. -/
theorem read_ok_requests {bytes : List UInt8} (h : s.read size = (.ok bytes, s')) :
    s'.requests.size = s.requests.size + 1 ∧ s'.answersLeft + bytes.length ≤ s.answersLeft := by
  have hcontent := congrArg List.length (content_read h)
  rw [List.length_append] at hcontent
  have hplan := (plan_of_read h).length_le
  refine ⟨?_, by simp only [answersLeft]; omega⟩
  unfold Source.read at h
  split at h <;> cases h <;> exact Array.size_push ..

/-- A failure is counted too, and it was planned. -/
theorem read_error_requests {error : IoError} (h : s.read size = (.error error, s')) :
    s'.requests.size = s.requests.size + 1 ∧ s'.answersLeft + 1 = s.answersLeft := by
  unfold Source.read at h
  split at h
  · cases h
  · cases h
  · next planned plan hp =>
    cases h
    exact ⟨Array.size_push .., by simp [answersLeft, hp, Nat.add_assoc]⟩

/-- A pull uses up the interruptions in front of its bytes, and these bytes. -/
theorem pull_ok_requests {bytes : List UInt8} (h : s.pull size = (.ok bytes, s')) :
    s'.answersLeft + bytes.length ≤ s.answersLeft ∧
      s'.requests.size + s'.answersLeft + bytes.length ≤ s.requests.size + s.answersLeft + 1 := by
  fun_induction Source.pull s size with
  | case1 s got s₁ hr =>
    cases h
    have := read_ok_requests hr
    omega
  | case2 s error s₁ hr hk ih =>
    have := read_error_requests hr
    have := ih h
    omega
  | case3 s error s₁ hr hk => cases h

/-- A pull that fails uses up what is in front of the failure, and the failure. -/
theorem pull_error_requests {failure : Failure} (h : s.pull size = (.error failure, s')) :
    s'.answersLeft < s.answersLeft ∧
      s'.requests.size + s'.answersLeft ≤ s.requests.size + s.answersLeft := by
  fun_induction Source.pull s size with
  | case1 s got s₁ hr => cases h
  | case2 s error s₁ hr hk ih =>
    have := read_error_requests hr
    have := ih h
    omega
  | case3 s error s₁ hr hk =>
    cases h
    have := read_error_requests hr
    omega

end Source

/-! ## What a call spends -/

namespace Reader

variable {σ : Type}

/-- What there is still to be stepped over: what is pending, and what the source can still bring. An
answer of the source counts twice, since a step that does nothing may come before it. -/
def workLeft (r : Reader σ) : Nat := r.pending.length + 2 * r.inputLeft

/-- The number of steps that the codec has taken. -/
def steps (r : Reader (Counted σ)) : Nat := r.codec.codec.steps

/-- From `r` to `r'`, no more steps have been taken than work has been done, and `credit` more; and
the source has been asked no more often than it has answers less. -/
structure Spends (r : Reader (Counted σ)) (credit : Nat) (r' : Reader (Counted σ)) : Prop where
  steps : r'.steps + r'.workLeft ≤ r.steps + r.workLeft + credit
  requests : r'.source.requests.size + r'.inputLeft ≤ r.source.requests.size + r.inputLeft

variable {r r₁ r' : Reader (Counted σ)} {s : Counted σ} {credit credit' : Nat}
  {window w₁ : Window}

namespace Spends

theorem refl (r : Reader (Counted σ)) (credit : Nat) : Spends r credit r :=
  ⟨Nat.le_add_right _ _, Nat.le_refl _⟩

theorem mono (h : Spends r credit r') (hle : credit ≤ credit') : Spends r credit' r' :=
  ⟨Nat.le_trans h.steps (Nat.add_le_add_left hle _), h.requests⟩

theorem trans (h : Spends r credit r₁) (h' : Spends r₁ credit' r') :
    Spends r (credit + credit') r' where
  steps := by
    have := h.steps
    have := h'.steps
    omega
  requests := Nat.le_trans h'.requests h.requests

end Spends

/-- A pull that succeeds leaves less work, although it adds to what is pending. -/
theorem workLeft_pull {r r' : Reader σ} (hdone : r.inputDone = false)
    (hp : r.pull = (.ok (), r')) :
    r'.workLeft + 1 ≤ r.workLeft ∧
      r'.source.requests.size + r'.inputLeft ≤ r.source.requests.size + r.inputLeft := by
  obtain ⟨bytes, source, hsource, rfl⟩ := pull_ok_inv hp
  have hused := Source.pull_ok_requests hsource
  have hbefore : r.inputLeft = r.source.answersLeft + 1 := by simp [inputLeft, hdone]
  cases bytes with
  | nil =>
    simp only [workLeft, hbefore, List.append_nil, List.length_nil] at hused ⊢
    simp only [inputLeft, BEq.rfl, Bool.or_true, if_true]
    omega
  | cons byte bytes =>
    have hnotYet : (r.inputDone || byte :: bytes == []) = false := by simp [hdone]
    simp only [workLeft, hbefore, List.length_append, List.length_cons] at hused ⊢
    simp only [inputLeft, hnotYet, Bool.false_eq_true, if_false]
    omega

/-- A pull is no step, and pays for one. -/
theorem Spends.pull (h : Spends r (credit + 1) r₁) (hdone : r₁.inputDone = false)
    (hp : r₁.pull = (.ok (), r')) : Spends r credit r' := by
  obtain ⟨hwork, hrequests⟩ := workLeft_pull hdone hp
  have hsteps : r'.steps = r₁.steps := by
    obtain ⟨bytes, source, -, rfl⟩ := pull_ok_inv hp
    rfl
  refine ⟨?_, Nat.le_trans hrequests h.requests⟩
  have := h.steps
  omega

/-- One that fails leaves no more. -/
theorem pull_error_spends {failure : Failure} (hdone : r.inputDone = false)
    (hp : r.pull = (.error failure, r')) : Spends r 0 r' := by
  obtain ⟨source, hsource, rfl⟩ := pull_error_inv hp
  have hused := Source.pull_error_requests hsource
  constructor <;> simp only [workLeft, inputLeft, steps, hdone, Bool.false_eq_true, if_false] <;> omega

/-- What a loop that fills a window spends: a step for every byte that it makes, and one more. If it
fails, it has made no more than there was room for. -/
inductive LoopSpends (r : Reader (Counted σ)) (window : Window) :
    Except Failure Window → Reader (Counted σ) → Prop where
  | made {w : Window} {r' : Reader (Counted σ)} {count : Nat} (pos : w.pos = window.pos + count)
      (spare : w.spare + count = window.spare) (spends : Spends r (count + 1) r') :
      LoopSpends r window (.ok w) r'
  | failed {failure : Failure} {r' : Reader (Counted σ)} (spends : Spends r (window.spare + 1) r') :
      LoopSpends r window (.error failure) r'

theorem LoopSpends.nothing (r : Reader (Counted σ)) (w : Window) : LoopSpends r w (.ok w) r :=
  .made (Nat.add_zero w.pos).symm (Nat.add_zero w.spare) (.refl r 1)

/-- The loop goes on after some bytes, each of which has paid for itself. -/
theorem LoopSpends.after {result : Except Failure Window} {count : Nat}
    (hpos : w₁.pos = window.pos + count) (hspare : w₁.spare + count = window.spare)
    (hspends : Spends r count r₁) (h : LoopSpends r₁ w₁ result r') :
    LoopSpends r window result r' := by
  cases h with
  | @made w r' count' pos spare spends =>
    have hboth : Spends r (count + count' + 1) r' := (hspends.trans spends).mono (by omega)
    exact .made (by omega) (by omega) hboth
  | failed spends => exact .failed ((hspends.trans spends).mono (by omega))

/-- A step makes some bytes. -/
theorem drive_room {σ : Type} [Codec σ] (s : σ) (input : Input) (window : Window)
    (directive : Directive) :
    ∃ count, (drive s input window directive).window.pos = window.pos + count ∧
      (drive s input window directive).window.spare + count = window.spare := by
  rw [drive_window]
  refine ⟨_, Window.pos_put .., ?_⟩
  rw [Window.spare_put]
  omega

variable [Codec σ]

/-- A step is paid for by what is not pending any more, and by credit. -/
theorem step_spends (hlive : r.codec = .live s) (input : Input) (window : Window)
    (directive : Directive) {pending : List UInt8}
    (hle : pending.length + 1 ≤ r.pending.length + credit) :
    Spends r credit
      { r with codec := .live (drive s input window directive).codec, pending } where
  steps := by
    have hsteps : (drive s input window directive).codec.steps = r.steps + 1 := by
      rw [steps, hlive]
      rfl
    have hleft : inputLeft { r with codec := .live (drive s input window directive).codec, pending } =
      r.inputLeft := rfl
    simp only [steps, workLeft, Slot.codec, hsteps, hleft]
    have : r.codec.codec.steps = r.steps := rfl
    omega
  requests := Nat.le_refl _

/-- A step over what is pending makes some bytes. If it has moved a cursor, it has paid for itself.
-/
theorem step_pending_spends (hlive : r.codec = .live s) (window : Window) :
    ∃ count, (drive s (.ofList r.pending) window .proceed).window.pos = window.pos + count ∧
      (drive s (.ofList r.pending) window .proceed).window.spare + count = window.spare ∧
      ∀ credit, (0 < (drive s (.ofList r.pending) window .proceed).input.pos ∨
          window.pos < (drive s (.ofList r.pending) window .proceed).window.pos ∨ 0 < credit) →
        Spends r (count + credit) { r with
          codec := .live (drive s (.ofList r.pending) window .proceed).codec
          pending := (drive s (.ofList r.pending) window .proceed).input.unread } := by
  obtain ⟨count, hpos, hspare⟩ := drive_room s (.ofList r.pending) window .proceed
  refine ⟨count, hpos, hspare, fun credit hpaid => step_spends hlive _ _ _ ?_⟩
  have htaken : (drive s (.ofList r.pending) window .proceed).input.pos +
      (drive s (.ofList r.pending) window .proceed).input.unread.length = r.pending.length :=
    (Input.length_advance ..).trans (Nat.zero_add _)
  omega

/-- What stepping and pulling spends. -/
theorem feed_spends (eager : Bool) (r : Reader (Counted σ)) (window : Window) :
    LoopSpends r window (feed eager r window).1 (feed eager r window).2 := by
  fun_induction feed eager r window
  case case1 r window hpending hdone => exact .nothing r window
  case case2 r window hpending hdone failure r₁ hp =>
    exact .failed ((pull_error_spends (by simpa using hdone) hp).mono (Nat.zero_le _))
  case case3 r window hpending hdone r₁ hp ih =>
    have hpulled : Spends r 0 r₁ := (Spends.refl r 1).pull (by simpa using hdone) hp
    exact ih.after (Nat.add_zero window.pos).symm (Nat.add_zero window.spare) hpulled
  case case4 r window hpending codec hretired => exact .failed (.refl r _)
  case case5 r window hpending codec hlive driven failure hres =>
    exact .failed (step_spends hlive (.ofList r.pending) window .proceed (by omega))
  -- a step ends the loop, and may be the one that is not paid for
  case case6 r window hpending codec hlive driven left hres stepped hstop =>
    obtain ⟨count, hpos, hspare, hspends⟩ := step_pending_spends hlive window
    have hlast := hspends 1 (.inr (.inr Nat.one_pos))
    exact .made hpos hspare ⟨hlast.steps, hlast.requests⟩
  case case7 r window hpending codec hlive driven left hres stepped hstop hgot =>
    obtain ⟨count, hpos, hspare, hspends⟩ := step_pending_spends hlive window
    exact .made hpos hspare (hspends 1 (.inr (.inr Nat.one_pos)))
  case case9 r window hpending codec hlive driven left hres stepped hstop hgot hmoved hdone =>
    obtain ⟨count, hpos, hspare, hspends⟩ := step_pending_spends hlive window
    exact .made hpos hspare (hspends 1 (.inr (.inr Nat.one_pos)))
  -- a step that has moved a cursor, or that a pull pays for
  case case8 r window hpending codec hlive driven left hres stepped hstop hgot hmoved ih =>
    obtain ⟨count, hpos, hspare, hspends⟩ := step_pending_spends hlive window
    exact .after hpos hspare (hspends 0 (hmoved.imp_right .inl)) ih
  case case10 r window hpending codec hlive driven left hres stepped hstop hgot hmoved hdone failure
      r₁ hp =>
    obtain ⟨count, hpos, hspare, hspends⟩ := step_pending_spends hlive window
    have hstepped := hspends 1 (.inr (.inr Nat.one_pos))
    have hpulled := pull_error_spends (r := stepped) (by simpa using hdone) hp
    exact .failed ((hstepped.trans hpulled).mono (by omega))
  case case11 r window hpending codec hlive driven left hres stepped hstop hgot hmoved hdone r₁ hp
      ih =>
    obtain ⟨count, hpos, hspare, hspends⟩ := step_pending_spends hlive window
    have hstepped : Spends r (count + 1) stepped := hspends 1 (.inr (.inr Nat.one_pos))
    exact .after hpos hspare (hstepped.pull (by simpa using hdone) hp) ih

/-- What emptying the codec spends. -/
theorem drain_spends (r : Reader (Counted σ)) (window : Window) :
    LoopSpends r window (drain r window).1 (drain r window).2 := by
  fun_induction drain r window
  case case1 r window codec hretired => exact .failed (.refl r _)
  case case2 r window codec hlive driven stepped failure hres =>
    exact .failed (step_spends hlive .empty window .finish (by omega))
  case case3 r window codec hlive driven stepped left hres hmoved hfull =>
    obtain ⟨count, hpos, hspare⟩ := drive_room codec .empty window .finish
    exact .made hpos hspare (step_spends hlive .empty window .finish (by omega))
  case case4 r window codec hlive driven stepped left hres hmoved hfull ih =>
    obtain ⟨count, hpos, hspare⟩ := drive_room codec .empty window .finish
    have hmade : window.pos < (drive codec .empty window .finish).window.pos := hmoved.2
    exact .after hpos hspare (step_spends hlive .empty window .finish (by omega)) ih
  case case5 r window codec hlive driven stepped left hres hmoved =>
    obtain ⟨count, hpos, hspare⟩ := drive_room codec .empty window .finish
    have hlast : Spends r (count + 1) stepped := step_spends hlive .empty window .finish (by omega)
    exact .made hpos hspare ⟨hlast.steps, hlast.requests⟩

/-! ## Whole calls -/

/-- Telling the codec that the size is unknown is no step. -/
theorem settlePledge_spends {result : Except Failure Unit} (h : r.settlePledge = (result, r')) :
    Spends r 0 r' := by
  cases hcodec : r.codec with
  | retired name =>
    have hsame : r' = { r with owesPledge := r'.owesPledge } := by
      rw [settlePledge, hcodec] at h
      split at h <;> cases h
      · rw [← hcodec]
      · rfl
    rw [hsame]
    exact ⟨Nat.le_refl _, Nat.le_refl _⟩
  | live s =>
    obtain ⟨s', owes, rfl, hs', -⟩ := settlePledge_inv h hcodec
    have hsteps : s'.steps = r.steps := by
      rw [steps, hcodec]
      rcases hs' with rfl | rfl <;> rfl
    exact ⟨Nat.le_of_eq (congrArg (· + r.workLeft) hsteps), Nat.le_refl _⟩

/-- What a request spends: a step for every byte that it delivers, and two more. One that fails may
have made as many bytes as were asked for. -/
theorem fill_spends {eager : Bool} {size : Nat} {result : Except Failure (List UInt8)}
    (h : r.fill eager size = (result, r')) :
    Spends r (size + 2) r' ∧
      ∀ bytes, result = .ok bytes → bytes.length ≤ size ∧ Spends r (bytes.length + 2) r' := by
  have hfailed : ∀ {failure : Failure} {r₁ : Reader (Counted σ)}, Spends r (size + 2) r₁ →
      (.error failure, r₁) = (result, r') →
        Spends r (size + 2) r' ∧
          ∀ bytes, result = .ok bytes → bytes.length ≤ size ∧ Spends r (bytes.length + 2) r' := by
    rintro failure r₁ hspends ⟨⟩
    exact ⟨hspends, nofun⟩
  rw [fill] at h
  split at h
  · exact hfailed (.refl r _) h
  split at h
  · cases h
    exact ⟨.refl r _, fun bytes hok => by cases hok; exact ⟨Nat.zero_le _, .refl r _⟩⟩
  rcases hsettle : r.settlePledge with ⟨failure | ⟨⟩, r₁⟩
  · rw [hsettle] at h
    exact hfailed ((settlePledge_spends hsettle).mono (Nat.zero_le _)) h
  have htold := settlePledge_spends hsettle
  have hfed := feed_spends eager r₁ (.fresh size)
  simp only [hsettle] at h
  rcases hfeed : feed eager r₁ (.fresh size) with ⟨failure | w, r₂⟩
  · rw [hfeed] at h hfed
    cases hfed with
    | failed spends => exact hfailed ((htold.trans spends).mono (by simp)) h
  rw [hfeed] at hfed
  simp only [hfeed] at h
  cases hfed with
  | @made _ _ count pos spare spends =>
    have hspends := htold.trans spends
    have hpos : w.pos = count := pos.trans (Nat.zero_add count)
    have hspare : w.spare + count = size := spare
    have hdrained : ∀ {result r₃},
        (if r₂.canDrain w then drain r₂ w else (.ok w, r₂)) = (result, r₃) →
          LoopSpends r₂ w result r₃ := by
      intro result r₃ hdrain
      split at hdrain
      · have := drain_spends r₂ w
        rwa [hdrain] at this
      · cases hdrain
        exact .nothing r₂ w
    rcases hdrain : (if r₂.canDrain w then drain r₂ w else (.ok w, r₂)) with ⟨failure | w', r₃⟩
    · simp only [hdrain] at h
      cases hdrained hdrain with
      | failed spends' => exact hfailed ((hspends.trans spends').mono (by omega)) h
    · simp only [hdrain] at h
      cases h
      cases hdrained hdrain with
      | @made _ _ count' pos' spare' spends' =>
        have hlength : w'.written.toList.length = count + count' := by
          rw [Array.length_toList, ← hpos]
          exact pos'
        have hall := hspends.trans spends'
        have hexact : Spends r (count + count' + 2) r₃ := hall.mono (by omega)
        refine ⟨⟨(hexact.mono (by omega)).steps, hexact.requests⟩, ?_⟩
        rintro bytes ⟨⟩
        rw [hlength]
        exact ⟨by omega, hexact.steps, hexact.requests⟩

theorem answer_spends (r : Reader (Counted σ)) (request : Request) :
    Spends r (request.size + 2) (r.answer request).2 := by
  cases request with
  | read size =>
    rw [answer, Reader.read]
    split
    · exact .refl r _
    · exact (fill_spends rfl).1
  | readInto size => exact (fill_spends rfl).1
  | read1 size => exact (fill_spends rfl).1
  | readInto1 size => exact (fill_spends rfl).1

/-- A read of some bytes delivers one at least, which pays for the two steps, or it is the last one.
-/
theorem discard_spends (r : Reader (Counted σ)) (distance : Nat) :
    Spends r (3 * distance) (r.discard distance).2 := by
  fun_induction discard r distance
  case case1 r => exact .refl r _
  case case2 r distance hdistance failure r₁ hanswer =>
    have hlimit : 0 < decompressionOutputSize := by decide
    exact (fill_spends hanswer).1.mono (by omega)
  case case3 r distance hdistance r₁ hanswer =>
    obtain ⟨-, hspends⟩ := (fill_spends hanswer).2 [] rfl
    exact hspends.mono (by simp only [List.length_nil]; omega)
  case case4 r distance hdistance byte rest r₁ hanswer ih =>
    obtain ⟨hlength, hspends⟩ := (fill_spends hanswer).2 _ rfl
    rw [List.length_cons] at hlength hspends
    exact (hspends.trans ih).mono (by omega)

/-- How far a seek is to go; a seek that is refused goes nowhere. -/
def SeekFrom.distance (goal : SeekFrom) (current : Nat) : Nat :=
  match goal.target current with
  | .ok target => target - current
  | .error _ => 0

theorem seek_spends (r : Reader (Counted σ)) (goal : SeekFrom) :
    Spends r (3 * goal.distance r.delivered) (r.seek goal).2 := by
  rw [seek]
  split
  · exact .refl r _
  split
  · exact .refl r _
  split
  · exact .refl r _
  · next target htarget =>
    have hdistance : goal.distance r.delivered = target - r.delivered := by
      rw [SeekFrom.distance, htarget]
    have hspends := discard_spends r (target - r.delivered)
    rw [hdistance]
    split <;> next hdiscard => rwa [hdiscard] at hspends

omit [Codec σ] in
/-- Skipping input takes no step at all. -/
theorem skipInput_spends (r : Reader (Counted σ)) (count : Nat) :
    (r.skipInput count).2.steps = r.steps ∧
      (r.skipInput count).2.source.requests.size + (r.skipInput count).2.inputLeft ≤
        r.source.requests.size + r.inputLeft := by
  fun_induction skipInput r count
  case case1 r hle => exact ⟨rfl, Nat.le_refl _⟩
  case case2 r hlt hdone => exact ⟨rfl, Nat.le_refl _⟩
  case case3 r hlt hdone failure r₁ hp =>
    obtain ⟨source, -, rfl⟩ := pull_error_inv hp
    exact ⟨rfl, (pull_error_spends (by simpa using hdone) hp).requests⟩
  case case4 r hlt hdone r₁ hp ih =>
    have hrequests := (workLeft_pull (by simpa using hdone) hp).2
    obtain ⟨bytes, source, -, rfl⟩ := pull_ok_inv hp
    exact ⟨ih.1, Nat.le_trans ih.2 hrequests⟩

/-! ## Every call comes to its end -/

/-- The same reader, with a codec that counts from now on. -/
def counting (r : Reader σ) : Reader (Counted σ) :=
  { r with codec := r.codec.map fun codec => ⟨codec, 0⟩ }

/-- A call on the reader `r` gives `result` with no more than `steps` steps of the codec; the same
call with a codec that counts shows it. The source is asked no more often than it has answers left.
-/
structure Within {α : Type} (r : Reader σ) (counted : α × Reader (Counted σ)) (result : α × Reader σ)
    (steps : Nat) : Prop where
  answer : counted.1 = result.1
  reader : counted.2.through Counted.codec = result.2
  steps : counted.2.steps ≤ steps
  requests : result.2.source.requests.size ≤ r.source.requests.size + r.inputLeft

omit [Codec σ] in
/-- Not to look at the count gives back the reader. -/
theorem through_counting (r : Reader σ) : r.counting.through Counted.codec = r := by
  have hslot : (r.codec.map fun codec => (⟨codec, 0⟩ : Counted σ)).map Counted.codec = r.codec := by
    cases r.codec <;> rfl
  exact congrArg (fun codec => { r with codec }) hslot

omit [Codec σ] in
theorem steps_counting (r : Reader σ) : r.counting.steps = 0 := by
  have hslot : (r.codec.map fun codec => (⟨codec, 0⟩ : Counted σ)).codec.steps = 0 := by
    cases r.codec <;> rfl
  exact hslot

omit [Codec σ] in
theorem Within.of_spends {α : Type} {r : Reader σ} {counted : α × Reader (Counted σ)}
    {result : α × Reader σ} (hresult : result = counted.map id (through Counted.codec))
    (h : Spends r.counting credit counted.2) : Within r counted result (credit + r.workLeft) where
  answer := by rw [hresult]; rfl
  reader := by rw [hresult]; rfl
  steps := by
    have hsteps := h.steps
    have hwork : r.counting.workLeft = r.workLeft := rfl
    rw [steps_counting] at hsteps
    omega
  requests := by
    have hrequests : counted.2.source.requests.size + counted.2.inputLeft ≤
      r.source.requests.size + r.inputLeft := h.requests
    rw [hresult]
    exact Nat.le_trans (Nat.le_add_right _ _) hrequests

/-- Every call on a reader comes to its end, in whatever state the reader is and whatever its codec
does: a request after a step for every byte that it asks for, and two more, and those for the work
that is left; a seek after three steps for every byte on the way, and those for the work; skipping
input without a step. -/
theorem within_bounds (r : Reader σ) :
    (∀ request : Request, Within r (r.counting.answer request) (r.answer request)
      (request.size + 2 + r.workLeft)) ∧
    (∀ count : Nat, Within r (r.counting.skipInput count) (r.skipInput count) 0) ∧
    (∀ goal : SeekFrom, Within r (r.counting.seek goal) (r.seek goal)
      (3 * goal.distance r.delivered + r.workLeft)) := by
  refine ⟨fun request => ?_, fun count => ?_, fun goal => ?_⟩
  · have hsame := answer_through Counted.projects r.counting request
    rw [through_counting] at hsame
    exact .of_spends hsame (answer_spends r.counting request)
  · have hsame := skipInput_through (f := Counted.codec) r.counting count
    rw [through_counting] at hsame
    obtain ⟨hsteps, hrequests⟩ := skipInput_spends r.counting count
    rw [steps_counting] at hsteps
    refine ⟨by rw [hsame]; rfl, by rw [hsame]; rfl, Nat.le_of_eq hsteps, ?_⟩
    rw [hsame]
    exact Nat.le_trans (Nat.le_add_right _ _) hrequests
  · have hsame := seek_through Counted.projects r.counting goal
    rw [through_counting] at hsame
    exact .of_spends hsame (seek_spends r.counting goal)

end Reader

end Sluice
