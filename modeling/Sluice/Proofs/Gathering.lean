import Sluice.Incremental
import Sluice.Proofs.Blocks
import Sluice.Proofs.Session

/-!
# Collecting output

Whole frames and the pieces of a builder are collected in blocks. What is collected is what the
codec made, whichever way the blocks are handed out.

* `Gathering.run_ok` — a run of steps is a course over the input.
* `compressFrame_ok` — the course of a whole frame.
* `FrameBuilder.pushEach_ok` — the session of a frame in pieces.
-/

namespace Sluice

/-! ## Runs of steps -/

variable {σ : Type} [Codec σ]

namespace Gathering

/-- What a run of steps has done, if it succeeds. All of the turns but the last leave the caller's
condition unmet. -/
structure Ran (directive : Directive) (done : Nat → Input → Bool → Bool) (c c' : Gathering σ)
    (before : List Turn) (last : Turn) : Prop where
  course : Course c.codec c.input.unread (before ++ [last]) c'.codec c'.input.unread
  turn : ∀ t ∈ before ++ [last], t.directive = directive
  rest : last.rest = c'.input.unread
  join : c'.blocks.join.toList = c.blocks.join.toList ++ madeBy (before ++ [last])
  undone : ∀ t ∈ before, ∃ input full, done t.left input full = false
  done : ∃ full, done last.left c'.input full = true

/-- The step of a run, as a turn. -/
abbrev turn (c : Gathering σ) (directive : Directive) (left : Nat) : Turn :=
  .ofStep c.codec c.input.unread c.blocks.active.spare directive left

/-- A step writes to the active block. -/
theorem join_step (c : Gathering σ) (directive : Directive) (left : Nat) :
    (c.step directive).2.blocks.join.toList =
      c.blocks.join.toList ++ (c.turn directive left).made := by
  have hwritten := drive_written c.codec c.input c.blocks.active directive left
  rw [BlockList.toList_join, BlockList.toList_join, List.append_assoc, ← hwritten]
  rfl

/-- A step, and then a course over what it has left. -/
theorem course_cons_turn {c c₁ : Gathering σ} {directive : Directive} {left : Nat} {s' : σ}
    {y : List UInt8} {turns : List Turn} (h : c.step directive = (.ok left, c₁))
    (hcourse : Course c₁.codec c₁.input.unread turns s' y) :
    Course c.codec c.input.unread (c.turn directive left :: turns) s' y := by
  simp only [step, Prod.mk.injEq] at h
  obtain ⟨hres, rfl⟩ := h
  exact Course.cons_drive hres hcourse

/-- A run that goes on after a step. -/
theorem Ran.cons {directive : Directive} {done : Nat → Input → Bool → Bool} {left : Nat}
    {c c₁ c₂ c' : Gathering σ} {before : List Turn} {last : Turn}
    (h : Ran directive done c₂ c' before last) (hstep : c.step directive = (.ok left, c₁))
    (hundone : ∃ input full, done left input full = false) (hcodec : c₂.codec = c₁.codec)
    (hinput : c₂.input = c₁.input) (hblocks : c₂.blocks.join = c₁.blocks.join) :
    Ran directive done c c' (c.turn directive left :: before) last where
  course := by
    have hcourse := h.course
    rw [hcodec, hinput] at hcourse
    exact course_cons_turn hstep hcourse
  turn := by
    intro t ht
    rcases List.mem_cons.1 ht with rfl | ht
    · rfl
    · exact h.turn t ht
  rest := h.rest
  join := by
    have hjoin := join_step c directive left
    rw [hstep] at hjoin
    rw [h.join, hblocks, hjoin, List.cons_append, madeBy_cons, List.append_assoc]
  undone := by
    intro t ht
    rcases List.mem_cons.1 ht with rfl | ht
    · exact hundone
    · exact h.undone t ht
  done := h.done

theorem run_ok {directive : Directive} {done : Nat → Input → Bool → Bool} {limit left : Nat}
    {c c' : Gathering σ} (h : run directive done limit c = (.ok left, c')) :
    ∃ before last, Ran directive done c c' before last ∧ last.left = left := by
  fun_induction run directive done limit c
  case case1 => cases h
  case case2 => cases h
  -- the condition is met, and this step is the last one
  case case3 limit c left₁ c₁ hstep full hdone =>
    obtain ⟨rfl, rfl⟩ : left₁ = left ∧ c₁ = c' := by simpa using h
    have hjoin := join_step c directive left₁
    rw [hstep] at hjoin
    refine ⟨[], c.turn directive left₁,
      ⟨course_cons_turn hstep .nil, ?_, ?_, ?_, by simp, _, hdone⟩, rfl⟩
    · simp
    · simp only [step, Prod.mk.injEq] at hstep
      rw [← hstep.2]
      rfl
    · simpa using hjoin
  case case4 => cases h
  -- or not, and the run goes on with a new block or with this one
  case case5 limit c left₁ c₁ hstep full hdone hfull blocks hgrow ih =>
    obtain ⟨before, last, hran, hleft⟩ := ih h
    have hundone : done left₁ c₁.input full = false := by simpa using hdone
    exact ⟨_, last, hran.cons hstep ⟨_, _, hundone⟩ rfl rfl (BlockList.join_grow hgrow), hleft⟩
  case case6 limit c left₁ c₁ hstep full hdone hfull ih =>
    obtain ⟨before, last, hran, hleft⟩ := ih h
    have hundone : done left₁ c₁.input full = false := by simpa using hdone
    exact ⟨_, last, hran.cons hstep ⟨_, _, hundone⟩ rfl rfl rfl, hleft⟩

/-- What a run that starts with nothing collects is what the codec makes. -/
theorem Ran.output {directive : Directive} {done : Nat → Input → Bool → Bool} {codec : σ}
    {bytes : List UInt8} {limit : Option Nat} {c' : Gathering σ} {before : List Turn} {last : Turn}
    (h : Ran directive done (.start codec bytes limit) c' before last) :
    c'.output = madeBy (before ++ [last]) := by
  rw [Gathering.output, BlockList.finish_eq_join, h.join]
  rfl

end Gathering

/-! ## Whole frames -/

/-- A whole frame takes the input in the turns of one end. -/
theorem compressFrame_ok {limit : Nat} {codec codec' : σ} {bytes out : List UInt8}
    (h : compressFrame limit codec bytes = (.ok out, codec')) :
    ∃ s before last y, Codec.pledge codec (some bytes.length) = (.ok (), s) ∧
      Course s bytes (before ++ [last]) codec' y ∧ (∀ t ∈ before, ¬ t.EndsFrame) ∧
      last.EndsFrame ∧ last.rest = y ∧ out = madeBy (before ++ [last]) := by
  unfold compressFrame at h
  rcases hpledge : Codec.pledge codec (some bytes.length) with ⟨failure | ⟨⟩, s⟩
  · simp [hpledge] at h
  · simp only [hpledge] at h
    rcases hrun : Gathering.run .finish (fun left _ _ => left == 0) limit
      (.start s bytes none) with ⟨failure | left, c⟩
    · simp [hrun, Except.map] at h
    · simp only [hrun, Except.map, Prod.mk.injEq, Except.ok.injEq] at h
      obtain ⟨rfl, rfl⟩ := h
      obtain ⟨before, last, hran, -⟩ := Gathering.run_ok hrun
      obtain ⟨-, hdone⟩ := hran.done
      refine ⟨s, before, last, c.input.unread, rfl, hran.course, ?_, ?_, hran.rest, hran.output⟩
      · intro t ht hend
        obtain ⟨-, -, hundone⟩ := hran.undone t ht
        simp [hend.2] at hundone
      · exact ⟨hran.turn last (by simp), by simpa using hdone⟩

/-! ## Frames in pieces -/

namespace FrameBuilder

/-- Do one of the operations. -/
def push (limit : Nat) (b : FrameBuilder σ) : WriterOp → Except Failure (List UInt8) × FrameBuilder σ
  | .write bytes => b.compress limit bytes
  | .flush mode => b.flush limit mode

variable {b b' : FrameBuilder σ} {limit : Nat} {op : WriterOp} {out : List UInt8}

theorem new_ok {codec : σ} {size : Option Nat} (h : new codec size = .ok b) :
    Codec.pledge codec size = (.ok (), b.codec) := by
  unfold new at h
  rcases hpledge : Codec.pledge codec size with ⟨failure | ⟨⟩, s⟩
  · simp [hpledge] at h
  · simp only [hpledge, Except.ok.injEq] at h
    rw [← h]

theorem compress_ok {bytes : List UInt8} (h : b.compress limit bytes = (.ok out, b')) :
    ∃ turns, Effort (.write bytes) b.codec turns b'.codec ∧ out = madeBy turns ∧
      b.finished = false ∧ b'.finished = false := by
  unfold compress at h
  split at h
  · cases h
  · next hfinished =>
    rcases hrun : Gathering.run .proceed (fun _ input full => input.isConsumed && !full) limit
      (.start b.codec bytes none) with ⟨failure | left, c⟩
    · simp [hrun, Except.map] at h
    · simp only [hrun, Except.map, Prod.mk.injEq, Except.ok.injEq] at h
      obtain ⟨rfl, rfl⟩ := h
      have hopen : b.finished = false := by simpa using hfinished
      obtain ⟨before, last, hran, -⟩ := Gathering.run_ok hrun
      obtain ⟨full, hdone⟩ := hran.done
      simp only [Bool.and_eq_true, Input.isConsumed_iff] at hdone
      have hcourse := hran.course
      rw [hdone.1] at hcourse
      exact ⟨before ++ [last], .of_write hcourse hran.turn, hran.output, hopen, hopen⟩

theorem flush_ok {mode : FlushMode} (h : b.flush limit mode = (.ok out, b')) :
    ∃ turns, Effort (.flush mode) b.codec turns b'.codec ∧ out = madeBy turns ∧
      b.finished = false ∧ b'.finished = decide (mode = .frame) := by
  unfold flush at h
  split at h
  · cases h
  · next hfinished =>
    rcases hrun : Gathering.run mode.directive (fun left _ _ => left == 0) limit
      (.start b.codec [] none) with ⟨failure | left, c⟩
    · simp [hrun, Except.map] at h
    · simp only [hrun, Except.map, Prod.mk.injEq, Except.ok.injEq] at h
      obtain ⟨rfl, rfl⟩ := h
      obtain ⟨before, last, hran, -⟩ := Gathering.run_ok hrun
      obtain ⟨-, hdone⟩ := hran.done
      have hbefore : ∀ t ∈ before, t.left ≠ 0 := by
        intro t ht
        obtain ⟨-, -, hundone⟩ := hran.undone t ht
        simpa using hundone
      have hlast : last.left = 0 := by simpa using hdone
      refine ⟨before ++ [last], .of_flush hran.course hran.turn hbefore hlast, hran.output, ?_, rfl⟩
      simpa using hfinished

/-- Every operation is an effort of the encoder, and only the end of the frame spends the builder. -/
theorem push_ok (h : b.push limit op = (.ok out, b')) :
    ∃ turns, Effort op b.codec turns b'.codec ∧ out = madeBy turns ∧ b.finished = false ∧
      b'.finished = decide (op = .flush .frame) := by
  cases op with
  | write bytes => simpa using compress_ok h
  | flush mode => simpa using flush_ok h

/-- Operations that end with the end of the frame are a session, and no earlier one ends the
frame. -/
theorem pushEach_ok {ops : List WriterOp} {pieces : List (List UInt8)}
    (h : pushEach (push limit) b (ops ++ [.flush .frame]) = (.ok pieces, b')) :
    Session b.codec (ops ++ [.flush .frame]) pieces.flatten b'.codec ∧
      .flush .frame ∉ ops := by
  induction ops generalizing b pieces with
  | nil =>
    obtain ⟨piece, later, b₁, hpush, hlater, rfl⟩ := pushEach_cons_ok h
    cases hlater
    obtain ⟨turns, heffort, rfl, -, -⟩ := push_ok hpush
    exact ⟨.cons heffort .nil, List.not_mem_nil⟩
  | cons op ops ih =>
    rw [List.cons_append] at h
    obtain ⟨piece, later, b₁, hpush, hlater, rfl⟩ := pushEach_cons_ok h
    obtain ⟨turns, heffort, rfl, -, hspent⟩ := push_ok hpush
    obtain ⟨hsession, hne⟩ := ih hlater
    refine ⟨.cons heffort hsession, fun hmem => ?_⟩
    rcases List.mem_cons.1 hmem with rfl | hmem
    · -- a builder that is spent does nothing any more
      refine absurd hlater (pushEach_ne_ok fun op answer b₂ hpush₁ => ?_)
      obtain ⟨_, -, -, hopen, -⟩ := push_ok hpush₁
      rw [hspent] at hopen
      simp at hopen
    · exact hne hmem

end FrameBuilder

end Sluice
