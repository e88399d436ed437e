import Sluice.Chunker
import Sluice.Proofs.Conforming

/-!
# Chunks of one size

A chunker goes on while its chunk is full, even if the codec says that it is done. With an encoder
that conforms this costs one more step, which makes nothing.

* `Chunker.run_ok` — a run of steps is a course over the input.
* `Chunker.Underway` — a chunker in the middle of a frame; `Chunker.Underway.push` keeps it there.
* `Chunker.Underway.finish`, `Chunker.Underway.pushEach` — at the end, the chunks put together decode
  to the data.
-/

namespace Sluice

namespace Chunker

variable {σ : Type} [Codec σ]

/-! ## Runs of steps -/

/-- What a run of steps has done, if it succeeds: what has been handed out, and the chunk that is
being written, together grow by what the codec makes. All of the turns but the last fill their room
or leave the caller's condition unmet. -/
structure Ran (directive : Directive) (done : Nat → Input → Bool) (c c' : Chunker σ)
    (input : Input) (rest : List UInt8) (chunks chunks' : Array (List UInt8)) (before : List Turn)
    (last : Turn) : Prop where
  course : Course c.codec input.unread (before ++ [last]) c'.codec rest
  turn : ∀ t ∈ before ++ [last], t.directive = directive ∧ 0 < t.room
  handed : chunks'.toList.flatten ++ c'.chunk.written.toList =
    chunks.toList.flatten ++ c.chunk.written.toList ++ madeBy (before ++ [last])
  undone : ∀ t ∈ before, t.room ≤ t.made.length ∨ ∃ input, done t.left input = false
  done : ∃ input : Input, input.unread = rest ∧ done last.left input = true
  room : 0 < c'.chunk.spare
  size : c'.size = c.size
  finished : c'.finished = c.finished

/-- The step of a run, as a turn. -/
abbrev turn (c : Chunker σ) (input : Input) (directive : Directive) (left : Nat) : Turn :=
  .ofStep c.codec input.unread c.chunk.spare directive left

section Step

variable {c : Chunker σ} {input : Input} {directive : Directive} {left : Nat}

/-- A run that goes on after a step into the chunk, which `c₁` has handed out or goes on with. -/
theorem Ran.cons {done : Nat → Input → Bool} {c₁ c' : Chunker σ} {rest : List UInt8}
    {chunks chunks₁ chunks' : Array (List UInt8)} {before : List Turn} {last : Turn}
    (h : Ran directive done c₁ c' (drive c.codec input c.chunk directive).input rest chunks₁ chunks'
      before last)
    (hroom : 0 < c.chunk.spare) (hres : (drive c.codec input c.chunk directive).result = .ok left)
    (hundone : (c.turn input directive left).room ≤ (c.turn input directive left).made.length ∨
      ∃ input, done left input = false)
    (hcodec : c₁.codec = (drive c.codec input c.chunk directive).codec)
    (hhanded : chunks₁.toList.flatten ++ c₁.chunk.written.toList = chunks.toList.flatten ++
      (drive c.codec input c.chunk directive).window.written.toList)
    (hsize : c₁.size = c.size) (hfinished : c₁.finished = c.finished) :
    Ran directive done c c' input rest chunks chunks' (c.turn input directive left :: before)
      last where
  course := Course.cons_drive hres (hcodec ▸ h.course)
  turn := by
    intro t ht
    rcases List.mem_cons.1 ht with rfl | ht
    · exact ⟨rfl, hroom⟩
    · exact h.turn t ht
  handed := by
    rw [h.handed, hhanded, drive_written c.codec input c.chunk directive left, List.cons_append,
      madeBy_cons]
    simp only [List.append_assoc]
  undone := by
    intro t ht
    rcases List.mem_cons.1 ht with rfl | ht
    · exact hundone
    · exact h.undone t ht
  done := h.done
  room := h.room
  size := h.size.trans hsize
  finished := h.finished.trans hfinished

end Step

theorem run_ok {directive : Directive} {done : Nat → Input → Bool} {limit : Nat} {c c' : Chunker σ}
    {input : Input} {chunks chunks' : Array (List UInt8)}
    (h : run directive done limit c input chunks = (.ok chunks', c')) (hsize : 0 < c.size)
    (hroom : 0 < c.chunk.spare) :
    ∃ rest before last, Ran directive done c c' input rest chunks chunks' before last := by
  fun_induction run directive done limit c input chunks
  case case1 => cases h
  case case2 => cases h
  -- a full chunk is handed out, and the run goes on with an empty one
  case case3 limit c input chunks driven left hres hfull ih =>
    obtain ⟨rest, before, last, hran⟩ := ih h hsize hsize
    have hfilled : (c.turn input directive left).room ≤
        (c.turn input directive left).made.length := by
      have hisFull := drive_isFull c.codec input c.chunk directive left
      rw [show (drive c.codec input c.chunk directive).window.isFull = true from hfull] at hisFull
      simpa using hisFull
    refine ⟨rest, _, last, hran.cons hroom hres (.inl hfilled) rfl ?_ rfl rfl⟩
    simp [driven]
  -- a chunk that is not full stays, whether the run is over or not
  case case4 limit c input chunks driven left hres hfull c₁ hdone =>
    simp only [Prod.mk.injEq, Except.ok.injEq] at h
    obtain ⟨rfl, rfl⟩ := h
    have hspare : 0 < driven.window.spare := by
      simp only [Window.isFull, beq_iff_eq] at hfull
      omega
    refine ⟨_, [], c.turn input directive left, Course.cons_drive hres .nil, ?_, ?_, by simp,
      ⟨_, rfl, hdone⟩, hspare, rfl, rfl⟩
    · simpa using hroom
    · have hwritten := drive_written c.codec input c.chunk directive left
      rw [List.nil_append, madeBy_cons, madeBy_nil, List.append_nil, List.append_assoc, ← hwritten]
  case case5 limit c input chunks driven left hres hfull c₁ hdone ih =>
    have hspare : 0 < driven.window.spare := by
      simp only [Window.isFull, beq_iff_eq] at hfull
      omega
    obtain ⟨rest, before, last, hran⟩ := ih h hsize hspare
    have hundone : done left driven.input = false := by simpa using hdone
    exact ⟨rest, _, last, hran.cons hroom hres (.inr ⟨_, hundone⟩) rfl rfl rfl rfl⟩

/-- What steps without input have done, if they succeed. They go on after a step that is complete
only if the chunk has become full in it, and nothing stays in the chunk. -/
structure Emptied (directive : Directive) (c c' : Chunker σ) (out : List (List UInt8))
    (before : List Turn) (last : Turn) : Prop where
  course : Course c.codec [] (before ++ [last]) c'.codec []
  turn : ∀ t ∈ before ++ [last], t.directive = directive ∧ 0 < t.room
  undone : ∀ t ∈ before, t.room ≤ t.made.length ∨ t.left ≠ 0
  done : last.left = 0
  handed : out.flatten = c.chunk.written.toList ++ madeBy (before ++ [last])
  written : c'.chunk.written.toList = []
  room : 0 < c'.chunk.spare
  size : c'.size = c.size
  finished : c'.finished = c.finished

theorem empty_ok {directive : Directive} {limit : Nat} {c c' : Chunker σ} {out : List (List UInt8)}
    (h : c.empty limit directive = (.ok out, c')) (hsize : 0 < c.size) (hroom : 0 < c.chunk.spare) :
    ∃ before last, Emptied directive c c' out before last := by
  unfold empty at h
  rcases hrun : c.run directive (fun left _ => left == 0) limit .empty #[] with
    ⟨failure | chunks, c₁⟩
  · simp [hrun] at h
  · simp only [hrun, Prod.mk.injEq, Except.ok.injEq] at h
    obtain ⟨rest, before, last, hran⟩ := run_ok hrun hsize hroom
    have hcourse : Course c.codec [] (before ++ [last]) c₁.codec rest := hran.course
    obtain rfl := hcourse.eq_nil_of_nil
    have hhanded := hran.handed
    have hundone : ∀ t ∈ before, t.room ≤ t.made.length ∨ t.left ≠ 0 := by
      intro t ht
      rcases hran.undone t ht with hfilled | ⟨-, hleft⟩
      · exact .inl hfilled
      · exact .inr (by simpa using hleft)
    obtain ⟨-, -, hdone⟩ := hran.done
    have hlast : last.left = 0 := by simpa using hdone
    unfold takePartial at h
    by_cases hpos : c₁.chunk.pos = 0
    · rw [if_pos hpos] at h
      obtain ⟨rfl, rfl⟩ := h
      have hwritten : c₁.chunk.written.toList = [] := by
        rw [← List.length_eq_zero_iff]
        exact hpos
      refine ⟨before, last, hcourse, hran.turn, hundone, hlast, ?_, hwritten, hran.room, hran.size,
        hran.finished⟩
      simpa [hwritten] using hhanded
    · rw [if_neg hpos] at h
      obtain ⟨rfl, rfl⟩ := h
      refine ⟨before, last, hcourse, hran.turn, hundone, hlast, ?_, rfl, hran.size ▸ hsize,
        hran.size, hran.finished⟩
      simpa using hhanded

/-- The first turn that ends the frame, if any does. -/
theorem exists_first_end {turns : List Turn} {t : Turn} (ht : t ∈ turns) (hend : t.EndsFrame) :
    ∃ before first after, turns = before ++ first :: after ∧ first.EndsFrame ∧
      ∀ u ∈ before, ¬ u.EndsFrame := by
  induction turns with
  | nil => exact absurd ht List.not_mem_nil
  | cons u turns ih =>
    by_cases hu : u.EndsFrame
    · exact ⟨[], u, turns, rfl, hu, by simp⟩
    · rcases List.mem_cons.1 ht with rfl | ht
      · exact absurd hend hu
      · obtain ⟨before, first, after, rfl, hfirst, hbefore⟩ := ih ht
        refine ⟨u :: before, first, after, rfl, hfirst, fun v hv => ?_⟩
        rcases List.mem_cons.1 hv with rfl | hv
        · exact hu
        · exact hbefore v hv

/-! ## In the middle of a frame -/

/-- Do one of the operations. -/
def push (limit : Nat) (c : Chunker σ) :
    WriterOp → Except Failure (List (List UInt8)) × Chunker σ
  | .write bytes => c.compress limit bytes
  | .flush .block => c.flush limit
  | .flush .frame => c.finish limit

/-- A chunker that has been given `x` and has handed out `handed`. -/
structure Underway (codec : σ) (x handed : List UInt8) (c : Chunker σ) : Prop where
  unfinished : c.finished = false
  size : 0 < c.size
  room : 0 < c.chunk.spare
  making : ∃ turns, Making codec x turns c.codec [] ∧
    handed ++ c.chunk.written.toList = madeBy turns

variable {codec : σ} {x handed : List UInt8} {c c' : Chunker σ} {limit : Nat}
  {out : List (List UInt8)}

theorem underway_new {size : Option Nat} {n : Nat} (h : new codec size n = .ok c) :
    Underway codec [] [] c := by
  unfold new at h
  by_cases hn : n = 0
  · rw [if_pos hn] at h
    cases h
  · rw [if_neg hn] at h
    rcases hpledge : Codec.pledge codec size with ⟨failure | ⟨⟩, s⟩
    · simp [hpledge] at h
    · simp only [hpledge, Except.ok.injEq] at h
      subst h
      exact ⟨rfl, Nat.pos_of_ne_zero hn, Nat.pos_of_ne_zero hn, [], .start hpledge [], rfl⟩

namespace Underway

/-- Bytes are taken, and whatever is left of them in the chunk waits there. -/
theorem compress (h : Underway codec x handed c) {bytes : List UInt8}
    (hpush : c.compress limit bytes = (.ok out, c')) :
    Underway codec (x ++ bytes) (handed ++ out.flatten) c' := by
  simp only [Chunker.compress, requireOpen, h.unfinished] at hpush
  by_cases hnil : bytes = []
  · simp only [hnil, if_pos] at hpush
    cases hpush
    simpa [hnil] using h
  · rcases hrun : c.run .proceed (fun _ input => input.isConsumed) limit (.ofList bytes) #[] with
      ⟨failure | chunks, c₁⟩
    · simp [hnil, hrun, Except.map] at hpush
    · simp only [hnil, if_false, hrun, Except.map, Prod.mk.injEq, Except.ok.injEq,
        Bool.false_eq_true] at hpush
      obtain ⟨rfl, rfl⟩ := hpush
      obtain ⟨rest, before, last, hran⟩ := run_ok hrun h.size h.room
      obtain ⟨input, rfl, hdone⟩ := hran.done
      rw [Input.isConsumed_iff] at hdone
      have hcourse := hran.course
      rw [hdone, Input.unread_ofList] at hcourse
      obtain ⟨turns, hmaking, hmade⟩ := h.making
      have hturns : ∀ t ∈ before ++ [last], ¬ t.EndsFrame := by
        intro t ht hend
        have hdirective := (hran.turn t ht).1.symm.trans hend.1
        cases hdirective
      refine ⟨hran.finished.trans h.unfinished, hran.size ▸ h.size, hran.room, _,
        (hmaking.feed bytes).course hcourse hturns, ?_⟩
      rw [madeBy_append, ← hmade, List.append_assoc, hran.handed]
      simp

/-- A flush keeps the frame open. -/
theorem flush (h : Underway codec x handed c) (hpush : c.flush limit = (.ok out, c')) :
    Underway codec x (handed ++ out.flatten) c' := by
  simp only [Chunker.flush, requireOpen, h.unfinished, Bool.false_eq_true, if_false] at hpush
  obtain ⟨before, last, hempty⟩ := empty_ok hpush h.size h.room
  obtain ⟨turns, hmaking, hmade⟩ := h.making
  have hturns : ∀ t ∈ before ++ [last], ¬ t.EndsFrame := by
    intro t ht hend
    have hdirective := (hempty.turn t ht).1.symm.trans hend.1
    cases hdirective
  refine ⟨hempty.finished.trans h.unfinished, hempty.size ▸ h.size, hempty.room, _,
    hmaking.course hempty.course hturns, ?_⟩
  rw [madeBy_append, ← hmade, hempty.handed, hempty.written]
  simp

/-- An operation other than the end of the frame. -/
theorem push (h : Underway codec x handed c) {op : WriterOp} (hne : op ≠ .flush .frame)
    (hpush : c.push limit op = (.ok out, c')) :
    Underway codec (x ++ op.input) (handed ++ out.flatten) c' := by
  cases op with
  | write bytes => exact h.compress hpush
  | flush mode =>
    cases mode with
    | block =>
      rw [WriterOp.input, List.append_nil]
      exact h.flush hpush
    | frame => exact absurd rfl hne

variable {decode : List UInt8 → Option (List UInt8)}

/-- The end of the frame. If the chunk is full just then, the step that follows makes nothing. -/
theorem finish (hC : Conforming decode codec) (h : Underway codec x handed c)
    (hpush : c.finish limit = (.ok out, c')) :
    decode (handed ++ out.flatten) = some x ∧ c'.finished = true := by
  simp only [Chunker.finish, requireOpen, h.unfinished, Bool.false_eq_true, if_false] at hpush
  rcases hstep : c.empty limit .finish with ⟨failure | chunks, c₁⟩
  · simp [hstep] at hpush
  simp only [hstep, Prod.mk.injEq, Except.ok.injEq] at hpush
  obtain ⟨rfl, rfl⟩ := hpush
  obtain ⟨before, last, hempty⟩ := empty_ok hstep h.size h.room
  obtain ⟨turns, hmaking, hmade⟩ := h.making
  refine ⟨?_, rfl⟩
  have hcourse := hempty.course
  have hdirective : ∀ t ∈ before ++ [last], t.directive = .finish := fun t ht => (hempty.turn t ht).1
  have hlast : last.EndsFrame := ⟨hdirective last (by simp), hempty.done⟩
  rw [hempty.handed, ← List.append_assoc, hmade]
  -- the run may have gone on after the turn that ended the frame, since its chunk was full
  by_cases hends : ∃ t ∈ before, t.EndsFrame
  · obtain ⟨t, ht, hend⟩ := hends
    obtain ⟨earlier, first, after, rfl, hfirst, hearlier⟩ := exists_first_end ht hend
    cases after with
    | nil =>
      rw [List.append_assoc] at hcourse
      obtain ⟨hnothing, -⟩ := hC.ended hmaking hcourse hearlier hfirst hlast.1
      have hwhole : Course c.codec [] ((earlier ++ [first]) ++ [last]) c₁.codec [] := by
        simpa using hcourse
      obtain ⟨s₁, y, hframe, -⟩ := hwhole.append_inv
      obtain rfl := hframe.eq_nil_of_nil
      rw [madeBy_append _ [last], madeBy_cons, hnothing]
      simpa using hC.ends hmaking hframe hearlier hfirst
    | cons next after =>
      -- the chunk is empty again in front of the next turn, and it is not filled by nothing
      rw [List.append_assoc, List.cons_append, List.cons_append] at hcourse
      obtain ⟨hnothing, hzero⟩ := hC.ended hmaking hcourse hearlier hfirst
        (hdirective next (by simp))
      have hroom := (hempty.turn next (by simp)).2
      rcases hempty.undone next (by simp) with hfilled | hleft
      · rw [hnothing] at hfilled
        exact absurd hroom (Nat.not_lt.2 hfilled)
      · exact absurd hzero hleft
  · have hbefore : ∀ t ∈ before, ¬ t.EndsFrame := fun t ht hend => hends ⟨t, ht, hend⟩
    exact hC.ends hmaking hcourse hbefore hlast

end Underway

/-- After the end of the frame nothing more is taken. -/
theorem push_ne_ok_of_finished (h : c.finished = true) (op : WriterOp)
    (out : List (List UInt8)) (c' : Chunker σ) : c.push limit op ≠ (.ok out, c') := by
  rcases op with bytes | _ | _ <;>
    simp [push, compress, flush, finish, requireOpen, h]

/-- Operations that end with the end of the frame: no earlier one does, and all of the chunks
together decode to what has been pushed. -/
theorem Underway.pushEach {decode : List UInt8 → Option (List UInt8)}
    (hC : Conforming decode codec) (h : Underway codec x handed c) {ops : List WriterOp}
    {answers : List (List (List UInt8))}
    (hpush : Sluice.pushEach (Chunker.push limit) c (ops ++ [.flush .frame]) = (.ok answers, c')) :
    decode (handed ++ answers.flatten.flatten) = some (x ++ pushedBy ops) := by
  induction ops generalizing c x handed answers with
  | nil =>
    obtain ⟨out, later, c₁, hfinish, hlater, rfl⟩ := pushEach_cons_ok hpush
    cases hlater
    obtain ⟨hdecodes, -⟩ := h.finish hC hfinish
    simpa using hdecodes
  | cons op ops ih =>
    rw [List.cons_append] at hpush
    obtain ⟨out, later, c₁, hop, hlater, rfl⟩ := pushEach_cons_ok hpush
    by_cases hend : op = .flush .frame
    · subst hend
      obtain ⟨-, hfinished⟩ := h.finish hC hop
      exact absurd hlater (pushEach_ne_ok (push_ne_ok_of_finished hfinished))
    · have hdecodes := ih (h.push hend hop) hlater
      simpa using hdecodes

end Chunker

end Sluice
