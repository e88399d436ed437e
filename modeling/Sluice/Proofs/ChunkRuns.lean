import Sluice.Proofs.Chunking
import Sluice.Proofs.PieceLengths
import Sluice.Toy.Hold

/-!
# What a chunker hands out

A chunk is shared between calls: a call goes on where the last one has stopped. What matters is
that a full chunk is handed out whole and once, and that an open one is handed out only when the
codec has given everything.

* `Chunker.Tidy` — a chunker between two calls.
* `Chunker.Call`, `Chunker.call_of_push` — what one call has done that has succeeded.
* `Chunker.Calls` — calls one after the other; `Chunker.Calls.course` and `Chunker.Calls.handed` say
  what they come to.
* `Chunker.hands_out` — all of it, for a new chunker.
-/

namespace Sluice

/-- The name of the operation that a chunker that has ended its frame refuses. -/
def WriterOp.called : WriterOp → String
  | write _ => "compress"
  | flush .block => "flush"
  | flush .frame => "finish"

namespace Chunker

variable {σ : Type} [Codec σ] {c c' : Chunker σ} {size limit : Nat}

/-! ## Full chunks -/

/-- Between two calls the chunk has the right size, and it is not full. -/
structure Tidy (size : Nat) (c : Chunker σ) : Prop where
  sized : c.size = size
  capacity : c.chunk.capacity = size
  pos_lt : c.chunk.pos < size

namespace Tidy

omit [Codec σ]

theorem size_pos (h : Tidy size c) : 0 < c.size := by
  have := h.pos_lt
  rw [h.sized]
  omega

theorem room (h : Tidy size c) : 0 < c.chunk.spare := by
  have hcapacity := h.capacity
  have hpos := h.pos_lt
  rw [Window.capacity] at hcapacity
  omega

theorem of_room (hsize : c.size = size) (hcapacity : c.chunk.capacity = size)
    (hroom : 0 < c.chunk.spare) : Tidy size c := by
  refine ⟨hsize, hcapacity, ?_⟩
  rw [Window.capacity] at hcapacity
  omega

end Tidy

/-- What a full window holds is as long as the window. -/
theorem length_written_of_isFull {w : Window} (h : w.isFull = true) :
    w.written.toList.length = w.capacity := by
  simp only [Window.isFull, beq_iff_eq] at h
  rw [Window.capacity, h]
  rfl

/-- The chunks of a run are full, and the one that it leaves open has the same size. -/
theorem run_full {directive : Directive} {done : Nat → Input → Bool} {input : Input}
    {chunks chunks' : Array (List UInt8)}
    (h : run directive done limit c input chunks = (.ok chunks', c'))
    (hcapacity : c.chunk.capacity = c.size) (hchunks : ∀ chunk ∈ chunks, chunk.length = c.size) :
    (∀ chunk ∈ chunks', chunk.length = c.size) ∧ c'.chunk.capacity = c.size ∧ c'.size = c.size := by
  fun_induction run directive done limit c input chunks
  case case1 => cases h
  case case2 => cases h
  case case3 limit c input chunks driven left hres hfull ih =>
    refine ih h (Nat.zero_add c.size) fun chunk hmem => ?_
    rcases Array.mem_push.1 hmem with hmem | rfl
    · exact hchunks chunk hmem
    · rw [length_written_of_isFull hfull]
      exact (Window.capacity_put ..).trans hcapacity
  case case4 limit c input chunks driven left hres hfull c₁ hdone =>
    simp only [Prod.mk.injEq, Except.ok.injEq] at h
    obtain ⟨rfl, rfl⟩ := h
    exact ⟨hchunks, (Window.capacity_put ..).trans hcapacity, rfl⟩
  case case5 limit c input chunks driven left hres hfull c₁ hdone ih =>
    exact ih h ((Window.capacity_put ..).trans hcapacity) hchunks

omit [Codec σ] in
/-- What is handed out at the end of a call is full, but for the last chunk. -/
theorem takePartial_cut {chunks : Array (List UInt8)} {out : List (List UInt8)}
    (h : c.takePartial chunks = (out, c')) (hsize : 0 < c.size)
    (hcapacity : c.chunk.capacity = c.size) (hchunks : ∀ chunk ∈ chunks, chunk.length = c.size) :
    Cut c.size (chunks.toList.flatten ++ c.chunk.written.toList) out ∧
      c'.chunk.capacity = c.size := by
  have hfull : ∀ chunk ∈ chunks.toList, chunk.length = c.size := fun chunk hmem =>
    hchunks chunk (Array.mem_toList_iff.1 hmem)
  have hnonempty : ∀ chunk ∈ chunks.toList, chunk ≠ [] := fun chunk hmem =>
    List.ne_nil_of_length_pos (hfull chunk hmem ▸ hsize)
  have hle : ∀ chunk ∈ chunks.toList, chunk.length ≤ c.size := fun chunk hmem =>
    Nat.le_of_eq (hfull chunk hmem)
  have hlength : c.chunk.written.toList.length = c.chunk.pos := rfl
  unfold takePartial at h
  by_cases hpos : c.chunk.pos = 0
  · rw [if_pos hpos] at h
    cases h
    rw [List.length_eq_zero_iff.1 (hlength.trans hpos), List.append_nil]
    exact ⟨⟨rfl, fun chunk hmem => hfull chunk (List.dropLast_subset _ hmem), hnonempty, hle⟩,
      hcapacity⟩
  · rw [if_neg hpos] at h
    cases h
    rw [Array.toList_push]
    refine ⟨⟨by simp, ?_, ?_, ?_⟩, Nat.zero_add c.size⟩
    · rwa [List.dropLast_concat]
    · intro chunk hmem
      rcases List.mem_append.1 hmem with hmem | hmem
      · exact hnonempty chunk hmem
      · obtain rfl := List.mem_singleton.1 hmem
        exact List.ne_nil_of_length_pos (hlength ▸ Nat.pos_of_ne_zero hpos)
    · intro chunk hmem
      rcases List.mem_append.1 hmem with hmem | hmem
      · exact hle chunk hmem
      · obtain rfl := List.mem_singleton.1 hmem
        rw [hlength, ← hcapacity]
        exact Nat.le_add_right ..

/-! ## Calls -/

/-- What a call has done that has succeeded.

The codec has taken all of the input of the call and nothing else, and what it has made is behind
what was in the chunk already. A chunk that is not full leaves the chunker only at the end of a
flush or of the frame, and that is not before the codec has said that it is complete. -/
inductive Call (size : Nat) (c : Chunker σ) :
    WriterOp → List (List UInt8) → List Turn → Chunker σ → Prop where
  | compressed {bytes : List UInt8} {out : List (List UInt8)} {turns : List Turn} {c' : Chunker σ}
      (opened : c.finished = false)
      (course : Course c.codec bytes turns c'.codec [])
      (directive : ∀ t ∈ turns, t.directive = .proceed)
      (handed : out.flatten ++ c'.chunk.written.toList = c.chunk.written.toList ++ madeBy turns)
      (full : ∀ chunk ∈ out, chunk.length = size)
      (tidy : Tidy size c')
      (finished : c'.finished = false) : Call size c (.write bytes) out turns c'
  | emptied {mode : FlushMode} {out : List (List UInt8)} {before : List Turn} {last : Turn}
      {c' : Chunker σ}
      (opened : c.finished = false)
      (course : Course c.codec [] (before ++ [last]) c'.codec [])
      (directive : ∀ t ∈ before ++ [last], t.directive = mode.directive)
      (complete : last.left = 0)
      (cut : Cut size (c.chunk.written.toList ++ madeBy (before ++ [last])) out)
      (empty : c'.chunk.pos = 0)
      (tidy : Tidy size c')
      (finished : c'.finished = decide (mode = .frame)) :
      Call size c (.flush mode) out (before ++ [last]) c'

namespace Call

variable {op : WriterOp} {out : List (List UInt8)} {turns : List Turn}

theorem opened (h : Call size c op out turns c') : c.finished = false := by
  cases h with
  | compressed opened => exact opened
  | emptied opened => exact opened

theorem course (h : Call size c op out turns c') : Course c.codec op.input turns c'.codec [] := by
  cases h with
  | compressed _ course => exact course
  | emptied _ course => exact course

theorem handed (h : Call size c op out turns c') :
    out.flatten ++ c'.chunk.written.toList = c.chunk.written.toList ++ madeBy turns := by
  cases h with
  | compressed _ _ _ handed => exact handed
  | emptied _ _ _ _ cut empty =>
    have hwritten : c'.chunk.written.toList = [] := List.length_eq_zero_iff.1 empty
    rw [hwritten, List.append_nil]
    exact cut.flatten

theorem tidy (h : Call size c op out turns c') : Tidy size c' := by
  cases h with
  | compressed _ _ _ _ _ tidy => exact tidy
  | emptied _ _ _ _ _ _ tidy => exact tidy

/-- The end of the frame ends it. -/
theorem finished (h : Call size c (.flush .frame) out turns c') : c'.finished = true := by
  cases h with
  | emptied _ _ _ _ _ _ _ finished => exact finished

end Call

/-- Steps without input, for a flush or the end of the frame. -/
theorem call_of_empty (mode : FlushMode) {out : List (List UInt8)} (h : Tidy size c)
    (hopen : c.finished = false) (hempty : c.empty limit mode.directive = (.ok out, c')) :
    ∃ turns, Call size c (.flush mode) out turns { c' with finished := decide (mode = .frame) } := by
  obtain ⟨before, last, hemptied⟩ := empty_ok hempty h.size_pos h.room
  unfold empty at hempty
  rcases hrun : c.run mode.directive (fun left _ => left == 0) limit .empty #[] with
    ⟨failure | chunks, c₁⟩
  · simp [hrun] at hempty
  simp only [hrun, Prod.mk.injEq, Except.ok.injEq] at hempty
  obtain ⟨hfull, hcapacity, hsize⟩ := run_full hrun (h.capacity.trans h.sized.symm) (by simp)
  rw [← hsize] at hfull hcapacity
  obtain ⟨hcut, hcapacity'⟩ := takePartial_cut (Prod.ext hempty.1 hempty.2) (hsize ▸ h.size_pos)
    hcapacity hfull
  rw [← hcut.flatten, hemptied.handed, hsize, h.sized] at hcut
  refine ⟨_, .emptied hopen hemptied.course (fun t ht => (hemptied.turn t ht).1) hemptied.done hcut
    (List.length_eq_zero_iff.2 hemptied.written) (.of_room (hemptied.size.trans h.sized) ?_
    hemptied.room) rfl⟩
  exact hcapacity'.trans (hsize.trans h.sized)

/-- Every call that succeeds finds the frame open. -/
theorem call_of_push {op : WriterOp} {out : List (List UInt8)} (h : Tidy size c)
    (hpush : c.push limit op = (.ok out, c')) : ∃ turns, Call size c op out turns c' := by
  have hopen : c.finished = false := by
    cases hfinished : c.finished with
    | false => rfl
    | true => exact absurd hpush (push_ne_ok_of_finished hfinished op out c')
  rcases op with bytes | _ | _
  · simp only [push, compress, requireOpen, hopen, Bool.false_eq_true, if_false] at hpush
    by_cases hnil : bytes = []
    · subst hnil
      rw [if_pos rfl] at hpush
      cases hpush
      exact ⟨[], .compressed hopen .nil (by simp) (by simp) (by simp) h hopen⟩
    · rw [if_neg hnil] at hpush
      rcases hrun : c.run .proceed (fun _ input => input.isConsumed) limit (.ofList bytes) #[] with
        ⟨failure | chunks, c₁⟩
      · simp [hrun, Except.map] at hpush
      simp only [hrun, Except.map, Prod.mk.injEq, Except.ok.injEq] at hpush
      obtain ⟨rfl, rfl⟩ := hpush
      obtain ⟨rest, before, last, hran⟩ := run_ok hrun h.size_pos h.room
      obtain ⟨hfull, hcapacity, hsize⟩ := run_full hrun (h.capacity.trans h.sized.symm) (by simp)
      obtain ⟨input, rfl, hdone⟩ := hran.done
      have hcourse := hran.course
      rw [Input.isConsumed_iff.1 hdone, Input.unread_ofList] at hcourse
      refine ⟨_, .compressed hopen hcourse (fun t ht => (hran.turn t ht).1) hran.handed ?_
        (.of_room (hsize.trans h.sized) (hcapacity.trans h.sized) hran.room)
        (hran.finished.trans hopen)⟩
      intro chunk hmem
      rw [← h.sized]
      exact hfull chunk (Array.mem_toList_iff.1 hmem)
  · simp only [push, flush, requireOpen, hopen, Bool.false_eq_true, if_false] at hpush
    have hfinished : c'.finished = false := by
      obtain ⟨before, last, hemptied⟩ := empty_ok hpush h.size_pos h.room
      exact hemptied.finished.trans hopen
    obtain ⟨turns, hcall⟩ := call_of_empty .block h hopen hpush
    have hsame : { c' with finished := decide (FlushMode.block = .frame) } = c' := by
      cases c'
      cases hfinished
      rfl
    exact ⟨turns, hsame ▸ hcall⟩
  · simp only [push, finish, requireOpen, hopen, Bool.false_eq_true, if_false] at hpush
    rcases hempty : c.empty limit .finish with ⟨failure | chunks, c₁⟩
    · simp [hempty] at hpush
    simp only [hempty, Prod.mk.injEq, Except.ok.injEq] at hpush
    obtain ⟨rfl, rfl⟩ := hpush
    exact call_of_empty .frame h hopen hempty

/-! ## Calls one after the other -/

/-- Calls that all succeed, and what they have handed out, call by call. -/
inductive Calls (size : Nat) : Chunker σ → List WriterOp → List (List (List UInt8)) → List Turn →
    Chunker σ → Prop where
  | nil {c : Chunker σ} : Calls size c [] [] [] c
  | cons {c c₁ c' : Chunker σ} {op : WriterOp} {ops : List WriterOp} {out : List (List UInt8)}
      {answers : List (List (List UInt8))} {turns later : List Turn}
      (first : Call size c op out turns c₁) (others : Calls size c₁ ops answers later c') :
      Calls size c (op :: ops) (out :: answers) (turns ++ later) c'

theorem calls_of_pushEach {ops : List WriterOp} {answers : List (List (List UInt8))}
    (h : Tidy size c) (hpush : pushEach (Chunker.push limit) c ops = (.ok answers, c')) :
    ∃ turns, Calls size c ops answers turns c' := by
  induction ops generalizing c answers with
  | nil =>
    cases hpush
    exact ⟨[], .nil⟩
  | cons op ops ih =>
    obtain ⟨out, later, c₁, hop, hlater, rfl⟩ := pushEach_cons_ok hpush
    obtain ⟨turns, hcall⟩ := call_of_push h hop
    obtain ⟨others, hcalls⟩ := ih hcall.tidy hlater
    exact ⟨_, .cons hcall hcalls⟩

namespace Calls

variable {ops : List WriterOp} {answers : List (List (List UInt8))} {turns : List Turn}

theorem tidy (h : Calls size c ops answers turns c') (htidy : Tidy size c) : Tidy size c' := by
  induction h with
  | nil => exact htidy
  | cons first _ ih => exact ih first.tidy

/-- The codec has taken what has been given to the chunker. -/
theorem course (h : Calls size c ops answers turns c') :
    Course c.codec (pushedBy ops) turns c'.codec [] := by
  induction h with
  | nil => exact .nil
  | cons first _ ih => exact (first.course.weaken _).append ih

/-- What the codec has made is handed out in order, or it is in the open chunk. -/
theorem handed (h : Calls size c ops answers turns c') :
    answers.flatten.flatten ++ c'.chunk.written.toList =
      c.chunk.written.toList ++ madeBy turns := by
  induction h with
  | nil => simp
  | @cons c c₁ c' op ops out answers turns later first _ ih =>
    calc (out :: answers).flatten.flatten ++ c'.chunk.written.toList
        = out.flatten ++ (answers.flatten.flatten ++ c'.chunk.written.toList) := by simp
      _ = out.flatten ++ c₁.chunk.written.toList ++ madeBy later := by rw [ih, List.append_assoc]
      _ = c.chunk.written.toList ++ madeBy (turns ++ later) := by
        rw [first.handed, madeBy_append, List.append_assoc]

/-- The end of the frame is the last of the calls. -/
theorem finished (h : Calls size c ops answers turns c') (hend : WriterOp.flush .frame ∈ ops) :
    c'.finished = true := by
  induction h with
  | nil => cases hend
  | @cons c c₁ c' op ops out answers turns later first others ih =>
    rcases List.mem_cons.1 hend with rfl | hend
    · cases others with
      | nil => exact first.finished
      | cons next => exact Bool.noConfusion (first.finished.symm.trans next.opened)
    · exact ih hend

end Calls

/-! ## From the beginning -/

/-- A new chunker has an empty chunk of the right size. -/
theorem tidy_of_new {codec : σ} {sourceSize : Option Nat}
    (h : new codec sourceSize size = .ok c) : Tidy size c ∧ c.chunk.written.toList = [] := by
  unfold new at h
  by_cases hsize : size = 0
  · rw [if_pos hsize] at h
    cases h
  · rw [if_neg hsize] at h
    rcases hpledge : Codec.pledge codec sourceSize with ⟨failure | ⟨⟩, s⟩
    · simp [hpledge] at h
    · simp only [hpledge, Except.ok.injEq] at h
      subst h
      exact ⟨⟨rfl, Nat.zero_add size, Nat.pos_of_ne_zero hsize⟩, rfl⟩

/-- Once the frame has ended every call is refused, and nothing changes. -/
theorem push_of_finished (h : c.finished = true) (op : WriterOp) :
    c.push limit op = (.error (.misuse (.compressionFinished op.called)), c) := by
  rcases op with bytes | _ | _ <;>
    simp [push, compress, flush, finish, requireOpen, h, WriterOp.called]

/-- What a new chunker hands out in calls that succeed. Between any two of them the chunk is not
full, and after a flush it is empty. All that the codec has made is handed out, or it is in the
chunk; and it has taken just what it has been given. After the end of the frame every call fails,
and leaves the chunker alone. -/
theorem hands_out {codec : σ} {sourceSize : Option Nat} {ops : List WriterOp}
    {answers : List (List (List UInt8))} (hnew : new codec sourceSize size = .ok c)
    (hpush : pushEach (Chunker.push limit) c ops = (.ok answers, c')) :
    ∃ turns, Calls size c ops answers turns c' ∧
      takenBy turns = pushedBy ops ∧
      answers.flatten.flatten ++ c'.chunk.written.toList = madeBy turns ∧
      c'.chunk.pos < size ∧
      (WriterOp.flush .frame ∈ ops → ∀ limit op,
        c'.push limit op = (.error (.misuse (.compressionFinished op.called)), c')) := by
  obtain ⟨htidy, hwritten⟩ := tidy_of_new hnew
  obtain ⟨turns, hcalls⟩ := calls_of_pushEach htidy hpush
  have htaken := hcalls.course.takenBy_append_eq
  have hhanded := hcalls.handed
  rw [List.append_nil] at htaken
  rw [hwritten, List.nil_append] at hhanded
  exact ⟨turns, hcalls, htaken, hhanded, (hcalls.tidy htidy).pos_lt,
    fun hend limit op => push_of_finished (hcalls.finished hend) op⟩

/-- A codec that holds one byte back, and chunks of two bytes. The first bytes end on the border of
a chunk, the flush hands out a byte alone, and the frame is refused whatever comes after its end. -/
theorem hands_out_hold :
    ∃ c c', new (Toy.Hold.new 1 [72] [84] none) none 2 = .ok c ∧
      pushEach (Chunker.push 4) c
        [.write [1, 2, 3], .write [4], .flush .block, .write [], .flush .frame] =
          (.ok [[[72, 1], [2, 3]], [], [[4]], [], [[84]]], c') ∧
      ∃ turns, madeBy turns = [72, 1, 2, 3, 4, 84] ∧ takenBy turns = [1, 2, 3, 4] ∧
        c'.push 4 (.write [5]) = (.error (.misuse (.compressionFinished "compress")), c') := by
  have hnew : new (Toy.Hold.new 1 [72] [84] none) none 2 =
      .ok ⟨.new 1 [72] [84] none, 2, .fresh 2, false⟩ := rfl
  rcases hpush : pushEach (Chunker.push 4) ⟨Toy.Hold.new 1 [72] [84] none, 2, .fresh 2, false⟩
    [.write [1, 2, 3], .write [4], .flush .block, .write [], .flush .frame] with ⟨answers, c'⟩
  have hanswers : answers = .ok [[[72, 1], [2, 3]], [], [[4]], [], [[84]]] :=
    (congrArg Prod.fst hpush).symm
  subst hanswers
  obtain ⟨turns, hcalls, htaken, hhanded, -, hrefuses⟩ := hands_out hnew hpush
  have hempty : c'.chunk.written.toList = [] :=
    (congrArg (fun run => run.2.chunk.written.toList) hpush).symm
  rw [hempty] at hhanded
  exact ⟨_, c', hnew, hpush, turns, hhanded.symm, htaken, hrefuses (by decide) 4 (.write [5])⟩

end Chunker

end Sluice
