import Sluice.Decompression
import Sluice.Proofs.Gathering
import Sluice.Proofs.PatientDecoders

/-!
# Opening frames

A frame can be decoded at once, or in pieces that end anywhere. Both ways give its content, and both
stop right behind it.

* `BlockList.Growing` — blocks without a limit, all of them full but the last.
* `Gathering.run_opening`, `Gathering.decode_opening` — the loops of the two ways, inside a frame.
* `FrameOpener.KeepsBytes` — whatever the codec, no byte is lost and none is taken twice.
* `FrameOpener.Opens`, `FrameOpener.opens` — what the two ways make of a frame.
* `Unpacking.cutFrames_tiles` — the frames that bytes are cut into are their front.
-/

namespace Sluice

/-! ## Growing blocks -/

namespace BlockList

/-- Blocks without a limit, all of them full but the active one. -/
structure Growing (b : BlockList) : Prop where
  limit : b.limit = none
  allocated : b.allocated = b.join.size + b.active.spare

theorem growing_start : (start none).Growing := ⟨rfl, rfl⟩

theorem Growing.put {b : BlockList} (h : b.Growing) (bytes : List UInt8) :
    Growing { b with active := b.active.put bytes } :=
  ⟨h.limit, Packed.put h.allocated bytes⟩

/-- Full blocks get another one, as long as there is memory. -/
theorem Growing.grow_ok {b : BlockList} (h : b.Growing) (hfull : b.isFull = true)
    (hmemory : b.join.size + largestBlock ≤ allocationLimit) :
    ∃ b', b.grow = .ok b' ∧ b'.Growing ∧ 0 < b'.active.spare ∧ b'.join = b.join := by
  have hnext : 0 < b.nextSize := by
    simpa [nextSize, h.limit] using blockSize_pos b.blocks.size
  have hpacked : b.Packed := h.allocated
  obtain ⟨b', hgrow, hpacked', hspare, hjoin, hlimit⟩ := hpacked.grow_ok hfull hnext hmemory
  exact ⟨b', hgrow, ⟨hlimit.trans h.limit, hpacked'⟩, hspare, hjoin⟩

end BlockList

variable {σ δ : Type} [Codec σ] [ByteDecoder δ] {like : σ → Queued δ → Bool → Prop}

/-! ## The loops -/

namespace Gathering

variable {c : Gathering σ} {later missing rest : List UInt8} {d' : δ} {partRead : Bool}

/-- What a step inside a frame has done: it has collected the front of what is missing, and has
ended the frame or is inside it again. A full block can be followed by another one. -/
structure SteppedInside (like : σ → Queued δ → Bool → Prop) (c c₁ : Gathering σ) (left : Nat)
    (later missing : List UInt8) (d' : δ) (rest made missing' : List UInt8) : Prop where
  join : c₁.blocks.join.toList = c.blocks.join.toList ++ made
  content : missing = made ++ missing'
  ended : left = 0 → missing' = [] ∧ c₁.input.unread ++ later = rest
  inside : left ≠ 0 → Opening like c₁.codec (c₁.input.unread ++ later) missing' d' rest true
  stops : left ≠ 0 → c₁.blocks.isFull = false → c₁.input.unread = [] ∧ rest.length < later.length
  unbounded : c₁.blocks.atLimit = false
  grows : c₁.blocks.isFull = true → ∃ b, c₁.blocks.grow = .ok b ∧ b.Growing ∧
    0 < b.active.spare ∧ b.join = c₁.blocks.join ∧
    b.join.size + missing'.length + largestBlock ≤ allocationLimit ∧
    missing'.length < missing.length

theorem step_opening (hP : PatientDecoding like) {directive : Directive}
    (hopening : Opening like c.codec (c.input.unread ++ later) missing d' rest partRead)
    (hasked : Askable directive c.input.unread later partRead) (hblocks : c.blocks.Growing)
    (hroom : 0 < c.blocks.active.spare)
    (hmemory : c.blocks.join.size + missing.length + largestBlock ≤ allocationLimit) :
    ∃ left c₁ made missing', c.step directive = (.ok left, c₁) ∧
      SteppedInside like c c₁ left later missing d' rest made missing' := by
  obtain ⟨left, missing', hleft, hopened⟩ := hopening.step hP hasked hroom
  have hcontent : missing = (c.turn directive left).made ++ missing' := hopened.content
  have hjoin := join_step c directive left
  have hblocks₁ : (c.step directive).2.blocks.Growing := hblocks.put _
  have hfull : (c.step directive).2.blocks.isFull =
      decide (c.blocks.active.spare ≤ (c.turn directive left).made.length) :=
    drive_isFull c.codec c.input c.blocks.active directive left
  refine ⟨left, (c.step directive).2, _, missing', Prod.ext hleft rfl, hjoin, hcontent,
    hopened.ended, hopened.inside, ?_, ?_, ?_⟩
  · intro hne hnot
    rw [hfull, decide_eq_false_iff_not] at hnot
    exact (hopened.stops hne).resolve_left hnot
  · simp [BlockList.atLimit, hblocks₁.limit]
  · intro hyes
    have hmade : c.blocks.active.spare ≤ (c.turn directive left).made.length := by
      rw [hfull] at hyes
      exact of_decide_eq_true hyes
    have hsize := congrArg List.length hjoin
    have hmissing := congrArg List.length hcontent
    simp only [List.length_append, Array.length_toList] at hsize hmissing
    obtain ⟨b, hgrow, hgrowing, hspare, hsame⟩ := hblocks₁.grow_ok hyes (by omega)
    exact ⟨b, hgrow, hgrowing, hspare, hsame, by rw [hsame]; omega, by omega⟩

/-- When a call on a frame that is opened in pieces is over: the frame has ended, or all input has
been taken and there was room for all output. -/
abbrev callDone (left : Nat) (input : Input) (full : Bool) : Bool :=
  left == 0 || input.isConsumed && !full

/-- A run inside a frame ends with the frame, or with the last of the input that it is given. -/
theorem run_opening (hP : PatientDecoding like) {limit : Nat}
    (hopening : Opening like c.codec (c.input.unread ++ later) missing d' rest partRead)
    (hactive : c.input.unread ≠ [] ∨ partRead = true) (hblocks : c.blocks.Growing)
    (hroom : 0 < c.blocks.active.spare)
    (hmemory : c.blocks.join.size + missing.length + largestBlock ≤ allocationLimit)
    (hlimit : missing.length < limit) :
    ∃ left c' made missing', run .proceed callDone limit c = (.ok left, c') ∧
      c'.blocks.join.toList = c.blocks.join.toList ++ made ∧ missing = made ++ missing' ∧
      (left = 0 → missing' = [] ∧ c'.input.unread ++ later = rest) ∧
      (left ≠ 0 → Opening like c'.codec later missing' d' rest true ∧
        rest.length < later.length) := by
  -- on the limit: a step that is not the last one fills its block, and less is missing then
  induction limit generalizing c missing partRead with
  | zero => exact absurd hlimit (Nat.not_lt_zero _)
  | succ limit ih =>
    obtain ⟨left, c₁, made, missing₁, hstep, hinside⟩ :=
      step_opening hP hopening (.inl ⟨rfl, hactive⟩) hblocks hroom hmemory
    by_cases hdone : callDone left c₁.input c₁.blocks.isFull = true
    · refine ⟨left, c₁, made, missing₁, ?_, hinside.join, hinside.content, hinside.ended, ?_⟩
      · rw [run, hstep]
        exact if_pos hdone
      · intro hleft
        have hnot : c₁.blocks.isFull = false := by
          simp only [callDone, Bool.or_eq_true, beq_iff_eq, hleft, false_or, Bool.and_eq_true,
            Bool.not_eq_true'] at hdone
          exact hdone.2
        obtain ⟨hunread, hlater⟩ := hinside.stops hleft hnot
        have hopening₁ := hinside.inside hleft
        rw [hunread, List.nil_append] at hopening₁
        exact ⟨hopening₁, hlater⟩
    · have hleft : left ≠ 0 := by
        rintro rfl
        exact hdone rfl
      have hfull : c₁.blocks.isFull = true := by
        by_contra hnot
        have hnot : c₁.blocks.isFull = false := by simpa using hnot
        obtain ⟨hunread, -⟩ := hinside.stops hleft hnot
        simp [callDone, Input.isConsumed, hunread, hnot] at hdone
      obtain ⟨b, hgrow, hblocks₁, hroom₁, hsame, hmemory₁, hless⟩ := hinside.grows hfull
      obtain ⟨left', c', made', missing', hrun, hjoin, hcontent, hzero, hmore⟩ :=
        ih (c := { c₁ with blocks := b }) (hinside.inside hleft) (.inr rfl) hblocks₁ hroom₁ hmemory₁
          (by omega)
      refine ⟨left', c', made ++ made', missing', ?_, ?_, ?_, hzero, hmore⟩
      · rw [run, hstep]
        dsimp only
        rw [if_neg hdone, if_pos hfull, hgrow]
        exact hrun
      · rw [hjoin, hsame, hinside.join, List.append_assoc]
      · rw [hinside.content, hcontent, List.append_assoc]

/-- Once all input is there, a run inside a frame gets to the end of it. -/
theorem decode_opening (hP : PatientDecoding like) {limit : Nat}
    (hopening : Opening like c.codec c.input.unread missing d' rest partRead)
    (hblocks : c.blocks.Growing) (hroom : 0 < c.blocks.active.spare)
    (hmemory : c.blocks.join.size + missing.length + largestBlock ≤ allocationLimit)
    (hlimit : missing.length < limit) :
    ∃ c', decode limit c = (.ok (), c') ∧
      c'.blocks.join.toList = c.blocks.join.toList ++ missing := by
  -- on the limit, as for a run
  induction limit generalizing c missing partRead with
  | zero => exact absurd hlimit (Nat.not_lt_zero _)
  | succ limit ih =>
    have hasked : Askable (decodingDirective c.input) c.input.unread [] partRead := by
      by_cases hne : c.input.unread = []
      · exact .inr ⟨by simp [decodingDirective, Input.isConsumed, hne], by simp [hne]⟩
      · exact .inl ⟨by simp [decodingDirective, Input.isConsumed, hne], .inl hne⟩
    rw [← List.append_nil c.input.unread] at hopening
    obtain ⟨left, c₁, made, missing₁, hstep, hinside⟩ :=
      step_opening hP hopening hasked hblocks hroom hmemory
    have hcontent := hinside.content
    cases left with
    | zero =>
      obtain ⟨rfl, -⟩ := hinside.ended rfl
      rw [List.append_nil] at hcontent
      exact ⟨c₁, by rw [decode, hstep], hcontent ▸ hinside.join⟩
    | succ left =>
      have hleft := Nat.succ_ne_zero left
      -- all input is there, so that only a full block stops a step inside the frame
      have hfull : c₁.blocks.isFull = true := by
        by_contra hnot
        exact Nat.not_lt_zero _ (hinside.stops hleft (by simpa using hnot)).2
      obtain ⟨b, hgrow, hblocks₁, hroom₁, hsame, hmemory₁, hless⟩ := hinside.grows hfull
      have hopening₁ := hinside.inside hleft
      rw [List.append_nil] at hopening₁
      obtain ⟨c', hdecode, hjoin⟩ :=
        ih (c := { c₁ with blocks := b }) hopening₁ hblocks₁ hroom₁ hmemory₁ (by omega)
      refine ⟨c', ?_, ?_⟩
      · rw [decode, hstep]
        simp only [hfull, Bool.not_true, hinside.unbounded, if_neg Bool.false_ne_true, hgrow]
        exact hdecode
      · rw [hjoin, hsame, hinside.join, hcontent, List.append_assoc]

end Gathering

/-! ## At once -/

/-- A frame is decoded at once to its content, whatever follows it. -/
theorem decompressFrame_opening (hP : PatientDecoding like) {codec : σ}
    {bytes content rest : List UInt8} {d' : δ} {partRead : Bool} {limit : Nat}
    (hopening : Opening like codec bytes content d' rest partRead)
    (hmemory : content.length + largestBlock ≤ allocationLimit) (hlimit : content.length < limit) :
    (decompressFrame limit codec bytes none).1 = .ok content := by
  have hroom : 0 < (Gathering.start codec bytes none).blocks.active.spare := blockSize_pos 0
  have hempty : (Gathering.start codec bytes none).blocks.join.size = 0 := rfl
  obtain ⟨c', hdecode, hjoin⟩ :=
    Gathering.decode_opening (c := .start codec bytes none) hP hopening BlockList.growing_start hroom
      (by omega) hlimit
  rw [decompressFrame, hdecode]
  exact congrArg Except.ok ((congrArg Array.toList (BlockList.finish_eq_join _)).trans hjoin)

/-! ## In pieces -/

namespace FrameOpener

/-- An opener inside a frame, with the input `x` before it. -/
structure Underway (like : σ → Queued δ → Bool → Prop) (o : FrameOpener σ)
    (x missing : List UInt8) (d' : δ) (rest : List UInt8) : Prop where
  finished : o.finished = false
  unused : o.unused = []
  opening : ∃ partRead, Opening like o.codec x missing d' rest partRead

variable {o o' : FrameOpener σ} {limit : Nat} {piece later missing rest : List UInt8} {d' : δ}

/-- A call on an opener inside a frame succeeds. The frame ends in it exactly if the piece holds the
last byte of the frame, and what is behind that byte is kept. -/
theorem decompress_underway (hP : PatientDecoding like)
    (h : Underway like o (piece ++ later) missing d' rest)
    (hrest : rest.length < (piece ++ later).length)
    (hmemory : missing.length + largestBlock ≤ allocationLimit) (hlimit : missing.length < limit) :
    ∃ made missing' o', o.decompress limit piece = (.ok made, o') ∧ missing = made ++ missing' ∧
      (rest.length < later.length → Underway like o' later missing' d' rest) ∧
      (later.length ≤ rest.length →
        o'.finished = true ∧ missing' = [] ∧ o'.unused ++ later = rest) := by
  obtain ⟨partRead, hopening⟩ := h.opening
  have hopen : ¬ o.finished = true := by simp [h.finished]
  by_cases hpiece : piece = []
  · subst hpiece
    refine ⟨[], missing, o, ?_, rfl, fun _ => h, fun hle => absurd hrest (Nat.not_lt.2 hle)⟩
    rw [decompress, if_neg hopen, if_pos rfl]
  · have hroom : 0 < (Gathering.start o.codec piece none).blocks.active.spare := blockSize_pos 0
    have hempty : (Gathering.start o.codec piece none).blocks.join.size = 0 := rfl
    obtain ⟨left, c', made, missing', hrun, hjoin, hcontent, hzero, hmore⟩ :=
      Gathering.run_opening (c := .start o.codec piece none) hP hopening (.inl hpiece)
        BlockList.growing_start hroom (by omega) hlimit
    have houtput : c'.output = made :=
      (congrArg Array.toList (BlockList.finish_eq_join _)).trans hjoin
    have hcall : o.decompress limit piece = (.ok made,
        if left = 0 then ⟨c'.codec, true, o.unused ++ c'.input.unread⟩
        else { o with codec := c'.codec }) := by
      rw [decompress, if_neg hopen, if_neg hpiece, hrun, ← houtput]
    by_cases hleft : left = 0
    · obtain ⟨hmissing, hbehind⟩ := hzero hleft
      have hlen := congrArg List.length hbehind
      rw [List.length_append] at hlen
      rw [if_pos hleft, h.unused] at hcall
      exact ⟨made, missing', _, hcall, hcontent, fun hlt => by omega,
        fun _ => ⟨rfl, hmissing, hbehind⟩⟩
    · obtain ⟨hopening', hlater⟩ := hmore hleft
      rw [if_neg hleft] at hcall
      exact ⟨made, missing', _, hcall, hcontent, fun _ => ⟨h.finished, h.unused, true, hopening'⟩,
        fun hle => absurd hlater (Nat.not_lt.2 hle)⟩

/-- Pieces that do not get to the end of the frame leave the opener inside of it. -/
theorem decompressEach_underway (hP : PatientDecoding like) {pieces : List (List UInt8)}
    (acc : Array UInt8) (h : Underway like o (pieces.flatten ++ later) missing d' rest)
    (hrest : rest.length < later.length)
    (hmemory : missing.length + largestBlock ≤ allocationLimit) (hlimit : missing.length < limit) :
    ∃ made missing' o', o.decompressEach limit acc pieces = (.ok (acc.toList ++ made), o') ∧
      missing = made ++ missing' ∧ Underway like o' later missing' d' rest := by
  induction pieces generalizing o acc missing with
  | nil => exact ⟨[], missing, o, by rw [decompressEach, List.append_nil], rfl, h⟩
  | cons piece pieces ih =>
    rw [List.flatten_cons, List.append_assoc] at h
    obtain ⟨made, missing₁, o₁, hcall, rfl, hgoes, -⟩ :=
      decompress_underway hP h (by simp only [List.length_append]; omega) hmemory hlimit
    rw [List.length_append] at hmemory hlimit
    obtain ⟨made', missing', o', heach, rfl, hunderway⟩ :=
      ih (acc ++ made) (hgoes (by rw [List.length_append]; omega)) (by omega) (by omega)
    refine ⟨made ++ made', missing', o', ?_, by rw [List.append_assoc], hunderway⟩
    rw [decompressEach, hcall]
    dsimp only
    rw [heach, Array.toList_appendList, List.append_assoc]

/-- Pieces after others. -/
theorem decompressEach_append {acc : Array UInt8} {before after : List (List UInt8)}
    {out : List UInt8} (h : o.decompressEach limit acc before = (.ok out, o')) :
    o.decompressEach limit acc (before ++ after) = o'.decompressEach limit out.toArray after := by
  induction before generalizing o acc with
  | nil =>
    obtain ⟨rfl, rfl⟩ : acc.toList = out ∧ o = o' := by simpa [decompressEach] using h
    rfl
  | cons piece before ih =>
    rcases hcall : o.decompress limit piece with ⟨failure | bytes, o₁⟩
    · simp [decompressEach, hcall] at h
    · rw [decompressEach, hcall] at h
      rw [List.cons_append, decompressEach, hcall]
      exact ih h

/-- The piece that holds the last byte of the frame ends it. -/
theorem decompressEach_concat (hP : PatientDecoding like) {before : List (List UInt8)}
    (h : Underway like o (before.flatten ++ (piece ++ later)) missing d' rest)
    (hbefore : rest.length < (piece ++ later).length) (hlast : later.length ≤ rest.length)
    (hmemory : missing.length + largestBlock ≤ allocationLimit) (hlimit : missing.length < limit) :
    ∃ o', o.decompressEach limit #[] (before ++ [piece]) = (.ok missing, o') ∧
      o'.finished = true ∧ o'.unused ++ later = rest := by
  obtain ⟨made, missing₁, o₁, heach, rfl, hunderway⟩ :=
    decompressEach_underway hP #[] h hbefore hmemory hlimit
  rw [List.length_append] at hmemory hlimit
  have hlimit' : missing₁.length < limit := by omega
  obtain ⟨made', missing', o', hcall, rfl, -, hends⟩ :=
    decompress_underway hP hunderway hbefore (by omega) hlimit'
  obtain ⟨hfinished, rfl, hunused⟩ := hends hlast
  refine ⟨o', ?_, hfinished, hunused⟩
  rw [decompressEach_append heach, decompressEach, hcall]
  simp [decompressEach]

/-! ## Any codec -/

omit [ByteDecoder δ]

/-- What a call that succeeds has done, whatever the codec. -/
theorem decompress_ok {out : List UInt8} (h : o.decompress limit piece = (.ok out, o')) :
    o.finished = false ∧ ∃ turns y, Course o.codec piece turns o'.codec y ∧ out = madeBy turns ∧
      o'.unused = o.unused ++ y ∧ (o'.finished = false → y = []) := by
  unfold decompress at h
  split at h
  · cases h
  next hfinished =>
  refine ⟨by simpa using hfinished, ?_⟩
  split at h
  · next hpiece =>
    cases h
    subst hpiece
    exact ⟨[], [], .nil, rfl, (List.append_nil _).symm, fun _ => rfl⟩
  · split at h
    · cases h
    next left c hrun =>
    simp only [Prod.mk.injEq, Except.ok.injEq] at h
    obtain ⟨rfl, rfl⟩ := h
    obtain ⟨before, last, hran, rfl⟩ := Gathering.run_ok hrun
    obtain ⟨full, hdone⟩ := hran.done
    refine ⟨before ++ [last], if last.left = 0 then c.input.unread else [], ?_, hran.output, ?_, ?_⟩
    · by_cases hleft : last.left = 0
      · rw [if_pos hleft, if_pos hleft]
        exact hran.course
      · -- without the end of the frame, a call goes on until all of the piece has been taken
        have hconsumed : c.input.unread = [] ∧ full = false := by
          simpa [hleft, Input.isConsumed_iff] using hdone
        rw [if_neg hleft, if_neg hleft]
        exact hconsumed.1 ▸ hran.course
    · by_cases hleft : last.left = 0
      · rw [if_pos hleft, if_pos hleft]
      · rw [if_neg hleft, if_neg hleft, List.append_nil]
    · intro hopen
      by_cases hleft : last.left = 0
      · rw [if_pos hleft] at hopen
        cases hopen
      · rw [if_neg hleft]

/-- What calls that all succeed have done. -/
theorem decompressEach_ok {pieces : List (List UInt8)} {acc : Array UInt8} {out : List UInt8}
    (hunused : o.unused = []) (h : o.decompressEach limit acc pieces = (.ok out, o')) :
    ∃ turns, Course o.codec pieces.flatten turns o'.codec o'.unused ∧
      out = acc.toList ++ madeBy turns := by
  induction pieces generalizing o acc with
  | nil =>
    obtain ⟨rfl, rfl⟩ : acc.toList = out ∧ o = o' := by simpa [decompressEach] using h
    exact ⟨[], hunused ▸ .nil, (List.append_nil _).symm⟩
  | cons piece pieces ih =>
    rcases hcall : o.decompress limit piece with ⟨failure | bytes, o₁⟩
    · simp [decompressEach, hcall] at h
    simp only [decompressEach, hcall] at h
    obtain ⟨-, turns, y, hcourse, rfl, hunused₁, hrest⟩ := decompress_ok hcall
    rw [hunused, List.nil_append] at hunused₁
    by_cases hfinished : o₁.finished = true
    · -- an opener that has finished refuses every other piece
      cases pieces with
      | nil =>
        obtain ⟨rfl, rfl⟩ := by simpa [decompressEach] using h
        exact ⟨turns, by simpa [hunused₁] using hcourse, rfl⟩
      | cons next others => simp [decompressEach, decompress, hfinished] at h
    · obtain rfl := hrest (by simpa using hfinished)
      obtain ⟨turns', hcourse', rfl⟩ := ih hunused₁ h
      refine ⟨turns ++ turns', (hcourse.weaken pieces.flatten).append hcourse', ?_⟩
      rw [madeBy_append, Array.toList_appendList, List.append_assoc]

/-- In every run of calls that succeed, the codec takes the bytes of the pieces in order, each of
them once, up to those that are kept, and the answers are what it makes of them. -/
def KeepsBytes (codec : σ) : Prop :=
  ∀ (limit : Nat) (pieces : List (List UInt8)) (out : List UInt8) (o : FrameOpener σ),
    (new codec).decompressEach limit #[] pieces = (.ok out, o) →
      ∃ turns, Course codec pieces.flatten turns o.codec o.unused ∧
        takenBy turns ++ o.unused = pieces.flatten ∧ out = madeBy turns

theorem keepsBytes (codec : σ) : KeepsBytes codec := by
  intro limit pieces out o h
  obtain ⟨turns, hcourse, rfl⟩ := decompressEach_ok rfl h
  exact ⟨turns, hcourse, hcourse.takenBy_append_eq, rfl⟩

/-! ## Both ways -/

/-- A codec in front of a frame `f` that contains `c`, with `r` behind it: it decodes the frame at
once, and in pieces that are cut anywhere. -/
structure Opens (limit : Nat) (codec : σ) (f c r : List UInt8) : Prop where
  /-- at once, the frame decodes to its content -/
  whole : (decompressFrame limit codec (f ++ r) none).1 = .ok c
  /-- pieces that do not get to the end of the frame do not finish it, and nothing of them is kept -/
  unfinished {pieces later : List (List UInt8)} : (pieces ++ later).flatten = f ++ r →
    pieces.flatten.length < f.length →
      ∃ out o, (new codec).decompressEach limit #[] pieces = (.ok out, o) ∧ o.finished = false ∧
        o.unused = [] ∧ out <+: c
  /-- the piece with the last byte of the frame finishes it; the answers are the content then, and
  what is kept is the front of what follows the frame, up to the pieces not yet fed -/
  finished {before after : List (List UInt8)} {piece : List UInt8} :
    (before ++ piece :: after).flatten = f ++ r → before.flatten.length < f.length →
      f.length ≤ (before ++ [piece]).flatten.length →
        ∃ o, (new codec).decompressEach limit #[] (before ++ [piece]) = (.ok c, o) ∧
          o.finished = true ∧ o.unused ++ after.flatten = r

variable [ByteDecoder δ]

/-- A frame decoder opens a frame at once and in pieces, and no codec loses or doubles a byte on the
way. There must be memory for the content, and steps enough. -/
theorem opens (hP : PatientDecoding like) {codec : σ} {automaton : δ} {f c : List UInt8}
    (hlike : like codec (.new automaton) false) (hframe : Frame automaton f c d') (r : List UInt8)
    (hmemory : c.length + largestBlock ≤ allocationLimit) (hlimit : c.length < limit) :
    Opens limit codec f c r ∧ ∀ (τ : Type) [Codec τ] (other : τ), KeepsBytes other := by
  have hopening := Opening.start hlike hframe r
  refine ⟨⟨decompressFrame_opening hP hopening hmemory hlimit, ?_, ?_⟩, fun τ _ => keepsBytes⟩
  · intro pieces later hcut hshort
    rw [List.flatten_append] at hcut
    have hlength := congrArg List.length hcut
    rw [List.length_append, List.length_append] at hlength
    have hunderway : Underway like (new codec) (pieces.flatten ++ later.flatten) c d' r :=
      ⟨rfl, rfl, false, hcut ▸ hopening⟩
    obtain ⟨made, missing', o, heach, hcontent, hunderway'⟩ :=
      decompressEach_underway hP #[] hunderway (by omega) hmemory hlimit
    exact ⟨made, o, heach, hunderway'.finished, hunderway'.unused, missing', hcontent.symm⟩
  · intro before after piece hcut hbefore hlast
    rw [List.flatten_append, List.flatten_cons] at hcut
    have hlength := congrArg List.length hcut
    simp only [List.flatten_append, List.length_append, List.flatten_cons, List.flatten_nil,
      List.append_nil] at hlength hlast
    have hunderway : Underway like (new codec) (before.flatten ++ (piece ++ after.flatten)) c d' r :=
      ⟨rfl, rfl, false, hcut ▸ hopening⟩
    exact decompressEach_concat hP hunderway (by rw [List.length_append]; omega) (by omega) hmemory
      hlimit

/-- A frame of two bytes, each of which stands for two, and two more bytes behind it. -/
theorem opens_lengthPrefixed :
    Opens 5 (FrameDecoder.new (Toy.LengthPrefixed.new 2) none) [2, 7, 8] [7, 7, 8, 8] [0, 1] ∧
      ∀ (τ : Type) [Codec τ] (other : τ), KeepsBytes other := by
  have hframe : Frame (Toy.LengthPrefixed.new 2) [2, 7, 8] ([] ++ ([7, 7] ++ [8, 8]))
      (Toy.LengthPrefixed.new 2) := .more rfl (.more rfl (.ended rfl))
  have hlike : FrameDecoder.Like (.new (Toy.LengthPrefixed.new 2) none)
      (.new (Toy.LengthPrefixed.new 2)) false := ⟨rfl, rfl, rfl⟩
  exact opens FrameDecoder.patientDecoding hlike hframe [0, 1] (by decide) (by decide)

end FrameOpener

/-! ## Frames in a row -/

namespace Unpacking

/-- A fresh codec has taken `f`, with something behind it or nothing, and has made `c` of it. -/
def Opened (u : Unpacking) (f c : List UInt8) : Prop :=
  ∃ engine s turns rest, Engine.unpacking u = .ok engine ∧ Course engine (f ++ rest) turns s rest ∧
    takenBy turns = f ∧ madeBy turns = c

theorem opened_of_decompress {u : Unpacking} {opener o : FrameOpener Engine} {limit : Nat}
    {bytes content : List UInt8} (hopener : u.opener = .ok opener)
    (h : opener.decompress limit bytes = (.ok content, o)) :
    ∃ f, bytes = f ++ o.unused ∧ u.Opened f content := by
  cases hengine : Engine.unpacking u with
  | error failure =>
    rw [Unpacking.opener, hengine] at hopener
    cases hopener
  | ok engine =>
    rw [Unpacking.opener, hengine] at hopener
    obtain rfl := Except.ok.inj hopener
    obtain ⟨-, turns, y, hcourse, rfl, hunused, -⟩ := FrameOpener.decompress_ok h
    obtain rfl : o.unused = y := hunused
    have hbytes := hcourse.takenBy_append_eq
    exact ⟨takenBy turns, hbytes.symm, engine, o.codec, turns, o.unused, hengine, hbytes ▸ hcourse,
      rfl, rfl⟩

/-- The frames that some bytes are cut into stand at their front, one behind the other, and each has
been opened by a fresh codec. -/
theorem cutFrames_tiles (limit : Nat) (u : Unpacking) (count : Nat) (bytes : List UInt8) :
    ((u.cutFrames limit count bytes).complete.map Prod.fst).flatten <+: bytes ∧
      ∀ p ∈ (u.cutFrames limit count bytes).complete, u.Opened p.1 p.2 := by
  fun_induction cutFrames limit u count bytes with
  | case5 count bytes hne opener hopener content o hcall hfinished frame rest ih =>
    obtain ⟨f, hbytes, hopened⟩ := opened_of_decompress hopener hcall
    obtain rfl : f = frame := by
      simp only [frame, hbytes, List.length_append, Nat.add_sub_cancel, List.take_left]
    refine ⟨?_, fun p hp => ?_⟩
    · rw [hbytes, List.map_cons, List.flatten_cons, List.prefix_append_right_inj]
      exact ih.1
    · rcases List.mem_cons.1 hp with rfl | hp
      · exact hopened
      · exact ih.2 p hp
  | _ => exact ⟨List.nil_prefix, fun _ hp => absurd hp List.not_mem_nil⟩

end Unpacking

end Sluice
