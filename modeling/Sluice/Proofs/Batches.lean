import Mathlib
import Sluice.Proofs.EncodePaths
import Sluice.Proofs.OpeningFrames
import Sluice.Proofs.Renewing
import Sluice.Proofs.SegmentBounds

/-!
# Batches item by item

A batch is nothing but its items: what a fresh codec makes of each of them, one after the other in a
buffer, or the failure of the first of them that fails.

* `SegmentedBuffer.Holds` — a buffer with given parts, and no gap between them.
* `Collects` — what a batch has to answer, given what its items answer.
* `compressItems_eq`, `decompressItems_eq` — used again and again, a codec answers for each item as a
  fresh one does.
* `Stored.compressFrame_eq` — the frame of stored data is the data.
* `batches_collect` — batches answer for their items, in both directions.
-/

namespace Sluice

/-! ## Collecting answers -/

namespace SegmentedBuffer

/-- The buffer consists of the parts: each has a segment of its own, in order, and there is nothing
between them. -/
structure Holds (b : SegmentedBuffer) (parts : List (List UInt8)) : Prop where
  length : b.length = parts.length
  item {index : Nat} {part : List UInt8} : parts[index]? = some part →
    ∃ view, b.itemAt index = .ok view ∧ view.bytes = part
  tiled : b.Tiled

/-- A part of all that has been joined, cut out again. -/
theorem take_drop_flatten {parts : List (List UInt8)} {index : Nat} {part : List UInt8}
    (h : parts[index]? = some part) :
    (parts.flatten.drop (partStart parts index)).take part.length = part := by
  obtain ⟨hindex, rfl⟩ := List.getElem?_eq_some_iff.1 h
  have hsplit : parts.flatten =
      (parts.take index).flatten ++ (parts[index] ++ (parts.drop (index + 1)).flatten) := by
    rw [← List.flatten_cons, ← List.drop_eq_getElem_cons hindex, ← List.flatten_append,
      List.take_append_drop]
  rw [hsplit, List.drop_left, List.take_left]

theorem holds_pushAll {parts : List (List UInt8)} (hsize : (empty.pushAll parts).size < UInt64.size) :
    (empty.pushAll parts).Holds parts where
  length := length_pushAll_empty parts
  tiled := tiled_pushAll hsize
  item {index part} := by
    intro hpart
    have hb : (empty.pushAll parts).Addressable := addressable hsize fun s hs =>
      (tiled_pushAll hsize).within hs
    have hindex : index < (empty.pushAll parts).segments.size := by
      have hlength : (empty.pushAll parts).segments.size = parts.length :=
        length_pushAll_empty parts
      rw [hlength]
      exact (List.getElem?_eq_some_iff.1 hpart).1
    have hs := Array.getElem?_eq_getElem hindex
    rw [size_pushAll_empty] at hsize
    obtain ⟨-, -, view, hitem, -, hbytes, -⟩ := hb.inside hs
    obtain ⟨part', hpart', hoffset, hlength⟩ := segment_pushAll_empty hsize hs
    obtain rfl : part' = part := by
      rw [hpart] at hpart'
      exact (Option.some.inj hpart').symm
    refine ⟨view, hitem, ?_⟩
    rw [hbytes, hoffset, hlength, bytes_pushAll_empty, take_drop_flatten hpart]

/-- Add the answers to a buffer in order, as long as none of them is a failure. -/
def collect (b : SegmentedBuffer) :
    List (Except Failure (List UInt8)) → Except Failure SegmentedBuffer
  | [] => .ok b
  | .error failure :: _ => .error failure
  | .ok part :: answers => collect (b.push part) answers

/-- The buffer, unless something is wrong with what has been asked for. -/
def refusedOr (b : SegmentedBuffer) : Option Misuse → Except Failure SegmentedBuffer
  | some misuse => .error (.misuse misuse)
  | none => .ok b

variable {b : SegmentedBuffer}

theorem collect_ok (parts : List (List UInt8)) :
    b.collect (parts.map .ok) = .ok (b.pushAll parts) := by
  induction parts generalizing b with
  | nil => rfl
  | cons part parts ih => exact ih

theorem collect_error (parts : List (List UInt8)) (failure : Failure)
    (answers : List (Except Failure (List UInt8))) :
    b.collect (parts.map .ok ++ .error failure :: answers) = .error failure := by
  induction parts generalizing b with
  | nil => rfl
  | cons part parts ih => exact ih

end SegmentedBuffer

/-- Answers for all items, or for those before the first failure. -/
theorem exists_parts (answers : List (Except Failure (List UInt8))) :
    (∃ parts : List (List UInt8), answers = parts.map .ok) ∨
      ∃ (parts : List (List UInt8)) (failure : Failure) (later : List (Except Failure (List UInt8))),
        answers = parts.map .ok ++ .error failure :: later := by
  induction answers with
  | nil => exact .inl ⟨[], rfl⟩
  | cons answer answers ih =>
    rcases answer with failure | part
    · exact .inr ⟨[], failure, answers, rfl⟩
    · rcases ih with ⟨parts, rfl⟩ | ⟨parts, failure, later, rfl⟩
      · exact .inl ⟨part :: parts, rfl⟩
      · exact .inr ⟨part :: parts, failure, later, rfl⟩

/-- What a batch answers, if `answers` are those for its items one by one, and `refused` is what is
wrong with the list of them. -/
structure Collects (answers : List (Except Failure (List UInt8))) (refused : Option Misuse)
    (answer : Except Failure SegmentedBuffer) : Prop where
  /-- there is a buffer exactly if there is nothing wrong with the list, and no item fails -/
  succeeds : (∃ b, answer = .ok b) ↔ refused = none ∧ ∀ one ∈ answers, ∃ part, one = .ok part
  /-- it has one segment per item, with what the item has become -/
  holds {parts : List (List UInt8)} {b : SegmentedBuffer} : answers = parts.map .ok →
    answer = .ok b → b.size < UInt64.size → b.Holds parts
  /-- the first failure of an item is that of the batch -/
  fails {parts : List (List UInt8)} {failure : Failure} {later : List (Except Failure (List UInt8))} :
    answers = parts.map .ok ++ .error failure :: later → answer = .error failure
  /-- and if there is none, what is wrong with the list is -/
  refuses {parts : List (List UInt8)} {misuse : Misuse} : answers = parts.map .ok →
    refused = some misuse → answer = .error (.misuse misuse)

theorem Collects.of_eq {answers : List (Except Failure (List UInt8))} {refused : Option Misuse}
    {answer : Except Failure SegmentedBuffer}
    (h : answer = (SegmentedBuffer.empty.collect answers).bind (·.refusedOr refused)) :
    Collects answers refused answer := by
  have hfails {parts : List (List UInt8)} {failure : Failure}
      {later : List (Except Failure (List UInt8))}
      (hanswers : answers = parts.map .ok ++ .error failure :: later) : answer = .error failure := by
    rw [h, hanswers, SegmentedBuffer.collect_error]
    rfl
  have hparts {parts : List (List UInt8)} (hanswers : answers = parts.map .ok) :
      answer = (SegmentedBuffer.empty.pushAll parts).refusedOr refused := by
    rw [h, hanswers, SegmentedBuffer.collect_ok]
    rfl
  refine ⟨⟨?_, ?_⟩, ?_, hfails, ?_⟩
  · rintro ⟨b, hb⟩
    rcases exists_parts answers with ⟨parts, hanswers⟩ | ⟨parts, failure, later, hanswers⟩
    · refine ⟨?_, by simp [hanswers]⟩
      rw [hparts hanswers] at hb
      cases refused with
      | none => rfl
      | some misuse => cases hb
    · rw [hfails hanswers] at hb
      cases hb
  · rintro ⟨rfl, hall⟩
    rcases exists_parts answers with ⟨parts, hanswers⟩ | ⟨parts, failure, later, hanswers⟩
    · exact ⟨_, hparts hanswers⟩
    · obtain ⟨part, hpart⟩ := hall (.error failure) (by simp [hanswers])
      cases hpart
  · intro parts b hanswers hb hsize
    rw [hparts hanswers] at hb
    cases refused with
    | some misuse => cases hb
    | none =>
      obtain rfl := Except.ok.inj hb
      exact SegmentedBuffer.holds_pushAll hsize
  · rintro parts misuse hanswers rfl
    exact hparts hanswers

/-! ## Compressing -/

variable {σ τ : Type} [Codec σ] [Codec τ]

/-- What is wrong with a list of items to compress. -/
def itemsRefused (items : List (List UInt8)) : Option Misuse :=
  if items = [] then some .noElements
  else if items.all List.isEmpty then some .emptyElements
  else none

/-- What is wrong with a list of frames to decompress. -/
def framesRefused (frames : List (List UInt8)) : Option Misuse :=
  if frames = [] then some .noElements else none

/-- From item to item, the codec stays like a fresh one at the next announcement of a size. -/
theorem compressItems_eq {fresh codec : σ} (hR : Renews fresh) (h : StartsAlike fresh codec)
    (limit : Nat) (packed : SegmentedBuffer) (items : List (List UInt8)) :
    compressItems limit codec packed items =
      packed.collect (items.map fun item => (compressFrame limit fresh item).1) := by
  induction items generalizing codec packed with
  | nil => rfl
  | cons item items ih =>
    obtain ⟨hanswer, halike⟩ := compressFrame_alike h limit item
    rcases hfresh : compressFrame limit fresh item with ⟨failure | frame, s'⟩ <;>
      rcases hcodec : compressFrame limit codec item with ⟨answer, codec'⟩ <;>
      rw [hfresh, hcodec] at hanswer halike <;>
      obtain rfl : answer = _ := hanswer <;>
      rw [compressItems, hcodec, List.map_cons, hfresh]
    · rfl
    · obtain ⟨s, before, last, y, hpledge, hcourse, hbefore, hlast, -⟩ := compressFrame_ok hfresh
      obtain ⟨s₁, later, hfirst, hlead, -⟩ := hcourse.concat_inv
      have hmaking : Making fresh item before s₁ (last.offered ++ later) :=
        ⟨_, s, hpledge, hfirst, hbefore⟩
      exact ih ((hR hmaking hlead hlast).trans halike.pledge) (packed.push frame)

/-- What a fresh codec answers for the frame with the given index; a failure of the codec names the
index. -/
def frameAnswer (limit : Nat) (fresh : σ) (index : Nat) (frame : List UInt8) :
    Except Failure (List UInt8) :=
  (decompressFrame limit fresh frame none).1.mapError (Failure.atItem index)

/-- With a reset before each frame, the codec is like a fresh one every time. -/
theorem decompressItems_eq {fresh codec : σ} (hR : Resets fresh) (h : Reached fresh codec)
    (limit : Nat) (unpacked : SegmentedBuffer) (index : Nat) (frames : List (List UInt8)) :
    decompressItems limit codec unpacked index frames =
      unpacked.collect (frames.mapIdx fun k => frameAnswer limit fresh (index + k)) := by
  induction frames generalizing codec unpacked index with
  | nil => rfl
  | cons frame frames ih =>
    have hanswer := decompressFrame_alike (hR codec h) limit frame none
    have hreached := h.reset.decompressFrame limit frame none
    have hlater : (fun k => frameAnswer limit fresh (index + (k + 1))) =
        fun k => frameAnswer limit fresh (index + 1 + k) :=
      funext fun k => by rw [Nat.add_assoc, Nat.add_comm 1]
    rcases hcodec : decompressFrame limit (Codec.reset codec) frame none with
      ⟨failure | item, codec'⟩ <;>
      rw [hcodec] at hanswer hreached <;>
      rw [decompressItems, hcodec, List.mapIdx_cons, frameAnswer, ← hanswer]
    · rfl
    · rw [hlater]
      exact ih hreached (unpacked.push item) (index + 1)

theorem compressBatch_collects {encoder : σ} (hR : Renews encoder) (limit : Nat)
    (items : List (List UInt8)) :
    Collects (items.map fun item => (compressFrame limit encoder item).1) (itemsRefused items)
      (compressBatch limit encoder items) := by
  refine .of_eq ?_
  rw [← compressItems_eq hR (Alike.refl encoder).pledge, compressBatch]
  cases compressItems limit encoder .empty items with
  | error failure => rfl
  | ok packed =>
    dsimp only [Except.bind, itemsRefused]
    split
    · rfl
    · split <;> rfl

theorem decompressBatch_collects {decoder : τ} (hR : Resets decoder) (limit : Nat)
    (frames : List (List UInt8)) :
    Collects (frames.mapIdx (frameAnswer limit decoder)) (framesRefused frames)
      (decompressBatch limit decoder frames) := by
  have hframes := decompressItems_eq hR .start limit .empty 0 frames
  simp only [Nat.zero_add] at hframes
  refine .of_eq ?_
  rw [← hframes, decompressBatch]
  cases decompressItems limit decoder .empty 0 frames with
  | error failure => rfl
  | ok unpacked =>
    dsimp only [Except.bind, framesRefused]
    split <;> rfl

/-! ## Stored data -/

/-- Every step but the last fills its block with the front of the data. -/
theorem Stored.run_finish_returns {limit : Nat} {c : Gathering Stored} (hblocks : c.blocks.Growing)
    (hroom : 0 < c.blocks.active.spare)
    (hmemory : c.blocks.join.size + c.input.unread.length + largestBlock ≤ allocationLimit)
    (hlimit : c.input.unread.length < limit) :
    ∃ left c', c.run .finish (fun left _ _ => left == 0) limit = (.ok left, c') := by
  -- on the limit: what is left of the data gets shorter with every step that fills a block
  induction limit generalizing c with
  | zero => exact absurd hlimit (Nat.not_lt_zero _)
  | succ limit ih =>
    have hunread : (c.step .finish).2.input.unread =
        c.input.unread.drop c.blocks.active.spare := by
      change (c.input.advance (c.input.unread.take c.blocks.active.spare).length).unread = _
      rw [Input.unread_advance, List.length_take, ← List.drop_eq_drop_min]
    have hresult : (c.step .finish).1 =
        .ok (if (c.input.unread.drop c.blocks.active.spare).isEmpty then 0 else 1) := by
      simp [Gathering.step, drive, Codec.step, step]
    rcases hstep : c.step .finish with ⟨result, c₁⟩
    have hc₁ : c₁ = (c.step .finish).2 := by rw [hstep]
    rw [hstep] at hunread hresult
    rw [Gathering.run, hstep]
    obtain rfl : result = _ := hresult
    by_cases hend : c.input.unread.drop c.blocks.active.spare = []
    · exact ⟨0, c₁, by simp [hend]⟩
    · have hlong : c.blocks.active.spare < c.input.unread.length := by
        simpa [List.drop_eq_nil_iff] using hend
      have hblocks₁ : c₁.blocks = { c.blocks with
          active := c.blocks.active.put (c.input.unread.take c.blocks.active.spare) } := by
        rw [hc₁]
        rfl
      have hgrowing : c₁.blocks.Growing := hblocks₁ ▸ hblocks.put _
      have hspare : c₁.blocks.active.spare = 0 := by
        rw [hblocks₁, Window.spare_put, List.length_take]
        omega
      have hfull : c₁.blocks.isFull = true := by
        rw [BlockList.isFull, Window.isFull, hspare, beq_self_eq_true]
      -- nothing has been allocated, so that the room has become data
      have hjoin : c₁.blocks.join.size = c.blocks.join.size + c.blocks.active.spare := by
        have hbefore := hblocks.allocated
        have hafter := hgrowing.allocated
        have hsame : c₁.blocks.allocated = c.blocks.allocated := by rw [hblocks₁]
        omega
      obtain ⟨b, hgrow, hgrowing', hroom', hsame⟩ := hgrowing.grow_ok hfull (by omega)
      have hless : c₁.input.unread.length + c.blocks.active.spare = c.input.unread.length := by
        rw [hunread, List.length_drop]
        omega
      obtain ⟨left, c', hrun⟩ := ih (c := { c₁ with blocks := b }) hgrowing' hroom'
        (by rw [hsame]; dsimp only; omega) (by dsimp only; omega)
      refine ⟨left, c', ?_⟩
      simp only [List.isEmpty_iff, hend, if_false, hfull, if_true, hgrow]
      exact hrun

/-- The frame of stored data is the data. -/
theorem Stored.compressFrame_eq {limit : Nat} {bytes : List UInt8} (hlimit : bytes.length < limit)
    (hmemory : bytes.length + largestBlock ≤ allocationLimit) :
    (compressFrame limit Stored.stored bytes).1 = .ok bytes := by
  have hjoin : (Gathering.start Stored.stored bytes none).blocks.join.size = 0 := rfl
  have hunread : (Gathering.start Stored.stored bytes none).input.unread = bytes :=
    Input.unread_ofList bytes
  obtain ⟨left, c', hrun⟩ := @Stored.run_finish_returns limit (.start Stored.stored bytes none)
    BlockList.growing_start (blockSize_pos 0) (by rw [hjoin, hunread]; omega)
    (by rwa [hunread])
  have hframe : compressFrame limit Stored.stored bytes = (.ok c'.output, c'.codec) := by
    have hpledge : Codec.pledge Stored.stored (some bytes.length) = (.ok (), Stored.stored) := rfl
    rw [compressFrame, hpledge]
    dsimp only
    rw [hrun]
    rfl
  rw [hframe, Option.some.inj (Stored.conforming.frontEnds.whole hframe)]

/-! ## Both directions -/

/-- A batch answers for its items one by one, as a fresh codec does for each of them: with the
failure of the first that fails, with what is wrong with the list as a whole, or with a buffer that
consists of what they have become. That holds of every encoder that renews itself and of every
decoder that can be reset. The frame of stored data is the data, as long as there is memory. -/
theorem batches_collect {encoder : σ} {decoder : τ} (hE : Renews encoder) (hD : Resets decoder)
    (limit : Nat) :
    (∀ items, Collects (items.map fun item => (compressFrame limit encoder item).1)
      (itemsRefused items) (compressBatch limit encoder items)) ∧
    (∀ items : List (List UInt8),
      (∀ item ∈ items, item.length < limit ∧ item.length + largestBlock ≤ allocationLimit) →
        Collects (items.map .ok) (itemsRefused items) (compressBatch limit Stored.stored items)) ∧
    ∀ frames, Collects (frames.mapIdx (frameAnswer limit decoder)) (framesRefused frames)
      (decompressBatch limit decoder frames) := by
  refine ⟨compressBatch_collects hE limit, fun items hitems => ?_, decompressBatch_collects hD limit⟩
  have hframes : items.map (fun item => (compressFrame limit Stored.stored item).1) =
      items.map .ok :=
    List.map_congr_left fun item hitem =>
      Stored.compressFrame_eq (hitems item hitem).1 (hitems item hitem).2
  rw [← hframes]
  exact compressBatch_collects Stored.renews limit items

/-- With the library's encoder of DEFLATE, and a decoder of length-prefixed frames in which each byte
stands for two: two items with nothing between them, no bytes at all, two frames, and two frames of
which the second one has a length that no frame has. -/
theorem batches_collect_deflate :
    let encoder := Deflate.Packer.new (Outgoing.new (Deflate.Encoder.new 0))
    let decoder := FrameDecoder.new (Toy.LengthPrefixed.new 2) none
    Renews encoder ∧ Resets decoder ∧
    (∃ b, compressBatch 50 encoder [[7, 8], [], [9]] = .ok b ∧
      b.Holds [[1, 2, 0, 253, 255, 7, 8], [1, 0, 0, 255, 255], [1, 1, 0, 254, 255, 9]]) ∧
    compressBatch 50 encoder [[], []] = .error (.misuse .emptyElements) ∧
    (∃ b, compressBatch 50 Stored.stored [[7, 8], [], [9]] = .ok b ∧ b.Holds [[7, 8], [], [9]]) ∧
    (∃ b, decompressBatch 50 decoder [[1, 7], [0]] = .ok b ∧ b.Holds [[7, 7], []]) ∧
    decompressBatch 50 decoder [[1, 7], [255]] =
      .error (.codec "error decompressing item 1: toy: bad length 255") := by
  intro encoder decoder
  have hE : Renews encoder := Deflate.Packer.renews 0
  have hD : Resets decoder := Toy.LengthPrefixed.resets 2 none
  obtain ⟨hpacks, hstores, hunpacks⟩ := batches_collect hE hD 50
  have hpacked : compressBatch 50 encoder [[7, 8], [], [9]] =
      .ok ⟨⟨#[1, 2, 0, 253, 255, 7, 8, 1, 0, 0, 255, 255, 1, 1, 0, 254, 255, 9], true⟩,
        #[⟨0, 7⟩, ⟨7, 5⟩, ⟨12, 6⟩]⟩ := by cbv
  have hstored : compressBatch 50 Stored.stored [[7, 8], [], [9]] =
      .ok ⟨⟨#[7, 8, 9], true⟩, #[⟨0, 2⟩, ⟨2, 0⟩, ⟨2, 1⟩]⟩ := by cbv
  have hunpacked : decompressBatch 50 decoder [[1, 7], [0]] =
      .ok ⟨⟨#[7, 7], true⟩, #[⟨0, 2⟩, ⟨2, 0⟩]⟩ := by cbv
  have hempty : [[], []].map (fun item => (compressFrame 50 encoder item).1) =
      List.map .ok [[1, 0, 0, 255, 255], [1, 0, 0, 255, 255]] := by cbv
  have hwrong : [[1, 7], [255]].mapIdx (frameAnswer 50 decoder) = List.map .ok [[7, 7]] ++
      [.error (.codec "error decompressing item 1: toy: bad length 255")] := by cbv
  exact ⟨hE, hD, ⟨_, hpacked, (hpacks _).holds (by cbv) hpacked (by decide)⟩,
    (hpacks _).refuses hempty rfl,
    ⟨_, hstored, (hstores _ (by decide)).holds rfl hstored (by decide)⟩,
    ⟨_, hunpacked, (hunpacks _).holds (by cbv) hunpacked (by decide)⟩,
    (hunpacks _).fails hwrong⟩

end Sluice
