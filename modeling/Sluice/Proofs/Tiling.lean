import Sluice.Batch

/-!
# Parts laid end to end

A batch adds its results to a buffer one after the other, and never checks a segment. It need not:
the segments follow each other without a gap, and the last of them ends where the memory does.

* `SegmentedBuffer.pushAll` — adding parts one after the other.
* `compressItems_pushed`, `decompressItems_pushed` — that is all that a batch does to its buffer.
* `SegmentedBuffer.Tiled`, `SegmentedBuffer.tiled_pushAll` — the segments tile the memory, as long as
  its size is a word.
-/

namespace Sluice

namespace SegmentedBuffer

/-- Add parts one after the other. -/
def pushAll (b : SegmentedBuffer) (parts : List (List UInt8)) : SegmentedBuffer := parts.foldl push b

/-- The segments of parts that lie end to end from `start` on. -/
def tiling : (start : Nat) → List (List UInt8) → List Segment
  | _, [] => []
  | start, part :: parts =>
    ⟨UInt64.ofNat start, UInt64.ofNat part.length⟩ :: tiling (start + part.length) parts

variable (b : SegmentedBuffer) (parts : List (List UInt8))

theorem bytes_push (bytes : List UInt8) :
    (b.push bytes).backing.bytes.toList = b.backing.bytes.toList ++ bytes := by
  simp [push]

theorem size_push (bytes : List UInt8) : (b.push bytes).size = b.size + bytes.length := by
  rw [size, ← Array.length_toList, bytes_push, List.length_append, Array.length_toList, size]

/-! ## What has been added -/

theorem bytes_pushAll :
    (b.pushAll parts).backing.bytes.toList = b.backing.bytes.toList ++ parts.flatten := by
  induction parts generalizing b with
  | nil => exact (List.append_nil _).symm
  | cons part parts ih =>
    rw [pushAll, List.foldl_cons, ← pushAll, ih, bytes_push, List.append_assoc, List.flatten_cons]

theorem segments_pushAll :
    (b.pushAll parts).segments.toList = b.segments.toList ++ tiling b.size parts := by
  induction parts generalizing b with
  | nil => exact (List.append_nil _).symm
  | cons part parts ih =>
    have hpush : (b.push part).segments.toList =
        b.segments.toList ++ [⟨UInt64.ofNat b.size, UInt64.ofNat part.length⟩] := by
      simp [push, size]
    rw [pushAll, List.foldl_cons, ← pushAll, ih, hpush, size_push, List.append_assoc]
    rfl

theorem bytes_pushAll_empty : (empty.pushAll parts).backing.bytes.toList = parts.flatten :=
  bytes_pushAll empty parts

theorem size_pushAll_empty : (empty.pushAll parts).size = parts.flatten.length := by
  rw [size, ← Array.length_toList, bytes_pushAll_empty]

theorem segments_pushAll_empty : (empty.pushAll parts).segments.toList = tiling 0 parts :=
  segments_pushAll empty parts

/-! ## One tile per part -/

/-- Where the parts before the one with the given index end. -/
abbrev partStart (parts : List (List UInt8)) (index : Nat) : Nat :=
  (parts.take index).flatten.length

theorem getElem?_tiling (start index : Nat) :
    (tiling start parts)[index]? = parts[index]?.map fun part =>
      ⟨UInt64.ofNat (start + partStart parts index), UInt64.ofNat part.length⟩ := by
  induction parts generalizing start index with
  | nil => rfl
  | cons part parts ih =>
    cases index with
    | zero => rfl
    | succ index =>
      rw [tiling, List.getElem?_cons_succ, ih, List.getElem?_cons_succ, partStart, partStart,
        List.take_succ_cons, List.flatten_cons, List.length_append, Nat.add_assoc]

theorem length_tiling (start : Nat) : (tiling start parts).length = parts.length := by
  induction parts generalizing start with
  | nil => rfl
  | cons part parts ih => rw [tiling, List.length_cons, ih, List.length_cons]

theorem length_pushAll_empty : (empty.pushAll parts).length = parts.length := by
  rw [length, ← Array.length_toList, segments_pushAll_empty, length_tiling]

variable {parts}

/-- A part begins where those before it end, and the next one begins where it ends. -/
theorem partStart_succ {index : Nat} {part : List UInt8} (h : parts[index]? = some part) :
    partStart parts (index + 1) = partStart parts index + part.length := by
  rw [partStart, List.take_add_one, h, Option.toList_some, List.flatten_append, List.length_append,
    List.flatten_singleton]

theorem partStart_le (index : Nat) : partStart parts index ≤ parts.flatten.length := by
  have hsplit : parts.flatten = (parts.take index).flatten ++ (parts.drop index).flatten := by
    rw [← List.flatten_append, List.take_append_drop]
  rw [hsplit, List.length_append]
  exact Nat.le_add_right ..

/-- The segment of a part, in numbers: no word has wrapped around. -/
theorem segment_pushAll_empty {index : Nat} {s : Segment}
    (hsize : parts.flatten.length < UInt64.size)
    (h : (empty.pushAll parts).segments[index]? = some s) :
    ∃ part, parts[index]? = some part ∧ s.offset.toNat = partStart parts index ∧
      s.length.toNat = part.length := by
  rw [← Array.getElem?_toList, segments_pushAll_empty, getElem?_tiling, Nat.zero_add,
    Option.map_eq_some_iff] at h
  obtain ⟨part, hpart, rfl⟩ := h
  have hend := partStart_succ hpart
  have hle : partStart parts (index + 1) ≤ parts.flatten.length := partStart_le (index + 1)
  refine ⟨part, hpart, ?_, ?_⟩
  · exact UInt64.toNat_ofNat_of_lt' (by omega)
  · exact UInt64.toNat_ofNat_of_lt' (by omega)

/-! ## Tiles -/

/-- The segments lie end to end, from the first byte of the memory to the last. -/
structure Tiled (b : SegmentedBuffer) : Prop where
  first {s : Segment} : b.segments[0]? = some s → s.offset.toNat = 0
  next {index : Nat} {s t : Segment} : b.segments[index]? = some s →
    b.segments[index + 1]? = some t → t.offset.toNat = s.offset.toNat + s.length.toNat
  last {s : Segment} : b.segments.back? = some s → s.offset.toNat + s.length.toNat = b.size
  /-- so that none of them reaches outside -/
  within {s : Segment} : s ∈ b.segments → s.Within b.size

theorem tiled_pushAll (hsize : (empty.pushAll parts).size < UInt64.size) :
    (empty.pushAll parts).Tiled := by
  have hflatten := hsize
  rw [size_pushAll_empty] at hflatten
  have hend : ∀ {index : Nat} {s : Segment}, (empty.pushAll parts).segments[index]? = some s →
      s.offset.toNat + s.length.toNat = partStart parts (index + 1) := by
    intro index s hs
    obtain ⟨part, hpart, hoffset, hlength⟩ := segment_pushAll_empty hflatten hs
    rw [hoffset, hlength, partStart_succ hpart]
  constructor
  · intro s hs
    obtain ⟨part, -, hoffset, -⟩ := segment_pushAll_empty hflatten hs
    exact hoffset
  · intro index s t hs ht
    obtain ⟨part, -, hoffset, -⟩ := segment_pushAll_empty hflatten ht
    rw [hoffset, hend hs]
  · intro s hs
    rw [Array.back?_eq_getElem?] at hs
    obtain ⟨part, hpart, -⟩ := segment_pushAll_empty hflatten hs
    have hcount : (empty.pushAll parts).segments.size = parts.length := length_pushAll_empty parts
    have hpos : 0 < parts.length := Nat.zero_lt_of_lt (List.getElem?_eq_some_iff.1 hpart).1
    have hlast : (empty.pushAll parts).segments.size - 1 + 1 = parts.length := by omega
    rw [hend hs, hlast, partStart, List.take_length, size_pushAll_empty]
  · intro s hs
    obtain ⟨index, hs⟩ := Array.mem_iff_getElem?.1 hs
    rw [Segment.Within, hend hs, size_pushAll_empty]
    exact partStart_le (index + 1)

end SegmentedBuffer

/-! ## Batches -/

variable {σ : Type} [Codec σ] {limit : Nat} {codec : σ} {b : SegmentedBuffer}

theorem compressItems_pushed {packed : SegmentedBuffer} {items : List (List UInt8)}
    (h : compressItems limit codec packed items = .ok b) : ∃ frames, b = packed.pushAll frames := by
  induction items generalizing codec packed with
  | nil =>
    cases h
    exact ⟨[], rfl⟩
  | cons item items ih =>
    rw [compressItems] at h
    split at h
    · cases h
    · next frame codec' hframe =>
      obtain ⟨frames, rfl⟩ := ih h
      exact ⟨frame :: frames, rfl⟩

theorem decompressItems_pushed {unpacked : SegmentedBuffer} {index : Nat}
    {frames : List (List UInt8)} (h : decompressItems limit codec unpacked index frames = .ok b) :
    ∃ items, b = unpacked.pushAll items := by
  induction frames generalizing codec unpacked index with
  | nil =>
    cases h
    exact ⟨[], rfl⟩
  | cons frame frames ih =>
    rw [decompressItems] at h
    split at h
    · cases h
    · next item codec' hitem =>
      obtain ⟨items, rfl⟩ := ih h
      exact ⟨item :: items, rfl⟩

theorem compressBatch_pushed {items : List (List UInt8)}
    (h : compressBatch limit codec items = .ok b) :
    ∃ frames, b = SegmentedBuffer.empty.pushAll frames := by
  unfold compressBatch at h
  split at h
  · cases h
  · next packed hpacked =>
    split at h
    · cases h
    · split at h
      · cases h
      · cases h
        exact compressItems_pushed hpacked

theorem decompressBatch_pushed {frames : List (List UInt8)}
    (h : decompressBatch limit codec frames = .ok b) :
    ∃ items, b = SegmentedBuffer.empty.pushAll items := by
  unfold decompressBatch at h
  split at h
  · cases h
  · next unpacked hunpacked =>
    split at h
    · cases h
    · cases h
      exact decompressItems_pushed hunpacked

end Sluice
