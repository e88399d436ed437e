import Sluice.Stored
import Sluice.Proofs.Tiling

/-!
# Segments stay within their memory

A table of segments is untrusted, and it is checked once. Memory is never larger than a word can
count, so a segment passes the check exactly if it lies within the memory with its numbers taken as
they are (`Segment.fits_iff`), and then its end, added up in words without another check, is the
sum.

* `SegmentedBuffer.Admits` — what a constructor has to answer for memory and a list of segments.
* `SegmentedBuffer.Obtained` — the ways to a buffer: the checked constructors and the batches.
* `SegmentedBuffer.Addressable` — every index of a buffer has its bytes, and no other index has any.
* `SegmentedBuffer.admits_and_addressable` — the constructors answer so, and there is no way to a
  buffer that is not addressable.
-/

namespace Sluice

namespace Segment

variable {s : Segment} {size : Nat}

theorem end?_eq_some_iff {stop : UInt64} :
    s.end? = some stop ↔ s.offset.toNat + s.length.toNat = stop.toNat := by
  have hlt := stop.toNat_lt
  simp only [end?, UInt64.size]
  split
  · next h =>
    rw [Option.some.injEq, ← UInt64.toNat_inj, UInt64.toNat_ofNat_of_lt' h]
  · next h =>
    simp only [reduceCtorEq, false_iff]
    omega

/-- The check in words says what it should about the numbers: no sum passes by wrapping around. -/
theorem fits_iff (hsize : size < UInt64.size) : s.fits size = true ↔ s.Within size := by
  unfold fits Within
  split
  · next stop hstop => rw [end?_eq_some_iff.1 hstop, decide_eq_true_iff]
  · next hstop =>
    simp only [Bool.false_eq_true, false_iff]
    intro hle
    have hword : (UInt64.ofNat (s.offset.toNat + s.length.toNat)).toNat = _ :=
      UInt64.toNat_ofNat_of_lt' (Nat.lt_of_le_of_lt hle hsize)
    rw [end?_eq_some_iff.2 hword.symm] at hstop
    cases hstop

/-- The end of a segment that lies within memory, added up in words. -/
theorem Within.toNat_add (h : s.Within size) (hsize : size < UInt64.size) :
    (s.offset + s.length).toNat = s.offset.toNat + s.length.toNat := by
  rw [UInt64.toNat_add]
  exact Nat.mod_eq_of_lt (Nat.lt_of_le_of_lt h hsize)

/-- The record with the given index in a packed table. -/
def record (table : List UInt8) (index : Nat) : List UInt8 :=
  (table.drop (recordSize * index)).take recordSize

theorem ofRecord_take (bytes : List UInt8) : ofRecord (bytes.take recordSize) = ofRecord bytes := by
  simp [ofRecord, recordSize, List.take_take, List.drop_take]

/-- A packed table is read record by record. -/
theorem ofRecords_eq (table : List UInt8) :
    ofRecords table =
      (List.range (table.length / recordSize)).map fun index => ofRecord (record table index) := by
  fun_induction ofRecords table with
  | case1 table hshort => simp [Nat.div_eq_of_lt hshort]
  | case2 table hlong ih =>
    have hcount : table.length / recordSize = (table.drop recordSize).length / recordSize + 1 := by
      rw [List.length_drop]
      simp only [recordSize] at hlong ⊢
      omega
    rw [hcount, List.range_succ_eq_map, List.map_cons, List.map_map, ih]
    congr 1
    · exact (ofRecord_take table).symm
    · refine List.map_congr_left fun index _ => ?_
      rw [Function.comp_apply, record, record, List.drop_drop, Nat.mul_succ, Nat.add_comm]

end Segment

namespace SegmentedBuffer

/-! ## The check -/

variable {backing : Backing} {segments : List Segment} {size : Nat}

theorem firstOverreach_eq_none (index : Nat) (h : ∀ s ∈ segments, s.fits size = true) :
    firstOverreach size index segments = none := by
  induction segments generalizing index with
  | nil => rfl
  | cons s rest ih =>
    rw [firstOverreach, if_pos (h s List.mem_cons_self)]
    exact ih (index + 1) fun t ht => h t (List.mem_cons_of_mem s ht)

theorem firstOverreach_append {before rest : List Segment} {s : Segment} (index : Nat)
    (hbefore : ∀ t ∈ before, t.fits size = true) (hs : ¬ s.fits size = true) :
    firstOverreach size index (before ++ s :: rest) = some (index + before.length, s) := by
  induction before generalizing index with
  | nil => rw [List.nil_append, firstOverreach, if_neg hs, List.length_nil, Nat.add_zero]
  | cons t before ih =>
    rw [List.cons_append, firstOverreach, if_pos (hbefore t List.mem_cons_self),
      ih (index + 1) fun t ht => hbefore t (List.mem_cons_of_mem _ ht), List.length_cons,
      Nat.add_assoc, Nat.add_comm 1]

/-- The answer for memory and segments: the buffer if all of them lie within, and otherwise the
first one that does not, by its index and its numbers. -/
structure Admits (backing : Backing) (segments : List Segment)
    (answer : Except Failure SegmentedBuffer) : Prop where
  accepts : answer = .ok ⟨backing, segments.toArray⟩ ↔ ∀ s ∈ segments, s.Within backing.bytes.size
  rejects {before rest : List Segment} {s : Segment} : segments = before ++ s :: rest →
    (∀ t ∈ before, t.Within backing.bytes.size) → ¬ s.Within backing.bytes.size →
    answer = .error (.bounds (.segment before.length s.offset.toNat s.length.toNat
      backing.bytes.size))

/-- If not everything in a list passes, then something is the first not to. -/
theorem exists_first_not {P : Segment → Prop} (h : ¬ ∀ s ∈ segments, P s) :
    ∃ before s rest, segments = before ++ s :: rest ∧ (∀ t ∈ before, P t) ∧ ¬ P s := by
  induction segments with
  | nil => exact absurd (by simp) h
  | cons s segments ih =>
    by_cases hs : P s
    · have hrest : ¬ ∀ t ∈ segments, P t := fun hall => h (by simpa [hs] using hall)
      obtain ⟨before, t, rest, rfl, hbefore, ht⟩ := ih hrest
      exact ⟨s :: before, t, rest, rfl, by simpa [hs] using hbefore, ht⟩
    · exact ⟨[], s, segments, rfl, by simp, hs⟩

theorem admits_ofSegments (hsize : backing.bytes.size < UInt64.size) :
    Admits backing segments (ofSegments backing segments) := by
  have hfits (s : Segment) := Segment.fits_iff (s := s) hsize
  have hrejects {before rest : List Segment} {s : Segment}
      (h : segments = before ++ s :: rest) (hbefore : ∀ t ∈ before, t.Within backing.bytes.size)
      (hs : ¬ s.Within backing.bytes.size) : ofSegments backing segments =
        .error (.bounds (.segment before.length s.offset.toNat s.length.toNat
          backing.bytes.size)) := by
    have hfirst : firstOverreach backing.bytes.size 0 segments = some (before.length, s) := by
      rw [h, firstOverreach_append 0 (fun t ht => (hfits t).2 (hbefore t ht)) (mt (hfits s).1 hs),
        Nat.zero_add]
    rw [ofSegments, hfirst]
  refine ⟨⟨fun hok => ?_, fun hall => ?_⟩, hrejects⟩
  · refine Decidable.byContradiction fun hnot => ?_
    obtain ⟨before, s, rest, h, hbefore, hs⟩ := exists_first_not hnot
    rw [hrejects h hbefore hs] at hok
    cases hok
  · rw [ofSegments, firstOverreach_eq_none 0 fun s hs => (hfits s).2 (hall s hs)]

/-- A table that is no whole number of records is refused, whatever is in it. -/
theorem ofTable_ragged {bytes table : List UInt8} (h : table.length % Segment.recordSize ≠ 0) :
    ofTable bytes table = .error (.misuse (.raggedTable Segment.recordSize)) := by
  rw [ofTable, Segment.parseTable, if_neg h]

theorem ofTable_whole {bytes table : List UInt8} (h : table.length % Segment.recordSize = 0) :
    ofTable bytes table = ofSegments ⟨bytes.toArray, false⟩ (Segment.ofRecords table) := by
  rw [ofTable, Segment.parseTable, if_pos h]

/-! ## The views -/

/-- No index of the buffer leads outside of its memory, and none is left out. -/
structure Addressable (b : SegmentedBuffer) : Prop where
  /-- an index is refused exactly if there are not as many segments -/
  outside (index : Nat) : b.itemAt index = .error (.indexOutOfRange index b.length) ↔
    b.length ≤ index
  /-- every other index has the bytes of its segment: all of them are there, and the words that say
  where they end have not wrapped around -/
  inside {index : Nat} {s : Segment} : b.segments[index]? = some s →
    s.Within b.size ∧ (s.offset + s.length).toNat = s.offset.toNat + s.length.toNat ∧
    ∃ view, b.itemAt index = .ok view ∧ view.offset = s.offset ∧
      view.bytes = (b.backing.bytes.toList.drop s.offset.toNat).take s.length.toNat ∧
      view.bytes.length = s.length.toNat
  /-- the list of all views leaves none out -/
  all : b.items.map Except.ok = (List.range b.length).map b.itemAt

theorem itemAt_eq_ok {b : SegmentedBuffer} {index : Nat} {s : Segment}
    (h : b.segments[index]? = some s) : b.itemAt index = .ok (b.view s) := by
  rw [itemAt, h]

theorem itemAt_eq_error {b : SegmentedBuffer} {index : Nat} (h : b.segments[index]? = none) :
    b.itemAt index = .error (.indexOutOfRange index b.length) := by
  rw [itemAt, h]

theorem bytes_view {b : SegmentedBuffer} {s : Segment} (hs : s.Within b.size)
    (hsize : b.size < UInt64.size) :
    (b.view s).bytes = (b.backing.bytes.toList.drop s.offset.toNat).take s.length.toNat := by
  simp only [view, hs.toNat_add hsize, Array.toList_extract, List.extract_eq_take_drop,
    Nat.add_sub_cancel_left]

theorem items_eq (b : SegmentedBuffer) :
    b.items.map Except.ok = (List.range b.length).map b.itemAt := by
  have hstep : ∀ indices : List Nat, (∀ index ∈ indices, index < b.length) →
      (indices.filterMap fun index => (b.itemAt index).toOption).map Except.ok =
        indices.map b.itemAt := by
    intro indices hindices
    induction indices with
    | nil => rfl
    | cons index indices ih =>
      have hindex : index < b.segments.size := hindices index List.mem_cons_self
      have hitem := itemAt_eq_ok (Array.getElem?_eq_getElem hindex)
      rw [List.filterMap_cons, hitem, List.map_cons, hitem,
        ← ih fun i hi => hindices i (List.mem_cons_of_mem index hi)]
      rfl
  exact hstep _ fun index hindex => List.mem_range.1 hindex

theorem addressable {b : SegmentedBuffer} (hsize : b.size < UInt64.size)
    (hwithin : ∀ s ∈ b.segments, s.Within b.size) : b.Addressable := by
  refine ⟨fun index => ⟨fun h => ?_, fun h => ?_⟩, fun {index s} h => ?_, items_eq b⟩
  · refine Nat.le_of_not_lt fun hindex => ?_
    rw [itemAt_eq_ok (Array.getElem?_eq_getElem hindex)] at h
    cases h
  · exact itemAt_eq_error (Array.getElem?_eq_none h)
  · have hs : s.Within b.size := hwithin s (Array.mem_of_getElem? h)
    have hbytes := bytes_view hs hsize
    refine ⟨hs, hs.toNat_add hsize, b.view s, itemAt_eq_ok h, rfl, hbytes, ?_⟩
    have hle : s.offset.toNat + s.length.toNat ≤ b.backing.bytes.size := hs
    rw [hbytes, List.length_take, List.length_drop, Array.length_toList]
    omega

/-! ## The ways to a buffer -/

/-- A buffer somebody can have: out of a checked constructor, or out of a batch. -/
inductive Obtained : SegmentedBuffer → Prop
  | ofTable {bytes table : List UInt8} {b : SegmentedBuffer} :
    SegmentedBuffer.ofTable bytes table = .ok b → Obtained b
  | ofSegments {backing : Backing} {segments : List Segment} {b : SegmentedBuffer} :
    SegmentedBuffer.ofSegments backing segments = .ok b → Obtained b
  | compressed {σ : Type} [Codec σ] {limit : Nat} {codec : σ} {items : List (List UInt8)}
    {b : SegmentedBuffer} : compressBatch limit codec items = .ok b → Obtained b
  | decompressed {σ : Type} [Codec σ] {limit : Nat} {codec : σ} {frames : List (List UInt8)}
    {b : SegmentedBuffer} : decompressBatch limit codec frames = .ok b → Obtained b

/-- A checked buffer has the memory and the segments it was asked for. -/
theorem eq_of_ofSegments {b : SegmentedBuffer} (h : ofSegments backing segments = .ok b) :
    b = ⟨backing, segments.toArray⟩ := by
  simp only [ofSegments] at h
  split at h
  · exact (Except.ok.inj h).symm
  · cases h

/-- Its segments lie within it. -/
theorem within_of_ofSegments {b : SegmentedBuffer} (h : ofSegments backing segments = .ok b)
    (hsize : b.size < UInt64.size) : ∀ s ∈ b.segments, s.Within b.size := by
  obtain rfl := eq_of_ofSegments h
  have hall : ∀ s ∈ segments, s.Within backing.bytes.size :=
    (admits_ofSegments hsize).accepts.1 h
  exact fun s hs => hall s (List.mem_toArray.1 hs)

theorem Obtained.within {b : SegmentedBuffer} (h : b.Obtained) (hsize : b.size < UInt64.size) :
    ∀ s ∈ b.segments, s.Within b.size := by
  cases h with
  | @ofTable bytes table _ h =>
    by_cases hwhole : table.length % Segment.recordSize = 0
    · rw [ofTable_whole hwhole] at h
      exact within_of_ofSegments h hsize
    · rw [ofTable_ragged hwhole] at h
      cases h
  | ofSegments h => exact within_of_ofSegments h hsize
  | compressed h =>
    obtain ⟨frames, rfl⟩ := compressBatch_pushed h
    exact fun s hs => (tiled_pushAll hsize).within hs
  | decompressed h =>
    obtain ⟨items, rfl⟩ := decompressBatch_pushed h
    exact fun s hs => (tiled_pushAll hsize).within hs

/-- Over memory that is no larger than a word can count: the checked constructors answer for
exactly the segments that lie within it, a packed table having been read record by record; and a
buffer that has come from anywhere can be addressed without a check. -/
theorem admits_and_addressable {bytes : Array UInt8} (hsize : bytes.size < UInt64.size) :
    (∀ owned segments, Admits ⟨bytes, owned⟩ segments (ofSegments ⟨bytes, owned⟩ segments)) ∧
    (∀ table : List UInt8,
      if table.length % 16 = 0 then
        Admits ⟨bytes, false⟩
          ((List.range (table.length / 16)).map fun index =>
            Segment.ofRecord (Segment.record table index))
          (ofTable bytes.toList table)
      else ofTable bytes.toList table = .error (.misuse (.raggedTable 16))) ∧
    ∀ b : SegmentedBuffer, b.Obtained → b.backing.bytes = bytes → b.Addressable := by
  refine ⟨fun owned segments => admits_ofSegments hsize, fun table => ?_, fun b hb hbytes => ?_⟩
  · split
    · next hwhole =>
      have htable := Segment.ofRecords_eq table
      rw [Segment.recordSize] at htable
      rw [ofTable_whole hwhole, Array.toArray_toList, htable]
      exact admits_ofSegments hsize
    · next hragged => exact ofTable_ragged hragged
  · have hb_size : b.size < UInt64.size := by rwa [size, hbytes]
    exact addressable hb_size (hb.within hb_size)

/-- Over four bytes: no bytes at the end are a segment, an end that wraps around to 1 is not, a
record may not be cut off, and a batch can be addressed. -/
theorem admits_and_addressable_four_bytes :
    let bytes : Array UInt8 := #[10, 11, 12, 13]
    bytes.size < UInt64.size ∧
    ofSegments ⟨bytes, true⟩ [⟨4, 0⟩, ⟨1, 3⟩] = .ok ⟨⟨bytes, true⟩, #[⟨4, 0⟩, ⟨1, 3⟩]⟩ ∧
    ofSegments ⟨bytes, true⟩ [⟨0, 4⟩, ⟨18446744073709551615, 2⟩] =
      .error (.bounds (.segment 1 18446744073709551615 2 4)) ∧
    ofTable bytes.toList (List.replicate 17 0) = .error (.misuse (.raggedTable 16)) ∧
    ∃ b, compressBatch 16 Stored.stored [[10, 11], [], [12, 13]] = .ok b ∧
      b.backing.bytes = bytes ∧ b.Addressable := by
  intro bytes
  have hsize : bytes.size < UInt64.size := by decide
  obtain ⟨hsegments, htable, hobtained⟩ := admits_and_addressable hsize
  have hbatch : compressBatch 16 Stored.stored [[10, 11], [], [12, 13]] =
      .ok ⟨⟨bytes, true⟩, #[⟨0, 2⟩, ⟨2, 0⟩, ⟨2, 2⟩]⟩ := by cbv
  have hwrap := @(hsegments true _).rejects [⟨0, 4⟩] [] ⟨18446744073709551615, 2⟩ rfl
    (by decide) (by decide)
  exact ⟨hsize, (hsegments true _).accepts.2 (by decide),
    hwrap,
    htable (List.replicate 17 0), _, hbatch, rfl, hobtained _ (.compressed hbatch) rfl⟩

end SegmentedBuffer

end Sluice
