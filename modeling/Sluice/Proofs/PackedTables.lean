import Sluice.Proofs.SegmentBounds

/-!
# Packed tables

The packed form of a table and the table say the same. Every table has a packed form, every whole
number of records is the packed form of one table, and so a buffer shows the very table it was made
of, and can be made again from what it shows.

* `LittleEndian.getElem?_toBytes` — the bytes of a number are its digits, the least significant first.
* `Segment.ofRecords_encodeTable`, `Segment.encodeTable_ofRecords` — the two directions.
* `SegmentedBuffer.ofTable_table` — a buffer made again, from its memory and its packed table.
* `SegmentedBuffer.packed_tables` — the format, both directions, and what follows for buffers.
-/

namespace Sluice

/-! ## Numbers -/

namespace LittleEndian

theorem getElem?_toBytes {count index : Nat} (value : Nat) (h : index < count) :
    (toBytes count value)[index]? = some (UInt8.ofNat (value >>> (8 * index))) := by
  induction count generalizing value index with
  | zero => exact absurd h (Nat.not_lt_zero _)
  | succ count ih =>
    cases index with
    | zero => rfl
    | succ index =>
      have hshift : value >>> (8 * (index + 1)) = (value / 256) >>> (8 * index) := by
        rw [Nat.mul_succ, Nat.add_comm, Nat.shiftRight_add, Nat.shiftRight_eq_div_pow value 8]
      rw [toBytes, List.getElem?_cons_succ, ih _ (Nat.lt_of_succ_lt_succ h), hshift]

/-- Eight bytes are a word. -/
theorem values_eight : values 8 = UInt64.size := rfl

theorem ofNat_ofBytes_toBytes (word : UInt64) :
    UInt64.ofNat (ofBytes (toBytes 8 word.toNat)) = word := by
  rw [ofBytes_toBytes, values_eight, Nat.mod_eq_of_lt word.toNat_lt, UInt64.ofNat_toNat]

theorem toBytes_ofNat_ofBytes {bytes : List UInt8} (h : bytes.length = 8) :
    toBytes 8 (UInt64.ofNat (ofBytes bytes)).toNat = bytes := by
  have hlt := ofBytes_lt bytes
  rw [h, values_eight] at hlt
  rw [UInt64.toNat_ofNat_of_lt' hlt, ← h, toBytes_ofBytes]

end LittleEndian

/-! ## Tables -/

namespace Segment

theorem length_encode (s : Segment) : s.encode.length = recordSize := by
  rw [encode, List.length_append, LittleEndian.length_toBytes, LittleEndian.length_toBytes,
    recordSize]

/-- A record is read as the segment it was written for, whatever comes behind it. -/
theorem ofRecord_encode (s : Segment) (rest : List UInt8) : ofRecord (s.encode ++ rest) = s := by
  have hlength := LittleEndian.length_toBytes 8
  have hoffset : (s.encode ++ rest).take 8 = LittleEndian.toBytes 8 s.offset.toNat := by
    rw [encode, List.append_assoc, List.take_left' (hlength _)]
  have hrest : ((s.encode ++ rest).drop 8).take 8 = LittleEndian.toBytes 8 s.length.toNat := by
    rw [encode, List.append_assoc, List.drop_left' (hlength _), List.take_left' (hlength _)]
  rw [ofRecord, hoffset, hrest, LittleEndian.ofNat_ofBytes_toBytes,
    LittleEndian.ofNat_ofBytes_toBytes]

/-- A whole record is what is written for the segment it is read as. -/
theorem encode_ofRecord {bytes : List UInt8} (h : recordSize ≤ bytes.length) :
    (ofRecord bytes).encode = bytes.take recordSize := by
  rw [recordSize] at h
  have hoffset : (bytes.take 8).length = 8 := by
    rw [List.length_take]
    omega
  have hlength : ((bytes.drop 8).take 8).length = 8 := by
    rw [List.length_take, List.length_drop]
    omega
  rw [ofRecord, encode, LittleEndian.toBytes_ofNat_ofBytes hoffset,
    LittleEndian.toBytes_ofNat_ofBytes hlength, recordSize, ← List.take_add]

theorem length_encodeTable (segments : List Segment) :
    (encodeTable segments).length = recordSize * segments.length := by
  induction segments with
  | nil => rfl
  | cons s rest ih =>
    rw [encodeTable, List.flatMap_cons, List.length_append, length_encode, ← encodeTable, ih,
      List.length_cons, Nat.mul_succ, Nat.add_comm]

theorem ofRecords_encodeTable (segments : List Segment) :
    ofRecords (encodeTable segments) = segments := by
  induction segments with
  | nil => rw [encodeTable, List.flatMap_nil, ofRecords, dif_pos (by decide)]
  | cons s rest ih =>
    have hlong : ¬ (encodeTable (s :: rest)).length < recordSize := by
      rw [length_encodeTable, List.length_cons, Nat.mul_succ]
      omega
    have hsplit : encodeTable (s :: rest) = s.encode ++ encodeTable rest := rfl
    rw [ofRecords, dif_neg hlong, hsplit, ofRecord_encode, List.drop_left' s.length_encode, ih]

theorem encodeTable_ofRecords {raw : List UInt8} (h : raw.length % recordSize = 0) :
    encodeTable (ofRecords raw) = raw := by
  fun_induction ofRecords raw with
  | case1 raw hshort =>
    rw [Nat.mod_eq_of_lt hshort] at h
    exact (List.eq_nil_of_length_eq_zero h).symm
  | case2 raw hlong ih =>
    have hle : recordSize ≤ raw.length := Nat.le_of_not_lt hlong
    have hrest : (raw.drop recordSize).length % recordSize = 0 := by
      rw [List.length_drop, ← Nat.mod_eq_sub_mod hle, h]
    rw [encodeTable, List.flatMap_cons, encode_ofRecord hle, ← encodeTable, ih hrest,
      List.take_append_drop]

theorem parseTable_encodeTable (segments : List Segment) :
    parseTable (encodeTable segments) = .ok segments := by
  have hwhole : (encodeTable segments).length % recordSize = 0 := by
    rw [length_encodeTable, Nat.mul_mod_right]
  rw [parseTable, if_pos hwhole, ofRecords_encodeTable]

/-- The bytes of one record are in the packed table where its index says. -/
theorem record_encodeTable {segments : List Segment} {index : Nat} {s : Segment}
    (h : segments[index]? = some s) : record (encodeTable segments) index = s.encode := by
  induction segments generalizing index with
  | nil => cases h
  | cons first rest ih =>
    have hsplit : encodeTable (first :: rest) = first.encode ++ encodeTable rest := rfl
    cases index with
    | zero =>
      obtain rfl : first = s := by simpa using h
      rw [hsplit, record, Nat.mul_zero, List.drop_zero, List.take_left' first.length_encode]
    | succ index =>
      rw [← ih (by simpa using h), record, record, hsplit, Nat.mul_succ, Nat.add_comm,
        ← List.drop_drop, List.drop_left' first.length_encode]

/-- Where the digits of a segment's two numbers are in a packed table. -/
theorem getElem?_encodeTable {segments : List Segment} {index digit : Nat} {s : Segment}
    (h : segments[index]? = some s) (hdigit : digit < 8) :
    (encodeTable segments)[16 * index + digit]? =
        some (UInt8.ofNat (s.offset.toNat >>> (8 * digit))) ∧
      (encodeTable segments)[16 * index + 8 + digit]? =
        some (UInt8.ofNat (s.length.toNat >>> (8 * digit))) := by
  have hlength := LittleEndian.length_toBytes 8
  have hrecord : ∀ k < 16, (encodeTable segments)[16 * index + k]? = s.encode[k]? := by
    intro k hk
    rw [← record_encodeTable h, record, recordSize, List.getElem?_take_of_lt hk,
      List.getElem?_drop]
  constructor
  · rw [hrecord digit (by omega), encode, List.getElem?_append_left (by rwa [hlength]),
      LittleEndian.getElem?_toBytes _ hdigit]
  · rw [Nat.add_assoc, hrecord (8 + digit) (by omega), encode,
      List.getElem?_append_right (by rw [hlength]; omega), hlength, Nat.add_sub_cancel_left,
      LittleEndian.getElem?_toBytes _ hdigit]

end Segment

/-! ## Buffers -/

namespace SegmentedBuffer

/-- A buffer shows the very table it was made of. -/
theorem table_of_ofTable {bytes table : List UInt8} {b : SegmentedBuffer}
    (h : ofTable bytes table = .ok b) : b.table = table := by
  by_cases hwhole : table.length % Segment.recordSize = 0
  · rw [ofTable_whole hwhole] at h
    rw [eq_of_ofSegments h]
    exact Segment.encodeTable_ofRecords hwhole
  · rw [ofTable_ragged hwhole] at h
    cases h

/-- A buffer whose segments lie within it can be made again from what it shows. -/
theorem ofTable_table {b : SegmentedBuffer} (hwithin : ∀ s ∈ b.segments, s.Within b.size)
    (hsize : b.size < UInt64.size) :
    ofTable b.backing.bytes.toList b.table = .ok ⟨⟨b.backing.bytes, false⟩, b.segments⟩ := by
  have hall : ∀ s ∈ b.segments.toList, s.Within b.backing.bytes.size :=
    fun s hs => hwithin s (Array.mem_toList_iff.1 hs)
  have hadmits : Admits ⟨b.backing.bytes, false⟩ b.segments.toList _ := admits_ofSegments hsize
  rw [ofTable, table, Segment.parseTable_encodeTable, Array.toArray_toList]
  exact hadmits.accepts.2 hall

/-- Who owns the memory has no influence on the views. -/
theorem views_borrowed (b : SegmentedBuffer) :
    (∀ index, itemAt ⟨⟨b.backing.bytes, false⟩, b.segments⟩ index = b.itemAt index) ∧
      items ⟨⟨b.backing.bytes, false⟩, b.segments⟩ = b.items :=
  ⟨fun _ => rfl, rfl⟩

/-- A packed table holds 16 bytes for each segment, the digits of its offset and then those of its
length. Packing and parsing undo each other, and only a table that is no whole number of records is
refused. So a buffer that was made of a packed table shows that table, and every buffer that memory
has room for can be made again from its memory and its table, with the same segments and views. -/
theorem packed_tables :
    (∀ segments : List Segment,
      (Segment.encodeTable segments).length = 16 * segments.length ∧
      (∀ index s, segments[index]? = some s → ∀ digit < 8,
        (Segment.encodeTable segments)[16 * index + digit]? =
            some (UInt8.ofNat (s.offset.toNat >>> (8 * digit))) ∧
          (Segment.encodeTable segments)[16 * index + 8 + digit]? =
            some (UInt8.ofNat (s.length.toNat >>> (8 * digit)))) ∧
      Segment.parseTable (Segment.encodeTable segments) = .ok segments) ∧
    (∀ raw : List UInt8,
      ((∃ cause, Segment.parseTable raw = .error (.misuse cause)) ↔ raw.length % 16 ≠ 0) ∧
      (raw.length % 16 = 0 → ∃ segments, Segment.parseTable raw = .ok segments ∧
        Segment.encodeTable segments = raw)) ∧
    (∀ (bytes raw : List UInt8) (b : SegmentedBuffer), ofTable bytes raw = .ok b →
      b.table = raw) ∧
    ∀ b : SegmentedBuffer, b.Obtained → b.size < UInt64.size →
      ∃ again, ofTable b.backing.bytes.toList b.table = .ok again ∧
        again.backing.bytes = b.backing.bytes ∧ again.segments = b.segments ∧
        (∀ index, again.itemAt index = b.itemAt index) ∧ again.items = b.items := by
  refine ⟨fun segments => ?_, fun raw => ?_, fun bytes raw b => table_of_ofTable,
    fun b hb hsize => ?_⟩
  · exact ⟨Segment.length_encodeTable segments, fun index s h digit => Segment.getElem?_encodeTable h,
      Segment.parseTable_encodeTable segments⟩
  · by_cases hwhole : raw.length % 16 = 0
    · have hparse : Segment.parseTable raw = .ok (Segment.ofRecords raw) := if_pos hwhole
      refine ⟨?_, fun _ => ⟨_, hparse, Segment.encodeTable_ofRecords hwhole⟩⟩
      simp [hparse, hwhole]
    · have hparse : Segment.parseTable raw = .error (.misuse (.raggedTable 16)) := if_neg hwhole
      exact ⟨⟨fun _ => hwhole, fun _ => ⟨_, hparse⟩⟩, fun h => absurd h hwhole⟩
  · obtain ⟨hitem, hitems⟩ := views_borrowed b
    exact ⟨_, ofTable_table (hb.within hsize) hsize, rfl, rfl, hitem, hitems⟩

/-- Two segments whose numbers have other digits at each place; a table that is cut off; the buffer
of a batch. -/
theorem packed_tables_two_segments :
    let segments : List Segment := [⟨0x0102030405060708, 3⟩, ⟨1, 0xF0E0D0C0B0A09080⟩]
    Segment.encodeTable segments =
      [8, 7, 6, 5, 4, 3, 2, 1, 3, 0, 0, 0, 0, 0, 0, 0,
        1, 0, 0, 0, 0, 0, 0, 0, 0x80, 0x90, 0xA0, 0xB0, 0xC0, 0xD0, 0xE0, 0xF0] ∧
    Segment.parseTable (Segment.encodeTable segments) = .ok segments ∧
    (∃ cause, Segment.parseTable (List.replicate 17 0) = .error (.misuse cause)) ∧
    (∃ b, ofTable [10, 11, 12] (Segment.encodeTable [⟨1, 2⟩]) = .ok b ∧
      b.table = Segment.encodeTable [⟨1, 2⟩]) ∧
    ∃ b again, compressBatch 16 Stored.stored [[10, 11], [], [12, 13]] = .ok b ∧
      ofTable b.backing.bytes.toList b.table = .ok again ∧ again.items = b.items := by
  intro segments
  obtain ⟨hforth, hback, htable, hagain⟩ := packed_tables
  have hmade : ofTable [10, 11, 12] (Segment.encodeTable [⟨1, 2⟩]) =
      .ok ⟨⟨#[10, 11, 12], false⟩, #[⟨1, 2⟩]⟩ := by cbv
  have hbatch : compressBatch 16 Stored.stored [[10, 11], [], [12, 13]] =
      .ok ⟨⟨#[10, 11, 12, 13], true⟩, #[⟨0, 2⟩, ⟨2, 0⟩, ⟨2, 2⟩]⟩ := by cbv
  obtain ⟨again, hok, -, -, -, hitems⟩ := hagain _ (.compressed hbatch) (by decide)
  exact ⟨by cbv, (hforth segments).2.2, (hback _).1.2 (by decide), ⟨_, hmade, htable _ _ _ hmade⟩,
    _, again, hbatch, hok, hitems⟩

end SegmentedBuffer

end Sluice
