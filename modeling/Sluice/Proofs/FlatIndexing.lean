import Mathlib.Algebra.GroupWithZero.Nat
import Sluice.Proofs.SegmentBounds
import Sluice.Segment.Collection

/-!
# Collections are indexed like one list

A collection does not put the segment lists of its buffers together, but it is indexed as if it did.
The running totals of the segment counts get larger with every buffer, so that a binary search finds
the one buffer that an index leads to.

* `countUpTo_eq` — the search finds the place where the entries get larger than the index.
* `SegmentedBuffer.placed` — the segments of several buffers in a row, each with its buffer.
* `BufferCollection.Flattens` — what it means to be indexed like that list.
* `BufferCollection.flattens` — every collection is.
-/

namespace Sluice

/-- The search finds the place where the entries get larger than the index, if there is only one such
place. -/
theorem countUpTo_eq {ends : Array Nat} {index place lo hi : Nat}
    (hbefore : ∀ j < place, ends.getD j 0 ≤ index)
    (hbehind : ∀ j, place ≤ j → j < hi → index < ends.getD j 0) (hlo : lo ≤ place)
    (hhi : place ≤ hi) : countUpTo ends index lo hi = place := by
  fun_induction countUpTo ends index lo hi with
  | case1 lo hi hlt mid hle ih =>
    have hmid : mid < place := Nat.lt_of_not_le fun hplace =>
      Nat.not_lt.2 hle (hbehind mid hplace (by omega))
    exact ih hbehind hmid hhi
  | case2 lo hi hlt mid hnot ih =>
    have hmid : place ≤ mid := Nat.le_of_not_lt fun hplace => hnot (hbefore mid hplace)
    exact ih (fun j hj hlt => hbehind j hj (by omega)) hlo hmid
  | case3 lo hi hnot => omega

namespace SegmentedBuffer

variable {buffers before after : List SegmentedBuffer} {b : SegmentedBuffer} {index : Nat}

/-! ## Buffers in a row -/

/-- The number of segments of some buffers. -/
def segmentCount (buffers : List SegmentedBuffer) : Nat := (buffers.map length).sum

/-- The segment lists of some buffers put together; every segment comes with the buffer it is in. -/
def placed (buffers : List SegmentedBuffer) : List (SegmentedBuffer × Segment) :=
  buffers.flatMap fun b => b.segments.toList.map (b, ·)

theorem segmentCount_cons (b : SegmentedBuffer) (buffers : List SegmentedBuffer) :
    segmentCount (b :: buffers) = b.length + segmentCount buffers := List.sum_cons

theorem segmentCount_append (before after : List SegmentedBuffer) :
    segmentCount (before ++ after) = segmentCount before + segmentCount after := by
  simp [segmentCount]

theorem length_placed (buffers : List SegmentedBuffer) :
    (placed buffers).length = segmentCount buffers := by
  have hlength : (fun b : SegmentedBuffer => b.segments.size) = length := rfl
  simp [placed, segmentCount, List.length_flatMap, hlength]

/-- More buffers have no fewer segments. -/
theorem segmentCount_take_le {i j : Nat} (h : i ≤ j) :
    segmentCount (buffers.take i) ≤ segmentCount (buffers.take j) := by
  have hsplit : buffers.take j = buffers.take i ++ (buffers.take j).drop i := by
    rw [← Nat.min_eq_left h, ← List.take_take, Nat.min_eq_left h, List.take_append_drop]
  rw [hsplit, segmentCount_append]
  exact Nat.le_add_right ..

/-- Every index leads to one of the buffers. -/
theorem exists_owner (h : index < segmentCount buffers) :
    ∃ before b after, buffers = before ++ b :: after ∧ segmentCount before ≤ index ∧
      index < segmentCount before + b.length := by
  induction buffers generalizing index with
  | nil => exact absurd h (Nat.not_lt_zero _)
  | cons b buffers ih =>
    rw [segmentCount_cons] at h
    by_cases hown : index < b.length
    · exact ⟨[], b, buffers, rfl, Nat.zero_le _, by simpa [segmentCount] using hown⟩
    · have hrest : index - b.length < segmentCount buffers := by omega
      obtain ⟨before, b', after, rfl, hle, hlt⟩ := ih hrest
      refine ⟨b :: before, b', after, rfl, ?_, ?_⟩
      · rw [segmentCount_cons]
        omega
      · rw [segmentCount_cons]
        omega

/-- In the list of all segments, those of a buffer are behind those of the buffers before it. -/
theorem getElem?_placed (hle : segmentCount before ≤ index)
    (hlt : index < segmentCount before + b.length) :
    (placed (before ++ b :: after))[index]? =
      b.segments[index - segmentCount before]?.map (b, ·) := by
  have hown : index - segmentCount before < b.segments.size := by
    rw [length] at hlt
    omega
  rw [placed, List.flatMap_append, List.flatMap_cons, ← placed, ← placed,
    List.getElem?_append_right (by rw [length_placed]; exact hle), length_placed,
    List.getElem?_append_left (by simpa using hown), List.getElem?_map, Array.getElem?_toList]

/-- The views of a buffer are those of its segments. -/
theorem items_eq_map (b : SegmentedBuffer) : b.items = b.segments.toList.map b.view := by
  have hok : ∀ v w : SegmentView, (Except.ok v : Except Failure SegmentView) = .ok w → v = w :=
    fun _ _ => Except.ok.inj
  refine (List.map_inj_right hok).1 ?_
  rw [items_eq, List.map_map]
  refine List.ext_getElem (by simp [length]) fun index hindex _ => ?_
  have hsegment : index < b.segments.size := by simpa [length] using hindex
  simp [itemAt_eq_ok (Array.getElem?_eq_getElem hsegment)]

end SegmentedBuffer

namespace BufferCollection

open SegmentedBuffer (segmentCount placed)

variable {buffers before after : List SegmentedBuffer} {b : SegmentedBuffer} {c : BufferCollection}
  {index : Nat}

/-! ## The running totals -/

theorem length_runningTotals (total : Nat) (buffers : List SegmentedBuffer) :
    (runningTotals total buffers).length = buffers.length := by
  induction buffers generalizing total with
  | nil => rfl
  | cons b buffers ih => rw [runningTotals, List.length_cons, ih, List.length_cons]

/-- The entry of a buffer is the number of segments up to its end. -/
theorem getElem?_runningTotals (total : Nat) (h : index < buffers.length) :
    (runningTotals total buffers)[index]? =
      some (total + segmentCount (buffers.take (index + 1))) := by
  induction buffers generalizing total index with
  | nil => exact absurd h (Nat.not_lt_zero _)
  | cons b buffers ih =>
    rw [runningTotals, List.take_succ_cons, SegmentedBuffer.segmentCount_cons, ← Nat.add_assoc]
    cases index with
    | zero => rfl
    | succ index => exact ih (total + b.length) (Nat.lt_of_succ_lt_succ h)

/-- The totals grow with every buffer that has segments. -/
theorem pairwise_runningTotals (total : Nat) (h : ∀ b ∈ buffers, 0 < b.length) :
    (runningTotals total buffers).Pairwise (· < ·) ∧
      ∀ e ∈ runningTotals total buffers, total < e := by
  induction buffers generalizing total with
  | nil => exact ⟨.nil, nofun⟩
  | cons b buffers ih =>
    obtain ⟨hpairwise, hlt⟩ :=
      ih (total + b.length) fun b' hb' => h b' (List.mem_cons_of_mem b hb')
    have hb := h b List.mem_cons_self
    refine ⟨.cons hlt hpairwise, fun e he => ?_⟩
    rcases List.mem_cons.1 he with rfl | he
    · omega
    · have := hlt e he
      omega

/-! ## Looking up an index -/

/-- The collection of some buffers, whether it is allowed or not. -/
def ofBuffers (buffers : List SegmentedBuffer) : BufferCollection :=
  ⟨buffers.toArray, (runningTotals 0 buffers).toArray⟩

theorem getD_ends (h : index < buffers.length) :
    (ofBuffers buffers).ends.getD index 0 = segmentCount (buffers.take (index + 1)) := by
  rw [Array.getD_eq_getD_getElem?, ofBuffers, List.getElem?_toArray, getElem?_runningTotals 0 h,
    Option.getD_some, Nat.zero_add]

theorem size_ends (buffers : List SegmentedBuffer) :
    (ofBuffers buffers).ends.size = buffers.length := by
  rw [ofBuffers, List.size_toArray, length_runningTotals]

theorem back?_ends (h : buffers ≠ []) :
    (ofBuffers buffers).ends.back? = some (segmentCount buffers) := by
  have hpos := List.length_pos_iff.2 h
  rw [Array.back?_eq_getElem?, size_ends, ofBuffers, List.getElem?_toArray,
    getElem?_runningTotals 0 (by omega), Nat.sub_add_cancel hpos, List.take_length, Nat.zero_add]

theorem length_ofBuffers (h : buffers ≠ []) : (ofBuffers buffers).length = segmentCount buffers := by
  rw [length, back?_ends h, Option.getD_some]

/-- The search finds the buffer that an index leads to. -/
theorem countUpTo_ends (hle : segmentCount before ≤ index)
    (hlt : index < segmentCount before + b.length) :
    countUpTo (ofBuffers (before ++ b :: after)).ends index 0
      (ofBuffers (before ++ b :: after)).ends.size = before.length := by
  have htake : (before ++ b :: after).take before.length = before := List.take_left
  have hnext : (before ++ b :: after).take (before.length + 1) = before ++ [b] := by
    rw [List.take_length_add_append, List.take_succ_cons, List.take_zero]
  refine countUpTo_eq (fun j hj => ?_) (fun j hj hsize => ?_) (Nat.zero_le _) ?_
  · rw [getD_ends (by simp; omega)]
    refine Nat.le_trans (SegmentedBuffer.segmentCount_take_le (Nat.succ_le_of_lt hj)) ?_
    rwa [htake]
  · rw [size_ends] at hsize
    rw [getD_ends hsize]
    refine Nat.lt_of_lt_of_le ?_ (SegmentedBuffer.segmentCount_take_le (Nat.succ_le_succ hj))
    rw [hnext, SegmentedBuffer.segmentCount_append]
    simpa [segmentCount] using hlt
  · rw [size_ends]
    simp

/-- An index is looked up in the buffer that it leads to. -/
theorem itemAt_ofBuffers (hle : segmentCount before ≤ index)
    (hlt : index < segmentCount before + b.length) :
    (ofBuffers (before ++ b :: after)).itemAt index = b.itemAt (index - segmentCount before) := by
  have hlength : ¬ (ofBuffers (before ++ b :: after)).length ≤ index := by
    rw [length_ofBuffers (by simp), SegmentedBuffer.segmentCount_append,
      SegmentedBuffer.segmentCount_cons]
    omega
  have hbefore : (if before.length = 0 then 0
      else (ofBuffers (before ++ b :: after)).ends.getD (before.length - 1) 0) =
        segmentCount before := by
    split
    · next hnil =>
      rw [List.eq_nil_of_length_eq_zero hnil, segmentCount, List.map_nil, List.sum_nil]
    · next hpos =>
      rw [getD_ends (by simp; omega), Nat.sub_add_cancel (Nat.pos_of_ne_zero hpos), List.take_left]
  have howner : (ofBuffers (before ++ b :: after)).buffers[before.length]? = some b := by
    simp [ofBuffers]
  rw [itemAt, if_neg hlength]
  simp only [countUpTo_ends hle hlt, hbefore, howner]

/-! ## One list -/

/-- A collection that is indexed as if the segment lists of `buffers` were one list. -/
structure Flattens (c : BufferCollection) (buffers : List SegmentedBuffer) : Prop where
  list : c.buffers.toList = buffers
  /-- the running totals get larger with every buffer, up to the number of all segments -/
  increasing : c.ends.toList.Pairwise (· < ·)
  total : c.ends.back? = some (placed buffers).length
  length : c.length = (placed buffers).length
  /-- the search selects the buffer that an index below that number leads to, and the index is looked
  up there, behind the segments of the buffers before it -/
  owner {index : Nat} : index < c.length → ∃ before b after, buffers = before ++ b :: after ∧
    countUpTo c.ends index 0 c.ends.size = before.length ∧ segmentCount before ≤ index ∧
    index - segmentCount before < b.length ∧
    c.itemAt index = b.itemAt (index - segmentCount before)
  /-- what is found is the segment of that index in the list, with the bytes that it has in its
  buffer -/
  inside {index : Nat} {b : SegmentedBuffer} {s : Segment} :
    (placed buffers)[index]? = some (b, s) → c.itemAt index =
      .ok ⟨s.offset, (b.backing.bytes.toList.drop s.offset.toNat).take s.length.toNat⟩
  outside {index : Nat} : c.length ≤ index → c.itemAt index = .error (.indexOutOfRange index c.length)
  /-- the list of all views leaves none out -/
  all : c.items.map Except.ok = (List.range c.length).map c.itemAt
  /-- and the size is that of these views -/
  size : c.size = (c.items.map fun view => view.bytes.length).sum

/-- A collection can be made of some buffers, and of nothing else. -/
theorem ofList_eq_ok_iff : ofList buffers = .ok c ↔
    (buffers ≠ [] ∧ ∀ b ∈ buffers, 0 < b.length ∧ 0 < b.size) ∧ c = ofBuffers buffers := by
  unfold ofList
  split
  · next hnil => simp [hnil]
  · next hne =>
    split
    · next hempty =>
      obtain ⟨b, hb, hzero⟩ := List.any_eq_true.1 hempty
      simp only [reduceCtorEq, false_iff]
      rintro ⟨⟨-, hfull⟩, -⟩
      have := hfull b hb
      simp only [Bool.or_eq_true, beq_iff_eq] at hzero
      omega
    · next hnone =>
      have hfull : ∀ b ∈ buffers, 0 < b.length ∧ 0 < b.size := by
        intro b hb
        have := List.any_eq_false.1 (Bool.eq_false_iff.2 hnone) b hb
        simp only [Bool.or_eq_true, beq_iff_eq] at this
        omega
      rw [Except.ok.injEq, eq_comm (b := c)]
      exact ⟨fun h => ⟨⟨hne, hfull⟩, h⟩, And.right⟩

/-- Looking up an index in the collection is looking it up in the list of all segments. -/
theorem itemAt_eq_ok {s : Segment} (h : (placed buffers)[index]? = some (b, s)) :
    (ofBuffers buffers).itemAt index = .ok (b.view s) := by
  have hlt : index < segmentCount buffers := by
    rw [← SegmentedBuffer.length_placed]
    exact (List.getElem?_eq_some_iff.1 h).1
  obtain ⟨before, b', after, rfl, hle, hlt⟩ := SegmentedBuffer.exists_owner hlt
  rw [SegmentedBuffer.getElem?_placed hle hlt, Option.map_eq_some_iff] at h
  obtain ⟨s', hs', hpair⟩ := h
  obtain ⟨rfl, rfl⟩ := Prod.mk.inj hpair
  rw [itemAt_ofBuffers hle hlt, SegmentedBuffer.itemAt_eq_ok hs']

theorem items_ofBuffers (buffers : List SegmentedBuffer) :
    (ofBuffers buffers).items = (placed buffers).map fun p => p.1.view p.2 := by
  have hitems : SegmentedBuffer.items =
      fun b => (b.segments.toList.map (b, ·)).map fun p => p.1.view p.2 := by
    funext b
    rw [SegmentedBuffer.items_eq_map, List.map_map]
    rfl
  rw [items, placed, List.map_flatMap, hitems, ofBuffers]

theorem mem_of_mem_placed {s : Segment} (h : (b, s) ∈ placed buffers) :
    b ∈ buffers ∧ s ∈ b.segments := by
  obtain ⟨b', hb', hs⟩ := List.mem_flatMap.1 h
  obtain ⟨s', hs', hpair⟩ := List.mem_map.1 hs
  obtain ⟨rfl, rfl⟩ := Prod.mk.inj hpair
  exact ⟨hb', Array.mem_toList_iff.1 hs'⟩

/-- The size of a collection is that of its views, if all segments lie within their buffers. -/
theorem size_ofBuffers (hwithin : ∀ b ∈ buffers, ∀ s ∈ b.segments, s.Within b.size)
    (hsize : ∀ b ∈ buffers, b.size < UInt64.size) :
    (ofBuffers buffers).size =
      ((ofBuffers buffers).items.map fun view => view.bytes.length).sum := by
  have hlengths : (ofBuffers buffers).size =
      ((placed buffers).map fun p => p.2.length.toNat).sum := by
    simp only [size, ofBuffers, placed, List.map_flatMap, List.map_map, List.sum]
    rfl
  rw [hlengths, items_ofBuffers, List.map_map]
  congr 1
  refine List.map_congr_left fun p hp => ?_
  obtain ⟨b, s⟩ := p
  obtain ⟨hb, hs⟩ := mem_of_mem_placed hp
  have hle : s.offset.toNat + s.length.toNat ≤ b.backing.bytes.size := hwithin b hb s hs
  have hbytes := congrArg List.length (SegmentedBuffer.bytes_view (hwithin b hb s hs) (hsize b hb))
  rw [List.length_take, List.length_drop, Array.length_toList, Nat.min_eq_left (by omega)] at hbytes
  exact hbytes.symm

/-- Collections can be made of the buffers that have segments and bytes, at least one of them, and
they are indexed like the list of all their segments. -/
theorem flattens (hobtained : ∀ b ∈ buffers, b.Obtained)
    (hsize : ∀ b ∈ buffers, b.size < UInt64.size) :
    ((∃ c, ofList buffers = .ok c) ↔
      buffers ≠ [] ∧ ∀ b ∈ buffers, 0 < b.length ∧ 0 < b.size) ∧
    ∀ c, ofList buffers = .ok c → c.Flattens buffers := by
  refine ⟨⟨fun ⟨c, h⟩ => (ofList_eq_ok_iff.1 h).1, fun h => ⟨_, ofList_eq_ok_iff.2 ⟨h, rfl⟩⟩⟩, ?_⟩
  intro c hc
  obtain ⟨⟨hne, hfull⟩, rfl⟩ := ofList_eq_ok_iff.1 hc
  have hwithin : ∀ b ∈ buffers, ∀ s ∈ b.segments, s.Within b.size :=
    fun b hb => (hobtained b hb).within (hsize b hb)
  have hlength := length_ofBuffers hne
  have hplaced := SegmentedBuffer.length_placed buffers
  constructor
  case list => rfl
  case increasing => exact (pairwise_runningTotals 0 fun b hb => (hfull b hb).1).1
  case total => rw [back?_ends hne, hplaced]
  case length => rw [hlength, hplaced]
  case owner =>
    intro index hindex
    obtain ⟨before, b, after, rfl, hle, hlt⟩ := SegmentedBuffer.exists_owner (hlength ▸ hindex)
    exact ⟨before, b, after, rfl, countUpTo_ends hle hlt, hle, by omega, itemAt_ofBuffers hle hlt⟩
  case inside =>
    intro index b s hs
    obtain ⟨hb, hmem⟩ := mem_of_mem_placed (List.mem_of_getElem? hs)
    rw [itemAt_eq_ok hs, ← SegmentedBuffer.bytes_view (hwithin b hb s hmem) (hsize b hb)]
    rfl
  case outside =>
    intro index hindex
    rw [itemAt, if_pos hindex]
  case all =>
    refine List.ext_getElem (by simp [items_ofBuffers, hlength, hplaced]) fun index hindex _ => ?_
    have hlt : index < (placed buffers).length := by simpa [items_ofBuffers] using hindex
    simp [items_ofBuffers, itemAt_eq_ok (List.getElem?_eq_getElem hlt)]
  case size => exact size_ofBuffers hwithin hsize

/-- Two buffers, the first of which has an empty segment at its end: the last index of the one, the
first of the other, and an index that there is not. -/
theorem flattens_two_buffers :
    ∃ a b c, SegmentedBuffer.ofSegments ⟨#[1, 2, 3], true⟩ [⟨1, 2⟩, ⟨3, 0⟩] = .ok a ∧
      SegmentedBuffer.ofTable [4, 5] (Segment.encodeTable [⟨0, 1⟩]) = .ok b ∧
      ofList [a, b] = .ok c ∧ c.Flattens [a, b] ∧ c.itemAt 1 = .ok ⟨3, []⟩ ∧
      c.itemAt 2 = .ok ⟨0, [4]⟩ ∧ c.itemAt 3 = .error (.indexOutOfRange 3 3) := by
  let a : SegmentedBuffer := ⟨⟨#[1, 2, 3], true⟩, #[⟨1, 2⟩, ⟨3, 0⟩]⟩
  let b : SegmentedBuffer := ⟨⟨#[4, 5], false⟩, #[⟨0, 1⟩]⟩
  have ha : SegmentedBuffer.ofSegments ⟨#[1, 2, 3], true⟩ [⟨1, 2⟩, ⟨3, 0⟩] = .ok a := rfl
  have hb : SegmentedBuffer.ofTable [4, 5] (Segment.encodeTable [⟨0, 1⟩]) = .ok b := by cbv
  have hobtained : ∀ x ∈ [a, b], x.Obtained := by
    simpa using ⟨.ofSegments ha, .ofTable hb⟩
  obtain ⟨haccepts, hflattens⟩ := flattens hobtained (by decide)
  obtain ⟨c, hc⟩ := haccepts.2 ⟨List.cons_ne_nil _ _, by decide⟩
  have h := hflattens c hc
  have hlength : c.length = 3 := h.length
  have houtside : c.itemAt 3 = .error (.indexOutOfRange 3 c.length) :=
    h.outside (Nat.le_of_eq hlength)
  rw [hlength] at houtside
  exact ⟨a, b, c, ha, hb, hc, h, h.inside (b := a) (s := ⟨3, 0⟩) rfl,
    h.inside (b := b) (s := ⟨0, 1⟩) rfl, houtside⟩

end BufferCollection

end Sluice
