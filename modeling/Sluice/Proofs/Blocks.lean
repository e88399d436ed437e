import Mathlib.Algebra.GroupWithZero.Nat
import Sluice.BlockList

/-!
# Blocks

What writing, growing and handing out do to a list of blocks.

* `BlockList.finish_eq_join` — all blocks joined are handed out, with or without a copy.
* `BlockList.grow_inv` — blocks that grow get one more, or may not.
* `BlockList.Bounded` — blocks the sizes of which have been counted and are within the limit.
* `BlockList.Packed` — blocks of which all are full but the last.
-/

namespace Sluice

/-- The size of the largest blocks. -/
def largestBlock : Nat := 256 * 1024 * 1024

theorem blockSize_le (index : Nat) : blockSize index ≤ largestBlock := by
  have key : ∀ n ∈ blockSizesKiB, n ≤ 256 * 1024 := by decide
  unfold blockSize largestBlock
  rw [List.getD_eq_getElem?_getD]
  rcases h : blockSizesKiB[index]? with _ | n
  · simp
  · exact Nat.mul_le_mul_right 1024 (key n (List.mem_of_getElem? h))

namespace BlockList

variable {b b' : BlockList}

/-! ## What has been written -/

theorem toList_join (b : BlockList) :
    b.join.toList = (b.earlier.flatMap Window.written).toList ++ b.active.written.toList := by
  simp [join, blocks]

/-- The ways to hand out what has been written differ in the work that they take only. -/
theorem finish_eq_join (b : BlockList) : b.finish = b.join := by
  unfold finish
  split
  · next first hsize =>
    have hearlier : b.earlier = #[] := Array.eq_empty_of_size_eq_zero hsize
    split
    · simp [join, blocks, hearlier]
    · rfl
  · next first hsize hfirst =>
    split
    · next hdone =>
      have hactive : b.active.written = #[] := by
        simp only [Bool.and_eq_true, beq_iff_eq] at hdone
        exact Array.eq_empty_of_size_eq_zero hdone.2
      obtain ⟨only, hearlier⟩ := Array.size_eq_one_iff.1 hsize
      obtain rfl : only = first := by simpa [hearlier] using hfirst
      simp [join, blocks, hearlier, hactive]
    · rfl
  · rfl

/-- What is written to the active block is behind everything else. -/
theorem toList_join_put (b : BlockList) (bytes : List UInt8) :
    (BlockList.join { b with active := b.active.put bytes }).toList =
      b.join.toList ++ bytes.take b.active.spare := by
  rw [toList_join, toList_join, List.append_assoc, Window.toList_written_put]

/-! ## Growing -/

theorem grow_nothing (h : b.nextSize = 0) : b.grow = .ok b := if_pos h

theorem grow_overflow (h : 0 < b.nextSize) (hlarge : allocationLimit < b.allocated + b.nextSize) :
    b.grow = .error (.allocation .overflow) := by
  rw [grow, if_neg (Nat.ne_of_gt h), if_pos hlarge]

theorem grow_another (h : 0 < b.nextSize) (hmemory : b.allocated + b.nextSize ≤ allocationLimit) :
    b.grow = .ok { b with
      earlier := b.blocks
      active := .fresh b.nextSize
      allocated := b.allocated + b.nextSize } := by
  rw [grow, if_neg (Nat.ne_of_gt h), if_neg (Nat.not_lt_of_le hmemory)]

/-- Blocks that cannot grow would become larger than memory can be. -/
theorem grow_error_inv {failure : Failure} (h : b.grow = .error failure) :
    failure = .allocation .overflow ∧ allocationLimit < b.allocated + b.nextSize := by
  simp only [grow] at h
  split at h
  · cases h
  · split at h
    · next hlarge => exact ⟨(Except.error.inj h).symm, hlarge⟩
    · cases h

/-- Blocks that grow get another one, unless they may not. -/
theorem grow_inv (h : b.grow = .ok b') :
    b.nextSize = 0 ∧ b' = b ∨ 0 < b.nextSize ∧ b' = { b with
      earlier := b.blocks
      active := .fresh b.nextSize
      allocated := b.allocated + b.nextSize } := by
  simp only [grow] at h
  split at h
  · next hzero => exact .inl ⟨hzero, (Except.ok.inj h).symm⟩
  · next hpos =>
    split at h
    · cases h
    · exact .inr ⟨Nat.pos_of_ne_zero hpos, (Except.ok.inj h).symm⟩

/-- An empty block more changes nothing about what has been written. -/
theorem join_grow (h : b.grow = .ok b') : b'.join = b.join := by
  rcases grow_inv h with ⟨-, rfl⟩ | ⟨-, rfl⟩
  · rfl
  · simp [join, blocks]

theorem limit_grow (h : b.grow = .ok b') : b'.limit = b.limit := by
  rcases grow_inv h with ⟨-, rfl⟩ | ⟨-, rfl⟩ <;> rfl

theorem nextSize_le_largestBlock (b : BlockList) : b.nextSize ≤ largestBlock := by
  refine Nat.le_trans ?_ (blockSize_le b.blocks.size)
  unfold nextSize
  split
  · exact Nat.le_refl _
  · exact Nat.min_le_left ..

/-- The next block is within the limit. -/
theorem nextSize_le {b : BlockList} {limit : Nat} (h : b.limit = some limit) :
    b.nextSize ≤ limit - b.allocated := by
  simp only [nextSize, h]
  exact Nat.min_le_right ..

/-- Below the limit, there is a next block. -/
theorem nextSize_pos {b : BlockList} (h : ∀ limit, b.limit = some limit → b.allocated ≤ limit)
    (hbelow : b.atLimit = false) : 0 < b.nextSize := by
  have hpos := blockSize_pos b.blocks.size
  rcases hlimit : b.limit with _ | limit
  · simpa [nextSize, hlimit] using hpos
  · have hle := h limit hlimit
    have hne : limit ≠ b.allocated := by
      intro heq
      simp [atLimit, hlimit, heq] at hbelow
    simp only [nextSize, hlimit]
    omega

/-- Blocks that grow stay within the limit. -/
theorem within_grow {b b' : BlockList} (h : ∀ limit, b.limit = some limit → b.allocated ≤ limit)
    (hgrow : b.grow = .ok b') : ∀ limit, b'.limit = some limit → b'.allocated ≤ limit := by
  rcases grow_inv hgrow with ⟨-, rfl⟩ | ⟨-, rfl⟩
  · exact h
  · intro limit (hlimit : b.limit = some limit)
    have hle := h limit hlimit
    have hnext := nextSize_le hlimit
    change b.allocated + b.nextSize ≤ limit
    omega

/-! ## Blocks within a limit -/

/-- The size of all blocks, written or not. -/
def capacity (b : BlockList) : Nat := (b.blocks.toList.map Window.capacity).sum

/-- Blocks the sizes of which have been counted and are within the limit. -/
structure Bounded (b : BlockList) : Prop where
  counted : b.allocated = b.capacity
  within : ∀ limit, b.limit = some limit → b.allocated ≤ limit

theorem bounded_start (limit : Option Nat) : (start limit).Bounded where
  counted := by simp [start, capacity, blocks, Window.capacity, Window.pos]
  within := by
    rintro limit ⟨⟩
    exact Nat.min_le_right ..

/-- Writing changes neither the sizes nor the limit. -/
theorem Bounded.put (h : b.Bounded) (bytes : List UInt8) :
    Bounded { b with active := b.active.put bytes } where
  counted := by
    rw [h.counted]
    simp [capacity, blocks]
  within := h.within

/-- Neither does growing, as far as the limit allows it. -/
theorem Bounded.grow (h : b.Bounded) (hgrow : b.grow = .ok b') : b'.Bounded where
  counted := by
    have hcounted := h.counted
    rcases grow_inv hgrow with ⟨-, rfl⟩ | ⟨-, rfl⟩
    · exact hcounted
    · rw [capacity] at hcounted
      simp [capacity, blocks, hcounted, Window.capacity, Window.pos, Nat.add_assoc]
  within := within_grow h.within hgrow

/-! ## Blocks that are full -/

/-- Blocks all of which are full but the active one. -/
def Packed (b : BlockList) : Prop := b.allocated = b.join.size + b.active.spare

theorem packed_start (limit : Option Nat) : (start limit).Packed := by
  simp [Packed, start, join, blocks]

/-- Writing to the active block leaves the earlier ones full. -/
theorem Packed.put {b : BlockList} (h : b.Packed) (bytes : List UInt8) :
    Packed { b with active := b.active.put bytes } := by
  have hjoin := congrArg List.length (toList_join_put b bytes)
  rw [List.length_append, List.length_take, Array.length_toList, Array.length_toList] at hjoin
  rw [Packed] at h
  rw [Packed, hjoin, Window.spare_put]
  change b.allocated = _
  omega

/-- Full blocks that may grow do so, as long as there is memory. -/
theorem Packed.grow_ok {b : BlockList} (h : b.Packed) (hfull : b.isFull = true) (hnext : 0 < b.nextSize)
    (hmemory : b.join.size + largestBlock ≤ allocationLimit) :
    ∃ b', b.grow = .ok b' ∧ b'.Packed ∧ 0 < b'.active.spare ∧ b'.join = b.join ∧
      b'.limit = b.limit := by
  have hspare : b.active.spare = 0 := by simpa [isFull, Window.isFull] using hfull
  have hsize := nextSize_le_largestBlock b
  have hall : b.allocated = b.join.size := by rw [h, hspare, Nat.add_zero]
  have hgrow := grow_another hnext (by omega)
  have hjoin := join_grow hgrow
  refine ⟨_, hgrow, ?_, hnext, hjoin, rfl⟩
  rw [Packed, hjoin, hall]
  rfl

end BlockList

end Sluice
