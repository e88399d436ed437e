import Sluice.Proofs.Blocks

/-!
# The books of a list of blocks

Whoever fills blocks keeps a record of what it has written and not taken back. The blocks hold just
that, and their sizes add up to what has been counted.

* `BlockList.Op`, `BlockList.Used` — what can be done with blocks, and the record of it.
* `BlockList.extend_induction` — extending is nothing but growing full blocks and writing.
* `BlockList.Extended`, `BlockList.extended` — how extending can end, and what is written by then.
* `BlockList.Books`, `BlockList.Used.books` — what holds of the blocks, whatever is done with them.
* `BlockList.refillEach_reaches`, `BlockList.refillEach_overflows` — filling and growing again and
  again reaches the limit, or the end of what memory can be.
* `BlockList.orderly_use` — all of it, for blocks that grow only when they are full.
-/

namespace Sluice

namespace BlockList

variable {b b' : BlockList} {bytes held : List UInt8}

/-! ## Using blocks -/

/-- What can be done with blocks. A window that is lent out is written, advanced and rewound, in any
order and as often as its borrower likes: each of that is an operation of its own. -/
inductive Op where
  | extend (bytes : List UInt8)
  | put (bytes : List UInt8)
  | skip (count : Nat)
  | rewind
  | grow

/-- Do it. An operation that fails leaves what it has done. -/
def apply (b : BlockList) : Op → BlockList
  | .extend bytes => (b.extend bytes).2
  | .put bytes => b.put bytes
  | .skip count => b.modifyActive (·.advance count)
  | .rewind => b.modifyActive Window.rewind
  | .grow => b.grow.toOption.getD b

/-- The record of what has been written and not taken back, after an operation. An extension that
fails has written the front of its bytes. A rewind takes back what is in the block being written. -/
def record (b : BlockList) (held : List UInt8) : Op → List UInt8
  | .extend bytes =>
    match b.extend bytes with
    | (.ok (), _) => held ++ bytes
    | (.error _, b') => held ++ bytes.take (b'.written - b.written)
  | .put bytes => held ++ bytes.take b.active.spare
  | .skip count => held ++ (b.active.advance count).written.toList.drop b.active.pos
  | .rewind => held.take (held.length - b.active.pos)
  | .grow => held

/-- Blocks somebody can have who does only what is `Allowed`, and the record of it. -/
inductive Used (Allowed : BlockList → Op → Prop) : BlockList → List UInt8 → Prop
  | withCapacity (size : Nat) {b : BlockList} : BlockList.withCapacity size = .ok b →
    Used Allowed b []
  | start (limit : Option Nat) : Used Allowed (BlockList.start limit) []
  | apply {b : BlockList} {held : List UInt8} (op : Op) : Used Allowed b held → Allowed b op →
    Used Allowed (b.apply op) (b.record held op)

/-- Blocks are to grow only when they are full. -/
def Orderly (b : BlockList) (op : Op) : Prop := op = .grow → b.isFull = true

/-- Whatever can be done with blocks is allowed. -/
def Anyhow (_ : BlockList) (_ : Op) : Prop := True

/-! ## Writing -/

@[simp] theorem join_put (b : BlockList) (bytes : List UInt8) :
    (b.put bytes).join.toList = b.join.toList ++ bytes.take b.active.spare :=
  toList_join_put b bytes

theorem written_eq (b : BlockList) : b.written = b.join.size := by
  rw [written, join, Array.size_flatMap, ← Array.foldr_toList, Array.toList_map, ← Array.sum_toList,
    Array.toList_map]
  rfl

/-- Advancing over memory is writing what it holds. -/
theorem advance_eq_put (w : Window) (count : Nat) : ∃ bytes, w.advance count = w.put bytes := ⟨_, rfl⟩

/-! ## Extending -/

theorem makeRoom_inv (h : b.makeRoom = .ok b') :
    b.isFull = false ∧ b' = b ∨ b.isFull = true ∧ b.atLimit = false ∧ b.grow = .ok b' := by
  unfold makeRoom at h
  cases hfull : b.isFull with
  | false =>
    rw [if_pos (by simp [hfull])] at h
    exact .inl ⟨rfl, (Except.ok.inj h).symm⟩
  | true =>
    rw [if_neg (by simp [hfull])] at h
    split at h
    · cases h
    · next hat => exact .inr ⟨rfl, by simpa using hat, h⟩

/-- What growing full blocks and writing leave as it is, so does extending. -/
theorem extend_induction {P : BlockList → Prop} (hput : ∀ b bytes, P b → P (b.put bytes))
    (hgrow : ∀ b b', P b → b.isFull = true → b.grow = .ok b' → P b') (h : P b) :
    P (b.extend bytes).2 := by
  fun_induction extend b bytes with
  | case1 => exact h
  | case2 => exact h
  | case3 b bytes hne roomy hroom =>
    rcases makeRoom_inv hroom with ⟨-, rfl⟩ | ⟨hfull, -, hgrown⟩
    · exact h
    · exact hgrow b roomy h hfull hgrown
  | case4 b bytes hne roomy hroom hspare ih =>
    refine ih (hput _ _ ?_)
    rcases makeRoom_inv hroom with ⟨-, rfl⟩ | ⟨hfull, -, hgrown⟩
    · exact h
    · exact hgrow b roomy h hfull hgrown

/-- Where room can be made, there is some. -/
theorem spare_pos_of_makeRoom (hwithin : ∀ m, b.limit = some m → b.allocated ≤ m)
    (h : b.makeRoom = .ok b') : 0 < b'.active.spare := by
  rcases makeRoom_inv h with ⟨hfull, rfl⟩ | ⟨-, hat, hgrown⟩
  · simp only [isFull, Window.isFull, beq_eq_false_iff_ne] at hfull
    exact Nat.pos_of_ne_zero hfull
  · have hnext := nextSize_pos hwithin hat
    rcases grow_inv hgrown with ⟨hzero, -⟩ | ⟨-, rfl⟩
    · omega
    · exact hnext

/-- Why no room can be made. -/
theorem makeRoom_error {failure : Failure} (hwithin : ∀ m, b.limit = some m → b.allocated ≤ m)
    (h : b.makeRoom = .error failure) : b.isFull = true ∧
      (failure = .allocation (.pastLimit b.allocated) ∧ b.limit = some b.allocated ∨
        failure = .allocation .overflow ∧ 0 < b.nextSize ∧
          allocationLimit < b.allocated + b.nextSize) := by
  unfold makeRoom at h
  split at h
  · cases h
  · next hfull =>
    refine ⟨by simpa using hfull, ?_⟩
    split at h
    · next hat => exact .inl ⟨(Except.error.inj h).symm, by simpa [atLimit] using hat⟩
    · next hat =>
      have hnext := nextSize_pos hwithin (by simpa using hat)
      obtain ⟨rfl, hlarge⟩ := grow_error_inv h
      exact .inr ⟨rfl, hnext, hlarge⟩

/-- How extending `b` with `bytes` can end: everything has been written, or the front of it, up to
the point where the blocks are full and cannot grow. -/
inductive Extended (b : BlockList) (bytes : List UInt8) :
    Except Failure Unit × BlockList → Prop where
  | placed {b' : BlockList} (join : b'.join.toList = b.join.toList ++ bytes) :
    Extended b bytes (.ok (), b')
  | pastLimit {b' : BlockList} {count : Nat} (short : count < bytes.length)
    (join : b'.join.toList = b.join.toList ++ bytes.take count) (full : b'.isFull = true)
    (limit : b'.limit = some b'.allocated) :
    Extended b bytes (.error (.allocation (.pastLimit b'.allocated)), b')
  | overflow {b' : BlockList} {count : Nat} (short : count < bytes.length)
    (join : b'.join.toList = b.join.toList ++ bytes.take count) (full : b'.isFull = true)
    (next : 0 < b'.nextSize) (large : allocationLimit < b'.allocated + b'.nextSize) :
    Extended b bytes (.error (.allocation .overflow), b')

/-- Extending after some bytes have been written is extending with all of them. -/
theorem Extended.after {b₁ : BlockList} {size : Nat} {answer : Except Failure Unit × BlockList}
    (h : Extended b₁ (bytes.drop size) answer)
    (hjoin : b₁.join.toList = b.join.toList ++ bytes.take size) : Extended b bytes answer := by
  have hcount : ∀ {count : Nat}, count < (bytes.drop size).length →
      size + count < bytes.length ∧ bytes.take size ++ (bytes.drop size).take count =
        bytes.take (size + count) := by
    intro count hlt
    rw [List.length_drop] at hlt
    exact ⟨by omega, (List.take_add ..).symm⟩
  cases h with
  | placed join =>
    refine .placed ?_
    rw [join, hjoin, List.append_assoc, List.take_append_drop]
  | pastLimit short join full limit =>
    obtain ⟨hshort, htake⟩ := hcount short
    refine .pastLimit hshort ?_ full limit
    rw [join, hjoin, List.append_assoc, htake]
  | overflow short join full next large =>
    obtain ⟨hshort, htake⟩ := hcount short
    refine .overflow hshort ?_ full next large
    rw [join, hjoin, List.append_assoc, htake]

theorem join_makeRoom (h : b.makeRoom = .ok b') : b'.join = b.join := by
  rcases makeRoom_inv h with ⟨-, rfl⟩ | ⟨-, -, hgrown⟩
  · rfl
  · exact join_grow hgrown

theorem within_makeRoom (hwithin : ∀ m, b.limit = some m → b.allocated ≤ m)
    (h : b.makeRoom = .ok b') : ∀ m, b'.limit = some m → b'.allocated ≤ m := by
  rcases makeRoom_inv h with ⟨-, rfl⟩ | ⟨-, -, hgrown⟩
  · exact hwithin
  · exact within_grow hwithin hgrown

theorem extended (hwithin : ∀ m, b.limit = some m → b.allocated ≤ m) (bytes : List UInt8) :
    Extended b bytes (b.extend bytes) := by
  fun_induction extend b bytes with
  | case1 b => exact .placed (List.append_nil _).symm
  | case2 b bytes hne failure hroom =>
    have hshort : 0 < bytes.length := List.length_pos_iff.2 hne
    have hjoin : b.join.toList = b.join.toList ++ bytes.take 0 := (List.append_nil _).symm
    obtain ⟨hfull, ⟨rfl, hlimit⟩ | ⟨rfl, hnext, hlarge⟩⟩ := makeRoom_error hwithin hroom
    · exact .pastLimit hshort hjoin hfull hlimit
    · exact .overflow hshort hjoin hfull hnext hlarge
  | case3 b bytes hne roomy hroom hspare =>
    exact absurd hspare (Nat.ne_of_gt (spare_pos_of_makeRoom hwithin hroom))
  | case4 b bytes hne roomy hroom hspare ih =>
    have hwithin₁ := within_makeRoom hwithin hroom
    refine (ih hwithin₁).after ?_
    rw [join_put, join_makeRoom hroom]

/-! ## Books -/

/-- What holds of blocks, whatever is done with them: sizes have been counted and are possible, and
the blocks hold what is on record. -/
structure Books (b : BlockList) (held : List UInt8) : Prop extends b.Bounded where
  possible : b.allocated ≤ allocationLimit
  join : b.join.toList = held

/-- Blocks that have not been written to, of a size that can be allocated. -/
theorem books_fresh {size : Nat} {limit : Option Nat} (hsize : size ≤ allocationLimit)
    (hlimit : ∀ m, limit = some m → size ≤ m) : Books ⟨#[], .fresh size, size, limit⟩ [] where
  counted := by simp [capacity, blocks, Window.capacity, Window.pos]
  within := hlimit
  possible := hsize
  join := by simp [BlockList.join, blocks]

theorem books_start (limit : Option Nat) : Books (start limit) [] := by
  refine books_fresh (Nat.le_trans (Nat.min_le_left ..) (by decide)) ?_
  rintro m rfl
  exact Nat.min_le_right ..

theorem books_withCapacity {size : Nat} (h : withCapacity size = .ok b) : Books b [] := by
  unfold withCapacity allocate at h
  split at h
  · cases h
  · next hsize =>
    cases h
    exact books_fresh (Nat.le_of_not_lt hsize) nofun

namespace Books

/-- Another window of the same size in place of the last one changes nothing but what it holds. -/
theorem modifyActive {f : Window → Window} {held' : List UInt8} (h : Books b held)
    (hcapacity : (f b.active).capacity = b.active.capacity)
    (hheld : (b.modifyActive f).join.toList = held') : Books (b.modifyActive f) held' where
  counted := by
    have hcounted := h.counted
    simp only [capacity, blocks, BlockList.modifyActive, Array.toList_push, List.map_append,
      List.map_cons, hcapacity] at hcounted ⊢
    exact hcounted
  within := h.within
  possible := h.possible
  join := hheld

theorem put (h : Books b held) (bytes : List UInt8) :
    Books (b.put bytes) (held ++ bytes.take b.active.spare) :=
  h.modifyActive (Window.capacity_put ..) (by rw [← h.join]; exact toList_join_put b bytes)

theorem skip (h : Books b held) (count : Nat) :
    Books (b.modifyActive (·.advance count))
      (held ++ (b.active.advance count).written.toList.drop b.active.pos) := by
  obtain ⟨bytes, hput⟩ := advance_eq_put b.active count
  refine h.modifyActive (hput ▸ Window.capacity_put ..) ?_
  have hmodify : b.modifyActive (·.advance count) = b.put bytes := by
    rw [BlockList.modifyActive, hput]
    rfl
  have hpos : b.active.written.toList.length = b.active.pos := Array.length_toList
  rw [hmodify, join_put, h.join, hput, Window.toList_written_put, List.drop_left' hpos]

theorem rewind (h : Books b held) :
    Books (b.modifyActive Window.rewind) (held.take (held.length - b.active.pos)) := by
  refine h.modifyActive (Window.capacity_rewind _) ?_
  have hjoin := h.join
  rw [toList_join] at hjoin
  have hpos : b.active.written.toList.length = b.active.pos := Array.length_toList
  rw [← hjoin, List.length_append, hpos, Nat.add_sub_cancel, List.take_left, toList_join]
  simp [BlockList.modifyActive, Window.rewind]

theorem grow (h : Books b held) (hgrow : b.grow = .ok b') : Books b' held where
  toBounded := h.toBounded.grow hgrow
  possible := by
    rcases grow_inv hgrow with ⟨-, rfl⟩ | ⟨hnext, rfl⟩
    · exact h.possible
    · refine Nat.le_of_not_lt fun hlarge => ?_
      rw [grow_overflow hnext hlarge] at hgrow
      cases hgrow
  join := join_grow hgrow ▸ h.join

theorem extend (h : Books b held) (bytes : List UInt8) :
    Books (b.extend bytes).2 (b.record held (.extend bytes)) := by
  have hkept : ∃ held', Books (b.extend bytes).2 held' :=
    extend_induction (P := fun b => ∃ held, Books b held) (fun _ bytes ⟨_, h⟩ => ⟨_, h.put bytes⟩)
      (fun _ _ ⟨held, h⟩ _ hgrow => ⟨held, h.grow hgrow⟩) ⟨held, h⟩
  obtain ⟨held', hbooks⟩ := hkept
  -- as many bytes as are written are of the front
  have hlength : ∀ {b' : BlockList} {count : Nat}, count < bytes.length →
      b'.join.toList = b.join.toList ++ bytes.take count → b'.written - b.written = count := by
    intro b' count hshort hjoin
    have hsize := congrArg List.length hjoin
    rw [List.length_append, Array.length_toList, Array.length_toList, ← written_eq, ← written_eq,
      List.length_take_of_le (Nat.le_of_lt hshort)] at hsize
    omega
  suffices hheld : (b.extend bytes).2.join.toList = b.record held (.extend bytes) from
    ⟨hbooks.toBounded, hbooks.possible, hheld⟩
  have hended := extended h.within bytes
  rw [record]
  generalize b.extend bytes = answer at hended ⊢
  cases hended with
  | placed join => rw [join, h.join]
  | pastLimit short join full limit =>
    dsimp only
    rw [hlength short join, join, h.join]
  | overflow short join full next large =>
    dsimp only
    rw [hlength short join, join, h.join]

theorem apply (h : Books b held) (op : Op) : Books (b.apply op) (b.record held op) := by
  cases op with
  | extend bytes => exact h.extend bytes
  | put bytes => exact h.put bytes
  | skip count => exact h.skip count
  | rewind => exact h.rewind
  | grow =>
    rw [BlockList.apply, record]
    rcases hgrow : b.grow with failure | b'
    · exact h
    · exact h.grow hgrow

/-- The size of the blocks and of the next one is a word. -/
theorem addable (h : Books b held) : b.allocated + b.nextSize < UInt64.size := by
  have hnext := nextSize_le_largestBlock b
  have hpossible := h.possible
  simp only [largestBlock, allocationLimit, UInt64.size] at *
  omega

theorem written (h : Books b held) : b.written = held.length := by
  rw [written_eq, ← h.join, Array.length_toList]

theorem finish (h : Books b held) : b.finish.toList = held := by rw [finish_eq_join, h.join]

end Books

theorem Used.books {Allowed : BlockList → Op → Prop} (h : Used Allowed b held) : Books b held := by
  induction h with
  | withCapacity size h => exact books_withCapacity h
  | start limit => exact books_start limit
  | apply op before allowed ih => exact ih.apply op

/-! ## Blocks that are full -/

/-- All blocks but the last are full. -/
def EarlierFull (b : BlockList) : Prop := ∀ w ∈ b.earlier, w.isFull = true

theorem EarlierFull.grow (h : b.EarlierFull) (hfull : b.isFull = true) (hgrow : b.grow = .ok b') :
    b'.EarlierFull := by
  rcases grow_inv hgrow with ⟨-, rfl⟩ | ⟨-, rfl⟩
  · exact h
  · intro w (hw : w ∈ b.earlier.push b.active)
    rcases Array.mem_push.1 hw with hw | rfl
    · exact h w hw
    · exact hfull

theorem EarlierFull.extend (h : b.EarlierFull) (bytes : List UInt8) :
    (b.extend bytes).2.EarlierFull :=
  extend_induction (fun _ _ h => h) (fun _ _ h => h.grow) h

/-- Blocks that grow only when they are full. -/
theorem Used.earlierFull (h : Used Orderly b held) : b.EarlierFull := by
  induction h with
  | withCapacity size h =>
    unfold BlockList.withCapacity allocate at h
    split at h
    · cases h
    · cases h
      exact nofun
  | start limit => exact nofun
  | @apply b held op before allowed ih =>
    cases op with
    | extend bytes => exact ih.extend bytes
    | put bytes => exact ih
    | skip count => exact ih
    | rewind => exact ih
    | grow =>
      rw [BlockList.apply]
      rcases hgrow : b.grow with failure | b'
      · exact ih
      · exact ih.grow (allowed rfl) hgrow

/-! ## Filling and growing -/

/-- Fill the block being written with a byte, and add the next one. -/
def refill (b : BlockList) (byte : UInt8) : Except Failure BlockList :=
  (b.put (List.replicate b.active.spare byte)).grow

/-- One round after the other, as long as blocks can be added. -/
def refillEach (b : BlockList) : (fill : List UInt8) → Except Failure BlockList
  | [] => .ok b
  | byte :: fill =>
    match b.refill byte with
    | .ok b' => b'.refillEach fill
    | .error failure => .error failure

section Refill

variable {m : Nat} {byte : UInt8} {fill : List UInt8}

theorem refillEach_cons_ok (h : b.refill byte = .ok b') :
    b.refillEach (byte :: fill) = b'.refillEach fill := by
  rw [refillEach, h]

/-- At the limit nothing is added, and the second round has nothing to fill either. -/
theorem refill_atLimit (hlimit : b.limit = some b.allocated) (byte : UInt8) :
    ∃ b', b.refill byte = .ok b' ∧ b'.allocated = b.allocated ∧
      ∀ again, b'.refill again = .ok b' := by
  have hnext : ∀ w, nextSize { b with active := w } = 0 := by
    intro w
    have hle := nextSize_le (b := { b with active := w }) hlimit
    exact Nat.le_zero.1 (Nat.le_trans hle (Nat.le_of_eq (Nat.sub_self _)))
  have hgrow : ∀ w, grow { b with active := w } = .ok { b with active := w } :=
    fun w => grow_nothing (hnext w)
  refine ⟨b.put (List.replicate b.active.spare byte), hgrow _, rfl, fun again => ?_⟩
  have hspare : (b.put (List.replicate b.active.spare byte)).active.spare = 0 := by
    rw [put, modifyActive, Window.spare_put, List.length_replicate, Nat.sub_self]
  have hidle : (b.put (List.replicate b.active.spare byte)).put [] =
      b.put (List.replicate b.active.spare byte) := by
    rw [put, modifyActive, Window.put_nil]
  rw [refill, hspare, List.replicate_zero, hidle]
  exact hgrow _

/-- Below the limit, a round adds a block, unless memory cannot be that large. -/
theorem refill_below (h : b.Bounded) (hlimit : b.limit = some m) (hbelow : b.allocated < m)
    (byte : UInt8) :
    b.refill byte = .error (.allocation .overflow) ∧ allocationLimit < m ∨
      ∃ b', b.refill byte = .ok b' ∧ b'.Bounded ∧ b'.limit = some m ∧
        b.allocated < b'.allocated := by
  have hbounded : (b.put (List.replicate b.active.spare byte)).Bounded := h.put _
  have hbelow' : (b.put (List.replicate b.active.spare byte)).atLimit = false := by
    simp only [atLimit, put, modifyActive, hlimit, beq_eq_false_iff_ne, ne_eq, Option.some.injEq]
    omega
  have hnext := nextSize_pos hbounded.within hbelow'
  have hle := nextSize_le (b := b.put (List.replicate b.active.spare byte)) hlimit
  rw [refill]
  generalize hput : b.put (List.replicate b.active.spare byte) = filled at *
  have hallocated : filled.allocated = b.allocated := by rw [← hput]; rfl
  have hsame : filled.limit = some m := by rw [← hput]; exact hlimit
  by_cases hlarge : allocationLimit < filled.allocated + filled.nextSize
  · exact .inl ⟨grow_overflow hnext hlarge, by omega⟩
  · have hgrow := grow_another hnext (Nat.le_of_not_lt hlarge)
    refine .inr ⟨_, hgrow, hbounded.grow hgrow, hsame, ?_⟩
    change b.allocated < filled.allocated + filled.nextSize
    omega

theorem refillEach_fixed (h : ∀ byte, b.refill byte = .ok b) (fill : List UInt8) :
    b.refillEach fill = .ok b := by
  induction fill with
  | nil => rfl
  | cons byte fill ih => rw [refillEach_cons_ok (h byte), ih]

/-- A limit that memory can have is reached exactly, and then nothing changes any more. -/
theorem refillEach_reaches (h : b.Bounded) (hlimit : b.limit = some m) (hm : m ≤ allocationLimit)
    (hrounds : m - b.allocated < fill.length) :
    ∃ b', b.refillEach fill = .ok b' ∧ b'.allocated = m ∧ ∀ byte, b'.refill byte = .ok b' := by
  induction fill generalizing b with
  | nil => exact absurd hrounds (Nat.not_lt_zero _)
  | cons byte fill ih =>
    rcases Nat.lt_or_eq_of_le (h.within m hlimit) with hbelow | hat
    · obtain ⟨-, hlarge⟩ | ⟨b₁, hround, hbounded, hlimit₁, hmore⟩ :=
        refill_below h hlimit hbelow byte
      · omega
      · rw [refillEach_cons_ok hround]
        rw [List.length_cons] at hrounds
        exact ih hbounded hlimit₁ (by omega)
    · obtain ⟨b₁, hround, hallocated, hfixed⟩ := refill_atLimit (hat ▸ hlimit) byte
      refine ⟨b₁, ?_, hallocated.trans hat, hfixed⟩
      rw [refillEach_cons_ok hround, refillEach_fixed hfixed]

/-- A limit beyond that cannot be reached: the rounds end with a failure. -/
theorem refillEach_overflows (h : Books b held) (hlimit : b.limit = some m)
    (hm : allocationLimit < m) (hrounds : m - b.allocated < fill.length) :
    b.refillEach fill = .error (.allocation .overflow) := by
  induction fill generalizing b held with
  | nil => exact absurd hrounds (Nat.not_lt_zero _)
  | cons byte fill ih =>
    have hbelow : b.allocated < m := Nat.lt_of_le_of_lt h.possible hm
    obtain ⟨hround, -⟩ | ⟨b₁, hround, -, hlimit₁, hmore⟩ := refill_below h.toBounded hlimit hbelow byte
    · rw [refillEach, hround]
    · rw [refillEach_cons_ok hround]
      rw [List.length_cons] at hrounds
      exact ih ((h.put _).grow hround) hlimit₁ (by omega)

end Refill

/-! ## Blocks in orderly use -/

/-- Blocks that have grown only when they were full. Their sizes add up to what has been allocated,
which is no more than the limit and no more than memory can be, and the next size can be added to it.
All but the last are full, and nobody has got beyond the end of one. They hold what has been written and
not taken back, and hand it out, with or without a copy. Under a limit, filling and growing reach it
exactly and then change nothing, unless it is beyond what memory can be. -/
theorem orderly_use (h : Used Orderly b held) :
    b.allocated = (b.blocks.toList.map Window.capacity).sum ∧
    (∀ m, b.limit = some m → b.allocated ≤ m) ∧
    b.allocated ≤ allocationLimit ∧ b.allocated + b.nextSize < UInt64.size ∧
    (∀ w ∈ b.earlier, w.isFull = true) ∧ (∀ w ∈ b.blocks, w.pos ≤ w.capacity) ∧
    b.written = (b.blocks.toList.map Window.pos).sum ∧ b.written = held.length ∧
    b.join.toList = held ∧ b.finish.toList = held ∧
    ∀ m, b.limit = some m → ∀ fill : List UInt8, m - b.allocated < fill.length →
      if m ≤ allocationLimit then
        ∃ b', b.refillEach fill = .ok b' ∧ b'.allocated = m ∧ ∀ byte, b'.refill byte = .ok b'
      else b.refillEach fill = .error (.allocation .overflow) := by
  have hbooks := h.books
  have hcursors : ∀ w ∈ b.blocks, w.pos ≤ w.capacity := fun w _ => Nat.le_add_right ..
  have hsum : b.written = (b.blocks.toList.map Window.pos).sum := by
    rw [written, ← Array.foldr_toList, Array.toList_map]
    rfl
  refine ⟨hbooks.counted, hbooks.within, hbooks.possible, hbooks.addable, h.earlierFull, hcursors,
    hsum, hbooks.written, hbooks.join, hbooks.finish, fun m hlimit fill hrounds => ?_⟩
  split
  · next hm => exact refillEach_reaches hbooks.toBounded hlimit hm hrounds
  · next hm => exact refillEach_overflows hbooks hlimit (Nat.lt_of_not_le hm) hrounds

/-- Under a limit of three bytes, two of which have been written again; and in two blocks, the first
of two bytes. -/
theorem orderly_use_few_bytes :
    (∃ b, Used Orderly b [7, 8] ∧ b.limit = some 3 ∧ b.finish.toList = [7, 8] ∧
      ∃ b', b.refillEach [0, 0, 0] = .ok b' ∧ b'.allocated = 3) ∧
    ∃ b, Used Orderly b [1, 2, 3] ∧ b.blocks.size = 2 ∧ b.written = 3 ∧
      b.finish.toList = [1, 2, 3] := by
  have hanother : ∀ {b : BlockList} {held : List UInt8} (op : Op), op ≠ .grow →
      Used Orderly b held → Used Orderly (b.apply op) (b.record held op) :=
    fun op hne h => .apply op h fun hgrow => absurd hgrow hne
  have hagain : Used Orderly _ [7, 8] :=
    hanother (.put [7, 8]) nofun (hanother .rewind nofun
      (hanother (.put [1, 2, 3]) nofun (.start (some 3))))
  have hgrown : Used Orderly _ [1, 2, 3] :=
    hanother (.put [3]) nofun (.apply .grow
      (hanother (.put [1, 2]) nofun (.withCapacity 2 rfl)) fun _ => rfl)
  obtain ⟨-, -, -, -, -, -, -, -, -, hfinish, hrounds⟩ := orderly_use hagain
  obtain ⟨-, -, -, -, -, -, -, hwritten, -, hfinish', -⟩ := orderly_use hgrown
  obtain ⟨b', hreached, hallocated, -⟩ := hrounds 3 rfl [0, 0, 0] (by decide)
  exact ⟨⟨_, hagain, rfl, hfinish, b', hreached, hallocated⟩, _, hgrown, rfl, hwritten, hfinish'⟩

end BlockList

end Sluice
