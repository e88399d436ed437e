/-!
# Bits in byte arrays

Bit `i` of an array of bytes is bit `i % 8` of byte `i / 8`, counted from the least significant
one. Positions beyond the end hold zeros.

* `byteAt`, `bitsAt` — look at bytes and at groups of bits.
* `BackwardBits` — a reader that starts at the end of a range and moves to its start. The range
  ends in a marker bit: the highest bit set in its last byte.
-/

namespace Sluice

/-- The byte at an index, 0 beyond the end. -/
def byteAt (data : ByteArray) (index : Nat) : Nat :=
  if h : index < data.size then data[index].toNat else 0

/-- The little-endian number in `count` bytes from `index` on. -/
def wordAt (data : ByteArray) (index : Nat) : (count : Nat) → Nat
  | 0 => 0
  | count + 1 => byteAt data index + 256 * wordAt data (index + 1) count

/-- The number in `count` bits from bit `pos` on. -/
def bitsAt (data : ByteArray) (pos count : Nat) : Nat :=
  let shift := pos % 8
  (wordAt data (pos / 8) ((shift + count + 7) / 8) >>> shift) % (1 <<< count)

/-! ## Reading backwards -/

/-- A reader at bit `left` of the range that starts at byte `start`. It has been asked for
`missing` bits that lie before the start; they read as zeros. -/
structure BackwardBits where
  data : ByteArray
  start : Nat
  left : Nat
  missing : Nat

namespace BackwardBits

/-- The bits of a range of bytes below its marker bit. -/
def ofRange? (data : ByteArray) (start stop : Nat) : Option BackwardBits :=
  let last := byteAt data (stop - 1)
  if stop ≤ start ∨ last = 0 then none
  else some ⟨data, start, 8 * (stop - 1 - start) + last.log2, 0⟩

/-- The number in the next `count` bits, without moving. -/
def peek (b : BackwardBits) (count : Nat) : Nat :=
  if count ≤ b.left then bitsAt b.data (8 * b.start + (b.left - count)) count
  else bitsAt b.data (8 * b.start) b.left <<< (count - b.left)

/-- Move over `count` bits. -/
def skip (b : BackwardBits) (count : Nat) : BackwardBits :=
  { b with left := b.left - count, missing := b.missing + (count - b.left) }

/-- The number in the next `count` bits. -/
def read (b : BackwardBits) (count : Nat) : Nat × BackwardBits := (b.peek count, b.skip count)

/-- Whether exactly all bits have been read. -/
def atStart (b : BackwardBits) : Bool := b.left == 0 && b.missing == 0

end BackwardBits

end Sluice
