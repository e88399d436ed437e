import Sluice.Zstd.Huffman

/-!
# Literals sections

The first part of a compressed block: the bytes that its sequences copy into the output. They are
given as they are, as one repeated byte, or in a Huffman code, which may be the one of an earlier
block.
-/

namespace Sluice.Zstd

/-- Literals, the Huffman table to remember, and the byte after the section. -/
structure Literals where
  bytes : ByteArray
  table : Option Huffman.Table
  after : Nat

namespace Literals

/-- How many literals there are and where they start, for literals that are not coded: the size
takes one, two or three bytes with the section's type. -/
def plainSize (data : ByteArray) (start : Nat) : Nat × Nat :=
  match byteAt data start / 4 % 4 with
  | 1 => (wordAt data start 2 / 16, start + 2)
  | 3 => (wordAt data start 3 / 16, start + 3)
  | _ => (byteAt data start / 8, start + 1)

/-- The sizes in front of coded literals: their number, the bytes they take, where these start,
and whether there is a single stream. -/
structure CodedSize where
  count : Nat
  packed : Nat
  start : Nat
  single : Bool

/-- Read the sizes of coded literals: twice 10, 14 or 18 bits. -/
def codedSize (data : ByteArray) (start : Nat) : CodedSize :=
  let format := byteAt data start / 4 % 4
  let bits := if format < 2 then 10 else if format = 2 then 14 else 18
  let first := 8 * start + 4
  ⟨bitsAt data first bits, bitsAt data (first + bits) bits, start + (4 + 2 * bits + 7) / 8,
    format = 0⟩

/-- The fewest literals that four streams can hold. -/
def minForFourStreams : Nat := 6

/-- Decode literals that are split over four streams. The sizes of the first three come first;
each of the three holds the same number of literals. -/
def decodeFour (table : Huffman.Table) (data : ByteArray) (start stop count : Nat) :
    Except Fault ByteArray := do
  if stop < start + 10 then throw .corruption
  let first := start + 6
  let second := first + wordAt data start 2
  let third := second + wordAt data (start + 2) 2
  let fourth := third + wordAt data (start + 4) 2
  let share := (count + 3) / 4
  if stop < fourth ∨ count < 3 * share then throw .corruption
  let out := ByteArray.emptyWithCapacity count
  let out ← table.decodeRange data first second share out
  let out ← table.decodeRange data second third share out
  let out ← table.decodeRange data third fourth share out
  table.decodeRange data fourth stop (count - 3 * share) out

/-- Decode coded literals, with a table of their own in front or with an earlier one. -/
def decodeCoded (data : ByteArray) (start stop maxBlock : Nat) (ownTable : Bool)
    (earlier : Option Huffman.Table) : Except Fault Literals := do
  if !ownTable && earlier.isNone then throw .missingTable
  if stop < start + 5 then throw .corruption
  let size := codedSize data start
  let after := size.start + size.packed
  if maxBlock < size.count ∨ stop < after then throw .corruption
  if !size.single && size.count < minForFourStreams then throw .literalsHeader
  let (table, first) ← match ownTable, earlier with
    | false, some table => pure (table, size.start)
    | _, _ => do
      let (weights, first) ← Huffman.readWeights data size.start after
      pure (← Huffman.Table.ofWeights weights, first)
  let bytes ← if size.single
    then table.decodeRange data first after size.count (.emptyWithCapacity size.count)
    else decodeFour table data first after size.count
  return ⟨bytes, some table, after⟩

/-- Decode the literals section that starts at `start`. -/
def decode (data : ByteArray) (start stop maxBlock : Nat) (earlier : Option Huffman.Table) :
    Except Fault Literals := do
  match byteAt data start % 4 with
  | 0 =>
    let (count, first) := plainSize data start
    if maxBlock < count ∨ stop < first + count then throw .corruption
    return ⟨data.extract first (first + count), earlier, first + count⟩
  | 1 =>
    let (count, first) := plainSize data start
    if maxBlock < count ∨ stop < first + 1 then throw .corruption
    let byte := UInt8.ofNat (byteAt data first)
    return ⟨⟨Array.replicate count byte⟩, earlier, first + 1⟩
  | kind => decodeCoded data start stop maxBlock (kind == 2) earlier

end Literals

end Sluice.Zstd
