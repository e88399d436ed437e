import Sluice.Zstd.Fse

/-!
# Huffman codes for literals

A code is given by the weights of its symbols: a symbol of weight `w > 0` has a code word of
`log + 1 - w` bits, so that it owns `2 ^ (w - 1)` of the `2 ^ log` entries of a table that is
indexed by the next `log` bits.

* `readWeights` — the weights as a frame holds them, directly or entropy coded.
* `Table.ofWeights` — the table; the weight of the last symbol follows from the others.
* `Table.decode` — literals from a backward bit stream.
-/

namespace Sluice.Zstd.Huffman

/-- One entry: the symbol and the length of its code word. -/
structure Entry where
  symbol : UInt8
  bits : Nat
  deriving DecidableEq, Repr, Inhabited

/-- A table for code words of at most `log` bits. -/
structure Table where
  log : Nat
  entries : Array Entry
  deriving Repr

/-- The longest code word. -/
def maxLog : Nat := 12

/-! ## Weights -/

/-- Take symbols from two states in turn until the bits are used up; the last symbol is the one of
the state that did not run dry. -/
def decodeWeights (t : Fse.Table) : (fuel : Nat) → (state other : Nat) → BackwardBits →
    Array Nat → Option (Array Nat)
  | 0, _, _, _, _ => none
  | fuel + 1, state, other, bits, weights =>
    let weights := weights.push (t.symbol state)
    let (next, bits) := t.next state bits
    if 0 < bits.missing then some (weights.push (t.symbol other))
    else decodeWeights t fuel other next bits weights

/-- The weights that the bytes from `start` to `stop` begin with, and the byte after them. -/
def readWeights (data : ByteArray) (start stop : Nat) : Except Fault (Array Nat × Nat) := do
  if stop ≤ start then throw .corruption
  let head := byteAt data start
  if 128 ≤ head then
    let count := head - 127
    let after := start + 1 + (count + 1) / 2
    if stop < after then throw .corruption
    let weights := (Array.range count).map fun i =>
      let pair := byteAt data (start + 1 + i / 2)
      if i % 2 = 0 then pair / 16 else pair % 16
    return (weights, after)
  else
    let after := start + 1 + head
    if stop < after then throw .corruption
    let (log, counts, bitsStart) ← Fse.readCounts data (start + 1) after 6 255
    let some bits := BackwardBits.ofRange? data bitsStart after | throw .corruption
    let table := Fse.Table.ofCounts log counts
    let (state, bits) := table.start bits
    let (other, bits) := table.start bits
    let some weights := decodeWeights table 254 state other bits #[] | throw .corruption
    return (weights, after)

/-! ## Tables -/

namespace Table

/-- The entries of all symbols with one weight, in the order of the symbols. -/
def entriesOf (log : Nat) (weights : List (Nat × Nat)) (weight : Nat) : List Entry :=
  (weights.filter fun (w, _) => w == weight).flatMap fun (_, symbol) =>
    List.replicate (1 <<< (weight - 1)) ⟨UInt8.ofNat symbol, log + 1 - weight⟩

/-- The table of some weights, without that of the last symbol: it is what completes the sum to a
power of two. -/
def ofWeights (weights : Array Nat) : Except Fault Table := do
  if weights.any (maxLog < ·) then throw .corruption
  let total := weights.foldr (fun w sum => (if w = 0 then 0 else 1 <<< (w - 1)) + sum) 0
  if total = 0 then throw .corruption
  let log := total.log2 + 1
  let rest := (1 <<< log) - total
  if maxLog < log ∨ 1 <<< rest.log2 ≠ rest then throw .corruption
  let weights := weights.push (rest.log2 + 1)
  let ones := weights.countP (· == 1)
  if ones < 2 ∨ ones % 2 = 1 ∨ 256 < weights.size then throw .corruption
  let indexed := weights.toList.zipIdx
  return ⟨log, ((List.range log).flatMap fun w => entriesOf log indexed (w + 1)).toArray⟩

/-- Decode `count` literals. -/
def decode (t : Table) : (count : Nat) → BackwardBits → ByteArray → ByteArray × BackwardBits
  | 0, bits, out => (out, bits)
  | count + 1, bits, out =>
    let entry := t.entries.getD (bits.peek t.log) default
    decode t count (bits.skip entry.bits) (out.push entry.symbol)

/-- Decode `count` literals from a range of bytes, which have to be used up by them. -/
def decodeRange (t : Table) (data : ByteArray) (start stop count : Nat) (out : ByteArray) :
    Except Fault ByteArray := do
  let some bits := BackwardBits.ofRange? data start stop | throw .corruption
  let (out, bits) := t.decode count bits out
  if bits.atStart then return out else throw .corruption

end Table

end Sluice.Zstd.Huffman
