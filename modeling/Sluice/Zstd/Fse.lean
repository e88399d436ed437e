import Sluice.BitAccess
import Sluice.Zstd.Fault

/-!
# Finite-state entropy tables

A table of `2 ^ log` cells decodes symbols from a backward bit stream: the cell of the current
state names a symbol, and says how many bits to read and what to add to them to get the next
state. A table is given by the counts of its symbols; the count -1 stands for a symbol rarer than
one cell.

* `readCounts` — the counts as a frame holds them.
* `Table.ofCounts` — the table of some counts.
* `Table.start`, `Table.next` — the moves of a decoder.
-/

namespace Sluice.Zstd.Fse

/-! ## Counts -/

/-- A position in a header, and the counts read so far. -/
structure CountReader where
  pos : Nat
  counts : Array Int

/-- Read two-bit numbers of zero counts as long as they are 3. -/
def CountReader.zeros (data : ByteArray) : (fuel : Nat) → CountReader → CountReader
  | 0, r => r
  | fuel + 1, r =>
    let repeats := bitsAt data r.pos 2
    let r := ⟨r.pos + 2, r.counts ++ Array.replicate repeats 0⟩
    if repeats = 3 then zeros data fuel r else r

/-- Read the next count; `remaining` cells have no symbol yet. The smaller values of a count take
one bit less than the others. -/
def CountReader.next (data : ByteArray) (remaining : Nat) (r : CountReader) : Nat × CountReader :=
  let width := (remaining + 1).log2 + 1
  let value := bitsAt data r.pos width
  let low := value % (1 <<< (width - 1))
  let threshold := (1 <<< width) - 1 - (remaining + 1)
  if low < threshold then (low, ⟨r.pos + (width - 1), r.counts⟩)
  else
    (if 1 <<< (width - 1) ≤ value then value - threshold else value, ⟨r.pos + width, r.counts⟩)

/-- Read counts until every cell has a symbol. -/
def CountReader.run (data : ByteArray) : (fuel : Nat) → (remaining : Nat) → CountReader →
    Option CountReader
  | _, 0, r => some r
  | 0, _ + 1, _ => none
  | fuel + 1, remaining, r =>
    let (value, r) := r.next data remaining
    let count : Int := value - 1
    let r : CountReader := { r with counts := r.counts.push count }
    let r := if count = 0 then r.zeros data 256 else r
    CountReader.run data fuel (remaining - count.natAbs) r

/-- The counts that the bytes from `start` to `stop` begin with: the logarithm of the table size,
the counts, and the byte after them. -/
def readCounts (data : ByteArray) (start stop maxLog maxSymbol : Nat) :
    Except Fault (Nat × Array Int × Nat) := do
  let log := bitsAt data (8 * start) 4 + 5
  if maxLog < log then throw .corruption
  let some r := CountReader.run data (maxSymbol + 1) (1 <<< log) ⟨8 * start + 4, #[]⟩
    | throw .corruption
  let after := (r.pos + 7) / 8
  if stop < after ∨ maxSymbol + 1 < r.counts.size then throw .corruption
  return (log, r.counts, after)

/-! ## Tables -/

/-- One state: its symbol, the bits to read, and what to add to them. -/
structure Cell where
  symbol : Nat
  bits : Nat
  base : Nat
  deriving DecidableEq, Repr, Inhabited

/-- A table of `2 ^ log` states. -/
structure Table where
  log : Nat
  cells : Array Cell
  deriving Repr

namespace Table

/-- A table with one state, which never reads a bit. -/
def single (symbol : Nat) : Table := ⟨0, #[⟨symbol, 0, 0⟩]⟩

/-- The symbol of every state. The rare symbols take the last states, in order from the end; the
others are dealt out over the rest in steps that are coprime to the size. -/
def spread (log : Nat) (counts : Array Int) : Array Nat :=
  let size := 1 <<< log
  let step := size / 2 + size / 8 + 3
  let symbols := counts.toList.zipIdx
  let rare := (symbols.filter fun (count, _) => count == -1).map Prod.snd
  let common := symbols.flatMap fun (count, symbol) => List.replicate count.toNat symbol
  let free := size - rare.length
  let places := ((List.range size).map fun i => i * step % size).filter (· < free)
  let states := rare.zipIdx.foldl (fun states (symbol, i) =>
    states.setIfInBounds (size - 1 - i) symbol) (Array.replicate size 0)
  (places.zip common).foldl (fun states (place, symbol) =>
    states.setIfInBounds place symbol) states

/-- Number the states of each symbol from its count upwards: a state with number `n` reads as many
bits as bring `n` up to the table size. -/
def number (log : Nat) : List Nat → Array Nat → Array Cell → Array Cell
  | [], _, cells => cells
  | symbol :: rest, next, cells =>
    let n := next.getD symbol 1
    let bits := log - n.log2
    number log rest (next.setIfInBounds symbol (n + 1))
      (cells.push ⟨symbol, bits, n * (1 <<< bits) - (1 <<< log)⟩)

/-- The table of some counts, which add up to its size. -/
def ofCounts (log : Nat) (counts : Array Int) : Table :=
  ⟨log, number log (spread log counts).toList (counts.map Int.natAbs) #[]⟩

/-- The cell of a state. -/
def cell (t : Table) (state : Nat) : Cell := t.cells.getD state default

/-- Read the first state. -/
def start (t : Table) (bits : BackwardBits) : Nat × BackwardBits := bits.read t.log

/-- Read the next state. -/
def next (t : Table) (state : Nat) (bits : BackwardBits) : Nat × BackwardBits :=
  let cell := t.cell state
  let (value, bits) := bits.read cell.bits
  (cell.base + value, bits)

/-- The symbol of a state. -/
def symbol (t : Table) (state : Nat) : Nat := (t.cell state).symbol

end Table

end Sluice.Zstd.Fse
