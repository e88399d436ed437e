import Sluice.Zstd.Fse

/-!
# Sequences

The second part of a compressed block. A sequence copies some literals to the output and then
repeats earlier output. Its three numbers are coded by a symbol, which gives a base and a number
of extra bits; the symbols are entropy coded.

* `Code` — the three kinds of symbols with their bases, limits and default tables.
* `Tables` — the tables of the current frame, which a later block may use again.
* `Recent` — the three most recent offsets, which a sequence can name by rank.
* `decodeSequences` — the sequences of a block.
-/

namespace Sluice.Zstd

/-! ## Codes -/

/-- A kind of symbols. -/
structure Code where
  /-- the largest logarithm of a table size -/
  maxLog : Nat
  maxSymbol : Nat
  /-- the table used when a block gives none -/
  fallback : Fse.Table

namespace Code

/-- Symbols for numbers of literals. -/
def literalLength : Code where
  maxLog := 9
  maxSymbol := 35
  fallback := .ofCounts 6 #[4, 3, 2, 2, 2, 2, 2, 2, 2, 2, 2, 2, 2, 1, 1, 1, 2, 2, 2, 2, 2, 2, 2, 2,
    2, 3, 2, 1, 1, 1, 1, 1, -1, -1, -1, -1]

/-- Symbols for lengths of matches. -/
def matchLength : Code where
  maxLog := 9
  maxSymbol := 52
  fallback := .ofCounts 6 #[1, 4, 3, 2, 2, 2, 2, 2, 2, 1, 1, 1, 1, 1, 1, 1, 1, 1, 1, 1, 1, 1, 1, 1,
    1, 1, 1, 1, 1, 1, 1, 1, 1, 1, 1, 1, 1, 1, 1, 1, 1, 1, 1, 1, 1, 1, -1, -1, -1, -1, -1, -1, -1]

/-- Symbols for offsets of matches. -/
def offset : Code where
  maxLog := 8
  maxSymbol := 31
  fallback := .ofCounts 5 #[1, 1, 1, 1, 1, 1, 2, 2, 2, 1, 1, 1, 1, 1, 1, 1, 1, 1, 1, 1, 1, 1, 1, 1,
    -1, -1, -1, -1, -1]

end Code

/-- Extra bits of the symbols for numbers of literals, from symbol 16 on. -/
def literalLengthBits : List Nat := [1, 1, 1, 1, 2, 2, 3, 3, 4, 6, 7, 8, 9, 10, 11, 12, 13, 14, 15, 16]

/-- Extra bits of the symbols for lengths of matches, from symbol 32 on. -/
def matchLengthBits : List Nat := [1, 1, 1, 1, 2, 2, 3, 3, 4, 4, 5, 7, 8, 9, 10, 11, 12, 13, 14, 15, 16]

/-- Bases and extra bits: the first symbols stand for `first`, `first + 1`, … alone, each of the
others for as many numbers as its extra bits tell apart. -/
def ranges (first singles : Nat) (bits : List Nat) : Array (Nat × Nat) :=
  let alone := (List.range singles).map fun i => (first + i, 0)
  let (_, rest) := bits.foldl (fun (base, acc) bits => (base + (1 <<< bits), acc.push (base, bits)))
    (first + singles, (#[] : Array (Nat × Nat)))
  alone.toArray ++ rest

/-- Bases and extra bits of numbers of literals. -/
def literalLengthRanges : Array (Nat × Nat) := ranges 0 16 literalLengthBits

/-- Bases and extra bits of lengths of matches; no match is shorter than 3. -/
def matchLengthRanges : Array (Nat × Nat) := ranges 3 32 matchLengthBits

/-! ## Tables -/

/-- Tables that a later block may use again. -/
structure Tables where
  literalLength : Option Fse.Table
  offset : Option Fse.Table
  matchLength : Option Fse.Table

/-- The tables at the start of a frame: none. -/
def Tables.none : Tables := ⟨.none, .none, .none⟩

/-- The table of one code, as a block asks for it in `mode`, and the byte after its description. -/
def chooseTable (code : Code) (mode : Nat) (data : ByteArray) (start stop : Nat)
    (earlier : Option Fse.Table) : Except Fault (Fse.Table × Nat) :=
  match mode with
  | 0 => .ok (code.fallback, start)
  | 1 =>
    let symbol := byteAt data start
    if stop ≤ start ∨ code.maxSymbol < symbol then .error .corruption
    else .ok (.single symbol, start + 1)
  | 2 => do
    let (log, counts, after) ← Fse.readCounts data start stop code.maxLog code.maxSymbol
    return (.ofCounts log counts, after)
  | _ =>
    match earlier with
    | some table => .ok (table, start)
    | none => .error .corruption

/-! ## Recent offsets -/

/-- The three most recent offsets, the latest first. -/
structure Recent where
  first : Nat
  second : Nat
  third : Nat
  deriving DecidableEq, Repr

namespace Recent

/-- What a frame starts with. -/
def initial : Recent := ⟨1, 4, 8⟩

/-- The offset for a coded value, and the recent offsets afterwards. The values 1 to 3 name recent
offsets; in a sequence without literals they are shifted by one, and the last of them means one
less than the latest offset. -/
def resolve (r : Recent) (value : Nat) (noLiterals : Bool) : Nat × Recent :=
  if 3 < value then (value - 3, ⟨value - 3, r.first, r.second⟩)
  else
    match if noLiterals then value + 1 else value with
    | 1 => (r.first, r)
    | 2 => (r.second, ⟨r.second, r.first, r.third⟩)
    | 3 => (r.third, ⟨r.third, r.first, r.second⟩)
    | _ => (r.first - 1, ⟨r.first - 1, r.first, r.second⟩)

end Recent

/-! ## Sequences -/

/-- Copy `literals` bytes, then `length` bytes from `offset` bytes back. -/
structure Sequence where
  literals : Nat
  offset : Nat
  length : Nat
  deriving DecidableEq, Repr

/-- The states of the three decoders, on one bit stream. -/
structure SequenceReader where
  bits : BackwardBits
  literalLength : Nat
  offset : Nat
  matchLength : Nat
  recent : Recent

namespace SequenceReader

/-- The tables of a block. -/
structure Coding where
  literalLength : Fse.Table
  offset : Fse.Table
  matchLength : Fse.Table

/-- Read the first states. -/
def start (c : Coding) (bits : BackwardBits) (recent : Recent) : SequenceReader :=
  let (literalLength, bits) := c.literalLength.start bits
  let (offset, bits) := c.offset.start bits
  let (matchLength, bits) := c.matchLength.start bits
  ⟨bits, literalLength, offset, matchLength, recent⟩

/-- Read one sequence: the extra bits of the offset, of the match, of the literals. -/
def sequence (c : Coding) (r : SequenceReader) : Sequence × SequenceReader :=
  let offsetBits := c.offset.symbol r.offset
  let (matchBase, matchBits) := matchLengthRanges.getD (c.matchLength.symbol r.matchLength) (0, 0)
  let (literalBase, literalBits) :=
    literalLengthRanges.getD (c.literalLength.symbol r.literalLength) (0, 0)
  let (extra, bits) := r.bits.read offsetBits
  let value := (1 <<< offsetBits) + extra
  let (extra, bits) := bits.read matchBits
  let length := matchBase + extra
  let (extra, bits) := bits.read literalBits
  let literals := literalBase + extra
  let (offset, recent) := r.recent.resolve value (literals == 0)
  (⟨literals, offset, length⟩, { r with bits, recent })

/-- Move on to the next states. -/
def next (c : Coding) (r : SequenceReader) : SequenceReader :=
  let (literalLength, bits) := c.literalLength.next r.literalLength r.bits
  let (matchLength, bits) := c.matchLength.next r.matchLength bits
  let (offset, bits) := c.offset.next r.offset bits
  { r with literalLength, matchLength, offset, bits }

/-- Read `count` sequences; the states do not move after the last one. -/
def run (c : Coding) : (count : Nat) → SequenceReader → Array Sequence →
    Array Sequence × SequenceReader
  | 0, r, acc => (acc, r)
  | count + 1, r, acc =>
    let (s, r) := r.sequence c
    run c count (if count = 0 then r else r.next c) (acc.push s)

end SequenceReader

/-- The sequences of a block, and what the next block starts from. -/
structure Sequences where
  list : Array Sequence
  tables : Tables
  recent : Recent

/-- The number of sequences in a section, in one, two or three bytes, and the byte after it. -/
def sequenceCount (data : ByteArray) (start : Nat) : Nat × Nat :=
  let head := byteAt data start
  if head < 128 then (head, start + 1)
  else if head < 255 then ((head - 128) * 256 + byteAt data (start + 1), start + 2)
  else (wordAt data (start + 1) 2 + 0x7F00, start + 3)

/-- Decode the sequences section in the bytes from `start` to `stop`. -/
def decodeSequences (data : ByteArray) (start stop : Nat) (tables : Tables) (recent : Recent) :
    Except Fault Sequences := do
  if stop ≤ start then throw .corruption
  let (count, modesAt) := sequenceCount data start
  if count = 0 then
    if modesAt = stop then return ⟨#[], tables, recent⟩ else throw .corruption
  if stop ≤ modesAt then throw .corruption
  let modes := byteAt data modesAt
  if modes % 4 ≠ 0 then throw .corruption
  let (literalLength, at1) ←
    chooseTable .literalLength (modes / 64) data (modesAt + 1) stop tables.literalLength
  let (offset, at2) ← chooseTable .offset (modes / 16 % 4) data at1 stop tables.offset
  let (matchLength, at3) ←
    chooseTable .matchLength (modes / 4 % 4) data at2 stop tables.matchLength
  let some bits := BackwardBits.ofRange? data at3 stop | throw .corruption
  let coding : SequenceReader.Coding := ⟨literalLength, offset, matchLength⟩
  let (list, r) := SequenceReader.run coding count (.start coding bits recent) #[]
  if !r.bits.atStart then throw .corruption
  return ⟨list, ⟨some literalLength, some offset, some matchLength⟩, r.recent⟩

end Sluice.Zstd
