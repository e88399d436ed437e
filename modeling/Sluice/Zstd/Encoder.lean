import Sluice.Framer
import Sluice.Repeats
import Sluice.XxHash
import Sluice.Zstd.Header
import Sluice.Zstd.Sequence

/-!
# Making Zstandard frames

A plain encoder. Input is collected up to the size of a block; of a block, each long repeat becomes
a compressed block with one sequence, and the rest raw blocks.

* `encodeBlocks` — the blocks of some input.
* `Encoder` — a frame being made: header, blocks, checksum. The header is written with the first
  block, so that a size that is known by then can be put into it.
-/

namespace Sluice.Zstd

/-! ## Blocks -/

/-- The three bytes in front of a block. -/
def blockHeader (size type : Nat) (last : Bool) : List UInt8 :=
  LittleEndian.toBytes 3 (size * 8 + type * 2 + last.toNat)

/-- A raw block. -/
def rawBlock (bytes : List UInt8) (last : Bool) : List UInt8 :=
  blockHeader bytes.length 0 last ++ bytes

/-- The size in front of plain literals, in as few bytes as it fits in. -/
def plainLiteralsHeader (count : Nat) : List UInt8 :=
  if count < 32 then LittleEndian.toBytes 1 (count * 8)
  else if count < 4096 then LittleEndian.toBytes 2 (count * 16 + 4)
  else LittleEndian.toBytes 3 (count * 16 + 12)

/-- The symbol for a number, and the number of its extra bits and their value. -/
def symbolFor (ranges : Array (Nat × Nat)) (n : Nat) : Nat × Nat × Nat :=
  let symbol := (ranges.toList.takeWhile fun (base, _) => base ≤ n).length - 1
  let (base, bits) := ranges.getD symbol (0, 0)
  (symbol, bits, n - base)

/-- A compressed block of plain literals and one sequence. Each table has a single symbol, so that
only extra bits remain to be written. -/
def sequenceBlock (literals : List UInt8) (r : Repeat) (last : Bool) : List UInt8 :=
  let (literalSymbol, literalBits, literalExtra) := symbolFor literalLengthRanges literals.length
  let (matchSymbol, matchBits, matchExtra) := symbolFor matchLengthRanges r.length
  let value := r.distance + 3
  let offsetBits := value.log2
  let extra := ((value - (1 <<< offsetBits)) * (1 <<< matchBits) + matchExtra) * (1 <<< literalBits) +
    literalExtra
  let width := offsetBits + matchBits + literalBits
  let content := plainLiteralsHeader literals.length ++ literals ++
    [1, 0x54, UInt8.ofNat literalSymbol, UInt8.ofNat offsetBits, UInt8.ofNat matchSymbol] ++
    LittleEndian.toBytes (width / 8 + 1) ((1 <<< width) + extra)
  blockHeader content.length 2 last ++ content

/-- Repeats that are worth a block of their own. -/
def repeatRule : RepeatRule := ⟨32, blockLimit, blockLimit⟩

/-- The blocks for the repeats, and where the last of them ends. -/
def repeatBlocks (data : ByteArray) : (done : Nat) → List Repeat → List UInt8 × Nat
  | done, [] => ([], done)
  | done, r :: rest =>
    let block := sequenceBlock (data.extract done r.start).toList r false
    let (blocks, done) := repeatBlocks data (r.start + r.length) rest
    (block ++ blocks, done)

/-- The blocks of some input. Only the last block of a frame may be empty. -/
def encodeBlocks (data : ByteArray) (last : Bool) : List UInt8 :=
  let (blocks, done) := repeatBlocks data 0 (Repeat.all repeatRule data)
  let rest := (data.extract done data.size).toList
  if rest.isEmpty && !last then blocks else blocks ++ rawBlock rest last

/-! ## Windows -/

/-- The window logarithm of each level from 1 on. -/
def levelWindowLogs : List Nat :=
  [19, 20, 21, 21, 21, 21, 21, 21, 22, 22, 22, 22, 22, 22, 22, 22, 23, 23, 23, 25, 26, 27]

/-- The window logarithm of a level; level 0 is the default one. -/
def levelWindowLog (level : Int) : Nat :=
  if level < 0 then 19 else if level = 0 then 21 else levelWindowLogs.getD (level.toNat - 1) 27

/-- The smallest window logarithm. -/
def minWindowLog : Nat := 10

/-- How frames are made. -/
structure Style where
  windowLog : Nat
  checksum : Bool
  contentSize : Bool
  deriving DecidableEq, Repr

/-- A window that is not larger than it has to be for input of a known size. -/
def Style.windowLogFor (s : Style) (size : Option Nat) : Nat :=
  match size with
  | none => s.windowLog
  | some n => max minWindowLog (min s.windowLog ((n - 1).log2 + 1))

/-! ## Frames -/

/-- How far a frame has come. -/
inductive Progress where
  /-- nothing has been asked for -/
  | idle
  /-- input is being taken -/
  | open
  /-- the last block has been made -/
  | ended
  /-- the frame was ended with less input than announced -/
  | short
  deriving DecidableEq, Repr

/-- A frame being made. -/
structure Encoder where
  style : Style
  progress : Progress
  /-- input size, if it has been announced -/
  size : Option Nat
  headerDone : Bool
  /-- input since the last block -/
  block : ByteArray
  /-- input that has gone into blocks -/
  content : ByteArray

namespace Encoder

/-- In front of a frame. -/
def new (style : Style) : Encoder := ⟨style, .idle, none, false, .empty, .empty⟩

/-- Size of a full block. -/
def blockSize (e : Encoder) : Nat := min blockLimit (1 <<< e.style.windowLogFor e.size)

/-- How much input is collected before a block is made. Input of exactly one block waits for more,
so that its block can be the last. -/
def target (e : Encoder) : Nat :=
  if e.content.size = 0 ∧ e.size = some e.blockSize then e.blockSize + 1 else e.blockSize

/-- The header, unless it has been written. -/
def header (e : Encoder) : List UInt8 :=
  if e.headerDone then []
  else Header.encode (e.style.windowLogFor e.size) (if e.style.contentSize then e.size else none)
    e.style.checksum

/-- Make blocks of the collected input. There may not be more input than announced. -/
def makeBlocks (e : Encoder) (last : Bool) : Except String (List UInt8) × Encoder :=
  if e.progress = .short then (.error Fault.wrongStage.text, e)
  else
    let header := e.header
    let content := e.content ++ e.block
    let blocks := encodeBlocks e.block last
    let total := content.size
    if e.size.any (· < total) then (.error Fault.wrongSourceSize.text, e)
    else (.ok (header ++ blocks), { e with headerDone := true, block := .empty, content })

/-- Something has been asked of the frame. -/
def begin (e : Encoder) : Encoder := if e.progress = .idle then { e with progress := .open } else e

/-- Take one byte. -/
def accept (e : Encoder) (byte : UInt8) : Except String (List UInt8) × Encoder :=
  let e := { e with block := e.block.push byte }
  if e.block.size < e.target then (.ok [], e) else e.makeBlocks false

/-- Make blocks of what has been collected, if anything has. -/
def flush (e : Encoder) : Except String (List UInt8) × Encoder :=
  let e := e.begin
  if e.block.isEmpty then (.ok [], e) else e.makeBlocks false

/-- Make the last block. A frame that is ended before anything has been asked of it is known to be
empty, whatever has been announced. -/
def finish (e : Encoder) : Except String (List UInt8) × Encoder :=
  if e.progress = .ended then (.ok [], e)
  else
    let e := if e.progress = .idle then { e with progress := .open, size := some 0 } else e
    match e.makeBlocks true with
    | (.error text, e) => (.error text, e)
    | (.ok output, e) =>
      if e.size.any (e.content.size < ·) then
        (.error Fault.wrongSourceSize.text, { e with progress := .short })
      else
        let checksum := if e.style.checksum
          then LittleEndian.toBytes 4 (XxHash.hash64 e.content).toNat else []
        (.ok (output ++ checksum), { e with progress := .ended })

/-- The size can be announced only in front of a frame. -/
def pledge (e : Encoder) (size : Option Nat) : Except String Unit × Encoder :=
  if e.progress = .idle then (.ok (), { e with size }) else (.error Fault.wrongStage.text, e)

instance : ByteEncoder Encoder where
  begin := begin
  accept := accept
  flush := flush
  finish := finish
  reset e := new e.style
  pledge := pledge

/-- Take the input, and then ask the encoder for more. Without input, it is asked at once, so that it
still knows of a frame that nothing has been written to. -/
def takeThen (o : Outgoing Encoder) (unread : List UInt8) (room : Nat)
    (request : Encoder → Except String (List UInt8) × Encoder) : Run (Outgoing Encoder) :=
  if unread.isEmpty then o.empty room request else o.runThen unread room request

/-- The encoder with a queue. -/
instance : Framer (Outgoing Encoder) where
  compress o unread room
    | .proceed => o.run unread room
    | .flush => takeThen o unread room ByteEncoder.flush
    | .finish => takeThen o unread room ByteEncoder.finish
  reset := Outgoing.reset
  pledge := Outgoing.pledge

end Encoder

end Sluice.Zstd
