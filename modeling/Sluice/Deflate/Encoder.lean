import Sluice.Deflate.Code
import Sluice.Framer
import Sluice.LittleEndian
import Sluice.Repeats

/-!
# Making DEFLATE streams

A plain encoder. Input is collected up to the size of a block. At level 0 a block is stored; at the
others it is written in the fixed code, with the repeats in it.

* `fixedBlock`, `storedBlock` — the bits of one block.
* `Encoder` — a stream being made. A flush makes a block of whatever has been collected, be it nothing,
  and an empty stored block, which brings the stream to a byte boundary. So it always adds something.
-/

namespace Sluice.Deflate

/-! ## Bits -/

/-- The last `count` bits of a number, the least significant first. -/
def lowBits (count value : Nat) : List Bool := (List.range count).map value.testBit

/-- The bits of a code word, the most significant first. -/
def wordBits (length word : Nat) : List Bool := (lowBits length word).reverse

/-- The number that up to eight bits stand for, the least significant first. -/
def bitsValue : List Bool → Nat
  | [] => 0
  | bit :: rest => bit.toNat + 2 * bitsValue rest

/-- Whole bytes of some bits, and the bits that are left. -/
def packBits (bits : List Bool) (acc : Array UInt8) : List UInt8 × List Bool :=
  match bits with
  | a :: b :: c :: d :: e :: f :: g :: h :: rest =>
    packBits rest (acc.push (UInt8.ofNat (bitsValue [a, b, c, d, e, f, g, h])))
  | _ => (acc.toList, bits)
termination_by structural bits

/-- Fill up to a byte boundary with zeros. -/
def padBits (bits : List Bool) : List Bool :=
  bits ++ List.replicate ((8 - bits.length % 8) % 8) false

/-! ## Blocks -/

/-- The word of a literal, an end of block or a length in the fixed code. -/
def fixedWord (symbol : Nat) : List Bool :=
  if symbol < 144 then wordBits 8 (0x30 + symbol)
  else if symbol < 256 then wordBits 9 (0x190 + (symbol - 144))
  else if symbol < 280 then wordBits 7 (symbol - 256)
  else wordBits 8 (0xC0 + (symbol - 280))

/-- The index of the range that a number lies in, and its extra bits. -/
def rangeFor (ranges : Array (Nat × Nat)) (n : Nat) : Nat × List Bool :=
  let index := (ranges.toList.takeWhile fun (base, _) => base ≤ n).length - 1
  let (base, bits) := ranges.getD index (0, 0)
  (index, lowBits bits (n - base))

/-- A repeat in the fixed code. -/
def repeatBits (r : Repeat) : List Bool :=
  let (length, lengthExtra) := rangeFor lengthRanges r.length
  let (distance, distanceExtra) := rangeFor distanceRanges r.distance
  fixedWord (endOfBlock + 1 + length) ++ lengthExtra ++ wordBits 5 distance ++ distanceExtra

/-- Literals in the fixed code. -/
def literalBits (bytes : List UInt8) : List Bool := bytes.flatMap fun byte => fixedWord byte.toNat

/-- Bytes from `done` on, with the repeats in them. -/
def tokenBits (data : ByteArray) : (done : Nat) → List Repeat → List Bool
  | done, [] => literalBits (data.extract done data.size).toList
  | done, r :: rest =>
    literalBits (data.extract done r.start).toList ++ repeatBits r
      ++ tokenBits data (r.start + r.length) rest

/-- The repeats that DEFLATE can express and that are worth it. -/
def repeatRule : RepeatRule := ⟨6, 258, 32768⟩

/-- A block in the fixed code. -/
def fixedBlock (data : ByteArray) (last : Bool) : List Bool :=
  last :: true :: false :: tokenBits data 0 (Repeat.all repeatRule data) ++ fixedWord endOfBlock

/-- A stored block, behind bits that are to be filled up first. -/
def storedBlock (before : List Bool) (data : List UInt8) (last : Bool) : List Bool :=
  let size := data.length
  padBits (before ++ [last, false, false]) ++ lowBits 16 size ++ lowBits 16 (65535 - size)
    ++ data.flatMap fun byte => lowBits 8 byte.toNat

/-! ## Streams -/

/-- A stream being made: whether blocks are only stored, the bits after the last whole byte, the
input since the last block, and whether the last block has been made. -/
structure Encoder where
  plain : Bool
  bits : List Bool
  block : ByteArray
  ended : Bool

namespace Encoder

/-- In front of a stream at a level. -/
def new (level : Int) : Encoder := ⟨level ≤ 0, [], .empty, false⟩

/-- Size of a full block. -/
def blockSize : Nat := 32768

/-- The bits of the collected input as a block, behind the bits that are left over. -/
def blockBits (e : Encoder) (last : Bool) : List Bool :=
  if e.plain then storedBlock e.bits e.block.toList last else e.bits ++ fixedBlock e.block last

/-- Take one byte. -/
def accept (e : Encoder) (byte : UInt8) : Except String (List UInt8) × Encoder :=
  let e := { e with block := e.block.push byte }
  if e.block.size < blockSize then (.ok [], e)
  else
    let (output, bits) := packBits (e.blockBits false) #[]
    (.ok output, { e with bits, block := .empty })

/-- Make a block of what has been collected, and get to a byte boundary. -/
def flush (e : Encoder) : Except String (List UInt8) × Encoder :=
  let (output, _) := packBits (storedBlock (e.blockBits false) [] false) #[]
  (.ok output, { e with bits := [], block := .empty })

/-- Make the last block. -/
def finish (e : Encoder) : Except String (List UInt8) × Encoder :=
  if e.ended then (.ok [], e)
  else
    let (output, _) := packBits (padBits (e.blockBits true)) #[]
    (.ok output, { e with bits := [], block := .empty, ended := true })

instance : ByteEncoder Encoder where
  begin e := e
  accept := accept
  flush := flush
  finish := finish
  reset e := ⟨e.plain, [], .empty, false⟩
  pledge e _ := (.ok (), e)

/-- The encoder with a queue. Where there is no input, a flush gives only the output that has been
waiting for room, if there is any: the next flush goes on from there. -/
instance : Framer (Outgoing Encoder) where
  compress o unread room
    | .proceed => o.run unread room
    | .flush =>
      let first := o.run unread room
      if unread.isEmpty && !first.output.isEmpty then first
      else o.runThen unread room ByteEncoder.flush
    | .finish => o.runThen unread room ByteEncoder.finish
  reset := Outgoing.reset
  pledge := Outgoing.pledge

end Encoder

end Sluice.Deflate
