import Sluice.LittleEndian
import Sluice.Zstd.Fault

/-!
# Frame headers

The first bytes of a frame, up to its first block.

* `startsFrame` — whether some first bytes can begin a frame or a skippable frame.
* `Header.size` — how long a header is, from its descriptor byte.
* `Header.parse`, `Header.ofFrame?`, `Header.encode` — what a header says, and its bytes.
-/

namespace Sluice.Zstd

/-! ## Magic numbers -/

/-- The first bytes of a frame. -/
def frameMagic : List UInt8 := [0x28, 0xB5, 0x2F, 0xFD]

/-- Whether `bytes`, at most four of them, can begin a frame. -/
def startsFrame (bytes : List UInt8) : Bool := bytes.isPrefixOf frameMagic

/-- Whether `bytes`, at most four of them, can begin a skippable frame: the lower half of the
first byte is free. -/
def startsSkippable (bytes : List UInt8) : Bool :=
  match bytes with
  | [] => true
  | first :: rest => first &&& 0xF0 == 0x50 && rest.isPrefixOf [0x2A, 0x4D, 0x18]

/-! ## Headers -/

/-- The largest block, packed or not. -/
def blockLimit : Nat := 131072

/-- What a frame's header says. -/
structure Header where
  windowSize : Nat
  contentSize : Option Nat
  hasChecksum : Bool
  dictionary : Nat
  deriving DecidableEq, Repr

namespace Header

/-- Bytes of the dictionary field, by descriptor. -/
def dictionaryBytes (descriptor : Nat) : Nat := [0, 1, 2, 4].getD (descriptor % 4) 0

/-- Whether the frame has a single segment, so that its window is its content. -/
def isSingle (descriptor : Nat) : Bool := descriptor / 32 % 2 == 1

/-- Bytes of the content size field, by descriptor. -/
def contentSizeBytes (descriptor : Nat) : Nat :=
  [if isSingle descriptor then 1 else 0, 2, 4, 8].getD (descriptor / 64) 0

/-- Bytes of the window field, by descriptor. -/
def windowBytes (descriptor : Nat) : Nat := if isSingle descriptor then 0 else 1

/-- Bytes of the header after the magic number, by descriptor. -/
def size (descriptor : Nat) : Nat :=
  1 + windowBytes descriptor + dictionaryBytes descriptor + contentSizeBytes descriptor

/-- The largest window logarithm there is. -/
def windowLogLimit : Nat := 31

/-- The window that a window byte stands for: a power of two and a number of eighths of it. -/
def windowOf (byte : Nat) : Nat :=
  let base := 1 <<< (byte / 8 + 10)
  base + base / 8 * (byte % 8)

/-- The content size in a field; two bytes start counting at 256. -/
def contentSizeOf (field : List UInt8) : Option Nat :=
  match field.length with
  | 0 => none
  | 2 => some (LittleEndian.ofBytes field + 256)
  | _ => some (LittleEndian.ofBytes field)

/-- Read a header, given without the magic number and of the length that its descriptor asks for.
-/
def parse (bytes : List UInt8) : Except Fault Header := do
  let descriptor := (bytes.headD 0).toNat
  let fields := bytes.tail
  let window := fields.take (windowBytes descriptor)
  let fields := fields.drop (windowBytes descriptor)
  let dictionary := fields.take (dictionaryBytes descriptor)
  let contentSize := contentSizeOf (fields.drop (dictionaryBytes descriptor))
  if descriptor / 8 % 2 = 1 then throw .unsupportedParameter
  let windowByte := (window.headD 0).toNat
  if windowLogLimit < windowByte / 8 + 10 then throw .windowTooLarge
  return {
    windowSize := if isSingle descriptor then contentSize.getD 0 else windowOf windowByte
    contentSize
    hasChecksum := descriptor / 4 % 2 = 1
    dictionary := LittleEndian.ofBytes dictionary }

/-- The header that a frame starts with, behind its magic number, and what comes after it; `none`
if it is not all there or says something impossible. -/
def ofFrame? (frame : List UInt8) : Option (Header × List UInt8) :=
  let rest := frame.drop frameMagic.length
  let (bytes, body) := rest.splitAt (size (rest.headD 0).toNat)
  if frameMagic.isPrefixOf frame ∧ bytes.length = size (rest.headD 0).toNat then
    (parse bytes).toOption.map (·, body)
  else none

/-- The largest block the frame may hold. -/
def maxBlock (h : Header) : Nat := min h.windowSize blockLimit

/-- The smallest content size field for a number, and its code in the descriptor. -/
def encodeContentSize (single : Bool) (n : Nat) : Nat × List UInt8 :=
  if single ∧ n < 256 then (0, LittleEndian.toBytes 1 n)
  else if 256 ≤ n ∧ n < 65536 + 256 then (1, LittleEndian.toBytes 2 (n - 256))
  else if n < UInt32.size then (2, LittleEndian.toBytes 4 n)
  else (3, LittleEndian.toBytes 8 n)

/-- The bytes, magic number included, of the header of a frame with a window of `2 ^ windowLog`
bytes. Content that fits into the window makes a single segment. -/
def encode (windowLog : Nat) (contentSize : Option Nat) (checksum : Bool) : List UInt8 :=
  let flag := if checksum then 4 else 0
  match contentSize with
  | none => frameMagic ++ [UInt8.ofNat flag, UInt8.ofNat ((windowLog - 10) * 8)]
  | some n =>
    let single := n ≤ 1 <<< windowLog
    let (code, field) := encodeContentSize single n
    let descriptor := UInt8.ofNat (code * 64 + (if single then 32 else 0) + flag)
    let window := if single then [] else [UInt8.ofNat ((windowLog - 10) * 8)]
    frameMagic ++ descriptor :: window ++ field

end Header

end Sluice.Zstd
