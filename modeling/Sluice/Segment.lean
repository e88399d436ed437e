import Sluice.Error
import Sluice.LittleEndian

/-!
# Segments

A segment is a range of bytes in a buffer, given by two 64-bit words. Tables of segments have a
packed form: records of 16 bytes, the offset and then the length, both little-endian.

* `Segment.end?` — where the segment ends, if that is a 64-bit word.
* `Segment.parseTable`, `Segment.encodeTable` — the packed form.
-/

namespace Sluice

/-- A range of bytes: `length` of them from `offset` on. -/
structure Segment where
  offset : UInt64
  length : UInt64
  deriving DecidableEq, Repr, Inhabited

namespace Segment

/-- Size of the packed form of one segment. -/
def recordSize : Nat := 16

/-- One past the last byte, unless that is too large for a word. -/
def end? (s : Segment) : Option UInt64 :=
  let stop := s.offset.toNat + s.length.toNat
  if stop < UInt64.size then some (UInt64.ofNat stop) else none

/-- Whether the segment passes the check against a buffer of `size` bytes: it has an end, and the
end is not behind that of the buffer. -/
def fits (s : Segment) (size : Nat) : Bool :=
  match s.end? with
  | some stop => stop.toNat ≤ size
  | none => false

/-- Whether the segment lies within a buffer of `size` bytes, its numbers taken without a bound. -/
def Within (s : Segment) (size : Nat) : Prop := s.offset.toNat + s.length.toNat ≤ size

instance (s : Segment) (size : Nat) : Decidable (s.Within size) :=
  inferInstanceAs (Decidable (_ ≤ _))

/-! ## Packed tables -/

/-- The 16 bytes of one segment. -/
def encode (s : Segment) : List UInt8 :=
  LittleEndian.toBytes 8 s.offset.toNat ++ LittleEndian.toBytes 8 s.length.toNat

/-- The segment of one record. -/
def ofRecord (bytes : List UInt8) : Segment :=
  ⟨UInt64.ofNat (LittleEndian.ofBytes (bytes.take 8)),
    UInt64.ofNat (LittleEndian.ofBytes ((bytes.drop 8).take 8))⟩

/-- The packed form of a table. -/
def encodeTable (segments : List Segment) : List UInt8 := segments.flatMap encode

/-- The segments of as many records as `bytes` hold. -/
def ofRecords (bytes : List UInt8) : List Segment :=
  if _h : bytes.length < recordSize then []
  else ofRecord bytes :: ofRecords (bytes.drop recordSize)
termination_by bytes.length
decreasing_by simp [recordSize] at _h ⊢; omega

/-- Read a packed table; it has to be a whole number of records. -/
def parseTable (bytes : List UInt8) : Except Failure (List Segment) :=
  if bytes.length % recordSize = 0 then .ok (ofRecords bytes)
  else .error (.misuse (.raggedTable recordSize))

end Segment

end Sluice
