import Sluice.Segment

/-!
# Segmented buffers

One piece of memory and a table of segments into it. A table from outside is checked once, when
the buffer is made (`SegmentedBuffer.ofTable`); after that every segment can be cut out without
another check.

* `Backing` — the memory, owned or borrowed.
* `SegmentView` — one segment, cut out.
* `SegmentedBuffer.itemAt`, `SegmentedBuffer.items` — the views.
-/

namespace Sluice

/-- The memory of a buffer. -/
structure Backing where
  bytes : Array UInt8
  /-- whether the memory belongs to the buffer, or to somebody who outlives it -/
  owned : Bool
  deriving DecidableEq, Repr

/-- One segment of a buffer. -/
structure SegmentView where
  /-- where the segment starts in its buffer -/
  offset : UInt64
  bytes : List UInt8
  deriving DecidableEq, Repr

/-- Memory with addressable segments. -/
structure SegmentedBuffer where
  backing : Backing
  segments : Array Segment
  deriving DecidableEq, Repr

namespace SegmentedBuffer

/-! ## Making buffers -/

/-- The first segment, counted from `index`, that reaches outside of `size` bytes. -/
def firstOverreach (size : Nat) : (index : Nat) → List Segment → Option (Nat × Segment)
  | _, [] => none
  | index, s :: rest => if s.fits size then firstOverreach size (index + 1) rest else some (index, s)

/-- A buffer over memory, if all segments lie within it. -/
def ofSegments (backing : Backing) (segments : List Segment) : Except Failure SegmentedBuffer :=
  let size := backing.bytes.size
  match firstOverreach size 0 segments with
  | none => .ok ⟨backing, segments.toArray⟩
  | some (index, s) =>
    .error (.bounds (.segment index s.offset.toNat s.length.toNat size))

/-- A buffer over borrowed memory, with its segments in packed form. -/
def ofTable (bytes : List UInt8) (table : List UInt8) : Except Failure SegmentedBuffer :=
  match Segment.parseTable table with
  | .error failure => .error failure
  | .ok segments => ofSegments ⟨bytes.toArray, false⟩ segments

/-- Nothing, owned, without segments. -/
def empty : SegmentedBuffer := ⟨⟨#[], true⟩, #[]⟩

/-- Add a segment with its bytes at the end. It lies within the buffer, so nothing is checked. -/
def push (b : SegmentedBuffer) (bytes : List UInt8) : SegmentedBuffer :=
  ⟨{ b.backing with bytes := b.backing.bytes ++ bytes },
    b.segments.push ⟨UInt64.ofNat b.backing.bytes.size, UInt64.ofNat bytes.length⟩⟩

/-! ## Looking at buffers -/

/-- The number of segments. -/
def length (b : SegmentedBuffer) : Nat := b.segments.size

/-- The number of bytes, in segments or not. -/
def size (b : SegmentedBuffer) : Nat := b.backing.bytes.size

/-- The packed form of the table. -/
def table (b : SegmentedBuffer) : List UInt8 := Segment.encodeTable b.segments.toList

/-- Cut a segment out. Its end is not looked at again; it is added up in words. -/
def view (b : SegmentedBuffer) (s : Segment) : SegmentView :=
  let stop := s.offset + s.length
  ⟨s.offset, (b.backing.bytes.extract s.offset.toNat stop.toNat).toList⟩

/-- The segment with the given index. -/
def itemAt (b : SegmentedBuffer) (index : Nat) : Except Failure SegmentView :=
  match b.segments[index]? with
  | some s => .ok (b.view s)
  | none => .error (.indexOutOfRange index b.length)

/-- Whether the segments lie one after the other, without gaps, and fill the memory. -/
def isPacked (b : SegmentedBuffer) : Bool :=
  let (contiguous, total) := b.segments.foldl (fun (contiguous, total) s =>
    (contiguous && s.offset.toNat == total, total + s.length.toNat)) (true, 0)
  contiguous && total == b.size

/-- All segments in order. -/
def items (b : SegmentedBuffer) : List SegmentView :=
  (List.range b.length).filterMap fun index => (b.itemAt index).toOption

end SegmentedBuffer

end Sluice
