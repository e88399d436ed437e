import Sluice.Segment.Buffer

/-!
# Collections of buffers

Several segmented buffers in a row, indexed as if their segment lists were one. Which buffer holds
an index is found by a binary search in the running totals of the segment counts.
-/

namespace Sluice

/-- The number of leading entries of `ends[lo .. hi]` that are at most `index`, plus `lo`; the
entries must not decrease. -/
def countUpTo (ends : Array Nat) (index lo hi : Nat) : Nat :=
  if _h : lo < hi then
    let mid := (lo + hi) / 2
    if ends.getD mid 0 ≤ index then countUpTo ends index (mid + 1) hi
    else countUpTo ends index lo mid
  else lo
termination_by hi - lo
decreasing_by all_goals omega

/-- Segmented buffers, each with the number of segments up to its end. -/
structure BufferCollection where
  buffers : Array SegmentedBuffer
  ends : Array Nat
  deriving Repr

namespace BufferCollection

/-- The running totals of the segment counts, from `total` on. -/
def runningTotals : (total : Nat) → List SegmentedBuffer → List Nat
  | _, [] => []
  | total, b :: rest => (total + b.length) :: runningTotals (total + b.length) rest

/-- A collection of at least one buffer; a buffer without segments or without bytes has no place
in it. -/
def ofList (buffers : List SegmentedBuffer) : Except Failure BufferCollection :=
  if buffers = [] then .error (.misuse .noBuffers)
  else if buffers.any fun b => b.length == 0 || b.size == 0 then .error (.misuse .emptyBuffer)
  else .ok ⟨buffers.toArray, (runningTotals 0 buffers).toArray⟩

/-- The number of segments of all buffers. -/
def length (c : BufferCollection) : Nat := c.ends.back?.getD 0

/-- The sum of the lengths of all segments. -/
def size (c : BufferCollection) : Nat :=
  (c.buffers.toList.flatMap fun b => b.segments.toList.map fun s => s.length.toNat).foldr
    (· + ·) 0

/-- The segment with the given index, counted over all buffers. -/
def itemAt (c : BufferCollection) (index : Nat) : Except Failure SegmentView :=
  if c.length ≤ index then .error (.indexOutOfRange index c.length)
  else
    let owner := countUpTo c.ends index 0 c.ends.size
    let before := if owner = 0 then 0 else c.ends.getD (owner - 1) 0
    match c.buffers[owner]? with
    | some b => b.itemAt (index - before)
    | none => .error (.indexOutOfRange index c.length)

/-- All segments of all buffers in order. -/
def items (c : BufferCollection) : List SegmentView :=
  c.buffers.toList.flatMap SegmentedBuffer.items

end BufferCollection

end Sluice
