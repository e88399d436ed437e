import Sluice.Cursor
import Sluice.Error

/-!
# Block lists

Output of unknown size is collected in blocks that are never resized: a window into the last block
stays valid until the block is full, and only then is the next, larger one added. The list may
have a limit on the sum of its block sizes.

* `blockSize` — the sizes: 32 KiB, 64 KiB, 256 KiB, 1 MiB, … and 256 MiB from the 17th block on.
* `BlockList.grow` — add the next block, as far as the limit allows.
* `BlockList.extend` — write bytes, growing where needed.
* `BlockList.finish` — all that has been written, as one piece.
-/

namespace Sluice

/-! ## Sizes -/

/-- Sizes of the first blocks, in KiB; the last one repeats. -/
def blockSizesKiB : List Nat :=
  [32, 64, 256, 1024, 4 * 1024, 8 * 1024, 16 * 1024, 16 * 1024, 32 * 1024, 32 * 1024, 32 * 1024,
    32 * 1024, 64 * 1024, 64 * 1024, 128 * 1024, 128 * 1024]

/-- Size of the block with the given index. -/
def blockSize (index : Nat) : Nat := blockSizesKiB.getD index (256 * 1024) * 1024

theorem blockSize_pos (index : Nat) : 0 < blockSize index := by
  have key : ∀ n ∈ blockSizesKiB, 0 < n := by decide
  unfold blockSize
  rw [List.getD_eq_getElem?_getD]
  rcases h : blockSizesKiB[index]? with _ | n
  · simp
  · have := key n (List.mem_of_getElem? h)
    simpa using this

/-- No piece of memory can be larger than this. -/
def allocationLimit : Nat := UInt64.size / 2 - 1

/-! ## Lists of blocks -/

/-- Output blocks: those before the last, the one being written, the sum of their sizes, and a
limit on it. -/
structure BlockList where
  earlier : Array Window
  active : Window
  allocated : Nat
  limit : Option Nat

namespace BlockList

/-- One empty block of `size` bytes, if such a block can exist. -/
def allocate (size : Nat) : Except Failure Window :=
  if allocationLimit < size then .error (.allocation (.hugeBlock size)) else .ok (.fresh size)

/-- A single block of `size` bytes and no limit. -/
def withCapacity (size : Nat) : Except Failure BlockList :=
  (allocate size).map fun block => ⟨#[], block, size, none⟩

/-- The first block of the table, cut down to the limit. -/
def start (limit : Option Nat) : BlockList :=
  let size := min (blockSize 0) (limit.getD (blockSize 0))
  ⟨#[], .fresh size, size, limit⟩

/-- The blocks from first to last. -/
def blocks (b : BlockList) : Array Window := b.earlier.push b.active

/-- The number of bytes written. -/
def written (b : BlockList) : Nat := (b.blocks.map Window.pos).foldr (· + ·) 0

/-- Whether the block being written has no room left. -/
def isFull (b : BlockList) : Bool := b.active.isFull

/-- Whether the blocks are as large, together, as they may become. -/
def atLimit (b : BlockList) : Bool := b.limit == some b.allocated

/-- Size of the next block; 0 at the limit. -/
def nextSize (b : BlockList) : Nat :=
  let size := blockSize b.blocks.size
  match b.limit with
  | none => size
  | some limit => min size (limit - b.allocated)

/-- Add the next block. At the limit nothing is added. -/
def grow (b : BlockList) : Except Failure BlockList :=
  let size := b.nextSize
  if size = 0 then .ok b
  else if allocationLimit < b.allocated + size then .error (.allocation .overflow)
  else .ok { b with earlier := b.blocks, active := .fresh size, allocated := b.allocated + size }

/-- Work on the block being written. -/
def modifyActive (b : BlockList) (f : Window → Window) : BlockList :=
  { b with active := f b.active }

/-- Write as much of `bytes` as fits into the block being written. -/
def put (b : BlockList) (bytes : List UInt8) : BlockList := b.modifyActive (·.put bytes)

/-- Make room for at least one byte. -/
def makeRoom (b : BlockList) : Except Failure BlockList :=
  if !b.isFull then .ok b
  else if b.atLimit then .error (.allocation (.pastLimit b.allocated))
  else b.grow

/-- Write `bytes`. Where the limit does not leave room for all of them, those that fit are written
and the rest is a failure. -/
def extend (b : BlockList) (bytes : List UInt8) : Except Failure Unit × BlockList :=
  if _hb : bytes = [] then (.ok (), b)
  else
    match b.makeRoom with
    | .error failure => (.error failure, b)
    | .ok roomy =>
      if _hr : roomy.active.spare = 0 then
        (.error (.allocation (.pastLimit roomy.allocated)), roomy)
      else extend (roomy.put bytes) (bytes.drop roomy.active.spare)
termination_by bytes.length
decreasing_by
  have := List.length_pos_iff.2 _hb
  simp
  omega

/-- All blocks joined. -/
def join (b : BlockList) : Array UInt8 := b.blocks.flatMap Window.written

/-- All that has been written. One full block, with nothing or only an empty block after it, is
handed out as it is; else the blocks are joined. -/
def finish (b : BlockList) : Array UInt8 :=
  match b.earlier.size, b.earlier[0]? with
  | 0, _ => if b.active.isFull then b.active.written else b.join
  | 1, some first => if first.isFull && b.active.pos == 0 then first.written else b.join
  | _, _ => b.join

/-- A one-line description: the block sizes, their sum, the limit. -/
def describe (b : BlockList) : String :=
  let sizes := ", ".intercalate (b.blocks.toList.map fun block => toString block.capacity)
  let limit := match b.limit with
    | none => "None"
    | some limit => "Some(" ++ toString limit ++ ")"
  "OutputBlockList \x7b blocks: [" ++ sizes ++ "], allocated: " ++ toString b.allocated
    ++ ", max_length: " ++ limit ++ " \x7d"

end BlockList

end Sluice
