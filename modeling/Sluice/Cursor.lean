/-!
# Input cursors and output windows

The two ends of one codec step. Both only move forward, and neither can be moved past its end:
a count that is too large is cut down to what is there.

* `Input` — bytes to read and how many of them have been read.
* `Window` — a fixed amount of memory to write into. `Window.written` holds the bytes written so
  far, `Window.spare` counts the room that is left.
-/

namespace Sluice

/-! ## Input -/

/-- A read position in a list of bytes: what is unread, and the number of bytes before it. -/
structure Input where
  unread : List UInt8
  pos : Nat
  deriving DecidableEq, Repr

namespace Input

/-- All of `bytes`, nothing of it read yet. -/
def ofList (bytes : List UInt8) : Input := ⟨bytes, 0⟩

/-- An input with nothing to read. -/
def empty : Input := ofList []

/-- Whether everything has been read. -/
def isConsumed (input : Input) : Bool := input.unread.isEmpty

theorem isConsumed_iff {input : Input} : input.isConsumed = true ↔ input.unread = [] :=
  List.isEmpty_iff

/-- The number of bytes, read and unread. -/
def length (input : Input) : Nat := input.pos + input.unread.length

/-- Move over the next `count` bytes, or over all that are left. -/
def advance (input : Input) (count : Nat) : Input where
  unread := input.unread.drop count
  pos := input.pos + (input.unread.take count).length

@[simp] theorem unread_ofList (bytes : List UInt8) : (ofList bytes).unread = bytes := rfl

@[simp] theorem pos_ofList (bytes : List UInt8) : (ofList bytes).pos = 0 := rfl

@[simp] theorem unread_advance (input : Input) (count : Nat) :
    (input.advance count).unread = input.unread.drop count := rfl

theorem pos_advance (input : Input) (count : Nat) :
    (input.advance count).pos = input.pos + min count input.unread.length := by
  simp [advance]

/-- Advancing neither adds nor drops bytes. -/
@[simp] theorem length_advance (input : Input) (count : Nat) :
    (input.advance count).length = input.length := by
  simp [length, pos_advance]; omega

/-- An input that has moved has less left to read. -/
theorem unread_lt_of_pos_lt {input : Input} {count : Nat}
    (h : input.pos < (input.advance count).pos) :
    (input.advance count).unread.length < input.unread.length := by
  have := pos_advance input count
  simp; omega

theorem unread_advance_le (input : Input) (count : Nat) :
    (input.advance count).unread.length ≤ input.unread.length := by simp

end Input

/-! ## Windows -/

/-- A piece of memory that is being written from its start.

`stale` is what the memory holds after the written bytes; memory beyond it holds zeros. It can be
seen only by advancing over it without writing. -/
structure Window where
  written : Array UInt8
  spare : Nat
  stale : List UInt8
  deriving DecidableEq, Repr

namespace Window

/-- A window of zeroed memory. -/
def fresh (capacity : Nat) : Window := ⟨#[], capacity, []⟩

instance : Inhabited Window := ⟨fresh 0⟩

/-- A window over memory that already holds `bytes`, none of which count as written. -/
def ofList (bytes : List UInt8) : Window := ⟨#[], bytes.length, bytes⟩

/-- The number of bytes written. -/
def pos (w : Window) : Nat := w.written.size

/-- The size of the memory, written or not. -/
def capacity (w : Window) : Nat := w.pos + w.spare

/-- Whether no room is left. -/
def isFull (w : Window) : Bool := w.spare == 0

/-- Write as much of `bytes` as fits. -/
def put (w : Window) (bytes : List UInt8) : Window :=
  let placed := bytes.take w.spare
  let count := placed.length
  ⟨w.written ++ placed, w.spare - count, w.stale.drop count⟩

/-- Count the next `count` bytes of memory, or all that are left, as written. -/
def advance (w : Window) (count : Nat) : Window :=
  let count := min count w.spare
  w.put (w.stale.take count ++ List.replicate (count - w.stale.length) 0)

/-- Forget what has been written, so that the memory can be used again. -/
def rewind (w : Window) : Window :=
  ⟨#[], w.capacity, w.written.toList ++ w.stale⟩

/-- Resume after `pos` bytes that are already there. -/
def ofListAt (bytes : List UInt8) (pos : Nat) : Window := (ofList bytes).advance pos

@[simp] theorem written_fresh (capacity : Nat) : (fresh capacity).written = #[] := rfl

@[simp] theorem spare_fresh (capacity : Nat) : (fresh capacity).spare = capacity := rfl

@[simp] theorem toList_written_put (w : Window) (bytes : List UInt8) :
    (w.put bytes).written.toList = w.written.toList ++ bytes.take w.spare := by
  simp [put]

theorem put_nil (w : Window) : w.put [] = w := by
  simp [put]

theorem pos_put (w : Window) (bytes : List UInt8) :
    (w.put bytes).pos = w.pos + min w.spare bytes.length := by
  simp [pos, ← Array.length_toList]

theorem spare_put (w : Window) (bytes : List UInt8) :
    (w.put bytes).spare = w.spare - bytes.length := by
  simp [put]; omega

theorem spare_put_le (w : Window) (bytes : List UInt8) : (w.put bytes).spare ≤ w.spare := by
  rw [spare_put]; omega

/-- Writing does not change the size of the memory. -/
@[simp] theorem capacity_put (w : Window) (bytes : List UInt8) :
    (w.put bytes).capacity = w.capacity := by
  simp only [capacity, pos_put, spare_put]; omega

@[simp] theorem capacity_rewind (w : Window) : w.rewind.capacity = w.capacity := by
  simp [rewind, capacity, pos]

/-- A window that has been written to has less room left. -/
theorem spare_lt_of_pos_lt {w : Window} {bytes : List UInt8} (h : w.pos < (w.put bytes).pos) :
    (w.put bytes).spare < w.spare := by
  rw [pos_put] at h
  rw [spare_put]
  omega

end Window

end Sluice
