import Sluice.BitAccess

/-!
# Repeats

Where some bytes repeat bytes before them. A table remembers, for each hash of a few bytes, the
last place where it was met; the search takes the first repeat that is long enough, and goes on
behind it.
-/

namespace Sluice

/-- The `length` bytes at `start` are the ones `distance` bytes before them. -/
structure Repeat where
  start : Nat
  length : Nat
  distance : Nat
  deriving DecidableEq, Repr

/-- Which repeats are wanted. -/
structure RepeatRule where
  minLength : Nat
  maxLength : Nat
  maxDistance : Nat

namespace Repeat

/-- The number of places that are remembered. -/
def tableSize : Nat := 4096

/-- The hash of the four bytes at an index. -/
def hashAt (data : ByteArray) (index : Nat) : Nat := wordAt data index 4 * 40503 / 65536 % tableSize

/-- The number of bytes, at most `limit`, for which `data` goes on alike at two places. -/
def commonLength (data : ByteArray) (a b : Nat) : (limit : Nat) → (found : Nat) → Nat
  | 0, found => found
  | limit + 1, found =>
    if byteAt data a = byteAt data b then commonLength data (a + 1) (b + 1) limit (found + 1)
    else found

/-- The repeat at `index` of what is at the place `index - distance`, cut to what is allowed. -/
def lengthAt (rule : RepeatRule) (data : ByteArray) (index distance : Nat) : Nat :=
  if distance = 0 ∨ index < distance ∨ rule.maxDistance < distance then 0
  else commonLength data (index - distance) index (min rule.maxLength (data.size - index)) 0

/-- Search from `index` on. The table holds the places met, plus one. -/
def search (rule : RepeatRule) (data : ByteArray) (index : Nat) (table : Array Nat)
    (found : Array Repeat) : Array Repeat :=
  if _h : index < data.size then
    let hash := hashAt data index
    let distance := index + 1 - table.getD hash (index + 1)
    let length := lengthAt rule data index distance
    let table := table.setIfInBounds hash (index + 1)
    if length < max rule.minLength 1 then search rule data (index + 1) table found
    else search rule data (index + max length 1) table (found.push ⟨index, length, distance⟩)
  else found
termination_by data.size - index

/-- Repeats in `data` that do not overlap, in order. -/
def all (rule : RepeatRule) (data : ByteArray) : List Repeat :=
  (search rule data 0 (Array.replicate tableSize 0) #[]).toList

end Repeat

end Sluice
