import Sluice.FrameDecoder

/-!
# Length-prefixed frames

A frame is a byte that says how many bytes follow, and these bytes. Each of them may stand for
several equal bytes.
-/

namespace Sluice.Toy

/-- A reader of length-prefixed frames: how many bytes one byte stands for, and how many bytes are
left of the frame that has been begun. -/
structure LengthPrefixed where
  expand : Nat
  left : Nat
  deriving DecidableEq, Repr

namespace LengthPrefixed

/-- In front of a frame. -/
def new (expand : Nat) : LengthPrefixed := ⟨expand, 0⟩

/-- The one length that no frame has. -/
def reserved : UInt8 := 255

/-- Read a length or a byte of a frame. -/
def feed (f : LengthPrefixed) (byte : UInt8) : Fed LengthPrefixed :=
  if f.left = 0 then
    if byte = reserved then .failed "toy: bad length 255"
    else if byte = 0 then .ended f []
    else .more { f with left := byte.toNat } []
  else
    let output := List.replicate f.expand byte
    let next := { f with left := f.left - 1 }
    if next.left = 0 then .ended next output else .more next output

instance : FrameAutomaton LengthPrefixed where
  feed := feed
  reset f := new f.expand
  name _ := "toy"
  isPartRead f := f.left ≠ 0
  truncated _ := "toy: truncated"

end LengthPrefixed

end Sluice.Toy
