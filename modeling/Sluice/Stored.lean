import Sluice.Codec

/-!
# Stored data

The codec that changes nothing. There are no frames in stored data, so that only a flush or an end
with all input taken counts as complete.
-/

namespace Sluice

/-- The codec without a state. -/
inductive Stored where
  | stored
  deriving DecidableEq, Repr, Inhabited

namespace Stored

/-- Copy as much as there is room for. -/
def step (unread : List UInt8) (room : Nat) (directive : Directive) : Step Stored :=
  let output := unread.take room
  let complete := directive ≠ .proceed ∧ (unread.drop room).isEmpty
  ⟨output.length, output, .stored, .ok (if complete then 0 else 1)⟩

instance : Codec Stored where
  name _ := "stored"
  step _ := step
  reset s := s
  pledge s _ := (.ok (), s)

end Stored

end Sluice
