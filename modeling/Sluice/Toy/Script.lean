import Sluice.Stored

/-!
# Scripted steps

A codec that does as it is told, step by step, whether that makes sense or not. When the script is
over it copies.
-/

namespace Sluice.Toy

/-- What one step does: input bytes taken, output made as far as it fits, and the result. -/
structure Line where
  take : Nat
  emit : List UInt8
  result : Except Failure Nat

/-- The steps that are still to come. -/
structure Script where
  lines : List Line

namespace Script

/-- The next line, or a copy. -/
def step (s : Script) (unread : List UInt8) (room : Nat) (directive : Directive) : Step Script :=
  match s.lines with
  | line :: rest => ⟨min line.take unread.length, line.emit.take room, ⟨rest⟩, line.result⟩
  | [] => (Stored.step unread room directive).map fun _ => s

instance : Codec Script where
  name _ := "toy"
  step := step
  reset s := s
  pledge s _ := (.ok (), s)

end Script

end Sluice.Toy
