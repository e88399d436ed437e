import Sluice.Codec

/-!
# What readers and writers share

* `Direction` — whether a stream packs its bytes or unpacks them.
* `Slot` — the place of a codec that is given up when the stream closes.
* `Phase` — the life of a stream: not entered, active, closed, in this order.
-/

namespace Sluice

/-! ## Directions -/

/-- Whether a stream compresses what flows through it or decompresses it. -/
inductive Direction where
  | compressing
  | decompressing
  deriving DecidableEq, Repr

/-! ## Codecs that may be gone -/

/-- The place where a stream keeps its codec. A retired codec is never stepped again; it is kept
only to be looked at. -/
inductive Slot (σ : Type) where
  | live (codec : σ)
  | retired (codec : σ)

namespace Slot

variable {σ : Type}

/-- The codec as it was last. -/
def codec : Slot σ → σ
  | live c | retired c => c

/-- Give the codec up. -/
def retire : Slot σ → Slot σ := fun s => retired s.codec

end Slot

/-! ## Scopes -/

/-- The life of a reader or writer: it moves from left to right only. -/
inductive Phase where
  | notEntered
  | active
  | closed
  deriving DecidableEq, Repr

namespace Phase

/-- Refuse `operation` outside of a scope. -/
def require (phase : Phase) (operation : String) : Except Failure Unit :=
  match phase with
  | active => .ok ()
  | notEntered => .error (.misuse (.outsideScope operation))
  | closed => .error (.misuse .closed)

/-- Enter the scope; this can be done once. -/
def enter : Phase → Except Failure Phase
  | notEntered => .ok active
  | active => .error (.misuse .enteredTwice)
  | closed => .error (.misuse .closed)

end Phase

end Sluice
