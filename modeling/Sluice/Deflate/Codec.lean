import Sluice.Framer

/-!
# DEFLATE codecs

The policy of the DEFLATE codecs over any encoder and decoder of the format.

* `Deflate.Packer` — knows whether a stream has been opened, so that ending one that was never
  opened adds nothing.
* `Deflate.Unpacking` — knows whether a stream has been begun, so that input that ends in the
  middle of one is an error, and whether one has just ended, so that more input starts another.
-/

namespace Sluice.Deflate

/-! ## Compressing -/

/-- An encoder, and whether a stream is open: it is from the pledge or the first step on until the
step that ends it. -/
structure Packer (φ : Type) where
  framer : φ
  frameOpen : Bool

namespace Packer

variable {φ : Type}

/-- No stream opened. -/
def new (framer : φ) : Packer φ := ⟨framer, false⟩

/-- The failure of a step. -/
def failure (text : String) : Failure := .codec ("deflate compress error: " ++ text)

variable [Framer φ]

/-- One step. A flush that fills the room may not be complete, and is asked for again. -/
def step (p : Packer φ) (unread : List UInt8) (room : Nat) (directive : Directive) :
    Step (Packer φ) :=
  if directive = .finish ∧ !p.frameOpen ∧ unread.isEmpty then ⟨0, [], p, .ok 0⟩
  else
    let run := Framer.compress p.framer unread room directive
    match run.result with
    | .error text => ⟨0, [], ⟨run.state, true⟩, .error (failure text)⟩
    | .ok left =>
      match directive with
      | .proceed => ⟨run.taken, run.output, ⟨run.state, true⟩, .ok 1⟩
      | .flush =>
        let again := !(unread.drop run.taken).isEmpty || decide (room ≤ run.output.length)
        ⟨run.taken, run.output, ⟨run.state, true⟩, .ok (if again then 1 else 0)⟩
      | .finish =>
        if left = 0 then ⟨run.taken, run.output, ⟨Framer.reset run.state, false⟩, .ok 0⟩
        else ⟨run.taken, run.output, ⟨run.state, true⟩, .ok 1⟩

instance : Codec (Packer φ) where
  name _ := "deflate"
  step := step
  reset p := ⟨Framer.reset p.framer, false⟩
  pledge p _ := (.ok (), { p with frameOpen := true })

end Packer

/-! ## Decompressing -/

/-- A decoder, whether a stream has been begun and not ended, and whether one has just ended. -/
structure Unpacking (ρ : Type) where
  unframer : ρ
  frameOpen : Bool
  ended : Bool

namespace Unpacking

variable {ρ : Type}

/-- No stream begun. -/
def new (unframer : ρ) : Unpacking ρ := ⟨unframer, false, false⟩

/-- The failure of a step. -/
def failure (text : String) : Failure := .codec ("deflate decompress error: " ++ text)

variable [Unframer ρ]

/-- One step within a stream. A step that fails moves neither cursor. -/
def stepWithin (unframer : ρ) (frameOpen : Bool) (unread : List UInt8) (room : Nat)
    (directive : Directive) : Step (Unpacking ρ) :=
  let run := Unframer.run unframer unread room
  match run.result with
  | .error text => ⟨0, [], ⟨run.state, frameOpen, false⟩, .error (failure text)⟩
  | .ok 0 => ⟨run.taken, run.output, ⟨run.state, false, true⟩, .ok 0⟩
  | .ok (_ + 1) =>
    let full := room ≤ run.output.length
    let result := match directive with
      | .proceed => .ok 1
      | .flush => .ok (if full then 1 else 0)
      | .finish =>
        if full || !(unread.drop run.taken).isEmpty then .ok 1
        else if frameOpen then .error (failure "input ended before stream was complete")
        else .ok 0
    ⟨run.taken, run.output, ⟨run.state, frameOpen, false⟩, result⟩

/-- One step. After the end of a stream, only more input leads on. -/
def step (u : Unpacking ρ) (unread : List UInt8) (room : Nat) (directive : Directive) :
    Step (Unpacking ρ) :=
  if u.ended then
    if unread.isEmpty then ⟨0, [], u, .ok 0⟩
    else stepWithin (Unframer.reset u.unframer) true unread room directive
  else stepWithin u.unframer (u.frameOpen || !unread.isEmpty) unread room directive

instance : Codec (Unpacking ρ) where
  name _ := "deflate"
  step := step
  reset u := ⟨Unframer.reset u.unframer, false, false⟩
  pledge u _ := (.ok (), u)

end Unpacking

end Sluice.Deflate
