import Sluice.Framer

/-!
# Zstandard codecs

The policy of the Zstandard codecs over any encoder and decoder of the format.

* `Zstd.Packer` — knows whether a frame has been opened, so that ending one that was never opened
  adds nothing.
* `Zstd.Unpacking` — knows whether a frame has been begun, so that input that ends in the middle of
  one is an error.
-/

namespace Sluice.Zstd

/-! ## Compressing -/

/-- An encoder, and whether a frame is open: it is from the pledge or the first step on until the
step that ends it. -/
structure Packer (φ : Type) where
  framer : φ
  frameOpen : Bool

namespace Packer

variable {φ : Type}

/-- No frame opened. -/
def new (framer : φ) : Packer φ := ⟨framer, false⟩

/-- The failure of a step. -/
def failure (text : String) : Failure := .codec ("zstd compress error: " ++ text)

variable [Framer φ]

/-- One step. -/
def step (p : Packer φ) (unread : List UInt8) (room : Nat) (directive : Directive) :
    Step (Packer φ) :=
  if directive = .finish ∧ !p.frameOpen ∧ unread.isEmpty then ⟨0, [], p, .ok 0⟩
  else
    let run := Framer.compress p.framer unread room directive
    match run.result with
    | .error text => ⟨run.taken, run.output, ⟨run.state, true⟩, .error (failure text)⟩
    | .ok left =>
      if directive = .proceed then
        ⟨run.taken, run.output, ⟨run.state, true⟩, .ok (max left 1)⟩
      else if directive = .finish ∧ left = 0 then
        ⟨run.taken, run.output, ⟨Framer.reset run.state, false⟩, .ok 0⟩
      else ⟨run.taken, run.output, ⟨run.state, true⟩, .ok left⟩

/-- Learn the source size; this opens a frame. -/
def pledge (p : Packer φ) (size : Option Nat) : Except Failure Unit × Packer φ :=
  match Framer.pledge p.framer size with
  | (.ok (), framer) => (.ok (), ⟨framer, true⟩)
  | (.error text, framer) =>
    (.error (.codec ("error setting source size: " ++ text)), { p with framer })

instance : Codec (Packer φ) where
  name _ := "zstd"
  step := step
  reset p := ⟨Framer.reset p.framer, false⟩
  pledge := pledge

end Packer

/-! ## Decompressing -/

/-- A decoder, and whether a frame has been begun and not ended. -/
structure Unpacking (ρ : Type) where
  unframer : ρ
  frameOpen : Bool

namespace Unpacking

variable {ρ : Type}

/-- No frame begun. -/
def new (unframer : ρ) : Unpacking ρ := ⟨unframer, false⟩

/-- The failure of a step. -/
def failure (text : String) : Failure := .codec ("zstd decompress error: " ++ text)

variable [Unframer ρ]

/-- One step. Input that is used up inside a frame is an error only when the caller has no more,
and only if there was room for everything that could be decoded. -/
def step (u : Unpacking ρ) (unread : List UInt8) (room : Nat) (directive : Directive) :
    Step (Unpacking ρ) :=
  let run := Unframer.run u.unframer unread room
  match run.result with
  | .error text => ⟨run.taken, run.output, { u with unframer := run.state }, .error (failure text)⟩
  | .ok 0 => ⟨run.taken, run.output, ⟨run.state, false⟩, .ok 0⟩
  | .ok (left + 1) =>
    let frameOpen := u.frameOpen || 0 < run.taken
    let full := room ≤ run.output.length
    let result := match directive with
      | .proceed => .ok (left + 1)
      | .flush => .ok (if full then 1 else 0)
      | .finish =>
        if full || !(unread.drop run.taken).isEmpty then .ok 1
        else if frameOpen then .error (failure "input ended before frame was complete")
        else .ok 0
    ⟨run.taken, run.output, ⟨run.state, frameOpen⟩, result⟩

instance : Codec (Unpacking ρ) where
  name _ := "zstd"
  step := step
  reset u := ⟨Unframer.reset u.unframer, false⟩
  pledge u _ := (.ok (), u)

end Unpacking

end Sluice.Zstd
