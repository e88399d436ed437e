import Sluice.BlockList
import Sluice.Codec

/-!
# Whole frames at once

The two operations on data that is all there: make one frame of it, and decode the frame it starts
with. Output is collected in a `BlockList`.

* `collect` — step a codec over an input until the caller's condition holds.
* `compressFrame`, `decompressFrame` — one frame.

The number of steps is limited, because a codec may never come to an end.
-/

namespace Sluice

variable {σ : Type} [Codec σ]

/-! ## Collecting output -/

/-- A codec between its input and the blocks that take its output. -/
structure Gathering (σ : Type) where
  codec : σ
  input : Input
  blocks : BlockList

namespace Gathering

/-- Nothing read, nothing collected. -/
def start (codec : σ) (bytes : List UInt8) (limit : Option Nat) : Gathering σ :=
  ⟨codec, .ofList bytes, .start limit⟩

/-- One step into the block being written; the answer is the number that the codec returned. -/
def step (c : Gathering σ) (directive : Directive) : Except Failure Nat × Gathering σ :=
  let driven := drive c.codec c.input c.blocks.active directive
  (driven.result, ⟨driven.codec, driven.input, { c.blocks with active := driven.window }⟩)

/-- Step until `done` holds, growing the blocks when they are full. `done` is asked after every
step about the codec's number, the input, and whether the block is full; the answer is the number
of the last step. -/
def run (directive : Directive) (done : Nat → Input → Bool → Bool) :
    (limit : Nat) → Gathering σ → Except Failure Nat × Gathering σ
  | 0, c => (.error .stepLimit, c)
  | limit + 1, c =>
    match c.step directive with
    | (.error failure, c) => (.error failure, c)
    | (.ok left, c) =>
      let full := c.blocks.isFull
      if done left c.input full then (.ok left, c)
      else if full then
        match c.blocks.grow with
        | .error failure => (.error failure, c)
        | .ok blocks => run directive done limit { c with blocks }
      else run directive done limit c

/-- The bytes collected. -/
def output (c : Gathering σ) : List UInt8 := c.blocks.finish.toList

end Gathering

/-! ## Compressing -/

/-- Make one frame of `bytes`. The codec learns their number first. -/
def compressFrame (limit : Nat) (codec : σ) (bytes : List UInt8) :
    Except Failure (List UInt8) × σ :=
  match Codec.pledge codec (some bytes.length) with
  | (.error failure, codec) => (.error failure, codec)
  | (.ok (), codec) =>
    let (result, c) := Gathering.run .finish (fun left _ _ => left == 0) limit
      (.start codec bytes none)
    (result.map fun _ => c.output, c.codec)

/-! ## Decompressing -/

/-- What is asked of a decoder: to go on while there is input, and then to give what is left and
to complain about a frame that has not ended. -/
def decodingDirective (input : Input) : Directive :=
  if input.isConsumed then .finish else .proceed

/-- The text of the failure of a frame that decodes to more than `limit` bytes. -/
def excessText (limit : Nat) : String :=
  "decompressed data exceeds max_output_size of " ++ toString limit ++ " bytes"

/-- Decode until the codec reports the end of a frame. When the blocks are full and may not grow,
one more step without room has to report the end; anything else means that the frame is too
large. -/
def Gathering.decode : (limit : Nat) → Gathering σ → Except Failure Unit × Gathering σ
  | 0, c => (.error .stepLimit, c)
  | limit + 1, c =>
    match c.step (decodingDirective c.input) with
    | (.error failure, c) => (.error failure, c)
    | (.ok 0, c) => (.ok (), c)
    | (.ok (_ + 1), c) =>
      if !c.blocks.isFull then decode limit c
      else if c.blocks.atLimit then
        match c.step (decodingDirective c.input) with
        | (.ok 0, c) => (.ok (), c)
        | (_, c) => (.error (.codec (excessText c.blocks.allocated)), c)
      else
        match c.blocks.grow with
        | .error failure => (.error failure, c)
        | .ok blocks => decode limit { c with blocks }

/-- Decode the frame that `bytes` start with, into at most `maxOutput` bytes. What follows the
frame is ignored. -/
def decompressFrame (limit : Nat) (codec : σ) (bytes : List UInt8) (maxOutput : Option Nat) :
    Except Failure (List UInt8) × σ :=
  let (result, c) := Gathering.decode limit (.start codec bytes maxOutput)
  (result.map fun () => c.output, c.codec)

end Sluice
