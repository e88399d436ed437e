import Sluice.OneShot
import Sluice.Writer

/-!
# One frame in pieces

Compression and decompression in memory, without a source or a sink: every call takes a piece of
input and returns all output that it leads to.

* `FrameBuilder` — makes one frame from pieces.
* `FrameOpener` — decodes one frame from pieces, and keeps what follows the frame.
* `Chunker` — makes one frame from pieces, and hands it out in chunks of one size.

The number of steps of a call is limited, because a codec may never come to an end.
-/

namespace Sluice

variable {σ : Type} [Codec σ]

/-! ## Building a frame -/

/-- A frame being made. -/
structure FrameBuilder (σ : Type) where
  codec : σ
  finished : Bool

namespace FrameBuilder

/-- Begin a frame, for input of the given size if it is known. -/
def new (codec : σ) (sourceSize : Option Nat) : Except Failure (FrameBuilder σ) :=
  match Codec.pledge codec sourceSize with
  | (.ok (), codec) => .ok ⟨codec, false⟩
  | (.error failure, _) => .error failure

/-- Add `bytes`; the answer is the part of the frame that is ready, possibly nothing. -/
def compress (limit : Nat) (b : FrameBuilder σ) (bytes : List UInt8) :
    Except Failure (List UInt8) × FrameBuilder σ :=
  if b.finished then (.error (.misuse .compressorFinished), b)
  else
    let (result, c) := Gathering.run .proceed (fun _ input full => input.isConsumed && !full)
      limit (.start b.codec bytes none)
    (result.map fun _ => c.output, { b with codec := c.codec })

/-- Emit what the codec holds back. Ending the frame spends the builder, even if it fails. -/
def flush (limit : Nat) (b : FrameBuilder σ) (mode : FlushMode) :
    Except Failure (List UInt8) × FrameBuilder σ :=
  if b.finished then (.error (.misuse .objectFinished), b)
  else
    let (result, c) := Gathering.run mode.directive (fun left _ _ => left == 0)
      limit (.start b.codec [] none)
    (result.map fun _ => c.output, ⟨c.codec, mode = .frame⟩)

end FrameBuilder

/-! ## Opening a frame -/

/-- A frame being decoded. -/
structure FrameOpener (σ : Type) where
  codec : σ
  finished : Bool
  /-- what followed the end of the frame in the piece that held it -/
  unused : List UInt8

namespace FrameOpener

def new (codec : σ) : FrameOpener σ := ⟨codec, false, []⟩

/-- Decode a piece; the answer is the output it leads to. -/
def decompress (limit : Nat) (o : FrameOpener σ) (bytes : List UInt8) :
    Except Failure (List UInt8) × FrameOpener σ :=
  if o.finished then (.error (.misuse .decompressorReused), o)
  else if bytes = [] then (.ok [], o)
  else
    match Gathering.run .proceed (fun left input full => left == 0 || input.isConsumed && !full)
        limit (.start o.codec bytes none) with
    | (.error failure, c) => (.error failure, { o with codec := c.codec })
    | (.ok left, c) =>
      (.ok c.output,
        if left = 0 then ⟨c.codec, true, o.unused ++ c.input.unread⟩
        else { o with codec := c.codec })

/-- Decode pieces one after the other, up to the first that fails. The answer is the output of all
of them, behind `acc`. -/
def decompressEach (limit : Nat) (o : FrameOpener σ) (acc : Array UInt8) :
    List (List UInt8) → Except Failure (List UInt8) × FrameOpener σ
  | [] => (.ok acc.toList, o)
  | piece :: rest =>
    match o.decompress limit piece with
    | (.error failure, o) => (.error failure, o)
    | (.ok bytes, o) => decompressEach limit o (acc ++ bytes) rest

/-- Nothing is held back, so there is nothing to flush. -/
def flush (o : FrameOpener σ) : Except Failure (List UInt8) × FrameOpener σ := (.ok [], o)

end FrameOpener

end Sluice
