import Sluice.Batch
import Sluice.Engine
import Sluice.Incremental
import Sluice.Transfer

/-!
# Decompressing

Everything that can be done with decompression settings. Each function chooses the codec before it
looks at buffer sizes, but for `Unpacking.copy` and `Unpacking.pieces`, which first refuse sizes
that make no sense together.

* `Unpacking.decompress`, `Unpacking.batch` — data that is all there.
* `Unpacking.reader`, `Unpacking.writer`, `Unpacking.pieces`, `Unpacking.copy` — sources and sinks.
* `Unpacking.opener` — pieces of data, in memory.
* `Unpacking.frames` — the frames that some bytes are made of, for whoever looks at packed bytes from
  outside. No codec uses this.
-/

namespace Sluice.Unpacking

/-- Decode the frame that `bytes` start with, into at most `maxOutput` bytes. -/
def decompress (limit : Nat) (u : Unpacking) (bytes : List UInt8) (maxOutput : Option Nat) :
    Except Failure (List UInt8) :=
  match Engine.unpacking u with
  | .error failure => .error failure
  | .ok engine => (decompressFrame limit engine bytes maxOutput).1

/-- Decode each of the frames. -/
def batch (limit : Nat) (u : Unpacking) (frames : List (List UInt8)) :
    Except Failure SegmentedBuffer :=
  match Engine.unpacking u with
  | .error failure => .error failure
  | .ok engine => decompressBatch limit engine frames

/-- A reader that delivers the decompressed form of a source. -/
def reader (u : Unpacking) (source : Source) (settings : ReaderSettings) :
    Except Failure (Reader Engine) :=
  match Engine.unpacking u with
  | .error failure => .error failure
  | .ok engine => Reader.new .decompressing engine source settings

/-- A writer that decompresses onto a sink. -/
def writer (u : Unpacking) (sink : Sink) (settings : WriterSettings) :
    Except Failure (Writer Engine) :=
  match Engine.unpacking u with
  | .error failure => .error failure
  | .ok engine => Writer.new .decompressing engine sink settings

/-- The decompressed form of a source, past its first `skip` bytes, in pieces of up to `writeSize`
bytes. -/
def pieces (u : Unpacking) (source : Source) (readSize writeSize skip : Nat) :
    Except Failure (Pieces Engine) :=
  match Pieces.checkSkip skip readSize with
  | .error failure => .error failure
  | .ok () =>
    match Engine.unpacking u with
    | .error failure => .error failure
    | .ok engine => Pieces.decompressing engine source readSize writeSize skip

/-- Decompress a source onto a sink. -/
def copy (limit : Nat) (u : Unpacking) (source : Source) (sink : Sink) (readSize writeSize : Nat) :
    Except Failure (Nat × Nat) × Source × Sink :=
  let prepared := do
    checkReadSize readSize
    u.writer sink (WriterSettings.forDecompression.withWriteSize writeSize)
  transfer limit source sink readSize prepared

/-- A frame to be decoded from pieces of data. -/
def opener (u : Unpacking) : Except Failure (FrameOpener Engine) :=
  (Engine.unpacking u).map FrameOpener.new

/-! ## Frames in a row -/

/-- What some bytes are made of: complete frames, each with its content, and the content so far of
a frame that has been begun behind them. -/
structure Frames where
  complete : List (List UInt8 × List UInt8)
  part : Option (List UInt8)

/-- Cut `bytes` into at most `count` complete frames and a part of another one. -/
def cutFrames (limit : Nat) (u : Unpacking) : (count : Nat) → (bytes : List UInt8) → Frames
  | 0, _ => ⟨[], none⟩
  | _ + 1, [] => ⟨[], none⟩
  | count + 1, bytes =>
    match u.opener with
    | .error _ => ⟨[], some []⟩
    | .ok opener =>
      match opener.decompress limit bytes with
      | (.error _, _) => ⟨[], some []⟩
      | (.ok content, opener) =>
        if opener.finished then
          let frame := bytes.take (bytes.length - opener.unused.length)
          let rest := cutFrames limit u count opener.unused
          { rest with complete := (frame, content) :: rest.complete }
        else ⟨[], some content⟩

/-- Cut `bytes` into frames. A frame has at least one byte. -/
def frames (limit : Nat) (u : Unpacking) (bytes : List UInt8) : Frames :=
  u.cutFrames limit bytes.length bytes

end Sluice.Unpacking
