import Sluice.Batch
import Sluice.Chunker
import Sluice.Engine
import Sluice.Incremental
import Sluice.Transfer

/-!
# Compressing

Everything that can be done with compression settings. Each function chooses the codec first, so
settings that no codec can serve are refused before any buffer size is looked at.

* `Packing.compress`, `Packing.batch` — data that is all there.
* `Packing.reader`, `Packing.writer`, `Packing.pieces`, `Packing.copy` — sources and sinks.
* `Packing.builder`, `Packing.chunker` — pieces of data, in memory.
-/

namespace Sluice.Packing

/-- One frame with all of `bytes`. -/
def compress (limit : Nat) (p : Packing) (bytes : List UInt8) : Except Failure (List UInt8) :=
  match Engine.packing p with
  | .error failure => .error failure
  | .ok engine => (compressFrame limit engine bytes).1

/-- One frame per item. -/
def batch (limit : Nat) (p : Packing) (items : List (List UInt8)) :
    Except Failure SegmentedBuffer :=
  match Engine.packing p with
  | .error failure => .error failure
  | .ok engine => compressBatch limit engine items

/-- A reader that delivers the compressed form of a source. -/
def reader (p : Packing) (source : Source) (settings : ReaderSettings) :
    Except Failure (Reader Engine) :=
  match Engine.packing p with
  | .error failure => .error failure
  | .ok engine => Reader.new .compressing engine source settings

/-- A writer that compresses onto a sink. -/
def writer (p : Packing) (sink : Sink) (settings : WriterSettings) :
    Except Failure (Writer Engine) :=
  match Engine.packing p with
  | .error failure => .error failure
  | .ok engine => Writer.new .compressing engine sink settings

/-- The compressed form of a source in pieces of up to `writeSize` bytes. -/
def pieces (p : Packing) (source : Source) (readSize writeSize : Nat) :
    Except Failure (Pieces Engine) :=
  match Engine.packing p with
  | .error failure => .error failure
  | .ok engine => Pieces.compressing engine source readSize writeSize

/-- Compress a source onto a sink. -/
def copy (limit : Nat) (p : Packing) (source : Source) (sink : Sink) (readSize writeSize : Nat) :
    Except Failure (Nat × Nat) × Source × Sink :=
  let prepared := do
    checkReadSize readSize
    p.writer sink (WriterSettings.forCompression.withWriteSize writeSize)
  transfer limit source sink readSize prepared

/-- A frame to be made from pieces of data. -/
def builder (p : Packing) (sourceSize : Option Nat) : Except Failure (FrameBuilder Engine) :=
  match Engine.packing p with
  | .error failure => .error failure
  | .ok engine => FrameBuilder.new engine sourceSize

/-- A frame to be made from pieces of data and handed out in chunks of one size. -/
def chunker (p : Packing) (sourceSize : Option Nat) (size : Nat) :
    Except Failure (Chunker Engine) :=
  match Engine.packing p with
  | .error failure => .error failure
  | .ok engine => Chunker.new engine sourceSize size

end Sluice.Packing
