import Sluice.Reader
import Sluice.Writer

/-!
# From a source to a sink

* `copy`, `transfer` — everything a source gives, through a writer, onto a sink.
* `Pieces` — what a reader delivers, piece by piece.
-/

namespace Sluice

variable {σ : Type} [Codec σ]

/-! ## Copying -/

/-- What has been copied so far. -/
structure Copying (σ : Type) where
  source : Source
  writer : Writer σ
  /-- number of bytes the source has given -/
  total : Nat

/-- Write what the source gives, `readSize` bytes at a time, until it ends. -/
def Copying.run (limit readSize : Nat) (c : Copying σ) : Except Failure Unit × Copying σ :=
  match _hp : c.source.pull readSize with
  | (.error failure, source) => (.error failure, { c with source })
  | (.ok [], source) => (.ok (), { c with source })
  | (.ok (b :: rest), source) =>
    match c.writer.write limit (b :: rest) with
    | (.error failure, writer) => (.error failure, ⟨source, writer, c.total + (rest.length + 1)⟩)
    | (.ok _, writer) =>
      Copying.run limit readSize ⟨source, writer, c.total + (rest.length + 1)⟩
termination_by c.source.answersLeft
decreasing_by
  have := @Source.answersLeft_pull c.source readSize (b :: rest) (by rw [_hp]) (by simp)
  rw [_hp] at this
  exact this

/-- Push everything the source gives through the writer, inside the writer's scope. The answer is
the number of bytes read and the number of bytes written; the source and the writer are given back
as they are afterwards. -/
def copy (limit : Nat) (source : Source) (writer : Writer σ) (readSize : Nat) :
    Except Failure (Nat × Nat) × Source × Writer σ :=
  match writer.enter with
  | (.error failure, writer) => (.error failure, source, writer.abandon limit)
  | (.ok (), writer) =>
    match Copying.run limit readSize ⟨source, writer, 0⟩ with
    | (.error failure, c) => (.error failure, c.source, (c.writer.exit limit false).2)
    | (.ok (), c) =>
      match c.writer.exit limit true with
      | (.error failure, writer) => (.error failure, c.source, writer)
      | (.ok (), writer) => (.ok (c.total, writer.emitted), c.source, writer)

/-- Refuse to copy in pieces of no size. -/
def checkReadSize (readSize : Nat) : Except Failure Unit :=
  if readSize = 0 then .error (.misuse (.zeroSize "read_size")) else .ok ()

/-- `copy` through a writer onto `sink`, if that writer could be made. -/
def transfer (limit : Nat) (source : Source) (sink : Sink) (readSize : Nat)
    (writer : Except Failure (Writer σ)) : Except Failure (Nat × Nat) × Source × Sink :=
  match writer with
  | .error failure => (.error failure, source, sink)
  | .ok writer =>
    let (result, source, writer) := copy limit source writer readSize
    (result, source, writer.sink.getD sink)

/-! ## Pieces -/

/-- What a reader delivers, in pieces of up to `writeSize` bytes. -/
structure Pieces (σ : Type) where
  reader : Reader σ
  writeSize : Nat
  /-- an empty piece or a failure has been met -/
  done : Bool

namespace Pieces

def new (reader : Reader σ) (writeSize : Nat) : Except Failure (Pieces σ) :=
  if writeSize = 0 then .error (.misuse (.zeroSize "write_size"))
  else .ok ⟨reader, writeSize, false⟩

/-- The next piece. Compressed pieces come as soon as there is output; decompressed ones are full,
all but the last. An empty piece and a failure are the last thing that happens. -/
def next (p : Pieces σ) : Option (Except Failure (List UInt8)) × Pieces σ :=
  if p.done then (none, p)
  else
    let (piece, reader) := match p.reader.direction with
      | .compressing => p.reader.read1 p.writeSize
      | .decompressing => p.reader.read p.writeSize
    match piece with
    | .ok [] => (none, { p with reader, done := true })
    | .ok bytes => (some (.ok bytes), { p with reader })
    | .error failure => (some (.error failure), { p with reader, done := true })

/-- Pieces of the compressed form of a source. -/
def compressing (codec : σ) (source : Source) (readSize writeSize : Nat) :
    Except Failure (Pieces σ) :=
  match Reader.new .compressing codec source (ReaderSettings.forCompression.withReadSize readSize) with
  | .error failure => .error failure
  | .ok reader => new reader writeSize

/-- Refuse to skip more than the first pull can bring. -/
def checkSkip (skip readSize : Nat) : Except Failure Unit :=
  if readSize ≤ skip then .error (.misuse .skipTooLong) else .ok ()

/-- Pieces of the decompressed form of a source, over all of its frames, after `skip` bytes have
been dropped from the source. -/
def decompressing (codec : σ) (source : Source) (readSize writeSize skip : Nat) :
    Except Failure (Pieces σ) :=
  match Reader.new .decompressing codec source
      ((ReaderSettings.forDecompression.withReadSize readSize).withAcrossFrames true) with
  | .error failure => .error failure
  | .ok reader =>
    match reader.skipInput skip with
    | (.error failure, _) => .error failure
    | (.ok (), reader) => new reader writeSize

end Pieces

end Sluice
