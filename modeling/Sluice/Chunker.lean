import Sluice.Codec

/-!
# Chunks of one size

A chunker makes one frame from pieces of input and hands it out in chunks of exactly `size` bytes.
A chunk that is not yet full waits for more output; only the last chunk of a `flush` or `finish`
may be shorter.

The number of steps of a call is limited, because a codec may never come to an end.
-/

namespace Sluice

/-- A frame being made, and the chunk that its output is being written into. -/
structure Chunker (σ : Type) where
  codec : σ
  size : Nat
  chunk : Window
  finished : Bool

namespace Chunker

variable {σ : Type} [Codec σ]

/-- Begin a frame, for input of the given size if it is known. -/
def new (codec : σ) (sourceSize : Option Nat) (size : Nat) : Except Failure (Chunker σ) :=
  if size = 0 then .error (.misuse (.zeroSize "chunk_size"))
  else
    match Codec.pledge codec sourceSize with
    | (.ok (), codec) => .ok ⟨codec, size, .fresh size, false⟩
    | (.error failure, _) => .error failure

/-- Refuse `operation` once the frame has ended. -/
def requireOpen (c : Chunker σ) (operation : String) : Except Failure Unit :=
  if c.finished then .error (.misuse (.compressionFinished operation)) else .ok ()

/-- Step the codec until `done` holds after a step that left the chunk unfilled. The answer is the
chunks that were filled; those filled before a failure are lost. -/
def run (directive : Directive) (done : Nat → Input → Bool) :
    (limit : Nat) → Chunker σ → Input → Array (List UInt8) →
      Except Failure (Array (List UInt8)) × Chunker σ
  | 0, c, _, _ => (.error .stepLimit, c)
  | limit + 1, c, input, chunks =>
    let driven := drive c.codec input c.chunk directive
    match driven.result with
    | .error failure => (.error failure, { c with codec := driven.codec })
    | .ok left =>
      if driven.window.isFull then
        run directive done limit { c with codec := driven.codec, chunk := .fresh c.size }
          driven.input (chunks.push driven.window.written.toList)
      else
        let c := { c with codec := driven.codec, chunk := driven.window }
        if done left driven.input then (.ok chunks, c)
        else run directive done limit c driven.input chunks

/-- Hand out the chunk that is being written, if there is anything in it. -/
def takePartial (c : Chunker σ) (chunks : Array (List UInt8)) : List (List UInt8) × Chunker σ :=
  if c.chunk.pos = 0 then (chunks.toList, c)
  else ((chunks.push c.chunk.written.toList).toList, { c with chunk := .fresh c.size })

/-- Add `bytes`; the answer is the chunks that were filled. -/
def compress (limit : Nat) (c : Chunker σ) (bytes : List UInt8) :
    Except Failure (List (List UInt8)) × Chunker σ :=
  match c.requireOpen "compress" with
  | .error failure => (.error failure, c)
  | .ok () =>
    if bytes = [] then (.ok [], c)
    else
      let (result, c) := c.run .proceed (fun _ input => input.isConsumed) limit (.ofList bytes) #[]
      (result.map Array.toList, c)

/-- Step without input until the codec is done, and hand out everything. -/
def empty (limit : Nat) (c : Chunker σ) (directive : Directive) :
    Except Failure (List (List UInt8)) × Chunker σ :=
  match c.run directive (fun left _ => left == 0) limit .empty #[] with
  | (.error failure, c) => (.error failure, c)
  | (.ok chunks, c) =>
    let (chunks, c) := c.takePartial chunks
    (.ok chunks, c)

/-- Emit what the codec holds back; the frame stays open. -/
def flush (limit : Nat) (c : Chunker σ) : Except Failure (List (List UInt8)) × Chunker σ :=
  match c.requireOpen "flush" with
  | .error failure => (.error failure, c)
  | .ok () => c.empty limit .flush

/-- End the frame and emit the rest of it. -/
def finish (limit : Nat) (c : Chunker σ) : Except Failure (List (List UInt8)) × Chunker σ :=
  match c.requireOpen "finish" with
  | .error failure => (.error failure, c)
  | .ok () =>
    match c.empty limit .finish with
    | (.error failure, c) => (.error failure, c)
    | (.ok chunks, c) => (.ok chunks, { c with finished := true })

end Chunker

end Sluice
