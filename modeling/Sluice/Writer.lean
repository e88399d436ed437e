import Sluice.Settings
import Sluice.Sink
import Sluice.Stream

/-!
# Writers

A writer takes the caller's bytes, runs them through a codec, and empties the codec's output
window into a sink after every step, so that it holds no more than one window at a time.

* `pump` — step and empty the window until the caller's condition holds. A codec may never come
  to an end, so the number of steps is limited.
* `write`, `flush` — push bytes, push what the codec holds back.
* `exit`, `close`, `intoInner`, `abandon` — the four ways out of a scope; `scope` runs a body
  between `enter` and `exit`.

A failure of the codec or of a write to the sink closes the writer (`fail`); a failure of the
sink's own flush does not.
-/

namespace Sluice

/-- How far a flush goes. -/
inductive FlushMode where
  /-- the frame stays open -/
  | block
  /-- the frame ends -/
  | frame
  deriving DecidableEq, Repr

/-- What a codec is told to do for a flush. -/
def FlushMode.directive : FlushMode → Directive
  | .block => .flush
  | .frame => .finish

/-- A writer onto a sink, with a codec in states of type `σ`. -/
structure Writer (σ : Type) where
  phase : Phase
  direction : Direction
  /-- the sink, until it is handed back -/
  sink : Option Sink
  codec : Slot σ
  /-- size of the output window; a closed writer has none -/
  window : Nat
  settings : WriterSettings
  /-- number of bytes pushed to the sink -/
  emitted : Nat

namespace Writer

/-- A writer that has not been entered. -/
def new {σ : Type} (direction : Direction) (codec : σ) (sink : Sink) (settings : WriterSettings) :
    Except Failure (Writer σ) :=
  if settings.writeSize = 0 then .error (.misuse (.zeroSize "write_size"))
  else .ok {
    phase := .notEntered
    direction := direction
    sink := some sink
    codec := .live codec
    window := settings.writeSize
    settings := settings
    emitted := 0 }

variable {σ : Type}

def isClosed (w : Writer σ) : Bool := w.phase == .closed

/-- Close the writer: the codec and the window are given up, the sink stays. -/
def release (w : Writer σ) : Writer σ :=
  { w with phase := .closed, codec := w.codec.retire, window := 0 }

/-- Flush the sink itself. -/
def flushSink (w : Writer σ) : Except Failure Unit × Writer σ :=
  match w.sink with
  | none => (.ok (), w)
  | some sink =>
    match sink.flush with
    | (.ok (), sink) => (.ok (), { w with sink := some sink })
    | (.error error, sink) => (.error (.ofIo error), { w with sink := some sink })

variable [Codec σ]

/-! ## Entering -/

/-- Enter the scope. A compressing codec is told the source size. -/
def enter (w : Writer σ) : Except Failure Unit × Writer σ :=
  match w.phase.enter with
  | .error failure => (.error failure, w)
  | .ok phase =>
    match w.direction, w.codec with
    | .compressing, .live codec =>
      let (result, codec) := Codec.pledge codec w.settings.sourceSize
      (result, { w with phase, codec := .live codec })
    | _, _ => (.ok (), { w with phase })

/-! ## Pumping -/

/-- What a run of steps works on. -/
structure Flow (σ : Type) where
  codec : σ
  sink : Sink
  input : Input
  /-- bytes pushed to the sink during the run -/
  pushed : Nat

/-- When a run of steps is over: asked after every step about the number that the codec returned,
the input, and whether the window was filled. -/
abbrev Done := Nat → Input → Bool → Bool

/-- Step the codec over the input and empty the window of `window` bytes into the sink, until
`done` says so. The output of a failing step is lost. -/
def Flow.run (window : Nat) (directive : Directive) (done : Done) :
    (limit : Nat) → Flow σ → Except Failure Unit × Flow σ
  | 0, flow => (.error .stepLimit, flow)
  | limit + 1, flow =>
    let driven := drive flow.codec flow.input (.fresh window) directive
    let stepped := { flow with codec := driven.codec, input := driven.input }
    match driven.result with
    | .error failure => (.error failure, stepped)
    | .ok left =>
      match flow.sink.writeAll driven.window.written.toList with
      | (.error error, sink) => (.error (.ofIo error), { stepped with sink })
      | (.ok (), sink) =>
        let pushed := { stepped with sink, pushed := flow.pushed + driven.window.pos }
        if done left driven.input driven.window.isFull then (.ok (), pushed)
        else Flow.run window directive done limit pushed

/-- Run the writer's own codec and sink over `bytes`; the answer is the number of bytes pushed. -/
def pump (limit : Nat) (w : Writer σ) (bytes : List UInt8) (directive : Directive) (done : Done) :
    Except Failure Nat × Writer σ :=
  match w.sink, w.codec with
  | none, _ => (.error (.misuse .sinkReleased), w)
  | some _, .retired _ => (.error (.misuse .closed), w)
  | some sink, .live codec =>
    let (result, flow) := Flow.run w.window directive done limit ⟨codec, sink, .ofList bytes, 0⟩
    (result.map fun () => flow.pushed,
      { w with codec := .live flow.codec, sink := some flow.sink, emitted := w.emitted + flow.pushed })

/-- Close a writer whose codec or sink failed in the middle of a step. -/
def fail {α : Type} : Except Failure α × Writer σ → Except Failure α × Writer σ
  | (.ok value, w) => (.ok value, w)
  | (.error failure, w) => (.error failure, w.release)

/-! ## Pushing -/

/-- Push `bytes`. The answer is the number of bytes that reached the sink, or, where the settings
ask for it, the number of bytes taken. -/
def write (limit : Nat) (w : Writer σ) (bytes : List UInt8) : Except Failure Nat × Writer σ :=
  match w.phase.require "write" with
  | .error failure => (.error failure, w)
  | .ok () =>
    match fail (w.pump limit bytes .proceed fun _ input full => input.isConsumed && !full) with
    | (.error failure, w) => (.error failure, w)
    | (.ok pushed, w) => (.ok (if w.settings.returnRead then bytes.length else pushed), w)

/-- Push pieces one after the other, up to the first that fails. The answer is the sum of the
single answers, added to `total`. -/
def writeEach (limit : Nat) (w : Writer σ) (total : Nat) :
    List (List UInt8) → Except Failure Nat × Writer σ
  | [] => (.ok total, w)
  | piece :: rest =>
    match w.write limit piece with
    | (.error failure, w) => (.error failure, w)
    | (.ok count, w) => writeEach limit w (total + count) rest

/-- Push what the codec holds back, then flush the sink. -/
def finishStep (limit : Nat) (w : Writer σ) (directive : Directive) :
    Except Failure Nat × Writer σ :=
  match fail (w.pump limit [] directive fun left _ _ => left == 0) with
  | (.error failure, w) => (.error failure, w)
  | (.ok pushed, w) =>
    match w.flushSink with
    | (.error failure, w) => (.error failure, w)
    | (.ok (), w) => (.ok pushed, w)

/-- Flush. A decompressing codec holds nothing back, so that only the sink is flushed then, and
the mode makes no difference. -/
def flush (limit : Nat) (w : Writer σ) (mode : FlushMode) : Except Failure Nat × Writer σ :=
  match w.phase.require "flush" with
  | .error failure => (.error failure, w)
  | .ok () =>
    match w.direction with
    | .compressing => w.finishStep limit mode.directive
    | .decompressing =>
      match w.flushSink with
      | (.error failure, w) => (.error failure, w)
      | (.ok (), w) => (.ok 0, w)

/-! ## Leaving -/

/-- What a normal exit has to do first: end the frame, and flush the sink. -/
def settle (limit : Nat) (w : Writer σ) : Except Failure Unit × Writer σ :=
  match w.direction with
  | .decompressing => w.flushSink
  | .compressing =>
    match w.finishStep limit .finish with
    | (.error failure, w) => (.error failure, w)
    | (.ok _, w) => (.ok (), w)

/-- Leave the scope. Whatever comes of the last steps, the writer is closed afterwards. -/
def exit (limit : Nat) (w : Writer σ) (normal : Bool) : Except Failure Unit × Writer σ :=
  match w.phase.require "exit" with
  | .error failure => (.error failure, w)
  | .ok () =>
    let (result, w) := if normal then w.settle limit else (.ok (), w)
    (result, w.release)

/-- Leave the scope normally if there is one to leave, and close the writer. -/
def close (limit : Nat) (w : Writer σ) : Except Failure Unit × Writer σ :=
  if w.phase = .active then w.exit limit true
  else (.ok (), { w with phase := .closed, codec := w.codec.retire })

/-- Leave the scope normally if there is one to leave, and hand the sink back. -/
def intoInner (limit : Nat) (w : Writer σ) : Except Failure Sink × Writer σ :=
  match if w.phase = .active then w.exit limit true else (.ok (), w) with
  | (.error failure, w) => (.error failure, w)
  | (.ok (), w) =>
    let w := { w with phase := .closed, codec := w.codec.retire }
    match w.sink with
    | some sink => (.ok sink, { w with sink := none })
    | none => (.error (.misuse .sinkReleased), w)

/-- What becomes of a writer that is simply let go: a frame is still ended, and nobody hears of a
failure. -/
def abandon (limit : Nat) (w : Writer σ) : Writer σ :=
  if w.phase = .active then (w.exit limit true).2 else w

/-- Run `body` inside the scope. Its failure is the scope's failure, and no frame is ended then. -/
def scope {α : Type} (limit : Nat) (w : Writer σ)
    (body : Writer σ → Except Failure α × Writer σ) : Except Failure α × Writer σ :=
  match w.enter with
  | (.error failure, w) => (.error failure, w)
  | (.ok (), w) =>
    match body w with
    | (.error failure, w) => (.error failure, (w.exit limit false).2)
    | (.ok value, w) =>
      match w.exit limit true with
      | (.error failure, w) => (.error failure, w)
      | (.ok (), w) => (.ok value, w)

/-! ## Requests of an I/O caller -/

/-- `write` for an I/O caller, who is told that everything was taken. -/
def ioWrite (limit : Nat) (w : Writer σ) (bytes : List UInt8) : Except IoError Nat × Writer σ :=
  match w.write limit bytes with
  | (.ok _, w) => (.ok bytes.length, w)
  | (.error failure, w) => (.error failure.toIo, w)

/-- Have all of `bytes` taken. An interruption is answered by another write, and there is no third
one: the failure has closed the writer. -/
def ioWriteAll (limit : Nat) (w : Writer σ) (bytes : List UInt8) :
    Except IoError Unit × Writer σ :=
  if bytes = [] then (.ok (), w)
  else
    match w.ioWrite limit bytes with
    | (.ok _, w) => (.ok (), w)
    | (.error error, w) =>
      if error.kind = .interrupted then
        let (result, w) := w.ioWrite limit bytes
        (result.map fun _ => (), w)
      else (.error error, w)

/-- `flush` for an I/O caller: the frame stays open. -/
def ioFlush (limit : Nat) (w : Writer σ) : Except IoError Unit × Writer σ :=
  match w.flush limit .block with
  | (.ok _, w) => (.ok (), w)
  | (.error failure, w) => (.error failure.toIo, w)

end Writer

end Sluice
