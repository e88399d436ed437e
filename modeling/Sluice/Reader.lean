import Sluice.Settings
import Sluice.Source
import Sluice.Stream

/-!
# Readers

A reader gives the packed or unpacked form of a source, as many bytes at a time as its caller
asks for. It pulls input in pieces of `readSize` bytes, and what the codec has not taken stays
`pending` for the next call.

* `fill` — the one loop behind every read. It ends for every codec: each turn moves a cursor, or
  uses up an answer of the source, or is the last.
* `readInto`, `readInto1`, `read`, `read1` — one request; the ones with a `1` return as soon as
  there is anything to return.
* `readAll`, `seek`, `skipInput` — repeated requests.
-/

namespace Sluice

/-- A reader over a source, with a codec in states of type `σ`. -/
structure Reader (σ : Type) where
  phase : Phase
  direction : Direction
  source : Source
  codec : Slot σ
  /-- bytes asked of the source per pull -/
  readSize : Nat
  /-- input that has been pulled and not been taken by the codec. Only this rest of it is kept: there
  is no position in it, and so none that could be beyond its end -/
  pending : List UInt8
  /-- the source has answered with its end -/
  inputDone : Bool
  /-- nothing more will be delivered -/
  outputDone : Bool
  /-- number of bytes delivered -/
  delivered : Nat
  /-- the codec has to be told, before its first step, that the size is unknown -/
  owesPledge : Bool
  /-- the end of a frame is the end of the stream -/
  stopsAtFrameEnd : Bool

namespace Reader

/-- A reader that has delivered nothing yet. -/
def new {σ : Type} (direction : Direction) (codec : σ) (source : Source)
    (settings : ReaderSettings) : Except Failure (Reader σ) :=
  if settings.readSize = 0 then .error (.misuse (.zeroSize "read_size"))
  else .ok {
    phase := .notEntered
    direction := direction
    source := source
    codec := .live codec
    readSize := settings.readSize
    pending := []
    inputDone := false
    outputDone := false
    delivered := 0
    owesPledge := direction = .compressing
    stopsAtFrameEnd := direction = .decompressing && !settings.acrossFrames }

variable {σ : Type}

/-! ## Scope -/

/-- Enter the scope. Reading does not need it. -/
def enter (r : Reader σ) : Except Failure Unit × Reader σ :=
  match r.phase.enter with
  | .ok phase => (.ok (), { r with phase })
  | .error failure => (.error failure, r)

/-- Give up the codec and the pending input; this can be done any number of times. -/
def close (r : Reader σ) : Reader σ :=
  { r with phase := .closed, codec := r.codec.retire, pending := [] }

/-- Leave the scope. -/
def exit (r : Reader σ) : Except Failure Unit × Reader σ :=
  match r.phase.require "exit" with
  | .ok () => (.ok (), r.close)
  | .error failure => (.error failure, r)

def isClosed (r : Reader σ) : Bool := r.phase == .closed

/-- Only the decompressed side can be moved along. -/
def isSeekable (r : Reader σ) : Bool := r.direction == .decompressing

/-! ## Pulling input -/

/-- Add up to `readSize` bytes of the source to the pending input. -/
def pull (r : Reader σ) : Except Failure Unit × Reader σ :=
  match r.source.pull r.readSize with
  | (.ok bytes, source) =>
    (.ok (), { r with source, pending := r.pending ++ bytes, inputDone := r.inputDone || bytes == [] })
  | (.error failure, source) => (.error failure, { r with source })

/-- What is left of the source, counting the end itself as one more answer. -/
def inputLeft (r : Reader σ) : Nat := if r.inputDone then 0 else r.source.answersLeft + 1

/-- A pull uses up an answer of the source. -/
theorem inputLeft_pull {r : Reader σ} (h : r.inputDone = false) (hp : r.pull.1 = .ok ()) :
    r.pull.2.inputLeft < r.inputLeft := by
  unfold pull at hp ⊢
  split at hp
  · next bytes source hs =>
    by_cases hb : bytes = []
    · simp [inputLeft, h, hb]
    · have := @Source.answersLeft_pull r.source r.readSize bytes (by rw [hs]) hb
      rw [hs] at this
      simp only [inputLeft, h, Bool.false_or, beq_iff_eq, hb]
      simpa using this
  · simp at hp

/-! ## Filling a window -/

variable [Codec σ]

/-- Step the codec and pull input until the window is full, the stream has ended or the input has.
An `eager` call is content with any output. -/
def feed (eager : Bool) (r : Reader σ) (window : Window) :
    Except Failure Window × Reader σ :=
  if r.pending.isEmpty then
    if _h : r.inputDone then (.ok window, r)
    else
      match _hp : r.pull with
      | (.error failure, r') => (.error failure, r')
      | (.ok (), r') => feed eager r' window
  else
    match r.codec with
    | .retired _ => (.error (.misuse .closed), r)
    | .live codec =>
      let driven := drive codec (.ofList r.pending) window .proceed
      match driven.result with
      | .error failure => (.error failure, { r with codec := .live driven.codec })
      | .ok left =>
        let stepped := { r with codec := .live driven.codec, pending := driven.input.unread }
        if left = 0 ∧ r.stopsAtFrameEnd then
          (.ok driven.window, { stepped with outputDone := true })
        else if driven.window.isFull || (eager && 0 < driven.window.pos) then
          (.ok driven.window, stepped)
        else if _hm : 0 < driven.input.pos ∨ window.pos < driven.window.pos then
          feed eager stepped driven.window
        else if _h : r.inputDone then (.ok driven.window, stepped)
        else
          match _hp : stepped.pull with
          | (.error failure, r') => (.error failure, r')
          | (.ok (), r') => feed eager r' driven.window
termination_by (r.inputLeft, r.pending.length + window.spare)
decreasing_by
  · have := inputLeft_pull (r := r) (by simpa using _h) (by rw [_hp])
    rw [_hp] at this
    exact Prod.Lex.left _ _ this
  · apply Prod.Lex.right
    exact @drive_progress _ _ codec (.ofList r.pending) window .proceed _hm
  · have := @inputLeft_pull _ stepped (by simpa [stepped] using _h) (by rw [_hp])
    rw [_hp] at this
    exact Prod.Lex.left _ _ this

/-- Collect what the codec holds back once there is no more input. The stream has ended when the
codec is done or gives nothing. -/
def drain (r : Reader σ) (window : Window) : Except Failure Window × Reader σ :=
  match r.codec with
  | .retired _ => (.error (.misuse .closed), r)
  | .live codec =>
    let driven := drive codec .empty window .finish
    let stepped := { r with codec := .live driven.codec }
    match driven.result with
    | .error failure => (.error failure, stepped)
    | .ok left =>
      if _hm : left ≠ 0 ∧ window.pos < driven.window.pos then
        if driven.window.isFull then (.ok driven.window, stepped)
        else drain stepped driven.window
      else (.ok driven.window, { stepped with outputDone := true })
termination_by window.spare
decreasing_by
  exact Window.spare_lt_of_pos_lt _hm.2

/-- Tell a compressing codec, once, that the size of its frame is not known. -/
def settlePledge (r : Reader σ) : Except Failure Unit × Reader σ :=
  if r.owesPledge then
    match r.codec with
    | .retired _ => (.ok (), { r with owesPledge := false })
    | .live codec =>
      match Codec.pledge codec none with
      | (.ok (), codec) => (.ok (), { r with codec := .live codec, owesPledge := false })
      | (.error failure, codec) => (.error failure, { r with codec := .live codec })
  else (.ok (), r)

/-- Whether the input has ended while there is still room to hand out what the codec holds back. -/
def canDrain (r : Reader σ) (window : Window) : Bool :=
  r.inputDone && !r.outputDone && !window.isFull && r.pending.isEmpty

/-- One request for up to `size` bytes. Bytes that were made before a failure are not delivered. -/
def fill (eager : Bool) (r : Reader σ) (size : Nat) :
    Except Failure (List UInt8) × Reader σ :=
  if r.phase = .closed then (.error (.misuse .closed), r)
  else if r.outputDone ∨ size = 0 then (.ok [], r)
  else
    match r.settlePledge with
    | (.error failure, r) => (.error failure, r)
    | (.ok (), r) =>
      match feed eager r (.fresh size) with
      | (.error failure, r) => (.error failure, r)
      | (.ok window, r) =>
        match if r.canDrain window then drain r window else (.ok window, r) with
        | (.error failure, r) => (.error failure, r)
        | (.ok window, r) =>
          (.ok window.written.toList, { r with delivered := r.delivered + window.pos })

/-! ## Requests -/

/-- Up to `size` bytes, and fewer only at the end of the stream. -/
def readInto (r : Reader σ) (size : Nat) : Except Failure (List UInt8) × Reader σ :=
  r.fill false size

/-- Up to `size` bytes, as soon as there are any. -/
def readInto1 (r : Reader σ) (size : Nat) : Except Failure (List UInt8) × Reader σ :=
  r.fill true size

/-- Up to `size` bytes; a request for none is refused. -/
def read (r : Reader σ) (size : Nat) : Except Failure (List UInt8) × Reader σ :=
  if size = 0 then (.error (.misuse .emptyRead), r) else r.readInto size

/-- Up to `size` bytes, as soon as there are any; a request for none gives none. -/
def read1 (r : Reader σ) (size : Nat) : Except Failure (List UInt8) × Reader σ :=
  r.readInto1 size

/-- Pieces of `decompressionOutputSize` bytes until one is empty, at most `limit` of them: a codec
may give output without end. -/
def readAll (limit : Nat) (r : Reader σ) (acc : Array UInt8 := #[]) :
    Except Failure (List UInt8) × Reader σ :=
  match limit with
  | 0 => (.error .stepLimit, r)
  | limit + 1 =>
    match r.readInto decompressionOutputSize with
    | (.error failure, r) => (.error failure, r)
    | (.ok [], r) => (.ok acc.toList, r)
    | (.ok bytes, r) => readAll limit r (acc ++ bytes)

/-- Drop the next `count` bytes of the source without decoding them. -/
def skipInput (r : Reader σ) (count : Nat) : Except Failure Unit × Reader σ :=
  if count ≤ r.pending.length then (.ok (), { r with pending := r.pending.drop count })
  else if _h : r.inputDone then (.error (.misuse .skipPastEnd), r)
  else
    match _hp : r.pull with
    | (.error failure, r') => (.error failure, r')
    | (.ok (), r') => skipInput r' count
termination_by r.inputLeft
decreasing_by
  have := inputLeft_pull (r := r) (by simpa using _h) (by rw [_hp])
  rw [_hp] at this
  exact this

/-! ## Requests of an I/O caller

A reader can itself be a source. Its failures then cross an I/O boundary. -/

/-- The failure of a stream that ends before a buffer is full. -/
def shortage : IoError := .noted .unexpectedEof "failed to fill whole buffer"

/-- `readInto` for an I/O caller. -/
def ioRead (r : Reader σ) (size : Nat) : Except IoError (List UInt8) × Reader σ :=
  match r.readInto size with
  | (.ok bytes, r) => (.ok bytes, r)
  | (.error failure, r) => (.error failure.toIo, r)

/-- Exactly `size` bytes, in at most `limit` requests; interrupted ones are repeated. -/
def ioReadExact (limit : Nat) (r : Reader σ) (size : Nat) (acc : Array UInt8 := #[]) :
    Except IoError (List UInt8) × Reader σ :=
  if size = 0 then (.ok acc.toList, r)
  else
    match limit with
    | 0 => (.error Failure.stepLimit.toIo, r)
    | limit + 1 =>
      match r.ioRead size with
      | (.error error, r) =>
        if error.kind = .interrupted then ioReadExact limit r size acc else (.error error, r)
      | (.ok [], r) => (.error shortage, r)
      | (.ok bytes, r) => ioReadExact limit r (size - bytes.length) (acc ++ bytes)

/-- Everything up to the end, in at most `limit` requests; interrupted ones are repeated. -/
def ioReadToEnd (limit : Nat) (r : Reader σ) (acc : Array UInt8 := #[]) :
    Except IoError (List UInt8) × Reader σ :=
  match limit with
  | 0 => (.error Failure.stepLimit.toIo, r)
  | limit + 1 =>
    match r.ioRead decompressionOutputSize with
    | (.error error, r) =>
      if error.kind = .interrupted then ioReadToEnd limit r acc else (.error error, r)
    | (.ok [], r) => (.ok acc.toList, r)
    | (.ok bytes, r) => ioReadToEnd limit r (acc ++ bytes)

/-! ## Moving forward -/

/-- Where to move to. -/
inductive SeekFrom where
  | start (offset : Nat)
  | current (delta : Int)
  | fromEnd (delta : Int)
  deriving DecidableEq, Repr

/-- Positions are 64-bit words. -/
def positionLimit : Nat := UInt64.size

/-- Read and discard `distance` bytes, or what is left if that is less. -/
def discard (r : Reader σ) (distance : Nat) : Except Failure Unit × Reader σ :=
  if _hd : distance = 0 then (.ok (), r)
  else
    match r.readInto (min distance decompressionOutputSize) with
    | (.error failure, r) => (.error failure, r)
    | (.ok [], r) => (.ok (), r)
    | (.ok (_ :: rest), r) => discard r (distance - (rest.length + 1))
termination_by distance

/-- The position a decompressing reader is asked to move to, if it is not behind the current one
and a position at all. -/
def SeekFrom.target (goal : SeekFrom) (current : Nat) : Except Failure Nat :=
  match goal with
  | .fromEnd _ => .error (.unsupported "seek relative to end of stream")
  | .start offset => forward offset
  | .current delta => forward (current + delta)
where
  /-- refuse what lies behind, and what is too large for a position -/
  forward (target : Int) : Except Failure Nat :=
    if (current : Int) ≤ target ∧ target < positionLimit then .ok target.toNat
    else .error (.misuse .backwardSeek)

/-- Move forward by decoding and discarding, to the target or to the end of the stream, and say
where the reader is then. The other direction cannot be sought in at all. -/
def seek (r : Reader σ) (goal : SeekFrom) : Except Failure Nat × Reader σ :=
  match r.direction with
  | .compressing => (.error (.unsupported "seek"), r)
  | .decompressing =>
    if r.phase = .closed then (.error (.misuse .closed), r)
    else
      match goal.target r.delivered with
      | .error failure => (.error failure, r)
      | .ok target =>
        match r.discard (target - r.delivered) with
        | (.error failure, r) => (.error failure, r)
        | (.ok (), r) => (.ok r.delivered, r)

/-- `seek` for an I/O caller. -/
def ioSeek (r : Reader σ) (goal : SeekFrom) : Except IoError Nat × Reader σ :=
  match r.seek goal with
  | (.ok position, r) => (.ok position, r)
  | (.error failure, r) => (.error failure.toIo, r)

end Reader

end Sluice
