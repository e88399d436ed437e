import Sluice.Codec
import Sluice.Unframer

/-!
# Frame decoders

A format that can be read byte by byte makes a codec in one way only, and this is it: what a byte
leads to waits in a queue, no byte is taken while anything waits, and a frame ends in the very step
that hands out the last of it.

* `FrameAutomaton` — the format.
* `FrameDecoder` — the codec. It may be slowed down to a number of bytes per step.
-/

namespace Sluice

/-- A byte decoder that can tell whether it is inside a frame. -/
class FrameAutomaton (δ : Type) extends ByteDecoder δ where
  /-- a short name for diagnostics -/
  name : δ → String
  isPartRead : δ → Bool
  /-- the text of the failure of an input that ends inside a frame -/
  truncated : δ → String

/-- An automaton, the output that waits for room, whether that is the last of a frame, and the
largest number of bytes that one step takes. -/
structure FrameDecoder (δ : Type) where
  automaton : δ
  queue : List UInt8
  frameEnd : Bool
  pace : Option Nat

namespace FrameDecoder

variable {δ : Type}

/-- Nothing read, nothing waiting. -/
def new (automaton : δ) (pace : Option Nat) : FrameDecoder δ := ⟨automaton, [], false, pace⟩

variable [FrameAutomaton δ]

/-- The result of a step that stops for lack of input, of room, or of pace. Without input or
output, an end is wrong inside a frame and right outside of one. -/
def stopResult (d : FrameDecoder δ) (inputLeft : Bool) : Directive → Except Failure Nat
  | .proceed => .ok 1
  | .flush => .ok (if d.queue.isEmpty then 0 else 1)
  | .finish =>
    if !d.queue.isEmpty || inputLeft then .ok 1
    else if FrameAutomaton.isPartRead d.automaton then
      .error (.codec (FrameAutomaton.truncated d.automaton))
    else .ok 0

/-- Hand out what waits; then take bytes, as long as nothing has to wait, until a frame ends. -/
def go (directive : Directive) (d : FrameDecoder δ) (unread : List UInt8) (room taken : Nat)
    (out : Array UInt8) : Step (FrameDecoder δ) :=
  let (ready, waiting) := d.queue.splitAt room
  let out := out ++ ready
  let room := room - ready.length
  let d := { d with queue := waiting }
  if !waiting.isEmpty then ⟨taken, out.toList, d, d.stopResult (!unread.isEmpty) directive⟩
  else if d.frameEnd then ⟨taken, out.toList, { d with frameEnd := false }, .ok 0⟩
  else
    match unread with
    | [] => ⟨taken, out.toList, d, d.stopResult false directive⟩
    | byte :: rest =>
      if d.pace = some taken then ⟨taken, out.toList, d, d.stopResult true directive⟩
      else
        match ByteDecoder.feed d.automaton byte with
        | .more next output =>
          go directive { d with automaton := next, queue := output } rest room (taken + 1) out
        | .ended next output =>
          go directive { d with automaton := next, queue := output, frameEnd := true } rest room
            (taken + 1) out
        | .failed text => ⟨taken + 1, out.toList, d, .error (.codec text)⟩
termination_by structural unread

/-- One step. -/
def step (d : FrameDecoder δ) (unread : List UInt8) (room : Nat) (directive : Directive) :
    Step (FrameDecoder δ) :=
  d.go directive unread room 0 #[]

/-- Forget what has been read of a frame. -/
def reset (d : FrameDecoder δ) : FrameDecoder δ := new (ByteDecoder.reset d.automaton) d.pace

instance : Codec (FrameDecoder δ) where
  name d := FrameAutomaton.name d.automaton
  step := step
  reset := reset
  pledge d _ := (.ok (), d)

end FrameDecoder

end Sluice
