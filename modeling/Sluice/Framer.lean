import Sluice.Unframer

/-!
# Making frames

What a compressing codec needs of a packed format.

* `Framer` — takes input, room and a directive: to go on, to give everything, or to end the frame.
* `ByteEncoder` — a format's encoder that takes one byte at a time.
* `Outgoing` — a byte encoder with a queue. Output that finds no room waits in it, and no byte is
  taken while it waits. How a format's library asks its encoder for a flush or an end is up to the
  format.
-/

namespace Sluice

/-- A format's encoder, with states of type `φ`. -/
class Framer (φ : Type) where
  /-- take input and give output, as far as there is room. To proceed is to give what is ready; a flush
  gives everything that is held back, and a finish ends the frame as well. The number is 0 exactly when a
  flush or a finish has been carried out completely -/
  compress : φ → List UInt8 → Nat → Directive → Run φ
  /-- forget a frame that has been begun; the libraries document that this never fails -/
  reset : φ → φ
  /-- learn the input size of the frame that comes next -/
  pledge : φ → Option Nat → Except String Unit × φ

/-- An encoder that takes one byte at a time. Finishing twice adds nothing. -/
class ByteEncoder (ε : Type) where
  /-- learn that the frame has been begun, with input or without -/
  begin : ε → ε
  accept : ε → UInt8 → Except String (List UInt8) × ε
  flush : ε → Except String (List UInt8) × ε
  finish : ε → Except String (List UInt8) × ε
  /-- forget a frame that has been begun -/
  reset : ε → ε
  /-- learn the input size of the frame that comes next -/
  pledge : ε → Option Nat → Except String Unit × ε

/-- A byte encoder with the output that waits for room. -/
structure Outgoing (ε : Type) where
  encoder : ε
  queue : List UInt8

namespace Outgoing

variable {ε : Type} [ByteEncoder ε]

def new {ε : Type} (encoder : ε) : Outgoing ε := ⟨encoder, []⟩

/-- Hand out what waits, and take bytes as long as nothing has to wait. -/
def go (o : Outgoing ε) (unread : List UInt8) (room taken : Nat) (out : Array UInt8) :
    Run (Outgoing ε) :=
  let (ready, waiting) := o.queue.splitAt room
  let out := out ++ ready
  let room := room - ready.length
  let o := { o with queue := waiting }
  match unread with
  | [] => ⟨taken, out.toList, o, .ok 1⟩
  | byte :: rest =>
    if !waiting.isEmpty then ⟨taken, out.toList, o, .ok 1⟩
    else
      match ByteEncoder.accept o.encoder byte with
      | (.ok output, encoder) => go ⟨encoder, output⟩ rest room (taken + 1) out
      | (.error text, encoder) => ⟨taken, out.toList, ⟨encoder, []⟩, .error text⟩
termination_by structural unread

/-- Hand out what waits; when nothing does, ask the encoder for more, by `request`. -/
def empty (o : Outgoing ε) (room : Nat) (request : ε → Except String (List UInt8) × ε) :
    Run (Outgoing ε) :=
  let (first, waiting) := o.queue.splitAt room
  if !waiting.isEmpty then ⟨0, first, { o with queue := waiting }, .ok 1⟩
  else
    match request o.encoder with
    | (.error text, encoder) => ⟨0, first, ⟨encoder, []⟩, .error text⟩
    | (.ok output, encoder) =>
      let (second, waiting) := output.splitAt (room - first.length)
      ⟨0, first ++ second, ⟨encoder, waiting⟩, .ok (if waiting.isEmpty then 0 else 1)⟩

/-- Take input and give what is ready. -/
def run (o : Outgoing ε) (unread : List UInt8) (room : Nat) : Run (Outgoing ε) :=
  go ⟨ByteEncoder.begin o.encoder, o.queue⟩ unread room 0 #[]

/-- Take the input, and if all of it could be taken, ask the encoder for more, by `request`. -/
def runThen (o : Outgoing ε) (unread : List UInt8) (room : Nat)
    (request : ε → Except String (List UInt8) × ε) : Run (Outgoing ε) :=
  let first := o.run unread room
  match first.result with
  | .error _ => first
  | .ok _ =>
    if !(unread.drop first.taken).isEmpty then { first with result := .ok 1 }
    else
      let second := first.state.empty (room - first.output.length) request
      { second with taken := first.taken, output := first.output ++ second.output }

/-- Forget everything. -/
def reset (o : Outgoing ε) : Outgoing ε := new (ByteEncoder.reset o.encoder)

/-- Learn the input size of the frame that comes next. -/
def pledge (o : Outgoing ε) (size : Option Nat) : Except String Unit × Outgoing ε :=
  let (result, encoder) := ByteEncoder.pledge o.encoder size
  (result, { o with encoder })

end Outgoing

end Sluice
