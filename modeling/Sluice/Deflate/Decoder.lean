import Sluice.Deflate.Machine
import Sluice.Unframer

/-!
# DEFLATE streams, with bounded room

The decoder works ahead: it decodes up to the next multiple of `batchSize` bytes of output, even
if there is less room, and what finds no room waits. A run that starts with something waiting
only hands that out. So an error in the stream is reported when it is met, not when the output
before it has been handed out.
-/

namespace Sluice.Deflate

/-- The decoder stops working ahead where its output reaches a multiple of this. -/
def batchSize : Nat := 32768

/-- The text of the one failure there is. -/
def wrongStream : String := "deflate decompression error"

/-- The machine, the bits of the current byte that it has not read, and the output that waits. -/
structure Decoder where
  machine : Machine
  bits : List Bool
  queue : List UInt8

namespace Decoder

/-- In front of a stream. -/
def start : Decoder := ⟨.start, [], []⟩

/-- The bits of a byte after the one that is read first, in order. -/
def laterBits (byte : UInt8) : List Bool := (List.range' 1 7).map byte.toNat.testBit

/-! ## Working ahead -/

/-- A machine with the unread bits of its byte and the space left in the batch. -/
structure Progress where
  machine : Machine
  bits : List Bool
  space : Nat

/-- Write what is pending, and read bits until something cannot be written, a whole byte is needed,
or the stream is over. -/
def readBits (machine : Machine) (space : Nat) (bits : List Bool) : Progress :=
  let (machine, space) := machine.write space
  match bits with
  | [] => ⟨machine, [], space⟩
  | bit :: rest =>
    if machine.isBlocked || machine.isOver then ⟨machine, bit :: rest, space⟩
    else if machine.isAligned then ⟨machine, [], space⟩
    else readBits (machine.feedBit bit) space rest

/-- Go on byte by byte until the space is used up, the input is, or the stream is over. The answer
is where the machine is then, and how many bytes were taken. -/
def readBytes (p : Progress) (unread : List UInt8) (taken : Nat) : Progress × List UInt8 × Nat :=
  let p := readBits p.machine p.space p.bits
  match unread with
  | [] => (p, [], taken)
  | byte :: rest =>
    if p.machine.isBlocked || p.machine.isOver then (p, byte :: rest, taken)
    else
      match p.machine.reading with
      | .stored _ =>
        if p.space = 0 then (p, byte :: rest, taken)
        else readBytes ⟨p.machine.feedByte byte, [], p.space - 1⟩ rest (taken + 1)
      | _ =>
        readBytes ⟨p.machine.feedBit (byte.toNat.testBit 0), laterBits byte, p.space⟩ rest (taken + 1)
termination_by structural unread

/-- What a batch leads to. -/
structure Batch where
  decoder : Decoder
  unread : List UInt8
  taken : Nat

/-- Work ahead to the end of the batch. -/
def batch (d : Decoder) (unread : List UInt8) (taken : Nat) : Batch :=
  let before := d.machine.written.size
  let (p, unread, taken) :=
    readBytes ⟨d.machine, d.bits, batchSize - before % batchSize⟩ unread taken
  let ready := (p.machine.written.extract before p.machine.written.size).toList
  ⟨⟨p.machine, p.bits, ready⟩, unread, taken⟩

/-! ## Runs -/

/-- What a run that ends here returns: 0 if the stream has ended and nothing waits. -/
def left (d : Decoder) : Nat := if d.machine.isDone && d.queue.isEmpty then 0 else 1

/-- Batch after batch, while there is room and input and everything has been handed out. -/
def go (d : Decoder) (unread : List UInt8) (room taken : Nat) (out : Array UInt8) : Run Decoder :=
  let b := d.batch unread taken
  if b.decoder.machine.isWrong then ⟨0, [], b.decoder, .error wrongStream⟩
  else
    let (ready, waiting) := b.decoder.queue.splitAt room
    let out := out ++ ready
    let d := { b.decoder with queue := waiting }
    if _h : d.machine.isDone ∨ b.unread = [] ∨ waiting ≠ [] ∨ ready = [] ∨ room ≤ ready.length then
      ⟨b.taken, out.toList, d, .ok d.left⟩
    else go d b.unread (room - ready.length) b.taken out
termination_by room
decreasing_by
  simp only [not_or] at _h
  have := List.length_pos_iff.2 _h.2.2.2.1
  omega

/-- One run. -/
def run (d : Decoder) (unread : List UInt8) (room : Nat) : Run Decoder :=
  if d.machine.isWrong then ⟨0, [], d, .error wrongStream⟩
  else if !d.queue.isEmpty || d.machine.isDone then
    let (ready, waiting) := d.queue.splitAt room
    let d := { d with queue := waiting }
    ⟨0, ready, d, .ok d.left⟩
  else d.go unread room 0 #[]

instance : Unframer Decoder where
  run := run
  reset _ := start

end Decoder

end Sluice.Deflate
