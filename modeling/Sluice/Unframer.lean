import Sluice.Codec

/-!
# Taking frames apart

What a decompressing codec needs of a packed format, without any policy about the end of input.

* `Unframer` — takes some packed input and some room, and reports the end of a frame.
* `ByteDecoder` — a format as an automaton: each byte adds to the output, ends the frame, or is
  wrong.
* `Queued` — the unframer of a byte decoder. Output that finds no room waits in a queue, and no
  byte is taken while it waits.
-/

namespace Sluice

/-- The outcome of a run: input bytes taken, output made, the state afterwards, and a number that
is 0 exactly when a frame has ended and all of its output has been handed out. -/
structure Run (ρ : Type) where
  taken : Nat
  output : List UInt8
  state : ρ
  result : Except String Nat

/-- A format's decoder, with states of type `ρ`. -/
class Unframer (ρ : Type) where
  /-- decode from the unread input, with room for that many bytes -/
  run : ρ → List UInt8 → Nat → Run ρ
  /-- forget a frame that has been begun; the libraries document that this never fails -/
  reset : ρ → ρ

/-! ## Byte by byte -/

/-- What one byte leads to. -/
inductive Fed (δ : Type) where
  /-- the frame goes on -/
  | more (next : δ) (output : List UInt8)
  /-- the frame has ended; `next` is ready for another one -/
  | ended (next : δ) (output : List UInt8)
  /-- the byte is wrong -/
  | failed (text : String)

/-- A decoder that takes one byte at a time. -/
class ByteDecoder (δ : Type) where
  feed : δ → UInt8 → Fed δ
  /-- forget a frame that has been begun -/
  reset : δ → δ

/-- A byte decoder with the output that waits for room, whether that is the last of a frame, and
the text of a failure, after which the decoder has to be reset. -/
structure Queued (δ : Type) where
  decoder : δ
  queue : List UInt8
  frameEnd : Bool
  failure : Option String

namespace Queued

variable {δ : Type}

/-- Nothing decoded, nothing waiting. -/
def new (decoder : δ) : Queued δ := ⟨decoder, [], false, none⟩

variable [ByteDecoder δ]

/-- Hand out what waits; then take bytes, as long as nothing has to wait, until a frame ends. A
failing run counts as if it had taken and made nothing. -/
def go (q : Queued δ) (unread : List UInt8) (room taken : Nat) (out : Array UInt8) :
    Run (Queued δ) :=
  let (ready, waiting) := q.queue.splitAt room
  let out := out ++ ready
  let room := room - ready.length
  if !waiting.isEmpty then ⟨taken, out.toList, { q with queue := waiting }, .ok 1⟩
  else if q.frameEnd then ⟨taken, out.toList, .new q.decoder, .ok 0⟩
  else
    match unread with
    | [] => ⟨taken, out.toList, .new q.decoder, .ok 1⟩
    | byte :: rest =>
      match ByteDecoder.feed q.decoder byte with
      | .more next output => go ⟨next, output, false, none⟩ rest room (taken + 1) out
      | .ended next output => go ⟨next, output, true, none⟩ rest room (taken + 1) out
      | .failed text => ⟨0, [], { Queued.new q.decoder with failure := some text }, .error text⟩
termination_by structural unread

instance : Unframer (Queued δ) where
  run q unread room :=
    match q.failure with
    | some text => ⟨0, [], q, .error text⟩
    | none => q.go unread room 0 #[]
  reset q := .new (ByteDecoder.reset q.decoder)

end Queued

end Sluice
