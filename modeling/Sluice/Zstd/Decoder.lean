import Sluice.Unframer
import Sluice.XxHash
import Sluice.Zstd.Block
import Sluice.Zstd.Header

/-!
# Zstandard frames, byte by byte

The automaton that takes Zstandard frames and skippable frames apart. Raw blocks are handed out as
they arrive, the others when they are complete. A skippable frame is a frame without output.

* `Stage` — where in a frame the decoder is.
* `Decoder.feed` — one byte.
* `Unpacker` — the automaton with its queue, which also refuses to be stepped again and again
  when nothing can move.
-/

namespace Sluice.Zstd

/-! ## Delivery -/

/-- Where the content of a frame goes. -/
inductive Delivery where
  /-- through a window of at most so many bytes, from where it is handed out in steps -/
  | windowed (limit : Nat)
  /-- at once into a place with so much room, which serves as the window -/
  | direct (room : Nat)
  deriving DecidableEq, Repr

namespace Delivery

/-- The window limit when none is asked for. -/
def defaultWindowLog : Nat := 27

/-- No window is smaller than this. -/
def minWindow : Nat := 1024

/-- Whether a frame with such a window can be delivered. -/
def admits (d : Delivery) (windowSize : Nat) : Bool :=
  match d with
  | windowed limit => max windowSize minWindow ≤ limit
  | direct _ => true

/-- How far a block may extend the content, of which there are `size` bytes. -/
def growth (d : Delivery) (maxBlock size : Nat) : Growth :=
  match d with
  | windowed _ => ⟨size + maxBlock, .corruption⟩
  | direct room => ⟨room, .outOfRoom⟩

end Delivery

/-! ## Stages -/

/-- Where in a frame's blocks the decoder is. -/
inductive BlockStage where
  /-- in the three bytes in front of a block; those seen, in order -/
  | header (seen : List UInt8)
  /-- in a block of plain bytes -/
  | raw (left : Nat) (last : Bool)
  /-- in front of the one byte that is repeated -/
  | repeated (count : Nat) (last : Bool)
  /-- in a compressed block; its bytes so far -/
  | packed (left : Nat) (last : Bool) (block : ByteArray)
  /-- in the checksum -/
  | checksum (seen : List UInt8)

/-- Where in a frame the decoder is. -/
inductive Stage where
  /-- in the magic number, or in front of it -/
  | magic (seen : List UInt8)
  /-- in the header of a frame -/
  | header (seen : List UInt8)
  /-- in the size of a skippable frame -/
  | skipSize (seen : List UInt8)
  | skip (left : Nat)
  | blocks (header : Header) (memory : Memory) (stage : BlockStage)

/-- A decoder somewhere in a frame. -/
structure Decoder where
  delivery : Delivery
  stage : Stage

namespace Decoder

/-- A decoder in front of a frame. -/
def new (delivery : Delivery) : Decoder := ⟨delivery, .magic []⟩

/-! ## Moving through a frame -/

/-- One byte of the magic number. -/
def feedMagic (delivery : Delivery) (seen : List UInt8) : Fed Decoder :=
  let complete := 4 ≤ seen.length
  if startsFrame seen then
    .more ⟨delivery, if complete then .header [] else .magic seen⟩ []
  else if startsSkippable seen then
    .more ⟨delivery, if complete then .skipSize [] else .magic seen⟩ []
  else .failed Fault.unknownFrame.text

/-- One byte of the header. -/
def feedHeader (delivery : Delivery) (seen : List UInt8) : Fed Decoder :=
  if seen.length < Header.size (seen.headD 0).toNat then .more ⟨delivery, .header seen⟩ []
  else
    match Header.parse seen with
    | .error fault => .failed fault.text
    | .ok header =>
      if header.dictionary ≠ 0 then .failed Fault.dictionaryMismatch.text
      else if !delivery.admits header.windowSize then .failed Fault.windowTooLarge.text
      else .more ⟨delivery, .blocks header .initial (.header [])⟩ []

/-- One byte of the size of a skippable frame. -/
def feedSkipSize (delivery : Delivery) (seen : List UInt8) : Fed Decoder :=
  if seen.length < 4 then .more ⟨delivery, .skipSize seen⟩ []
  else
    match LittleEndian.ofBytes seen with
    | 0 => .ended (new delivery) []
    | size => .more ⟨delivery, .skip size⟩ []

/-- What follows a block: after the last one, the checksum or the end of the frame. -/
def afterBlock (delivery : Delivery) (header : Header) (memory : Memory) (last : Bool)
    (output : List UInt8) : Fed Decoder :=
  if !last then .more ⟨delivery, .blocks header memory (.header [])⟩ output
  else if header.contentSize.any (· ≠ memory.output.size) then .failed Fault.corruption.text
  else if header.hasChecksum then .more ⟨delivery, .blocks header memory (.checksum [])⟩ output
  else .ended (new delivery) output

/-- One byte of a block header: the block's size and type, and whether it is the last. -/
def feedBlockHeader (delivery : Delivery) (header : Header) (memory : Memory) (seen : List UInt8) :
    Fed Decoder :=
  if seen.length < 3 then .more ⟨delivery, .blocks header memory (.header seen)⟩ []
  else
    let word := LittleEndian.ofBytes seen
    let last := word % 2 = 1
    let size := word / 8
    let growth := delivery.growth header.maxBlock memory.output.size
    let go (stage : BlockStage) : Fed Decoder := .more ⟨delivery, .blocks header memory stage⟩ []
    match word / 2 % 4 with
    | 0 =>
      if growth.limit < memory.output.size + size then .failed growth.fault.text
      else if size = 0 then afterBlock delivery header memory last []
      else go (.raw size last)
    | 1 =>
      if growth.limit < memory.output.size + size then .failed growth.fault.text
      else go (.repeated size last)
    | 2 =>
      if header.maxBlock < size then .failed Fault.corruption.text
      else if size = 0 then afterBlock delivery header memory last []
      else go (.packed size last .empty)
    | _ => .failed Fault.corruption.text

/-- One byte inside a frame's blocks. -/
def feedBlocks (delivery : Delivery) (header : Header) (memory : Memory) (stage : BlockStage)
    (byte : UInt8) : Fed Decoder :=
  match stage with
  | .header seen => feedBlockHeader delivery header memory (seen ++ [byte])
  | .raw left last =>
    let memory := { memory with output := memory.output.push byte }
    if left ≤ 1 then afterBlock delivery header memory last [byte]
    else .more ⟨delivery, .blocks header memory (.raw (left - 1) last)⟩ [byte]
  | .repeated count last =>
    let memory := { memory with output := memory.output ++ ⟨Array.replicate count byte⟩ }
    afterBlock delivery header memory last (List.replicate count byte)
  | .packed left last block =>
    let block := block.push byte
    if 1 < left then .more ⟨delivery, .blocks header memory (.packed (left - 1) last block)⟩ []
    else
      let before := memory.output.size
      match memory.decode block header.maxBlock (delivery.growth header.maxBlock before) with
      | .error fault => .failed fault.text
      | .ok memory =>
        let content := memory.output.extract before memory.output.size
        afterBlock delivery header memory last content.toList
  | .checksum seen =>
    let seen := seen ++ [byte]
    if seen.length < 4 then .more ⟨delivery, .blocks header memory (.checksum seen)⟩ []
    else if LittleEndian.toBytes 4 (XxHash.hash64 memory.output).toNat = seen then
      .ended (new delivery) []
    else .failed Fault.wrongChecksum.text

/-- One byte. -/
def feed (d : Decoder) (byte : UInt8) : Fed Decoder :=
  match d with
  | ⟨delivery, .magic seen⟩ => feedMagic delivery (seen ++ [byte])
  | ⟨delivery, .header seen⟩ => feedHeader delivery (seen ++ [byte])
  | ⟨delivery, .skipSize seen⟩ => feedSkipSize delivery (seen ++ [byte])
  | ⟨delivery, .skip left⟩ =>
    if left ≤ 1 then .ended (new delivery) [] else .more ⟨delivery, .skip (left - 1)⟩ []
  | ⟨delivery, .blocks header memory stage⟩ => feedBlocks delivery header memory stage byte

instance : ByteDecoder Decoder where
  feed := feed
  reset d := new d.delivery

/-- Whether the decoder is past the header of a frame. -/
def inBody (d : Decoder) : Bool :=
  match d.stage with
  | .skip _ | .blocks _ _ _ => true
  | _ => false

end Decoder

/-! ## Whole frames -/

/-- What follows the block that `bytes` begin with, and whether it is the last; `none` if the block
is not all there or of no known type. -/
def afterBlock? (bytes : List UInt8) : Option (Bool × List UInt8) :=
  match bytes with
  | a :: b :: c :: rest =>
    let word := LittleEndian.ofBytes [a, b, c]
    let after (size : Nat) :=
      if size = 0 then some (word % 2 == 1, rest)
      else
        match rest.drop (size - 1) with
        | [] => none
        | _ :: rest => some (word % 2 == 1, rest)
    match word / 2 % 4 with
    | 1 => after 1
    | 3 => none
    | _ => after (word / 8)
  | _ => none

/-- What follows the blocks that `bytes` begin with, up to the last one. -/
def afterBlocks? : (fuel : Nat) → (bytes : List UInt8) → Option (List UInt8)
  | 0, _ => none
  | fuel + 1, bytes =>
    match afterBlock? bytes with
    | none => none
    | some (true, rest) => some rest
    | some (false, rest) => afterBlocks? fuel rest

/-- Whether `unread` begins with a frame that is all there and says that its content fits into
`room` bytes. -/
def holdsWholeFrame (unread : List UInt8) (room : Nat) : Bool :=
  match Header.ofFrame? unread with
  | none => false
  | some (header, body) =>
    header.contentSize.any (· ≤ room) &&
      (afterBlocks? body.length body).any fun rest =>
        !header.hasChecksum || !(rest.drop 3).isEmpty

/-! ## Runs -/

/-- The automaton with its queue, the window limit, and the number of runs in a row that moved
nothing. -/
structure Unpacker where
  frames : Queued Decoder
  windowLimit : Nat
  stalls : Nat

namespace Unpacker

/-- In front of a frame. -/
def new (windowLimit : Nat) : Unpacker := ⟨.new (.new (.windowed windowLimit)), windowLimit, 0⟩

/-- The number of runs without progress that is too many. -/
def stallLimit : Nat := 16

/-- Whether no byte of a frame has been read, and nothing waits. -/
def isFresh (u : Unpacker) : Bool :=
  match u.frames with
  | ⟨⟨_, .magic []⟩, [], false, none⟩ => true
  | _ => false

/-- One run of the automaton. A frame that is all there, with room for its content, needs no
window. -/
def runFrames (u : Unpacker) (unread : List UInt8) (room : Nat) : Run (Queued Decoder) :=
  if u.isFresh && holdsWholeFrame unread room then
    let run := Unframer.run (Queued.new (Decoder.new (.direct room))) unread room
    { run with state.decoder := .new (.windowed u.windowLimit) }
  else Unframer.run u.frames unread room

/-- One run. Inside a frame, the last of `stallLimit` runs in a row that move nothing is a
failure, by lack of room if there is none, else by lack of input. -/
def run (u : Unpacker) (unread : List UInt8) (room : Nat) : Run Unpacker :=
  let run := u.runFrames unread room
  match run.result with
  | .error text => ⟨run.taken, run.output, { u with frames := run.state }, .error text⟩
  | .ok left =>
    if run.taken = 0 ∧ run.output = [] then
      if !run.state.decoder.inBody && run.state.queue.isEmpty then
        ⟨0, [], { u with frames := run.state }, .ok left⟩
      else
        let stalls := u.stalls + 1
        let result := if stalls < stallLimit then .ok left
          else .error (if room = 0 then Fault.stalledOutput else Fault.stalledInput).text
        ⟨0, [], { u with frames := run.state, stalls }, result⟩
    else ⟨run.taken, run.output, { u with frames := run.state, stalls := 0 }, .ok left⟩

instance : Unframer Unpacker where
  run := run
  reset u := { u with frames := Unframer.reset u.frames, stalls := 0 }

end Unpacker

end Sluice.Zstd
