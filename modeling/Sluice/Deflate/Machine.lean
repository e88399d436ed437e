import Sluice.Deflate.Code

/-!
# DEFLATE, bit by bit

The machine that reads a DEFLATE stream. A bit leads from one `Reading` to the next; from time to
time something is `pending` that has to be written before the next bit.

* `Machine.feedBit` — one bit.
* `Machine.write` — write what is pending, as far as there is space.
-/

namespace Sluice.Deflate

/-! ## What is being read -/

/-- A number being read, least significant bit first. -/
structure Field where
  need : Nat
  have_ : Nat
  value : Nat
  deriving DecidableEq, Repr

namespace Field

/-- A number of `need` bits, none of them read. -/
def new (need : Nat) : Field := ⟨need, 0, 0⟩

/-- One more bit. -/
def push (f : Field) (bit : Bool) : Field :=
  ⟨f.need, f.have_ + 1, f.value + bit.toNat * (1 <<< f.have_)⟩

def isComplete (f : Field) : Bool := f.need ≤ f.have_

end Field

/-- The sizes at the head of a block with its own codes. -/
structure Sizes where
  literals : Nat
  distances : Nat
  codeLengths : Nat
  deriving DecidableEq, Repr

/-- What the machine is reading. -/
inductive Reading where
  | blockHead (field : Field)
  /-- the length of a stored block and its complement -/
  | storedSize (field : Field)
  /-- the bytes of a stored block -/
  | stored (left : Nat)
  | sizes (field : Field)
  /-- the lengths of the code for code lengths; those read, the latest first -/
  | codeLengths (sizes : Sizes) (field : Field) (got : List Nat)
  /-- a code length, or how to repeat one -/
  | lengths (sizes : Sizes) (code : Code) (walk : Walk) (got : Array Nat)
  /-- how often to repeat `length` -/
  | repeats (sizes : Sizes) (code : Code) (got : Array Nat) (length base : Nat) (field : Field)
  | literal (codes : Codes) (walk : Walk)
  | matchLength (codes : Codes) (base : Nat) (field : Field)
  | distance (codes : Codes) (length : Nat) (walk : Walk)
  | matchDistance (codes : Codes) (length base : Nat) (field : Field)
  /-- the stream has ended -/
  | done
  /-- the stream is wrong -/
  | wrong

/-- What has to be written before reading goes on. -/
inductive Pending where
  | nothing
  | byte (value : UInt8)
  /-- `count` bytes, each the one that was written `distance` bytes before it -/
  | copy (count distance : Nat)

/-- The state of the machine: whether the block is the last one, and everything written so far. -/
structure Machine where
  last : Bool
  reading : Reading
  pending : Pending
  written : ByteArray

namespace Machine

/-- In front of a stream. -/
def start : Machine := ⟨false, .blockHead (.new 3), .nothing, .empty⟩

instance : Inhabited Machine := ⟨start⟩

/-! ## Reading -/

/-- In front of the next literal of a block. -/
def nextLiteral (codes : Codes) : Reading := .literal codes .start

/-- What follows a block. -/
def afterBlock (last : Bool) : Reading := if last then .done else .blockHead (.new 3)

/-- The codes of a block, once all lengths have been read. A code with gaps is accepted only if at
most one symbol has a word. -/
def finishLengths (sizes : Sizes) (got : Array Nat) : Reading :=
  let lengths := got.toList
  let literals := Code.ofLengths (lengths.take sizes.literals)
  let distances := Code.ofLengths (lengths.drop sizes.literals)
  if [literals, distances].all fun code => code.isComplete || code.used ≤ 1 then
    nextLiteral ⟨literals, distances⟩
  else .wrong

/-- After some code lengths: more of them, or the block itself. -/
def afterLengths (sizes : Sizes) (code : Code) (got : Array Nat) : Reading :=
  let total := sizes.literals + sizes.distances
  if got.size < total then .lengths sizes code .start got
  else if got.size = total then finishLengths sizes got
  else .wrong

/-- A symbol of the code for code lengths: a length, or a repetition. -/
def lengthSymbol (sizes : Sizes) (code : Code) (got : Array Nat) (symbol : Nat) : Reading :=
  match symbol with
  | 16 =>
    match got.back? with
    | none => .wrong
    | some length => .repeats sizes code got length 3 (.new 2)
  | 17 => .repeats sizes code got 0 3 (.new 3)
  | 18 => .repeats sizes code got 0 11 (.new 7)
  | length => afterLengths sizes code (got.push length)

/-- The length of a match is known; its distance comes next. -/
def afterLength (codes : Codes) (length : Nat) : Reading := .distance codes length .start

/-- The lengths of the code for code lengths have been read. This code may not have gaps. -/
def finishCodeLengths (sizes : Sizes) (got : List Nat) : Reading :=
  let given := codeLengthOrder.zip got.reverse
  let lengths := (List.range 19).map fun symbol => (given.lookup symbol).getD 0
  let code := Code.ofLengths lengths
  if code.isComplete then afterLengths sizes code #[] else .wrong

/-- The three bits in front of a block: its type. -/
def blockType (value : Nat) : Reading :=
  match value / 2 with
  | 0 => .storedSize (.new 32)
  | 1 => nextLiteral .fixed
  | 2 => .sizes (.new 14)
  | _ => .wrong

/-- The head of a block with its own codes. Not all sizes that can be written are allowed. -/
def blockSizes (value : Nat) : Reading :=
  let sizes : Sizes := ⟨value % 32 + 257, value / 32 % 32 + 1, value / 1024 + 4⟩
  if sizes.literals ≤ 286 ∧ sizes.distances ≤ 30 then .codeLengths sizes (.new 3) [] else .wrong

/-- The size of a stored block is given twice, the second time with all bits turned. -/
def storedBlock (last : Bool) (value : Nat) : Reading :=
  let size := value % 65536
  if size + value / 65536 ≠ 65535 then .wrong
  else if size = 0 then afterBlock last
  else .stored size

/-- Read one bit. Nothing may be pending. -/
def feedBit (m : Machine) (bit : Bool) : Machine :=
  match m with
  | ⟨last, .blockHead field, pending, written⟩ =>
    let field := field.push bit
    if field.isComplete then ⟨field.value % 2 = 1, blockType field.value, pending, written⟩
    else ⟨last, .blockHead field, pending, written⟩
  | ⟨last, .storedSize field, pending, written⟩ =>
    let field := field.push bit
    ⟨last, if field.isComplete then storedBlock last field.value else .storedSize field, pending,
      written⟩
  | ⟨last, .sizes field, pending, written⟩ =>
    let field := field.push bit
    ⟨last, if field.isComplete then blockSizes field.value else .sizes field, pending, written⟩
  | ⟨last, .codeLengths sizes field got, pending, written⟩ =>
    let field := field.push bit
    let reading :=
      if !field.isComplete then .codeLengths sizes field got
      else if got.length + 1 < sizes.codeLengths then
        .codeLengths sizes (.new 3) (field.value :: got)
      else finishCodeLengths sizes (field.value :: got)
    ⟨last, reading, pending, written⟩
  | ⟨last, .lengths sizes code walk got, pending, written⟩ =>
    let reading := match code.step walk bit with
      | .symbol symbol => lengthSymbol sizes code got symbol
      | .deeper walk => .lengths sizes code walk got
      | .nowhere => .wrong
    ⟨last, reading, pending, written⟩
  | ⟨last, .repeats sizes code got length base field, pending, written⟩ =>
    let field := field.push bit
    let reading :=
      if field.isComplete then
        afterLengths sizes code (got ++ Array.replicate (base + field.value) length)
      else .repeats sizes code got length base field
    ⟨last, reading, pending, written⟩
  | ⟨last, .literal codes walk, pending, written⟩ =>
    match codes.literals.step walk bit with
    | .deeper walk => ⟨last, .literal codes walk, pending, written⟩
    | .nowhere => ⟨last, .wrong, pending, written⟩
    | .symbol symbol =>
      if symbol < endOfBlock then ⟨last, nextLiteral codes, .byte (UInt8.ofNat symbol), written⟩
      else if symbol = endOfBlock then ⟨last, afterBlock last, pending, written⟩
      else
        let reading := match lengthRanges[symbol - endOfBlock - 1]? with
          | none => .wrong
          | some (base, 0) => afterLength codes base
          | some (base, need) => .matchLength codes base (.new need)
        ⟨last, reading, pending, written⟩
  | ⟨last, .matchLength codes base field, pending, written⟩ =>
    let field := field.push bit
    ⟨last, if field.isComplete then afterLength codes (base + field.value)
      else .matchLength codes base field, pending, written⟩
  | ⟨last, .distance codes length walk, pending, written⟩ =>
    match codes.distances.step walk bit with
    | .deeper walk => ⟨last, .distance codes length walk, pending, written⟩
    | .nowhere => ⟨last, .wrong, pending, written⟩
    | .symbol symbol =>
      match distanceRanges[symbol]? with
      | none => ⟨last, .wrong, pending, written⟩
      | some (base, 0) => ⟨last, nextLiteral codes, .copy length base, written⟩
      | some (base, need) => ⟨last, .matchDistance codes length base (.new need), pending, written⟩
  | ⟨last, .matchDistance codes length base field, pending, written⟩ =>
    let field := field.push bit
    if field.isComplete then ⟨last, nextLiteral codes, .copy length (base + field.value), written⟩
    else ⟨last, .matchDistance codes length base field, pending, written⟩
  | m => m

/-- Read one byte of a stored block. -/
def feedByte (m : Machine) (byte : UInt8) : Machine :=
  match m with
  | ⟨last, .stored left, pending, written⟩ =>
    ⟨last, if left ≤ 1 then afterBlock last else .stored (left - 1), pending, written.push byte⟩
  | m => m

/-- Whether the next thing to read starts with a byte. -/
def isAligned (m : Machine) : Bool :=
  match m.reading with
  | .storedSize field => field.have_ == 0
  | .stored _ => true
  | _ => false

/-- Whether there is nothing more to read. -/
def isOver (m : Machine) : Bool :=
  match m.reading with
  | .done | .wrong => true
  | _ => false

def isDone (m : Machine) : Bool :=
  match m.reading with
  | .done => true
  | _ => false

def isWrong (m : Machine) : Bool :=
  match m.reading with
  | .wrong => true
  | _ => false

/-! ## Writing -/

/-- Add `count` bytes, each the one `distance` bytes back. What lies before the start of the
stream reads as zeros. -/
def copyBack (distance : Nat) : (count : Nat) → ByteArray → ByteArray
  | 0, out => out
  | count + 1, out =>
    let byte := if h : distance ≤ out.size ∧ 0 < distance then out[out.size - distance] else 0
    copyBack distance count (out.push byte)

/-- Write what is pending into at most `space` bytes; the answer is the space that is left. -/
def write (m : Machine) (space : Nat) : Machine × Nat :=
  match m with
  | ⟨last, reading, .nothing, written⟩ => (⟨last, reading, .nothing, written⟩, space)
  | ⟨last, reading, .byte value, written⟩ =>
    if space = 0 then (⟨last, reading, .byte value, written⟩, 0)
    else (⟨last, reading, .nothing, written.push value⟩, space - 1)
  | ⟨last, reading, .copy count distance, written⟩ =>
    let now := min count space
    (⟨last, reading, if now = count then .nothing else .copy (count - now) distance,
      copyBack distance now written⟩, space - now)

/-- Whether something is still waiting to be written. -/
def isBlocked (m : Machine) : Bool :=
  match m.pending with
  | .nothing => false
  | _ => true

end Machine

end Sluice.Deflate
