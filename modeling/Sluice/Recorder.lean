import Sluice.Codec

/-!
# Recording what a codec is asked for

A recorder drives another codec and writes down every call, so that the calls of a reader or a
writer can be looked at afterwards. It stops a codec that would never come to an end, and can
refuse every pledge.
-/

namespace Sluice

/-- One call. -/
inductive Event where
  /-- a step: what was asked for, the unread bytes and the room, the bytes taken and made, and the
  number returned, if the step did not fail -/
  | step (directive : Directive) (unread room taken made : Nat) (left : Option Nat)
  | pledge (size : Option Nat)
  | reset
  deriving DecidableEq, Repr

/-- A codec, the failure of every pledge, the number of steps it may still take, and its calls. -/
structure Recorder (σ : Type) where
  codec : σ
  refusal : Option Failure
  stepsLeft : Nat
  log : Array Event

namespace Recorder

variable {σ : Type}

/-- The number of steps that a recorded codec may take. -/
def stepLimit : Nat := 500

/-- Nothing recorded yet. -/
def new (codec : σ) (refusal : Option Failure) : Recorder σ := ⟨codec, refusal, stepLimit, #[]⟩

/-- Write a call down. -/
def record (r : Recorder σ) (event : Event) : Recorder σ := { r with log := r.log.push event }

variable [Codec σ]

/-- A step that is not written down yet. -/
def stepCodec (r : Recorder σ) (unread : List UInt8) (room : Nat) (directive : Directive) :
    Step σ :=
  if r.stepsLeft = 0 then
    ⟨0, [], r.codec, .error (.codec (Codec.name r.codec ++ ": step limit"))⟩
  else Codec.step r.codec unread room directive

/-- One step, written down. -/
def step (r : Recorder σ) (unread : List UInt8) (room : Nat) (directive : Directive) :
    Step (Recorder σ) :=
  let s := r.stepCodec unread room directive
  s.map fun codec =>
    { r with codec, stepsLeft := r.stepsLeft - 1 }.record
      (.step directive unread.length room s.taken s.output.length s.result.toOption)

/-- A pledge, written down. -/
def pledge (r : Recorder σ) (size : Option Nat) : Except Failure Unit × Recorder σ :=
  let r := r.record (.pledge size)
  match r.refusal with
  | some failure => (.error failure, r)
  | none => (Codec.pledge r.codec size).map id fun codec => { r with codec }

instance : Codec (Recorder σ) where
  name r := Codec.name r.codec
  step := step
  reset r := { r with codec := Codec.reset r.codec }.record .reset
  pledge := pledge

end Recorder

end Sluice
