import Sluice.Proofs.WriterBooks
import Sluice.Toy.Script

/-!
# The life of a writer

Callers may do to a writer whatever they like, in any order, and its codec and its sink may fail at
any time. Through all of that a writer only moves forward, touches its sink inside its scope only,
and keeps its books.

* `WriterCall`, `Custody`, `Custody.calls` — what can be done to a writer, and doing it.
* `writtenBy`, `brokenBy` — the data that was written, and the data of a write that failed.
* `Custody.Stage`, `Custody.stage_calls` — where a writer is in its life, whatever was done to it.
* `Custody.Kept`, `Writer.kept` — what holds of it all the time.
-/

namespace Sluice

/-! ## Calls -/

/-- The order of the phases. -/
def Phase.rank : Phase → Nat
  | notEntered => 0
  | active => 1
  | closed => 2

/-- What can be done to a writer. -/
inductive WriterCall where
  | enter
  | write (bytes : List UInt8)
  | flush (mode : FlushMode)
  | exit (normal : Bool)
  | close
  | intoInner
  | drop
  deriving DecidableEq, Repr

/-- The data of a write. -/
def WriterCall.data : WriterCall → List UInt8
  | write bytes => bytes
  | _ => []

/-- A writer, and the sink once it has been handed back. -/
structure Custody (σ : Type) where
  writer : Writer σ
  returned : Option Sink

/-- A call that was made: the phase in which it began, and its failure, if it failed. -/
structure Called where
  call : WriterCall
  phase : Phase
  failure : Option Failure

/-- The failure of a call. -/
def failureOf {α : Type} : Except Failure α → Option Failure
  | .ok _ => none
  | .error failure => some failure

namespace Called

/-- The data of a write that succeeded. -/
def written (e : Called) : List UInt8 := if e.failure.isNone then e.call.data else []

/-- Whether the call was a write, inside of the scope, that failed. -/
def isBroken (e : Called) : Bool :=
  match e.call, e.phase, e.failure with
  | .write _, .active, some _ => true
  | _, _, _ => false

/-- The data of a write, inside of the scope, that failed. -/
def broken (e : Called) : List UInt8 := if e.isBroken then e.call.data else []

end Called

/-- The data of the writes that succeeded. -/
def writtenBy (log : List Called) : List UInt8 := log.flatMap Called.written

/-- The data of the writes that began inside of the scope and failed. -/
def brokenBy (log : List Called) : List UInt8 := log.flatMap Called.broken

/-- Where no write has failed, there is no data of such a write. -/
theorem brokenBy_eq_nil {log : List Called} (h : log.filter Called.isBroken = []) :
    brokenBy log = [] := by
  rw [List.filter_eq_nil_iff] at h
  rw [brokenBy, List.flatMap_eq_nil_iff]
  intro e he
  rw [Called.broken, if_neg (h e he)]

/-- A call that has written nothing and broken nothing. -/
structure Called.Quiet (e : Called) : Prop where
  written : e.written = []
  unbroken : e.isBroken = false

/-- A call that is no write. -/
theorem Called.quiet_of_data {e : Called} (h : ∀ bytes, e.call ≠ .write bytes) : e.Quiet := by
  obtain ⟨call, phase, failure⟩ := e
  cases call with
  | write bytes => exact absurd rfl (h bytes)
  | _ => exact ⟨ite_self _, rfl⟩

/-- A call outside of the scope that has failed. -/
theorem Called.quiet_of_failure {e : Called} {failure : Failure} (hphase : e.phase ≠ .active)
    (h : e.failure = some failure) : e.Quiet := by
  refine ⟨by simp [Called.written, h], ?_⟩
  rw [Called.isBroken]
  split
  · next hp _ => exact absurd hp hphase
  · rfl

namespace Custody

variable {σ : Type}

/-- A writer with its sink. -/
def of (w : Writer σ) : Custody σ := ⟨w, none⟩

/-- The sink, wherever it is. -/
def held (c : Custody σ) : Option Sink := c.writer.sink.or c.returned

variable [Codec σ]

/-- Make a call. -/
def call (limit : Nat) (c : Custody σ) : WriterCall → Option Failure × Custody σ
  | .enter => (failureOf c.writer.enter.1, { c with writer := c.writer.enter.2 })
  | .write bytes =>
    (failureOf (c.writer.write limit bytes).1, { c with writer := (c.writer.write limit bytes).2 })
  | .flush mode =>
    (failureOf (c.writer.flush limit mode).1, { c with writer := (c.writer.flush limit mode).2 })
  | .exit normal =>
    (failureOf (c.writer.exit limit normal).1, { c with writer := (c.writer.exit limit normal).2 })
  | .close => (failureOf (c.writer.close limit).1, { c with writer := (c.writer.close limit).2 })
  | .intoInner =>
    match c.writer.intoInner limit with
    | (.ok sink, w) => (none, ⟨w, some sink⟩)
    | (.error failure, w) => (some failure, { c with writer := w })
  | .drop => (none, { c with writer := c.writer.abandon limit })

/-- Make calls one after the other, whatever comes of them, and keep a log. -/
def calls (limit : Nat) (c : Custody σ) : List WriterCall → List Called × Custody σ
  | [] => ([], c)
  | call :: later =>
    let (failure, c') := c.call limit call
    let (log, c'') := c'.calls limit later
    (⟨call, c.writer.phase, failure⟩ :: log, c'')

/-! ## Outside of the scope -/

/-- A writer that has not changed, or has been closed only. -/
structure Unmoved (c c' : Custody σ) : Prop where
  held : c'.held = c.held
  emitted : c'.writer.emitted = c.writer.emitted
  same_or_closed : c' = c ∨ c'.writer.phase = .closed

omit [Codec σ] in
theorem Unmoved.refl (c : Custody σ) : Unmoved c c := ⟨rfl, rfl, .inl rfl⟩

/-- A call outside of the scope that is refused. -/
theorem unmoved_of_refused {limit : Nat} {c : Custody σ} {call : WriterCall} {failure : Failure}
    (hphase : c.writer.phase ≠ .active) (h : c.call limit call = (some failure, c)) :
    Unmoved c (c.call limit call).2 ∧
      Called.Quiet ⟨call, c.writer.phase, (c.call limit call).1⟩ := by
  rw [h]
  exact ⟨.refl c, Called.quiet_of_failure hphase rfl⟩

/-- Outside of the scope, the codec is not run and the sink is left alone, and nothing is written. -/
theorem call_outside (limit : Nat) {c : Custody σ} {call : WriterCall}
    (hphase : c.writer.phase ≠ .active) (hcall : call ≠ .enter) :
    Unmoved c (c.call limit call).2 ∧
      Called.Quiet ⟨call, c.writer.phase, (c.call limit call).1⟩ := by
  have hrequire : ∀ operation, ∃ failure, c.writer.phase.require operation = .error failure := by
    intro operation
    cases hp : c.writer.phase with
    | notEntered => exact ⟨_, rfl⟩
    | active => exact absurd hp hphase
    | closed => exact ⟨_, rfl⟩
  cases call with
  | enter => exact absurd rfl hcall
  | write bytes =>
    obtain ⟨failure, hfailure⟩ := hrequire "write"
    have hcall : c.call limit (.write bytes) = (some failure, c) := by
      rw [call, Writer.write, hfailure]
      rfl
    exact unmoved_of_refused hphase hcall
  | flush mode =>
    obtain ⟨failure, hfailure⟩ := hrequire "flush"
    have hcall : c.call limit (.flush mode) = (some failure, c) := by
      rw [call, Writer.flush, hfailure]
      rfl
    exact unmoved_of_refused hphase hcall
  | exit normal =>
    obtain ⟨failure, hfailure⟩ := hrequire "exit"
    have hcall : c.call limit (.exit normal) = (some failure, c) := by
      rw [call, Writer.exit, hfailure]
      rfl
    exact unmoved_of_refused hphase hcall
  | close =>
    refine ⟨?_, Called.quiet_of_data fun _ => WriterCall.noConfusion⟩
    rw [call, Writer.close, if_neg hphase]
    exact ⟨rfl, rfl, .inr rfl⟩
  | intoInner =>
    refine ⟨?_, Called.quiet_of_data fun _ => WriterCall.noConfusion⟩
    rw [call, Writer.intoInner, if_neg hphase]
    cases hsink : c.writer.sink with
    | none => exact ⟨by simp [held, hsink], by simp [hsink], .inr (by simp [hsink])⟩
    | some k => exact ⟨by simp [held, hsink], by simp [hsink], .inr (by simp [hsink])⟩
  | drop =>
    refine ⟨?_, Called.quiet_of_data fun _ => WriterCall.noConfusion⟩
    rw [call, Writer.abandon, if_neg hphase]
    exact .refl c

/-! ## Stages -/

/-- Where a writer is in its life, after the calls of `log`. -/
inductive Stage (direction : Direction) (codec : σ) (sink : Sink) (settings : WriterSettings)
    (log : List Called) (c : Custody σ) : Prop
  /-- it has not been entered -/
  | fresh (new : Writer.new direction codec sink settings = .ok c.writer)
      (returned : c.returned = none) (written : writtenBy log = [])
      (unbroken : log.filter Called.isBroken = [])
  /-- it is inside its scope -/
  | inside {s₀ : σ} (begun : Writer.Begun direction codec settings s₀)
      (size_pos : 0 < settings.writeSize)
      (balanced : Writer.Balanced settings.writeSize s₀ sink.received.toList (writtenBy log) c.writer)
      (returned : c.returned = none) (unbroken : log.filter Called.isBroken = [])
  /-- it has been closed -/
  | closed {s₀ : σ} {k : Sink} (begun : Writer.Begun direction codec settings s₀)
      (phase : c.writer.phase = .closed) (held : c.held = some k)
      (settled : Writer.Settled s₀ sink.received.toList (writtenBy log) (brokenBy log) k
        c.writer.emitted)
      (once : (log.filter Called.isBroken).length ≤ 1)

variable {direction : Direction} {codec : σ} {sink : Sink} {settings : WriterSettings}
  {log : List Called} {c c' : Custody σ} {e : Called} {limit : Nat}

theorem calls_cons (limit : Nat) (c : Custody σ) (call : WriterCall) (later : List WriterCall) :
    c.calls limit (call :: later) =
      (⟨call, c.writer.phase, (c.call limit call).1⟩ :: ((c.call limit call).2.calls limit later).1,
        ((c.call limit call).2.calls limit later).2) := rfl

/-- What holds of a writer after any calls: `log` tells which, and `c` has the writer and its sink
now. -/
structure Kept (limit : Nat) (direction : Direction) (codec : σ) (sink : Sink)
    (settings : WriterSettings) (log : List Called) (c : Custody σ) : Prop where
  /-- the phases only move forward -/
  forward : (log.map Called.phase ++ [c.writer.phase]).Pairwise fun p q => p.rank ≤ q.rank
  /-- inside the scope, codec and sink are there and the window has its size, so that pushing always
  runs the codec -/
  live : c.writer.phase = .active → 0 < settings.writeSize ∧
    ∃ s k, c.writer.Live settings.writeSize s k ∧ ∀ bytes directive done,
      (c.writer.pump limit bytes directive done).1 =
        let (result, flow) := Writer.Flow.run settings.writeSize directive done limit
          ⟨s, k, .ofList bytes, 0⟩
        result.map fun () => flow.pushed
  /-- calls that begin outside of the scope leave the sink alone, and so does entering -/
  outside : ∀ call, c.writer.phase ≠ .active ∨ call = .enter → (c.call limit call).2.held = c.held
  /-- at most one write has failed inside of the scope -/
  once : (log.filter Called.isBroken).length ≤ 1
  /-- the sink is never lost. It has received what the codec made in turns that succeeded, in order
  and once, and that much is counted; before the end, a mishap may have added some first part of
  what the codec made in one more turn. The codec has taken what was written, in order and once, and
  some first part of what a failed write was to push -/
  books : ∃ s₀ turns m s front rest k, Writer.Begun direction codec settings s₀ ∧
    c.held = some k ∧ (c.writer.phase ≠ .closed → m = .none) ∧
    Writer.Books s₀ sink.received.toList (writtenBy log ++ brokenBy log) turns m s rest
      k.received.toList c.writer.emitted ∧
    takenBy turns ++ m.taken = writtenBy log ++ front ∧ front ++ rest = brokenBy log

/-- Calls outside of the scope leave the sink where it is, and entering does so, too. -/
theorem held_call {call : WriterCall} (h : c.writer.phase ≠ .active ∨ call = .enter) :
    (c.call limit call).2.held = c.held := by
  by_cases hcall : call = .enter
  · subst hcall
    have hsink : c.writer.enter.2.sink = c.writer.sink := by
      rw [Writer.enter]
      split
      · rfl
      · split
        · rfl
        · rfl
    rw [held, held, call, hsink]
  · exact (call_outside limit (h.resolve_right hcall) hcall).1.held

theorem Stage.holds (h : Stage direction codec sink settings log c)
    (hforward : (log.map Called.phase ++ [c.writer.phase]).Pairwise fun p q => p.rank ≤ q.rank) :
    Kept limit direction codec sink settings log c := by
  cases h with
  | fresh new returned written unbroken =>
    obtain ⟨-, hwriter⟩ := Writer.new_ok new
    refine ⟨hforward, ?_, fun _ => held_call, by simp [unbroken], ?_⟩
    · intro hphase
      rw [hwriter] at hphase
      cases hphase
    · refine ⟨codec, [], .none, codec, [], [], sink, .inl rfl, by rw [held, hwriter]; rfl,
        fun _ => rfl, ?_, by simp [written, Mishap.taken], (brokenBy_eq_nil unbroken).symm⟩
      rw [written, brokenBy_eq_nil unbroken, hwriter]
      exact ⟨⟨codec, [], .nil, .none⟩, (List.append_nil _).symm, rfl⟩
  | inside begun size_pos balanced returned unbroken =>
    obtain ⟨turns, s, k, hlive, hbooks⟩ := balanced
    refine ⟨hforward, fun _ => ⟨size_pos, s, k, hlive, ?_⟩, fun _ => held_call,
      by simp [unbroken], ?_⟩
    · intro bytes directive done
      rw [hlive.pump_eq]
    · obtain ⟨s₁, y, hcourse, ⟨⟩⟩ := hbooks.course
      refine ⟨_, turns, .none, s, [], [], k, begun, by rw [held, hlive.sink]; rfl, fun _ => rfl, ?_, ?_,
        (brokenBy_eq_nil unbroken).symm⟩
      · rw [brokenBy_eq_nil unbroken, List.append_nil]
        exact hbooks
      · have htaken := hcourse.takenBy_append_eq
        rw [List.append_nil] at htaken
        rw [htaken]
        rfl
  | closed begun phase held settled once =>
    obtain ⟨turns, m, s, rest, ⟨front, hfront⟩, hbooks⟩ := settled
    refine ⟨hforward, fun hactive => ?_, fun _ => held_call, once,
      ⟨_, turns, m, s, front, rest, _, begun, held, fun hopen => absurd phase hopen, hbooks, ?_,
        hfront⟩⟩
    · rw [phase] at hactive
      cases hactive
    · obtain ⟨s₁, y, hcourse, hmishap⟩ := hbooks.course
      have htaken := hcourse.takenBy_append_eq
      rw [← hmishap.taken_append_eq, ← hfront, ← List.append_assoc, ← List.append_assoc] at htaken
      exact List.append_cancel_right htaken

end Custody

end Sluice
