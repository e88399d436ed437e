import Sluice.Cursor
import Sluice.Error

/-!
# Codecs

A codec turns bytes into bytes, step by step. It never waits and never allocates output: every
step gets some unread input and some room, takes as much of the one and fills as much of the
other as it likes, and says whether the caller's wish has been met.

* `Codec` — the interface: one instance per type of codec state.
* `drive` — one step between an input and a window. Whatever a codec says, it moves neither
  cursor past its end (`drive_unread_le`, `drive_spare_le`).
-/

namespace Sluice

/-- What the caller wants done with what the codec holds back. -/
inductive Directive where
  /-- take input, give what is ready -/
  | proceed
  /-- give all that is held back; more input may follow in the same frame -/
  | flush
  /-- give all that is held back and end the frame -/
  | finish
  deriving DecidableEq, Repr

/-- The outcome of one step: how many input bytes were taken, the bytes made, the state
afterwards, and either a failure or a number. The number is 0 when the directive has been carried
out completely (for a decoder: when a frame has ended) and positive when another step is needed.

What a failing step took and made counts too. -/
structure Step (σ : Type) where
  taken : Nat
  output : List UInt8
  state : σ
  result : Except Failure Nat

/-- The same step of a codec that holds the state in another way. -/
def Step.map {σ τ : Type} (wrap : σ → τ) (s : Step σ) : Step τ :=
  ⟨s.taken, s.output, wrap s.state, s.result⟩

/-- An incremental transform with states of type `σ`. -/
class Codec (σ : Type) where
  /-- a short name for diagnostics -/
  name : σ → String
  /-- one step over the unread input, with room for that many output bytes -/
  step : σ → List UInt8 → Nat → Directive → Step σ
  /-- forget a frame that has been begun. This cannot fail: the libraries of the formats document that
  the reset of a session never does, and stored data has nothing to forget -/
  reset : σ → σ
  /-- learn the total input size of the next frame, if the caller knows it -/
  pledge : σ → Option Nat → Except Failure Unit × σ

/-- Either of two codecs. -/
instance {σ τ : Type} [Codec σ] [Codec τ] : Codec (σ ⊕ τ) where
  name
    | .inl c => Codec.name c
    | .inr c => Codec.name c
  step codec unread room directive :=
    match codec with
    | .inl c => (Codec.step c unread room directive).map .inl
    | .inr c => (Codec.step c unread room directive).map .inr
  reset
    | .inl c => .inl (Codec.reset c)
    | .inr c => .inr (Codec.reset c)
  pledge codec size :=
    match codec with
    | .inl c => (Codec.pledge c size).map id .inl
    | .inr c => (Codec.pledge c size).map id .inr

/-- A codec after a step, with both cursors where the step left them. -/
structure Driven (σ : Type) where
  codec : σ
  input : Input
  window : Window
  result : Except Failure Nat

section Drive

variable {σ : Type} [Codec σ]

/-- One step of `codec` from `input` into `window`. -/
def drive (codec : σ) (input : Input) (window : Window) (directive : Directive) : Driven σ :=
  let step := Codec.step codec input.unread window.spare directive
  ⟨step.state, input.advance step.taken, window.put step.output, step.result⟩

theorem drive_input (codec : σ) (input : Input) (window : Window) (directive : Directive) :
    (drive codec input window directive).input =
      input.advance (Codec.step codec input.unread window.spare directive).taken := rfl

theorem drive_window (codec : σ) (input : Input) (window : Window) (directive : Directive) :
    (drive codec input window directive).window =
      window.put (Codec.step codec input.unread window.spare directive).output := rfl

/-- A step never adds to what is unread. -/
theorem drive_unread_le (codec : σ) (input : Input) (window : Window) (directive : Directive) :
    (drive codec input window directive).input.unread.length ≤ input.unread.length :=
  input.unread_advance_le _

/-- A step never adds room. -/
theorem drive_spare_le (codec : σ) (input : Input) (window : Window) (directive : Directive) :
    (drive codec input window directive).window.spare ≤ window.spare :=
  window.spare_put_le _

/-- A step that moved a cursor leaves less to do. -/
theorem drive_progress {codec : σ} {input : Input} {window : Window} {directive : Directive}
    (h : input.pos < (drive codec input window directive).input.pos ∨
      window.pos < (drive codec input window directive).window.pos) :
    (drive codec input window directive).input.unread.length +
      (drive codec input window directive).window.spare <
        input.unread.length + window.spare := by
  have hi := drive_unread_le codec input window directive
  have hw := drive_spare_le codec input window directive
  rcases h with h | h
  · have := Input.unread_lt_of_pos_lt (drive_input codec input window directive ▸ h)
    rw [← drive_input] at this
    omega
  · have := Window.spare_lt_of_pos_lt (drive_window codec input window directive ▸ h)
    rw [← drive_window] at this
    omega

end Drive

end Sluice
