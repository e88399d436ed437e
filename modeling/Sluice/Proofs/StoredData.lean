import Sluice.Proofs.Delivery
import Sluice.Proofs.Pushing
import Sluice.Stored

/-!
# Stored data

The codec that changes nothing, in both of its roles.

* `Stored.made_eq_taken` — what it makes in a turn is what it has taken.
* `Stored.honours` — as a decoder, it owes the input ahead.
* `Stored.scope_returns` — as an encoder, it comes to its end as soon as its sink does.
-/

namespace Sluice.Stored

variable {s s' : Stored} {t : Turn}

/-- A turn takes and makes as much as there is room for. -/
theorem taken_eq (h : t.Leads s s') : t.taken = t.offered.take t.room := by
  have htaken : (Codec.step s t.offered t.room t.directive).taken = (t.offered.take t.room).length :=
    rfl
  rw [h.taken, htaken, List.length_take, List.take_eq_take_iff]
  omega

theorem made_eq_taken (h : t.Leads s s') : t.made = t.taken := by
  have houtput : (Codec.step s t.offered t.room t.directive).output = t.offered.take t.room := rfl
  rw [taken_eq h, h.made, houtput, List.take_take, Nat.min_self]

/-- A turn is complete if it has taken everything, and was to give everything. -/
theorem left_eq_zero (h : t.Leads s s') :
    t.left = 0 ↔ t.directive ≠ .proceed ∧ t.offered.drop t.room = [] := by
  have hresult := h.result
  have hstep : (Codec.step s t.offered t.room t.directive).result =
      .ok (if t.directive ≠ .proceed ∧ (t.offered.drop t.room).isEmpty then 0 else 1) := rfl
  rw [hstep] at hresult
  rw [← Except.ok.inj hresult, ← List.isEmpty_iff]
  split <;> simp_all

theorem rest_eq (h : t.Leads s s') : t.rest = t.offered.drop t.room := by
  have hsplit : t.taken ++ t.rest = t.offered.take t.room ++ t.offered.drop t.room :=
    (List.take_append_drop t.room t.offered).symm
  rw [taken_eq h] at hsplit
  exact List.append_cancel_left hsplit

/-- What is made of an input is that input. -/
theorem madeBy_eq {x y : List UInt8} {turns : List Turn} (h : Course s x turns s' y) :
    madeBy turns = takenBy turns := by
  induction h with
  | nil => rfl
  | cons split first others ih => rw [madeBy_cons, takenBy_cons, ih, made_eq_taken first]

/-! ## Decoding -/

/-- What is owed is the input ahead, as one piece. -/
def Owes (_ : Stored) (x : List UInt8) (contents : List (List UInt8)) : Prop := contents = [x]

open Reader (FeedTurn DrainTurn)

/-- Every turn pays out the front of the input. -/
theorem honours : Honours Owes where
  accepts {s offered later contents room} := by
    intro _ _ _
    exact ⟨_, rfl⟩
  advances {s s' t later contents} := by
    intro _ hturn h
    left
    rw [taken_eq h]
    obtain ⟨byte, others, hoffered⟩ := List.exists_cons_of_ne_nil hturn.offered
    obtain ⟨room, hroom⟩ := Nat.exists_eq_succ_of_ne_zero (Nat.ne_of_gt hturn.room_pos)
    rw [hoffered, hroom, List.take_succ_cons]
    exact List.cons_ne_nil _ _
  proceeds {s s' t later contents} := by
    rintro rfl hturn h
    have hleft : t.left ≠ 0 := fun hzero => ((left_eq_zero h).1 hzero).1 hturn.directive
    refine ⟨t.rest ++ later, [], ?_, fun hzero => absurd hzero hleft, fun _ => rfl⟩
    rw [made_eq_taken h, ← List.append_assoc]
    rfl
  settles {s contents room} := by
    intro _ _
    exact ⟨_, rfl⟩
  finishes {s s' t contents} := by
    rintro rfl hturn h
    have hmade : t.made = [] := by rw [made_eq_taken h, taken_eq h, hturn.offered, List.take_nil]
    have hleft : t.left = 0 := by
      refine (left_eq_zero h).2 ⟨by simp [hturn.directive], ?_⟩
      rw [hturn.offered, List.drop_nil]
    exact ⟨[], by simp [hmade], rfl, fun _ => rfl, fun hne => absurd hleft hne⟩

/-! ## Encoding -/

open Writer (Flow Done)

/-- A write comes to its end: every step takes some of the bytes, or is the last one. -/
theorem run_write_returns {window limit : Nat} (hwindow : 0 < window) (flow : Flow Stored)
    (hsink : flow.sink.Steady) (hlimit : flow.input.unread.length < limit) :
    ∃ flow', Flow.run window .proceed (fun _ input full => input.isConsumed && !full) limit flow =
      (.ok (), flow') ∧ flow'.sink.Steady := by
  -- on the limit: what is left of the bytes gets shorter with every step that is not the last
  induction limit generalizing flow with
  | zero => exact absurd hlimit (Nat.not_lt_zero _)
  | succ limit ih =>
    obtain ⟨sink, hwrite, hsink⟩ := hsink.writeAll_ok
      (drive flow.codec flow.input (.fresh window) .proceed).window.written.toList
    have hres : (drive flow.codec flow.input (.fresh window) .proceed).result = .ok 1 := rfl
    have hunread : (drive flow.codec flow.input (.fresh window) .proceed).input.unread =
        flow.input.unread.drop window := by
      rw [drive_unread flow.codec flow.input (.fresh window) .proceed 1,
        rest_eq (Turn.leads_ofStep hres), Turn.offered_ofStep, Turn.room_ofStep, Window.spare_fresh]
    rw [Flow.run]
    simp only [hres, hwrite]
    split
    · exact ⟨_, rfl, hsink⟩
    · next hdone =>
      refine ih _ hsink ?_
      rw [hunread, List.length_drop]
      by_cases hnil : flow.input.unread = []
      · -- without input nothing is made, and the run is over
        have hmade : (drive flow.codec flow.input (.fresh window) .proceed).window.isFull =
            false := by
          rw [drive_isFull flow.codec flow.input (.fresh window) .proceed 1,
            made_eq_taken (Turn.leads_ofStep hres), taken_eq (Turn.leads_ofStep hres),
            Turn.offered_ofStep, hnil, List.take_nil]
          simpa using Nat.ne_of_gt hwindow
        simp [Input.isConsumed, hunread, hnil, hmade] at hdone
      · have := List.length_pos_iff.2 hnil
        omega

/-- Stored data holds nothing back, so that a flush takes one step. -/
theorem run_flush_returns (window : Nat) {limit : Nat} {directive : Directive} (hne : directive ≠ .proceed)
    (flow : Flow Stored) (hsink : flow.sink.Steady) (hinput : flow.input.unread = [])
    (hlimit : 0 < limit) :
    ∃ flow', Flow.run window directive (fun left _ _ => left == 0) limit flow = (.ok (), flow') ∧
      flow'.sink.Steady := by
  obtain ⟨limit, rfl⟩ := Nat.exists_eq_succ_of_ne_zero (Nat.ne_of_gt hlimit)
  obtain ⟨sink, hwrite, hsink⟩ := hsink.writeAll_ok
    (drive flow.codec flow.input (.fresh window) directive).window.written.toList
  have hres : (drive flow.codec flow.input (.fresh window) directive).result = .ok 0 := by
    simp [drive, Codec.step, step, hinput, hne]
  rw [Flow.run]
  simp only [hres, hwrite, beq_self_eq_true, if_true]
  exact ⟨_, rfl, hsink⟩

/-- A compressing writer inside its scope, onto a steady sink. -/
structure Serving (w : Writer Stored) : Prop where
  phase : w.phase = .active
  direction : w.direction = .compressing
  window_pos : 0 < w.window
  codec : ∃ s, w.codec = .live s
  sink : ∃ sink, w.sink = some sink ∧ sink.Steady

variable {w : Writer Stored} {limit : Nat}

theorem write_returns (h : Serving w) {bytes : List UInt8} (hlimit : bytes.length < limit) :
    ∃ n w', w.write limit bytes = (.ok n, w') ∧ Serving w' := by
  obtain ⟨s, hcodec⟩ := h.codec
  obtain ⟨sink, hsink, hsteady⟩ := h.sink
  obtain ⟨flow', hrun, hsteady'⟩ := run_write_returns h.window_pos
    ⟨s, sink, .ofList bytes, 0⟩ hsteady hlimit
  have hlive : w.Live w.window s sink := ⟨h.phase, rfl, hcodec, hsink⟩
  rw [hlive.write_eq, hrun]
  exact ⟨_, _, rfl, h.phase, h.direction, h.window_pos, ⟨_, rfl⟩, _, rfl, hsteady'⟩

theorem finishStep_returns (h : Serving w) (mode : FlushMode) (hlimit : 0 < limit) :
    ∃ n w', w.finishStep limit mode.directive = (.ok n, w') ∧ Serving w' := by
  obtain ⟨s, hcodec⟩ := h.codec
  obtain ⟨sink, hsink, hsteady⟩ := h.sink
  have hne : mode.directive ≠ .proceed := by cases mode <;> simp [FlushMode.directive]
  obtain ⟨flow', hrun, hsteady'⟩ := run_flush_returns w.window hne
    ⟨s, sink, .ofList [], 0⟩ hsteady rfl hlimit
  obtain ⟨sink', hflush, hsteady''⟩ := hsteady'.flush_ok
  simp only [Writer.finishStep, Writer.pump, hsink, hcodec, hrun, Except.map, Writer.fail,
    Writer.flushSink, hflush]
  exact ⟨_, _, rfl, h.phase, h.direction, h.window_pos, ⟨_, rfl⟩, _, rfl, hsteady''⟩

theorem push_returns (h : Serving w) {op : WriterOp} (hlimit : op.input.length < limit) :
    ∃ n w', w.push limit op = (.ok n, w') ∧ Serving w' := by
  cases op with
  | write bytes => exact write_returns h hlimit
  | flush mode =>
    rw [Writer.push, Writer.flush, h.phase, h.direction]
    exact finishStep_returns h mode hlimit

theorem pushAll_returns (h : Serving w) {ops : List WriterOp}
    (hlimit : (pushedBy ops).length < limit) :
    ∃ w', w.pushAll limit ops = (.ok (), w') ∧ Serving w' := by
  induction ops generalizing w with
  | nil => exact ⟨w, rfl, h⟩
  | cons op ops ih =>
    rw [pushedBy_cons, List.length_append] at hlimit
    have hop : op.input.length < limit := by omega
    have hops : (pushedBy ops).length < limit := by omega
    obtain ⟨n, w₁, hpush, h₁⟩ := push_returns h hop
    obtain ⟨w', hall, h'⟩ := ih h₁ hops
    exact ⟨w', by rw [Writer.pushAll, hpush]; exact hall, h'⟩

/-- Over a steady sink, a scope of a writer of stored data can always be left normally. -/
theorem scope_returns {sink : Sink} (hsink : sink.Steady) {settings : WriterSettings}
    (hsize : 0 < settings.writeSize) {ops : List WriterOp}
    (hlimit : (pushedBy ops).length < limit) :
    ∃ w w', Writer.new .compressing stored sink settings = .ok w ∧
      w.scope limit (fun w => w.pushAll limit ops) = (.ok (), w') := by
  let entered : Writer Stored :=
    ⟨.active, .compressing, some sink, .live stored, settings.writeSize, settings, 0⟩
  have hserving : Serving entered := ⟨rfl, rfl, hsize, ⟨_, rfl⟩, sink, rfl, hsink⟩
  obtain ⟨w₁, hpush, h₁⟩ := pushAll_returns hserving hlimit
  obtain ⟨n, w₂, hfinish, h₂⟩ := finishStep_returns h₁ .frame (Nat.zero_lt_of_lt hlimit)
  have hexit : w₁.exit limit true = (.ok (), w₂.release) := by
    rw [Writer.exit, h₁.phase, Writer.settle, h₁.direction]
    simp only [Phase.require, if_true]
    rw [show Directive.finish = FlushMode.frame.directive from rfl, hfinish]
  refine ⟨{ entered with phase := .notEntered }, w₂.release, Writer.new_eq hsize, ?_⟩
  have henter : Writer.enter { entered with phase := .notEntered } = (.ok (), entered) := rfl
  rw [Writer.scope, henter]
  simp only [hpush, hexit]

end Sluice.Stored
