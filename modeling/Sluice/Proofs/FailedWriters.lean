import Sluice.Proofs.WriterLife

/-!
# Writers that have failed

If the codec fails in a step, or the sink while it is offered what the codec has made, then the
frame that has been begun cannot be mended. Nothing may be put behind the damage, neither by another
call nor by one of the ways out of the scope, all of which would end the frame.

* `Writer.Over` — a writer of which nothing is left but its sink; `Writer.Over.calls` says what it
  answers.
* `Writer.Unflushed` — the one failure inside of a scope that does not end it.
* `Writer.Live.call_error` — what becomes of a writer when a call fails.
* `Writer.Handled` — what a body can do to a writer; `Writer.Handled.entered` says that it leads on.
* `Writer.Left`, `Writer.scope_of_failed_body` — a scope that is left because its body has failed.
* `Writer.fails_for_good` — both together.
-/

namespace Sluice

variable {σ : Type}

/-- What a closed writer that still has its sink answers. -/
def WriterCall.refusal : WriterCall → Option Failure
  | enter | write _ | flush _ | exit _ => some (.misuse .closed)
  | close | intoInner | drop => none

namespace Writer

variable {w w' : Writer σ} {window limit : Nat} {s : σ} {k : Sink} {failure : Failure}

/-! ## Writers that are over -/

/-- A writer that is over: its codec is out of reach, and its sink is still there. -/
structure Over (s : σ) (k : Sink) (w : Writer σ) : Prop where
  phase : w.phase = .closed
  codec : w.codec = .retired s
  sink : w.sink = some k

/-- A writer inside its scope can be closed at any time. -/
theorem Live.release (h : w.Live window s k) : w.release.Over s k :=
  ⟨rfl, congrArg Slot.retire h.codec, h.sink⟩

theorem Over.release (h : w.Over s k) : w.release.Over s k :=
  ⟨rfl, congrArg Slot.retire h.codec, h.sink⟩

variable [Codec σ]

/-- A writer that is over does nothing any more. -/
theorem Over.call {c : Custody σ} (h : c.writer.Over s k) (limit : Nat) {call : WriterCall}
    (hcall : call ≠ .intoInner) : c.call limit call = (call.refusal, c) := by
  cases call with
  | enter =>
    rw [Custody.call, Writer.enter, h.phase]
    rfl
  | write bytes =>
    rw [Custody.call, Writer.write, h.phase]
    rfl
  | flush mode =>
    rw [Custody.call, Writer.flush, h.phase]
    rfl
  | exit normal =>
    rw [Custody.call, Writer.exit, h.phase]
    rfl
  | close =>
    have hsame : { c.writer with phase := .closed, codec := c.writer.codec.retire } = c.writer := by
      rw [h.codec, Slot.retire, Slot.codec, ← h.codec, ← h.phase]
    rw [Custody.call, Writer.close, h.phase, if_neg Phase.noConfusion, hsame]
    rfl
  | intoInner => exact absurd rfl hcall
  | drop =>
    rw [Custody.call, Writer.abandon, h.phase, if_neg Phase.noConfusion]
    rfl

/-- It does nothing, however often it is called. -/
theorem Over.calls {c : Custody σ} (h : c.writer.Over s k) (limit : Nat) {calls : List WriterCall}
    (hcalls : .intoInner ∉ calls) :
    c.calls limit calls = (calls.map fun call => ⟨call, .closed, call.refusal⟩, c) := by
  induction calls with
  | nil => rfl
  | cons call later ih =>
    rw [List.mem_cons, not_or] at hcalls
    rw [Custody.calls_cons, h.call limit (Ne.symm hcalls.1), ih hcalls.2, h.phase]
    rfl

/-- Its sink is handed back as it is. -/
theorem Over.intoInner (h : w.Over s k) (limit : Nat) :
    w.intoInner limit = (.ok k, { w with sink := none }) := by
  have hretire : w.codec.retire = w.codec := by
    rw [h.codec]
    rfl
  rw [Writer.intoInner, h.phase, if_neg Phase.noConfusion]
  simp only [h.sink, hretire, ← h.phase]

/-! ## Failures inside of a scope -/

/-- The sink has failed to flush, and nothing else has gone wrong. The codec of a compressing writer
has given everything that it held back, and the sink has accepted it; the writer is still inside its
scope. -/
inductive Unflushed (w : Writer σ) (window : Nat) (s : σ) (k : Sink) (mode : FlushMode) :
    Failure → Writer σ → Prop where
  | intro {turns : List Turn} {s' : σ} {k₁ : Sink} {error : IoError} {w' : Writer σ}
      (pushed : w.direction = .compressing ∧ Effort (.flush mode) s turns s' ∨
        w.direction = .decompressing ∧ turns = [] ∧ s' = s)
      (received : k₁.received.toList = k.received.toList ++ madeBy turns)
      (refused : k₁.flush.1 = .error error) (live : w'.Live window s' k₁.flush.2) :
      Unflushed w window s k mode (.ofIo error) w'

/-- Steps keep a writer inside its scope, whether they fail or not. -/
theorem Live.pump (h : w.Live window s k) (limit : Nat) (bytes : List UInt8) (directive : Directive)
    (done : Done) : ∃ s' k', (w.pump limit bytes directive done).2.Live window s' k' := by
  rw [h.pump_eq]
  exact ⟨_, _, h.phase, h.window, rfl, rfl⟩

/-- Steps that give everything that the codec holds back. -/
theorem Live.pump_flush {mode : FlushMode} {n : Nat} (h : w.Live window s k)
    (hpump : w.pump limit [] mode.directive (fun left _ _ => left == 0) = (.ok n, w')) :
    ∃ turns s' k', Effort (.flush mode) s turns s' ∧ w'.Live window s' k' ∧
      k'.received.toList = k.received.toList ++ madeBy turns := by
  rw [h.pump_eq] at hpump
  rcases hrun : Flow.run window mode.directive (fun left _ _ => left == 0) limit
    ⟨s, k, .ofList [], 0⟩ with ⟨failure | ⟨⟩, flow⟩
  · simp [hrun, Except.map] at hpump
  simp only [hrun, Except.map, Prod.mk.injEq] at hpump
  obtain ⟨-, rfl⟩ := hpump
  obtain ⟨before, last, hran⟩ := Flow.run_ok hrun
  exact ⟨before ++ [last], flow.codec, flow.sink, hran.effort (Input.unread_ofList []),
    ⟨h.phase, h.window, rfl, rfl⟩, hran.received⟩

omit [Codec σ] in
theorem flushSink_error (h : w.sink = some k) (hflush : w.flushSink = (.error failure, w')) :
    ∃ error, k.flush.1 = .error error ∧ failure = .ofIo error := by
  rw [Writer.flushSink, h] at hflush
  rcases hk : k.flush with ⟨error | ⟨⟩, k'⟩
  · simp only [hk, Prod.mk.injEq, Except.error.injEq] at hflush
    exact ⟨error, rfl, hflush.1.symm⟩
  · simp [hk] at hflush

omit [Codec σ] in
theorem Live.flushSink (h : w.Live window s k) : w.flushSink.2.Live window s k.flush.2 := by
  rw [flushSink_state h.sink]
  exact ⟨h.phase, h.window, h.codec, rfl⟩

/-- A write that fails. -/
theorem Live.write_error {bytes : List UInt8} (h : w.Live window s k)
    (hwrite : w.write limit bytes = (.error failure, w')) : ∃ s' k', w'.Over s' k' := by
  rw [h.write_eq] at hwrite
  split at hwrite
  · cases hwrite
  · cases hwrite
    exact ⟨_, _, rfl, rfl, rfl⟩

/-- Steps without input, and the flush of the sink behind them. -/
theorem Live.finishStep (h : w.Live window s k) (limit : Nat) (directive : Directive) :
    ∃ s' k', (w.finishStep limit directive).2.Live window s' k' ∨
      (w.finishStep limit directive).2.Over s' k' := by
  obtain ⟨s', k', hlive⟩ := h.pump limit [] directive fun left _ _ => left == 0
  rw [Writer.finishStep]
  rcases hpump : w.pump limit [] directive fun left _ _ => left == 0 with ⟨failure | n, w₁⟩
  · rw [hpump] at hlive
    exact ⟨s', k', .inr hlive.release⟩
  · rw [hpump] at hlive
    have hflushed := hlive.flushSink
    simp only [fail]
    rcases hflush : w₁.flushSink with ⟨failure | ⟨⟩, w₂⟩
    · rw [hflush] at hflushed
      exact ⟨s', _, .inl hflushed⟩
    · rw [hflush] at hflushed
      exact ⟨s', _, .inl hflushed⟩

/-- If they fail, and not for the sake of the sink's own flush, then the writer is over. -/
theorem Live.finishStep_error {mode : FlushMode} (h : w.Live window s k)
    (hdirection : w.direction = .compressing)
    (hstep : w.finishStep limit mode.directive = (.error failure, w')) :
    (∃ s' k', w'.Over s' k') ∨ w.Unflushed window s k mode failure w' := by
  rw [Writer.finishStep] at hstep
  rcases hpump : w.pump limit [] mode.directive fun left _ _ => left == 0 with ⟨failure₁ | n, w₁⟩
  · obtain ⟨s', k', hlive⟩ := h.pump limit [] mode.directive fun left _ _ => left == 0
    simp only [hpump, fail, Prod.mk.injEq] at hstep hlive
    exact .inl ⟨s', k', hstep.2 ▸ hlive.release⟩
  · obtain ⟨turns, s', k₁, heffort, hlive, hreceived⟩ := h.pump_flush hpump
    have hflushed := hlive.flushSink
    simp only [hpump, fail] at hstep
    rcases hflush : w₁.flushSink with ⟨failure₂ | ⟨⟩, w₂⟩
    · obtain ⟨error, hrefused, rfl⟩ := flushSink_error hlive.sink hflush
      simp only [hflush, Prod.mk.injEq, Except.error.injEq] at hstep
      obtain ⟨rfl, rfl⟩ := hstep
      rw [hflush] at hflushed
      exact .inr (.intro (.inl ⟨hdirection, heffort⟩) hreceived hrefused hflushed)
    · simp [hflush] at hstep

/-- A flush that fails. -/
theorem Live.flush_error {mode : FlushMode} (h : w.Live window s k)
    (hflush : w.flush limit mode = (.error failure, w')) :
    (∃ s' k', w'.Over s' k') ∨ w.Unflushed window s k mode failure w' := by
  rw [Writer.flush, h.phase] at hflush
  cases hdirection : w.direction with
  | compressing =>
    simp only [Phase.require, hdirection] at hflush
    exact h.finishStep_error hdirection hflush
  | decompressing =>
    simp only [Phase.require, hdirection] at hflush
    have hflushed := h.flushSink
    rcases hsink : w.flushSink with ⟨failure₁ | ⟨⟩, w₁⟩
    · obtain ⟨error, hrefused, rfl⟩ := flushSink_error h.sink hsink
      simp only [hsink, Prod.mk.injEq, Except.error.injEq] at hflush
      obtain ⟨rfl, rfl⟩ := hflush
      rw [hsink] at hflushed
      exact .inr (.intro (.inr ⟨hdirection, rfl, rfl⟩) (List.append_nil _).symm hrefused hflushed)
    · simp [hsink] at hflush

/-- What a normal exit has to do first. -/
theorem Live.settle (h : w.Live window s k) (limit : Nat) :
    ∃ s' k', (w.settle limit).2.Live window s' k' ∨ (w.settle limit).2.Over s' k' := by
  rw [Writer.settle]
  cases w.direction with
  | decompressing => exact ⟨s, _, .inl h.flushSink⟩
  | compressing =>
    have hstep := h.finishStep limit .finish
    rcases hfinish : w.finishStep limit .finish with ⟨failure | n, w₁⟩
    · rwa [hfinish] at hstep
    · rwa [hfinish] at hstep

/-- A scope that is left is over, whatever comes of the last steps. -/
theorem Live.exit (h : w.Live window s k) (limit : Nat) (normal : Bool) :
    ∃ s' k', (w.exit limit normal).2.Over s' k' := by
  have hrequire : w.phase.require "exit" = .ok () := by
    rw [h.phase]
    rfl
  rw [Writer.exit, hrequire]
  cases normal with
  | false => exact ⟨s, k, h.release⟩
  | true =>
    obtain ⟨s', k', hlive | hover⟩ := h.settle limit
    · exact ⟨s', k', hlive.release⟩
    · exact ⟨s', k', hover.release⟩

theorem Live.intoInner_error (h : w.Live window s k)
    (hinner : w.intoInner limit = (.error failure, w')) : ∃ s' k', w'.Over s' k' := by
  obtain ⟨s', k', hover⟩ := h.exit limit true
  rw [Writer.intoInner, if_pos h.phase] at hinner
  rcases hexit : w.exit limit true with ⟨failure₁ | ⟨⟩, w₁⟩
  · rw [hexit] at hover
    simp only [hexit, Prod.mk.injEq] at hinner
    exact ⟨s', k', hinner.2 ▸ hover⟩
  · rw [hexit] at hover
    have hsink : w₁.sink = some k' := hover.sink
    simp [hexit, hsink] at hinner

/-- A call that fails inside of a scope ends it, unless it is a flush in which nothing has failed but
the flush of the sink. -/
theorem Live.call_error {call : WriterCall} {c : Custody σ} (h : w.Live window s k)
    (hcall : call ≠ .enter) (hfail : (Custody.of w).call limit call = (some failure, c)) :
    (∃ mode, call = .flush mode ∧ w.Unflushed window s k mode failure c.writer) ∨
      ∃ s' k', c.writer.Over s' k' := by
  have herror : ∀ {α : Type} {answer : Except Failure α × Writer σ},
      (failureOf answer.1, ({ Custody.of w with writer := answer.2 } : Custody σ)) =
        (some failure, c) → answer = (.error failure, c.writer) := by
    rintro α ⟨failure' | value, w'⟩ hanswer
    · cases hanswer
      rfl
    · cases hanswer
  cases call with
  | enter => exact absurd rfl hcall
  | write bytes => exact .inr (h.write_error (herror hfail))
  | flush mode =>
    rcases h.flush_error (herror hfail) with hover | hunflushed
    · exact .inr hover
    · exact .inl ⟨mode, rfl, hunflushed⟩
  | exit normal =>
    have hexit : w.exit limit normal = (.error failure, c.writer) := herror hfail
    have hover := h.exit limit normal
    rw [hexit] at hover
    exact .inr hover
  | close =>
    have hclose : w.close limit = (.error failure, c.writer) := herror hfail
    have hover := h.exit limit true
    rw [Writer.close, if_pos h.phase] at hclose
    rw [hclose] at hover
    exact .inr hover
  | intoInner =>
    rcases hinner : w.intoInner limit with ⟨failure' | k', w'⟩
    · have hcall : (Custody.of w).call limit .intoInner = (some failure', ⟨w', none⟩) := by
        simp only [Custody.call, Custody.of, hinner]
      rw [hcall] at hfail
      cases hfail
      exact .inr (h.intoInner_error hinner)
    · have hcall : (Custody.of w).call limit .intoInner = (none, ⟨w', some k'⟩) := by
        simp only [Custody.call, Custody.of, hinner]
      rw [hcall] at hfail
      cases hfail
  | drop => cases hfail

/-! ## Entered writers stay entered -/

theorem phase_pump (w : Writer σ) (limit : Nat) (bytes : List UInt8) (directive : Directive)
    (done : Done) : (w.pump limit bytes directive done).2.phase = w.phase := by
  rw [Writer.pump]
  split <;> rfl

omit [Codec σ] in
theorem phase_flushSink (w : Writer σ) : w.flushSink.2.phase = w.phase := by
  cases hsink : w.sink with
  | none => rw [Writer.flushSink, hsink]
  | some k => rw [flushSink_state hsink]

omit [Codec σ] in
/-- A writer whose steps have failed is closed. -/
theorem entered_fail {α : Type} (run : Except Failure α × Writer σ)
    (h : run.2.phase ≠ .notEntered) : (fail run).2.phase ≠ .notEntered := by
  rcases run with ⟨failure | value, w⟩
  · exact Phase.noConfusion
  · exact h

theorem entered_write (h : w.phase ≠ .notEntered) (limit : Nat) (bytes : List UInt8) :
    (w.write limit bytes).2.phase ≠ .notEntered := by
  have hfail := entered_fail (w.pump limit bytes .proceed fun _ input full => input.isConsumed && !full)
    (by rwa [phase_pump])
  rw [Writer.write]
  split
  · exact h
  · split
    · next heq => rwa [heq] at hfail
    · next heq => rwa [heq] at hfail

theorem entered_finishStep (h : w.phase ≠ .notEntered) (limit : Nat) (directive : Directive) :
    (w.finishStep limit directive).2.phase ≠ .notEntered := by
  have hfail := entered_fail (w.pump limit [] directive fun left _ _ => left == 0)
    (by rwa [phase_pump])
  rw [Writer.finishStep]
  split
  · next heq => rwa [heq] at hfail
  · next heq =>
    rw [heq, ← phase_flushSink] at hfail
    split
    · next hflush => rwa [hflush] at hfail
    · next hflush => rwa [hflush] at hfail

theorem entered_flush (h : w.phase ≠ .notEntered) (limit : Nat) (mode : FlushMode) :
    (w.flush limit mode).2.phase ≠ .notEntered := by
  have hflushed : w.flushSink.2.phase ≠ .notEntered := by rwa [phase_flushSink]
  rw [Writer.flush]
  split
  · exact h
  · split
    · exact entered_finishStep h limit mode.directive
    · split
      · next hflush => rwa [hflush] at hflushed
      · next hflush => rwa [hflush] at hflushed

/-- Whatever comes of an exit, it is not in front of the scope. -/
theorem entered_exit (h : w.phase ≠ .notEntered) (limit : Nat) (normal : Bool) :
    (w.exit limit normal).2.phase ≠ .notEntered := by
  rw [Writer.exit]
  split
  · exact h
  · exact Phase.noConfusion

theorem entered_intoInner (h : w.phase ≠ .notEntered) (limit : Nat) :
    (w.intoInner limit).2.phase ≠ .notEntered := by
  have hexited : (if w.phase = .active then w.exit limit true else (.ok (), w)).2.phase ≠
      .notEntered := by
    split
    · exact entered_exit h limit true
    · exact h
  rw [Writer.intoInner]
  split
  · next heq => rwa [heq] at hexited
  · dsimp only
    split
    · exact Phase.noConfusion
    · exact Phase.noConfusion

/-- What a body can do to a writer: it can make calls. -/
inductive Handled (w : Writer σ) : Writer σ → Prop where
  | nothing : Handled w w
  | call {w₁ : Writer σ} (before : Handled w w₁) (limit : Nat) (call : WriterCall) :
      Handled w ((Custody.of w₁).call limit call).2.writer

/-- One call does not lead back in front of the scope. -/
theorem entered_call (h : w.phase ≠ .notEntered) (limit : Nat) (call : WriterCall) :
    ((Custody.of w).call limit call).2.writer.phase ≠ .notEntered := by
  cases call with
  | enter =>
    rw [Custody.call, Custody.of, Writer.enter]
    split
    · exact h
    · next phase hphase =>
      cases hp : w.phase with
      | notEntered => exact absurd hp h
      | active => simp [Phase.enter, hp] at hphase
      | closed => simp [Phase.enter, hp] at hphase
  | write bytes => exact entered_write h limit bytes
  | flush mode => exact entered_flush h limit mode
  | exit normal => exact entered_exit h limit normal
  | close =>
    rw [Custody.call, Custody.of, Writer.close]
    split
    · exact entered_exit h limit true
    · exact Phase.noConfusion
  | intoInner =>
    have hentered := entered_intoInner h limit
    rcases hinner : w.intoInner limit with ⟨failure | k, w₁⟩
    · rw [hinner] at hentered
      simpa only [Custody.call, Custody.of, hinner] using hentered
    · rw [hinner] at hentered
      simpa only [Custody.call, Custody.of, hinner] using hentered
  | drop =>
    rw [Custody.call, Custody.of, Writer.abandon]
    split
    · exact entered_exit h limit true
    · exact h

theorem Handled.entered (h : Handled w w') (hentered : w.phase ≠ .notEntered) :
    w'.phase ≠ .notEntered := by
  induction h with
  | nothing => exact hentered
  | call _ limit call ih => exact entered_call ih limit call

/-! ## Scopes whose body fails -/

theorem phase_of_enter (h : w.enter = (.ok (), w')) : w'.phase = .active := by
  rw [Writer.enter] at h
  cases hphase : w.phase with
  | notEntered =>
    simp only [hphase, Phase.enter] at h
    split at h
    · obtain ⟨-, rfl⟩ := Prod.mk.inj h
      rfl
    · obtain ⟨-, rfl⟩ := Prod.mk.inj h
      rfl
  | active => simp [hphase, Phase.enter] at h
  | closed => simp [hphase, Phase.enter] at h

/-- A writer that has been left without a further step: it is closed, and that is all. -/
structure Left (w w' : Writer σ) : Prop where
  phase : w'.phase = .closed
  sink : w'.sink = w.sink
  codec : w'.codec.codec = w.codec.codec
  emitted : w'.emitted = w.emitted

/-- An exit that is not normal finishes nothing. It is refused if the writer is closed already. -/
theorem left_of_exit (h : w.phase ≠ .notEntered) (limit : Nat) :
    w.Left (w.exit limit false).2 := by
  rw [Writer.exit]
  cases hphase : w.phase with
  | notEntered => exact absurd hphase h
  | active => exact ⟨rfl, rfl, rfl, rfl⟩
  | closed => exact ⟨hphase, rfl, rfl, rfl⟩

/-- The failure of the body is the failure of the scope, and nothing is done any more. -/
theorem scope_of_failed_body {α : Type} (limit : Nat) {body : Writer σ → Except Failure α × Writer σ}
    {w₁ w₂ : Writer σ} (henter : w.enter = (.ok (), w₁)) (hbody : body w₁ = (.error failure, w₂))
    (hhandled : Handled w₁ w₂) :
    (w.scope limit body).1 = .error failure ∧ w₂.Left (w.scope limit body).2 := by
  have hentered : w₁.phase ≠ .notEntered := by
    rw [phase_of_enter henter]
    exact Phase.noConfusion
  simp only [scope, henter, hbody, true_and]
  exact left_of_exit (hhandled.entered hentered) limit

/-! ## Main result -/

/-- A call fails inside of a scope. Unless it is a flush in which only the sink's own flush has
failed, the writer is over: whatever is called it changes nothing and refuses to push anything, it can
be closed, and it hands the sink back as it was after the failure. And a scope whose body fails has
the failure of the body, even if the writer has been closed before; it leaves a closed writer to
which nothing else has happened since. -/
theorem fails_for_good :
    (∀ {w : Writer σ} {window limit : Nat} {s : σ} {k : Sink} {call : WriterCall} {failure : Failure}
      {c : Custody σ}, w.Live window s k → call ≠ .enter →
      (Custody.of w).call limit call = (some failure, c) →
      (∃ mode, call = .flush mode ∧ w.Unflushed window s k mode failure c.writer) ∨
      ∃ s' k', c.writer.Over s' k' ∧
        (∀ limit calls, .intoInner ∉ calls →
          c.calls limit calls = (calls.map fun call => ⟨call, .closed, call.refusal⟩, c)) ∧
        ∀ limit, c.writer.intoInner limit = (.ok k', { c.writer with sink := none })) ∧
    ∀ {α : Type} {w w₁ w₂ : Writer σ} {limit : Nat} {failure : Failure}
      {body : Writer σ → Except Failure α × Writer σ}, w.enter = (.ok (), w₁) →
      body w₁ = (.error failure, w₂) → Handled w₁ w₂ →
      (w.scope limit body).1 = .error failure ∧ w₂.Left (w.scope limit body).2 := by
  refine ⟨?_, fun henter hbody hhandled => scope_of_failed_body _ henter hbody hhandled⟩
  intro w window limit s k call failure c hlive hcall hfail
  rcases hlive.call_error hcall hfail with hunflushed | ⟨s', k', hover⟩
  · exact .inl hunflushed
  · exact .inr ⟨s', k', hover, fun limit calls hcalls => hover.calls limit hcalls, hover.intoInner⟩

/-- The codec fails in its second step. What the first step has made stays in the sink, and the scope
has the failure of the write in it. -/
theorem fails_for_good_script :
    ∃ (w : Writer Toy.Script) (s : Toy.Script) (c : Custody Toy.Script),
      w.Live 4 s {} ∧ s.lines = [⟨2, [7, 8], .ok 1⟩, ⟨1, [9], .error (.codec "out of order")⟩] ∧
      (Custody.of w).call 5 (.write [1, 2, 3]) = (some (.codec "out of order"), c) ∧
      (∃ k, k.received = #[7, 8] ∧ c.writer.intoInner 5 = (.ok k, { c.writer with sink := none })) ∧
      c.calls 5 [.write [4], .close, .drop] =
        ([⟨.write [4], .closed, some (.misuse .closed)⟩, ⟨.close, .closed, none⟩,
          ⟨.drop, .closed, none⟩], c) ∧
      (Writer.scope 5 { w with phase := .notEntered } fun w => w.write 5 [1, 2, 3]).1 =
        .error (.codec "out of order") := by
  let s : Toy.Script := ⟨[⟨2, [7, 8], .ok 1⟩, ⟨1, [9], .error (.codec "out of order")⟩]⟩
  let w : Writer Toy.Script :=
    ⟨.active, .compressing, some {}, .live s, 4, ⟨4, false, none⟩, 0⟩
  obtain ⟨hfails, hscope⟩ := fails_for_good (σ := Toy.Script)
  have hlive : w.Live 4 s {} := ⟨rfl, rfl, rfl, rfl⟩
  rcases hcall : (Custody.of w).call 5 (.write [1, 2, 3]) with ⟨failure, c⟩
  obtain rfl : failure = some (.codec "out of order") :=
    (congrArg Prod.fst hcall).symm.trans (by with_unfolding_all rfl)
  have hreceived : c.writer.sink.map Sink.received = some #[7, 8] :=
    (congrArg (fun run => run.2.writer.sink.map Sink.received) hcall).symm.trans
      (by with_unfolding_all rfl)
  rcases hfails hlive WriterCall.noConfusion hcall with
    ⟨mode, hflush, -⟩ | ⟨s', k, hover, hcalls, hinner⟩
  · cases hflush
  · rw [hover.sink] at hreceived
    have hbody : w.write 5 [1, 2, 3] = (.error (.codec "out of order"), (w.write 5 [1, 2, 3]).2) :=
      Prod.ext (by with_unfolding_all rfl) rfl
    have hfailed : (Writer.scope 5 { w with phase := .notEntered } fun w => w.write 5 [1, 2, 3]).1 =
        .error (.codec "out of order") :=
      (hscope rfl hbody (.call .nothing 5 (.write [1, 2, 3]))).1
    exact ⟨w, s, c, hlive, rfl, hcall, ⟨k, Option.some.inj hreceived, hinner 5⟩,
      hcalls 5 _ (by decide), hfailed⟩

end Writer

end Sluice
