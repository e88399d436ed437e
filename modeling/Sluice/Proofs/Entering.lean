import Sluice.Proofs.FailedWriters
import Sluice.Recorder
import Sluice.Toy.Hold

/-!
# Entering a scope, and leaving it

A compressing writer tells its codec the size of the source when it is entered, and the codec can
refuse it. The scope has been entered by then: a writer whose codec has refused the size is inside its
scope like any other, and letting it go ends a frame. Once the codec has accepted the size, though,
the scope is left on every path.

* `Writer.enter_eq` — what entering does.
* `Custody.Still`, `Custody.still_calls` — nothing happens to a closed writer.
* `Writer.closed_scope` — a scope that has been entered is left.
* `Writer.enters` — all of it.
* `Writer.enters_in_spite_of_refusal` — a writer that is let go after a refusal pushes a frame.
-/

namespace Sluice

variable {σ : Type} [Codec σ]

/-! ## Closed writers -/

namespace Custody

variable {c c₁ c' : Custody σ} {limit : Nat}

/-- Nothing has happened since `c` to the writer in `c'`, which is closed, but that its sink may have
been handed back. -/
structure Still (c c' : Custody σ) : Prop where
  phase : c'.writer.phase = .closed
  held : c'.held = c.held
  codec : c'.writer.codec.codec = c.writer.codec.codec
  emitted : c'.writer.emitted = c.writer.emitted

omit [Codec σ] in
theorem Still.trans (h : Still c c₁) (h' : Still c₁ c') : Still c c' where
  phase := h'.phase
  held := h'.held.trans h.held
  codec := h'.codec.trans h.codec
  emitted := h'.emitted.trans h.emitted

/-- A call of a closed writer. -/
theorem still_call (h : c.writer.phase = .closed) (limit : Nat) (call : WriterCall) :
    Still c (c.call limit call).2 := by
  cases call with
  | enter =>
    rw [call, Writer.enter, h]
    exact ⟨h, rfl, rfl, rfl⟩
  | write bytes =>
    rw [call, Writer.write, h]
    exact ⟨h, rfl, rfl, rfl⟩
  | flush mode =>
    rw [call, Writer.flush, h]
    exact ⟨h, rfl, rfl, rfl⟩
  | exit normal =>
    rw [call, Writer.exit, h]
    exact ⟨h, rfl, rfl, rfl⟩
  | close =>
    rw [call, Writer.close, h, if_neg Phase.noConfusion]
    exact ⟨rfl, rfl, rfl, rfl⟩
  | intoInner =>
    rw [call, Writer.intoInner, h, if_neg Phase.noConfusion]
    cases hsink : c.writer.sink with
    | none =>
      simp only [hsink]
      exact ⟨rfl, by simp [held, hsink], rfl, rfl⟩
    | some k =>
      simp only [hsink]
      exact ⟨rfl, by simp [held, hsink], rfl, rfl⟩
  | drop =>
    rw [call, Writer.abandon, h, if_neg Phase.noConfusion]
    exact ⟨h, rfl, rfl, rfl⟩

/-- Any number of them. -/
theorem still_calls (h : c.writer.phase = .closed) (limit : Nat) (calls : List WriterCall) :
    Still c (c.calls limit calls).2 := by
  induction calls generalizing c with
  | nil => exact ⟨h, rfl, rfl, rfl⟩
  | cons call later ih =>
    have hcall := still_call h limit call
    exact hcall.trans (ih hcall.phase)

end Custody

namespace Writer

variable {w w₁ : Writer σ} {s : σ} {k : Sink} {limit : Nat}

/-! ## Entering -/

/-- A compressing writer is entered whether its codec accepts the size or not; the answer is that of
the codec. -/
theorem enter_eq (hphase : w.phase = .notEntered) (hdirection : w.direction = .compressing)
    (hcodec : w.codec = .live s) :
    w.enter = ((Codec.pledge s w.settings.sourceSize).1,
      { w with phase := .active, codec := .live (Codec.pledge s w.settings.sourceSize).2 }) := by
  rw [enter, hphase, hdirection, hcodec]
  rfl

/-! ## Leaving -/

theorem closed_of_exit (h : w.phase ≠ .notEntered) (limit : Nat) (normal : Bool) :
    (w.exit limit normal).2.phase = .closed := by
  rw [exit]
  cases hphase : w.phase with
  | notEntered => exact absurd hphase h
  | active => rfl
  | closed => exact hphase

/-- A scope that has been entered is left, whatever comes of its body. -/
theorem closed_scope {α : Type} (limit : Nat) {body : Writer σ → Except Failure α × Writer σ}
    (henter : w.enter = (.ok (), w₁)) (hhandled : Handled w₁ (body w₁).2) :
    (w.scope limit body).2.phase = .closed := by
  have hentered : w₁.phase ≠ .notEntered := by
    rw [phase_of_enter henter]
    exact Phase.noConfusion
  have hleft := fun normal => closed_of_exit (hhandled.entered hentered) limit normal
  rcases hbody : body w₁ with ⟨failure | value, w₂⟩
  · rw [hbody] at hleft
    simp only [scope, henter, hbody]
    exact hleft false
  · have hexited := hleft true
    rw [hbody] at hexited
    simp only [scope, henter, hbody]
    rcases hexit : w₂.exit limit true with ⟨failure | ⟨⟩, w₃⟩
    · rw [hexit] at hexited
      exact hexited
    · rw [hexit] at hexited
      exact hexited

/-! ## Main result -/

/-- A compressing writer is entered. It answers what its codec says of the size of the source, and is
inside its scope then in any case: nothing has been pushed yet, and it can be left only by ending a
frame or by an exit that is not normal.

If the codec has refused, `scope` does not run its body and leaves the writer there. If it has
accepted, `scope` closes the writer on every path; and after a body that has failed the codec is not
stepped any more, neither by the scope nor by anything that is called later, nor is anything pushed. -/
theorem enters (hphase : w.phase = .notEntered) (hdirection : w.direction = .compressing)
    (hcodec : w.codec = .live s) (hsink : w.sink = some k) :
    ∃ w₁, w.enter = ((Codec.pledge s w.settings.sourceSize).1, w₁) ∧
      w₁.Live w.window (Codec.pledge s w.settings.sourceSize).2 k ∧ w₁.emitted = w.emitted ∧
      (∀ limit, w₁.close limit = w₁.exit limit true ∧ w₁.abandon limit = (w₁.exit limit true).2) ∧
      (∀ failure, w.enter.1 = .error failure → ∀ {α : Type} limit
        (body : Writer σ → Except Failure α × Writer σ), w.scope limit body = (.error failure, w₁)) ∧
      (w.enter.1 = .ok () → ∀ {α : Type} limit (body : Writer σ → Except Failure α × Writer σ),
        Handled w₁ (body w₁).2 →
        (w.scope limit body).2.phase = .closed ∧
        ∀ failure, (body w₁).1 = .error failure →
          (w.scope limit body).1 = .error failure ∧ (body w₁).2.Left (w.scope limit body).2 ∧
          ∀ later calls, (Custody.of (w.scope limit body).2).Still
            ((Custody.of (w.scope limit body).2).calls later calls).2) := by
  have henter := enter_eq hphase hdirection hcodec
  refine ⟨_, henter, ⟨rfl, rfl, rfl, hsink⟩, rfl, fun limit => ⟨rfl, rfl⟩, ?_, ?_⟩
  · intro failure hrefused α limit body
    rw [henter] at hrefused
    rw [scope, henter, hrefused]
  · intro haccepted α limit body hhandled
    rw [henter] at haccepted
    rw [haccepted] at henter
    have hclosed := closed_scope limit henter hhandled
    refine ⟨hclosed, fun failure hbody => ?_⟩
    obtain ⟨hresult, hleft⟩ := scope_of_failed_body limit henter (Prod.ext hbody rfl)
      hhandled
    exact ⟨hresult, hleft, fun later calls => Custody.still_calls hclosed later calls⟩

/-- A codec that holds nothing back, and puts a header and a trailer around a frame. It accepts the
size, and the body fails after a write: the header and the byte are all that is pushed. -/
theorem enters_hold :
    ∃ (w : Writer Toy.Hold) (c : Custody Toy.Hold),
      w.phase = .notEntered ∧ w.codec = .live (.new 0 [72] [84] none) ∧
      w.scope 5 (fun w => ((.error (.codec "no more") : Except Failure Unit), (w.write 5 [1]).2)) =
        (.error (.codec "no more"), c.writer) ∧
      c.writer.sink.map Sink.received = some #[72, 1] ∧
      ∀ later calls, (c.calls later calls).2.held = c.held := by
  let w : Writer Toy.Hold :=
    ⟨.notEntered, .compressing, some {}, .live (.new 0 [72] [84] none), 8, ⟨8, false, none⟩, 0⟩
  let body : Writer Toy.Hold → Except Failure Unit × Writer Toy.Hold :=
    fun w => (.error (.codec "no more"), (w.write 5 [1]).2)
  obtain ⟨w₁, henter, hlive, -, -, -, hscope⟩ := enters (w := w) rfl rfl rfl rfl
  obtain rfl : w₁ = { w with phase := .active } := (congrArg Prod.snd henter).symm
  obtain ⟨-, hfailed⟩ := hscope rfl 5 body (.call .nothing 5 (.write [1]))
  obtain ⟨hresult, hleft, hstill⟩ := hfailed _ rfl
  refine ⟨w, .of (w.scope 5 body).2, rfl, rfl, Prod.ext hresult rfl, ?_,
    fun later calls => (hstill later calls).held⟩
  change (w.scope 5 body).2.sink.map Sink.received = some #[72, 1]
  rw [hleft.sink]
  with_unfolding_all rfl

/-- The codec refuses the size, and the writer is inside its scope nevertheless. When it is let go, the
end of a frame is put into the sink. -/
theorem enters_in_spite_of_refusal :
    ∃ w w₁ : Writer (Recorder Toy.Script),
      w.phase = .notEntered ∧ w.received = some [] ∧
      w.codec = .live (.new ⟨[⟨0, [84], .ok 0⟩]⟩ (some (.codec "no size"))) ∧
      w.enter = (.error (.codec "no size"), w₁) ∧ w₁.phase = .active ∧
      (w₁.abandon 5).received = some [84] := by
  let w : Writer (Recorder Toy.Script) :=
    ⟨.notEntered, .compressing, some {}, .live (.new ⟨[⟨0, [84], .ok 0⟩]⟩ (some (.codec "no size"))),
      8, ⟨8, false, none⟩, 0⟩
  exact ⟨w, w.enter.2, rfl, rfl, rfl, rfl, rfl, by with_unfolding_all rfl⟩

end Writer

end Sluice
