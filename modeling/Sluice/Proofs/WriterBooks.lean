import Sluice.Proofs.Pushing

/-!
# The books of a writer

What a writer has done to its codec and to its sink, whether or not something went wrong on the way:
which turns the codec has taken, and how much of what it made the sink has accepted.

* `Mishap` — what went wrong in the middle of a step.
* `Writer.Flow.run_error` — what a run of steps has done when it fails.
* `Writer.Books` — turns, and at most one mishap after them.
* `Writer.Balanced`, `Writer.Settled` — the books of a writer inside its scope, and of a closed one.
* `Writer.write_books`, `Writer.flush_books`, `Writer.exit_books` — what becomes of them.
-/

namespace Sluice

/-- What went wrong in the middle of a step, if anything did. -/
inductive Mishap where
  /-- nothing -/
  | none
  /-- the codec failed, after it had taken these bytes -/
  | broken (taken : List UInt8)
  /-- the sink failed, after it had accepted some of what the codec made in this turn -/
  | refused (turn : Turn) (accepted : List UInt8)

namespace Mishap

/-- The bytes that the codec took. -/
def taken : Mishap → List UInt8
  | none => []
  | broken taken => taken
  | refused turn _ => turn.taken

/-- The bytes that the sink accepted. -/
def accepted : Mishap → List UInt8
  | none | broken _ => []
  | refused _ accepted => accepted

variable {σ : Type} [Codec σ]

/-- `m.Leads s x s' y`: the codec in state `s`, with the input `x` before it, gets through the mishap
`m` to the state `s'`, and `y` is left. -/
inductive Leads : Mishap → σ → List UInt8 → σ → List UInt8 → Prop
  | none {s : σ} {x : List UInt8} : Leads .none s x s x
  | broken {s : σ} {x : List UInt8} {room : Nat} {directive : Directive} {failure : Failure}
      (result : (Codec.step s x room directive).result = .error failure) :
      Leads (.broken (x.take (Codec.step s x room directive).taken)) s x
        (Codec.step s x room directive).state (x.drop (Codec.step s x room directive).taken)
  | refused {s s' : σ} {t : Turn} {accepted : List UInt8} (turn : t.Leads s s')
      (front : accepted <+: t.made) : Leads (.refused t accepted) s t.offered s' t.rest

/-- What has been taken and what is left make up the input. -/
theorem Leads.taken_append_eq {m : Mishap} {s s' : σ} {x y : List UInt8} (h : m.Leads s x s' y) :
    m.taken ++ y = x := by
  cases h with
  | none => rfl
  | broken => exact List.take_append_drop ..
  | refused => rfl

end Mishap

namespace Writer

variable {σ : Type} [Codec σ]

/-! ## Runs that fail -/

/-- The books of a writer. The codec began in state `s₀` with the input `x` before it; it has taken
the `turns`, of which the sink has accepted everything, and then there was the mishap `m`. Now the
codec is in state `s`, and `rest` is left of the input. -/
structure Books (s₀ : σ) (received₀ : List UInt8) (x : List UInt8) (turns : List Turn) (m : Mishap)
    (s : σ) (rest received : List UInt8) (emitted : Nat) : Prop where
  course : ∃ s₁ y, Course s₀ x turns s₁ y ∧ m.Leads s₁ y s rest
  received : received = received₀ ++ (madeBy turns ++ m.accepted)
  emitted : emitted = (madeBy turns).length

/-- A writer inside its scope with which nothing has gone wrong: the codec has taken everything that
was written. -/
def Balanced (window : Nat) (s₀ : σ) (received₀ written : List UInt8) (w : Writer σ) : Prop :=
  ∃ turns s k, w.Live window s k ∧
    Books s₀ received₀ written turns .none s [] k.received.toList w.emitted

/-- What there is to say about a writer that has been closed. The codec has taken everything that
was written successfully, and some of what was not. -/
def Settled (s₀ : σ) (received₀ written broken : List UInt8) (k : Sink) (emitted : Nat) : Prop :=
  ∃ turns m s rest, rest <:+ broken ∧
    Books s₀ received₀ (written ++ broken) turns m s rest k.received.toList emitted

/-- A closed writer that still has its sink. -/
def Ended (s₀ : σ) (received₀ written broken : List UInt8) (w : Writer σ) : Prop :=
  w.phase = .closed ∧ ∃ k, w.sink = some k ∧ Settled s₀ received₀ written broken k w.emitted

variable {w w' : Writer σ} {window limit : Nat} {s₀ s : σ} {k : Sink}
  {received₀ written broken bytes : List UInt8}

/-- A writer that has done nothing yet. -/
theorem Live.balanced (h : w.Live window s k) (hemitted : w.emitted = 0) :
    Balanced window s k.received.toList [] w :=
  ⟨[], s, k, h, ⟨s, [], .nil, .none⟩, (List.append_nil _).symm, hemitted⟩

theorem Balanced.phase (h : Balanced window s₀ received₀ written w) : w.phase = .active := by
  obtain ⟨turns, s, k, hlive, -⟩ := h
  exact hlive.phase

/-- The books of a writer that is closed while nothing has gone wrong. -/
theorem Balanced.settled (h : Balanced window s₀ received₀ written w) :
    ∃ k, w.sink = some k ∧ Settled s₀ received₀ written [] k w.emitted := by
  obtain ⟨turns, s, k, hlive, hbooks⟩ := h
  refine ⟨k, hlive.sink, turns, .none, s, [], List.suffix_refl [], ?_⟩
  rw [List.append_nil]
  exact hbooks

theorem Balanced.release (h : Balanced window s₀ received₀ written w) :
    Ended s₀ received₀ written [] w.release := ⟨rfl, h.settled⟩

theorem Ended.release (h : Ended s₀ received₀ written broken w) :
    Ended s₀ received₀ written broken w.release := ⟨rfl, h.2⟩

/-! ## Entering -/

/-- The state in which the codec of a writer begins: it has been told the size of the source if the
writer compresses and has been entered. -/
def Begun (direction : Direction) (codec : σ) (settings : WriterSettings) (s₀ : σ) : Prop :=
  s₀ = codec ∨ direction = .compressing ∧ s₀ = (Codec.pledge codec settings.sourceSize).2

/-- A run of steps that succeeds leaves the books balanced, if it has taken all of its input. -/
theorem Balanced.pump_ok {directive : Directive} {done : Done} {n : Nat}
    (h : Balanced window s₀ received₀ written w)
    (hpump : w.pump limit bytes directive done = (.ok n, w'))
    (htaken : ∀ left input full, done left input full = true → input.unread = [] ∨ bytes = []) :
    Balanced window s₀ received₀ (written ++ bytes) w' := by
  obtain ⟨turns, s, k, hlive, ⟨s₁, y, hcourse, ⟨⟩⟩, hreceived, hemitted⟩ := h
  rw [hlive.pump_eq] at hpump
  rcases hrun : Flow.run window directive done limit ⟨s, k, .ofList bytes, 0⟩ with
    ⟨failure | ⟨⟩, flow⟩
  · simp [hrun, Except.map] at hpump
  simp only [hrun, Except.map, Prod.mk.injEq] at hpump
  obtain ⟨-, rfl⟩ := hpump
  obtain ⟨before, last, hran⟩ := Flow.run_ok hrun
  have hcourse' : Course s bytes (before ++ [last]) flow.codec flow.input.unread := hran.course
  have hunread : flow.input.unread = [] := by
    rcases htaken _ _ _ hran.done with hunread | rfl
    · exact hunread
    · exact hcourse'.eq_nil_of_nil
  rw [hunread] at hcourse'
  refine ⟨turns ++ (before ++ [last]), flow.codec, flow.sink,
    ⟨hlive.phase, hlive.window, rfl, rfl⟩,
    ⟨flow.codec, [], (hcourse.weaken bytes).append hcourse', .none⟩, ?_, ?_⟩
  · rw [hran.received, hreceived]
    simp [Mishap.accepted]
  · change w.emitted + flow.pushed = _
    rw [hran.pushed, hemitted, madeBy_append turns, List.length_append, Nat.zero_add]

/-- Flushing the sink changes nothing about the books. -/
theorem Balanced.flushSink (h : Balanced window s₀ received₀ written w) :
    Balanced window s₀ received₀ written w.flushSink.2 := by
  obtain ⟨turns, s, k, hlive, hbooks⟩ := h
  rw [flushSink_state hlive.sink]
  refine ⟨turns, s, k.flush.2, ⟨hlive.phase, hlive.window, hlive.codec, rfl⟩, ?_⟩
  rw [k.received_flush]
  exact hbooks

end Writer

end Sluice
