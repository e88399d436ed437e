import Sluice.Proofs.Course
import Sluice.Writer

/-!
# Sessions of an encoder

Writers, builders and chunkers can be asked for the same three things: to push bytes, to give what
is held back, and to end a frame. What their encoder does for these is described here, apart from
how the output is handed on.

* `WriterOp`, `pushedBy` — what can be asked for, and the bytes pushed in that way.
* `pushEach` — ask for several things, and keep the answers.
* `Effort` — the course of one operation.
* `Session` — operations one after the other.
-/

namespace Sluice

/-! ## Operations -/

/-- What can be asked of a writer inside its scope. -/
inductive WriterOp where
  | write (bytes : List UInt8)
  | flush (mode : FlushMode)
  deriving DecidableEq, Repr

namespace WriterOp

/-- The bytes pushed. -/
def input : WriterOp → List UInt8
  | write bytes => bytes
  | flush _ => []

/-- What the codec is told to do. -/
def directive : WriterOp → Directive
  | write _ => .proceed
  | flush mode => mode.directive

/-- Only the end of a frame is told to the codec as one. -/
theorem directive_ne_finish {op : WriterOp} (h : op ≠ .flush .frame) : op.directive ≠ .finish := by
  cases op with
  | write bytes => simp [directive]
  | flush mode =>
    cases mode with
    | block => simp [directive, FlushMode.directive]
    | frame => exact absurd rfl h

end WriterOp

/-- All of the bytes pushed. -/
def pushedBy (ops : List WriterOp) : List UInt8 := ops.flatMap WriterOp.input

@[simp] theorem pushedBy_nil : pushedBy [] = [] := rfl

@[simp] theorem pushedBy_cons (op : WriterOp) (ops : List WriterOp) :
    pushedBy (op :: ops) = op.input ++ pushedBy ops := rfl

/-- Do operations one after the other, up to the first that fails, and give the answers to all. -/
def pushEach {γ β : Type} (push : γ → WriterOp → Except Failure β × γ) (c : γ) :
    List WriterOp → Except Failure (List β) × γ
  | [] => (.ok [], c)
  | op :: ops =>
    match push c op with
    | (.error failure, c) => (.error failure, c)
    | (.ok answer, c) =>
      match pushEach push c ops with
      | (.error failure, c) => (.error failure, c)
      | (.ok answers, c) => (.ok (answer :: answers), c)

theorem pushEach_cons_ok {γ β : Type} {push : γ → WriterOp → Except Failure β × γ} {c c' : γ}
    {op : WriterOp} {ops : List WriterOp} {answers : List β}
    (h : pushEach push c (op :: ops) = (.ok answers, c')) :
    ∃ answer later c₁, push c op = (.ok answer, c₁) ∧ pushEach push c₁ ops = (.ok later, c') ∧
      answers = answer :: later := by
  rcases hpush : push c op with ⟨failure | answer, c₁⟩
  · simp [pushEach, hpush] at h
  · rcases hlater : pushEach push c₁ ops with ⟨failure | later, c₂⟩
    · simp [pushEach, hpush, hlater] at h
    · simp only [pushEach, hpush, hlater, Prod.mk.injEq, Except.ok.injEq] at h
      obtain ⟨rfl, rfl⟩ := h
      exact ⟨answer, later, c₁, rfl, hlater, rfl⟩

/-- What refuses every single operation refuses every list of them. -/
theorem pushEach_ne_ok {γ β : Type} {push : γ → WriterOp → Except Failure β × γ} {c c' : γ}
    (h : ∀ op answer c', push c op ≠ (.ok answer, c')) {ops : List WriterOp} {op : WriterOp}
    {answers : List β} : pushEach push c (ops ++ [op]) ≠ (.ok answers, c') := by
  intro hok
  have hne : ops ++ [op] ≠ [] := List.append_ne_nil_of_right_ne_nil ops (List.cons_ne_nil op [])
  obtain ⟨first, others, hops⟩ := List.exists_cons_of_ne_nil hne
  rw [hops] at hok
  obtain ⟨answer, later, c₁, hpush, -, -⟩ := pushEach_cons_ok hok
  exact h first answer c₁ hpush

/-! ## Efforts -/

variable {σ : Type} [Codec σ]

/-- The course of one operation: all of its bytes are taken, and a flush goes on until the codec
says that it is complete. -/
structure Effort (op : WriterOp) (s : σ) (turns : List Turn) (s' : σ) : Prop where
  course : Course s op.input turns s' []
  turn : ∀ t ∈ turns, t.directive = op.directive
  ending : ∃ before last, turns = before ++ [last] ∧
    (op.directive ≠ .proceed → (∀ t ∈ before, t.left ≠ 0) ∧ last.left = 0)

namespace Effort

variable {op : WriterOp} {s s' : σ} {turns : List Turn}

/-- A write is done when all of its bytes are taken. -/
theorem of_write {bytes : List UInt8} {before : List Turn} {last : Turn}
    (hcourse : Course s bytes (before ++ [last]) s' [])
    (hturn : ∀ t ∈ before ++ [last], t.directive = .proceed) :
    Effort (.write bytes) s (before ++ [last]) s' :=
  ⟨hcourse, hturn, before, last, rfl, fun hne => absurd rfl hne⟩

/-- A flush goes on until the codec returns zero. -/
theorem of_flush {mode : FlushMode} {before : List Turn} {last : Turn} {y : List UInt8}
    (hcourse : Course s [] (before ++ [last]) s' y)
    (hturn : ∀ t ∈ before ++ [last], t.directive = mode.directive)
    (hbefore : ∀ t ∈ before, t.left ≠ 0) (hlast : last.left = 0) :
    Effort (.flush mode) s (before ++ [last]) s' := by
  obtain rfl := hcourse.eq_nil_of_nil
  exact ⟨hcourse, hturn, before, last, rfl, fun _ => ⟨hbefore, hlast⟩⟩

/-- All that is given to the codec in an operation is taken. -/
theorem takenBy_eq (h : Effort op s turns s') : takenBy turns = op.input := by
  have hall := h.course.takenBy_append_eq
  rwa [List.append_nil] at hall

/-- An operation other than the end of a frame ends no frame. -/
theorem not_endsFrame (h : Effort op s turns s') (hne : op ≠ .flush .frame) :
    ∀ t ∈ turns, ¬ t.EndsFrame := by
  intro t ht hend
  exact WriterOp.directive_ne_finish hne ((h.turn t ht).symm.trans hend.1)

/-- The end of a frame ends it in its last turn. -/
theorem end_inv (h : Effort (.flush .frame) s turns s') :
    ∃ before last, turns = before ++ [last] ∧ (∀ t ∈ before, ¬ t.EndsFrame) ∧ last.EndsFrame := by
  have hturn := h.turn
  obtain ⟨before, last, rfl, hleft⟩ := h.ending
  obtain ⟨hbefore, hlast⟩ := hleft (by simp [WriterOp.directive, FlushMode.directive])
  exact ⟨before, last, rfl, fun t ht hend => hbefore t ht hend.2, hturn last (by simp), hlast⟩

end Effort

/-! ## Sessions -/

/-- Operations one after the other, and what the codec has made of them. -/
inductive Session : σ → List WriterOp → List UInt8 → σ → Prop where
  | nil {s : σ} : Session s [] [] s
  | cons {s s₁ s' : σ} {op : WriterOp} {ops : List WriterOp} {turns : List Turn}
      {made : List UInt8} (first : Effort op s turns s₁)
      (others : Session s₁ ops made s') :
      Session s (op :: ops) (madeBy turns ++ made) s'

namespace Session

variable {s s₁ s' : σ} {op : WriterOp} {ops later : List WriterOp} {made more : List UInt8}

theorem cons_inv (h : Session s (op :: ops) made s') :
    ∃ turns s₁ rest, Effort op s turns s₁ ∧ Session s₁ ops rest s' ∧
      made = madeBy turns ++ rest := by
  cases h with
  | cons first others => exact ⟨_, _, _, first, others, rfl⟩

theorem append_inv (h : Session s (ops ++ later) made s') :
    ∃ s₁ before after, Session s ops before s₁ ∧ Session s₁ later after s' ∧
      made = before ++ after := by
  induction ops generalizing s made with
  | nil => exact ⟨s, [], made, .nil, h, rfl⟩
  | cons op ops ih =>
    obtain ⟨turns, s₁, rest, first, others, rfl⟩ := h.cons_inv
    obtain ⟨s₂, before, after, hops, hlater, rfl⟩ := ih others
    exact ⟨s₂, _, after, .cons first hops, hlater, (List.append_assoc ..).symm⟩

theorem append (h : Session s ops made s₁) (h' : Session s₁ later more s') :
    Session s (ops ++ later) (made ++ more) s' := by
  induction h with
  | nil => exact h'
  | cons first others ih =>
    rw [List.append_assoc]
    exact .cons first (ih h')

/-- The last operation of a session, apart from those before it. -/
theorem concat_inv (h : Session s (ops ++ [op]) made s') :
    ∃ s₁ before turns, Session s ops before s₁ ∧ Effort op s₁ turns s' ∧
      made = before ++ madeBy turns := by
  obtain ⟨s₁, before, after, hops, hlast, rfl⟩ := h.append_inv
  obtain ⟨turns, s₂, rest, heffort, hnil, rfl⟩ := hlast.cons_inv
  cases hnil
  exact ⟨s₁, before, turns, hops, heffort, by rw [List.append_nil]⟩

end Session

end Sluice
