import Sluice.Codec

/-!
# Courses of a codec

Readers, writers, builders and chunkers all drive a codec, each in a loop of its own. What they
did to the codec is the same kind of thing for all of them: a list of steps over one input. Loops
are described by it once, and everything else is proved about it.

* `Turn` — one step that did not fail, as its driver saw it.
* `Turn.Leads` — the codec took that turn, and was in another state afterwards.
* `Course` — turns one after the other, each over the front of what the turns before it left.
-/

namespace Sluice

/-! ## Turns -/

/-- One step that did not fail. -/
structure Turn where
  directive : Directive
  /-- the room in the window before the step -/
  room : Nat
  /-- the bytes that the codec took -/
  taken : List UInt8
  /-- the bytes it was offered behind these and did not take -/
  rest : List UInt8
  /-- the bytes that reached the window -/
  made : List UInt8
  /-- the number that the codec returned -/
  left : Nat

namespace Turn

/-- What the codec was offered. -/
def offered (t : Turn) : List UInt8 := t.taken ++ t.rest

/-- The turn that ends a frame, or finds that there is none to end. -/
def EndsFrame (t : Turn) : Prop := t.directive = .finish ∧ t.left = 0

instance (t : Turn) : Decidable t.EndsFrame := inferInstanceAs (Decidable (_ ∧ _))

variable {σ : Type} [Codec σ]

/-- The codec in state `s` takes the turn `t` and is in state `s'` then. -/
def Leads (t : Turn) (s s' : σ) : Prop :=
  let step := Codec.step s t.offered t.room t.directive
  step.result = .ok t.left ∧ step.state = s' ∧
    t.taken = t.offered.take step.taken ∧ t.made = step.output.take t.room

/-- The turn that a step over `offered` amounts to, if it returns `left`. -/
def ofStep (s : σ) (offered : List UInt8) (room : Nat) (directive : Directive) (left : Nat) : Turn :=
  let step := Codec.step s offered room directive
  ⟨directive, room, offered.take step.taken, offered.drop step.taken, step.output.take room, left⟩

section OfStep

variable (s : σ) (u : List UInt8) (room : Nat) (directive : Directive) (left : Nat)

@[simp] theorem directive_ofStep : (ofStep s u room directive left).directive = directive := rfl

@[simp] theorem room_ofStep : (ofStep s u room directive left).room = room := rfl

@[simp] theorem left_ofStep : (ofStep s u room directive left).left = left := rfl

@[simp] theorem offered_ofStep : (ofStep s u room directive left).offered = u :=
  List.take_append_drop ..

end OfStep

/-- A step that returns a number is a turn. -/
theorem leads_ofStep {s : σ} {u : List UInt8} {room : Nat} {directive : Directive} {left : Nat}
    (h : (Codec.step s u room directive).result = .ok left) :
    (ofStep s u room directive left).Leads s (Codec.step s u room directive).state := by
  rw [Leads, offered_ofStep]
  exact ⟨h, rfl, rfl, rfl⟩

theorem Leads.result {t : Turn} {s s' : σ} (h : t.Leads s s') :
    (Codec.step s t.offered t.room t.directive).result = .ok t.left := h.1

theorem Leads.state {t : Turn} {s s' : σ} (h : t.Leads s s') :
    (Codec.step s t.offered t.room t.directive).state = s' := h.2.1

theorem Leads.taken {t : Turn} {s s' : σ} (h : t.Leads s s') :
    t.taken = t.offered.take (Codec.step s t.offered t.room t.directive).taken := h.2.2.1

theorem Leads.made {t : Turn} {s s' : σ} (h : t.Leads s s') :
    t.made = (Codec.step s t.offered t.room t.directive).output.take t.room := h.2.2.2

/-- What the codec left is the offer behind the bytes that its step took. -/
theorem Leads.rest {t : Turn} {s s' : σ} (h : t.Leads s s') :
    t.rest = t.offered.drop (Codec.step s t.offered t.room t.directive).taken := by
  have hsplit :=
    calc t.taken ++ t.rest
        = t.offered.take _ ++ t.offered.drop _ := (List.take_append_drop _ t.offered).symm
      _ = t.taken ++ t.offered.drop _ := by rw [h.taken]
  exact List.append_cancel_left hsplit

end Turn

/-! ## Driven steps as turns -/

section Drive

variable {σ : Type} [Codec σ] (s : σ) (input : Input) (window : Window) (directive : Directive)
  (left : Nat)

theorem drive_unread :
    (drive s input window directive).input.unread =
      (Turn.ofStep s input.unread window.spare directive left).rest := rfl

theorem drive_written :
    (drive s input window directive).window.written.toList =
      window.written.toList ++ (Turn.ofStep s input.unread window.spare directive left).made :=
  Window.toList_written_put ..

theorem drive_pos :
    (drive s input window directive).window.pos =
      window.pos + (Turn.ofStep s input.unread window.spare directive left).made.length := by
  rw [drive_window, Window.pos_put]
  simp [Turn.ofStep]

theorem drive_spare :
    (drive s input window directive).window.spare =
      window.spare - (Turn.ofStep s input.unread window.spare directive left).made.length := by
  rw [drive_window, Window.spare_put]
  simp only [Turn.ofStep, List.length_take]
  omega

/-- The window is full exactly if the turn filled its room. -/
theorem drive_isFull :
    (drive s input window directive).window.isFull =
      decide (window.spare ≤
        (Turn.ofStep s input.unread window.spare directive left).made.length) := by
  rw [Window.isFull, drive_spare s input window directive left, Bool.eq_iff_iff]
  simp [Nat.sub_eq_zero_iff_le]

theorem drive_inputPos :
    (drive s input window directive).input.pos =
      input.pos + (Turn.ofStep s input.unread window.spare directive left).taken.length := by
  rw [drive_input, Input.pos_advance]
  simp [Turn.ofStep]

end Drive

/-! ## Courses -/

/-- The bytes that the codec took in some turns. -/
def takenBy (turns : List Turn) : List UInt8 := turns.flatMap Turn.taken

/-- The bytes that the codec made in some turns. -/
def madeBy (turns : List Turn) : List UInt8 := turns.flatMap Turn.made

@[simp] theorem takenBy_nil : takenBy [] = [] := rfl

@[simp] theorem takenBy_cons (t : Turn) (ts : List Turn) :
    takenBy (t :: ts) = t.taken ++ takenBy ts := rfl

@[simp] theorem takenBy_append (ts us : List Turn) :
    takenBy (ts ++ us) = takenBy ts ++ takenBy us := List.flatMap_append

@[simp] theorem madeBy_nil : madeBy [] = [] := rfl

@[simp] theorem madeBy_cons (t : Turn) (ts : List Turn) :
    madeBy (t :: ts) = t.made ++ madeBy ts := rfl

@[simp] theorem madeBy_append (ts us : List Turn) :
    madeBy (ts ++ us) = madeBy ts ++ madeBy us := List.flatMap_append

variable {σ : Type} [Codec σ]

/-- `Course s x turns s' y`: from state `s`, with the input `x` before it, the codec takes the
turns one after the other. Each is offered the front of what is left of the input. At the end the
state is `s'`, and `y` is left. -/
inductive Course : σ → List UInt8 → List Turn → σ → List UInt8 → Prop where
  | nil {s : σ} {x : List UInt8} : Course s x [] s x
  | cons {s s₁ s' : σ} {t : Turn} {turns : List Turn} {x y later : List UInt8}
      (split : x = t.offered ++ later) (first : t.Leads s s₁)
      (others : Course s₁ (t.rest ++ later) turns s' y) : Course s x (t :: turns) s' y

namespace Course

variable {s s₁ s' : σ} {x y z : List UInt8} {ts us : List Turn} {t : Turn}

/-- What has been taken and what is left make up the input. -/
theorem takenBy_append_eq (h : Course s x ts s' y) : takenBy ts ++ y = x := by
  induction h with
  | nil => rfl
  | cons split first others ih =>
    rw [takenBy_cons, List.append_assoc, ih, split, ← List.append_assoc]
    rfl

/-- Where there was no input, none is left. -/
theorem eq_nil_of_nil (h : Course s [] ts s' y) : y = [] :=
  (List.append_eq_nil_iff.1 h.takenBy_append_eq).2

theorem append (h : Course s x ts s₁ y) (h' : Course s₁ y us s' z) : Course s x (ts ++ us) s' z := by
  induction h with
  | nil => exact h'
  | cons split first others ih => exact .cons split first (ih h')

theorem single {later : List UInt8} (h : t.Leads s s') :
    Course s (t.offered ++ later) [t] s' (t.rest ++ later) :=
  .cons rfl h .nil

/-- The first turn may be offered all of the input. -/
theorem cons_whole (h : t.Leads s s₁) (h' : Course s₁ t.rest ts s' y) :
    Course s t.offered (t :: ts) s' y := by
  have hsplit : t.offered = t.offered ++ [] := (List.append_nil _).symm
  refine .cons hsplit h ?_
  rw [List.append_nil]
  exact h'

/-- A driven step, and then turns over what it has left. -/
theorem cons_drive {input : Input} {window : Window} {directive : Directive} {left : Nat}
    (hres : (drive s input window directive).result = .ok left)
    (h : Course (drive s input window directive).codec
      (drive s input window directive).input.unread ts s' y) :
    Course s input.unread (.ofStep s input.unread window.spare directive left :: ts) s' y := by
  have hcourse := cons_whole (Turn.leads_ofStep hres) h
  rw [Turn.offered_ofStep] at hcourse
  exact hcourse

/-- More input behind the one that is there changes nothing. -/
theorem weaken (h : Course s x ts s' y) (z : List UInt8) : Course s (x ++ z) ts s' (y ++ z) := by
  induction h with
  | nil => exact .nil
  | @cons s s₁ s' t turns x y later split first others ih =>
    have hsplit : x ++ z = t.offered ++ (later ++ z) := by rw [split, List.append_assoc]
    refine .cons hsplit first ?_
    rw [← List.append_assoc]
    exact ih

theorem nil_inv (h : Course s x [] s' y) : s = s' ∧ x = y := by
  cases h
  exact ⟨rfl, rfl⟩

theorem cons_inv (h : Course s x (t :: ts) s' y) :
    ∃ later s₁, x = t.offered ++ later ∧ t.Leads s s₁ ∧ Course s₁ (t.rest ++ later) ts s' y := by
  cases h with
  | cons split first others => exact ⟨_, _, split, first, others⟩

theorem append_inv (h : Course s x (ts ++ us) s' z) :
    ∃ s₁ y, Course s x ts s₁ y ∧ Course s₁ y us s' z := by
  induction ts generalizing s x with
  | nil => exact ⟨s, x, .nil, h⟩
  | cons t ts ih =>
    obtain ⟨later, s₁, split, first, others⟩ := h.cons_inv
    obtain ⟨s₂, y, hts, hus⟩ := ih others
    exact ⟨s₂, y, .cons split first hts, hus⟩

/-- The last turn of a course, apart from those before it. -/
theorem concat_inv (h : Course s x (ts ++ [t]) s' y) :
    ∃ s₁ later, Course s x ts s₁ (t.offered ++ later) ∧ t.Leads s₁ s' ∧ y = t.rest ++ later := by
  obtain ⟨s₁, z, hts, hlast⟩ := h.append_inv
  obtain ⟨later, s₂, rfl, hlead, hnil⟩ := hlast.cons_inv
  cases hnil
  exact ⟨s₁, later, hts, hlead, rfl⟩

end Course

end Sluice
