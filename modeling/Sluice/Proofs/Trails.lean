import Sluice.Proofs.Course
import Sluice.Proofs.Supply

/-!
# Trails

What a reader does to its source and to its codec, move by move, for every codec and every source,
and whether or not something goes wrong.

* `Move` — one thing that a reader does, with the bytes that it moves.
* `Thrifty` — the source is asked only while nothing is unread.
* `Trail` — moves one after the other.
* `Trail.conserves`, `Trail.bounded` — no byte is lost or doubled on the way, and how many are held.
-/

namespace Sluice

variable {σ : Type} [Codec σ]

/-! ## Moves -/

/-- One thing that a reader does to its source or to its codec. -/
inductive Move where
  /-- the source gave `got` while `held` was unread -/
  | pull (held got : List UInt8)
  /-- the source failed while `held` was unread -/
  | refused (held : List UInt8)
  /-- the codec took a turn -/
  | turn (t : Turn)
  /-- a step of the codec failed -/
  | broken
  /-- the codec was told that the size is unknown -/
  | pledge

namespace Move

/-- The bytes that the source gave. -/
def pulled : Move → List UInt8
  | pull _ got => got
  | _ => []

/-- The turn that the codec took. -/
def turns : Move → List Turn
  | turn t => [t]
  | _ => []

/-- The source is asked only while nothing is unread. -/
def Frugal : Move → Prop
  | pull held _ | refused held => held = []
  | _ => True

/-- The source is asked. -/
def Asks : Move → Prop
  | pull .. | refused _ => True
  | _ => False

/-- Nothing is made. A step that fails may have made something. -/
def Idle : Move → Prop
  | turn t => t.made = []
  | broken => False
  | _ => True

theorem Asks.turns {m : Move} (h : m.Asks) : m.turns = [] := by
  cases m with
  | turn t => exact h.elim
  | _ => rfl

theorem Asks.idle {m : Move} (h : m.Asks) : m.Idle := by
  cases m with
  | pull | refused => trivial
  | _ => exact h.elim

end Move

/-- The bytes that the source gave in some moves. -/
def pulledBy (moves : List Move) : List UInt8 := moves.flatMap Move.pulled

/-- The turns that the codec took in some moves. -/
def turnsOf (moves : List Move) : List Turn := moves.flatMap Move.turns

@[simp] theorem pulledBy_cons (m : Move) (moves : List Move) :
    pulledBy (m :: moves) = m.pulled ++ pulledBy moves := rfl

@[simp] theorem turnsOf_nil : turnsOf [] = [] := rfl

@[simp] theorem turnsOf_cons (m : Move) (moves : List Move) :
    turnsOf (m :: moves) = m.turns ++ turnsOf moves := rfl

@[simp] theorem turnsOf_append (moves later : List Move) :
    turnsOf (moves ++ later) = turnsOf moves ++ turnsOf later := List.flatMap_append

/-- A turn with input and room does something. -/
def Turn.Advances (t : Turn) : Prop := t.offered ≠ [] → 0 < t.room → t.taken ≠ [] ∨ t.made ≠ []

/-- Moves that ask the source only while nothing is unread, if all their turns do something. -/
def Thrifty (moves : List Move) : Prop :=
  (∀ t ∈ turnsOf moves, t.Advances) → ∀ m ∈ moves, m.Frugal

theorem Thrifty.nil : Thrifty [] := fun _ _ hm => absurd hm List.not_mem_nil

theorem Thrifty.append {moves later : List Move} (h : Thrifty moves) (h' : Thrifty later) :
    Thrifty (moves ++ later) := by
  intro hadvances m hm
  simp only [turnsOf_append, List.mem_append] at hadvances
  rcases List.mem_append.1 hm with hm | hm
  · exact h (fun t ht => hadvances t (.inl ht)) m hm
  · exact h' (fun t ht => hadvances t (.inr ht)) m hm

theorem Thrifty.single {m : Move} (h : m.Frugal) : Thrifty [m] := by
  intro _ m' hm
  rwa [List.mem_singleton.1 hm]

theorem Thrifty.turn (t : Turn) : Thrifty [.turn t] := .single (m := .turn t) trivial

/-! ## Trails -/

/-- Where a reader is in its work: the state of its codec, its source, and the bytes it holds. -/
structure Place (σ : Type) where
  codec : σ
  source : Source
  held : List UInt8

/-- `m.Leads size p p'`: the move `m` leads from one place to the other, if `size` bytes at a time are
asked of the source. -/
inductive Move.Leads (size : Nat) : Move → Place σ → Place σ → Prop where
  | pull {s : σ} {source source' : Source} {held got : List UInt8}
      (gives : source.pull size = (.ok got, source')) :
      Leads size (.pull held got) ⟨s, source, held⟩ ⟨s, source', held ++ got⟩
  | refused {s : σ} {source source' : Source} {held : List UInt8} {failure : Failure}
      (fails : source.pull size = (.error failure, source')) :
      Leads size (.refused held) ⟨s, source, held⟩ ⟨s, source', held⟩
  | turn {s s' : σ} {source : Source} {t : Turn} (leads : t.Leads s s') :
      Leads size (.turn t) ⟨s, source, t.offered⟩ ⟨s', source, t.rest⟩
  | broken {s : σ} {source : Source} {held : List UInt8} {room : Nat} {directive : Directive}
      {failure : Failure} (fails : (Codec.step s held room directive).result = .error failure) :
      Leads size .broken ⟨s, source, held⟩ ⟨(Codec.step s held room directive).state, source, held⟩
  | pledge {s : σ} {source : Source} {held : List UInt8} :
      Leads size .pledge ⟨s, source, held⟩ ⟨(Codec.pledge s none).2, source, held⟩

/-- `Trail size p moves p'`: the moves lead from one place to the other. -/
inductive Trail (size : Nat) : Place σ → List Move → Place σ → Prop where
  | nil {p : Place σ} : Trail size p [] p
  | cons {p p₁ p' : Place σ} {m : Move} {moves : List Move} (first : m.Leads size p p₁)
      (others : Trail size p₁ moves p') : Trail size p (m :: moves) p'

namespace Move.Leads

variable {size : Nat} {m : Move} {p p' : Place σ}

/-- One move loses nothing of what is held and of what is pulled. -/
theorem conserves (h : m.Leads size p p') :
    p.held ++ m.pulled = takenBy m.turns ++ p'.held := by
  cases h with
  | pull => rfl
  | refused => exact List.append_nil _
  | @turn s s' source t leads =>
    change t.offered ++ [] = t.taken ++ [] ++ t.rest
    rw [List.append_nil, List.append_nil, Turn.offered]
  | broken => exact List.append_nil _
  | pledge => exact List.append_nil _

/-- What the source has given is gone from it. -/
theorem content (h : m.Leads size p p') :
    p.source.content = m.pulled ++ p'.source.content := by
  cases h with
  | pull gives => exact Source.content_pull gives
  | refused fails => exact (Source.content_pull_error fails).symm
  | turn leads => rfl
  | broken => rfl
  | pledge => rfl

/-- As long as the source is asked only while nothing is unread, a move leaves no more bytes held
than there were, or than the source gives at a time. -/
theorem bounded (h : m.Leads size p p') (hm : m.Frugal) :
    p'.held.length ≤ max size p.held.length := by
  cases h with
  | pull gives =>
    obtain rfl : _ = [] := hm
    exact Nat.le_trans (Source.length_pull gives) (Nat.le_max_left ..)
  | refused => exact Nat.le_max_right ..
  | @turn s s' source t leads =>
    have hlength : t.offered.length = t.taken.length + t.rest.length := List.length_append
    dsimp only
    omega
  | broken => exact Nat.le_max_right ..
  | pledge => exact Nat.le_max_right ..

end Move.Leads

namespace Trail

variable {size : Nat} {p p₁ p' : Place σ} {moves later : List Move}

theorem append (h : Trail size p moves p₁) (h' : Trail size p₁ later p') :
    Trail size p (moves ++ later) p' := by
  induction h with
  | nil => exact h'
  | cons first others ih => exact .cons first (ih h')

theorem single {m : Move} (h : m.Leads size p p') : Trail size p [m] p' := .cons h .nil

/-- What was held and what has been pulled is what the codec has taken and what is held now. -/
theorem conserves (h : Trail size p moves p') :
    p.held ++ pulledBy moves = takenBy (turnsOf moves) ++ p'.held := by
  induction h with
  | nil => exact List.append_nil _
  | @cons p p₁ p' m moves first others ih =>
    rw [pulledBy_cons, turnsOf_cons, takenBy_append, ← List.append_assoc, first.conserves,
      List.append_assoc, ih, List.append_assoc]

/-- What the source has given is gone from it. -/
theorem content (h : Trail size p moves p') :
    p.source.content = pulledBy moves ++ p'.source.content := by
  induction h with
  | nil => rfl
  | cons first others ih => rw [pulledBy_cons, first.content, ih, List.append_assoc]

/-- How many bytes are held at the end of frugal moves. -/
theorem bounded (h : Trail size p moves p') (hmoves : ∀ m ∈ moves, m.Frugal) :
    p'.held.length ≤ max size p.held.length := by
  induction h with
  | nil => exact Nat.le_max_right ..
  | @cons p p₁ p' m moves first others ih =>
    have hfirst := first.bounded (hmoves m List.mem_cons_self)
    have hothers := ih fun m' hm' => hmoves m' (List.mem_cons_of_mem m hm')
    omega

end Trail

end Sluice
