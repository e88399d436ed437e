import Sluice.Proofs.Session
import Sluice.Proofs.StoredData

/-!
# Conforming encoders

What the front ends ask of an encoder, so that they all get a frame out of it that decodes to their
data.

* `Making` — an encoder in the middle of a frame.
* `Conforming` — what it does there.
* `Conforming.session` — what a session makes, if it ends with the end of the frame.
* `Stored.conforming` — stored data is its own frame.
-/

namespace Sluice

variable {σ : Type} [Codec σ]

/-- Since `codec` was told the size of a frame, it has taken the turns over the front of `x`, and
none of them has ended the frame. It is in state `s` now, with `y` before it. -/
def Making (codec : σ) (x : List UInt8) (turns : List Turn) (s : σ) (y : List UInt8) : Prop :=
  ∃ size s₀, Codec.pledge codec size = (.ok (), s₀) ∧ Course s₀ x turns s y ∧
    ∀ t ∈ turns, ¬ t.EndsFrame

/-- An encoder that conforms to the decoding function `decode`. -/
structure Conforming (decode : List UInt8 → Option (List UInt8)) (codec : σ) : Prop where
  /-- input is left alone only if there is no room -/
  proceeds {x later : List UInt8} {turns : List Turn} {s s' : σ} {t : Turn} :
    Making codec x turns s (t.offered ++ later) → t.Leads s s' → t.directive = .proceed →
      t.made.length < t.room → t.rest = []
  /-- a flush or an end that is not complete has filled the room -/
  fills {x later : List UInt8} {turns : List Turn} {s s' : σ} {t : Turn} :
    Making codec x turns s (t.offered ++ later) → t.Leads s s' → t.directive ≠ .proceed →
      t.left ≠ 0 → t.made.length = t.room
  /-- one that is complete has taken all of the input -/
  completes {x later : List UInt8} {turns : List Turn} {s s' : σ} {t : Turn} :
    Making codec x turns s (t.offered ++ later) → t.Leads s s' → t.directive ≠ .proceed →
      t.left = 0 → t.rest = []
  /-- repeated right away, without input, it makes nothing and is complete again -/
  repeats {x later : List UInt8} {turns : List Turn} {s s₁ s₂ : σ} {t u : Turn} :
    Making codec x turns s (t.offered ++ later) → t.Leads s s₁ → t.directive ≠ .proceed →
      t.left = 0 → u.Leads s₁ s₂ → u.directive = t.directive → u.offered = [] →
        u.made = [] ∧ u.left = 0
  /-- what has been made when a frame ends decodes to what has been taken -/
  decodes {x later : List UInt8} {turns : List Turn} {s s' : σ} {t : Turn} :
    Making codec x turns s (t.offered ++ later) → t.Leads s s' → t.EndsFrame →
      decode (madeBy (turns ++ [t])) = some (takenBy (turns ++ [t]))

/-! ## In the middle of a frame -/

namespace Making

variable {codec s s' : σ} {x y z : List UInt8} {turns later : List Turn}

/-- A frame in which nothing has happened. -/
theorem start {size : Option Nat} (h : Codec.pledge codec size = (.ok (), s)) (x : List UInt8) :
    Making codec x [] s x :=
  ⟨size, s, h, .nil, by simp⟩

theorem takenBy_append_eq (h : Making codec x turns s y) : takenBy turns ++ y = x := by
  obtain ⟨size, s₀, -, hcourse, -⟩ := h
  exact hcourse.takenBy_append_eq

/-- More turns, over the front of what is left. -/
theorem course (h : Making codec x turns s y) (hcourse : Course s y later s' z)
    (hlater : ∀ t ∈ later, ¬ t.EndsFrame) : Making codec x (turns ++ later) s' z := by
  obtain ⟨size, s₀, hpledge, hturns, hnot⟩ := h
  refine ⟨size, s₀, hpledge, hturns.append hcourse, fun t ht => ?_⟩
  rcases List.mem_append.1 ht with ht | ht
  · exact hnot t ht
  · exact hlater t ht

/-- More input behind the one that is there. -/
theorem weaken (h : Making codec x turns s y) (z : List UInt8) :
    Making codec (x ++ z) turns s (y ++ z) := by
  obtain ⟨size, s₀, hpledge, hturns, hnot⟩ := h
  exact ⟨size, s₀, hpledge, hturns.weaken z, hnot⟩

/-- More input where there was none left. -/
theorem feed (h : Making codec x turns s []) (z : List UInt8) :
    Making codec (x ++ z) turns s z := h.weaken z

/-- An operation other than the end of the frame. -/
theorem effort {op : WriterOp} (h : Making codec x turns s []) (heffort : Effort op s later s')
    (hne : op ≠ .flush .frame) : Making codec (x ++ op.input) (turns ++ later) s' [] :=
  (h.feed op.input).course heffort.course (heffort.not_endsFrame hne)

/-- Operations none of which is the end of the frame. -/
theorem session {ops : List WriterOp} {made : List UInt8} (h : Making codec x turns s [])
    (hsession : Session s ops made s') (hne : .flush .frame ∉ ops) :
    ∃ later, Making codec (x ++ pushedBy ops) (turns ++ later) s' [] ∧ madeBy later = made := by
  induction hsession generalizing x turns with
  | nil =>
    refine ⟨[], ?_, rfl⟩
    rw [pushedBy_nil, List.append_nil, List.append_nil]
    exact h
  | @cons s s₁ s' op ops first made heffort others ih =>
    have hop : op ≠ .flush .frame := fun heq => hne (heq ▸ List.mem_cons_self)
    have hops : .flush .frame ∉ ops := fun hmem => hne (List.mem_cons_of_mem op hmem)
    obtain ⟨later, hmaking, rfl⟩ := ih (h.effort heffort hop) hops
    refine ⟨first ++ later, ?_, madeBy_append ..⟩
    rw [pushedBy_cons, ← List.append_assoc, ← List.append_assoc]
    exact hmaking

end Making

/-! ## The end of a frame -/

namespace Conforming

variable {decode : List UInt8 → Option (List UInt8)} {codec s s' : σ} {x y : List UInt8}
  {turns before : List Turn} {last : Turn}

/-- Turns of which the last is the first to end the frame: all of the input has been taken, and what
has been made decodes to it. -/
theorem ends (hC : Conforming decode codec) (h : Making codec x turns s y)
    (hcourse : Course s y (before ++ [last]) s' []) (hbefore : ∀ t ∈ before, ¬ t.EndsFrame)
    (hlast : last.EndsFrame) :
    decode (madeBy turns ++ madeBy (before ++ [last])) = some x := by
  obtain ⟨s₁, later, hfirst, hlead, hnil⟩ := hcourse.concat_inv
  have hmaking := h.course hfirst hbefore
  have htaken := hmaking.takenBy_append_eq
  have hdecodes := hC.decodes hmaking hlead hlast
  rw [takenBy_append] at hdecodes
  rw [← madeBy_append, ← List.append_assoc, hdecodes, ← htaken, Turn.offered, List.append_assoc,
    ← hnil]
  simp

/-- The end of the frame as an operation. -/
theorem effort_end (hC : Conforming decode codec) (h : Making codec x turns s [])
    {later : List Turn} (heffort : Effort (.flush .frame) s later s') :
    decode (madeBy turns ++ madeBy later) = some x := by
  obtain ⟨before, last, rfl, hbefore, hlast⟩ := heffort.end_inv
  exact hC.ends h heffort.course hbefore hlast

/-- Once the frame has ended, an end without input is complete at once and makes nothing. -/
theorem ended (hC : Conforming decode codec) (h : Making codec x turns s []) {t u : Turn}
    {after : List Turn} {z : List UInt8} (hcourse : Course s [] (before ++ t :: u :: after) s' z)
    (hbefore : ∀ t ∈ before, ¬ t.EndsFrame) (ht : t.EndsFrame) (hu : u.directive = .finish) :
    u.made = [] ∧ u.left = 0 := by
  obtain ⟨s₁, y, hfirst, hrest⟩ := hcourse.append_inv
  obtain ⟨later, s₂, rfl, hlead, hnext⟩ := hrest.cons_inv
  obtain ⟨later', s₃, hoffered, hlead', -⟩ := hnext.cons_inv
  have hmaking := h.course hfirst hbefore
  have hne : t.directive ≠ .proceed := by simp [ht.1]
  have hnil := hfirst.eq_nil_of_nil
  rw [Turn.offered, List.append_assoc] at hnil
  rw [(List.append_eq_nil_iff.1 hnil).2] at hoffered
  exact hC.repeats hmaking hlead hne ht.2 hlead' (hu.trans ht.1.symm)
    (List.append_eq_nil_iff.1 hoffered.symm).1

/-- What a session makes decodes to what has been pushed, if it ends with the only end of a frame in
it. -/
theorem session (hC : Conforming decode codec) {size : Option Nat} {ops : List WriterOp}
    {made : List UInt8} (hpledge : Codec.pledge codec size = (.ok (), s))
    (h : Session s (ops ++ [.flush .frame]) made s') (hne : .flush .frame ∉ ops) :
    decode made = some (pushedBy ops) := by
  obtain ⟨s₁, before, turns, hops, heffort, rfl⟩ := h.concat_inv
  obtain ⟨earlier, hmaking, rfl⟩ := (Making.start hpledge []).session hops hne
  exact hC.effort_end hmaking heffort

end Conforming

/-! ## Stored data -/

/-- Stored data decodes to itself. -/
theorem Stored.conforming : Conforming some Stored.stored where
  proceeds {x later turns s s' t} := by
    intro _ hlead _ hroom
    rw [Stored.made_eq_taken hlead, Stored.taken_eq hlead, List.length_take] at hroom
    rw [Stored.rest_eq hlead, List.drop_eq_nil_iff]
    omega
  fills {x later turns s s' t} := by
    intro _ hlead hdirective hleft
    have hdrop : t.offered.drop t.room ≠ [] := fun hnil =>
      hleft ((Stored.left_eq_zero hlead).2 ⟨hdirective, hnil⟩)
    rw [Ne, List.drop_eq_nil_iff] at hdrop
    rw [Stored.made_eq_taken hlead, Stored.taken_eq hlead, List.length_take]
    omega
  completes {x later turns s s' t} := by
    intro _ hlead _ hleft
    rw [Stored.rest_eq hlead]
    exact ((Stored.left_eq_zero hlead).1 hleft).2
  repeats {x later turns s s₁ s₂ t u} := by
    intro _ _ hdirective _ hlead hsame hoffered
    constructor
    · rw [Stored.made_eq_taken hlead, Stored.taken_eq hlead, hoffered, List.take_nil]
    · rw [Stored.left_eq_zero hlead, hsame, hoffered, List.drop_nil]
      exact ⟨hdirective, rfl⟩
  decodes {x later turns s s' t} := by
    rintro ⟨size, s₀, -, hcourse, -⟩ hlead _
    rw [Stored.madeBy_eq (hcourse.append (.single hlead))]

end Sluice
