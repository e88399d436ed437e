import Sluice.OneShot

/-!
# States that behave alike

Two states of a codec are alike if nothing that is ever done to them tells them apart: however the
steps, the announcements and the resets follow each other, both give the same answers. Whatever
drives a codec does the same with the one as with the other.

* `Bisimulation`, `Alike` — the same answers to everything, for good.
* `StartsAlike` — the same answers from the next announcement of a size on.
* `compressFrame_alike`, `decompressFrame_alike` — the same frame, or the same failure.
-/

namespace Sluice

variable {σ : Type} [Codec σ]

/-! ## Likeness -/

/-- Related states answer in the same way, and are related afterwards. -/
structure Bisimulation (R : σ → σ → Prop) : Prop where
  step {s t : σ} : R s t → ∀ unread room directive,
    let ofS := Codec.step s unread room directive
    let ofT := Codec.step t unread room directive
    ofS.taken = ofT.taken ∧ ofS.output = ofT.output ∧ ofS.result = ofT.result ∧
      R ofS.state ofT.state
  pledge {s t : σ} : R s t → ∀ size,
    (Codec.pledge s size).1 = (Codec.pledge t size).1 ∧
      R (Codec.pledge s size).2 (Codec.pledge t size).2
  reset {s t : σ} : R s t → R (Codec.reset s) (Codec.reset t)

/-- No state is related to another. -/
theorem Bisimulation.eq : Bisimulation (@Eq σ) where
  step := by
    rintro s _ rfl unread room directive
    exact ⟨rfl, rfl, rfl, rfl⟩
  pledge := by
    rintro s _ rfl size
    exact ⟨rfl, rfl⟩
  reset := congrArg Codec.reset

/-- What one relation takes for the same, and then another, is the same. -/
theorem Bisimulation.comp {R S : σ → σ → Prop} (hR : Bisimulation R) (hS : Bisimulation S) :
    Bisimulation fun s u => ∃ t, R s t ∧ S t u where
  step := by
    rintro s u ⟨t, hst, htu⟩ unread room directive
    obtain ⟨htaken, houtput, hresult, hstate⟩ := hR.step hst unread room directive
    obtain ⟨htaken', houtput', hresult', hstate'⟩ := hS.step htu unread room directive
    exact ⟨htaken.trans htaken', houtput.trans houtput', hresult.trans hresult', _, hstate, hstate'⟩
  pledge := by
    rintro s u ⟨t, hst, htu⟩ size
    exact ⟨(hR.pledge hst size).1.trans (hS.pledge htu size).1, _, (hR.pledge hst size).2,
      (hS.pledge htu size).2⟩
  reset := by
    rintro s u ⟨t, hst, htu⟩
    exact ⟨_, hR.reset hst, hS.reset htu⟩

/-- Nothing tells the two states apart. -/
def Alike (s t : σ) : Prop := ∃ R, Bisimulation R ∧ R s t

/-- Nothing that follows the announcement of a size tells the two states apart. -/
def StartsAlike (s t : σ) : Prop :=
  ∀ size, (Codec.pledge s size).1 = (Codec.pledge t size).1 ∧
    Alike (Codec.pledge s size).2 (Codec.pledge t size).2

namespace Alike

variable {s t u : σ}

theorem refl (s : σ) : Alike s s := ⟨Eq, .eq, rfl⟩

theorem trans : Alike s t → Alike t u → Alike s u
  | ⟨_, hR, hst⟩, ⟨_, hS, htu⟩ => ⟨_, hR.comp hS, t, hst, htu⟩

theorem pledge (h : Alike s t) : StartsAlike s t := by
  obtain ⟨R, hR, hst⟩ := h
  intro size
  exact ⟨(hR.pledge hst size).1, R, hR, (hR.pledge hst size).2⟩

/-- The same step between the same cursors. -/
theorem drive (h : Alike s t) (input : Input) (window : Window) (directive : Directive) :
    (drive t input window directive).result = (drive s input window directive).result ∧
    (drive t input window directive).input = (drive s input window directive).input ∧
    (drive t input window directive).window = (drive s input window directive).window ∧
    Alike (Sluice.drive s input window directive).codec
      (Sluice.drive t input window directive).codec := by
  obtain ⟨R, hR, hst⟩ := h
  obtain ⟨htaken, houtput, hresult, hstate⟩ := hR.step hst input.unread window.spare directive
  refine ⟨hresult.symm, ?_, ?_, R, hR, hstate⟩
  · rw [drive_input, drive_input, htaken]
  · rw [drive_window, drive_window, houtput]

end Alike

theorem StartsAlike.trans {s t u : σ} (h : StartsAlike s t) (h' : StartsAlike t u) :
    StartsAlike s u := fun size =>
  ⟨(h size).1.trans (h' size).1, (h size).2.trans (h' size).2⟩

/-! ## Whole frames -/

namespace Gathering

/-- The same input and the same blocks around states that are alike. -/
structure Alike (c d : Gathering σ) : Prop where
  codec : Sluice.Alike c.codec d.codec
  input : d.input = c.input
  blocks : d.blocks = c.blocks

variable {c d : Gathering σ}

theorem Alike.output (h : c.Alike d) : d.output = c.output := by
  rw [Gathering.output, Gathering.output, h.blocks]

theorem Alike.step (h : c.Alike d) (directive : Directive) :
    (d.step directive).1 = (c.step directive).1 ∧
      (c.step directive).2.Alike (d.step directive).2 := by
  obtain ⟨hresult, hinput, hwindow, hcodec⟩ :=
    h.codec.drive c.input c.blocks.active directive
  simp only [Gathering.step, h.input, h.blocks]
  exact ⟨hresult, hcodec, hinput, by rw [hwindow]⟩

/-- A step, taken apart on both sides. -/
theorem Alike.step_eq (h : c.Alike d) {directive : Directive} {result : Except Failure Nat}
    {c₁ : Gathering σ} (hstep : c.step directive = (result, c₁)) :
    ∃ d₁, d.step directive = (result, d₁) ∧ c₁.Alike d₁ := by
  obtain ⟨hresult, h₁⟩ := h.step directive
  rw [hstep] at hresult h₁
  exact ⟨(d.step directive).2, Prod.ext hresult rfl, h₁⟩

theorem Alike.run (h : c.Alike d) (directive : Directive) (done : Nat → Input → Bool → Bool)
    (limit : Nat) :
    (d.run directive done limit).1 = (c.run directive done limit).1 ∧
      (c.run directive done limit).2.Alike (d.run directive done limit).2 := by
  induction limit generalizing c d with
  | zero => exact ⟨rfl, h⟩
  | succ limit ih =>
    rcases hc : c.step directive with ⟨failure | left, c₁⟩ <;>
      obtain ⟨d₁, hd, h₁⟩ := h.step_eq hc <;>
      rw [Gathering.run, Gathering.run, hc, hd]
    · exact ⟨rfl, h₁⟩
    · dsimp only
      rw [h₁.input, h₁.blocks]
      split
      · exact ⟨rfl, h₁⟩
      · split
        · split
          · exact ⟨rfl, h₁⟩
          · exact ih ⟨h₁.codec, rfl, rfl⟩
        · exact ih h₁

theorem Alike.decode (h : c.Alike d) (limit : Nat) :
    (d.decode limit).1 = (c.decode limit).1 ∧ (c.decode limit).2.Alike (d.decode limit).2 := by
  induction limit generalizing c d with
  | zero => exact ⟨rfl, h⟩
  | succ limit ih =>
    rcases hc : c.step (decodingDirective c.input) with ⟨failure | left | left, c₁⟩ <;>
      obtain ⟨d₁, hd, h₁⟩ := h.step_eq hc <;>
      rw [Gathering.decode, Gathering.decode, h.input, hc, hd]
    · exact ⟨rfl, h₁⟩
    · exact ⟨rfl, h₁⟩
    · dsimp only
      rw [h₁.input, h₁.blocks]
      split
      · exact ih h₁
      · split
        · -- the one more step that has to report the end
          rcases hc₁ : c₁.step (decodingDirective c₁.input) with ⟨failure | left | left, c₂⟩ <;>
            obtain ⟨d₂, hd₁, h₂⟩ := h₁.step_eq hc₁ <;>
            rw [hd₁]
          · exact ⟨congrArg (fun b : BlockList => Except.error (Failure.codec (excessText b.allocated)))
              h₂.blocks, h₂⟩
          · exact ⟨rfl, h₂⟩
          · exact ⟨congrArg (fun b : BlockList => Except.error (Failure.codec (excessText b.allocated)))
              h₂.blocks, h₂⟩
        · split
          · exact ⟨rfl, h₁⟩
          · exact ih ⟨h₁.codec, rfl, rfl⟩

end Gathering

theorem compressFrame_alike {s t : σ} (h : StartsAlike s t) (limit : Nat) (bytes : List UInt8) :
    (compressFrame limit t bytes).1 = (compressFrame limit s bytes).1 ∧
      Alike (compressFrame limit s bytes).2 (compressFrame limit t bytes).2 := by
  obtain ⟨hanswer, halike⟩ := h (some bytes.length)
  rcases hs : Codec.pledge s (some bytes.length) with ⟨failure | ⟨⟩, s₁⟩ <;>
    rcases ht : Codec.pledge t (some bytes.length) with ⟨answer, t₁⟩ <;>
    rw [hs, ht] at hanswer halike <;>
    obtain rfl : answer = _ := hanswer.symm <;>
    rw [compressFrame, compressFrame, hs, ht]
  · exact ⟨rfl, halike⟩
  · have hstart : (Gathering.start s₁ bytes none).Alike (.start t₁ bytes none) :=
      ⟨halike, rfl, rfl⟩
    obtain ⟨hresult, hend⟩ := hstart.run .finish (fun left _ _ => left == 0) limit
    dsimp only
    rw [hresult, hend.output]
    exact ⟨rfl, hend.codec⟩

theorem decompressFrame_alike {s t : σ} (h : Alike s t) (limit : Nat) (bytes : List UInt8)
    (maxOutput : Option Nat) :
    (decompressFrame limit t bytes maxOutput).1 = (decompressFrame limit s bytes maxOutput).1 := by
  have hstart : (Gathering.start s bytes maxOutput).Alike (.start t bytes maxOutput) := ⟨h, rfl, rfl⟩
  obtain ⟨hresult, hend⟩ := hstart.decode limit
  rw [decompressFrame, decompressFrame]
  dsimp only
  rw [hresult, hend.output]

end Sluice
