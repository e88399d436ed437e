import Sluice.Deflate.Codec
import Sluice.Proofs.Course
import Sluice.Zstd.Codec

/-!
# Framing

What a format's encoder is relied on for, and what the codecs over it do with it.

* `Framing` — an encoder that has been called this way and that since it was between two frames.
* `FramesWell` — it fills no more than the room it gets, and what it has made when it ends a frame
  decodes to what it has taken for it.
* `Packs` — a codec that opens a frame with its first real step and skips ends of frames that are
  not open.
* `FrameMaking`, `Packs.frameMaking` — frame by frame, such a codec makes what it has taken.
-/

namespace Sluice

/-! ## Encoders of a format -/

section Framing

variable {φ : Type} [Framer φ]

/-- `Framing f₀ f emitted fed`: from the encoder `f₀`, which stood between two frames, calls have
led to `f`. They have made `emitted` of `fed`, and none of them has ended the frame. -/
inductive Framing (f₀ : φ) : φ → List UInt8 → List UInt8 → Prop where
  | start : Framing f₀ f₀ [] []
  | pledged {size : Option Nat} {f : φ} (pledge : Framer.pledge f₀ size = (.ok (), f)) :
      Framing f₀ f [] []
  | compress {f : φ} {emitted fed unread : List UInt8} {room left : Nat} {directive : Directive}
      (before : Framing f₀ f emitted fed)
      (result : (Framer.compress f unread room directive).result = .ok left)
      (unended : ¬ (directive = .finish ∧ left = 0)) :
      Framing f₀ (Framer.compress f unread room directive).state
        (emitted ++ (Framer.compress f unread room directive).output)
        (fed ++ unread.take (Framer.compress f unread room directive).taken)

/-- What is relied on of an encoder whose states between two frames are `Ready`. -/
structure FramesWell (Ready : φ → Prop) (Decodes : List UInt8 → List UInt8 → Prop) : Prop where
  length_compress_le {f₀ f : φ} {emitted fed unread : List UInt8} {room : Nat}
    {directive : Directive} : Ready f₀ → Framing f₀ f emitted fed →
      (Framer.compress f unread room directive).output.length ≤ room
  /-- a frame that has been ended decodes to what has been taken for it, and a reset gets behind it -/
  ended {f₀ f : φ} {emitted fed unread : List UInt8} {room : Nat} :
    Ready f₀ → Framing f₀ f emitted fed →
      (Framer.compress f unread room .finish).result = .ok 0 →
        Decodes (emitted ++ (Framer.compress f unread room .finish).output)
            (fed ++ unread.take (Framer.compress f unread room .finish).taken) ∧
          Ready (Framer.reset (Framer.compress f unread room .finish).state)

/-! ## Codecs over an encoder -/

/-- A codec over an encoder that knows whether a frame is open. It skips the end of a frame that is
not. In all other steps it calls the encoder once, and opens a frame, or ends one. -/
structure Packs {σ : Type} [Codec σ] (framer : σ → φ) (frameOpen : σ → Bool) : Prop where
  pledge {s s' : σ} {size : Option Nat} : Codec.pledge s size = (.ok (), s') →
    frameOpen s' = true ∧
      (framer s' = framer s ∨ Framer.pledge (framer s) size = (.ok (), framer s'))
  skip {s : σ} {room : Nat} : frameOpen s = false →
    Codec.step s [] room .finish = ⟨0, [], s, .ok 0⟩
  step {s : σ} {unread : List UInt8} {room left : Nat} {directive : Directive} :
    frameOpen s = true ∨ directive ≠ .finish →
      (Codec.step s unread room directive).result = .ok left →
        ∃ number, (Framer.compress (framer s) unread room directive).result = .ok number ∧
          (Codec.step s unread room directive).taken =
            (Framer.compress (framer s) unread room directive).taken ∧
          (Codec.step s unread room directive).output =
            (Framer.compress (framer s) unread room directive).output ∧
          (directive = .finish → (left = 0 ↔ number = 0)) ∧
          framer (Codec.step s unread room directive).state =
            (if directive = .finish ∧ left = 0 then
              Framer.reset (Framer.compress (framer s) unread room directive).state
            else (Framer.compress (framer s) unread room directive).state) ∧
          frameOpen (Codec.step s unread room directive).state =
            !decide (directive = .finish ∧ left = 0)

/-- Only the end of a frame that is not open is skipped. -/
theorem not_skipped {frameOpen : Bool} {directive : Directive} {unread : List UInt8}
    (h : frameOpen = true ∨ directive ≠ .finish) :
    ¬ (directive = .finish ∧ (!frameOpen) = true ∧ unread.isEmpty = true) := by
  rintro ⟨hfinish, hclosed, -⟩
  rcases h with hopen | hne
  · simp [hopen] at hclosed
  · exact hne hfinish

theorem Zstd.Packer.packs :
    Packs (Zstd.Packer.framer : Zstd.Packer φ → φ) Zstd.Packer.frameOpen where
  pledge {s s' size} := by
    intro h
    change Zstd.Packer.pledge s size = _ at h
    unfold Zstd.Packer.pledge at h
    split at h
    · next framer hpledge =>
      cases h
      exact ⟨rfl, .inr hpledge⟩
    · cases h
  skip {s room} := by
    intro h
    change Zstd.Packer.step s [] room .finish = _
    rw [Zstd.Packer.step, if_pos (by simp [h])]
  step {s unread room left directive} := by
    intro hopen
    have hstep : Codec.step s unread room directive = s.step unread room directive := rfl
    rw [hstep, Zstd.Packer.step, if_neg (not_skipped hopen)]
    generalize Framer.compress s.framer unread room directive = run
    obtain ⟨taken, output, state, text | number⟩ := run
    · intro h
      cases h
    · by_cases hproceed : directive = .proceed
      · subst hproceed
        intro _
        exact ⟨number, rfl, rfl, rfl, by simp, by simp, by simp⟩
      · by_cases hended : directive = .finish ∧ number = 0
        · obtain ⟨rfl, rfl⟩ := hended
          intro h
          obtain rfl : 0 = left := Except.ok.inj h
          exact ⟨0, rfl, rfl, rfl, by simp, by simp, by simp⟩
        · simp only [if_neg hproceed, if_neg hended]
          intro h
          obtain rfl : number = left := Except.ok.inj h
          exact ⟨number, rfl, trivial, trivial, by simp, by simp [hended], by simp [hended]⟩

theorem Deflate.Packer.packs :
    Packs (Deflate.Packer.framer : Deflate.Packer φ → φ) Deflate.Packer.frameOpen where
  pledge {s s' size} := by
    intro h
    cases h
    exact ⟨rfl, .inl rfl⟩
  skip {s room} := by
    intro h
    change Deflate.Packer.step s [] room .finish = _
    rw [Deflate.Packer.step, if_pos (by simp [h])]
  step {s unread room left directive} := by
    intro hopen
    have hstep : Codec.step s unread room directive = s.step unread room directive := rfl
    rw [hstep, Deflate.Packer.step, if_neg (not_skipped hopen)]
    generalize Framer.compress s.framer unread room directive = run
    obtain ⟨taken, output, state, text | number⟩ := run
    · intro h
      cases h
    · cases directive with
      | proceed =>
        intro _
        exact ⟨number, rfl, rfl, rfl, by simp, by simp, by simp⟩
      | flush =>
        intro _
        exact ⟨number, rfl, rfl, rfl, by simp, by simp, by simp⟩
      | finish =>
        by_cases hzero : number = 0
        · subst hzero
          intro h
          obtain rfl : 0 = left := Except.ok.inj h
          exact ⟨0, rfl, rfl, rfl, by simp, by simp, by simp⟩
        · simp only [if_neg hzero]
          intro h
          obtain rfl : 1 = left := Except.ok.inj h
          exact ⟨number, rfl, trivial, trivial, by simp [hzero], by simp, by simp⟩

/-! ## Frame by frame -/

/-- A codec that makes frames. Its states are `Idle` between two frames. With `Open s emitted fed`,
it has made `emitted` of `fed` since it has opened a frame, which it has not ended yet. -/
structure FrameMaking {σ : Type} [Codec σ] (Decodes : List UInt8 → List UInt8 → Prop)
    (Idle : σ → Prop) (Open : σ → List UInt8 → List UInt8 → Prop) : Prop where
  pledge {s s' : σ} {size : Option Nat} : Idle s → Codec.pledge s size = (.ok (), s') → Open s' [] []
  /-- whatever a codec is asked for opens a frame, but for the end of one -/
  opens {s s' : σ} {t : Turn} : Idle s → t.directive ≠ .finish → t.Leads s s' →
    Open s' t.made t.taken
  continues {s s' : σ} {t : Turn} {emitted fed : List UInt8} : Open s emitted fed → t.Leads s s' →
    ¬ t.EndsFrame → Open s' (emitted ++ t.made) (fed ++ t.taken)
  ends {s s' : σ} {t : Turn} {emitted fed : List UInt8} : Open s emitted fed → t.Leads s s' →
    t.EndsFrame → Decodes (emitted ++ t.made) (fed ++ t.taken) ∧ Idle s'
  /-- nothing is made for a frame that has not been opened -/
  rests {s s' : σ} {t : Turn} : Idle s → t.directive = .finish → t.offered = [] → t.Leads s s' →
    t.left = 0 ∧ t.made = [] ∧ Idle s'

namespace Packs

variable {σ : Type} [Codec σ] {framer : σ → φ} {frameOpen : σ → Bool} {Ready : φ → Prop}
  {Decodes : List UInt8 → List UInt8 → Prop}

/-- A step that is not skipped goes on with a frame, or ends it. -/
theorem turn (hP : Packs framer frameOpen) (hW : FramesWell Ready Decodes) {s s' : σ}
    {t : Turn} {f₀ : φ} {emitted fed : List UInt8} (h₀ : Ready f₀)
    (hframing : Framing f₀ (framer s) emitted fed)
    (hopen : frameOpen s = true ∨ t.directive ≠ .finish) (h : t.Leads s s') :
    if t.EndsFrame then
      Decodes (emitted ++ t.made) (fed ++ t.taken) ∧ Ready (framer s') ∧ frameOpen s' = false
    else Framing f₀ (framer s') (emitted ++ t.made) (fed ++ t.taken) ∧ frameOpen s' = true := by
  obtain ⟨number, hnumber, htaken, houtput, hzero, hframer, hopen'⟩ := hP.step hopen h.result
  have hle : (Framer.compress (framer s) t.offered t.room t.directive).output.length ≤ t.room :=
    hW.length_compress_le h₀ hframing
  rw [h.state] at hframer hopen'
  rw [h.made, h.taken, houtput, htaken, List.take_of_length_le hle]
  by_cases hend : t.EndsFrame
  · have ⟨hfinish, hleft⟩ := hend
    obtain rfl := (hzero hfinish).1 hleft
    rw [if_pos hend, hframer, if_pos ⟨hfinish, hleft⟩]
    rw [hfinish] at hnumber ⊢
    obtain ⟨hdecodes, hready⟩ := hW.ended h₀ hframing hnumber
    exact ⟨hdecodes, hready, by simpa [hfinish, hleft] using hopen'⟩
  · have hgoes : ¬ (t.directive = .finish ∧ number = 0) :=
      fun hended => hend ⟨hended.1, (hzero hended.1).2 hended.2⟩
    have hleft : ¬ (t.directive = .finish ∧ t.left = 0) := hend
    rw [if_neg hend, hframer, if_neg hleft, hopen', decide_eq_false hleft]
    exact ⟨.compress hframing hnumber hgoes, rfl⟩

/-- Such a codec makes frames. -/
theorem frameMaking (hP : Packs framer frameOpen) (hW : FramesWell Ready Decodes) :
    FrameMaking Decodes (fun s => Ready (framer s) ∧ frameOpen s = false) fun s emitted fed =>
      frameOpen s = true ∧ ∃ f₀, Ready f₀ ∧ Framing f₀ (framer s) emitted fed where
  pledge {s s' size} := by
    rintro ⟨hready, -⟩ h
    obtain ⟨hopen, heq | hpledge⟩ := hP.pledge h
    · exact ⟨hopen, framer s, hready, heq ▸ .start⟩
    · exact ⟨hopen, framer s, hready, .pledged hpledge⟩
  opens {s s' t} := by
    rintro ⟨hready, -⟩ hne h
    have hturn := hP.turn hW hready .start (.inr hne) h
    rw [if_neg fun hend => hne hend.1, List.nil_append, List.nil_append] at hturn
    exact ⟨hturn.2, framer s, hready, hturn.1⟩
  continues {s s' t emitted fed} := by
    rintro ⟨hopen, f₀, hready, hframing⟩ h hend
    have hturn := hP.turn hW hready hframing (.inl hopen) h
    rw [if_neg hend] at hturn
    exact ⟨hturn.2, f₀, hready, hturn.1⟩
  ends {s s' t emitted fed} := by
    rintro ⟨hopen, f₀, hready, hframing⟩ h hend
    have hturn := hP.turn hW hready hframing (.inl hopen) h
    rw [if_pos hend] at hturn
    exact hturn
  rests {s s' t} := by
    rintro ⟨hready, hclosed⟩ hfinish hoffered h
    have hstep : Codec.step s [] t.room .finish = _ := hP.skip hclosed
    have hresult := h.result
    have hstate := h.state
    have hmade := h.made
    rw [hfinish, hoffered, hstep] at hresult hstate hmade
    rw [List.take_nil] at hmade
    exact ⟨(Except.ok.inj hresult).symm, hmade, hstate ▸ ⟨hready, hclosed⟩⟩

end Packs

end Framing

end Sluice
