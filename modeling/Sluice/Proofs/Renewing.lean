import Sluice.Deflate.Decoder
import Sluice.Deflate.Encoder
import Sluice.Proofs.Conforming
import Sluice.Proofs.FrameDecoders
import Sluice.Proofs.FrameGroups
import Sluice.Proofs.Likeness
import Sluice.Zstd.Encoder

/-!
# Codecs that can be used again

One codec makes frame after frame, or decodes frame after frame. It may be used so if nothing of a
frame is left in it when the next one begins.

* `Renews` — an encoder that has ended a frame is like a fresh one from the next announcement on.
* `Resets` — a decoder that has been reset is like a fresh one.
* `Packs.renews` — the codecs over a format's encoder renew themselves if the encoder can be reset.
* `FrameDecoder.resets` — the codec of an automaton can be reset if the automaton can.
-/

namespace Sluice

variable {σ : Type} [Codec σ] {fresh : σ}

/-! ## Encoders -/

/-- Once it has ended a frame, an encoder is like a fresh one from the next announcement of a size
on. -/
def Renews (fresh : σ) : Prop :=
  ∀ {x later : List UInt8} {turns : List Turn} {s s' : σ} {t : Turn},
    Making fresh x turns s (t.offered ++ later) → t.Leads s s' → t.EndsFrame → StartsAlike fresh s'

/-- Stored data has no state. -/
theorem Stored.renews : Renews Stored.stored := fun _ _ _ => (Alike.refl _).pledge

/-- A codec over a format's encoder renews itself, if a reset at the end of a frame brings the
encoder back to where it has started. -/
theorem Packs.renews {φ : Type} [Framer φ] {framer : σ → φ} {frameOpen : σ → Bool}
    {Decodes : List UInt8 → List UInt8 → Prop} (hP : Packs framer frameOpen) (hW : FramesWell (· = framer fresh) Decodes)
    (hclosed : frameOpen fresh = false)
    (hfresh : ∀ s, framer s = framer fresh → frameOpen s = false → s = fresh) : Renews fresh := by
  rintro x later turns s s' t ⟨size, s₀, hpledge, hcourse, hturns⟩ hlead hend
  have hM := hP.frameMaking hW
  have hopen := hM.course hcourse (hM.pledge ⟨rfl, hclosed⟩ hpledge) hturns
  obtain ⟨-, hframer, hshut⟩ := hM.ends hopen hlead hend
  rw [hfresh s' hframer hshut]
  exact (Alike.refl fresh).pledge

/-- The codecs of both formats renew themselves. -/
theorem renews_of_framesWell {φ : Type} [Framer φ] {framer : φ}
    {Decodes : List UInt8 → List UInt8 → Prop} (hW : FramesWell (· = framer) Decodes) :
    Renews (Zstd.Packer.new framer) ∧ Renews (Deflate.Packer.new framer) := by
  constructor
  · refine Zstd.Packer.packs.renews hW rfl ?_
    rintro ⟨f, o⟩ rfl rfl
    rfl
  · refine Deflate.Packer.packs.renews hW rfl ?_
    rintro ⟨f, o⟩ rfl rfl
    rfl

/-! ## Byte encoders -/

/-- What holds of a byte encoder, whatever it is asked for, and is enough for a reset to bring it
back to a fresh one. -/
structure KeepsSettings {ε : Type} [ByteEncoder ε] (fresh : ε) (Kept : ε → Prop) : Prop where
  start : Kept fresh
  begin {e : ε} : Kept e → Kept (ByteEncoder.begin e)
  accept {e : ε} (byte : UInt8) : Kept e → Kept (ByteEncoder.accept e byte).2
  flush {e : ε} : Kept e → Kept (ByteEncoder.flush e).2
  finish {e : ε} : Kept e → Kept (ByteEncoder.finish e).2
  pledge {e : ε} (size : Option Nat) : Kept e → Kept (ByteEncoder.pledge e size).2
  reset {e : ε} : Kept e → ByteEncoder.reset e = fresh

namespace Outgoing

variable {ε : Type} [ByteEncoder ε] {fresh : ε} {Kept : ε → Prop}

theorem length_go_le (o : Outgoing ε) (unread : List UInt8) (room taken : Nat)
    (out : Array UInt8) : (o.go unread room taken out).output.length ≤ out.size + room := by
  have hready (o : Outgoing ε) (room : Nat) (out : Array UInt8) :
      (out ++ o.queue.take room).size = out.size + min room o.queue.length := by
    rw [← Array.length_toList, Array.toList_appendList, List.length_append, List.length_take,
      Array.length_toList]
  induction unread generalizing o room taken out with
  | nil =>
    simp only [go, List.splitAt_eq, Array.length_toList, hready]
    omega
  | cons byte rest ih =>
    rw [go]
    simp only [List.splitAt_eq]
    split
    · rw [Array.length_toList, hready]
      omega
    · split
      · refine Nat.le_trans (ih ..) ?_
        rw [hready, List.length_take]
        omega
      · rw [Array.length_toList, hready]
        omega

omit [ByteEncoder ε] in
theorem length_empty_le (o : Outgoing ε) (room : Nat)
    (request : ε → Except String (List UInt8) × ε) : (o.empty room request).output.length ≤ room := by
  simp only [empty, List.splitAt_eq]
  split
  · exact List.length_take_le ..
  · split
    · exact List.length_take_le ..
    · simp only [List.length_append, List.length_take]
      omega

theorem kept_go (hK : KeepsSettings fresh Kept) {o : Outgoing ε} (ho : Kept o.encoder)
    (unread : List UInt8) (room taken : Nat) (out : Array UInt8) :
    Kept (o.go unread room taken out).state.encoder := by
  induction unread generalizing o room taken out with
  | nil => exact ho
  | cons byte rest ih =>
    have haccept := hK.accept byte ho
    rw [go]
    dsimp only
    split
    · exact ho
    · split
      · next output encoder heq =>
        rw [heq] at haccept
        exact ih haccept ..
      · next text encoder heq =>
        rw [heq] at haccept
        exact haccept

omit [ByteEncoder ε] in
theorem kept_empty {o : Outgoing ε} (ho : Kept o.encoder) (room : Nat)
    {request : ε → Except String (List UInt8) × ε} (hrequest : Kept (request o.encoder).2) :
    Kept (o.empty room request).state.encoder := by
  simp only [empty]
  split
  · exact ho
  · split
    · next text encoder heq =>
      rw [heq] at hrequest
      exact hrequest
    · next output encoder heq =>
      rw [heq] at hrequest
      exact hrequest

/-- A run fills no more than its room, and keeps what holds of the encoder. -/
def Keeps (Kept : ε → Prop) (room : Nat) (run : Run (Outgoing ε)) : Prop :=
  run.output.length ≤ room ∧ Kept run.state.encoder

theorem keeps_run (hK : KeepsSettings fresh Kept) {o : Outgoing ε} (ho : Kept o.encoder)
    (unread : List UInt8) (room : Nat) : Keeps Kept room (o.run unread room) :=
  ⟨Nat.le_trans (length_go_le ..) (Nat.le_of_eq (Nat.zero_add room)), kept_go hK (hK.begin ho) ..⟩

theorem keeps_runThen (hK : KeepsSettings fresh Kept) {o : Outgoing ε} (ho : Kept o.encoder)
    (unread : List UInt8) (room : Nat) {request : ε → Except String (List UInt8) × ε}
    (hrequest : ∀ {e : ε}, Kept e → Kept (request e).2) :
    Keeps Kept room (o.runThen unread room request) := by
  have hfirst := keeps_run hK ho unread room
  simp only [runThen]
  split
  · exact hfirst
  · split
    · exact hfirst
    · obtain ⟨hlength, hkept⟩ := hfirst
      have hsecond := length_empty_le (o.run unread room).state
        (room - (o.run unread room).output.length) request
      refine ⟨?_, kept_empty hkept _ (hrequest hkept)⟩
      rw [List.length_append]
      omega

/-- A library that keeps its encoder's settings in every call can be reset at the end of a frame. -/
theorem framesWell [Framer (Outgoing ε)] (hK : KeepsSettings fresh Kept)
    (hcompress : ∀ {o : Outgoing ε} unread room directive, Kept o.encoder →
      Keeps Kept room (Framer.compress o unread room directive))
    (hpledge : ∀ (o : Outgoing ε) size, Framer.pledge o size = o.pledge size)
    (hreset : ∀ o : Outgoing ε, Framer.reset o = o.reset) :
    FramesWell (· = Outgoing.new fresh) fun _ _ => True := by
  have hkept : ∀ {f : Outgoing ε} {emitted fed : List UInt8},
      Framing (Outgoing.new fresh) f emitted fed → Kept f.encoder := by
    intro f emitted fed hframing
    induction hframing with
    | start => exact hK.start
    | @pledged size f pledge =>
      have hstate : f = ((Outgoing.new fresh).pledge size).2 := by rw [← hpledge, pledge]
      rw [hstate]
      exact hK.pledge size hK.start
    | compress before _ _ ih => exact (hcompress _ _ _ ih).2
  refine ⟨?_, ?_⟩
  · rintro f₀ f emitted fed unread room directive rfl hframing
    exact (hcompress _ _ _ (hkept hframing)).1
  · rintro f₀ f emitted fed unread room rfl hframing -
    rw [hreset]
    exact ⟨trivial, congrArg Outgoing.new (hK.reset (hcompress _ _ _ (hkept hframing)).2)⟩

end Outgoing

/-- The encoder of DEFLATE keeps whether blocks are only stored. -/
theorem Deflate.Encoder.keepsSettings (level : Int) :
    KeepsSettings (Encoder.new level) (fun e => e.plain = decide (level ≤ 0)) where
  start := rfl
  begin h := h
  accept {e} byte h := by
    change (Encoder.accept e byte).2.plain = _
    unfold Encoder.accept
    dsimp only
    split <;> exact h
  flush {e} h := by
    change (Encoder.flush e).2.plain = _
    exact h
  finish {e} h := by
    change (Encoder.finish e).2.plain = _
    unfold Encoder.finish
    split <;> exact h
  pledge _ h := h
  reset {e} h := by
    change (⟨e.plain, [], .empty, false⟩ : Encoder) = Encoder.new level
    rw [h, Encoder.new]

theorem Zstd.Encoder.style_begin (e : Encoder) : e.begin.style = e.style := by
  unfold begin
  split <;> rfl

theorem Zstd.Encoder.style_makeBlocks (e : Encoder) (last : Bool) :
    (e.makeBlocks last).2.style = e.style := by
  unfold makeBlocks
  dsimp only
  split
  · rfl
  · split <;> rfl

/-- The encoder of Zstandard keeps its style. -/
theorem Zstd.Encoder.keepsSettings (style : Style) :
    KeepsSettings (Encoder.new style) (·.style = style) where
  start := rfl
  begin {e} h := (style_begin e).trans h
  accept {e} byte h := by
    change (Encoder.accept e byte).2.style = _
    unfold Encoder.accept
    dsimp only
    split
    · exact h
    · exact (style_makeBlocks _ false).trans h
  flush {e} h := by
    change (Encoder.flush e).2.style = _
    unfold Encoder.flush
    dsimp only
    split
    · exact (style_begin e).trans h
    · exact ((style_makeBlocks _ false).trans (style_begin e)).trans h
  finish {e} h := by
    change (Encoder.finish e).2.style = _
    -- the frame that is ended before anything has been asked of it has the same style
    have hasked : (if e.progress = .idle then { e with progress := .open, size := some 0 }
        else e).style = style := by
      split <;> exact h
    unfold Encoder.finish
    split
    · exact h
    · have hblocks := (style_makeBlocks (if e.progress = .idle then
        { e with progress := .open, size := some 0 } else e) true).trans hasked
      dsimp only
      split
      · next heq =>
        rw [heq] at hblocks
        exact hblocks
      · next heq =>
        rw [heq] at hblocks
        split <;> exact hblocks
  pledge {e} size h := by
    change (Encoder.pledge e size).2.style = _
    unfold Encoder.pledge
    split <;> exact h
  reset h := congrArg Encoder.new h

theorem Deflate.Encoder.framesWell (level : Int) :
    FramesWell (· = Outgoing.new (Encoder.new level)) fun _ _ => True := by
  have hK := keepsSettings level
  refine Outgoing.framesWell hK (fun {o} unread room directive ho => ?_) (fun _ _ => rfl)
    (fun _ => rfl)
  cases directive with
  | proceed => exact Outgoing.keeps_run hK ho ..
  | flush =>
    simp only [Framer.compress]
    split
    · exact Outgoing.keeps_run hK ho ..
    · exact Outgoing.keeps_runThen hK ho _ _ hK.flush
  | finish => exact Outgoing.keeps_runThen hK ho _ _ hK.finish

theorem Zstd.Encoder.keeps_takeThen {fresh : Encoder} {Kept : Encoder → Prop}
    (hK : KeepsSettings fresh Kept) {o : Outgoing Encoder} (ho : Kept o.encoder)
    (unread : List UInt8) (room : Nat) {request : Encoder → Except String (List UInt8) × Encoder}
    (hrequest : ∀ {e : Encoder}, Kept e → Kept (request e).2) :
    Outgoing.Keeps Kept room (takeThen o unread room request) := by
  unfold takeThen
  split
  · exact ⟨Outgoing.length_empty_le .., Outgoing.kept_empty ho room (hrequest ho)⟩
  · exact Outgoing.keeps_runThen hK ho unread room hrequest

theorem Zstd.Encoder.framesWell (style : Style) :
    FramesWell (· = Outgoing.new (Encoder.new style)) fun _ _ => True := by
  have hK := keepsSettings style
  refine Outgoing.framesWell hK (fun {o} unread room directive ho => ?_) (fun _ _ => rfl)
    (fun _ => rfl)
  cases directive with
  | proceed => exact Outgoing.keeps_run hK ho ..
  | flush => exact keeps_takeThen hK ho _ _ hK.flush
  | finish => exact keeps_takeThen hK ho _ _ hK.finish

/-- The encoders of the library renew themselves. -/
theorem Deflate.Packer.renews (level : Int) :
    Renews (Deflate.Packer.new (Outgoing.new (Deflate.Encoder.new level))) :=
  (renews_of_framesWell (Encoder.framesWell level)).2

theorem Zstd.Packer.renews (style : Style) :
    Renews (Zstd.Packer.new (Outgoing.new (Zstd.Encoder.new style))) :=
  (renews_of_framesWell (Encoder.framesWell style)).1

/-! ## Decoders -/

/-- The states that a codec can be brought to. -/
inductive Reached (fresh : σ) : σ → Prop
  | start : Reached fresh fresh
  | step {s : σ} (unread : List UInt8) (room : Nat) (directive : Directive) : Reached fresh s →
    Reached fresh (Codec.step s unread room directive).state
  | pledge {s : σ} (size : Option Nat) : Reached fresh s → Reached fresh (Codec.pledge s size).2
  | reset {s : σ} : Reached fresh s → Reached fresh (Codec.reset s)

/-- Whatever has been done to it, a codec that has been reset is like a fresh one. -/
def Resets (fresh : σ) : Prop := ∀ s, Reached fresh s → Alike fresh (Codec.reset s)

theorem Reached.gathered {c c₁ : Gathering σ} {directive : Directive} {result : Except Failure Nat}
    (h : Reached fresh c.codec) (hstep : c.step directive = (result, c₁)) :
    Reached fresh c₁.codec := by
  obtain ⟨-, rfl⟩ := Prod.mk.inj hstep
  exact h.step _ _ _

/-- Decoding brings a codec only to states that steps bring it to. -/
theorem Reached.decode {c : Gathering σ} (h : Reached fresh c.codec) (limit : Nat) :
    Reached fresh (c.decode limit).2.codec := by
  induction limit generalizing c with
  | zero => exact h
  | succ limit ih =>
    rw [Gathering.decode]
    split
    · next failure c₁ hstep => exact h.gathered hstep
    · next c₁ hstep => exact h.gathered hstep
    · next left c₁ hstep =>
      have h₁ := h.gathered hstep
      split
      · exact ih h₁
      · split
        · split
          · next c₂ hstep₁ => exact h₁.gathered hstep₁
          · next result c₂ _ hstep₁ => exact h₁.gathered hstep₁
        · split
          · exact h₁
          · exact ih h₁

theorem Reached.decompressFrame {s : σ} (h : Reached fresh s) (limit : Nat) (bytes : List UInt8)
    (maxOutput : Option Nat) : Reached fresh (decompressFrame limit s bytes maxOutput).2 :=
  @Reached.decode σ _ fresh (.start s bytes maxOutput) h limit

namespace FrameDecoder

variable {δ : Type} [FrameAutomaton δ] {automaton : δ} {pace : Option Nat} {Kept : δ → Prop}

/-- What holds of an automaton, whatever it is fed, holds of it in the codec. -/
theorem kept_go (hfeed : ∀ {d next byte output}, Kept d →
      (ByteDecoder.feed d byte = .more next output ∨ ByteDecoder.feed d byte = .ended next output) →
        Kept next)
    {d : FrameDecoder δ} (directive : Directive) (unread : List UInt8) (room taken : Nat)
    (out : Array UInt8) (hd : Kept d.automaton) (hpace : d.pace = pace) :
    Kept (d.go directive unread room taken out).state.automaton ∧
      (d.go directive unread room taken out).state.pace = pace := by
  induction unread generalizing d room taken out with
  | nil =>
    simp only [go]
    split
    · exact ⟨hd, hpace⟩
    · split <;> exact ⟨hd, hpace⟩
  | cons byte rest ih =>
    rw [go]
    dsimp only
    split
    · exact ⟨hd, hpace⟩
    · split
      · exact ⟨hd, hpace⟩
      · split
        · exact ⟨hd, hpace⟩
        · split
          · next hmore => exact ih _ _ _ (hfeed hd (.inl hmore)) hpace
          · next hended => exact ih _ _ _ (hfeed hd (.inr hended)) hpace
          · exact ⟨hd, hpace⟩

/-- The codec of an automaton can be reset, if the automaton can. -/
theorem resets (hstart : Kept automaton)
    (hfeed : ∀ {d next byte output}, Kept d →
      (ByteDecoder.feed d byte = .more next output ∨ ByteDecoder.feed d byte = .ended next output) →
        Kept next)
    (hreset : ∀ {d}, Kept d → ByteDecoder.reset d = automaton) :
    Resets (FrameDecoder.new automaton pace) := by
  intro s h
  have hkept : Kept s.automaton ∧ s.pace = pace := by
    induction h with
    | start => exact ⟨hstart, rfl⟩
    | step unread room directive _ ih => exact kept_go hfeed directive unread room 0 #[] ih.1 ih.2
    | pledge _ _ ih => exact ih
    | reset _ ih => exact ⟨by rwa [← hreset ih.1] at hstart, ih.2⟩
  have heq : Codec.reset s = FrameDecoder.new automaton pace := by
    change FrameDecoder.new (ByteDecoder.reset s.automaton) s.pace = _
    rw [hreset hkept.1, hkept.2]
  rw [heq]
  exact Alike.refl _

end FrameDecoder

/-- A reset leaves nothing of a decoder of DEFLATE. -/
theorem Deflate.Unpacking.resets : Resets (Deflate.Unpacking.new Deflate.Decoder.start) :=
  fun _ _ => Alike.refl _

/-- Length-prefixed frames: nothing but the number of bytes that one byte stands for is kept. -/
theorem Toy.LengthPrefixed.resets (expand : Nat) (pace : Option Nat) :
    Resets (FrameDecoder.new (LengthPrefixed.new expand) pace) := by
  refine @FrameDecoder.resets _ _ _ pace (fun d => d.expand = expand) rfl ?_ ?_
  · rintro d next byte output rfl h
    change LengthPrefixed.feed d byte = _ ∨ LengthPrefixed.feed d byte = _ at h
    unfold LengthPrefixed.feed at h
    split at h <;> grind
  · rintro d rfl
    rfl

end Sluice
