import Sluice.OneShot
import Sluice.Proofs.CutFrames
import Sluice.Proofs.PassingOn

/-!
# Cuts that pass unnoticed

Nothing tells the codec of a decompressing writer that its input is over: the end of the scope
flushes the sink, and does not step the codec. The writer complains about a byte that is wrong, and
about nothing else. Of bytes that end inside a frame it passes on what they make, and then succeeds.

* `CutFrames.decode` — bytes that end inside a frame can be decoded.
* `Writer.scope_returns`, `Writer.decode_of_scope` — a scope succeeds over the bytes that can be
  decoded, and over no others.
* `decode_of_transfer` — and so does a transfer.
* `Accepts`, `Rejects`, `cut_streams_pass` — what that means for bytes that end inside a frame;
  `cut_streams_pass_in_silence` is one case.
-/

namespace Sluice

variable {σ δ : Type} [Codec σ] [ByteDecoder δ] {At : σ → δ → List UInt8 → Prop}

open ByteDecoder (decode)

/-! ## Frames that are cut off -/

omit [Codec σ] in
/-- The front of a frame decodes to what it makes. -/
theorem Part.decode {d : δ} {p c : List UInt8} (h : Part d p c) :
    ∃ d', decode d p = some (c, d') := by
  induction h with
  | nil => exact ⟨_, rfl⟩
  | more feed others ih =>
    obtain ⟨d', hdecode⟩ := ih
    exact ⟨d', by rw [ByteDecoder.decode_more feed, hdecode, Option.map_some]⟩

omit [Codec σ] in
/-- And so do whole frames with the front of another one behind. -/
theorem CutFrames.decode {d : δ} {x : List UInt8} {contents : List (List UInt8)}
    (h : CutFrames d x contents) : ∃ d', decode d x = some (contents.flatten, d') := by
  induction h with
  | part part ne =>
    obtain ⟨d', hdecode⟩ := part.decode
    exact ⟨d', by rw [hdecode, List.flatten_cons, List.flatten_nil, List.append_nil]⟩
  | cons first others ih =>
    obtain ⟨d', hdecode⟩ := ih
    refine ⟨d', ?_⟩
    rw [ByteDecoder.decode_append first.decode, hdecode, Option.map_some, List.flatten_cons]

/-! ## Scopes -/

variable {codec : σ} {window limit : Nat} {d d' : δ} {k : Sink} {sink : Sink}
  {settings : WriterSettings} {content : List UInt8}

namespace Writer

variable {w w' : Writer σ} {ops : List WriterOp}

/-- Onto a steady sink, a scope over bytes that can be decoded succeeds, and passes on what they
decode to. -/
theorem scope_returns (hA : Prompt At) (hat : At codec d [])
    (hnew : Writer.new .decompressing codec sink settings = .ok w) (hsink : sink.Steady)
    (hdecode : decode d (pushedBy ops) = some (content, d'))
    (hlimit : (pushedBy ops).length + content.length < limit) :
    ∃ w', w.scope limit (fun w => w.pushAll limit ops) = (.ok (), w') ∧
      w'.received = some (sink.received.toList ++ content) := by
  obtain ⟨w₀, henter⟩ : ∃ w₀, w.enter = (.ok (), w₀) := by
    obtain ⟨-, rfl⟩ := new_ok hnew
    exact ⟨_, rfl⟩
  obtain ⟨w₁, k₁, hpush, hpassed, hk₁⟩ :=
    (clear_of_enter hat hnew henter).pushAll_returns hA hsink hdecode hlimit
  have hexit := hpassed.clear.exit_returns hk₁ limit
  refine ⟨{ w₁ with sink := some k₁.flush.2 }.release, ?_, ?_⟩
  · simp only [scope, henter, hpush, hexit]
  · rw [← hpassed.received, ← k₁.received_flush]
    rfl

/-- If a scope succeeds, its bytes can be decoded. -/
theorem decode_of_scope (hA : Prompt At) (hat : At codec d [])
    (hnew : Writer.new .decompressing codec sink settings = .ok w)
    (h : w.scope limit (fun w => w.pushAll limit ops) = (.ok (), w')) :
    (decode d (pushedBy ops)).isSome := by
  rcases henter : w.enter with ⟨failure | ⟨⟩, w₀⟩
  · simp [scope, henter] at h
  rcases hpush : w₀.pushAll limit ops with ⟨failure | ⟨⟩, w₁⟩
  · simp [scope, henter, hpush] at h
  obtain ⟨content, d', k, hpassed⟩ := (clear_of_enter hat hnew henter).pushAll_ok hA hpush
  rw [hpassed.decode, Option.isSome_some]

end Writer

/-! ## Transfers -/

open Writer (Clear)
open Writer.Clear (Passed)

/-- What the loop of a copy passes on, if it succeeds. -/
theorem Copying.run_passed (hA : Prompt At) {readSize : Nat} (hsize : 0 < readSize)
    {c c' : Copying σ} (h : Copying.run limit readSize c = (.ok (), c')) (hwhole : c.source.Whole)
    (hw : Clear At c.writer window d k) :
    ∃ content d' k', Passed At c.writer window d k c.source.content c'.writer content d' k' := by
  fun_induction Copying.run limit readSize c generalizing d k
  case case1 => cases h
  -- an empty piece is the end of the source
  case case2 c source hpull =>
    cases h
    rw [hwhole.content_of_pull_nil hsize hpull]
    exact ⟨[], d, k, hw.passed_nil⟩
  case case3 => cases h
  -- any other piece is written
  case case4 c byte rest source hpull n writer hwrite ih =>
    obtain ⟨c₁, d₁, k₁, hpassed⟩ := hw.write_ok hA hwrite
    have hwhole₁ := hwhole.of_suffix (Source.plan_pull hpull)
    obtain ⟨c₂, d₂, k₂, hpassed'⟩ := ih h hwhole₁ hpassed.clear
    rw [Source.content_pull hpull]
    exact ⟨_, d₂, k₂, hpassed.append hpassed'⟩

/-- If a transfer succeeds, what the source gives can be decoded. -/
theorem decode_of_transfer (hA : Prompt At) {readSize : Nat} (hsize : 0 < readSize)
    (hat : At codec d []) {source source' : Source} {sink' : Sink} {counts : Nat × Nat}
    (hwhole : source.Whole)
    (h : transfer limit source sink readSize (Writer.new .decompressing codec sink settings) =
      (.ok counts, source', sink')) : (decode d source.content).isSome := by
  rcases hnew : Writer.new .decompressing codec sink settings with failure | w
  · simp [transfer, hnew] at h
  rcases henter : w.enter with ⟨failure | ⟨⟩, w₀⟩
  · simp [transfer, hnew, copy, henter] at h
  rcases hrun : Copying.run limit readSize ⟨source, w₀, 0⟩ with ⟨failure | ⟨⟩, c⟩
  · simp [transfer, hnew, copy, henter, hrun] at h
  obtain ⟨content, d', k, hpassed⟩ :=
    Copying.run_passed hA hsize hrun hwhole (Writer.clear_of_enter hat hnew henter)
  rw [hpassed.decode, Option.isSome_some]

/-! ## What is noticed -/

/-- A decompressing writer over a codec takes the bytes `x`: onto a steady sink, a scope that pushes
them, in pieces and with flushes between them, succeeds, and so does a transfer of them, whatever
the sizes are. The sink receives `content`. -/
structure Accepts (codec : σ) (x content : List UInt8) : Prop where
  pushed {limit : Nat} {sink : Sink} {settings : WriterSettings} {w : Writer σ}
    {ops : List WriterOp} : Writer.new .decompressing codec sink settings = .ok w → sink.Steady →
      pushedBy ops = x → x.length + content.length < limit →
        ∃ w', w.scope limit (fun w => w.pushAll limit ops) = (.ok (), w') ∧
          w'.received = some (sink.received.toList ++ content)
  copied {limit readSize : Nat} {source : Source} {sink : Sink} {settings : WriterSettings} :
    source.Steady → source.content = x → sink.Steady → 0 < readSize → 0 < settings.writeSize →
      x.length + content.length < limit →
        ∃ source' sink', transfer limit source sink readSize
            (Writer.new .decompressing codec sink settings) =
              (.ok (x.length, content.length), source', sink') ∧
          sink'.received.toList = sink.received.toList ++ content

/-- A decompressing writer over a codec does not take the bytes `x`: whatever the sink does, and
however many steps there may be, no scope that pushes them succeeds, and no transfer of them does. -/
structure Rejects (codec : σ) (x : List UInt8) : Prop where
  pushed {limit : Nat} {sink : Sink} {settings : WriterSettings} {w : Writer σ}
    {ops : List WriterOp} : Writer.new .decompressing codec sink settings = .ok w →
      pushedBy ops = x →
        ∃ failure, (w.scope limit (fun w => w.pushAll limit ops)).1 = .error failure
  copied {limit readSize : Nat} {source : Source} {sink : Sink} {settings : WriterSettings} :
    source.Whole → source.content = x → 0 < readSize →
      ∃ failure, (transfer limit source sink readSize
        (Writer.new .decompressing codec sink settings)).1 = .error failure

/-- Bytes that can be decoded are taken. -/
theorem Prompt.accepts_of_decode (hA : Prompt At) (hat : At codec d []) {x : List UInt8}
    (hdecode : decode d x = some (content, d')) : Accepts codec x content where
  pushed := by
    rintro limit sink settings w ops hnew hsink rfl hlimit
    exact Writer.scope_returns hA hat hnew hsink hdecode hlimit
  copied := by
    rintro limit readSize source sink settings hsource rfl hsink hread hwrite hlimit
    exact transfer_returns hA hread hat hsource hsink hwrite hdecode hlimit

/-- Bytes that cannot be decoded are refused. -/
theorem Prompt.rejects_of_decode (hA : Prompt At) (hat : At codec d []) {x : List UInt8}
    (hwrong : decode d x = none) : Rejects codec x where
  pushed := by
    rintro limit sink settings w ops hnew rfl
    rcases h : w.scope limit (fun w => w.pushAll limit ops) with ⟨failure | ⟨⟩, w'⟩
    · exact ⟨failure, rfl⟩
    · have hsome := Writer.decode_of_scope hA hat hnew h
      rw [hwrong] at hsome
      cases hsome
  copied := by
    rintro limit readSize source sink settings hwhole rfl hread
    rcases h : transfer limit source sink readSize
      (Writer.new .decompressing codec sink settings) with ⟨failure | counts, source', sink'⟩
    · exact ⟨failure, rfl⟩
    · have hsome := decode_of_transfer hA hread hat hwhole h
      rw [hwrong] at hsome
      cases hsome

/-- A decompressing writer takes whole frames with the front of another one behind, and what the
sink receives is what they contain and what that front makes. The writer refuses bytes with a wrong
one among them, and only these. -/
theorem cut_streams_pass {like : σ → Queued δ → Bool → Prop} (hP : PatientDecoding like)
    {automaton d d' : δ} {whole part missing content : List UInt8} {contents : List (List UInt8)}
    (hlike : like codec (.new automaton) false) (hframes : Frames automaton whole contents d)
    (hframe : Frame d (part ++ missing) content d') (hpart : part ≠ []) (hmissing : missing ≠ []) :
    ∃ made, Part d part made ∧ made <+: content ∧
      Accepts codec (whole ++ part) (contents.flatten ++ made) ∧
      (∀ x decoded, (decode automaton x).map Prod.fst = some decoded → Accepts codec x decoded) ∧
      ∀ x, decode automaton x = none → Rejects codec x := by
  have hat := Holding.start hlike
  obtain ⟨made, hmade, hfront⟩ := hframe.part hmissing
  obtain ⟨d₁, hdecode⟩ := (hframes.cut hmade hpart).decode
  rw [List.flatten_append, List.flatten_cons, List.flatten_nil, List.append_nil] at hdecode
  refine ⟨made, hmade, hfront, hP.prompt.accepts_of_decode hat hdecode, fun x decoded h => ?_,
    fun x => hP.prompt.rejects_of_decode hat⟩
  obtain ⟨⟨_, d₂⟩, hdecoded, rfl⟩ := Option.map_eq_some_iff.1 h
  exact hP.prompt.accepts_of_decode hat hdecoded

/-- A frame of two bytes is cut off behind the first one, with a whole frame before it. -/
theorem cut_streams_pass_lengthPrefixed :
    ∃ made, Part (Toy.LengthPrefixed.new 2) [2, 7] made ∧ made <+: [7, 7, 8, 8] ∧
      Accepts (FrameDecoder.new (Toy.LengthPrefixed.new 2) none) [1, 9, 2, 7] ([9, 9] ++ made) ∧
      (∀ x decoded, (decode (Toy.LengthPrefixed.new 2) x).map Prod.fst = some decoded →
        Accepts (FrameDecoder.new (Toy.LengthPrefixed.new 2) none) x decoded) ∧
      ∀ x, decode (Toy.LengthPrefixed.new 2) x = none →
        Rejects (FrameDecoder.new (Toy.LengthPrefixed.new 2) none) x := by
  have hlike : FrameDecoder.Like (.new (Toy.LengthPrefixed.new 2) none)
      (.new (Toy.LengthPrefixed.new 2)) false := ⟨rfl, rfl, rfl⟩
  have hwhole : Frames (Toy.LengthPrefixed.new 2) ([1, 9] ++ []) [[] ++ [9, 9]]
      (Toy.LengthPrefixed.new 2) := .cons (.more rfl (.ended rfl)) .nil
  have hframe : Frame (Toy.LengthPrefixed.new 2) ([2, 7] ++ [8]) ([] ++ ([7, 7] ++ [8, 8]))
      (Toy.LengthPrefixed.new 2) := .more rfl (.more rfl (.ended rfl))
  exact cut_streams_pass FrameDecoder.patientDecoding hlike hwhole hframe (by decide) (by decide)

/-- Without its last byte, a transfer of this frame succeeds, and so does a scope that pushes it byte
by byte; decoding it at once fails. -/
theorem cut_streams_pass_in_silence :
    Frame (Toy.LengthPrefixed.new 2) ([2, 7] ++ [8]) [7, 7, 8, 8] (Toy.LengthPrefixed.new 2) ∧
    (∃ source' sink', transfer 5 ⟨[2, 7], [], #[]⟩ {} 1
        (Writer.new .decompressing (FrameDecoder.new (Toy.LengthPrefixed.new 2) none) {}
          ⟨1, false, none⟩) = (.ok (2, 2), source', sink') ∧ sink'.received.toList = [7, 7]) ∧
    (∃ w, Writer.new .decompressing (FrameDecoder.new (Toy.LengthPrefixed.new 2) none) {}
        ⟨1, false, none⟩ = .ok w ∧
      ∃ w', w.scope 5 (fun w => w.pushAll 5 [.write [2], .write [7]]) = (.ok (), w') ∧
        w'.received = some [7, 7]) ∧
    (decompressFrame 5 (FrameDecoder.new (Toy.LengthPrefixed.new 2) none) [2, 7] none).1 =
      .error (.codec "toy: truncated") := by
  have hlike : FrameDecoder.Like (.new (Toy.LengthPrefixed.new 2) none)
      (.new (Toy.LengthPrefixed.new 2)) false := ⟨rfl, rfl, rfl⟩
  have haccepts : Accepts (FrameDecoder.new (Toy.LengthPrefixed.new 2) none) [2, 7] [7, 7] :=
    FrameDecoder.patientDecoding.prompt.accepts_of_decode (Holding.start hlike) rfl
  have hframe : Frame (Toy.LengthPrefixed.new 2) ([2, 7] ++ [8]) ([] ++ ([7, 7] ++ [8, 8]))
      (Toy.LengthPrefixed.new 2) := .more rfl (.more rfl (.ended rfl))
  have hsink : Sink.Steady {} := ⟨by simp, by simp⟩
  refine ⟨hframe, ?_, ?_, by cbv⟩
  · exact haccepts.copied (by simp [Source.Steady]) rfl hsink (by decide) (by decide) (by decide)
  · have hnew : Writer.new .decompressing (FrameDecoder.new (Toy.LengthPrefixed.new 2) none) {}
        ⟨1, false, none⟩ = .ok _ := rfl
    exact ⟨_, rfl, haccepts.pushed hnew hsink rfl (by decide)⟩

end Sluice
