import Sluice.Proofs.FrameDecoders
import Sluice.Proofs.Retrying

/-!
# Reading frames

A reader over a source of whole frames delivers what these contain.

* `Reader.delivers_new` — what a reader delivers whose decoder pays out what it owes.
* `Reader.delivers_frames` — what it delivers if the decoder takes frames byte by byte.
-/

namespace Sluice

namespace Reader

variable {σ δ : Type} [Codec σ] [ByteDecoder δ] {codec : σ} {source : Source}
  {settings : ReaderSettings} {contents : List (List UInt8)}

/-- A reader delivers what its decoder owes for the content of the source: all of it, or the first
part. It does so outside of a scope as well as inside of one. -/
theorem delivers_new {Owes : σ → List UInt8 → List (List UInt8) → Prop} (hO : Honours Owes)
    (howes : Owes codec source.content contents) (hsteady : source.Steady)
    (hsize : 0 < settings.readSize) :
    ∃ r entered, Reader.new .decompressing codec source settings = .ok r ∧ r.delivered = 0 ∧
      r.enter = (.ok (), entered) ∧
      r.Delivers (if settings.acrossFrames then contents.flatten else contents.headD []) ∧
      entered.Delivers (if settings.acrossFrames then contents.flatten else contents.headD []) := by
  rw [← expected_not]
  have hnew : Reader.new .decompressing codec source settings = .ok _ := if_neg (Nat.ne_of_gt hsize)
  refine ⟨_, _, hnew, rfl, rfl, ?_, ?_⟩
  · exact (due_of_new hnew (.inl rfl) howes hsteady.whole).delivers hO hsteady
  · exact (due_of_new hnew (.inr rfl) howes hsteady.whole).delivers hO hsteady

/-- A reader over a frame decoder and a source of whole frames delivers what the frames contain:
all of them, or the first, whatever it is asked for, and however the source gives its bytes. -/
theorem delivers_frames {like : σ → Queued δ → Bool → Prop} (hF : FrameDecoding like)
    {automaton d' : δ} (hlike : like codec (.new automaton) false)
    (hframes : Frames automaton source.content contents d') (hsteady : source.Steady)
    (hsize : 0 < settings.readSize) :
    ∃ r entered, Reader.new .decompressing codec source settings = .ok r ∧ r.delivered = 0 ∧
      r.enter = (.ok (), entered) ∧
      r.Delivers (if settings.acrossFrames then contents.flatten else contents.headD []) ∧
      entered.Delivers (if settings.acrossFrames then contents.flatten else contents.headD []) :=
  delivers_new hF.honours (.between hlike hframes) hsteady hsize

/-- Three frames, one of them empty, from a source that is interrupted and then gives one byte. -/
theorem delivers_length_prefixed :
    ∃ r entered, Reader.new .decompressing (FrameDecoder.new (Toy.LengthPrefixed.new 2) none)
        ⟨[2, 7, 8, 0, 1, 9], [.fail (.plain .interrupted), .move 1], #[]⟩ ⟨3, true⟩ = .ok r ∧
      r.delivered = 0 ∧ r.enter = (.ok (), entered) ∧
      r.Delivers [7, 7, 8, 8, 9, 9] ∧ entered.Delivers [7, 7, 8, 8, 9, 9] := by
  have hframes : Frames (Toy.LengthPrefixed.new 2) ([2, 7, 8] ++ ([0] ++ ([1, 9] ++ [])))
      [[] ++ ([7, 7] ++ [8, 8]), [], [] ++ [9, 9]] (Toy.LengthPrefixed.new 2) :=
    .cons (.more rfl (.more rfl (.ended rfl))) (.cons (.ended rfl)
      (.cons (.more rfl (.ended rfl)) .nil))
  have hsteady : Source.Steady
      ⟨[2, 7, 8, 0, 1, 9], [.fail (.plain .interrupted), .move 1], #[]⟩ := by
    simp [Source.Steady, IoError.kind]
  have hlike : FrameDecoder.Like (.new (Toy.LengthPrefixed.new 2) none)
      (.new (Toy.LengthPrefixed.new 2)) false := ⟨rfl, rfl, rfl⟩
  have hsize : 0 < (⟨3, true⟩ : ReaderSettings).readSize := by decide
  exact delivers_frames FrameDecoder.frameDecoding hlike hframes hsteady hsize

end Reader

end Sluice
