import Sluice.Proofs.AnyBytes
import Sluice.Proofs.CutStreams
import Sluice.Proofs.Retrying
import Sluice.Proofs.StoredData

/-!
# Sources that fail

A caller may ask again after a failure of the source. The reader goes on where it was, but what the
failed request had made is gone: the bytes that are delivered can have a gap.

* `Reader.Refuses`, `Reader.Endures` — requests on a reader over bytes that may be wrong.
* `Stored.withstands_of_new` — stored data, in both directions.
* `failing_sources` — what readers of stored data and of frames make of a source that fails, and
  `failing_sources_lose_a_byte`, a gap.
-/

namespace Sluice

open Outcome (answered)

namespace Reader

variable {σ : Type} [Codec σ] {Owes : σ → List UInt8 → List (List UInt8) → Prop} {r : Reader σ}
  {content : List UInt8}

/-- A request fails because the codec does. -/
def Refuses (r : Reader σ) (request : Request) : Prop :=
  ∃ s failure r', r.Running s ∧ r.answer request = (.error failure, r') ∧ Refused r s r' failure

/-- Whatever is asked for, the reader gets through its content as far as the codec does not fail. -/
def Endures (r : Reader σ) (content : List UInt8) : Prop :=
  ∀ requests : List Request, (∀ request ∈ requests, 0 < request.size) →
    ∃ served rest outcomes r', requests = served ++ rest ∧ Weathers r content served outcomes r' ∧
      Gaps content served outcomes ∧ ∀ request ∈ rest.head?, r'.Refuses request

theorem Due.endures (hT : Truthful Owes) (h : Due Owes r content) : r.Endures content := by
  intro requests hpos
  obtain ⟨served, rest, outcomes, r', hsplit, hweathers, hstopped⟩ := h.weathers hT hpos
  refine ⟨served, rest, outcomes, r', hsplit, hweathers, hweathers.gaps, ?_⟩
  cases hstopped with
  | served => exact nofun
  | refused running _ answer refused =>
    rintro request ⟨⟩
    exact ⟨_, _, _, running, answer, refused⟩

end Reader

/-! ## Stored data -/

namespace Stored

variable {r : Reader Stored} {content : List UInt8}

/-- For stored data, it makes no difference whether the codec has still to be told the size. -/
theorem fill_pledge (hr : Reader.Running { r with owesPledge := false } .stored) (eager : Bool)
    {size : Nat} (hsize : 0 < size) :
    r.fill eager size = { r with owesPledge := false }.fill eager size := by
  have hanswered := Reader.not_answered hr.outputDone hsize
  rw [Reader.fill, Reader.fill, if_neg hr.phase, if_neg hr.phase, if_neg hanswered, if_neg hanswered]
  have hcodec : r.codec = .live .stored := hr.codec
  have hsettled : r.settlePledge = { r with owesPledge := false }.settlePledge := by
    cases howes : r.owesPledge with
    | false => rw [← howes]
    | true => simp [Reader.settlePledge, howes, hcodec, Codec.pledge]
  rw [hsettled]

theorem withstands_of_pledge (hr : Reader.Running { r with owesPledge := false } .stored)
    (h : Reader.Withstands { r with owesPledge := false } content) : r.Withstands content := by
  refine Reader.withstands_of_weathers fun requests hpos => ?_
  obtain ⟨outcomes, r', hweathers, -⟩ := h requests hpos
  cases requests with
  | nil => exact ⟨[], r, .nil⟩
  | cons request requests =>
    have hsize := hpos request List.mem_cons_self
    have hserve : r.serve (request :: requests) =
        Reader.serve { r with owesPledge := false } (request :: requests) := by
      rw [Reader.serve, Reader.serve, Reader.answer_eq_fill r hsize, fill_pledge hr _ hsize,
        Reader.answer_eq_fill _ hsize]
    exact ⟨outcomes, r', hserve.trans hweathers.served, hweathers.fits, hweathers.front,
      hweathers.whole, hweathers.failures, hweathers.delivered⟩

/-- A reader of stored data has all of its input in front of it. -/
theorem withstands_of_running (hr : Reader.Running { r with owesPledge := false } .stored)
    (hahead : r.ahead = content) : r.Withstands content := by
  have howes : Owes .stored r.ahead [content] := by rw [Owes, hahead]
  have hdue : Reader.Due Owes { r with owesPledge := false } _ := .running hr howes
  have hexpected : expected r.stopsAtFrameEnd [content] = content := expected_of_tail_eq_nil rfl
  rw [hexpected] at hdue
  exact withstands_of_pledge hr (hdue.withstands honours)

/-- So has a new one, in both directions. -/
theorem withstands_of_new {direction : Direction} {source : Source} {settings : ReaderSettings}
    {r r' : Reader Stored} (hnew : Reader.new direction .stored source settings = .ok r)
    (hopen : r' = r ∨ r.enter = (.ok (), r')) (hwhole : source.Whole) :
    r'.Withstands source.content := by
  obtain ⟨hrunning, hahead, -⟩ := Reader.running_of_new hnew hopen hwhole
  exact withstands_of_running hrunning hahead

end Stored

/-! ## Readers over failing sources -/

/-- A reader gets through its content, however often the source fails, and whatever it is asked for:
what the answers and the failed requests have made is the front of the content, in its order, and all
of it at the end. What the failed requests have made is not delivered any more, so that there is a gap
unless they have made nothing. For stored data, the content is the source's; for frames, it is what
the source's bytes decode to, and the codec may fail as well if these are no whole frames. -/
theorem failing_sources {source : Source} {settings : ReaderSettings} (hwhole : source.Whole)
    (hsize : 0 < settings.readSize) :
    (∀ direction, ∃ r entered,
      Reader.new direction Stored.stored source settings = .ok r ∧ r.delivered = 0 ∧
        r.enter = (.ok (), entered) ∧ r.Withstands source.content ∧
        entered.Withstands source.content) ∧
    ∀ {σ δ : Type} [Codec σ] [ByteDecoder δ] {like : σ → Queued δ → Bool → Prop} {codec : σ}
      {automaton : δ} {content : List UInt8}, like codec (.new automaton) false →
      content = expected (!settings.acrossFrames) (contentsOf automaton source.content) →
        ∃ r entered, Reader.new .decompressing codec source settings = .ok r ∧ r.delivered = 0 ∧
          r.enter = (.ok (), entered) ∧
          (FrameDecoding like → (∃ contents d', Frames automaton source.content contents d') →
            r.Withstands content ∧ entered.Withstands content) ∧
          (StrictDecoding like → r.Endures content ∧ entered.Endures content) := by
  constructor
  · intro direction
    have hnew : Reader.new direction Stored.stored source settings = .ok _ :=
      if_neg (Nat.ne_of_gt hsize)
    exact ⟨_, _, hnew, rfl, rfl, Stored.withstands_of_new hnew (.inl rfl) hwhole,
      Stored.withstands_of_new hnew (.inr rfl) hwhole⟩
  · intro σ δ _ _ like codec automaton content hlike hcontent
    subst hcontent
    have hnew : Reader.new .decompressing codec source settings = .ok _ :=
      if_neg (Nat.ne_of_gt hsize)
    refine ⟨_, _, hnew, rfl, rfl, ?_, fun hS => ⟨?_, ?_⟩⟩
    · rintro hF ⟨contents, d', hframes⟩
      have howes : Unpaid like codec source.content (contentsOf automaton source.content) :=
        .between hlike (hframes.contentsOf_eq.symm ▸ hframes)
      exact ⟨(Reader.due_of_new hnew (.inl rfl) howes hwhole).withstands hF.honours,
        (Reader.due_of_new hnew (.inr rfl) howes hwhole).withstands hF.honours⟩
    · exact (Reader.due_of_new hnew (.inl rfl) (.between hlike) hwhole).endures hS.truthful_unchecked
    · exact (Reader.due_of_new hnew (.inr rfl) (.between hlike) hwhole).endures hS.truthful_unchecked

/-- Two frames from a source that fails between its bytes. -/
theorem failing_sources_lengthPrefixed :
    (∃ r entered, Reader.new .compressing Stored.stored
        ⟨[97, 98], [.move 1, .fail (.plain .timedOut)], #[]⟩ ⟨1, false⟩ = .ok r ∧ r.delivered = 0 ∧
      r.enter = (.ok (), entered) ∧ r.Withstands [97, 98] ∧ entered.Withstands [97, 98]) ∧
    ∃ r entered, Reader.new .decompressing (FrameDecoder.new (Toy.LengthPrefixed.new 2) none)
        ⟨[2, 7, 8, 1, 9], [.move 2, .fail (.plain .timedOut)], #[]⟩ ⟨3, true⟩ = .ok r ∧
      r.delivered = 0 ∧ r.enter = (.ok (), entered) ∧ r.Withstands [7, 7, 8, 8, 9, 9] ∧
      entered.Withstands [7, 7, 8, 8, 9, 9] ∧ entered.Endures [7, 7, 8, 8, 9, 9] := by
  have hframes : Frames (Toy.LengthPrefixed.new 2) ([2, 7, 8] ++ ([1, 9] ++ []))
      [[] ++ ([7, 7] ++ [8, 8]), [] ++ [9, 9]] (Toy.LengthPrefixed.new 2) :=
    .cons (.more rfl (.more rfl (.ended rfl))) (.cons (.more rfl (.ended rfl)) .nil)
  have hlike : FrameDecoder.Like (.new (Toy.LengthPrefixed.new 2) none)
      (.new (Toy.LengthPrefixed.new 2)) false := ⟨rfl, rfl, rfl⟩
  refine ⟨(failing_sources (by simp [Source.Whole]) (by decide)).1 .compressing, ?_⟩
  have hwhole : Source.Whole ⟨[2, 7, 8, 1, 9], [.move 2, .fail (.plain .timedOut)], #[]⟩ := by
    simp [Source.Whole]
  have hsize : 0 < (⟨3, true⟩ : ReaderSettings).readSize := by decide
  obtain ⟨r, entered, hnew, hzero, henter, hsound, hstrict⟩ :=
    (failing_sources hwhole hsize).2 hlike rfl
  obtain ⟨hr, hentered⟩ := hsound FrameDecoder.frameDecoding ⟨_, _, hframes⟩
  exact ⟨r, entered, hnew, hzero, henter, hr, hentered, (hstrict FrameDecoder.strictDecoding).2⟩

/-- A request for two bytes of stored data has got the first one when the source fails. Whatever is
asked for then, the reader goes on behind it. -/
theorem Stored.read_fails {r : Reader Stored} {byte : UInt8} {rest : List UInt8} {error : IoError}
    {plan : List Answer} {sizes : Array Nat} (hr : r.Running .stored) (hsize : r.readSize = 1)
    (hpending : r.pending = []) (hdone : r.inputDone = false)
    (hsource : r.source = ⟨byte :: rest, .move 1 :: .fail error :: plan, sizes⟩)
    (hkind : error.kind ≠ .interrupted) :
    ∃ r', r.answer (.read 2) = (.error (.ofIo error), r') ∧ r'.delivered = r.delivered ∧
      r'.source.plan = plan ∧ r'.Withstands rest := by
  have hcodec : r.codec = .live .stored := hr.codec
  -- a pull, a step that leaves room, and the pull that fails
  have hfirst : r.source.pull r.readSize =
      (.ok [byte], ⟨rest, .fail error :: plan, sizes.push 1⟩) := by
    rw [hsource, hsize, Source.pull]
    rfl
  have hsecond : Source.pull ⟨rest, .fail error :: plan, sizes.push 1⟩ r.readSize =
      (.error (.ofIo error), ⟨rest, plan, (sizes.push 1).push 1⟩) := by
    rw [hsize, Source.pull]
    exact if_neg hkind
  have hrefused : Reader.feed false { r with source := ⟨rest, .fail error :: plan, sizes.push 1⟩ }
      (.put (.fresh 2) [byte]) =
        (.error (.ofIo error), { r with source := ⟨rest, plan, (sizes.push 1).push 1⟩ }) :=
    Reader.feed_refused hpending hdone (Reader.pull_of_source_error hsecond)
  have hfeed : Reader.feed false r (.fresh 2) =
      (.error (.ofIo error), { r with source := ⟨rest, plan, (sizes.push 1).push 1⟩ }) := by
    rw [Reader.feed_pull hpending hdone (Reader.pull_of_source_ok hfirst), ← hrefused]
    simp only [hpending, hdone, hcodec]
    rw [Reader.feed]
    rfl
  have hanswer : r.answer (.read 2) = r.fill false 2 := Reader.answer_eq_fill r Nat.two_pos
  rw [hr.fill_eq Nat.two_pos, hfeed] at hanswer
  have hwhole : Source.Whole ⟨rest, plan, (sizes.push 1).push 1⟩ := by
    refine hr.sound.whole.of_suffix ?_
    rw [hsource]
    exact ⟨[.move 1, .fail error], rfl⟩
  have hrunning : Reader.Running
      { r with source := ⟨rest, plan, (sizes.push 1).push 1⟩, owesPledge := false } .stored :=
    ⟨hr.phase, hr.outputDone, rfl, hr.codec, hr.sound.readSize_pos, hwhole,
      fun h => Bool.noConfusion (hdone.symm.trans h)⟩
  refine ⟨_, hanswer, rfl, rfl, withstands_of_running hrunning ?_⟩
  rw [Reader.ahead, hpending]
  rfl

/-- One failure, and the byte that the request had got is missing from what is delivered. -/
theorem failing_sources_lose_a_byte :
    (∃ r r', Reader.new .decompressing Stored.stored
        ⟨[97, 98], [.move 1, .fail (.told .permissionDenied "denied")], #[]⟩ ⟨1, false⟩ = .ok r ∧
      r.answer (.read 2) = (.error (.io (.told .permissionDenied "denied")), r') ∧
      r'.delivered = 0 ∧ r'.Delivers [98]) ∧
    (∃ r, Reader.new .decompressing Stored.stored ⟨[97, 98], [.move 1], #[]⟩ ⟨1, false⟩ = .ok r ∧
      r.Delivers [97, 98]) ∧
    ¬ ([98] : List UInt8) <+: [97, 98] := by
  have hfails : Source.Whole ⟨[97, 98], [.move 1, .fail (.told .permissionDenied "denied")], #[]⟩ := by
    simp [Source.Whole]
  have hworks : Source.Whole ⟨[97, 98], [.move 1], #[]⟩ := by simp [Source.Whole]
  have hnew : ∀ source, Reader.new .decompressing Stored.stored source ⟨1, false⟩ = .ok _ :=
    fun _ => rfl
  obtain ⟨hr, -⟩ := Reader.running_of_new_decompressing (hnew _) (.inl rfl) hfails
  obtain ⟨r', hanswer, hdelivered, hplan, hrest⟩ :=
    Stored.read_fails hr rfl rfl rfl rfl (by simp [IoError.kind])
  have hfailures : r'.source.failures = 0 := by rw [Source.failures, hplan]; rfl
  exact ⟨⟨_, r', hnew _, hanswer, hdelivered, hrest.delivers hfailures⟩,
    ⟨_, hnew _, (Stored.withstands_of_new (hnew _) (.inl rfl) hworks).delivers rfl⟩, by decide⟩

end Sluice
