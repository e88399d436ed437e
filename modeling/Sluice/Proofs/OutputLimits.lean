import Sluice.Proofs.LimitedDecoding

/-!
# Output limits

A frame may be decoded under a limit on its output. The limit is to change nothing but that more output
is a failure, and that failure is to be told of larger frames only.

* `prospectOf` — what decoding some bytes at once comes to, if there is no limit.
* `CandidDecoding.answers_frame`, `CandidDecoding.answers_part` — the answers for a whole frame, and for
  one that is cut off.
* `OnlyLimits`, `limit_only_limits` — a limit that changes nothing else, which is so for the codecs of
  frame automata and for stored data.
* `TellsExcess`, `tells_excess` — what all frame decoders say about larger frames, and about frames
  that are cut off just at the limit; `tells_excess_of_cut_frame` is one of these.
-/

namespace Sluice

variable {σ δ : Type} [Codec σ] [ByteDecoder δ] {like : σ → Queued δ → Bool → Prop}
  {wording : Wording δ} {codec : σ} {automaton : δ} {bytes : List UInt8} {p : Prospect}

/-! ## Answers -/

/-- What some bytes have ahead if they are decoded at once. Without any bytes there is no frame, and
nothing to complain about. -/
def prospectOf (wording : Wording δ) (automaton : δ) (bytes : List UInt8) : Prospect :=
  if bytes = [] then ⟨[], .complete⟩ else firstFrame wording automaton bytes

/-- The answer to someone who decodes `bytes` under the limit `cap`. -/
def Answers (codec : σ) (bytes : List UInt8) (p : Prospect) (cap : Option Nat)
    (answer : Except Failure (List UInt8)) : Prop :=
  ∀ limit, bytes.length + p.content.length < limit →
    (decompressFrame limit codec bytes cap).1 = answer

/-- A codec that goes by what is ahead answers rightly, as long as there is memory. -/
theorem Foretells.answers {Ahead : σ → List UInt8 → Prospect → Prop} (hA : Foretells Ahead)
    (h : Ahead codec bytes p) (hmemory : p.content.length + largestBlock ≤ allocationLimit)
    (cap : Option Nat) : ∃ answer, Judged p cap answer ∧ Answers codec bytes p cap answer := by
  have hstart : Ahead (Gathering.start codec bytes cap).codec
      (Gathering.start codec bytes cap).input.unread p := h
  obtain ⟨answer, hjudged, hanswer⟩ := Gathering.decoded_judged hA hstart
    (BlockList.roomy_start cap) (BlockList.packed_start cap)
    (by rw [show (Gathering.start codec bytes cap).blocks.join.size = 0 from rfl]; omega)
  refine ⟨answer, hjudged, fun limit hlimit => ?_⟩
  obtain ⟨limit, rfl⟩ := Nat.exists_eq_succ_of_ne_zero (Nat.ne_of_gt (Nat.zero_lt_of_lt hlimit))
  exact hanswer limit (Nat.le_of_lt_succ hlimit)

/-- Without a limit, there is only one answer. -/
theorem Judged.of_none {answer : Except Failure (List UInt8)} (h : Judged p none answer) :
    answer = p.outcome := by
  cases h with
  | same within => rfl

/-- Between frames, decoding no bytes gives none. -/
theorem answers_nil {cap : Option Nat} {room : Nat}
    (hroom : (BlockList.start cap).active.spare = room)
    (hresult : (Codec.step codec [] room .finish).result = .ok 0)
    (houtput : (Codec.step codec [] room .finish).output = []) :
    Answers codec [] ⟨[], .complete⟩ cap (.ok []) := by
  subst hroom
  intro limit hlimit
  obtain ⟨limit, rfl⟩ := Nat.exists_eq_succ_of_ne_zero (Nat.ne_of_gt (Nat.zero_lt_of_lt hlimit))
  have hresult' : ((Gathering.start codec [] cap).step .finish).1 = .ok 0 := hresult
  exact (Gathering.decoded_of_idle hresult' houtput).trans
    (congrArg _ (Gathering.output_start codec [] cap))

/-- If not even one byte is allowed, an end between frames may be taken for too much output. -/
theorem answers_nil_zero {left : Nat}
    (hresult : (Codec.step codec [] 0 .finish).result = .ok left) :
    ∃ answer, (answer = .ok [] ∨ answer = .error (.codec (excessText 0))) ∧
      Answers codec [] ⟨[], .complete⟩ (some 0) answer := by
  have hresult' : ((Gathering.start codec [] (some 0)).step .finish).1 = .ok left := hresult
  obtain ⟨answer, hcases, hanswer⟩ := Gathering.decoded_full rfl rfl hresult'
  rw [Gathering.output_start] at hcases
  refine ⟨answer, hcases, fun limit hlimit => ?_⟩
  obtain ⟨limit, rfl⟩ := Nat.exists_eq_succ_of_ne_zero (Nat.ne_of_gt (Nat.zero_lt_of_lt hlimit))
  exact hanswer limit

/-! ## Whole frames, and frames that are cut off -/

/-- A whole frame is decoded to its content if that is within the limit, and is said to be too large if
not. What is behind the frame does not matter. -/
theorem CandidDecoding.answers_frame (hC : CandidDecoding like wording) {f c : List UInt8} {d' : δ}
    (hlike : like codec (.new automaton) false) (hframe : Frame automaton f c d')
    (rest : List UInt8) (hmemory : c.length + largestBlock ≤ allocationLimit) (m : Nat) :
    Answers codec (f ++ rest) ⟨c, .complete⟩ (some m)
      (if c.length ≤ m then .ok c else .error (.codec (excessText m))) := by
  have hstart : Facing like wording codec (f ++ rest) ⟨c, .complete⟩ :=
    hframe.firstFrame_append wording rest ▸
      .start hlike (List.append_ne_nil_of_left_ne_nil hframe.ne_nil rest)
  obtain ⟨answer, hjudged, hanswer⟩ := hC.foretells.answers hstart hmemory (some m)
  cases hjudged with
  | same within =>
    rw [if_pos (within m rfl)]
    exact hanswer
  | excess exceeds =>
    have hlt : m < c.length := exceeds.resolve_right fun ⟨_, text, hcut⟩ => Ending.noConfusion hcut
    rw [if_neg (Nat.not_le.2 hlt)]
    exact hanswer

/-- A frame that is cut off is never decoded. If what is there of it makes less than the limit, it is
said to be cut off, and if it makes more, to be too large; just at the limit, either may be said. -/
theorem CandidDecoding.answers_part (hC : CandidDecoding like wording) {p c : List UInt8}
    (hlike : like codec (.new automaton) false) (hpart : Part automaton p c) (hne : p ≠ [])
    (hmemory : c.length + largestBlock ≤ allocationLimit) (m : Nat) :
    ∃ d' failure, Answers codec p ⟨c, .cut (wording.cut d')⟩ (some m) (.error failure) ∧
      (failure = .codec (wording.cut d') ∧ c.length ≤ m ∨
        failure = .codec (excessText m) ∧ m ≤ c.length) := by
  obtain ⟨d', hahead⟩ := hpart.firstFrame_eq wording
  have hstart : Facing like wording codec p ⟨c, .cut (wording.cut d')⟩ := hahead ▸ .start hlike hne
  obtain ⟨answer, hjudged, hanswer⟩ := hC.foretells.answers hstart hmemory (some m)
  cases hjudged with
  | same within => exact ⟨d', _, hanswer, .inl ⟨rfl, within m rfl⟩⟩
  | excess exceeds =>
    refine ⟨d', _, hanswer, .inr ⟨rfl, ?_⟩⟩
    exact exceeds.elim Nat.le_of_lt fun ⟨hbrink, _⟩ => Nat.le_of_eq hbrink.symm

/-! ## A limit that changes nothing else -/

/-- A limit of `m` bytes changes nothing about decoding `bytes` but that more output is a failure. -/
structure OnlyLimits (codec : σ) (bytes : List UInt8) (p : Prospect) (m : Nat) : Prop where
  unlimited : Answers codec bytes p none p.outcome
  succeeds {limit : Nat} {out : List UInt8} : bytes.length + p.content.length < limit →
    ((decompressFrame limit codec bytes (some m)).1 = .ok out ↔
      (decompressFrame limit codec bytes none).1 = .ok out ∧ out.length ≤ m)
  /-- what does not succeed is a failure of decoding -/
  settled : (∃ out, Answers codec bytes p (some m) (.ok out)) ∨
    ∃ text, Answers codec bytes p (some m) (.error (.codec text))
  /-- however far decoding gets, all blocks together are within the limit -/
  allocated (limit : Nat) :
    (Gathering.decode limit (.start codec bytes (some m))).2.blocks.capacity ≤ m

theorem Judged.eq_ok_iff {m : Nat} {answer : Except Failure (List UInt8)} {out : List UInt8}
    (h : Judged p (some m) answer) : answer = .ok out ↔ p.outcome = .ok out ∧ out.length ≤ m := by
  cases h with
  | same within =>
    refine ⟨fun h => ⟨h, ?_⟩, And.left⟩
    have hlength := within m rfl
    rwa [Prospect.outcome_eq_ok_iff.1 h] at hlength
  | excess exceeds =>
    refine ⟨nofun, fun ⟨h, hle⟩ => ?_⟩
    obtain rfl := Prospect.outcome_eq_ok_iff.1 h
    rcases exceeds with hlt | ⟨-, text, hcut⟩
    · exact absurd hlt (Nat.not_lt.2 hle)
    · cases hcut

theorem Judged.settled {m : Nat} {answer : Except Failure (List UInt8)}
    (h : Judged p (some m) answer) :
    (∃ out, answer = .ok out) ∨ ∃ text, answer = .error (.codec text) := by
  cases h with
  | same within => exact p.outcome_cases.imp_left fun h => ⟨_, h⟩
  | excess exceeds => exact .inr ⟨_, rfl⟩

/-- Right answers under every limit mean that a limit changes nothing else. -/
theorem onlyLimits_of_judged
    (h : ∀ cap, ∃ answer, Judged p cap answer ∧ Answers codec bytes p cap answer) (m : Nat) :
    OnlyLimits codec bytes p m := by
  obtain ⟨unlimited, hnone, hunlimited⟩ := h none
  obtain rfl := hnone.of_none
  obtain ⟨answer, hjudged, hanswer⟩ := h (some m)
  refine ⟨hunlimited, fun hlimit => ?_, ?_, fun limit => ?_⟩
  · rw [hanswer _ hlimit, hunlimited _ hlimit]
    exact hjudged.eq_ok_iff
  · refine hjudged.settled.imp ?_ ?_
    · rintro ⟨out, rfl⟩
      exact ⟨out, hanswer⟩
    · rintro ⟨text, rfl⟩
      exact ⟨text, hanswer⟩
  · obtain ⟨hbounded, hlimit⟩ := Gathering.decode_bounded
      (c := .start codec bytes (some m)) (BlockList.bounded_start (some m)) limit
    rw [← hbounded.counted]
    exact hbounded.within m hlimit

/-- A limit on the output of a punctual decoder, or on that of stored data, changes nothing else, as
long as there is memory for the content. -/
theorem limit_only_limits (hP : PunctualDecoding like wording) :
    (∀ {codec : σ} {automaton : δ} {bytes : List UInt8} (m : Nat), like codec (.new automaton) false →
      (prospectOf wording automaton bytes).content.length + largestBlock ≤ allocationLimit →
        OnlyLimits codec bytes (prospectOf wording automaton bytes) m) ∧
    ∀ (bytes : List UInt8) (m : Nat), bytes.length + largestBlock ≤ allocationLimit →
      OnlyLimits Stored.stored bytes ⟨bytes, .complete⟩ m := by
  refine ⟨fun {codec automaton bytes} m hlike hmemory => onlyLimits_of_judged (fun cap => ?_) m,
    fun bytes m hmemory => onlyLimits_of_judged (fun cap => ?_) m⟩
  · by_cases hne : bytes = []
    · subst hne
      refine ⟨.ok [], .same fun _ _ => Nat.zero_le _, ?_⟩
      rcases Nat.eq_zero_or_pos (BlockList.start cap).active.spare with hroom | hroom
      · exact answers_nil hroom (hP.settled hlike) (hP.idle hlike).1
      · obtain ⟨hresult, houtput, -⟩ := hP.finish_between hlike hroom
        exact answers_nil rfl hresult houtput
    · rw [prospectOf, if_neg hne] at hmemory ⊢
      exact hP.foretells.answers (.start hlike hne) hmemory cap
  · exact Stored.foretells.answers rfl hmemory cap

/-- Two bytes that stand for four, under a limit of just four, with a byte behind the frame; and stored
data under a limit that it exceeds. -/
theorem limit_only_limits_lengthPrefixed :
    OnlyLimits (FrameDecoder.new (Toy.LengthPrefixed.new 2) none) [2, 7, 8, 1]
      ⟨[7, 7, 8, 8], .complete⟩ 4 ∧ OnlyLimits Stored.stored [7, 8] ⟨[7, 8], .complete⟩ 1 := by
  have hlike : FrameDecoder.Like (.new (Toy.LengthPrefixed.new 2) none)
      (.new (Toy.LengthPrefixed.new 2)) false := ⟨rfl, rfl, rfl⟩
  have hahead : prospectOf FrameDecoder.wording (Toy.LengthPrefixed.new 2) [2, 7, 8, 1] =
      ⟨[7, 7, 8, 8], .complete⟩ := rfl
  obtain ⟨hdecoder, hstored⟩ := limit_only_limits
    (FrameDecoder.punctualDecoding (δ := Toy.LengthPrefixed))
  exact ⟨hahead ▸ hdecoder 4 hlike (by decide), hstored [7, 8] 1 (by decide)⟩

/-! ## What is said about larger frames -/

/-- What is said about decoding `bytes` under a limit of `m` bytes. -/
structure TellsExcess (codec : σ) (bytes : List UInt8) (p : Prospect) (m : Nat) : Prop where
  unlimited : Answers codec bytes p none p.outcome
  exceeding : m < p.content.length → Answers codec bytes p (some m) (.error (.codec (excessText m)))
  /-- a frame that is wrong, or cut off, before the limit is reached fails as it does without one -/
  within : p.content.length < m ∨
      p.content.length = m ∧ bytes ≠ [] ∧ (∀ text, p.ending ≠ .cut text) →
    Answers codec bytes p (some m) p.outcome
  /-- just at the limit, either may be said -/
  brink : p.content.length = m → Answers codec bytes p (some m) p.outcome ∨
    Answers codec bytes p (some m) (.error (.codec (excessText m)))
  /-- who is told of a larger frame has one, or one that may be longer than its part that is there, or
  nothing -/
  told {limit : Nat} : bytes.length + p.content.length < limit →
    (decompressFrame limit codec bytes (some m)).1 = .error (.codec (excessText m)) →
      m < p.content.length ∨ p.outcome = .error (.codec (excessText m)) ∨
        p.content.length = m ∧ (bytes = [] ∨ ∃ text, p.ending = .cut text)

theorem tellsExcess_of_judged {m : Nat} {answer : Except Failure (List UInt8)}
    (hunlimited : Answers codec bytes p none p.outcome) (hjudged : Judged p (some m) answer)
    (hanswer : Answers codec bytes p (some m) answer) : TellsExcess codec bytes p m where
  unlimited := hunlimited
  exceeding := by
    intro hlt
    cases hjudged with
    | same within => exact absurd hlt (Nat.not_lt.2 (within m rfl))
    | excess exceeds => exact hanswer
  within := by
    intro hwithin
    cases hjudged with
    | same within => exact hanswer
    | excess exceeds =>
      rcases exceeds with hlt | ⟨hbrink, text, hcut⟩
      · omega
      · rcases hwithin with hlt | ⟨-, -, hnot⟩
        · omega
        · exact absurd hcut (hnot text)
  brink := by
    intro _
    cases hjudged with
    | same within => exact .inl hanswer
    | excess exceeds => exact .inr hanswer
  told := by
    intro limit hlimit htold
    rw [hanswer limit hlimit] at htold
    cases hjudged with
    | same within => exact .inr (.inl htold)
    | excess exceeds => exact exceeds.imp_right fun ⟨hbrink, hcut⟩ => .inr ⟨hbrink, .inr hcut⟩

/-- All candid decoders say rightly whether a frame is larger than a limit, unless it is cut off just
there, or there is nothing at all, and nothing allowed. -/
theorem tells_excess (hC : CandidDecoding like wording) (m : Nat)
    (hlike : like codec (.new automaton) false)
    (hmemory : (prospectOf wording automaton bytes).content.length + largestBlock ≤
      allocationLimit) : TellsExcess codec bytes (prospectOf wording automaton bytes) m := by
  by_cases hne : bytes = []
  · subst hne
    have hnil : ∀ cap, 0 < (BlockList.start cap).active.spare →
        Answers codec [] ⟨[], .complete⟩ cap (.ok []) := by
      intro cap hroom
      obtain ⟨hresult, houtput, -⟩ := hC.finish_between hlike hroom
      exact answers_nil rfl hresult houtput
    have hunlimited := hnil none (blockSize_pos 0)
    rcases Nat.eq_zero_or_pos m with rfl | hm
    · obtain ⟨-, left, hleft⟩ := hC.idle hlike
      obtain ⟨answer, hcases, hanswer⟩ := answers_nil_zero hleft
      refine ⟨hunlimited, nofun, ?_, fun _ => ?_, fun _ _ => .inr (.inr ⟨rfl, .inl rfl⟩)⟩
      · rintro (hlt | ⟨-, hne, -⟩)
        · exact absurd hlt (Nat.not_lt_zero _)
        · exact absurd rfl hne
      · rcases hcases with rfl | rfl
        · exact .inl hanswer
        · exact .inr hanswer
    · have hroom : 0 < (BlockList.start (some m)).active.spare := by
        have := blockSize_pos 0
        simp only [BlockList.start, Window.spare_fresh, Option.getD_some]
        omega
      exact tellsExcess_of_judged hunlimited (.same fun _ _ => Nat.zero_le _) (hnil _ hroom)
  · rw [prospectOf, if_neg hne] at hmemory ⊢
    have hanswers := Foretells.answers hC.foretells (.start hlike hne) hmemory
    obtain ⟨unlimited, hnone, hunlimited⟩ := hanswers none
    obtain ⟨answer, hjudged, hanswer⟩ := hanswers (some m)
    exact tellsExcess_of_judged (hnone.of_none ▸ hunlimited) hjudged hanswer

/-- A frame of two bytes that is cut off behind the first of them, under a limit of just one byte: the
codec of the automaton, and the one that reads such frames as Zstandard frames. -/
theorem tells_excess_lengthPrefixed :
    TellsExcess (FrameDecoder.new (Toy.LengthPrefixed.new 1) none) [2, 7]
      ⟨[7], .cut "toy: truncated"⟩ 1 ∧
    TellsExcess (Zstd.Unpacking.new (Queued.new (Toy.LengthPrefixed.new 1))) [2, 7]
      ⟨[7], .cut "zstd decompress error: input ended before frame was complete"⟩ 1 := by
  have hlike : FrameDecoder.Like (.new (Toy.LengthPrefixed.new 1) none)
      (.new (Toy.LengthPrefixed.new 1)) false := ⟨rfl, rfl, rfl⟩
  have hahead : prospectOf FrameDecoder.wording (Toy.LengthPrefixed.new 1) [2, 7] =
      ⟨[7], .cut "toy: truncated"⟩ := rfl
  have hzstd : CandidDecoding _ (Zstd.Unpacking.wording Toy.LengthPrefixed) :=
    Zstd.Unpacking.candidDecoding Queued.bytewise (fun h => Queued.runs h ..) Queued.quotes
  have hlike' : Zstd.Unpacking.Like (fun u q => u = q ∧ q.failure = none)
      (.new (Queued.new (Toy.LengthPrefixed.new 1))) (.new (Toy.LengthPrefixed.new 1)) false :=
    ⟨⟨rfl, rfl⟩, rfl⟩
  exact ⟨hahead ▸ tells_excess FrameDecoder.candidDecoding 1 hlike (by decide),
    tells_excess hzstd 1 hlike' (by decide)⟩

/-- Without a limit, it is said that this frame is cut off; under a limit of one byte, that it is too
large. -/
theorem tells_excess_of_cut_frame :
    (decompressFrame 4 (FrameDecoder.new (Toy.LengthPrefixed.new 1) none) [2, 7] none).1 =
      .error (.codec "toy: truncated") ∧
    (decompressFrame 4 (FrameDecoder.new (Toy.LengthPrefixed.new 1) none) [2, 7] (some 1)).1 =
      .error (.codec (excessText 1)) := by
  exact ⟨by cbv, by rfl⟩

end Sluice
