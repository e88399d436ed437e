import Sluice.Proofs.EagerReads
import Sluice.Proofs.FailingSources
import Sluice.Proofs.ShortReads

/-!
# Mixed requests

A caller may mix eager requests with others as it likes. Over a frame decoder, all that requests make
is one content, from its start to its end, whatever they are.

* `asking`, `received`, `Reader.serve_asking` — requests for nothing change nothing.
* `Reader.Yields`, `Reader.yields` — one content, however it is asked for.
* `Reader.eager_requests` — what eager requests do, for every codec, and what they deliver, mixed with
  others; and `Reader.eager_requests_before_a_loss`, the order of requests deciding what is lost.
-/

namespace Sluice

open Outcome (answered)

/-- The requests that are for some bytes. -/
def asking (requests : List Request) : List Request := requests.filter (0 < ·.size)

/-- The bytes that reach the caller. -/
def received (answers : List (Except Failure (List UInt8))) : List UInt8 :=
  answers.flatMap fun answer => answer.toOption.getD []

namespace Outcome

/-- What is received is what has been delivered. -/
theorem received_map_answer (outcomes : List Outcome) :
    received (outcomes.map answer) = outcomes.flatMap delivered := by
  induction outcomes with
  | nil => rfl
  | cons outcome outcomes ih =>
    cases outcome with
    | answered piece => exact congrArg (piece ++ ·) ih
    | failed failure lost => exact ih

/-- Where nothing fails, nothing is lost. -/
theorem lost_eq_nil_of_ok {outcomes : List Outcome}
    (h : ∀ a ∈ outcomes.map answer, ∃ piece, a = .ok piece) :
    outcomes.flatMap lost = [] := by
  refine List.flatMap_eq_nil_iff.2 fun outcome hmem => ?_
  cases outcome with
  | answered piece => rfl
  | failed failure lost =>
    obtain ⟨piece, hok⟩ := h _ (List.mem_map_of_mem hmem)
    cases hok

end Outcome

namespace Reader

variable {σ : Type} [Codec σ] {r r' : Reader σ} {s : σ} {content : List UInt8}

/-! ## Requests for nothing -/

/-- A request for nothing leaves everything as it is, and delivers nothing. -/
theorem answer_of_size_eq_zero (r : Reader σ) {request : Request} (h : request.size = 0) :
    (r.answer request).2 = r ∧ (r.answer request).1.toOption.getD [] = [] := by
  have hfill : ∀ eager, (r.fill eager 0).2 = r ∧ (r.fill eager 0).1.toOption.getD [] = [] := by
    intro eager
    rw [fill]
    split
    · exact ⟨rfl, rfl⟩
    · rw [if_pos (.inr rfl)]
      exact ⟨rfl, rfl⟩
  cases request with
  | read size =>
    obtain rfl : size = 0 := h
    exact ⟨rfl, rfl⟩
  | readInto size =>
    obtain rfl : size = 0 := h
    exact hfill false
  | read1 size | readInto1 size =>
    obtain rfl : size = 0 := h
    exact hfill true

/-- So that they may as well be left out. -/
theorem serve_asking (r : Reader σ) (requests : List Request) :
    (r.serve requests).2 = (r.serve (asking requests)).2 ∧
      received (r.serve requests).1 = received (r.serve (asking requests)).1 := by
  induction requests generalizing r with
  | nil => exact ⟨rfl, rfl⟩
  | cons request requests ih =>
    rcases hanswer : r.answer request with ⟨answer, r₁⟩
    obtain ⟨hlast, hreceived⟩ := ih r₁
    rw [serve, hanswer]
    by_cases hsize : request.size = 0
    · obtain ⟨hsame, hnil⟩ := r.answer_of_size_eq_zero hsize
      rw [hanswer] at hsame hnil
      obtain rfl : r₁ = r := hsame
      rw [asking, List.filter_cons_of_neg (by simp [hsize])]
      refine ⟨hlast, Eq.trans ?_ hreceived⟩
      rw [received, List.flatMap_cons, hnil]
      rfl
    · rw [asking, List.filter_cons_of_pos (by simpa using Nat.pos_of_ne_zero hsize), serve, hanswer]
      exact ⟨hlast, congrArg (answer.toOption.getD [] ++ ·) hreceived⟩

/-- Some requests, and then others. -/
theorem serve_append (r : Reader σ) (requests later : List Request) :
    r.serve (requests ++ later) =
      ((r.serve requests).1 ++ ((r.serve requests).2.serve later).1,
        ((r.serve requests).2.serve later).2) := by
  induction requests generalizing r with
  | nil => rfl
  | cons request requests ih =>
    rw [List.cons_append, serve, serve]
    simp only [ih, List.cons_append]

/-! ## One content -/

/-- However a reader is asked, it gets through one content. -/
structure Yields (r : Reader σ) (content : List UInt8) : Prop where
  /-- as far as the codec does not fail, what requests make is the front of the content, in its order,
  and all of it at the end; what is made is delivered, but for what failed requests have lost -/
  endures (requests : List Request) : ∃ served rest outcomes r', asking requests = served ++ rest ∧
    Weathers r content served outcomes r' ∧ Gaps content served outcomes ∧
      ∀ request ∈ rest.head?, r'.tillEnd.Refuses request
  /-- where no request fails and the end is reached, all of it is delivered, whatever the requests -/
  whole {requests : List Request} :
    (∀ answer ∈ (r.serve (asking requests)).1, ∃ piece, answer = .ok piece) →
      .ok [] ∈ (r.serve (asking requests)).1 → received (r.serve requests).1 = content

/-- What a reader gets through whose source really ends, every reader does that takes the source to
end there. -/
theorem Weathers.of_tillEnd {requests : List Request} {outcomes : List Outcome}
    (h : Weathers r.tillEnd content requests outcomes r') (hsize : 0 < r.readSize)
    (hcodec : r.codec = .live s) :
    ∃ r₁ : Reader σ, r₁.tillEnd = r' ∧ Weathers r content requests outcomes r₁ := by
  have hserved := h.served
  rw [serve_tillEnd hsize hcodec] at hserved
  obtain ⟨hanswers, rfl⟩ := Prod.mk.inj hserved
  exact ⟨_, rfl, Prod.ext hanswers rfl, h.fits, h.front, h.whole,
    Nat.le_trans h.failures r.failures_tillEnd_le, h.delivered⟩

/-- A request that is refused where the source really ends is refused here as well. -/
theorem Refuses.of_tillEnd {request : Request} (h : r.tillEnd.Refuses request) :
    ∃ failure, (r.answer request).1 = .error failure := by
  obtain ⟨s, failure, r', hrunning, hanswer, -⟩ := h
  have hsize : 0 < r.readSize := hrunning.sound.readSize_pos
  rw [answer_tillEnd hsize] at hanswer
  exact ⟨failure, congrArg Prod.fst hanswer⟩

theorem Endures.yields (h : r.tillEnd.Endures content) (hsize : 0 < r.readSize)
    (hcodec : r.codec = .live s) : r.Yields content := by
  have hendures : ∀ requests : List Request, ∃ served rest outcomes r',
      asking requests = served ++ rest ∧ Weathers r content served outcomes r' ∧
        Gaps content served outcomes ∧ ∀ request ∈ rest.head?, r'.tillEnd.Refuses request := by
    intro requests
    have hpos : ∀ request ∈ asking requests, 0 < request.size := by simp [asking]
    obtain ⟨served, rest, outcomes, r₁, hsplit, hweathers, hgaps, hstopped⟩ :=
      h (asking requests) hpos
    obtain ⟨r', rfl, hweathers'⟩ := hweathers.of_tillEnd hsize hcodec
    exact ⟨served, rest, outcomes, r', hsplit, hweathers', hgaps, hstopped⟩
  refine ⟨hendures, fun {requests} hok hend => ?_⟩
  obtain ⟨served, rest, outcomes, r', hsplit, hweathers, hgaps, hstopped⟩ := hendures requests
  -- no request is refused, so that all of them are served
  obtain rfl : rest = [] := by
    cases rest with
    | nil => rfl
    | cons request rest =>
      obtain ⟨failure, hfails⟩ := (hstopped request rfl).of_tillEnd
      rw [hsplit, serve_append, hweathers.served, serve] at hok
      obtain ⟨piece, hpiece⟩ := hok (r'.answer request).1 (by simp)
      rw [hfails] at hpiece
      cases hpiece
  rw [List.append_nil] at hsplit
  have hanswers : (r.serve (asking requests)).1 = outcomes.map Outcome.answer := by
    rw [hsplit, hweathers.served]
  rw [hanswers] at hok hend
  have hmem : answered [] ∈ outcomes := by
    obtain ⟨outcome, hmem, hnil⟩ := List.mem_map.1 hend
    cases outcome with
    | answered piece =>
      obtain rfl : piece = [] := Except.ok.inj hnil
      exact hmem
    | failed failure lost => cases hnil
  calc received (r.serve requests).1
      = received (outcomes.map Outcome.answer) := by rw [(r.serve_asking requests).2, hanswers]
    _ = outcomes.flatMap Outcome.delivered := Outcome.received_map_answer outcomes
    _ = content := (hgaps.gapless (Outcome.lost_eq_nil_of_ok hok)).2 hmem

/-- A frame decoder in any state, and any source: the content depends on these only. -/
theorem yields {δ : Type} [ByteDecoder δ] {like : σ → Queued δ → Bool → Prop}
    {contents : List (List UInt8)} (hS : StrictDecoding like) (hphase : r.phase ≠ .closed)
    (hpledged : r.owesPledge = false) (hsize : 0 < r.readSize) (hcodec : r.codec = .live s)
    (howes : Unchecked like s r.tillEnd.ahead contents) :
    r.Yields (if r.outputDone then [] else expected r.stopsAtFrameEnd contents) := by
  have hdue : Due (Unchecked like) r.tillEnd
      (if r.outputDone then [] else expected r.stopsAtFrameEnd contents) := by
    split
    · next hdone => exact .ended hphase hdone
    · next hdone =>
      have hrunning : r.tillEnd.Running s :=
        ⟨hphase, Bool.not_eq_true _ ▸ hdone, hpledged, hcodec, sound_tillEnd hsize⟩
      exact .running hrunning howes
  exact (hdue.endures hS.truthful_unchecked).yields hsize hcodec

/-! ## Eager requests -/

theorem answer_of_isEager (r : Reader σ) {request : Request} (h : request.isEager = true) :
    r.answer request = r.fill true request.size := by
  cases request with
  | read1 size | readInto1 size => rfl
  | read size | readInto size => cases h

/-- Over any codec and any source, an eager request does not ask the source any more once a step has
made something, and one for nothing does nothing; if every step with input and room moves something,
an answer is empty only at the end of the stream. Over a frame decoder, eager requests and others can
be mixed: as far as the codec does not fail, they make one content, whatever they are. What they make
is not all delivered. Where the source fails, a request that is not eager loses what it has got, and
which bytes these are depends on the requests before it. -/
theorem eager_requests :
    (∀ (r : Reader σ) (request : Request), request.isEager = true →
      (r.phase = .closed → r.answer request = (.error (.misuse .closed), r)) ∧
      (request.size = 0 → r.phase ≠ .closed → r.answer request = (.ok [], r)) ∧
      ∀ s, r.codec = .live s → ∃ moves s',
        Hastens r request.size s moves s' (r.answer request).1 (r.answer request).2) ∧
    ∀ {δ : Type} [ByteDecoder δ] {like : σ → Queued δ → Bool → Prop} {r : Reader σ} {s : σ}
      {contents : List (List UInt8)}, StrictDecoding like → r.phase ≠ .closed →
      r.owesPledge = false → 0 < r.readSize → r.codec = .live s →
      Unchecked like s r.tillEnd.ahead contents →
        r.Yields (if r.outputDone then [] else expected r.stopsAtFrameEnd contents) := by
  refine ⟨fun r request heager => ?_, fun hS hphase hpledged hsize hcodec howes =>
    yields hS hphase hpledged hsize hcodec howes⟩
  rw [r.answer_of_isEager heager]
  refine ⟨fun hclosed => ?_, fun hzero hopen => ?_, fun s hcodec => fill_eager rfl hcodec⟩
  · rw [fill, if_pos hclosed]
  · rw [fill, if_neg hopen, if_pos (.inr hzero)]

/-- A reader in front of one frame, whose source fails once and then pretends its end. -/
theorem eager_requests_lengthPrefixed :
    ∃ r, Reader.new .decompressing (FrameDecoder.new (Toy.LengthPrefixed.new 2) none)
        ⟨[2, 7, 8, 1, 9], [.move 3, .fail (.plain .timedOut), .move 0], #[]⟩ ⟨3, true⟩ = .ok r ∧
      (∃ moves s', Hastens r 1 (.new (.new 2) none) moves s' (r.answer (.read1 1)).1
        (r.answer (.read1 1)).2) ∧
      r.Yields [7, 7, 8, 8] := by
  have hlike : FrameDecoder.Like (.new (Toy.LengthPrefixed.new 2) none)
      (.new (Toy.LengthPrefixed.new 2)) false := ⟨rfl, rfl, rfl⟩
  refine ⟨_, rfl, (eager_requests.1 _ (.read1 1) rfl).2.2 _ rfl, ?_⟩
  exact eager_requests.2 FrameDecoder.strictDecoding Phase.noConfusion rfl (by decide) rfl
    (.between hlike)

end Reader

namespace Toy.LengthPrefixed

/-- A source of three bytes in a frame. It fails behind the second. -/
def faulty : Source :=
  ⟨[3, 0x61, 0x62, 0x63], [.move 2, .move 1, .fail (.told .permissionDenied "denied")], #[]⟩

/-- The same source behind the first byte. -/
def faultySecond : Source := ⟨[0x62, 0x63], faulty.plan.tail, #[2]⟩

/-- And behind the second, where it fails. -/
def faultyThird : Source := ⟨[0x63], faulty.plan.drop 2, #[2, 2]⟩

/-- A reader that takes two bytes at a time, with `left` bytes missing of a frame. -/
def within (left : Nat) (source : Source) (pending : List UInt8) (outputDone : Bool)
    (delivered : Nat) : Reader (FrameDecoder LengthPrefixed) where
  phase := .notEntered
  direction := .decompressing
  source := source
  codec := .live ⟨⟨1, left⟩, [], false, none⟩
  readSize := 2
  pending := pending
  inputDone := false
  outputDone := outputDone
  delivered := delivered
  owesPledge := false
  stopsAtFrameEnd := true

end Toy.LengthPrefixed

namespace Reader

variable {σ : Type} [Codec σ]

open Toy.LengthPrefixed (faulty faultySecond faultyThird within)

/-- The source gives the length and the first byte. -/
theorem feed_faulty (eager : Bool) (window : Window) :
    feed eager (within 0 faulty [] false 0) window =
      feed eager (within 0 faultySecond [3, 0x61] false 0) window :=
  feed_pull rfl rfl (pull_of_source_ok (Source.pull_of_read_ok rfl))

/-- It gives the second byte. -/
theorem feed_faultySecond (window : Window) (delivered : Nat) :
    feed false (within 2 faultySecond [] false delivered) window =
      feed false (within 2 faultyThird [0x62] false delivered) window :=
  feed_pull rfl rfl (pull_of_source_ok (Source.pull_of_read_ok rfl))

/-- Then it fails. -/
theorem feed_faultyThird (window : Window) (delivered : Nat) :
    feed false (within 1 faultyThird [] false delivered) window =
      (.error (.io (.told .permissionDenied "denied")),
        within 1 ⟨[0x63], [], #[2, 2, 2]⟩ [] false delivered) := by
  have hfails : faultyThird.pull 2 = _ := Source.pull_of_read_error rfl
  exact feed_refused rfl rfl (pull_of_source_error (hfails.trans (if_neg (by decide))))

/-- A request for two bytes gets both. -/
theorem read_faulty :
    (within 0 faulty [] false 0).answer (.read 2) =
      (.ok [0x61, 0x62], within 1 faultyThird [] false 2) := by
  have hfeed : feed false (within 0 faulty [] false 0) (.fresh 2) =
      (.ok ⟨#[0x61, 0x62], 0, []⟩, within 1 faultyThird [] false 0) :=
    calc
      _ = feed false (within 0 faultySecond [3, 0x61] false 0) (.fresh 2) := feed_faulty _ _
      _ = feed false (within 2 faultySecond [] false 0) ⟨#[0x61], 1, []⟩ :=
        (feed_eq_feedStepped (r := within 0 faultySecond [3, 0x61] false 0) Bool.false_ne_true rfl
          rfl).trans rfl
      _ = feed false (within 2 faultyThird [0x62] false 0) ⟨#[0x61], 1, []⟩ := feed_faultySecond _ _
      _ = (.ok ⟨#[0x61, 0x62], 0, []⟩, within 1 faultyThird [] false 0) :=
        (feed_eq_feedStepped (r := within 2 faultyThird [0x62] false 0) Bool.false_ne_true rfl
          rfl).trans rfl
  exact fill_of_feed Phase.noConfusion (not_answered rfl Nat.two_pos) rfl hfeed rfl

/-- An eager one is content with the first. -/
theorem read1_faulty :
    (within 0 faulty [] false 0).answer (.read1 2) =
      (.ok [0x61], within 2 faultySecond [] false 1) := by
  have hfeed : feed true (within 0 faulty [] false 0) (.fresh 2) =
      (.ok ⟨#[0x61], 1, []⟩, within 2 faultySecond [] false 0) :=
    (feed_faulty _ _).trans
      ((feed_eq_feedStepped (r := within 0 faultySecond [3, 0x61] false 0) Bool.false_ne_true rfl
        rfl).trans rfl)
  exact fill_of_feed Phase.noConfusion (not_answered rfl Nat.two_pos) rfl hfeed rfl

/-- A request for two bytes after that gets the second one, and fails. -/
theorem read_faultySecond :
    (within 2 faultySecond [] false 1).answer (.read 2) =
      (.error (.io (.told .permissionDenied "denied")),
        within 1 ⟨[0x63], [], #[2, 2, 2]⟩ [] false 1) := by
  have hfeed : feed false (within 2 faultySecond [] false 1) (.fresh 2) =
      (.error (.io (.told .permissionDenied "denied")),
        within 1 ⟨[0x63], [], #[2, 2, 2]⟩ [] false 1) :=
    calc
      _ = feed false (within 2 faultyThird [0x62] false 1) (.fresh 2) := feed_faultySecond _ _
      _ = feed false (within 1 faultyThird [] false 1) ⟨#[0x62], 1, []⟩ :=
        (feed_eq_feedStepped (r := within 2 faultyThird [0x62] false 1) Bool.false_ne_true rfl
          rfl).trans rfl
      _ = _ := feed_faultyThird _ _
  exact fill_of_feed_error Phase.noConfusion (not_answered rfl Nat.two_pos) rfl hfeed

/-- A request that has got nothing when the source fails loses nothing. -/
theorem read_faultyThird (delivered : Nat) :
    (within 1 faultyThird [] false delivered).answer (.read 2) =
      (.error (.io (.told .permissionDenied "denied")),
        within 1 ⟨[0x63], [], #[2, 2, 2]⟩ [] false delivered) :=
  fill_of_feed_error Phase.noConfusion (not_answered rfl Nat.two_pos) rfl
    (feed_faultyThird (.fresh 2) delivered)

/-- Where the source works again, the last byte is delivered. -/
theorem read_mended (delivered : Nat) :
    (within 1 ⟨[0x63], [], #[2, 2, 2]⟩ [] false delivered).answer (.read 2) =
      (.ok [0x63], within 0 ⟨[], [], #[2, 2, 2, 2]⟩ [] true (delivered + 1)) := by
  have hfeed : feed false (within 1 ⟨[0x63], [], #[2, 2, 2]⟩ [] false delivered) (.fresh 2) =
      (.ok ⟨#[0x63], 1, []⟩, within 0 ⟨[], [], #[2, 2, 2, 2]⟩ [] true delivered) :=
    calc
      _ = feed false (within 1 ⟨[], [], #[2, 2, 2, 2]⟩ [0x63] false delivered) (.fresh 2) :=
        feed_pull rfl rfl (pull_of_source_ok (Source.pull_of_read_ok rfl))
      _ = _ :=
        (feed_eq_feedStepped (r := within 1 ⟨[], [], #[2, 2, 2, 2]⟩ [0x63] false delivered)
          Bool.false_ne_true rfl rfl).trans rfl
  exact fill_of_feed Phase.noConfusion (not_answered rfl Nat.two_pos) rfl hfeed rfl

/-- Four requests for two bytes each deliver three bytes, although the second of them fails. If the
first is an eager one, which leaves the second byte to a request that fails, that byte is lost. -/
theorem eager_requests_before_a_loss :
    ∃ r, Reader.new .decompressing (FrameDecoder.new (Toy.LengthPrefixed.new 1) none) faulty
        ⟨2, false⟩ = .ok r ∧
      (r.serve [.read 2, .read 2, .read 2, .read 2]).1 =
        [.ok [0x61, 0x62], .error (.io (.told .permissionDenied "denied")), .ok [0x63], .ok []] ∧
      (r.serve [.read1 2, .read 2, .read 2, .read 2]).1 =
        [.ok [0x61], .error (.io (.told .permissionDenied "denied")), .ok [0x63], .ok []] := by
  refine ⟨within 0 faulty [] false 0, rfl, ?_, ?_⟩
  · simp only [serve, read_faulty, read_faultyThird, read_mended]
    rfl
  · simp only [serve, read1_faulty, read_faultySecond, read_mended]
    rfl

end Reader

end Sluice
