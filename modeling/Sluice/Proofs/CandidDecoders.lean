import Sluice.Proofs.CutStreams
import Sluice.Proofs.Prospects

/-!
# Decoders that say what is wrong

A frame decoder that fails says why: which byte is wrong, or that the input ends inside a frame. In front
of any bytes, it goes by what the first frame of them has ahead.

* `CandidDecoding` — a strict frame decoder of which that is known, without room also.
* `FrameDecoder.candidDecoding`, `Zstd.Unpacking.candidDecoding`, `Deflate.Unpacking.candidDecoding` —
  all frame decoders of the library are candid.
* `PunctualDecoding`, `FrameDecoder.punctualDecoding` — between frames, the codec of a frame automaton
  does not need room to say that nothing is left.
* `Facing`, `CandidDecoding.foretells` — a candid decoder in the first frame of its input, and that it
  goes by what is ahead.
-/

namespace Sluice

variable {σ δ : Type} [Codec σ] [ByteDecoder δ]

/-- A strict frame decoder that fails with the texts of `wording`. The end of the input does not need
room where the queue ends a frame or stays filled. -/
structure CandidDecoding (like : σ → Queued δ → Bool → Prop) (wording : Wording δ) : Prop extends
    StrictDecoding like where
  /-- over input, a step fails with what is wrong -/
  wrong {s : σ} {q : Queued δ} {partRead : Bool} {unread : List UInt8} {room : Nat} {text : String} :
    like s q partRead → unread ≠ [] → (q.go unread room 0 #[]).result = .error text →
      (Codec.step s unread room .proceed).result = .error (.codec (wording.wrong text))
  /-- at the end of the input inside a frame, a step fails with just that -/
  cut {s : σ} {q : Queued δ} {room : Nat} {failure : Failure} :
    like s q true → q.frameEnd = false → (Codec.step s [] room .finish).result = .error failure →
      failure = .codec (wording.cut q.decoder)
  finish_roomless {s : σ} {q : Queued δ} {partRead : Bool} :
    like s q partRead → q.frameEnd = true ∨ q.queue ≠ [] →
      Follows like partRead (Codec.step s [] 0 .finish) (q.go [] 0 0 #[])
  /-- between frames, an end without room does nothing -/
  idle {s : σ} {d : δ} : like s (.new d) false →
    (Codec.step s [] 0 .finish).output = [] ∧
      ∃ left, (Codec.step s [] 0 .finish).result = .ok left

/-- A candid decoder that says between frames, without room also, that nothing is left. -/
structure PunctualDecoding (like : σ → Queued δ → Bool → Prop) (wording : Wording δ) : Prop extends
    CandidDecoding like wording where
  settled {s : σ} {d : δ} : like s (.new d) false → (Codec.step s [] 0 .finish).result = .ok 0

/-! ## The frame decoders -/

namespace FrameDecoder

variable {δ : Type} [FrameAutomaton δ]

/-- The codec of an automaton fails with the automaton's own texts. -/
def wording : Wording δ := ⟨id, FrameAutomaton.truncated⟩

/-- A run that meets a wrong byte fails with what is wrong. -/
theorem result_go_of_error {f : FrameDecoder δ} {q : Queued δ} {text : String}
    (hq : q = ⟨f.automaton, f.queue, f.frameEnd, none⟩) (hpace : f.pace = none)
    (unread : List UInt8) (room taken : Nat) (out : Array UInt8)
    (h : (q.go unread room taken out).result = .error text) :
    (f.go .proceed unread room taken out).result = .error (.codec text) := by
  have hsound : q.failure = none := by rw [hq]
  revert f h
  refine Queued.go_induction (motive := fun q unread room taken out run =>
      ∀ {f : FrameDecoder δ}, q = ⟨f.automaton, f.queue, f.frameEnd, none⟩ → f.pace = none →
        run.result = .error text → (f.go .proceed unread room taken out).result = .error (.codec text))
    ?waiting ?ended ?nil ?more ?last ?failed hsound unread room taken out
  case waiting => rintro q unread room taken out _ _ f _ _ ⟨⟩
  case ended => rintro d queue unread room taken out _ f _ _ ⟨⟩
  case nil => rintro d queue room taken out _ f _ _ ⟨⟩
  case more =>
    rintro d next queue output byte unread room taken out run hroom hfeed ih ⟨_, _, _, _⟩ ⟨⟩ ⟨⟩ h
    rw [go_more taken out hroom hfeed]
    exact ih rfl rfl h
  case last =>
    rintro d next queue output byte unread room taken out run hroom hfeed ih ⟨_, _, _, _⟩ ⟨⟩ ⟨⟩ h
    rw [go_last taken out hroom hfeed]
    exact ih rfl rfl h
  case failed =>
    rintro d queue byte unread room text' taken out hroom hfeed ⟨_, _, _, _⟩ ⟨⟩ ⟨⟩ ⟨⟩
    exact result_go_failed taken out hroom hfeed

/-- The codec of a frame automaton is candid. -/
theorem candidDecoding [LawfulFrameAutomaton δ] :
    CandidDecoding (Like : FrameDecoder δ → Queued δ → Bool → Prop) wording where
  toStrictDecoding := strictDecoding
  wrong {s q partRead unread room text} := by
    rintro ⟨hq, hpace, -⟩ _ h
    exact result_go_of_error hq hpace unread room 0 #[] h
  cut {s q room failure} := by
    intro hlike hend h
    obtain ⟨d, queue, frameEnd, pace⟩ := s
    obtain ⟨rfl, rfl, hpart⟩ := hlike
    obtain rfl : frameEnd = false := hend
    by_cases hroom : room < queue.length
    · obtain ⟨left, hleft⟩ := Queued.result_go_nil (q := ⟨d, queue, false, none⟩) rfl room
      have hfollows := agrees_of_stop ⟨rfl, rfl, hpart⟩ .finish [] 0 #[] (.inr hroom)
      obtain ⟨number, hnumber⟩ := Agrees.result_ok hfollows hleft
      cases hnumber.symm.trans h
    · rw [step_unended (Nat.le_of_not_lt hroom)] at h
      have hpart' : FrameAutomaton.isPartRead d = true := hpart
      simp only [stopResult, hpart', List.isEmpty_nil] at h
      exact (Except.error.inj h).symm
  finish_roomless {s q partRead} := by
    intro hlike hstop
    refine agrees_of_stop hlike .finish [] 0 #[] ?_
    obtain ⟨rfl, -, -⟩ := hlike
    exact hstop.imp_right List.length_pos_iff.2
  idle {s d} := by
    intro hlike
    obtain ⟨d', queue, frameEnd, pace⟩ := s
    obtain ⟨heq, rfl, hpart⟩ := hlike
    obtain ⟨rfl, rfl, rfl, -⟩ := Queued.mk.inj heq
    rw [step_finish]
    exact ⟨rfl, 0, by simpa [stopResult] using hpart⟩

/-- Without anything waiting, the codec of a frame automaton looks at nothing but the frame. -/
theorem punctualDecoding [LawfulFrameAutomaton δ] :
    PunctualDecoding (Like : FrameDecoder δ → Queued δ → Bool → Prop) wording where
  toCandidDecoding := candidDecoding
  settled {s d} := by
    intro hlike
    obtain ⟨d', queue, frameEnd, pace⟩ := s
    obtain ⟨heq, rfl, hpart⟩ := hlike
    obtain ⟨rfl, rfl, rfl, -⟩ := Queued.mk.inj heq
    rw [step_finish]
    simpa [stopResult] using hpart

end FrameDecoder

variable {ρ : Type} [Unframer ρ] {like : ρ → Queued δ → Prop}

/-- A decoder that fails with the texts of its automaton. -/
def Quotes (like : ρ → Queued δ → Prop) : Prop :=
  ∀ {u : ρ} {q : Queued δ} {unread : List UInt8} {room : Nat} {text : String}, like u q →
    (q.go unread room 0 #[]).result = .error text → (Unframer.run u unread room).result = .error text

/-- The queue itself does. -/
theorem Queued.quotes : Quotes fun u q : Queued δ => u = q ∧ q.failure = none := by
  rintro ⟨d, queue, frameEnd, failure⟩ q unread room text ⟨rfl, hq⟩ h
  obtain rfl : failure = none := hq
  exact h

/-- The texts with which the Zstandard codec fails. -/
def Zstd.Unpacking.wording (δ : Type) : Wording δ where
  wrong text := "zstd decompress error: " ++ text
  cut _ := "zstd decompress error: " ++ "input ended before frame was complete"

/-- The Zstandard codec over a decoder that works byte by byte is candid. -/
theorem Zstd.Unpacking.candidDecoding (hB : Bytewise like)
    (hroomless : ∀ {u : ρ} {q : Queued δ} {unread}, like u q → Runs like u q unread 0)
    (hquotes : Quotes like) : CandidDecoding (Like like) (wording δ) where
  toStrictDecoding := strictDecoding hB hroomless
  wrong {u q partRead unread room text} := by
    intro hlike _ h
    exact result_step_of_error .proceed (hquotes hlike.1 h)
  cut {u q room failure} := by
    intro hlike hend h
    obtain ⟨⟨left, hleft⟩, -⟩ :=
      (hB.runs hroomless hlike.1 [] room).unended (hB.intact hlike.1) hend
    obtain ⟨result, hstep, -, hfinish⟩ := step_of_more .finish hleft
    rw [hstep, hfinish rfl] at h
    split at h
    · cases h
    · split at h
      · exact (Except.error.inj h).symm
      · cases h
  finish_roomless {u q partRead} := by
    intro hlike hstop
    have hrun : Runs like u.unframer q [] 0 := hroomless hlike.1
    refine follows hrun hlike .finish fun left hleft => ⟨0, ?_⟩
    obtain ⟨result, hstep, -, hfinish⟩ := step_of_more .finish hleft
    rw [hstep, hfinish rfl, if_pos (.inl (Nat.zero_le _))]
  idle {u d} := by
    intro hlike
    have hrun : Runs like u.unframer (.new d) [] 0 := hroomless hlike.1
    obtain ⟨-, houtput, -, left, hleft⟩ := hrun.idle
    obtain ⟨result, hstep, -, hfinish⟩ := step_of_more .finish hleft
    rw [hstep, hfinish rfl, houtput, if_pos (.inl (Nat.zero_le _))]
    exact ⟨rfl, 1, rfl⟩

/-- The texts with which the DEFLATE codec fails. -/
def Deflate.Unpacking.wording (δ : Type) : Wording δ where
  wrong text := "deflate decompress error: " ++ text
  cut _ := "deflate decompress error: " ++ "input ended before stream was complete"

/-- The DEFLATE codec over a decoder that works byte by byte is candid, if after the end of a stream
the automaton is as after a reset. -/
theorem Deflate.Unpacking.candidDecoding (hB : Bytewise like)
    (hroomless : ∀ {u : ρ} {q : Queued δ} {unread}, like u q → Runs like u q unread 0)
    (hquotes : Quotes like)
    (hrewinds : ∀ (d next : δ) byte output,
      ByteDecoder.feed d byte = .ended next output → ByteDecoder.reset next = next) :
    CandidDecoding (Like like) (wording δ) where
  toStrictDecoding := strictDecoding hB hroomless hrewinds
  wrong {u q partRead unread room text} := by
    intro h hne htext
    change (step u unread room .proceed).result = _
    rw [step]
    split
    · next hended =>
      -- a decoder that has been reset at the end of a stream is where it was
      obtain ⟨-, hnew, hreset⟩ := h.ended hended
      have hlike := hB.reset h.like
      rw [hreset, ← hnew] at hlike
      rw [if_neg (by simpa using hne)]
      exact result_stepWithin_of_error .proceed (hquotes hlike htext)
    · exact result_stepWithin_of_error .proceed (hquotes h.like htext)
  cut {u q room failure} := by
    intro h hend hfails
    obtain ⟨⟨left, hleft⟩, -⟩ := (hB.runs hroomless h.like [] room).unended (hB.intact h.like) hend
    obtain ⟨result, hstep, -, hfinish⟩ := stepWithin_of_more .finish hleft
    change (step u [] room .finish).result = _ at hfails
    rw [step, h.not_ended, if_neg Bool.false_ne_true, h.frameOpen h.not_ended, Bool.true_or, hstep,
      hfinish rfl] at hfails
    split at hfails
    · cases hfails
    · exact (Except.error.inj hfails).symm
  finish_roomless {u q partRead} := by
    intro h hstop
    obtain rfl := h.waits hstop.symm
    change Follows (Like like) true (step u [] 0 .finish) _
    rw [step, h.not_ended, if_neg Bool.false_ne_true, h.frameOpen h.not_ended, Bool.true_or]
    refine follows hrewinds (hroomless h.like) (hB.intact h.like) (fun _ => rfl) h.rewound .finish
      (.inr rfl) fun left hleft => ⟨0, ?_⟩
    obtain ⟨result, hstep, -, hfinish⟩ := stepWithin_of_more .finish hleft
    rw [hstep, hfinish rfl, if_pos (.inl (Nat.zero_le _))]
  idle {u d} := by
    intro h
    change (step u [] 0 .finish).output = _ ∧ ∃ left, (step u [] 0 .finish).result = _
    cases hended : u.ended with
    | true =>
      rw [step, hended, if_pos rfl, List.isEmpty_nil, if_pos rfl]
      exact ⟨rfl, 0, rfl⟩
    | false =>
      have hrun : Runs like u.unframer (.new d) [] 0 := hroomless h.like
      obtain ⟨-, houtput, -, left, hleft⟩ := hrun.idle
      obtain ⟨result, hstep, -, hfinish⟩ := stepWithin_of_more .finish hleft
      rw [step, hended, if_neg Bool.false_ne_true, h.frameOpen hended, List.isEmpty_nil,
        Bool.not_true, Bool.or_false, hstep, hfinish rfl, houtput, if_pos (.inl (Nat.zero_le _))]
      exact ⟨rfl, 1, rfl⟩

/-! ## In the first frame -/

variable {like : σ → Queued δ → Bool → Prop} {wording : Wording δ} {s : σ} {x : List UInt8}
  {p : Prospect}

/-- A decoder in state `s` in the first frame of its input, or in front of it, that has `p` ahead with
the rest `x` of the input before it. -/
def Facing (like : σ → Queued δ → Bool → Prop) (wording : Wording δ) (s : σ) (x : List UInt8)
    (p : Prospect) : Prop :=
  ∃ q partRead, like s q partRead ∧ q.failure = none ∧ q.prospect wording x = p ∧
    (partRead = true ∨ x ≠ [])

omit [Codec σ] in
/-- In front of the first frame. -/
theorem Facing.start {d : δ} (hlike : like s (.new d) false) (hne : x ≠ []) :
    Facing like wording s x (firstFrame wording d x) :=
  ⟨.new d, false, hlike, rfl, rfl, .inr hne⟩

omit [Codec σ] in
/-- A step that is a run of the queue goes by what is ahead. Without input, there has to be something
that waits, or the end of the frame. -/
theorem Follows.foretold {step : Step σ} {q : Queued δ} {partRead : Bool} {room : Nat}
    (hfollows : Follows like partRead step (q.go x room 0 #[])) (hq : q.failure = none)
    (hbegun : partRead = true ∨ x ≠ [])
    (hwords : ∀ text, (q.go x room 0 #[]).result = .error text →
      step.result = .error (.codec (wording.wrong text)))
    (hactive : 0 < room → x = [] → (q.prospect wording x).content ≠ [] ∨
      (q.prospect wording x).ending = .complete) :
    Foretold (Facing like wording) (q.prospect wording x) x room step := by
  rcases Queued.go_prospect wording hq x room 0 #[] with
    ⟨text, hresult, hending, hfits⟩ | ⟨count, left, made, later, hrun⟩
  · refine .fails (hwords text hresult) ?_ hfits
    rw [Prospect.outcome, hending]
  · obtain ⟨rfl, rfl, hlike, number, hnumber, hzero⟩ := hfollows.of_account hrun.toAccount
    by_cases hleft : left = 0
    · obtain rfl := hzero.2 hleft
      refine .ends hnumber ?_ hrun.made_le
      rw [hrun.ahead, hrun.ended hleft, Prospect.behind, List.append_nil]
    · obtain ⟨number, rfl⟩ := Nat.exists_eq_succ_of_ne_zero fun h => hleft (hzero.1 h)
      obtain ⟨left, rfl⟩ := Nat.exists_eq_succ_of_ne_zero hleft
      obtain ⟨hsound, hlater⟩ := hrun.inside hleft
      refine .continues hnumber hrun.ahead hrun.made_le ⟨_, _, hlike, hsound, hlater, ?_⟩
        (fun hroom => hrun.shrinks hleft hroom (hactive hroom)) (hrun.unfinished hleft)
        (hrun.right hleft)
      -- the frame has been begun, unless nothing has been taken
      by_cases hnone : step.taken = 0
      · refine hbegun.imp (fun h => ?_) fun h => ?_
        · rw [h]
          rfl
        · rwa [hnone]
      · exact .inl (by simp [Nat.pos_of_ne_zero hnone])

/-- A candid decoder goes by what the first frame has ahead. -/
theorem CandidDecoding.foretells (hC : CandidDecoding like wording) :
    Foretells (Facing like wording) where
  step {s x p room directive} := by
    rintro ⟨q, partRead, hlike, hq, rfl, hbegun⟩ (⟨rfl, hne⟩ | ⟨rfl, rfl⟩)
    · exact (hC.follows hlike hne room).foretold hq hbegun (fun text => hC.wrong hlike hne)
        fun _ hnil => absurd hnil hne
    obtain rfl : partRead = true := hbegun.resolve_right fun h => h rfl
    obtain ⟨left, hleft⟩ := Queued.result_go_nil hq room
    have hwords : ∀ text, (q.go [] room 0 #[]).result = .error text →
        (Codec.step s [] room .finish).result = .error (.codec (wording.wrong text)) := by
      intro text htext
      rw [hleft] at htext
      cases htext
    have hfinish : q.frameEnd = true ∨ room < q.queue.length →
        Follows like true (Codec.step s [] room .finish) (q.go [] room 0 #[]) := by
      intro hstop
      rcases Nat.eq_zero_or_pos room with rfl | hroom
      · exact hC.finish_roomless hlike (hstop.imp_right List.length_pos_iff.1)
      · exact hC.finish hlike hroom hstop
    cases hend : q.frameEnd with
    | true =>
      refine (hfinish (.inl hend)).foretold hq (.inl rfl) hwords fun _ _ => .inr ?_
      simp [Queued.prospect, hend]
    | false =>
      have hprospect : q.prospect wording [] = ⟨q.queue, .cut (wording.cut q.decoder)⟩ := by
        simp [Queued.prospect, hend, firstFrame, Prospect.behind]
      cases hresult : (Codec.step s [] room .finish).result with
      | error failure =>
        -- the queue is given up, but not before there is room for it
        have hfits : q.queue.length ≤ room := by
          refine Nat.le_of_not_lt fun hlt => ?_
          obtain ⟨number, hnumber⟩ := Agrees.result_ok (hfinish (.inr hlt)) hleft
          rw [hresult] at hnumber
          cases hnumber
        refine .fails hresult ?_ (by rwa [hprospect])
        rw [hprospect, hC.cut hlike hend hresult]
        rfl
      | ok number =>
        have hfollows : Follows like true (Codec.step s [] room .finish) (q.go [] room 0 #[]) := by
          refine (hC.complains hlike hend).resolve_right ?_
          rintro ⟨⟨failure, hfails⟩, -⟩
          rw [hfails] at hresult
          cases hresult
        refine hfollows.foretold hq (.inl rfl) hwords fun hroom _ => .inl ?_
        rw [hprospect]
        exact hC.queue_ne_nil hlike hq hend hroom hresult

end Sluice
