import Sluice.Proofs.FrameTallies

/-!
# Frames that have been read in part

The decompressing codecs complain about an end of the input inside a frame. They do not look into the
bytes for that: they keep a flag or two. Here it is shown that these are right after all steps, however
the input and the room are cut, and that nobody who keeps a tally is surprised by what a step returns.

* `Tracked`, `TracksFrames` — a tally kept along the steps of a codec, and a codec whose results can be
  told from it.
* `KeepsTally`, `KeepsTally.tracksFrames` — what has to be known of a codec for that, step by step.
* `Zstd.Unpacking.keepsTally`, `Deflate.Unpacking.keepsTally` — the flags of the two codecs.
* `unpacking_tracks_frames` — the two codecs track frames over any decoder that works frame by frame.
-/

namespace Sluice

variable {σ δ : Type} [Codec σ] [ByteDecoder δ]

/-! ## Tallies along the steps of a codec -/

namespace Tally

/-- The tally after a step. -/
def after (t : Tally) (unread : List UInt8) (step : Step σ) : Tally :=
  t.add (unread.take step.taken) step.output

/-- Behind a complete frame, the tally of the next one is begun. -/
inductive Becomes (fresh : δ) : Tally → Tally → Prop where
  | next {t : Tally} (complete : t.Complete fresh) : Becomes fresh t .start
  | same {t : Tally} (unended : ¬ t.Complete fresh) : Becomes fresh t t

variable {fresh : δ} {t : Tally}

omit [Codec σ] in
/-- Output alone does not finish a frame. -/
theorem unfinished_after_nil {step : Step σ} :
    (t.after [] step).Unfinished fresh ↔ t.Unfinished fresh := by
  simp [after, add, Unfinished]

end Tally

/-- A tally kept along any steps of `codec` that succeed, and any resets. -/
inductive Tracked (fresh : δ) (codec : σ) : Tally → σ → Prop where
  | start : Tracked fresh codec .start codec
  | step {t t' : Tally} {s : σ} {unread : List UInt8} {room left : Nat} {directive : Directive}
      (before : Tracked fresh codec t s) (room_pos : 0 < room)
      (succeeds : (Codec.step s unread room directive).result = .ok left)
      (becomes : (t.after unread (Codec.step s unread room directive)).Becomes fresh t') :
      Tracked fresh codec t' (Codec.step s unread room directive).state
  | reset {t : Tally} {s : σ} (before : Tracked fresh codec t s) :
      Tracked fresh codec .start (Codec.reset s)

/-- A decompressing codec whose results can be told from the tally. -/
structure TracksFrames (fresh : δ) (codec : σ) : Prop where
  /-- what has been read is the front of a frame -/
  sound {t : Tally} {s : σ} : Tracked fresh codec t s → t.Sound fresh ∧ ¬ t.Complete fresh
  /-- without input, the end is wrong inside a frame, and right everywhere else -/
  finish {t : Tally} {s : σ} {room : Nat} : Tracked fresh codec t s → 0 < room →
    (Codec.step s [] room .finish).output.length < room →
      (t.Unfinished fresh → ∃ text, (Codec.step s [] room .finish).result = .error (.codec text)) ∧
      (¬ t.Unfinished fresh → (Codec.step s [] room .finish).result = .ok 0)
  /-- the last of the input may come with the wish to end -/
  finish_over {t : Tally} {s : σ} {unread : List UInt8} {room left : Nat} :
    Tracked fresh codec t s → 0 < room → (Codec.step s unread room .finish).result = .ok left →
      unread.length ≤ (Codec.step s unread room .finish).taken →
        (Codec.step s unread room .finish).output.length < room →
          left = 0 ∧ ¬ (t.after unread (Codec.step s unread room .finish)).Unfinished fresh
  /-- the end of a frame is reported by the step that completes it -/
  proceed {t : Tally} {s : σ} {unread : List UInt8} {room left : Nat} :
    Tracked fresh codec t s → 0 < room → (Codec.step s unread room .proceed).result = .ok left →
      unread.take (Codec.step s unread room .proceed).taken ≠ [] →
        (left = 0 ↔ (t.after unread (Codec.step s unread room .proceed)).Complete fresh)
  /-- in front of a frame, more input is the front of it -/
  resumes {t : Tally} {s : σ} {unread : List UInt8} {room left : Nat} {directive : Directive} :
    Tracked fresh codec t s → t.read = [] → unread ≠ [] → 0 < room →
      (Codec.step s unread room directive).result = .ok left →
        unread.take (Codec.step s unread room directive).taken ≠ [] ∧
          (t.after unread (Codec.step s unread room directive)).Sound fresh

/-! ## What a codec has to know -/

/-- What a step that returns `left` has done, in front of which the tally was `t`. With `Knows s t`,
the codec in state `s` knows enough of the tally. -/
structure Tallied (fresh : δ) (Knows : σ → Tally → Prop) (t : Tally) (unread : List UInt8)
    (room : Nat) (directive : Directive) (step : Step σ) (left : Nat) : Prop where
  unended : ¬ (t.after unread step).Complete fresh → Knows step.state (t.after unread step)
  complete : (t.after unread step).Complete fresh → Knows step.state .start
  proceed : directive = .proceed → unread.take step.taken ≠ [] →
    (left = 0 ↔ (t.after unread step).Complete fresh)
  finish : directive = .finish → unread.length ≤ step.taken → step.output.length < room →
    left = 0 ∧ ¬ (t.after unread step).Unfinished fresh
  takes : unread ≠ [] → t.Drained fresh → unread.take step.taken ≠ []

/-- A codec that knows enough of the tally, whatever it is asked to do. -/
structure KeepsTally (fresh : δ) (Knows : σ → Tally → Prop) : Prop where
  sound {s : σ} {t : Tally} : Knows s t → t.Sound fresh ∧ ¬ t.Complete fresh
  step {s : σ} {t : Tally} {unread : List UInt8} {room left : Nat} {directive : Directive} :
    Knows s t → 0 < room → (Codec.step s unread room directive).result = .ok left →
      Tallied fresh Knows t unread room directive (Codec.step s unread room directive) left
  fails {s : σ} {t : Tally} {room : Nat} {failure : Failure} : Knows s t → 0 < room →
    (Codec.step s [] room .finish).output.length < room →
      (Codec.step s [] room .finish).result = .error failure →
        t.Unfinished fresh ∧ ∃ text, failure = .codec text
  reset {s : σ} {t : Tally} : Knows s t → Knows (Codec.reset s) .start

namespace KeepsTally

variable {fresh : δ} {Knows : σ → Tally → Prop} {codec s : σ} {t : Tally}

/-- It never loses track. -/
theorem knows (h : KeepsTally fresh Knows) (hstart : Knows codec .start)
    (htracked : Tracked fresh codec t s) : Knows s t := by
  induction htracked with
  | start => exact hstart
  | step before room_pos succeeds becomes ih =>
    have htallied := h.step ih room_pos succeeds
    cases becomes with
    | next complete => exact htallied.complete complete
    | same unended => exact htallied.unended unended
  | reset before ih => exact h.reset ih

/-- Its results can be told from the tally. -/
theorem tracksFrames (h : KeepsTally fresh Knows) (hstart : Knows codec .start) :
    TracksFrames fresh codec where
  sound htracked := h.sound (h.knows hstart htracked)
  finish {t s room} := by
    intro htracked hroom hspare
    have hknows := h.knows hstart htracked
    cases hresult : (Codec.step s [] room .finish).result with
    | error failure =>
      obtain ⟨hunfinished, text, rfl⟩ := h.fails hknows hroom hspare hresult
      exact ⟨fun _ => ⟨text, rfl⟩, fun hnot => absurd hunfinished hnot⟩
    | ok left =>
      obtain ⟨rfl, hnot⟩ := (h.step hknows hroom hresult).finish rfl (Nat.zero_le _) hspare
      rw [Tally.unfinished_after_nil] at hnot
      exact ⟨fun hunfinished => absurd hunfinished hnot, fun _ => rfl⟩
  finish_over htracked hroom hresult :=
    (h.step (h.knows hstart htracked) hroom hresult).finish rfl
  proceed htracked hroom hresult :=
    (h.step (h.knows hstart htracked) hroom hresult).proceed rfl
  resumes {t s unread room left directive} := by
    intro htracked hread hne hroom hresult
    have hknows := h.knows hstart htracked
    have htallied := h.step hknows hroom hresult
    refine ⟨htallied.takes hne ((h.sound hknows).1.drained_of_nil hread), ?_⟩
    by_cases hcomplete : (t.after unread (Codec.step s unread room directive)).Complete fresh
    · exact hcomplete.sound
    · exact (h.sound (htallied.unended hcomplete)).1

end KeepsTally

variable {ρ : Type} [Unframer ρ] {fresh : δ} {At : ρ → Tally → Prop} {t : Tally}
  {unread : List UInt8} {room left : Nat} {directive : Directive}

namespace RanFrom

variable {run : Run ρ}

omit [Unframer ρ] in
theorem take_ne_nil (h : RanFrom fresh At t unread room run left) (hpos : 0 < run.taken) :
    unread.take run.taken ≠ [] := by
  have := h.taken_le
  rw [← List.length_pos_iff, List.length_take]
  omega

omit [Unframer ρ] in
/-- Something has been read of a frame if it has been before, or the run has taken something. -/
theorem isEmpty_read (h : RanFrom fresh At t unread room run left) :
    (!(t.read ++ unread.take run.taken).isEmpty) = (!t.read.isEmpty || decide (0 < run.taken)) := by
  by_cases hpos : 0 < run.taken
  · simp [h.take_ne_nil hpos, hpos]
  · obtain hzero : run.taken = 0 := by omega
    simp [hzero]

omit [Unframer ρ] in
/-- Without input, a run inside a frame that does not use up its room does not end it. -/
theorem unfinished (h : RanFrom fresh At t [] room run (left + 1)) (hspare : run.output.length < room)
    (hread : t.read ≠ []) : t.Unfinished fresh := by
  have hnot := fun hcomplete => Nat.succ_ne_zero left (h.ended.2 hcomplete)
  have hunfinished := (h.gives (Nat.zero_le _) hspare).unfinished hnot (by simpa [Tally.add] using hread)
  simpa [Tally.add, Tally.Unfinished] using hunfinished

variable {Knows : σ → Tally → Prop} {step : Step σ}

omit [Codec σ] [Unframer ρ] in
/-- A step that is a run to the end of a frame. -/
theorem tallied_zero (h : RanFrom fresh At t unread room run 0) (htaken : step.taken = run.taken)
    (houtput : step.output = run.output) (hknows : Knows step.state .start) :
    Tallied fresh Knows t unread room directive step 0 := by
  have hcomplete : (t.after unread step).Complete fresh := by
    rw [Tally.after, htaken, houtput]
    exact h.ended.1 rfl
  refine ⟨fun hnot => absurd hcomplete hnot, fun _ => hknows, fun _ _ => ?_, fun _ _ _ => ?_,
    fun hne hall => ?_⟩
  · exact ⟨fun _ => hcomplete, fun _ => rfl⟩
  · exact ⟨rfl, fun hunfinished => hunfinished.not_complete hcomplete⟩
  · rw [htaken]
    exact h.take_ne_nil (h.takes hne hall)

omit [Codec σ] [Unframer ρ] in
/-- A step that is a run that comes to no end. -/
theorem tallied_more {number : Nat} (h : RanFrom fresh At t unread room run (number + 1))
    (htaken : step.taken = run.taken) (houtput : step.output = run.output)
    (hknows : Knows step.state (t.after unread step)) (hproceed : directive = .proceed → left ≠ 0)
    (hfinish : directive = .finish → unread.length ≤ run.taken → run.output.length < room →
      left = 0 ∧ t.read ++ unread.take run.taken = []) :
    Tallied fresh Knows t unread room directive step left := by
  have hnot : ¬ (t.after unread step).Complete fresh := by
    rw [Tally.after, htaken, houtput]
    exact fun hcomplete => Nat.succ_ne_zero number (h.ended.2 hcomplete)
  refine ⟨fun _ => hknows, fun hcomplete => absurd hcomplete hnot, fun hdirective _ => ?_,
    fun hdirective hall hspare => ?_, fun hne hall => ?_⟩
  · exact ⟨fun hzero => absurd hzero (hproceed hdirective), fun hcomplete => absurd hcomplete hnot⟩
  · rw [htaken] at hall
    rw [houtput] at hspare
    obtain ⟨hzero, hread⟩ := hfinish hdirective hall hspare
    refine ⟨hzero, fun hunfinished => hunfinished.1 ?_⟩
    rw [Tally.after, htaken]
    exact hread
  · rw [htaken]
    exact h.take_ne_nil (h.takes hne hall)

end RanFrom

/-! ## Zstandard -/

namespace Zstd.Unpacking

/-- The flag says whether bytes of the frame have been read. -/
structure Knows (fresh : δ) (At : ρ → Tally → Prop) (u : Unpacking ρ) (t : Tally) : Prop where
  at_tally : At u.unframer t
  unended : ¬ t.Complete fresh
  frameOpen_eq : u.frameOpen = !t.read.isEmpty

/-- One step. -/
theorem tallied {u : Unpacking ρ} (hF : Framewise fresh At)
    (hresume : ∀ {u t}, At u t → t.Complete fresh → At u .start) (h : Knows fresh At u t)
    (hroom : 0 < room) (hresult : (Codec.step u unread room directive).result = .ok left) :
    Tallied fresh (Knows fresh At) t unread room directive (Codec.step u unread room directive)
      left := by
  cases hrun : (Unframer.run u.unframer unread room).result with
  | error text =>
    rw [result_step_of_error directive hrun] at hresult
    cases hresult
  | ok number =>
    have hran := hF.run h.at_tally h.unended hroom hrun
    cases number with
    | zero =>
      rw [step_of_zero directive hrun] at hresult ⊢
      obtain rfl := Except.ok.inj hresult
      have hat := hresume hran.goes (hran.ended.1 rfl)
      exact hran.tallied_zero rfl rfl ⟨hat, Tally.not_complete_start, rfl⟩
    | succ n =>
      obtain ⟨result, hstep, hproceed, hfinish⟩ := step_of_more directive hrun
      rw [hstep] at hresult ⊢
      obtain rfl : result = .ok left := hresult
      have hopen := hran.isEmpty_read
      rw [← h.frameOpen_eq] at hopen
      refine hran.tallied_more rfl rfl ⟨hran.goes, ?_, hopen.symm⟩ (fun hdirective => ?_)
        (fun hdirective hall hspare => ?_)
      · exact fun hcomplete => Nat.succ_ne_zero n (hran.ended.2 hcomplete)
      · obtain rfl := Except.ok.inj (hproceed hdirective)
        exact Nat.succ_ne_zero n
      · -- with nothing unread and room left, the flag decides
        have hended := hfinish hdirective
        rw [if_neg (by simp [hall, hspare]), ← hopen] at hended
        split at hended
        · cases hended
        · next hflag =>
          refine ⟨Except.ok.inj hended, List.isEmpty_iff.1 ?_⟩
          simpa only [Bool.not_eq_true', Bool.not_eq_false] using hflag

/-- The flag is right after every step. -/
theorem keepsTally (hF : Framewise fresh At)
    (hresume : ∀ {u t}, At u t → t.Complete fresh → At u .start) :
    KeepsTally fresh (Knows fresh At) where
  sound h := ⟨hF.sound h.at_tally, h.unended⟩
  step h hroom hresult := tallied hF hresume h hroom hresult
  fails {u t room failure} := by
    intro h hroom hspare hresult
    cases hrun : (Unframer.run u.unframer [] room).result with
    | error text =>
      rw [result_step_of_error .finish hrun] at hresult
      obtain rfl := Except.error.inj hresult
      have hreason := hF.fails h.at_tally h.unended hroom hrun
      exact ⟨hreason.resolve_left fun hne => hne rfl, _, rfl⟩
    | ok number =>
      have hran := hF.run h.at_tally h.unended hroom hrun
      cases number with
      | zero =>
        rw [step_of_zero .finish hrun] at hresult
        cases hresult
      | succ n =>
        obtain ⟨result, hstep, -, hfinish⟩ := step_of_more .finish hrun
        rw [hstep] at hresult hspare
        have hopen := hran.isEmpty_read
        rw [← h.frameOpen_eq] at hopen
        obtain rfl : result = .error failure := hresult
        have hended := hfinish rfl
        rw [if_neg (by simpa using hspare), ← hopen] at hended
        split at hended
        · next hflag =>
          exact ⟨hran.unfinished hspare (by simpa using hflag), _, Except.error.inj hended⟩
        · cases hended
  reset h := ⟨hF.reset h.at_tally, Tally.not_complete_start, rfl⟩

end Zstd.Unpacking

/-! ## DEFLATE -/

namespace Deflate.Unpacking

/-- Inside a stream, the flag says whether bytes of it have been read. After the end of one, the decoder
is of no use before it is reset. -/
inductive Knows (fresh : δ) (At : ρ → Tally → Prop) : Unpacking ρ → Tally → Prop where
  | within {unframer : ρ} {t : Tally} (at_tally : At unframer t) (unended : ¬ t.Complete fresh) :
      Knows fresh At ⟨unframer, !t.read.isEmpty, false⟩ t
  | ended {unframer : ρ} {frameOpen : Bool} (at_start : At (Unframer.reset unframer) .start) :
      Knows fresh At ⟨unframer, frameOpen, true⟩ .start

omit [Unframer ρ] in
/-- The flag is set in front of input, which is right because the decoder takes some of it if nothing
has been read of the stream. -/
theorem flag_eq {run : Run ρ} (hran : RanFrom fresh At t unread room run left)
    (hsound : t.Sound fresh) :
    (!t.read.isEmpty || !unread.isEmpty) = !(t.read ++ unread.take run.taken).isEmpty := by
  rw [hran.isEmpty_read]
  by_cases hread : t.read = []
  · by_cases hne : unread = []
    · subst hne
      rw [Nat.le_zero.1 hran.taken_le]
      rfl
    · have hpos := hran.takes hne (hsound.drained_of_nil hread)
      simpa [hread, hpos] using hne
  · rw [List.isEmpty_eq_false_iff.2 hread]
    rfl

/-- One step within a stream. -/
theorem tallied_within {unframer : ρ} (hF : Framewise fresh At) (hat : At unframer t)
    (hnot : ¬ t.Complete fresh) (hroom : 0 < room)
    (hresult : (stepWithin unframer (!t.read.isEmpty || !unread.isEmpty) unread room
      directive).result = .ok left) :
    Tallied fresh (Knows fresh At) t unread room directive
      (stepWithin unframer (!t.read.isEmpty || !unread.isEmpty) unread room directive) left := by
  cases hrun : (Unframer.run unframer unread room).result with
  | error text =>
    rw [result_stepWithin_of_error directive hrun] at hresult
    cases hresult
  | ok number =>
    have hran := hF.run hat hnot hroom hrun
    cases number with
    | zero =>
      rw [stepWithin_of_zero directive hrun] at hresult ⊢
      obtain rfl := Except.ok.inj hresult
      exact hran.tallied_zero rfl rfl (.ended (hF.reset hran.goes))
    | succ n =>
      rw [flag_eq hran (hF.sound hat)] at hresult ⊢
      obtain ⟨result, hstep, hproceed, hfinish⟩ := stepWithin_of_more directive hrun
      rw [hstep] at hresult ⊢
      obtain rfl : result = .ok left := hresult
      have hunended := fun hcomplete => Nat.succ_ne_zero n (hran.ended.2 hcomplete)
      refine hran.tallied_more rfl rfl (.within hran.goes hunended) (fun hdirective => ?_)
        (fun hdirective hall hspare => ?_)
      · obtain rfl := Except.ok.inj (hproceed hdirective)
        exact Nat.one_ne_zero
      · have hended := hfinish hdirective
        rw [if_neg (by simp [hall, hspare])] at hended
        split at hended
        · cases hended
        · next hflag =>
          refine ⟨Except.ok.inj hended, List.isEmpty_iff.1 ?_⟩
          simpa only [Bool.not_eq_true', Bool.not_eq_false] using hflag

/-- One step. -/
theorem tallied {u : Unpacking ρ} (hF : Framewise fresh At) (h : Knows fresh At u t)
    (hroom : 0 < room) (hresult : (Codec.step u unread room directive).result = .ok left) :
    Tallied fresh (Knows fresh At) t unread room directive (Codec.step u unread room directive)
      left := by
  change (step u unread room directive).result = _ at hresult
  change Tallied _ _ _ _ _ _ (step u unread room directive) _
  cases h with
  | within hat hnot => exact tallied_within hF hat hnot hroom hresult
  | @ended unframer frameOpen hstart =>
    by_cases hne : unread = []
    · -- nothing happens until there is input
      subst hne
      obtain rfl := Except.ok.inj hresult
      exact ⟨fun _ => .ended hstart, fun _ => .ended hstart, fun _ h => absurd rfl h,
        fun _ _ _ => ⟨rfl, fun hunfinished => hunfinished.1 rfl⟩, fun h => absurd rfl h⟩
    · have hunread : unread.isEmpty = false := List.isEmpty_eq_false_iff.2 hne
      have hwithin : step ⟨unframer, frameOpen, true⟩ unread room directive =
          stepWithin (Unframer.reset unframer) (!Tally.start.read.isEmpty || !unread.isEmpty) unread
            room directive := by
        simp [step, Tally.start, hunread]
      rw [hwithin] at hresult ⊢
      exact tallied_within hF hstart Tally.not_complete_start hroom hresult

/-- The flags are right after every step. -/
theorem keepsTally (hF : Framewise fresh At) : KeepsTally fresh (Knows fresh At) where
  sound h := by
    cases h with
    | within hat hnot => exact ⟨hF.sound hat, hnot⟩
    | ended hstart => exact ⟨hF.sound hstart, Tally.not_complete_start⟩
  step h hroom hresult := tallied hF h hroom hresult
  fails {u t room failure} := by
    intro h hroom hspare hresult
    change (step u [] room .finish).result = _ at hresult
    change (step u [] room .finish).output.length < _ at hspare
    cases h with
    | @within unframer t hat hnot =>
      rw [step, if_neg Bool.false_ne_true, List.isEmpty_nil, Bool.not_true, Bool.or_false]
        at hresult hspare
      cases hrun : (Unframer.run unframer [] room).result with
      | error text =>
        rw [result_stepWithin_of_error .finish hrun] at hresult
        obtain rfl := Except.error.inj hresult
        have hreason := hF.fails hat hnot hroom hrun
        exact ⟨hreason.resolve_left fun hne => hne rfl, _, rfl⟩
      | ok number =>
        have hran := hF.run hat hnot hroom hrun
        cases number with
        | zero =>
          rw [stepWithin_of_zero .finish hrun] at hresult
          cases hresult
        | succ n =>
          obtain ⟨result, hstep, -, hfinish⟩ := stepWithin_of_more .finish hrun
          rw [hstep] at hresult hspare
          obtain rfl : result = .error failure := hresult
          have hended := hfinish rfl
          rw [if_neg (by simpa using hspare)] at hended
          split at hended
          · next hflag =>
            exact ⟨hran.unfinished hspare (by simpa using hflag), _, Except.error.inj hended⟩
          · cases hended
    | ended hstart => cases hresult
  reset {u t} := by
    intro h
    cases h with
    | within hat hnot => exact .within (hF.reset hat) Tally.not_complete_start
    | ended hstart => exact .within hstart Tally.not_complete_start

end Deflate.Unpacking

/-! ## The two codecs -/

/-- The decompressing codecs track frames, over any decoder that works frame by frame. Between two
frames, the Zstandard codec leaves it to the decoder to go on; the other one resets it. -/
theorem unpacking_tracks_frames {unframer : ρ} (hF : Framewise fresh At)
    (hstart : At unframer .start) :
    ((∀ {u t}, At u t → t.Complete fresh → At u .start) →
      TracksFrames fresh (Zstd.Unpacking.new unframer)) ∧
    TracksFrames fresh (Deflate.Unpacking.new unframer) := by
  refine ⟨fun hresume => ?_, ?_⟩
  · exact (Zstd.Unpacking.keepsTally hF hresume).tracksFrames
      ⟨hstart, Tally.not_complete_start, rfl⟩
  · exact (Deflate.Unpacking.keepsTally hF).tracksFrames
      (.within hstart Tally.not_complete_start)

/-- Two bytes are no Zstandard frame, and five may be a whole DEFLATE stream; the codecs know. -/
theorem unpacking_tracks_frames_opening :
    let zstd := Zstd.Unpacking.new (Queued.new (Zstd.Decoder.new (.windowed 1024)))
    let opened := (Codec.step zstd [0x28, 0xb5] 4 .proceed).state
    let deflate := Deflate.Unpacking.new (Queued.new (PlainDecoder.start .deflate))
    let ended := (Codec.step deflate [1, 0, 0, 0xff, 0xff] 4 .proceed).state
    Tracked (Zstd.Decoder.new (.windowed 1024)) zstd ⟨[0x28, 0xb5], []⟩ opened ∧
    (∃ text, (Codec.step opened [] 4 .finish).result = .error (.codec text)) ∧
    Tracked (PlainDecoder.start .deflate) deflate .start ended ∧
    (Codec.step ended [] 4 .finish).result = .ok 0 := by
  intro zstd opened deflate ended
  have hzstd := Zstd.Decoder.rewinds (.windowed 1024)
  have htracks := (unpacking_tracks_frames (Queued.bytewise.framewise hzstd)
    ⟨_, ⟨rfl, rfl⟩, Queued.at_start hzstd⟩).1 (Bytewise.resume hzstd)
  have hdeflate := PlainDecoder.rewinds .deflate
  have htracks' := (unpacking_tracks_frames (Queued.bytewise.framewise hdeflate)
    ⟨_, ⟨rfl, rfl⟩, Queued.at_start hdeflate⟩).2
  -- the first bytes of a frame
  have hpart : Part (Zstd.Decoder.new (.windowed 1024)) [0x28, 0xb5] ([] ++ ([] ++ [])) :=
    .more rfl (.more rfl .nil)
  have hunfinished : (⟨[0x28, 0xb5], []⟩ : Tally).Unfinished (Zstd.Decoder.new (.windowed 1024)) :=
    ⟨by decide, _, hpart⟩
  have hopened : Tracked (Zstd.Decoder.new (.windowed 1024)) zstd ⟨[0x28, 0xb5], []⟩ opened :=
    .step .start (by decide) rfl (.same hunfinished.not_complete)
  -- a whole stream
  have hended : Tracked (PlainDecoder.start .deflate) deflate .start ended := by
    obtain ⟨d, -, hframe⟩ := PlainDecoder.isFrame .deflate [] _ rfl
    exact .step .start (by decide) rfl (.next ⟨d, hframe⟩)
  refine ⟨hopened, ?_, hended, ?_⟩
  · exact (htracks.finish hopened (by decide) (by decide)).1 hunfinished
  · exact (htracks'.finish hended (by decide) (by decide)).2 fun h => h.1 rfl

end Sluice
