import Sluice.Proofs.CutFrames
import Sluice.Proofs.FrameDecoders
import Sluice.Proofs.Gathering

/-!
# Streams that are cut off

A stream that ends inside a frame is never taken for a complete one, whichever way it is decoded.

* `FrameDecoder.strictDecoding`, `Zstd.Unpacking.strictDecoding`,
  `Deflate.Unpacking.strictDecoding` — all frame decoders of the library are strict.
* `decompressFrame_fails` — decoding one frame at once.
* `Reader.failing_of_new` — a reader.
* `cut_streams_fail` — all of them, and the iterator.
-/

namespace Sluice

variable {δ : Type} [ByteDecoder δ]

/-! ## The frame decoders complain -/

/-- Without input inside a frame, a run fills its room, or leaves nothing in the queue. -/
theorem Queued.go_unended {q : Queued δ} (hq : q.failure = none) (hend : q.frameEnd = false)
    (room : Nat) :
    (q.go [] room 0 #[]).result = .ok 1 ∧
      ((q.go [] room 0 #[]).output.length < room → (q.go [] room 0 #[]).state = .new q.decoder) := by
  obtain ⟨d, queue, frameEnd, failure⟩ := q
  obtain rfl : failure = none := hq
  obtain rfl : frameEnd = false := hend
  by_cases hroom : room < queue.length
  · rw [go_waiting 0 #[] hroom]
    refine ⟨rfl, fun hlt => ?_⟩
    simp only [List.nil_append, List.length_take] at hlt
    omega
  · rw [go_nil 0 #[] (Nat.le_of_not_lt hroom)]
    exact ⟨rfl, fun _ => rfl⟩

/-- The codec of a frame automaton is strict. -/
theorem FrameDecoder.strictDecoding {δ : Type} [FrameAutomaton δ] [LawfulFrameAutomaton δ] :
    StrictDecoding (Like : FrameDecoder δ → Queued δ → Bool → Prop) where
  toFrameDecoding := frameDecoding
  roomless {s q partRead unread} := by
    intro hlike _
    exact go_agrees hlike unread 0 0 #[]
  complains {s q room} := by
    intro hlike hend
    obtain ⟨d, queue, frameEnd, pace⟩ := s
    by_cases hroom : room < queue.length
    · exact .inl (agrees_of_stop hlike .finish [] 0 #[] (.inr hroom))
    · obtain ⟨rfl, rfl, hpart⟩ := hlike
      obtain rfl : frameEnd = false := hend
      rw [step_unended (Nat.le_of_not_lt hroom)]
      exact .inr ⟨⟨_, if_pos hpart⟩, rfl, rfl, hpart⟩

variable {ρ : Type} [Unframer ρ] {like : ρ → Queued δ → Prop}

/-- A decoder that works byte by byte also without room. -/
theorem Bytewise.runs (hB : Bytewise like)
    (hroomless : ∀ {u : ρ} {q : Queued δ} {unread}, like u q → Runs like u q unread 0) {u : ρ}
    {q : Queued δ} (h : like u q) (unread : List UInt8) (room : Nat) : Runs like u q unread room := by
  cases room with
  | zero => exact hroomless h
  | succ room => exact hB.run h (Nat.succ_pos room)

/-- Without input inside a frame, a run does not end it; it fills its room, or leaves nothing in the
queue. -/
theorem Runs.unended {u : ρ} {q : Queued δ} {room : Nat} (h : Runs like u q [] room)
    (hq : q.failure = none) (hend : q.frameEnd = false) :
    (∃ left, (Unframer.run u [] room).result = .ok (left + 1)) ∧
      (¬ room ≤ (Unframer.run u [] room).output.length →
        like (Unframer.run u [] room).state (.new q.decoder)) := by
  obtain ⟨hresult, hstate⟩ := Queued.go_unended hq hend room
  unfold Runs Agrees at h
  rw [hresult] at h
  obtain ⟨-, houtput, hlike, number, hnumber, hzero⟩ := h
  obtain ⟨left, rfl⟩ := Nat.exists_eq_succ_of_ne_zero fun h => Nat.one_ne_zero (hzero.1 h)
  refine ⟨⟨left, hnumber⟩, fun hfull => ?_⟩
  rw [houtput] at hfull
  rwa [hstate (Nat.lt_of_not_le hfull)] at hlike

/-- The Zstandard codec over a decoder that works byte by byte is strict. -/
theorem Zstd.Unpacking.strictDecoding (hB : Bytewise like)
    (hroomless : ∀ {u : ρ} {q : Queued δ} {unread}, like u q → Runs like u q unread 0) :
    StrictDecoding (Like like) where
  toFrameDecoding := frameDecoding hB
  roomless {u q partRead unread} := by
    intro hlike _
    refine follows (hroomless hlike.1) hlike .proceed fun left hleft => ?_
    obtain ⟨result, hstep, hproceed, -⟩ := step_of_more .proceed hleft
    exact ⟨left, by rw [hstep, hproceed rfl]⟩
  complains {u q room} := by
    intro hlike hend
    have hrun := hB.runs hroomless hlike.1 [] room
    obtain ⟨⟨left, hleft⟩, hnew⟩ := hrun.unended (hB.intact hlike.1) hend
    obtain ⟨result, hstep, -, hfinish⟩ := step_of_more .finish hleft
    by_cases hfull : room ≤ (Unframer.run u.unframer [] room).output.length
    · refine .inl (follows hrun hlike .finish fun left' hleft' => ⟨0, ?_⟩)
      rw [hstep, hfinish rfl, if_pos (.inl hfull)]
    · have hopen : (u.frameOpen || decide (0 < (Unframer.run u.unframer [] room).taken)) = true := by
        rw [hlike.2, Bool.true_or]
      rw [hstep, hfinish rfl, List.drop_nil, if_neg (by simpa using hfull), hopen, if_pos rfl]
      exact .inr ⟨⟨_, rfl⟩, hnew hfull, rfl⟩

/-- The DEFLATE codec over a decoder that works byte by byte is strict, if after the end of a stream
the automaton is as after a reset. -/
theorem Deflate.Unpacking.strictDecoding (hB : Bytewise like)
    (hroomless : ∀ {u : ρ} {q : Queued δ} {unread}, like u q → Runs like u q unread 0)
    (hrewinds : ∀ (d next : δ) byte output,
      ByteDecoder.feed d byte = .ended next output → ByteDecoder.reset next = next) :
    StrictDecoding (Like like) where
  toFrameDecoding := frameDecoding hB hrewinds
  roomless {u q partRead unread} := by
    intro h hne
    exact follows_proceed hB hrewinds hroomless h hne
  complains {u q room} := by
    intro h hend
    have hended := h.not_ended
    have hrun := hB.runs hroomless h.like [] room
    have hq := hB.intact h.like
    obtain ⟨⟨left, hleft⟩, hnew⟩ := hrun.unended hq hend
    have hwithin : Codec.step u [] room .finish =
        stepWithin u.unframer true [] room .finish := by
      change step u [] room .finish = _
      rw [step, hended, if_neg Bool.false_ne_true, h.frameOpen hended, Bool.true_or]
    obtain ⟨result, hstep, -, hfinish⟩ := stepWithin_of_more .finish hleft
    rw [hwithin]
    by_cases hfull : room ≤ (Unframer.run u.unframer [] room).output.length
    · refine .inl (follows hrewinds hrun hq (fun _ => rfl) h.rewound .finish (.inr rfl)
        fun left' hleft' => ⟨0, ?_⟩)
      rw [hstep, hfinish rfl, if_pos (.inl hfull)]
    · rw [hstep, hfinish rfl, List.drop_nil, if_neg (by simpa using hfull), if_pos rfl]
      exact .inr ⟨⟨_, rfl⟩, hnew hfull, fun _ => rfl, fun _ => rfl, fun h => Bool.noConfusion h,
        fun h => Bool.noConfusion h⟩

/-! ## Whole frames at once -/

namespace BlockList

/-- A list of blocks that has room, or may not grow. -/
structure Roomy (b : BlockList) : Prop where
  within : ∀ limit, b.limit = some limit → b.allocated ≤ limit
  room : 0 < b.active.spare ∨ b.atLimit = true

theorem roomy_start (limit : Option Nat) : (start limit).Roomy := by
  cases limit with
  | none => exact ⟨nofun, .inl (by simp [start, blockSize_pos])⟩
  | some limit =>
    refine ⟨?_, ?_⟩
    · rintro limit ⟨⟩
      exact Nat.min_le_right ..
    · by_cases hzero : limit = 0
      · exact .inr (by simp [start, atLimit, hzero])
      · have := blockSize_pos 0
        exact .inl (by simp [start]; omega)

/-- Below its limit, a list that grows gets some room. -/
theorem roomy_grow {b b' : BlockList} (h : ∀ limit, b.limit = some limit → b.allocated ≤ limit)
    (hbelow : b.atLimit = false) (hgrow : b.grow = .ok b') : b'.Roomy := by
  refine ⟨within_grow h hgrow, .inl ?_⟩
  have hpos := nextSize_pos h hbelow
  rcases grow_inv hgrow with ⟨hzero, -⟩ | ⟨-, rfl⟩
  · omega
  · exact hpos

end BlockList

variable {σ : Type} [Codec σ] {like : σ → Queued δ → Bool → Prop}

namespace Gathering

/-- A decoder is asked to go on as long as there is input. -/
theorem directive_cases (input : Input) :
    decodingDirective input = .proceed ∧ input.unread ≠ [] ∨
      decodingDirective input = .finish ∧ input.unread = [] := by
  rw [decodingDirective]
  by_cases hnil : input.unread = []
  · rw [if_pos (Input.isConsumed_iff.2 hnil)]
    exact .inr ⟨rfl, hnil⟩
  · rw [if_neg (mt Input.isConsumed_iff.1 hnil)]
    exact .inl ⟨rfl, hnil⟩

/-- A step in the front of a frame does not end it. If it has room, it takes or collects
something. -/
theorem step_hanging (hS : StrictDecoding like) {c c₁ : Gathering σ} {content : List UInt8}
    {number : Nat} (h : Hanging like c.codec c.input.unread content)
    (hstep : c.step (decodingDirective c.input) = (.ok number, c₁)) :
    number ≠ 0 ∧ ∃ missing, Hanging like c₁.codec c₁.input.unread missing ∧
      (0 < c.blocks.active.spare →
        c₁.input.unread.length + missing.length < c.input.unread.length + content.length) := by
  simp only [step, Prod.mk.injEq] at hstep
  obtain ⟨hres, rfl⟩ := hstep
  have hlead : (c.turn (decodingDirective c.input) number).Leads c.codec _ := Turn.leads_ofStep hres
  have hoffered : (c.turn (decodingDirective c.input) number).offered ++ [] = c.input.unread :=
    (List.append_nil _).trans (Turn.offered_ofStep ..)
  have hasked : decodingDirective c.input = .proceed ∧
        (c.turn (decodingDirective c.input) number).offered ≠ [] ∨
      decodingDirective c.input = .finish ∧
        (c.turn (decodingDirective c.input) number).offered ++ [] = [] := by
    rw [hoffered, Turn.offered_ofStep]
    exact directive_cases c.input
  rw [← hoffered] at h
  obtain ⟨hleft, hdoes, missing, hcontent, hanging⟩ := h.turn hS hasked hlead
  rw [List.append_nil] at hanging
  refine ⟨hleft, missing, hanging, fun hroom => ?_⟩
  have hsplit : c.input.unread.length = (c.turn (decodingDirective c.input) number).taken.length +
      (c.turn (decodingDirective c.input) number).rest.length := by
    rw [← List.length_append, ← hoffered, List.append_nil]
    rfl
  have hmissing := congrArg List.length hcontent
  rw [List.length_append] at hmissing
  change (c.turn (decodingDirective c.input) number).rest.length + _ < _
  rcases hdoes hroom with htaken | hmade
  · have := List.length_pos_iff.2 htaken
    omega
  · have := List.length_pos_iff.2 hmade
    omega

omit [ByteDecoder δ] in
/-- After a step, the blocks may become as large as before, and there is no more room than before. -/
theorem blocks_of_step {c c₁ : Gathering σ} {directive : Directive} {result : Except Failure Nat}
    (h : c.step directive = (result, c₁)) :
    c₁.blocks.allocated = c.blocks.allocated ∧ c₁.blocks.limit = c.blocks.limit ∧
      c₁.blocks.active.spare ≤ c.blocks.active.spare := by
  simp only [step, Prod.mk.injEq] at h
  obtain ⟨-, rfl⟩ := h
  exact ⟨rfl, rfl, drive_spare_le ..⟩

/-- Decoding a frame whose input ends in it fails, however many steps are allowed from some number
on. -/
theorem decode_hanging (hS : StrictDecoding like) {c : Gathering σ} {content : List UInt8}
    (h : Hanging like c.codec c.input.unread content) (hblocks : c.blocks.Roomy) :
    ∃ failure c', ∀ limit, c.input.unread.length + content.length ≤ limit →
      decode (limit + 1) c = (.error failure, c') := by
  -- on what is left to be taken and to be collected
  induction hn : c.input.unread.length + content.length using Nat.strongRecOn
    generalizing c content with
  | _ n ih =>
    rcases hstep : c.step (decodingDirective c.input) with ⟨failure | number, c₁⟩
    · exact ⟨failure, c₁, fun limit _ => by simp only [decode, hstep]⟩
    obtain ⟨hne, missing, hanging, hless⟩ := step_hanging hS h hstep
    obtain ⟨number, rfl⟩ := Nat.exists_eq_succ_of_ne_zero hne
    obtain ⟨hallocated, hlimit, hspare⟩ := blocks_of_step hstep
    have hwithin : ∀ limit, c₁.blocks.limit = some limit → c₁.blocks.allocated ≤ limit := by
      rw [hallocated, hlimit]
      exact hblocks.within
    -- where the decoder goes on with some room in the blocks, there was room for this step
    have hgoes : ∀ blocks : BlockList, blocks.Roomy → 0 < c.blocks.active.spare →
        (∀ limit, decode (limit + 1) c = decode limit { c₁ with blocks }) →
          ∃ failure c', ∀ limit, n ≤ limit → decode (limit + 1) c = (.error failure, c') := by
      intro blocks hroomy hroom hdecode
      have hlt := hn ▸ hless hroom
      obtain ⟨failure, c', hfails⟩ := ih _ hlt (c := { c₁ with blocks }) hanging hroomy rfl
      refine ⟨failure, c', fun limit hle => ?_⟩
      obtain ⟨limit, rfl⟩ := Nat.exists_eq_succ_of_ne_zero (show limit ≠ 0 by omega)
      rw [hdecode]
      exact hfails limit (Nat.le_of_lt_succ (Nat.lt_of_lt_of_le hlt hle))
    cases hfull : c₁.blocks.isFull with
    | false =>
      have hroom : 0 < c₁.blocks.active.spare := by
        simp only [BlockList.isFull, Window.isFull, beq_eq_false_iff_ne] at hfull
        exact Nat.pos_of_ne_zero hfull
      refine hgoes c₁.blocks ⟨hwithin, .inl hroom⟩ (Nat.lt_of_lt_of_le hroom hspare) fun limit => ?_
      simp [decode, hstep, hfull]
    | true =>
      cases hatLimit : c₁.blocks.atLimit with
      | true =>
        -- there is one more step, and it does not end the frame either
        rcases hlast : c₁.step (decodingDirective c₁.input) with ⟨failure | number, c₂⟩
        · refine ⟨.codec (excessText c₂.blocks.allocated), c₂, fun limit _ => ?_⟩
          simp [decode, hstep, hfull, hatLimit, hlast]
        · obtain ⟨hne, -⟩ := step_hanging hS hanging hlast
          obtain ⟨number, rfl⟩ := Nat.exists_eq_succ_of_ne_zero hne
          refine ⟨.codec (excessText c₂.blocks.allocated), c₂, fun limit _ => ?_⟩
          simp [decode, hstep, hfull, hatLimit, hlast]
      | false =>
        have hroom : 0 < c.blocks.active.spare := by
          refine hblocks.room.resolve_right fun h => ?_
          rw [BlockList.atLimit, ← hallocated, ← hlimit] at h
          exact Bool.noConfusion (hatLimit.symm.trans h)
        rcases hgrow : c₁.blocks.grow with failure | blocks
        · refine ⟨failure, c₁, fun limit _ => ?_⟩
          simp [decode, hstep, hfull, hatLimit, hgrow]
        · refine hgoes blocks (BlockList.roomy_grow hwithin hatLimit hgrow) hroom fun limit => ?_
          simp [decode, hstep, hfull, hatLimit, hgrow]

end Gathering

/-- Decoding the front of a frame at once fails, whatever the limits are; the number of steps has to be
large enough for the failure to be found. -/
theorem decompressFrame_fails (hS : StrictDecoding like) {codec : σ} {automaton : δ}
    {part made : List UInt8} (hlike : like codec (.new automaton) false)
    (hpart : Part automaton part made) (hne : part ≠ []) (maxOutput : Option Nat) :
    ∃ failure, ∀ limit, part.length + made.length < limit →
      (decompressFrame limit codec part maxOutput).1 = .error failure := by
  have hanging : Hanging like (Gathering.start codec part maxOutput).codec
      (Gathering.start codec part maxOutput).input.unread made :=
    ⟨.new automaton, false, hlike, .intro hpart, .inr hne⟩
  obtain ⟨failure, c', hdecode⟩ :=
    Gathering.decode_hanging hS hanging (BlockList.roomy_start maxOutput)
  refine ⟨failure, fun limit hlimit => ?_⟩
  obtain ⟨limit, rfl⟩ := Nat.exists_eq_succ_of_ne_zero (Nat.ne_of_gt (Nat.zero_lt_of_lt hlimit))
  rw [decompressFrame, hdecode limit (Nat.le_of_lt_succ hlimit)]
  rfl

/-! ## Readers -/

namespace Reader

variable {Owes : σ → List UInt8 → List (List UInt8) → Prop} {codec : σ} {source : Source}
  {settings : ReaderSettings} {contents : List (List UInt8)} {r r' : Reader σ}

omit [Codec σ] in
/-- A new reader over a decoder that complains delivers at most what is owed, whether it has been
entered or not. -/
theorem failing_of_new (hnew : Reader.new .decompressing codec source settings = .ok r)
    (hopen : r' = r ∨ r.enter = (.ok (), r')) (howes : Owes codec source.content contents)
    (hsteady : source.Steady) (hsingle : settings.acrossFrames = true ∨ contents.tail = []) :
    Failing Owes r' contents.flatten := by
  obtain ⟨hrunning, hahead, hstops, hdirection, hsource⟩ :=
    running_of_new_decompressing hnew hopen hsteady.whole
  have hsingle' : r'.stopsAtFrameEnd = true → contents.tail = [] := by
    intro hstop
    refine hsingle.resolve_left fun hacross => ?_
    rw [hstops, hacross] at hstop
    cases hstop
  rw [← expected_eq_flatten hsingle']
  exact .intro hrunning (hsource.symm ▸ hsteady) hdirection (hahead ▸ howes) hsingle'

end Reader

/-! ## Cut-off streams -/

/-- Whole frames with the contents `contents` and the front of another frame, which makes `made`, are
never taken for a complete stream: not by the function that decodes one frame, not by a reader,
however its source gives its bytes, and not by an iterator. Without `acrossFrames`, a reader reads
one frame, and so does that function. -/
structure NeverComplete (codec : σ) (whole part : List UInt8) (contents : List (List UInt8))
    (made : List UInt8) : Prop where
  atOnce (maxOutput : Option Nat) : contents = [] →
    ∃ failure, ∀ limit, part.length + made.length < limit →
      (decompressFrame limit codec part maxOutput).1 = .error failure
  read {source : Source} {settings : ReaderSettings} : source.content = whole ++ part →
    source.Steady → 0 < settings.readSize → settings.acrossFrames = true ∨ contents = [] →
      ∃ r entered, Reader.new .decompressing codec source settings = .ok r ∧ r.delivered = 0 ∧
        r.enter = (.ok (), entered) ∧ r.Exposes (contents.flatten ++ made) ∧
        entered.Exposes (contents.flatten ++ made)
  iterated {source : Source} {readSize writeSize : Nat} : source.content = whole ++ part →
    source.Steady → 0 < readSize → 0 < writeSize →
      ∃ p pieces, Pieces.decompressing codec source readSize writeSize 0 = .ok p ∧
        p.Fails pieces ∧ pieces.flatten <+: contents.flatten ++ made

/-- A strict frame decoder never takes a stream for complete that ends inside a frame. -/
theorem cut_streams_fail (hS : StrictDecoding like) {codec : σ} {automaton d d' : δ}
    {whole part missing content : List UInt8} {contents : List (List UInt8)}
    (hlike : like codec (.new automaton) false) (hframes : Frames automaton whole contents d)
    (hframe : Frame d (part ++ missing) content d') (hpart : part ≠ []) (hmissing : missing ≠ []) :
    ∃ made, Part d part made ∧ made <+: content ∧ NeverComplete codec whole part contents made := by
  obtain ⟨made, hmade, hfront⟩ := hframe.part hmissing
  have howes : Short like codec (whole ++ part) (contents ++ [made]) :=
    .between hlike (hframes.cut hmade hpart)
  have hflatten : (contents ++ [made]).flatten = contents.flatten ++ made := by simp
  refine ⟨made, hmade, hfront, ?_, ?_, ?_⟩
  · rintro maxOutput rfl
    cases hframes
    exact decompressFrame_fails hS hlike hmade hpart maxOutput
  · intro source settings hcontent hsteady hsize hacross
    have hsingle : settings.acrossFrames = true ∨ (contents ++ [made]).tail = [] :=
      hacross.imp_right fun h => by rw [h]; rfl
    have hexposes : ∀ {r r' : Reader σ}, Reader.new .decompressing codec source settings = .ok r →
        r' = r ∨ r.enter = (.ok (), r') → r'.Exposes (contents.flatten ++ made) := by
      intro r r' hnew hopen
      have hfailing := Reader.failing_of_new hnew hopen (hcontent ▸ howes) hsteady hsingle
      rw [hflatten] at hfailing
      exact hfailing.exposes hS.complains_short
    have hnew : Reader.new .decompressing codec source settings = .ok _ :=
      if_neg (Nat.ne_of_gt hsize)
    exact ⟨_, _, hnew, rfl, rfl, hexposes hnew (.inl rfl), hexposes hnew (.inr rfl)⟩
  · intro source readSize writeSize hcontent hsteady hread hwrite
    have hnew : ∃ r, Reader.new .decompressing codec source
        ((ReaderSettings.forDecompression.withReadSize readSize).withAcrossFrames true) = .ok r :=
      ⟨_, if_neg (Nat.ne_of_gt hread)⟩
    obtain ⟨r, hnew⟩ := hnew
    have hfailing := Reader.failing_of_new hnew (.inl rfl) (hcontent ▸ howes) hsteady (.inl rfl)
    rw [hflatten] at hfailing
    have hskip : r.skipInput 0 = (.ok (), r) := by
      rw [Reader.skipInput, if_pos (Nat.zero_le _), List.drop_zero]
    have hpieces : Pieces.decompressing codec source readSize writeSize 0 =
        .ok ⟨r, writeSize, false⟩ := by
      simp only [Pieces.decompressing, hnew, hskip, Pieces.new, if_neg (Nat.ne_of_gt hwrite)]
    obtain ⟨pieces, hfails, hprefix⟩ :=
      Pieces.fails_of_failing hS.complains_short (p := ⟨r, writeSize, false⟩) hfailing hwrite rfl
    exact ⟨_, pieces, hpieces, hfails, hprefix⟩

/-- A frame of two bytes is cut off behind the first one, with a whole frame before it. -/
theorem cut_streams_fail_lengthPrefixed :
    ∃ made, Part (Toy.LengthPrefixed.new 2) [2, 7] made ∧ made <+: [7, 7, 8, 8] ∧
      NeverComplete (FrameDecoder.new (Toy.LengthPrefixed.new 2) none) [1, 9] [2, 7] [[9, 9]]
        made := by
  have hlike : FrameDecoder.Like (.new (Toy.LengthPrefixed.new 2) none)
      (.new (Toy.LengthPrefixed.new 2)) false := ⟨rfl, rfl, rfl⟩
  have hwhole : Frames (Toy.LengthPrefixed.new 2) ([1, 9] ++ []) [[] ++ [9, 9]]
      (Toy.LengthPrefixed.new 2) := .cons (.more rfl (.ended rfl)) .nil
  have hframe : Frame (Toy.LengthPrefixed.new 2) ([2, 7] ++ [8]) ([] ++ ([7, 7] ++ [8, 8]))
      (Toy.LengthPrefixed.new 2) := .more rfl (.more rfl (.ended rfl))
  exact cut_streams_fail FrameDecoder.strictDecoding hlike hwhole hframe (by decide) (by decide)

end Sluice
