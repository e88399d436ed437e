import Sluice.Proofs.EncodingReaders
import Sluice.Proofs.Seeking
import Sluice.Proofs.ShortReads

/-!
# The lengths of pieces

An iterator over the decoded form of a source cuts it into pieces of one size. That takes more than
reads that deliver the stream in order: none of them may come back short before the end.

* `Reader.Due.fill_exact` — a request that is not eager gets as much as it asks for, or all that there
  is.
* `Reader.skipInput_steady` — input that is skipped is gone, and nothing else.
* `Cut` — some content in pieces of one size.
* `Pieces.Over`, `Pieces.over_of_next` — an iterator that has stopped.
* `Pieces.cuts_of_due` — one that has something to deliver.
* `Pieces.partitions` — stored data, and whole frames, behind input that is skipped.
-/

namespace Sluice

variable {σ : Type} [Codec σ]

namespace Reader

variable {Owes : σ → List UInt8 → List (List UInt8) → Prop} {r r' : Reader σ} {s : σ}
  {bytes : List UInt8}

/-! ## Requests -/

/-- A codec in front of what it owes keeps owing something. -/
theorem survives_of_truthful (hT : Truthful Owes) :
    Survives fun s x => ∃ contents, Owes s x contents where
  turn := by
    rintro s s' t later ⟨contents, howes⟩ hturn hlead
    obtain ⟨missing, others, -, hzero, hmore⟩ := hT.proceeds howes hturn hlead
    by_cases hleft : t.left = 0
    · exact ⟨_, (hzero hleft).2⟩
    · exact ⟨_, hmore hleft⟩

omit [Codec σ] in
/-- A reader that is done has nothing to deliver. -/
theorem Due.eq_nil (h : Due Owes r bytes) (hdone : r.outputDone = true) : bytes = [] := by
  cases h with
  | ended => rfl
  | running running _ => exact Bool.noConfusion (running.outputDone.symm.trans hdone)

/-- A request that is answered with less than it asks for has got all that there is. -/
theorem Due.of_short (hT : Truthful Owes) (h : Due Owes r bytes) {size : Nat}
    {piece later : List UInt8} (hfill : r.fill false size = (.ok piece, r')) (hshort : piece.length < size)
    (hlater : Due Owes r' later) : later = [] := by
  cases h with
  | ended phase done =>
    rw [fill, if_neg phase, if_pos (.inl done)] at hfill
    cases hfill
    exact hlater.eq_nil done
  | running hr owes =>
    cases fill_stop (survives_of_truthful hT) hfill hr.phase hr.outputDone hr.pledged hr.codec
      ⟨_, owes⟩ (Nat.zero_lt_of_lt hshort) with
    | ended done _ => exact hlater.eq_nil done
    | enough _ got =>
      rcases got with hfull | heager
      · exact absurd hfull (Nat.ne_of_lt hshort)
      · cases heager
    | stuck _ stuck =>
      cases stuck with
      | intro _ holds turn leads idle _ _ _ =>
        obtain ⟨contents, howes⟩ := holds
        rcases hT.advances howes turn leads with htaken | hmade
        · exact absurd idle.1 htaken
        · exact absurd idle.2 hmade

/-- Over a source that does not fail, a request that is not eager gets as much as it asks for, or
all that there is. -/
theorem Due.fill_exact (hO : Honours Owes) (h : Due Owes r bytes) (hs : r.source.Steady) {size : Nat}
    (hsize : 0 < size) :
    ∃ r', r.fill false size = (.ok (bytes.take size), r') ∧ Due Owes r' (bytes.drop size) ∧
      r'.source.Steady ∧ r'.direction = r.direction := by
  have hT := hO.toPays.toTruthful
  have key := fill_due hT h false hsize
  have hdirection := (settings_fill false r size).direction
  rcases hf : r.fill false size with ⟨answer, r'⟩
  rw [hf] at key hdirection
  cases key with
  | @answered piece later _ due _ length _ plan =>
    have hexact : (piece ++ later).take size = piece ∧ (piece ++ later).drop size = later := by
      rcases Nat.lt_or_eq_of_le length with hshort | hfull
      · obtain rfl := h.of_short hT hf hshort due
        rw [List.append_nil]
        exact ⟨List.take_of_length_le length, List.drop_of_length_le length⟩
      · rw [← hfull]
        exact ⟨List.take_left, List.drop_left⟩
    rw [hexact.1, hexact.2]
    exact ⟨r', rfl, due, hs.of_suffix plan, hdirection⟩
  | lost _ _ _ _ fails =>
    rw [hs.failures_eq_zero] at fails
    exact absurd fails (Nat.not_lt_zero _)
  | refused running owes refused => exact absurd refused (not_refused hO owes)

/-! ## Skipping -/

omit [Codec σ] in
/-- Input that is skipped is gone, and nothing else, if there is enough of it. -/
theorem skipInput_steady (hr : r.Running s) (hs : r.source.Steady) (count : Nat) :
    (count ≤ r.ahead.length → ∃ r', r.skipInput count = (.ok (), r') ∧ r'.Running s ∧
      r'.ahead = r.ahead.drop count ∧ r'.source.Steady ∧ r.SameStream r') ∧
    (r.ahead.length < count → ∃ r', r.skipInput count = (.error (.misuse .skipPastEnd), r')) := by
  fun_induction skipInput r count
  case case1 r hle =>
    have henough : count ≤ r.ahead.length := by
      rw [ahead, List.length_append]
      omega
    refine ⟨fun _ => ⟨_, rfl, ?_, ?_, hs, rfl⟩, fun hlt => absurd henough (Nat.not_le_of_lt hlt)⟩
    · exact ⟨hr.phase, hr.outputDone, hr.pledged, hr.codec, hr.sound.readSize_pos, hr.sound.whole,
        hr.sound.content_nil⟩
    · exact (List.drop_append_of_le_length hle).symm
  case case2 r hlt hdone =>
    have hahead : r.ahead = r.pending := by
      rw [ahead, hr.sound.content_nil hdone, List.append_nil]
    rw [hahead]
    exact ⟨fun hle => absurd hle hlt, fun _ => ⟨r, rfl⟩⟩
  case case3 r hlt hdone failure r₁ hp =>
    obtain ⟨-, -, -, -, -, -, hfails⟩ := pull_error hr.sound hp
    rw [hs.failures_eq_zero] at hfails
    exact absurd hfails (Nat.not_lt_zero _)
  case case4 r hlt hdone r₁ hp ih =>
    obtain ⟨hahead, hsound, hsame, hplan, hout⟩ := pull_ok hr.sound hp
    have hcodec : r₁.codec = .live s := by
      obtain ⟨bytes, source, -, rfl⟩ := pull_ok_inv hp
      exact hr.codec
    obtain ⟨hskips, hends⟩ := ih (hr.after hsame hout hcodec hsound) (hs.of_suffix hplan)
    rw [hahead] at hskips hends
    refine ⟨fun hle => ?_, hends⟩
    obtain ⟨r', hskip, hrunning, hdropped, hsteady, hsame'⟩ := hskips hle
    exact ⟨r', hskip, hrunning, hdropped, hsteady, hsame.trans hsame'⟩

end Reader

/-! ## Pieces -/

/-- The `content` in `pieces` of `size` bytes. Only the last one may be shorter, and none is empty.
-/
structure Cut (size : Nat) (content : List UInt8) (pieces : List (List UInt8)) : Prop where
  flatten : pieces.flatten = content
  full : ∀ piece ∈ pieces.dropLast, piece.length = size
  nonempty : ∀ piece ∈ pieces, piece ≠ []
  length_le : ∀ piece ∈ pieces, piece.length ≤ size

namespace Cut

variable {size : Nat} {content : List UInt8} {pieces : List (List UInt8)}

theorem nil : Cut size [] [] := ⟨rfl, nofun, nofun, nofun⟩

/-- The first piece, if there is anything. -/
theorem cons (hne : content ≠ []) (hsize : 0 < size) (h : Cut size (content.drop size) pieces) :
    Cut size content (content.take size :: pieces) where
  flatten := by rw [List.flatten_cons, h.flatten, List.take_append_drop]
  full := by
    intro piece hmem
    cases pieces with
    | nil => cases hmem
    | cons next others =>
      rcases List.mem_cons.1 hmem with rfl | hmem
      · -- something is left behind the first piece
        have hnext : next ++ others.flatten = content.drop size := h.flatten
        have hlength := congrArg List.length hnext
        rw [List.length_append, List.length_drop] at hlength
        have := List.length_pos_iff.2 (h.nonempty next List.mem_cons_self)
        rw [List.length_take]
        omega
      · exact h.full piece hmem
  nonempty := by
    intro piece hmem
    rcases List.mem_cons.1 hmem with rfl | hmem
    · intro hnil
      rcases List.take_eq_nil_iff.1 hnil with hzero | hempty
      · exact absurd hzero (Nat.ne_of_gt hsize)
      · exact hne hempty
    · exact h.nonempty piece hmem
  length_le := by
    intro piece hmem
    rcases List.mem_cons.1 hmem with rfl | hmem
    · exact List.length_take_le size content
    · exact h.length_le piece hmem

end Cut

namespace Pieces

variable {p p' : Pieces σ}

/-- Nothing comes any more, however often the iterator is asked. -/
def Over (p : Pieces σ) : Prop := p.next = (none, p)

theorem over_of_done (h : p.done = true) : p.Over := by
  rw [Over, next, if_pos h]

/-- An iterator that gives nothing, or a failure, gives nothing more. -/
theorem over_of_next {item : Option (Except Failure (List UInt8))} (h : p.next = (item, p'))
    (hlast : ∀ piece, item ≠ some (.ok piece)) : p'.Over := by
  rw [next] at h
  split at h
  · next hdone =>
    cases h
    exact over_of_done hdone
  · dsimp only at h
    split at h
    · cases h
      exact over_of_done rfl
    · cases h
      exact absurd rfl (hlast _)
    · cases h
      exact over_of_done rfl

/-- An iterator over a reader that has `content` to deliver cuts it into pieces. -/
theorem cuts_of_due {Owes : σ → List UInt8 → List (List UInt8) → Prop} (hO : Honours Owes)
    {content : List UInt8} (h : p.reader.Due Owes content) (hs : p.reader.source.Steady)
    (hdirection : p.reader.direction = .decompressing) (hsize : 0 < p.writeSize)
    (hdone : p.done = false) :
    ∃ pieces p', p.Gives pieces p' ∧ p'.Over ∧ Cut p.writeSize content pieces := by
  -- on the number of bytes that are left
  induction hlength : content.length using Nat.strongRecOn generalizing p content with
  | _ n ih =>
    obtain ⟨r', hfill, hdue, hsteady, hsame⟩ := h.fill_exact hO hs hsize
    have hread : p.reader.read p.writeSize = (.ok (content.take p.writeSize), r') := by
      rw [Reader.read, if_neg (Nat.ne_of_gt hsize)]
      exact hfill
    by_cases hne : content = []
    · subst hne
      rw [List.take_nil] at hread
      have hnext : p.next = (none, { p with reader := r', done := true }) := by
        simp [next, hdone, hdirection, hread]
      exact ⟨[], _, .nil hnext, over_of_done rfl, .nil⟩
    · have hlt : (content.drop p.writeSize).length < n := by
        have := List.length_pos_iff.2 hne
        rw [List.length_drop]
        omega
      obtain ⟨pieces, p', hgives, hover, hothers⟩ := ih _ hlt (p := { p with reader := r' }) hdue
        hsteady (hsame.trans hdirection) hsize hdone rfl
      have hcut := hothers.cons hne hsize
      obtain ⟨byte, rest, hpiece⟩ :=
        List.exists_cons_of_ne_nil (hcut.nonempty _ List.mem_cons_self)
      have hnext : p.next = (some (.ok (content.take p.writeSize)), { p with reader := r' }) := by
        simp [next, hdone, hdirection, hread, hpiece]
      exact ⟨_, p', .cons hnext hgives, hover, hcut⟩

/-- An iterator over the source can be made, it gives the `content` in pieces, and then nothing
more. -/
def Partitions (codec : σ) (source : Source) (readSize writeSize skip : Nat)
    (content : List UInt8) : Prop :=
  ∃ p pieces p', Pieces.decompressing codec source readSize writeSize skip = .ok p ∧
    p.Gives pieces p' ∧ p'.Over ∧ Cut writeSize content pieces

section New

variable {codec : σ} {source : Source} {readSize writeSize skip : Nat}

omit [Codec σ] in
/-- The reader of a new iterator, before anything is skipped. -/
theorem exists_running (codec : σ) (hread : 0 < readSize) (hsteady : source.Steady) :
    ∃ r, Reader.new .decompressing codec source
        ((ReaderSettings.forDecompression.withReadSize readSize).withAcrossFrames true) = .ok r ∧
      r.Running codec ∧ r.ahead = source.content ∧ r.stopsAtFrameEnd = false ∧
      r.direction = .decompressing ∧ r.source.Steady := by
  have hnew : ∃ r, Reader.new .decompressing codec source
      ((ReaderSettings.forDecompression.withReadSize readSize).withAcrossFrames true) = .ok r :=
    ⟨_, if_neg (Nat.ne_of_gt hread)⟩
  obtain ⟨r, hnew⟩ := hnew
  obtain ⟨hrunning, hahead, hstops, hdirection, hsource⟩ :=
    Reader.running_of_new_decompressing hnew (.inl rfl) hsteady.whole
  exact ⟨r, hnew, hrunning, hahead, hstops, hdirection, hsource.symm ▸ hsteady⟩

omit [Codec σ] in
/-- There is less than is to be skipped. -/
theorem decompressing_of_short (codec : σ) (hread : 0 < readSize) (hsteady : source.Steady)
    (hshort : source.content.length < skip) :
    decompressing codec source readSize writeSize skip = .error (.misuse .skipPastEnd) := by
  obtain ⟨r, hnew, hrunning, hahead, -, -, hs⟩ := exists_running codec hread hsteady
  obtain ⟨r', hskip⟩ := (Reader.skipInput_steady hrunning hs skip).2 (hahead ▸ hshort)
  simp only [decompressing, hnew, hskip]

/-- A new iterator cuts what its decoder owes for the input that is not skipped. -/
theorem partitions_of_owes {Owes : σ → List UInt8 → List (List UInt8) → Prop} (hO : Honours Owes)
    {contents : List (List UInt8)} (howes : Owes codec (source.content.drop skip) contents)
    (hread : 0 < readSize) (hwrite : 0 < writeSize) (hsteady : source.Steady)
    (henough : skip ≤ source.content.length) :
    Partitions codec source readSize writeSize skip contents.flatten := by
  obtain ⟨r, hnew, hrunning, hahead, hstops, hdirection, hs⟩ := exists_running codec hread hsteady
  obtain ⟨r', hskip, hrunning', hahead', hs', hsame⟩ :=
    (Reader.skipInput_steady hrunning hs skip).1 (hahead ▸ henough)
  have hpieces : decompressing codec source readSize writeSize skip = .ok ⟨r', writeSize, false⟩ := by
    simp only [decompressing, hnew, hskip, new, if_neg (Nat.ne_of_gt hwrite)]
  rw [hahead] at hahead'
  have hdue : r'.Due Owes (expected r'.stopsAtFrameEnd contents) :=
    .running hrunning' (hahead' ▸ howes)
  rw [hsame.stops, hstops] at hdue
  have hdirection' : r'.direction = .decompressing := by
    rw [hsame]
    exact hdirection
  obtain ⟨pieces, p', hgives, hover, hcut⟩ :=
    cuts_of_due hO (p := ⟨r', writeSize, false⟩) hdue hs' hdirection' hwrite rfl
  exact ⟨_, pieces, p', hpieces, hgives, hover, hcut⟩

end New

/-- An iterator drops what is to be skipped, or fails if there is less than that. Over stored data,
and over a frame decoder and whole frames, it cuts the content of what is left into pieces of one
size. After the last piece, and after a failure, it gives nothing more, whatever the codec is. -/
theorem partitions {source : Source} {readSize writeSize skip : Nat} (hsteady : source.Steady)
    (hskip : skip < readSize) (hwrite : 0 < writeSize) :
    checkSkip skip readSize = .ok () ∧
    (source.content.length < skip → ∀ {σ : Type} (codec : σ),
      decompressing codec source readSize writeSize skip = .error (.misuse .skipPastEnd)) ∧
    (skip ≤ source.content.length →
      Partitions Stored.stored source readSize writeSize skip (source.content.drop skip) ∧
      ∀ {σ δ : Type} [Codec σ] [ByteDecoder δ] {like : σ → Queued δ → Bool → Prop} {codec : σ}
        {automaton d' : δ} {contents : List (List UInt8)}, FrameDecoding like →
        like codec (.new automaton) false →
        Frames automaton (source.content.drop skip) contents d' →
          Partitions codec source readSize writeSize skip contents.flatten) ∧
    ∀ {σ : Type} [Codec σ] {p p' : Pieces σ} {item : Option (Except Failure (List UInt8))},
      p.next = (item, p') → (∀ piece, item ≠ some (.ok piece)) → p'.Over := by
  have hread : 0 < readSize := Nat.zero_lt_of_lt hskip
  refine ⟨if_neg (Nat.not_le_of_lt hskip), fun hshort => ?_, fun henough => ⟨?_, ?_⟩, ?_⟩
  · intro σ codec
    exact decompressing_of_short codec hread hsteady hshort
  · have hpartitions : Partitions Stored.stored source readSize writeSize skip
        [source.content.drop skip].flatten :=
      partitions_of_owes Stored.honours rfl hread hwrite hsteady henough
    rwa [List.flatten_singleton] at hpartitions
  · intro σ δ _ _ like codec automaton d' contents hF hlike hframes
    exact partitions_of_owes hF.honours (.between hlike hframes) hread hwrite hsteady henough
  · intro σ _ p p' item hnext hlast
    exact over_of_next hnext hlast

/-- Two bytes are skipped, and three frames are cut into pieces of four bytes; the source gives one
byte first, and is interrupted. -/
theorem partitions_lengthPrefixed :
    Partitions (FrameDecoder.new (Toy.LengthPrefixed.new 2) none)
      ⟨[5, 6, 2, 7, 8, 0, 1, 9], [.move 1, .fail (.plain .interrupted)], #[]⟩ 3 4 2
      [7, 7, 8, 8, 9, 9] := by
  have hsteady : Source.Steady
      ⟨[5, 6, 2, 7, 8, 0, 1, 9], [.move 1, .fail (.plain .interrupted)], #[]⟩ := by
    simp [Source.Steady, IoError.kind]
  have hlike : FrameDecoder.Like (.new (Toy.LengthPrefixed.new 2) none)
      (.new (Toy.LengthPrefixed.new 2)) false := ⟨rfl, rfl, rfl⟩
  obtain ⟨-, -, hpieces, -⟩ := partitions hsteady (show 2 < 3 by decide) (show 0 < 4 by decide)
  exact (hpieces (by decide)).2 FrameDecoder.frameDecoding hlike Toy.LengthPrefixed.frames_three

end Pieces

end Sluice
