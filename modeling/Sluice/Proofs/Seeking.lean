import Sluice.Proofs.ReaderBooks
import Sluice.Proofs.ReadingFrames
import Sluice.Proofs.StoredData

/-!
# Seeking

A seek is a read whose bytes nobody looks at. It gets to its target, or to the end of the stream if
that comes first, and the stream goes on from there; a seek that is refused has not touched anything.

* `Reader.SeekFrom.aim`, `Reader.SeekFrom.target_of_aim` — the position that is asked for, as an
  integer without bounds, and when it is refused.
* `Reader.SeekFrom.target_start`, `Reader.SeekFrom.target_current` — the target is found by checked
  computations with 64-bit words.
* `Reader.At` — a reader that is at its position in some content.
* `Reader.At.fill`, `Reader.At.discard`, `Reader.At.seek` — one request, reading and discarding, and
  a seek.
* `Reader.Seeks`, `Reader.Navigates` — what seeks come to on a reader, and after any calls.
* `Reader.navigates` — stored data, and whole frames.
-/

namespace Sluice

variable {σ : Type} [Codec σ]

namespace Reader

/-! ## Targets -/

/-- The position that is asked for. One that is counted from the end is not known. -/
def SeekFrom.aim (goal : SeekFrom) (current : Nat) : Option Int :=
  match goal with
  | .start offset => some offset
  | .current delta => some (current + delta)
  | .fromEnd _ => none

/-- A position is refused if it lies behind, or does not fit a position. -/
theorem SeekFrom.target_of_aim {goal : SeekFrom} {current : Nat} {target : Int}
    (h : goal.aim current = some target) :
    goal.target current =
      if (current : Int) ≤ target ∧ target < positionLimit then .ok target.toNat
      else .error (.misuse .backwardSeek) := by
  cases goal with
  | start offset =>
    obtain rfl := Option.some.inj h
    rfl
  | current delta =>
    obtain rfl := Option.some.inj h
    rfl
  | fromEnd delta => cases h

/-- A position that is counted from the end is refused as well. -/
theorem SeekFrom.target_of_aim_eq_none {goal : SeekFrom} {current : Nat}
    (h : goal.aim current = none) :
    goal.target current = .error (.unsupported "seek relative to end of stream") := by
  cases goal with
  | start offset => cases h
  | current delta => cases h
  | fromEnd delta => rfl

/-! ## Targets in words -/

/-- The sum of two words, if it is one. -/
def checkedAdd (a b : UInt64) : Option UInt64 :=
  if a.toNat + b.toNat < UInt64.size then some (a + b) else none

/-- The difference of two words, if it is one. -/
def checkedSub (a b : UInt64) : Option UInt64 := if b ≤ a then some (a - b) else none

/-- The distance of a signed word from zero. -/
def unsignedAbs (delta : Int64) : UInt64 := .ofNat delta.toInt.natAbs

/-- The word at a signed distance from another one, if there is one. -/
def checkedMove (current : UInt64) (delta : Int64) : Option UInt64 :=
  if 0 ≤ delta then checkedAdd current delta.toUInt64 else checkedSub current (unsignedAbs delta)

/-- The target, unless there is none or it lies behind. -/
def forwardOnly (current : UInt64) : Option UInt64 → Except Failure Nat
  | some target =>
    if current ≤ target then .ok target.toNat else .error (.misuse .backwardSeek)
  | none => .error (.misuse .backwardSeek)

section Words

variable {a b c current target : UInt64} {delta : Int64}

theorem toNat_of_checkedAdd (h : checkedAdd a b = some c) : c.toNat = a.toNat + b.toNat := by
  unfold checkedAdd at h
  split at h
  · next hlt =>
    obtain rfl := Option.some.inj h
    rw [UInt64.toNat_add, Nat.mod_eq_of_lt hlt]
  · cases h

theorem size_le_of_checkedAdd (h : checkedAdd a b = none) : UInt64.size ≤ a.toNat + b.toNat := by
  unfold checkedAdd at h
  split at h
  · cases h
  · next hge => exact Nat.not_lt.1 hge

theorem toNat_of_checkedSub (h : checkedSub a b = some c) : c.toNat + b.toNat = a.toNat := by
  unfold checkedSub at h
  split at h
  · next hle =>
    obtain rfl := Option.some.inj h
    rw [UInt64.toNat_sub_of_le a b hle, Nat.sub_add_cancel (UInt64.le_iff_toNat_le.1 hle)]
  · cases h

theorem lt_of_checkedSub (h : checkedSub a b = none) : a.toNat < b.toNat := by
  unfold checkedSub at h
  split at h
  · cases h
  · next hnot => exact Nat.not_le.1 fun hle => hnot (UInt64.le_iff_toNat_le.2 hle)

theorem toNat_unsignedAbs (delta : Int64) : (unsignedAbs delta).toNat = delta.toInt.natAbs := by
  have hlow := delta.le_toInt
  have hhigh := delta.toInt_lt
  rw [unsignedAbs, UInt64.toNat_ofNat_of_lt']
  simp only [UInt64.size]
  omega

/-- A word at a signed distance is the sum of the integers. -/
theorem toNat_of_checkedMove (h : checkedMove current delta = some target) :
    (target.toNat : Int) = current.toNat + delta.toInt := by
  unfold checkedMove at h
  split at h
  · next hdelta =>
    have hnonneg : 0 ≤ delta.toInt := Int64.le_iff_toInt_le.1 hdelta
    have hword : delta.toUInt64.toNat = delta.toInt.toNat := Int64.toNat_toUInt64_of_le hdelta
    have hsum := toNat_of_checkedAdd h
    omega
  · next hdelta =>
    have hneg : delta.toInt < 0 := Int.not_le.1 fun h => hdelta (Int64.le_iff_toInt_le.2 h)
    have hdifference := toNat_of_checkedSub h
    rw [toNat_unsignedAbs] at hdifference
    omega

/-- Where there is no such word, the sum is none. -/
theorem no_word_of_checkedMove (h : checkedMove current delta = none) :
    (current.toNat : Int) + delta.toInt < 0 ∨ UInt64.size ≤ (current.toNat : Int) + delta.toInt := by
  unfold checkedMove at h
  split at h
  · next hdelta =>
    have hnonneg : 0 ≤ delta.toInt := Int64.le_iff_toInt_le.1 hdelta
    have hword : delta.toUInt64.toNat = delta.toInt.toNat := Int64.toNat_toUInt64_of_le hdelta
    have hsum := size_le_of_checkedAdd h
    omega
  · next hdelta =>
    have hneg : delta.toInt < 0 := Int.not_le.1 fun h => hdelta (Int64.le_iff_toInt_le.2 h)
    have hlt := lt_of_checkedSub h
    rw [toNat_unsignedAbs] at hlt
    omega

end Words

/-- What is asked for from the start is compared with the position. -/
theorem SeekFrom.target_start (offset current : UInt64) :
    (SeekFrom.start offset.toNat).target current.toNat = forwardOnly current (some offset) := by
  have hoffset : offset.toNat < UInt64.size := offset.toNat_lt
  rw [SeekFrom.target, SeekFrom.target.forward, forwardOnly, positionLimit]
  simp only [UInt64.le_iff_toNat_le, Int.ofNat_le, Int.ofNat_lt, hoffset, and_true, Int.toNat_natCast]

/-- What is asked for from the position is a checked sum, or a checked difference. -/
theorem SeekFrom.target_current (delta : Int64) (current : UInt64) :
    (SeekFrom.current delta.toInt).target current.toNat =
      forwardOnly current (checkedMove current delta) := by
  rw [SeekFrom.target, SeekFrom.target.forward, positionLimit]
  cases hword : checkedMove current delta with
  | none =>
    have hnone := no_word_of_checkedMove hword
    rw [if_neg (by omega)]
    rfl
  | some target =>
    have htarget := toNat_of_checkedMove hword
    have hlt : target.toNat < UInt64.size := target.toNat_lt
    simp only [forwardOnly, UInt64.le_iff_toNat_le, ← htarget, Int.ofNat_le, Int.ofNat_lt, hlt,
      and_true, Int.toNat_natCast]

/-! ## Positions -/

variable {Owes : σ → List UInt8 → List (List UInt8) → Prop} {r r' : Reader σ} {s : σ}
  {content : List UInt8} {contents : List (List UInt8)}

/-- The reader is at its position in the `content`: what lies behind it has been delivered or
discarded, and what lies ahead of it is due. -/
structure At (Owes : σ → List UInt8 → List (List UInt8) → Prop) (content : List UInt8)
    (r : Reader σ) : Prop where
  le : r.delivered ≤ content.length
  due : Due Owes r (content.drop r.delivered)
  decompressing : r.direction = .decompressing

omit [Codec σ] in
theorem Due.phase {bytes : List UInt8} (h : Due Owes r bytes) : r.phase ≠ .closed := by
  cases h with
  | ended phase _ => exact phase
  | running running _ => exact running.phase

/-- What a request comes to on a reader that is at its position. -/
inductive FillAt (Owes : σ → List UInt8 → List (List UInt8) → Prop) (content : List UInt8)
    (size : Nat) (r : Reader σ) : Except Failure (List UInt8) → Reader σ → Prop where
  /-- it moves the reader by what it delivers, and does not move it only at the end -/
  | moved {piece : List UInt8} {r' : Reader σ} (stays : At Owes content r')
      (delivered : r'.delivered = r.delivered + piece.length) (length : piece.length ≤ size)
      (ended : piece = [] → r'.delivered = content.length)
      (failures : r'.source.failures ≤ r.source.failures) :
      FillAt Owes content size r (.ok piece) r'
  /-- or the source fails -/
  | failed {failure : Failure} {r' : Reader σ} (fails : r'.source.failures < r.source.failures) :
      FillAt Owes content size r (.error failure) r'

theorem At.fill (hO : Honours Owes) (h : At Owes content r) (eager : Bool) {size : Nat}
    (hsize : 0 < size) :
    FillAt Owes content size r (r.fill eager size).1 (r.fill eager size).2 := by
  have key := fill_due hO.toPays.toTruthful h.due eager hsize
  have hdirection := (settings_fill eager r size).direction.trans h.decompressing
  generalize hahead : content.drop r.delivered = bytes at key
  rcases hf : r.fill eager size with ⟨answer, r'⟩
  rw [hf] at key hdirection
  cases key with
  | @answered piece later _ due nil length delivered plan =>
    have hlength := congrArg List.length hahead
    rw [List.length_drop, List.length_append] at hlength
    have hle := h.le
    have hlater : content.drop r'.delivered = later := by
      rw [delivered, ← List.drop_drop, hahead, List.drop_left]
    refine .moved ⟨by omega, hlater.symm ▸ due, hdirection⟩ delivered length (fun hnil => ?_)
      (Source.failures_le_of_suffix plan)
    obtain rfl := nil hnil
    rw [List.length_nil] at hlength
    omega
  | lost _ _ _ _ fails => exact .failed fails
  | refused running owes refused => exact absurd refused (not_refused hO owes)

/-- Reading and discarding gets as far as it is to go, or to the end, unless the source fails. -/
theorem At.discard (hO : Honours Owes) (h : At Owes content r) (distance : Nat) :
    (∃ r', r.discard distance = (.ok (), r') ∧ At Owes content r' ∧
      r'.delivered = min (r.delivered + distance) content.length) ∨
    ∃ failure r', r.discard distance = (.error failure, r') ∧
      r'.source.failures < r.source.failures := by
  have hread : ∀ {r r₁ : Reader σ} {distance answer}, At Owes content r → distance ≠ 0 →
      r.readInto (min distance decompressionOutputSize) = (answer, r₁) →
        FillAt Owes content (min distance decompressionOutputSize) r answer r₁ := by
    intro r r₁ distance answer h hdistance hread
    have hsize : 0 < min distance decompressionOutputSize :=
      Nat.lt_min.2 ⟨Nat.pos_of_ne_zero hdistance, by decide⟩
    have key := h.fill hO false hsize
    rwa [show r.fill false _ = _ from hread] at key
  fun_induction Reader.discard r distance
  case case1 r => exact .inl ⟨r, rfl, h, (Nat.min_eq_left h.le).symm⟩
  case case2 r distance hdistance failure r₁ hanswer =>
    cases hread h hdistance hanswer with
    | failed fails => exact .inr ⟨failure, r₁, rfl, fails⟩
  case case3 r distance hdistance r₁ hanswer =>
    cases hread h hdistance hanswer with
    | moved stays delivered _ ended _ =>
      have hend := ended rfl
      rw [List.length_nil] at delivered
      exact .inl ⟨r₁, rfl, stays, by omega⟩
  case case4 r distance hdistance byte rest r₁ hanswer ih =>
    cases hread h hdistance hanswer with
    | moved stays delivered length _ failures =>
      rw [List.length_cons] at delivered length
      rcases ih stays with ⟨r', hdiscard, hat, hcount⟩ | ⟨failure, r', herror, hfails⟩
      · exact .inl ⟨r', hdiscard, hat, by omega⟩
      · exact .inr ⟨failure, r', herror, Nat.lt_of_lt_of_le hfails failures⟩

/-- A seek that is not refused gets to its target, or to the end, unless the source fails. -/
theorem At.seek (hO : Honours Owes) (h : At Owes content r) {goal : SeekFrom} {target : Nat}
    (htarget : goal.target r.delivered = .ok target) (hle : r.delivered ≤ target) :
    (∃ r', r.seek goal = (.ok (min target content.length), r') ∧ At Owes content r' ∧
      r'.delivered = min target content.length) ∨
    ∃ failure r', r.seek goal = (.error failure, r') ∧
      r'.source.failures < r.source.failures := by
  rw [Reader.seek, h.decompressing]
  simp only [if_neg h.due.phase, htarget]
  rcases h.discard hO (target - r.delivered) with
    ⟨r', hdiscard, hat, hcount⟩ | ⟨failure, r', herror, hfails⟩
  · rw [Nat.add_sub_cancel' hle] at hcount
    simp only [hdiscard, hcount]
    exact .inl ⟨r', rfl, hat, hcount⟩
  · simp only [herror]
    exact .inr ⟨failure, r', rfl, hfails⟩

/-- Calls that succeed leave a reader at its position. -/
theorem At.callAll (hO : Honours Owes) (h : At Owes content r) (calls : List ReaderCall)
    (hok : ∀ result ∈ (r.callAll calls).1, ∃ answer, result = .ok answer) :
    At Owes content (r.callAll calls).2 := by
  refine callAll_preserves (P := At Owes content) (fun {r} eager size h hok => ?_) h calls
    fun _ : True => hok
  rcases Nat.eq_zero_or_pos size with rfl | hsize
  · rw [Reader.fill, if_neg h.due.phase, if_pos (.inr rfl)]
    exact h
  · have key := h.fill hO eager hsize
    obtain ⟨bytes, hbytes⟩ := hok trivial
    rw [hbytes] at key
    cases key with
    | moved stays _ _ _ _ => exact stays

/-! ## Seeks -/

/-- A seek has got to a `position` in the `content`, and the content goes on from there. -/
structure Lands (content : List UInt8) (position : Nat)
    (result : Except Failure Nat × Reader σ) : Prop where
  answer : result.1 = .ok position
  delivered : result.2.delivered = position
  withstands : result.2.Withstands (content.drop position)
  delivers : result.2.source.failures = 0 → result.2.Delivers (content.drop position)

/-- Seeks on a reader that is somewhere in the `content`. -/
structure Seeks (content : List UInt8) (r : Reader σ) : Prop where
  position_le : r.delivered ≤ content.length
  /-- a position that does not lie behind and that fits a position is reached, or the end is, unless
  the source fails on the way -/
  reaches {goal : SeekFrom} {target : Int} : goal.aim r.delivered = some target →
    r.delivered ≤ target → target < positionLimit →
      Lands content (min target.toNat content.length) (r.seek goal) ∨
        ((∃ failure, (r.seek goal).1 = .error failure) ∧
          (r.seek goal).2.source.failures < r.source.failures)
  /-- any other is refused, and the reader is as it was -/
  refuses {goal : SeekFrom} {target : Int} : goal.aim r.delivered = some target →
    target < r.delivered ∨ positionLimit ≤ target →
      r.seek goal = (.error (.misuse .backwardSeek), r)
  /-- and so is one that is counted from the end -/
  unsupported {goal : SeekFrom} : goal.aim r.delivered = none →
    r.seek goal = (.error (.unsupported "seek relative to end of stream"), r)

theorem At.refused (h : At Owes content r) {goal : SeekFrom} {failure : Failure}
    (htarget : goal.target r.delivered = .error failure) : r.seek goal = (.error failure, r) := by
  rw [Reader.seek, h.decompressing]
  simp only [if_neg h.due.phase, htarget]

theorem At.seeks (hO : Honours Owes) (h : At Owes content r) : r.Seeks content where
  position_le := h.le
  reaches {goal target} := by
    intro haim hle hlt
    have htarget : goal.target r.delivered = .ok target.toNat := by
      rw [SeekFrom.target_of_aim haim, if_pos ⟨hle, hlt⟩]
    rcases h.seek hO htarget (by omega) with ⟨r', hseek, hat, hcount⟩ | ⟨failure, r', herror, hfails⟩
    · rw [hseek]
      have hwithstands := hat.due.withstands hO
      rw [hcount] at hwithstands
      exact .inl ⟨rfl, hcount, hwithstands, hwithstands.delivers⟩
    · rw [herror]
      exact .inr ⟨⟨failure, rfl⟩, hfails⟩
  refuses {goal target} := by
    intro haim hout
    refine h.refused ?_
    rw [SeekFrom.target_of_aim haim, if_neg (by omega)]
  unsupported := fun haim => h.refused (SeekFrom.target_of_aim_eq_none haim)

/-- After calls that succeed, seeks land where they should, or they are refused. -/
def Navigates (r : Reader σ) (content : List UInt8) : Prop :=
  ∀ calls : List ReaderCall,
    (∀ result ∈ (r.callAll calls).1, ∃ answer, result = .ok answer) →
      (r.callAll calls).2.Seeks content

section New

variable {codec : σ} {source : Source} {settings : ReaderSettings}

theorem navigates_of_new (hO : Honours Owes)
    (hnew : Reader.new .decompressing codec source settings = .ok r)
    (hopen : r' = r ∨ r.enter = (.ok (), r')) (howes : Owes codec source.content contents)
    (hwhole : source.Whole) : r'.Navigates (expected (!settings.acrossFrames) contents) := by
  intro calls hok
  have hdelivered : r'.delivered = 0 := by
    obtain ⟨-, rfl⟩ := new_ok hnew
    rcases hopen with rfl | henter
    · rfl
    · obtain rfl := enter_ok henter
      rfl
  obtain ⟨-, -, -, hdirection, -⟩ := running_of_new_decompressing hnew hopen hwhole
  have hdue := due_of_new hnew hopen howes hwhole
  have hat : At Owes (expected (!settings.acrossFrames) contents) r' := by
    refine ⟨hdelivered ▸ Nat.zero_le _, ?_, hdirection⟩
    rw [hdelivered]
    exact hdue
  exact (hat.callAll hO calls hok).seeks hO

end New

/-- Readers over stored data, and readers over frame decoders and whole frames, can be moved
forward: within all that the source gives, or within the first of its frames. -/
theorem navigates {source : Source} {settings : ReaderSettings} (hwhole : source.Whole)
    (hsize : 0 < settings.readSize) :
    (∃ r entered, Reader.new .decompressing Stored.stored source settings = .ok r ∧
      r.delivered = 0 ∧ r.enter = (.ok (), entered) ∧ r.Navigates source.content ∧
      entered.Navigates source.content) ∧
    ∀ {σ δ : Type} [Codec σ] [ByteDecoder δ] {like : σ → Queued δ → Bool → Prop} {codec : σ}
      {automaton d' : δ} {contents : List (List UInt8)}, FrameDecoding like →
      like codec (.new automaton) false → Frames automaton source.content contents d' →
        ∃ r entered, Reader.new .decompressing codec source settings = .ok r ∧ r.delivered = 0 ∧
          r.enter = (.ok (), entered) ∧
          r.Navigates (if settings.acrossFrames then contents.flatten else contents.headD []) ∧
          entered.Navigates (if settings.acrossFrames then contents.flatten else contents.headD []) := by
  constructor
  · have hnew : Reader.new .decompressing Stored.stored source settings = .ok _ :=
      if_neg (Nat.ne_of_gt hsize)
    have hexpected : expected (!settings.acrossFrames) [source.content] = source.content :=
      expected_of_tail_eq_nil rfl
    rw [← hexpected]
    exact ⟨_, _, hnew, rfl, rfl, navigates_of_new Stored.honours hnew (.inl rfl) rfl hwhole,
      navigates_of_new Stored.honours hnew (.inr rfl) rfl hwhole⟩
  · intro σ δ _ _ like codec automaton d' contents hF hlike hframes
    have hnew : Reader.new .decompressing codec source settings = .ok _ :=
      if_neg (Nat.ne_of_gt hsize)
    rw [← expected_not]
    exact ⟨_, _, hnew, rfl, rfl,
      navigates_of_new hF.honours hnew (.inl rfl) (.between hlike hframes) hwhole,
      navigates_of_new hF.honours hnew (.inr rfl) (.between hlike hframes) hwhole⟩

end Reader

/-- Three frames, one of them empty. -/
theorem Toy.LengthPrefixed.frames_three :
    Frames (LengthPrefixed.new 2) [2, 7, 8, 0, 1, 9] [[7, 7, 8, 8], [], [9, 9]] (.new 2) :=
  have hframes : Frames (LengthPrefixed.new 2) ([2, 7, 8] ++ ([0] ++ ([1, 9] ++ [])))
      [[] ++ ([7, 7] ++ [8, 8]), [], [] ++ [9, 9]] (.new 2) :=
    .cons (.more rfl (.more rfl (.ended rfl))) (.cons (.ended rfl)
      (.cons (.more rfl (.ended rfl)) .nil))
  hframes

namespace Reader

/-- These frames, from a source that is interrupted, gives one byte, and times out. -/
theorem navigates_lengthPrefixed :
    (∃ r entered, Reader.new .decompressing Stored.stored
        ⟨[2, 7, 8, 0, 1, 9], [.fail (.plain .interrupted), .move 1, .fail (.plain .timedOut)], #[]⟩
        ⟨3, true⟩ = .ok r ∧
      r.delivered = 0 ∧ r.enter = (.ok (), entered) ∧ r.Navigates [2, 7, 8, 0, 1, 9] ∧
      entered.Navigates [2, 7, 8, 0, 1, 9]) ∧
    ∃ r entered, Reader.new .decompressing (FrameDecoder.new (Toy.LengthPrefixed.new 2) none)
        ⟨[2, 7, 8, 0, 1, 9], [.fail (.plain .interrupted), .move 1, .fail (.plain .timedOut)], #[]⟩
        ⟨3, true⟩ = .ok r ∧
      r.delivered = 0 ∧ r.enter = (.ok (), entered) ∧ r.Navigates [7, 7, 8, 8, 9, 9] ∧
      entered.Navigates [7, 7, 8, 8, 9, 9] := by
  have hwhole : Source.Whole
      ⟨[2, 7, 8, 0, 1, 9], [.fail (.plain .interrupted), .move 1, .fail (.plain .timedOut)], #[]⟩ := by
    simp [Source.Whole]
  have hlike : FrameDecoder.Like (.new (Toy.LengthPrefixed.new 2) none)
      (.new (Toy.LengthPrefixed.new 2)) false := ⟨rfl, rfl, rfl⟩
  have hsize : 0 < (⟨3, true⟩ : ReaderSettings).readSize := by decide
  obtain ⟨hstored, hdecoders⟩ := navigates hwhole hsize
  exact ⟨hstored, hdecoders FrameDecoder.frameDecoding hlike Toy.LengthPrefixed.frames_three⟩

end Reader

end Sluice
