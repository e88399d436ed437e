import Sluice.Proofs.ReaderTrails
import Sluice.Toy.LengthPrefixed

/-!
# The books of a reader

What a reader does with its source over any number of calls, for every codec and every source: no
byte is lost or doubled, also where the source fails in the middle of a call, and little is held at a
time.

* `Reader.Skipped`, `Reader.skipInput_skipped` — bytes that are dropped before the first call.
* `ReaderCall`, `Reader.callAll` — calls, and making them one after the other.
* `Reader.callAll_preserves` — what every request preserves, calls preserve.
* `Reader.callAll_called` — the trail of any number of calls.
* `Reader.Accounts`, `Reader.accounts` — the books of a reader, and that they are in order.
-/

namespace Sluice

/-- What a caller can ask of an unclosed reader. -/
inductive ReaderCall where
  | request (request : Request)
  | readAll (limit : Nat)
  | seek (goal : Reader.SeekFrom)

/-- What the caller is told. -/
inductive ReaderAnswer where
  | bytes (piece : List UInt8)
  | position (offset : Nat)

/-- What an answer says about the `piece` that was delivered or discarded, and the position after
it. -/
def ReaderAnswer.Tells : ReaderAnswer → List UInt8 → Nat → Prop
  | bytes told, piece, _ => told = piece
  | position offset, _, after => offset = after

variable {σ : Type} [Codec σ]

namespace Reader

/-! ## Skipping input -/

/-- What has happened where `count` bytes were to be skipped: the source has given the bytes `got`.
The first `count` bytes are dropped, or, if that was a failure, all are still there. -/
structure Skipped (r : Reader σ) (count : Nat) (result : Except Failure Unit) (r' : Reader σ)
    (got : List UInt8) : Prop where
  content : r.source.content = got ++ r'.source.content
  dropped : result = .ok () → count ≤ (r.pending ++ got).length ∧
    r'.pending = (r.pending ++ got).drop count
  kept {failure : Failure} : result = .error failure → r'.pending = r.pending ++ got
  /-- no more is pulled than is needed -/
  left : result = .ok () →
    count + r'.pending.length ≤ max r.pending.length (count + r.readSize)
  short {failure : Failure} : result = .error failure → r'.pending.length < count
  same : r' = { r with source := r'.source, pending := r'.pending, inputDone := r'.inputDone }
  inputDone : r.inputDone = true → r'.inputDone = true

omit [Codec σ] in
theorem skipInput_skipped {r r' : Reader σ} {count : Nat} {result : Except Failure Unit}
    (h : r.skipInput count = (result, r')) : ∃ got, Skipped r count result r' got := by
  fun_induction skipInput r count
  case case1 r hle =>
    cases h
    refine ⟨[], rfl, fun _ => ?_, nofun, fun _ => ?_, nofun, rfl, id⟩
    · rw [List.append_nil]
      exact ⟨hle, rfl⟩
    · rw [List.length_drop]
      omega
  case case2 r hlt hdone =>
    cases h
    refine ⟨[], rfl, nofun, fun _ => (List.append_nil _).symm, nofun, fun _ => ?_, rfl, id⟩
    exact Nat.lt_of_not_le hlt
  -- there is not enough yet, and the source fails, or gives some more
  case case3 r hlt hdone failure r₁ hp =>
    cases h
    obtain ⟨source, hsource, rfl⟩ := pull_error_inv hp
    refine ⟨[], (Source.content_pull_error hsource).symm, nofun,
      fun _ => (List.append_nil _).symm, nofun, fun _ => ?_, rfl, id⟩
    exact Nat.lt_of_not_le hlt
  case case4 r hlt hdone r₁ hp ih =>
    obtain ⟨later, hskipped⟩ := ih h
    obtain ⟨bytes, source, hsource, rfl⟩ := pull_ok_inv hp
    have hlength := Source.length_pull hsource
    refine ⟨bytes ++ later, ?_, ?_, ?_, ?_, hskipped.short, hskipped.same, ?_⟩
    · rw [Source.content_pull hsource, hskipped.content, List.append_assoc]
    · rw [← List.append_assoc]
      exact hskipped.dropped
    · rw [← List.append_assoc]
      exact hskipped.kept
    · intro hok
      have hleft := hskipped.left hok
      rw [List.length_append] at hleft
      dsimp only at hleft
      omega
    · intro hdone
      exact hskipped.inputDone (by simp [hdone])

/-- Skip some input, if asked to. -/
def skipFirst (r : Reader σ) : Option Nat → Except Failure Unit × Reader σ
  | none => (.ok (), r)
  | some count => r.skipInput count

/-- The bytes that are skipped; none if that fails. -/
def skipped (r : Reader σ) : Option Nat → List UInt8
  | none => []
  | some count =>
    match (r.skipInput count).1 with
    | .ok () => r.source.content.take count
    | .error _ => []

/-! ## Calls -/

/-- Make a call. -/
def call (r : Reader σ) : ReaderCall → Except Failure ReaderAnswer × Reader σ
  | .request request => ((r.answer request).1.map .bytes, (r.answer request).2)
  | .readAll limit => ((r.readAll limit).1.map .bytes, (r.readAll limit).2)
  | .seek goal => ((r.seek goal).1.map .position, (r.seek goal).2)

/-- Make calls one after the other, whatever the answers are. -/
def callAll (r : Reader σ) : List ReaderCall → List (Except Failure ReaderAnswer) × Reader σ
  | [] => ([], r)
  | call :: calls =>
    let (answer, r) := r.call call
    let (answers, r) := r.callAll calls
    (answer :: answers, r)

theorem callAll_cons (r : Reader σ) (call : ReaderCall) (calls : List ReaderCall) :
    r.callAll (call :: calls) =
      ((r.call call).1 :: ((r.call call).2.callAll calls).1, ((r.call call).2.callAll calls).2) := rfl

theorem callAll_append (r : Reader σ) (before after : List ReaderCall) :
    (r.callAll (before ++ after)).2 = ((r.callAll before).2.callAll after).2 := by
  induction before generalizing r with
  | nil => rfl
  | cons call before ih => exact ih _

section Preserved

variable {P : Reader σ → Prop} {careful : Prop}
  (hfill : ∀ {r : Reader σ} (eager : Bool) (size : Nat), P r →
    (careful → ∃ bytes, (r.fill eager size).1 = .ok bytes) → P (r.fill eager size).2)

include hfill

theorem readAll_preserves {r : Reader σ} (h : P r) (limit : Nat) (acc : Array UInt8)
    (hok : careful → ∃ bytes, (r.readAll limit acc).1 = .ok bytes) : P (r.readAll limit acc).2 := by
  induction limit generalizing r acc with
  | zero => exact h
  | succ limit ih =>
    have hread := hfill (r := r) false decompressionOutputSize h
    rw [readAll] at hok ⊢
    rcases hanswer : r.fill false decompressionOutputSize with ⟨failure | ⟨_ | ⟨byte, bytes⟩⟩, r₁⟩ <;>
      rw [hanswer] at hread <;>
      simp only [show r.readInto decompressionOutputSize = _ from hanswer] at hok ⊢
    · refine hread fun hcareful => ?_
      obtain ⟨bytes, hbytes⟩ := hok hcareful
      cases hbytes
    · exact hread fun _ => ⟨_, rfl⟩
    · exact ih (hread fun _ => ⟨_, rfl⟩) _ hok

theorem discard_preserves {r : Reader σ} (h : P r) (distance : Nat)
    (hok : careful → (r.discard distance).1 = .ok ()) : P (r.discard distance).2 := by
  have hread : ∀ {r r₁ : Reader σ} {size : Nat} {answer : Except Failure (List UInt8)}, P r →
      r.readInto size = (answer, r₁) → (careful → ∃ bytes, answer = .ok bytes) → P r₁ := by
    rintro r r₁ size answer h hanswer
    have hfilled := hfill (r := r) false size h
    rwa [show r.fill false size = _ from hanswer] at hfilled
  fun_induction discard r distance
  case case1 r => exact h
  case case2 r distance hdistance failure r₁ hanswer =>
    refine hread h hanswer fun hcareful => ?_
    cases hok hcareful
  case case3 r distance hdistance r₁ hanswer => exact hread h hanswer fun _ => ⟨_, rfl⟩
  case case4 r distance hdistance byte rest r₁ hanswer ih =>
    exact ih (hread h hanswer fun _ => ⟨_, rfl⟩) hok

theorem seek_preserves {r : Reader σ} (h : P r) (goal : SeekFrom)
    (hok : careful → ∃ position, (r.seek goal).1 = .ok position) : P (r.seek goal).2 := by
  rw [seek] at hok ⊢
  cases hdirection : r.direction with
  | compressing => exact h
  | decompressing =>
    simp only [hdirection] at hok ⊢
    by_cases hclosed : r.phase = .closed
    · rw [if_pos hclosed]
      exact h
    rw [if_neg hclosed] at hok ⊢
    rcases htarget : goal.target r.delivered with failure | target
    · exact h
    simp only [htarget] at hok ⊢
    have hdiscard := discard_preserves hfill h (target - r.delivered)
    rcases hanswer : r.discard (target - r.delivered) with ⟨failure | ⟨⟩, r₁⟩ <;>
      rw [hanswer] at hdiscard <;> simp only [hanswer] at hok ⊢
    · refine hdiscard fun hcareful => ?_
      obtain ⟨position, hposition⟩ := hok hcareful
      cases hposition
    · exact hdiscard fun _ => rfl

/-- What every request preserves, every call preserves. If one has to be `careful`, this is about
requests and calls that succeed. -/
theorem call_preserves {r : Reader σ} (h : P r) (call : ReaderCall)
    (hok : careful → ∃ answer, (r.call call).1 = .ok answer) : P (r.call call).2 := by
  have htold : ∀ {α : Type} {result : Except Failure α} {tell : α → ReaderAnswer},
      (∃ answer, result.map tell = .ok answer) → ∃ value, result = .ok value := by
    rintro α (failure | value) tell ⟨answer, hanswer⟩
    · cases hanswer
    · exact ⟨value, rfl⟩
  cases call with
  | request request =>
    cases request with
    | read size =>
      rw [call, answer, Reader.read] at hok ⊢
      split at hok
      · rw [if_pos ‹_›]
        exact h
      · rw [if_neg ‹_›]
        exact hfill false size h fun hcareful => htold (hok hcareful)
    | readInto size => exact hfill false size h fun hcareful => htold (hok hcareful)
    | read1 size => exact hfill true size h fun hcareful => htold (hok hcareful)
    | readInto1 size => exact hfill true size h fun hcareful => htold (hok hcareful)
  | readAll limit => exact readAll_preserves hfill h limit #[] fun hcareful => htold (hok hcareful)
  | seek goal => exact seek_preserves hfill h goal fun hcareful => htold (hok hcareful)

theorem callAll_preserves {r : Reader σ} (h : P r) (calls : List ReaderCall)
    (hok : careful → ∀ result ∈ (r.callAll calls).1, ∃ answer, result = .ok answer) :
    P (r.callAll calls).2 := by
  induction calls generalizing r with
  | nil => exact h
  | cons call calls ih =>
    rw [callAll_cons] at hok ⊢
    refine ih (call_preserves hfill h call fun hcareful => hok hcareful _ List.mem_cons_self) ?_
    exact fun hcareful result hmem => hok hcareful result (List.mem_cons_of_mem _ hmem)

end Preserved

/-- Answers, none of them a failure, tell about pieces of a stream, from some position on. -/
inductive Handed : Nat → List (Except Failure ReaderAnswer) → List (List UInt8) → Prop where
  | nil {start : Nat} : Handed start [] []
  | cons {start : Nat} {answer : ReaderAnswer} {piece : List UInt8}
      {answers : List (Except Failure ReaderAnswer)} {pieces : List (List UInt8)}
      (tells : answer.Tells piece (start + piece.length))
      (others : Handed (start + piece.length) answers pieces) :
      Handed start (.ok answer :: answers) (piece :: pieces)

variable {r r' : Reader σ} {s s' : σ}

/-- A request for no bytes is refused or answered with none; any other is one run of the loops. -/
theorem answer_served (request : Request) (hcodec : r.codec = .live s) :
    ∃ moves s', Served r s moves s' (∃ bytes, (r.answer request).1 = .ok bytes) (r.answer request).2 ∧
      ∀ bytes, (r.answer request).1 = .ok bytes → bytes = madeBy (turnsOf moves) := by
  cases request with
  | read size =>
    rw [answer, Reader.read]
    split
    · refine ⟨[], s, .nil hcodec, ?_⟩
      rintro bytes ⟨⟩
    · exact fill_served rfl hcodec
  | readInto size => exact fill_served rfl hcodec
  | read1 size => exact fill_served rfl hcodec
  | readInto1 size => exact fill_served rfl hcodec

/-- An answer that is put in other words. -/
theorem Served.told {α : Type} {result : Except Failure α} {moves : List Move} (f : α → ReaderAnswer)
    (h : Served r s moves s' (∃ value, result = .ok value) r')
    (htells : ∀ value, result = .ok value →
      (f value).Tells (madeBy (turnsOf moves)) r'.delivered) :
    Served r s moves s' (∃ answer, result.map f = .ok answer) r' ∧
      ∀ answer, result.map f = .ok answer →
        answer.Tells (madeBy (turnsOf moves)) (r.delivered + (madeBy (turnsOf moves)).length) := by
  cases result with
  | error failure => exact ⟨⟨h.acts, h.thrifty, nofun⟩, nofun⟩
  | ok value =>
    refine ⟨⟨h.acts, h.thrifty, fun _ => h.delivered ⟨value, rfl⟩⟩, ?_⟩
    rintro answer ⟨⟩
    rw [← h.delivered ⟨value, rfl⟩]
    exact htells value rfl

/-- The trail of one call, and what its answer tells. -/
theorem call_served (call : ReaderCall) (hcodec : r.codec = .live s) :
    ∃ moves s', Served r s moves s' (∃ answer, (r.call call).1 = .ok answer) (r.call call).2 ∧
      ∀ answer, (r.call call).1 = .ok answer →
        answer.Tells (madeBy (turnsOf moves)) (r.delivered + (madeBy (turnsOf moves)).length) := by
  cases call with
  | request request =>
    obtain ⟨moves, s', hserved, hmade⟩ := answer_served request hcodec
    exact ⟨moves, s', hserved.told .bytes hmade⟩
  | readAll limit =>
    have hread : r.readAll limit = ((r.readAll limit).1, (r.readAll limit).2) := rfl
    obtain ⟨moves, s', hserved, hmade⟩ := readAll_served hread hcodec
    exact ⟨moves, s', hserved.told .bytes hmade⟩
  | seek goal =>
    have hseek : r.seek goal = ((r.seek goal).1, (r.seek goal).2) := rfl
    obtain ⟨moves, s', hserved, hposition⟩ := seek_served hseek hcodec
    exact ⟨moves, s', hserved.told .position hposition⟩

/-- The trail of calls. If none of them fails, what is made is what they deliver or discard. -/
theorem callAll_called (calls : List ReaderCall) (hcodec : r.codec = .live s) :
    ∃ moves s', r.Acts s moves s' (r.callAll calls).2 ∧ Thrifty moves ∧
      ((∀ result ∈ (r.callAll calls).1, ∃ answer, result = .ok answer) →
        ∃ pieces, Handed r.delivered (r.callAll calls).1 pieces ∧
          pieces.flatten = madeBy (turnsOf moves) ∧
          (r.callAll calls).2.delivered = r.delivered + pieces.flatten.length) := by
  induction calls generalizing r s with
  | nil => exact ⟨[], s, .refl hcodec, .nil, fun _ => ⟨[], .nil, rfl, rfl⟩⟩
  | cons call calls ih =>
    obtain ⟨moves, s₁, hserved, htells⟩ := call_served call hcodec
    obtain ⟨later, s', hacts, hthrifty, hlater⟩ := ih hserved.acts.codec
    rw [callAll_cons]
    refine ⟨moves ++ later, s', hserved.acts.trans hacts, hserved.thrifty.append hthrifty, ?_⟩
    intro hall
    obtain ⟨answer, hanswer⟩ := hall _ List.mem_cons_self
    obtain ⟨pieces, hhanded, hmade, hdelivered⟩ :=
      hlater fun result hresult => hall result (List.mem_cons_of_mem _ hresult)
    have hfirst := hserved.delivered ⟨answer, hanswer⟩
    rw [hfirst] at hhanded hdelivered
    refine ⟨madeBy (turnsOf moves) :: pieces, ?_, ?_, ?_⟩
    · rw [hanswer]
      exact .cons (htells answer hanswer) hhanded
    · rw [List.flatten_cons, hmade, turnsOf_append, madeBy_append]
    · rw [hdelivered, List.flatten_cons, List.length_append, Nat.add_assoc]

/-! ## Books -/

/-- The books of a reader `r` with its codec in state `s` that skips some input first and then
answers the `calls`: in these it makes the `moves`, and the codec is in state `s'` afterwards. -/
structure Accounts (r : Reader σ) (s : σ) (skip : Option Nat) (calls : List ReaderCall)
    (moves : List Move) (s' : σ) : Prop where
  /-- the moves are what has happened to the codec, to the source, and to what is held -/
  trail : Trail r.readSize ⟨s, (r.skipFirst skip).2.source, (r.skipFirst skip).2.pending⟩ moves
    ⟨s', ((r.skipFirst skip).2.callAll calls).2.source,
      ((r.skipFirst skip).2.callAll calls).2.pending⟩
  codec : ((r.skipFirst skip).2.callAll calls).2.codec = .live s'
  /-- what the source has given is what was skipped, what the codec has taken, and what is held; the
  source may have failed on the way -/
  conserves : ∃ given,
    r.source.content = given ++ ((r.skipFirst skip).2.callAll calls).2.source.content ∧
      given = r.skipped skip ++ takenBy (turnsOf moves) ++
        ((r.skipFirst skip).2.callAll calls).2.pending
  /-- if no call fails, what the codec has made is what was delivered or discarded -/
  delivers : (∀ result ∈ ((r.skipFirst skip).2.callAll calls).1, ∃ answer, result = .ok answer) →
    ∃ pieces, Handed 0 ((r.skipFirst skip).2.callAll calls).1 pieces ∧
      pieces.flatten = madeBy (turnsOf moves) ∧
      ((r.skipFirst skip).2.callAll calls).2.delivered = pieces.flatten.length
  /-- if every turn with input and room does something, the source is asked only while nothing is
  unread -/
  thrifty : Thrifty moves
  /-- and what is held is never more than one pull brings, unless more than that was to be skipped,
  and was not there -/
  bounded : (∀ t ∈ turnsOf moves, t.Advances) →
    (∀ count, skip = some count → count < r.readSize ∨ (r.skipInput count).1 = .ok ()) →
      ∀ before after p, moves = before ++ after →
        Trail r.readSize ⟨s, (r.skipFirst skip).2.source, (r.skipFirst skip).2.pending⟩ before p →
          p.held.length ≤ r.readSize
  /-- the calls leave the reader in its phase -/
  phase : ((r.skipFirst skip).2.callAll calls).2.phase = r.phase
  /-- and once the input or the output has ended, it has for good -/
  ended {before after : List ReaderCall} : calls = before ++ after →
    (((r.skipFirst skip).2.callAll before).2.inputDone = true →
      ((r.skipFirst skip).2.callAll calls).2.inputDone = true) ∧
    (((r.skipFirst skip).2.callAll before).2.outputDone = true →
      ((r.skipFirst skip).2.callAll calls).2.outputDone = true)

/-- What the first skip of a fresh reader leaves. -/
structure Begun (r : Reader σ) (skip : Option Nat) (r' : Reader σ) : Prop where
  content : r.source.content = r.skipped skip ++ (r'.pending ++ r'.source.content)
  held : (∀ count, skip = some count → count < r.readSize ∨ (r.skipInput count).1 = .ok ()) →
    r'.pending.length ≤ r.readSize
  same : r' = { r with source := r'.source, pending := r'.pending, inputDone := r'.inputDone }

omit [Codec σ] in
theorem begun_skipFirst (r : Reader σ) (hpending : r.pending = []) (skip : Option Nat) :
    Begun r skip (r.skipFirst skip).2 := by
  cases skip with
  | none =>
    rw [skipFirst]
    refine ⟨by rw [hpending]; rfl, fun _ => ?_, rfl⟩
    rw [hpending]
    exact Nat.zero_le _
  | some count =>
    rw [skipFirst]
    rcases hskip : r.skipInput count with ⟨failure | ⟨⟩, r'⟩
    · obtain ⟨got, hskipped⟩ := skipInput_skipped hskip
      have hkept := hskipped.kept rfl
      rw [hpending, List.nil_append] at hkept
      refine ⟨?_, fun hcount => ?_, hskipped.same⟩
      · rw [skipped, hskip, hskipped.content, hkept]
        rfl
      · have hshort := hskipped.short rfl
        rcases hcount count rfl with hlt | hok
        · dsimp only
          omega
        · rw [hskip] at hok
          cases hok
    · obtain ⟨got, hskipped⟩ := skipInput_skipped hskip
      obtain ⟨henough, hdropped⟩ := hskipped.dropped rfl
      rw [hpending, List.nil_append] at henough hdropped
      refine ⟨?_, fun _ => ?_, hskipped.same⟩
      · rw [skipped, hskip, hskipped.content, hdropped]
        dsimp only
        rw [List.take_append_of_le_length henough, ← List.append_assoc, List.take_append_drop]
      · have hleft := hskipped.left rfl
        rw [hpending, List.length_nil] at hleft
        dsimp only
        omega

/-- The books of a reader that has done nothing yet. -/
theorem accounts_of_fresh (hcodec : r.codec = .live s) (hpending : r.pending = [])
    (hdelivered : r.delivered = 0) (skip : Option Nat) (calls : List ReaderCall) :
    ∃ moves s', Accounts r s skip calls moves s' := by
  have hbegun := begun_skipFirst r hpending skip
  have hlive : (r.skipFirst skip).2.codec = .live s := by
    rw [hbegun.same]
    exact hcodec
  have hsize : (r.skipFirst skip).2.readSize = r.readSize := by rw [hbegun.same]
  have hstart : (r.skipFirst skip).2.delivered = 0 := by
    rw [hbegun.same]
    exact hdelivered
  obtain ⟨moves, s', hacts, hthrifty, hall⟩ := callAll_called calls hlive
  have htrail := hacts.trail
  rw [hsize] at htrail
  refine ⟨moves, s', htrail, hacts.codec, ?_, ?_, hthrifty, ?_, ?_, ?_⟩
  · refine ⟨_, ?_, rfl⟩
    have hconserves : (r.skipFirst skip).2.pending ++ pulledBy moves =
        takenBy (turnsOf moves) ++ ((r.skipFirst skip).2.callAll calls).2.pending :=
      htrail.conserves
    have hcontent : (r.skipFirst skip).2.source.content =
        pulledBy moves ++ ((r.skipFirst skip).2.callAll calls).2.source.content := htrail.content
    rw [hbegun.content, hcontent, ← List.append_assoc _ (pulledBy moves), hconserves]
    simp only [List.append_assoc]
  · intro hok
    obtain ⟨pieces, hhanded, hmade, hlength⟩ := hall hok
    rw [hstart] at hhanded hlength
    exact ⟨pieces, hhanded, hmade, by rw [hlength, Nat.zero_add]⟩
  · rintro hadvances hskip before after p rfl hbefore
    have hbounded := hbefore.bounded fun m hm =>
      hthrifty hadvances m (List.mem_append_left _ hm)
    exact Nat.le_trans hbounded (Nat.max_le.2 ⟨Nat.le_refl _, hbegun.held hskip⟩)
  · rw [hacts.phase, hbegun.same]
  · rintro before after rfl
    obtain ⟨first, s₁, hfirst, -⟩ := callAll_called before hlive
    obtain ⟨later, s₂, hlater, -⟩ := callAll_called after hfirst.codec
    rw [callAll_append]
    exact ⟨hlater.inputDone, hlater.outputDone⟩

/-- The books of a reader are in order, whatever its codec and its source are, and whether it has
been entered or not. -/
theorem accounts {direction : Direction} {codec : σ} {source : Source} {settings : ReaderSettings}
    (hnew : Reader.new direction codec source settings = .ok r)
    (hopen : r' = r ∨ r.enter = (.ok (), r')) (skip : Option Nat) (calls : List ReaderCall) :
    r'.source = source ∧ ∃ moves s', Accounts r' codec skip calls moves s' := by
  obtain ⟨-, rfl⟩ := new_ok hnew
  rcases hopen with rfl | henter
  · exact ⟨rfl, accounts_of_fresh rfl rfl rfl skip calls⟩
  · obtain rfl := enter_ok henter
    exact ⟨rfl, accounts_of_fresh rfl rfl rfl skip calls⟩

/-- A byte is skipped, the source times out in the first call, and is interrupted in the second. -/
theorem accounts_lengthPrefixed :
    ∃ r : Reader (FrameDecoder Toy.LengthPrefixed),
      Reader.new .decompressing (FrameDecoder.new (Toy.LengthPrefixed.new 2) none)
        ⟨[9, 2, 7, 8, 1, 5],
          [.move 2, .fail (.plain .timedOut), .fail (.plain .interrupted)], #[]⟩
        ⟨3, true⟩ = .ok r ∧
      ∃ moves s', Accounts r (FrameDecoder.new (Toy.LengthPrefixed.new 2) none) (some 1)
        [.request (.read 3), .seek (.start 5), .readAll 4] moves s' :=
  Exists.imp (fun _ hnew => ⟨hnew, (accounts hnew (.inl rfl) (some 1) _).2⟩) ⟨_, rfl⟩

end Reader

end Sluice
