import Sluice.Proofs.Request

/-!
# What readers deliver

Callers ask a reader again and again, in whatever sizes and ways they like. Over a decoder that pays
out, turn by turn, what it owes for the input ahead, the answers put together do not depend on that.

* `Request`, `Reader.serve` — requests, and serving them one after the other.
* `Reader.Delivers` — whatever is asked for, the answers are a content from its start to its end.
* `Truthful`, `Pays`, `Honours` — decoders that hand out what they owe as long as they do not fail, as
  long as there is input, and until the end.
* `Reader.Due`, `Reader.due_of_new` — what a reader has still to deliver, and a new one.
* `Reader.fill_due` — one request: an answer, a failure of the source, or one of the decoder.
-/

namespace Sluice

/-! ## Requests -/

/-- A request for up to `size` bytes. -/
inductive Request where
  | read (size : Nat)
  | readInto (size : Nat)
  | read1 (size : Nat)
  | readInto1 (size : Nat)
  deriving DecidableEq, Repr

namespace Request

def size : Request → Nat
  | read size | readInto size | read1 size | readInto1 size => size

/-- Whether the request is content with any output. -/
def isEager : Request → Bool
  | read _ | readInto _ => false
  | read1 _ | readInto1 _ => true

end Request

namespace Reader

variable {σ : Type} [Codec σ]

/-- Answer a request. -/
def answer (r : Reader σ) : Request → Except Failure (List UInt8) × Reader σ
  | .read size => r.read size
  | .readInto size => r.readInto size
  | .read1 size => r.read1 size
  | .readInto1 size => r.readInto1 size

/-- Answer requests one after the other, whatever the answers are. -/
def serve (r : Reader σ) : List Request → List (Except Failure (List UInt8)) × Reader σ
  | [] => ([], r)
  | request :: requests =>
    let (answer, r) := r.answer request
    let (answers, r) := r.serve requests
    (answer :: answers, r)

/-- Requests for some bytes all work in the same way. -/
theorem answer_eq_fill (r : Reader σ) {request : Request} (h : 0 < request.size) :
    r.answer request = r.fill request.isEager request.size := by
  cases request with
  | read size =>
    have hsize : size ≠ 0 := Nat.ne_of_gt h
    rw [answer, Reader.read, if_neg hsize]
    rfl
  | readInto size => rfl
  | read1 size => rfl
  | readInto1 size => rfl

/-- Requests for some bytes are all answered with bytes, and what they are answered with is the
front of `content`. Once an answer is empty it is all of it, and there are no more answers with
bytes than there are bytes. The reader counts what it delivers. -/
def Delivers (r : Reader σ) (content : List UInt8) : Prop :=
  ∀ requests : List Request, (∀ request ∈ requests, 0 < request.size) →
    ∃ (pieces : List (List UInt8)) (r' : Reader σ), r.serve requests = (pieces.map .ok, r') ∧
      pieces.flatten <+: content ∧ ([] ∈ pieces → pieces.flatten = content) ∧
      (content.length < requests.length → [] ∈ pieces) ∧
      r'.delivered = r.delivered + pieces.flatten.length

end Reader

/-! ## What decoders owe -/

open Reader (FeedTurn DrainTurn)

variable {σ : Type} [Codec σ]

/-- A decoder that hands out what it owes, and nothing else, as long as it does not fail. With
`Owes s x contents`, the frames whose contents have not been handed out completely by a decoder in
state `s` with the input `x` before it have the `contents`, the first of them as far as it is
missing. -/
structure Truthful (Owes : σ → List UInt8 → List (List UInt8) → Prop) : Prop where
  /-- a turn over input does something -/
  advances {s s' : σ} {t : Turn} {later : List UInt8} {contents : List (List UInt8)} :
    Owes s (t.offered ++ later) contents → FeedTurn t → t.Leads s s' → t.taken ≠ [] ∨ t.made ≠ []
  /-- and what it makes is owed; it ends a frame exactly if it pays out the last of it -/
  proceeds {s s' : σ} {t : Turn} {later : List UInt8} {contents : List (List UInt8)} :
    Owes s (t.offered ++ later) contents → FeedTurn t → t.Leads s s' →
      ∃ missing others, contents = (t.made ++ missing) :: others ∧
        (t.left = 0 → missing = [] ∧ Owes s' (t.rest ++ later) others) ∧
        (t.left ≠ 0 → Owes s' (t.rest ++ later) (missing :: others))
  /-- without input, at most one frame is missing something, and that is paid out -/
  finishes {s s' : σ} {t : Turn} {contents : List (List UInt8)} :
    Owes s [] contents → DrainTurn t → t.Leads s s' →
      ∃ missing, contents.headD [] = t.made ++ missing ∧ contents.tail = [] ∧
        (t.left = 0 → missing = []) ∧ (t.left ≠ 0 → t.made ≠ [] ∧ Owes s' [] [missing])

/-- A decoder that pays out what it owes as long as there is input: it refuses none of it. -/
structure Pays (Owes : σ → List UInt8 → List (List UInt8) → Prop) : Prop extends
    Truthful Owes where
  accepts {s : σ} {offered later : List UInt8} {contents : List (List UInt8)} {room : Nat} :
    Owes s (offered ++ later) contents → offered ≠ [] → 0 < room →
      ∃ left, (Codec.step s offered room .proceed).result = .ok left

/-- A decoder that pays out all that it owes: it does not refuse the end of the input either. -/
structure Honours (Owes : σ → List UInt8 → List (List UInt8) → Prop) : Prop extends
    Pays Owes where
  settles {s : σ} {contents : List (List UInt8)} {room : Nat} :
    Owes s [] contents → 0 < room → ∃ left, (Codec.step s [] room .finish).result = .ok left

/-- What a reader makes of the contents that its decoder owes: all of them, or the first. -/
def expected (stops : Bool) (contents : List (List UInt8)) : List UInt8 :=
  if stops then contents.headD [] else contents.flatten

theorem expected_of_tail_eq_nil {stops : Bool} {contents : List (List UInt8)}
    (h : contents.tail = []) : expected stops contents = contents.headD [] := by
  cases stops with
  | true => rfl
  | false =>
    cases contents with
    | nil => rfl
    | cons c cs =>
      obtain rfl : cs = [] := h
      simp [expected]

/-- Where a reader that stops at the end of a frame has only one in front of it, all is expected. -/
theorem expected_eq_flatten {stops : Bool} {contents : List (List UInt8)}
    (h : stops = true → contents.tail = []) : expected stops contents = contents.flatten := by
  cases stops with
  | false => rfl
  | true =>
    have hfalse : expected false contents = contents.headD [] := expected_of_tail_eq_nil (h rfl)
    exact hfalse.symm

theorem expected_not (across : Bool) (contents : List (List UInt8)) :
    expected (!across) contents = if across then contents.flatten else contents.headD [] := by
  cases across <;> rfl

/-- Some more of the first content. -/
theorem expected_cons_append (stops : Bool) (made missing : List UInt8)
    (others : List (List UInt8)) :
    expected stops ((made ++ missing) :: others) = made ++ expected stops (missing :: others) := by
  cases stops <;> simp [expected]

section Paying

variable {Owes : σ → List UInt8 → List (List UInt8) → Prop} {s s' : σ} {x y : List UInt8}
  {turns : List Turn} {contents : List (List UInt8)} (stops : Bool)

/-- Turns over input pay out the front of what is expected. Where the reader stops at the end of a
frame, they must not get past one. -/
theorem Truthful.feed (hT : Truthful Owes) (h : Course s x turns s' y) (hturns : ∀ t ∈ turns, FeedTurn t)
    (hleft : stops = true → ∀ t ∈ turns, t.left ≠ 0) (howes : Owes s x contents) :
    ∃ contents', Owes s' y contents' ∧
      expected stops contents = madeBy turns ++ expected stops contents' ∧
      (stops = true → contents'.tail = contents.tail) := by
  induction h generalizing contents with
  | nil => exact ⟨contents, howes, rfl, fun _ => rfl⟩
  | @cons s s₁ s' t turns x y later split first others ih =>
    subst split
    obtain ⟨missing, rest, rfl, hzero, hmore⟩ := hT.proceeds howes (hturns t List.mem_cons_self) first
    have hturns' : ∀ u ∈ turns, FeedTurn u := fun u hu => hturns u (List.mem_cons_of_mem t hu)
    have hleft' : stops = true → ∀ u ∈ turns, u.left ≠ 0 :=
      fun hstop u hu => hleft hstop u (List.mem_cons_of_mem t hu)
    by_cases hl : t.left = 0
    · obtain ⟨rfl, howes'⟩ := hzero hl
      -- a reader that stops at the end of a frame would have stopped here
      obtain rfl : stops = false := by
        cases stops with
        | false => rfl
        | true => exact absurd hl (hleft rfl t List.mem_cons_self)
      obtain ⟨contents', hend, heq, -⟩ := ih hturns' hleft' howes'
      refine ⟨contents', hend, ?_, fun hstop => Bool.noConfusion hstop⟩
      rw [expected_cons_append, madeBy_cons, List.append_assoc, ← heq]
      rfl
    · obtain ⟨contents', hend, heq, htail⟩ := ih hturns' hleft' (hmore hl)
      refine ⟨contents', hend, ?_, htail⟩
      rw [expected_cons_append, madeBy_cons, List.append_assoc, ← heq]

/-- The turn that ends a frame pays out all that is missing of it. -/
theorem Truthful.frame (hT : Truthful Owes) {t : Turn} {later : List UInt8}
    (howes : Owes s (t.offered ++ later) contents) (hturn : FeedTurn t) (h : t.Leads s s')
    (hleft : t.left = 0) : expected true contents = t.made := by
  obtain ⟨missing, others, rfl, hzero, -⟩ := hT.proceeds howes hturn h
  obtain ⟨rfl, -⟩ := hzero hleft
  simp [expected]

/-- Turns that empty the decoder pay out the front of what is expected. -/
theorem Truthful.drain (hT : Truthful Owes) (h : Course s [] turns s' y)
    (hturns : ∀ t ∈ turns, DrainTurn t ∧ t.left ≠ 0) (howes : Owes s [] contents) :
    ∃ contents', Owes s' [] contents' ∧
      expected stops contents = madeBy turns ++ expected stops contents' ∧
      (stops = true → contents'.tail = contents.tail) := by
  -- the input has to be a variable for the induction; it stays empty, since nothing is offered
  generalize hx : [] = x at h
  induction h generalizing contents with
  | nil =>
    subst hx
    exact ⟨contents, howes, rfl, fun _ => rfl⟩
  | @cons s s₁ s' t turns x y later split first others ih =>
    subst hx
    obtain ⟨hturn, hleft⟩ := hturns t List.mem_cons_self
    obtain ⟨missing, hhead, htail, -, hmore⟩ := hT.finishes howes hturn first
    obtain ⟨-, howes'⟩ := hmore hleft
    have hempty : [] = t.rest ++ later := by
      rw [hturn.offered] at split
      have hrest := hturn.offered
      rw [Turn.offered] at hrest
      rw [(List.append_eq_nil_iff.1 hrest).2, ← split]
    have hturns' : ∀ u ∈ turns, DrainTurn u ∧ u.left ≠ 0 :=
      fun u hu => hturns u (List.mem_cons_of_mem t hu)
    obtain ⟨contents', hend, heq, htail'⟩ := ih hturns' howes' hempty
    have hnil : [missing].tail = [] := rfl
    refine ⟨contents', hempty ▸ hend, ?_, fun hstop => (htail' hstop).trans htail.symm⟩
    rw [expected_of_tail_eq_nil htail, hhead, madeBy_cons, List.append_assoc, ← heq,
      expected_of_tail_eq_nil hnil]
    rfl

/-- The turn that finishes, or makes nothing more, pays out all that is missing. -/
theorem Truthful.last (hT : Truthful Owes) {t : Turn} (howes : Owes s [] contents) (hturn : DrainTurn t)
    (h : t.Leads s s') (hlast : t.left = 0 ∨ t.made = []) : expected stops contents = t.made := by
  obtain ⟨missing, hhead, htail, hzero, hmore⟩ := hT.finishes howes hturn h
  rw [expected_of_tail_eq_nil htail, hhead]
  by_cases hleft : t.left = 0
  · rw [hzero hleft, List.append_nil]
  · rcases hlast with hl | hmade
    · exact absurd hl hleft
    · exact absurd hmade (hmore hleft).1

end Paying

/-! ## Readers -/

namespace Reader

/-- `bytes` is all that the reader still has to deliver. -/
inductive Due (Owes : σ → List UInt8 → List (List UInt8) → Prop) (r : Reader σ) :
    List UInt8 → Prop where
  | ended (phase : r.phase ≠ .closed) (done : r.outputDone = true) : Due Owes r []
  | running {s : σ} {contents : List (List UInt8)} (running : r.Running s)
      (owes : Owes s r.ahead contents) : Due Owes r (expected r.stopsAtFrameEnd contents)

variable {Owes : σ → List UInt8 → List (List UInt8) → Prop} {r r' : Reader σ} {s s' : σ}
  {contents : List (List UInt8)}

/-- Turns that empty the codec leave no input. -/
theorem ahead_nil_of_drain {x y : List UInt8} {turns : List Turn} (h : Course s x turns s' y)
    (hturns : ∀ t ∈ turns, DrainTurn t) : x = y := by
  have htaken : takenBy turns = [] := by
    rw [takenBy, List.flatMap_eq_nil_iff]
    intro t ht
    have hoffered := (hturns t ht).offered
    rw [Turn.offered] at hoffered
    exact (List.append_eq_nil_iff.1 hoffered).1
  have hall := h.takenBy_append_eq
  rw [htaken] at hall
  exact hall.symm

/-- A request delivers the front of what is due, and nothing only if nothing is due. -/
theorem Filled.due (hT : Truthful Owes) {fed drained : List Turn} {piece : List UInt8}
    (h : Filled r s fed drained s' piece r') (hr : r.Running s)
    (howes : Owes s r.ahead contents) :
    ∃ later, expected r.stopsAtFrameEnd contents = piece ++ later ∧ Due Owes r' later ∧
      (piece = [] → later = []) := by
  have hphase : r'.phase ≠ .closed := by
    rw [h.same]
    exact hr.phase
  have hcourse := h.course
  have hmade := h.made
  cases h.ending with
  | @frame before last split last_left before_left stops drained_nil done =>
    subst split drained_nil
    rw [List.append_nil] at hcourse hmade
    obtain ⟨s₁, later, hbefore, hlast, -⟩ := hcourse.concat_inv
    have hturn := h.feedTurn
    obtain ⟨contents₁, howes₁, heq, -⟩ := hT.feed true hbefore
      (fun t ht => hturn t (List.mem_append_left _ ht)) (fun _ => before_left) howes
    have hframe := hT.frame howes₁ (hturn last (by simp)) hlast last_left
    refine ⟨[], ?_, .ended hphase done, fun _ => rfl⟩
    rw [stops, heq, hframe, hmade]
    simp
  | enough left drained_nil got goes_on =>
    subst drained_nil
    rw [List.append_nil] at hcourse hmade
    obtain ⟨contents', howes', heq, -⟩ := hT.feed _ hcourse h.feedTurn left howes
    refine ⟨expected r'.stopsAtFrameEnd contents', ?_,
      .running (h.running hr goes_on) howes', fun hnil => absurd hnil got⟩
    rw [heq, hmade, h.stops]
  | @finished before last left ahead split before_left last_left done =>
    subst split
    obtain ⟨s₁, y, hfed, hdrained⟩ := hcourse.append_inv
    obtain rfl := ahead_nil_of_drain hdrained h.drainTurn
    rw [ahead] at hfed hdrained
    obtain ⟨contents₁, howes₁, heq₁, -⟩ := hT.feed _ hfed h.feedTurn left howes
    obtain ⟨s₂, later, hbefore, hlast, -⟩ := hdrained.concat_inv
    have hdrain := h.drainTurn
    obtain ⟨contents₂, howes₂, heq₂, -⟩ := hT.drain r.stopsAtFrameEnd hbefore
      (fun t ht => ⟨hdrain t (List.mem_append_left _ ht), (before_left t ht).1⟩) howes₁
    have hend := hT.last r.stopsAtFrameEnd howes₂ (hdrain last (by simp)) hlast last_left
    refine ⟨[], ?_, .ended hphase done, fun _ => rfl⟩
    rw [heq₁, heq₂, hend, hmade]
    simp
  | full left ahead drained_left got goes_on =>
    obtain ⟨s₁, y, hfed, hdrained⟩ := hcourse.append_inv
    obtain rfl := ahead_nil_of_drain hdrained h.drainTurn
    rw [ahead] at hfed hdrained
    obtain ⟨contents₁, howes₁, heq₁, -⟩ := hT.feed _ hfed h.feedTurn left howes
    obtain ⟨contents₂, howes₂, heq₂, -⟩ := hT.drain r.stopsAtFrameEnd hdrained
      (fun t ht => ⟨h.drainTurn t ht, (drained_left t ht).1⟩) howes₁
    refine ⟨expected r'.stopsAtFrameEnd contents₂, ?_,
      .running (h.running hr goes_on) (ahead ▸ howes₂), fun hnil => absurd hnil got⟩
    rw [heq₁, heq₂, hmade, h.stops, madeBy_append, List.append_assoc]
  | @stuck before last split taken made goes_on =>
    subst split
    obtain ⟨s₁, y, hfed, -⟩ := hcourse.append_inv
    obtain ⟨s₂, later, hbefore, hlast, -⟩ := hfed.concat_inv
    have hturn := h.feedTurn
    obtain ⟨contents₁, howes₁, -⟩ := hT.feed false hbefore
      (fun t ht => hturn t (List.mem_append_left _ ht)) (by simp) howes
    rcases hT.advances howes₁ (hturn last (by simp)) hlast with htaken | hmade
    · exact absurd taken htaken
    · exact absurd made hmade

/-- What is due to a reader after a request that the source has cut short: the front of what was due
is lost. -/
theorem CutShort.due (hT : Truthful Owes) {eager : Bool} {size : Nat} {turns : List Turn}
    (h : CutShort eager size r s turns s' r') (hsame : r.SameStream r')
    (howes : Owes s r.ahead contents) :
    ∃ later, expected r.stopsAtFrameEnd contents = madeBy turns ++ later ∧ Due Owes r' later := by
  obtain ⟨contents', howes', heq, -⟩ := hT.feed _ h.course h.turn h.left howes
  exact ⟨_, heq, hsame.stops ▸ .running h.running howes'⟩

/-- What a request comes to on a reader that has `bytes` due. -/
inductive FillDue (Owes : σ → List UInt8 → List (List UInt8) → Prop) (eager : Bool) (size : Nat)
    (r : Reader σ) : List UInt8 → Except Failure (List UInt8) → Reader σ → Prop where
  /-- it is answered with the front of what is due, and with nothing only if nothing is -/
  | answered {piece later : List UInt8} {r' : Reader σ} (due : Due Owes r' later)
      (nil : piece = [] → later = []) (length : piece.length ≤ size)
      (delivered : r'.delivered = r.delivered + piece.length)
      (plan : r'.source.plan <:+ r.source.plan) :
      FillDue Owes eager size r (piece ++ later) (.ok piece) r'
  /-- or the source fails, and what the request has made until then is lost: less than was asked
  for, and nothing if any output would have done -/
  | lost {lost later : List UInt8} {failure : Failure} {r' : Reader σ} (due : Due Owes r' later)
      (length : lost.length < size) (eager_lost : eager = true → lost = [])
      (delivered : r'.delivered = r.delivered)
      (fails : r'.source.failures < r.source.failures) :
      FillDue Owes eager size r (lost ++ later) (.error failure) r'
  /-- or the decoder fails -/
  | refused {s : σ} {contents : List (List UInt8)} {bytes : List UInt8} {failure : Failure}
      {r' : Reader σ} (running : r.Running s) (owes : Owes s r.ahead contents)
      (refused : Refused r s r' failure) :
      FillDue Owes eager size r bytes (.error failure) r'

theorem fill_due (hT : Truthful Owes) {bytes : List UInt8} (h : Due Owes r bytes) (eager : Bool)
    {size : Nat} (hsize : 0 < size) :
    FillDue Owes eager size r bytes (r.fill eager size).1 (r.fill eager size).2 := by
  cases h with
  | ended phase done =>
    have hfill : r.fill eager size = (.ok [], r) := by
      rw [fill, if_neg phase, if_pos (.inl done)]
    rw [hfill]
    have hanswered : FillDue Owes eager size r ([] ++ []) (.ok []) r :=
      .answered (.ended phase done) (fun _ => rfl) (Nat.zero_le _) rfl List.suffix_rfl
    exact hanswered
  | @running s contents hr owes =>
    rcases hf : r.fill eager size with ⟨failure | piece, r'⟩
    · have hfailed := fill_error hf hr hsize
      cases hfailed.cause with
      | source cut =>
        obtain ⟨later, heq, hdue⟩ := cut.due hT hfailed.same owes
        have hdelivered : r'.delivered = r.delivered := by rw [hfailed.same]
        rw [heq]
        exact .lost hdue cut.room cut.eager_made hdelivered cut.fails
      | codec refused => exact .refused hr owes refused
    · obtain ⟨fed, drained, s', hfilled⟩ := fill_ok hf hr hsize
      obtain ⟨later, heq, hdue, hnil⟩ := hfilled.due hT hr owes
      rw [heq]
      exact .answered hdue hnil (hr.length_fill_le hsize hf) hfilled.delivered hfilled.plan

/-- A decoder that refuses no input can be refused only its end. -/
theorem Refused.at_end (hP : Pays Owes) {failure : Failure} (h : Refused r s r' failure)
    (howes : Owes s r.ahead contents) :
    ∃ s' contents' room, Owes s' [] contents' ∧ 0 < room ∧
      (Codec.step s' [] room .finish).result = .error failure ∧ r'.ahead = [] ∧
      r'.Running (Codec.step s' [] room .finish).state := by
  cases h with
  | step course turn offered_ne room_pos result =>
    obtain ⟨contents', howes', -⟩ := hP.feed false course turn (by simp) howes
    obtain ⟨left, hok⟩ := hP.accepts howes' offered_ne room_pos
    rw [result] at hok
    cases hok
  | finish course feedTurn drainTurn room_pos result ahead running =>
    obtain ⟨s₁, y, hfed, hdrained⟩ := course.append_inv
    obtain rfl := ahead_nil_of_drain hdrained fun t ht => (drainTurn t ht).1
    obtain ⟨contents₁, howes₁, -⟩ := hP.feed false hfed feedTurn (by simp) howes
    obtain ⟨contents₂, howes₂, -⟩ := hP.drain false hdrained drainTurn howes₁
    exact ⟨_, _, _, howes₂, room_pos, result, ahead, running⟩

/-- A decoder that pays out all that it owes refuses nothing. -/
theorem not_refused (hO : Honours Owes) {failure : Failure} (howes : Owes s r.ahead contents) :
    ¬ Refused r s r' failure := by
  intro h
  obtain ⟨s', contents', room, howes', hroom, hresult, -⟩ := h.at_end hO.toPays howes
  obtain ⟨left, hok⟩ := hO.settles howes' hroom
  rw [hresult] at hok
  cases hok

section New

variable {direction : Direction} {codec : σ} {source : Source} {settings : ReaderSettings}

omit [Codec σ] in
/-- A new reader, whether it has been entered or not, is in front of the content of its source. Once the
codec knows all that it is to be told, requests work on it. -/
theorem running_of_new (hnew : Reader.new direction codec source settings = .ok r)
    (hopen : r' = r ∨ r.enter = (.ok (), r')) (hwhole : source.Whole) :
    Running { r' with owesPledge := false } codec ∧ r'.ahead = source.content ∧
      r'.stopsAtFrameEnd = (direction = .decompressing && !settings.acrossFrames) ∧
      r'.owesPledge = (direction = .compressing) ∧ r'.direction = direction ∧ r'.source = source := by
  obtain ⟨hsize, rfl⟩ := new_ok hnew
  have hsound : ∀ r : Reader σ, r.readSize = settings.readSize → r.source = source →
      r.inputDone = false → r.Sound := by
    rintro r hread rfl hdone
    exact ⟨hread ▸ hsize, hwhole, fun h => Bool.noConfusion (hdone.symm.trans h)⟩
  rcases hopen with rfl | henter
  · exact ⟨⟨Phase.noConfusion, rfl, rfl, rfl, hsound _ rfl rfl rfl⟩, rfl, rfl, by simp, rfl, rfl⟩
  · obtain rfl := enter_ok henter
    exact ⟨⟨Phase.noConfusion, rfl, rfl, rfl, hsound _ rfl rfl rfl⟩, rfl, rfl, by simp, rfl, rfl⟩

omit [Codec σ] in
/-- A new decompressing reader has nothing to tell its codec. -/
theorem running_of_new_decompressing (hnew : Reader.new .decompressing codec source settings = .ok r)
    (hopen : r' = r ∨ r.enter = (.ok (), r')) (hwhole : source.Whole) :
    r'.Running codec ∧ r'.ahead = source.content ∧ r'.stopsAtFrameEnd = !settings.acrossFrames ∧
      r'.direction = .decompressing ∧ r'.source = source := by
  obtain ⟨hrunning, hahead, hstops, hpledged, hdirection, hsource⟩ :=
    running_of_new hnew hopen hwhole
  have hsame : { r' with owesPledge := false } = r' := by
    have hfalse : r'.owesPledge = false := by simpa using hpledged
    rw [← hfalse]
  rw [hsame] at hrunning
  exact ⟨hrunning, hahead, hstops, hdirection, hsource⟩

omit [Codec σ] in
/-- What is due to a new decompressing reader. -/
theorem due_of_new (hnew : Reader.new .decompressing codec source settings = .ok r)
    (hopen : r' = r ∨ r.enter = (.ok (), r')) (howes : Owes codec source.content contents)
    (hwhole : source.Whole) : Due Owes r' (expected (!settings.acrossFrames) contents) := by
  obtain ⟨hrunning, hahead, hstops, -⟩ := running_of_new_decompressing hnew hopen hwhole
  rw [← hstops]
  exact .running hrunning (hahead ▸ howes)

end New

end Reader

end Sluice
