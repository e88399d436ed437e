import Sluice.Proofs.CutFrames
import Sluice.Stored

/-!
# What is ahead

What the first frame of some bytes decodes to, and how it comes to an end, can be said before anything
is decoded: it depends on the bytes only.

* `Prospect` — the content that is ahead, and the ending.
* `firstFrame` — the prospect of a byte decoder; for whole frames and for fronts of frames, it is
  their content (`Frame.firstFrame_append`, `Part.firstFrame_eq`).
* `Queued.prospect`, `Queued.go_prospect` — the same behind an output queue, and one run of it.
* `Foretold`, `Foretells` — a step of a codec that goes by a prospect, and a codec of which all do.
* `Stored.foretells` — stored data goes by itself.
-/

namespace Sluice

variable {σ δ : Type} [Codec σ] [ByteDecoder δ]

/-! ## Prospects -/

/-- How the first frame of some bytes comes to an end. -/
inductive Ending where
  | complete
  /-- a byte is wrong -/
  | wrong (text : String)
  /-- the bytes end inside the frame -/
  | cut (text : String)
  deriving DecidableEq, Repr

/-- The content that is ahead, and how the frame ends behind it. -/
structure Prospect where
  content : List UInt8
  ending : Ending
  deriving DecidableEq, Repr

namespace Prospect

/-- The answer to someone who wants all of the content. -/
def outcome (p : Prospect) : Except Failure (List UInt8) :=
  match p.ending with
  | .complete => .ok p.content
  | .wrong text | .cut text => .error (.codec text)

/-- The same prospect with some bytes before it. -/
def behind (made : List UInt8) (p : Prospect) : Prospect := ⟨made ++ p.content, p.ending⟩

@[simp] theorem content_behind (made : List UInt8) (p : Prospect) :
    (p.behind made).content = made ++ p.content := rfl

@[simp] theorem ending_behind (made : List UInt8) (p : Prospect) :
    (p.behind made).ending = p.ending := rfl

@[simp] theorem behind_nil (p : Prospect) : p.behind [] = p := rfl

@[simp] theorem behind_behind (made before : List UInt8) (p : Prospect) :
    (p.behind made).behind before = p.behind (before ++ made) := by
  simp [behind]

theorem outcome_eq_ok_iff {p : Prospect} {out : List UInt8} :
    p.outcome = .ok out ↔ p = ⟨out, .complete⟩ := by
  obtain ⟨content, ending⟩ := p
  cases ending <;> simp [outcome]

theorem outcome_behind_of_error {p : Prospect} {failure : Failure} (h : p.outcome = .error failure)
    (made : List UInt8) : (p.behind made).outcome = .error failure := by
  obtain ⟨content, ending⟩ := p
  cases ending with
  | complete => cases h
  | wrong text => exact h
  | cut text => exact h

/-- What can go wrong is of the codec's making. -/
theorem outcome_cases (p : Prospect) :
    p.outcome = .ok p.content ∨ ∃ text, p.outcome = .error (.codec text) := by
  obtain ⟨content, ending⟩ := p
  cases ending <;> simp [outcome]

end Prospect

/-- The texts with which a codec fails: for a wrong byte that its automaton words in some way, and for
the end of the input inside a frame. -/
structure Wording (δ : Type) where
  wrong : String → String
  cut : δ → String

/-- What the first frame of some bytes has ahead, for a byte decoder in state `d`. Of the bytes behind
the frame nothing is decoded. -/
def firstFrame (wording : Wording δ) (d : δ) : List UInt8 → Prospect
  | [] => ⟨[], .cut (wording.cut d)⟩
  | byte :: x =>
    match ByteDecoder.feed d byte with
    | .more next output => (firstFrame wording next x).behind output
    | .ended _ output => ⟨output, .complete⟩
    | .failed text => ⟨[], .wrong (wording.wrong text)⟩

section Feed

variable (wording : Wording δ) {d next : δ} {byte : UInt8} {output : List UInt8} (x : List UInt8)

theorem firstFrame_more (h : ByteDecoder.feed d byte = .more next output) :
    firstFrame wording d (byte :: x) = (firstFrame wording next x).behind output := by
  simp only [firstFrame, h]

theorem firstFrame_ended (h : ByteDecoder.feed d byte = .ended next output) :
    firstFrame wording d (byte :: x) = ⟨output, .complete⟩ := by
  simp only [firstFrame, h]

theorem firstFrame_failed {text : String} (h : ByteDecoder.feed d byte = .failed text) :
    firstFrame wording d (byte :: x) = ⟨[], .wrong (wording.wrong text)⟩ := by
  simp only [firstFrame, h]

end Feed

/-- A whole frame has its content ahead, whatever is behind it. -/
theorem Frame.firstFrame_append {d d' : δ} {f c : List UInt8} (h : Frame d f c d')
    (wording : Wording δ) (rest : List UInt8) :
    firstFrame wording d (f ++ rest) = ⟨c, .complete⟩ := by
  induction h with
  | ended feed => exact firstFrame_ended wording rest feed
  | @more d d₁ d' byte output f c feed others ih =>
    rw [List.cons_append, firstFrame_more wording (f ++ rest) feed, ih, Prospect.behind]

/-- The front of a frame has what it makes ahead, and is cut off behind that. -/
theorem Part.firstFrame_eq {d : δ} {p c : List UInt8} (h : Part d p c) (wording : Wording δ) :
    ∃ d', firstFrame wording d p = ⟨c, .cut (wording.cut d')⟩ := by
  induction h with
  | nil => exact ⟨_, rfl⟩
  | @more d d₁ byte output p c feed others ih =>
    obtain ⟨d', hfirst⟩ := ih
    exact ⟨d', by rw [firstFrame_more wording p feed, hfirst, Prospect.behind]⟩

/-! ## Runs of the queue -/

namespace Queued

variable (wording : Wording δ)

/-- What a decoder with a queue has ahead, with the input `x` before it. -/
def prospect (q : Queued δ) (x : List UInt8) : Prospect :=
  if q.frameEnd then ⟨q.queue, .complete⟩ else (firstFrame wording q.decoder x).behind q.queue

/-- The front of the queue is the front of what is ahead. -/
theorem prospect_eq_behind {q : Queued δ} {front rest : List UInt8} (x : List UInt8)
    (h : q.queue = front ++ rest) :
    q.prospect wording x = ({ q with queue := rest }.prospect wording x).behind front := by
  cases hend : q.frameEnd <;> simp [prospect, hend, h, Prospect.behind]

/-- What a run does that does not fail: it takes `count` bytes and makes `made`, the front of what is
ahead, and has `later` ahead then. It stops inside the frame only for lack of room or of input. -/
structure Advances (run : Run (Queued δ)) (unread : List UInt8) (p : Prospect) (room taken : Nat)
    (out : List UInt8) (count left : Nat) (made : List UInt8) (later : Prospect) : Prop
    extends Account run unread room taken out count left made where
  ahead : p = later.behind made
  ended : left = 0 → later = ⟨[], .complete⟩
  inside : left ≠ 0 → run.state.failure = none ∧
    run.state.prospect wording (unread.drop count) = later
  stops : left ≠ 0 → made.length = room ∧ later.content ≠ [] ∨
    unread.drop count = [] ∧ ∃ text, later = ⟨[], .cut text⟩

section Advances

variable {wording : Wording δ} {run : Run (Queued δ)} {unread : List UInt8} {p : Prospect}
  {room taken : Nat} {out : List UInt8} {count left : Nat} {made : List UInt8} {later : Prospect}

/-- A run that stops inside the frame has not had only the end of it ahead. -/
theorem Advances.unfinished
    (h : Advances wording run unread p room taken out count left made later) (hleft : left ≠ 0) :
    p ≠ ⟨[], .complete⟩ := by
  intro heq
  have hahead := h.ahead
  rw [heq] at hahead
  rcases h.stops hleft with ⟨-, hne⟩ | ⟨-, text, hcut⟩
  · have hcontent := congrArg Prospect.content hahead
    exact hne (List.append_eq_nil_iff.1 hcontent.symm).2
  · rw [hcut] at hahead
    exact Ending.noConfusion (congrArg Prospect.ending hahead)

/-- A run that stops inside the frame has no wrong byte directly ahead. -/
theorem Advances.right
    (h : Advances wording run unread p room taken out count left made later) (hleft : left ≠ 0)
    (text : String) : later ≠ ⟨[], .wrong text⟩ := by
  rintro rfl
  rcases h.stops hleft with ⟨-, hne⟩ | ⟨-, text', hcut⟩
  · exact hne rfl
  · exact Ending.noConfusion (congrArg Prospect.ending hcut)

/-- A run with room that stops inside the frame takes something or makes something. Without input,
there has to be something that waits, or the end of the frame. -/
theorem Advances.shrinks
    (h : Advances wording run unread p room taken out count left made later) (hleft : left ≠ 0)
    (hroom : 0 < room) (hactive : unread = [] → p.content ≠ [] ∨ p.ending = .complete) :
    (unread.drop count).length + later.content.length < unread.length + p.content.length := by
  have hcount := h.count_le
  have hcontent : p.content.length = made.length + later.content.length := by
    rw [h.ahead, Prospect.content_behind, List.length_append]
  rw [List.length_drop]
  rcases h.stops hleft with ⟨hfull, -⟩ | ⟨hnil, text, hcut⟩
  · omega
  · have hall := congrArg List.length hnil
    rw [List.length_drop, List.length_nil] at hall
    by_cases hne : unread = []
    · rcases hactive hne with hwaits | hends
      · have := List.length_pos_iff.2 hwaits
        rw [hcut, List.length_nil] at *
        omega
      · -- a frame that is cut off does not end
        rw [h.ahead, hcut] at hends
        cases hends
    · have := List.length_pos_iff.2 hne
      omega

end Advances

/-- One run: it gets on, or it fails at a wrong byte, with room for everything before that. -/
def Meets (run : Run (Queued δ)) (unread : List UInt8) (p : Prospect) (room taken : Nat)
    (out : List UInt8) : Prop :=
  (∃ text, run.result = .error text ∧ p.ending = .wrong (wording.wrong text) ∧
    p.content.length ≤ room) ∨
  ∃ count left made later, Advances wording run unread p room taken out count left made later

/-- A run that makes `before`, takes a byte, and goes on. -/
theorem Meets.cons {run : Run (Queued δ)} {byte : UInt8} {unread : List UInt8} {p : Prospect}
    {room taken : Nat} {out before : List UInt8} (hroom : before.length ≤ room)
    (h : Meets wording run unread p (room - before.length) (taken + 1) (out ++ before)) :
    Meets wording run (byte :: unread) (p.behind before) room taken out := by
  rcases h with ⟨text, hresult, hending, hfits⟩ | ⟨count, left, made, later, h⟩
  · refine .inl ⟨text, hresult, hending, ?_⟩
    rw [Prospect.content_behind, List.length_append]
    omega
  · refine .inr ⟨count + 1, left, before ++ made, later, h.toAccount.cons hroom, ?_, h.ended, h.inside,
      fun hleft => (h.stops hleft).imp_left (.imp_left fun hmade => ?_)⟩
    · rw [h.ahead, Prospect.behind_behind]
    · rw [List.length_append]
      omega

/-- One run goes by what is ahead, whatever the input is. -/
theorem go_prospect {q : Queued δ} (hq : q.failure = none) (unread : List UInt8) (room taken : Nat)
    (out : Array UInt8) :
    Meets wording (q.go unread room taken out) unread (q.prospect wording unread) room taken
      out.toList := by
  refine go_induction (motive := fun q unread room taken out run =>
      Meets wording run unread (q.prospect wording unread) room taken out.toList)
    ?waiting ?ended ?nil ?more ?last ?failed hq unread room taken out
  case waiting =>
    intro q unread room taken out hfailure hroom
    have hmade : (q.queue.take room).length = room := by
      rw [List.length_take]
      omega
    have hwaiting : q.queue.drop room ≠ [] := by
      simpa [List.drop_eq_nil_iff] using hroom
    have hahead := prospect_eq_behind wording unread (List.take_append_drop room q.queue).symm
    refine .inr ⟨0, 1, _, _, account_idle taken 1 (Nat.le_of_eq hmade), hahead, nofun,
      fun _ => ⟨hfailure, rfl⟩, fun _ => .inl ⟨hmade, ?_⟩⟩
    cases q.frameEnd <;> simp [prospect, hwaiting]
  case ended =>
    intro d queue unread room taken out hroom
    refine .inr ⟨0, 0, queue, ⟨[], .complete⟩, account_idle taken 0 hroom, ?_,
      fun _ => rfl, fun h => absurd rfl h, fun h => absurd rfl h⟩
    simp [prospect, Prospect.behind]
  case nil =>
    intro d queue room taken out hroom
    exact .inr ⟨0, 1, queue, firstFrame wording d [], account_idle taken 1 hroom, rfl, nofun,
      fun _ => ⟨rfl, rfl⟩, fun _ => .inr ⟨rfl, _, rfl⟩⟩
  case more =>
    intro d next queue output byte unread room taken out run hroom hfeed ih
    rw [Array.toList_appendList] at ih
    have hahead : prospect wording ⟨d, queue, false, none⟩ (byte :: unread) =
        (prospect wording ⟨next, output, false, none⟩ unread).behind queue := by
      simp [prospect, firstFrame_more wording unread hfeed]
    exact hahead ▸ ih.cons wording hroom
  case last =>
    intro d next queue output byte unread room taken out run hroom hfeed ih
    rw [Array.toList_appendList] at ih
    have hahead : prospect wording ⟨d, queue, false, none⟩ (byte :: unread) =
        (prospect wording ⟨next, output, true, none⟩ unread).behind queue := by
      simp [prospect, firstFrame_ended wording unread hfeed]
    exact hahead ▸ ih.cons wording hroom
  case failed =>
    intro d queue byte unread room text taken out hroom hfeed
    refine .inl ⟨text, rfl, ?_, ?_⟩ <;> simp [prospect, firstFrame_failed wording unread hfeed, hroom]

/-- Without input there is no wrong byte. -/
theorem result_go_nil {q : Queued δ} (hq : q.failure = none) (room : Nat) :
    ∃ left, (q.go [] room 0 #[]).result = .ok left := by
  have hword : Wording δ := ⟨id, fun _ => ""⟩
  rcases go_prospect hword hq [] room 0 #[] with ⟨text, -, hending, -⟩ | ⟨_, left, _, _, hrun⟩
  · cases hend : q.frameEnd <;> simp [prospect, hend, firstFrame] at hending
  · exact ⟨left, hrun.result⟩

end Queued

/-! ## Codecs that go by a prospect -/

/-- A step of a codec that has `p` ahead, with the input `x` before it. It ends the frame, or fails, or
makes the front of what is ahead and has the rest of that ahead then. -/
inductive Foretold (Ahead : σ → List UInt8 → Prospect → Prop) (p : Prospect) (x : List UInt8)
    (room : Nat) (step : Step σ) : Prop where
  | ends (result : step.result = .ok 0) (all : p = ⟨step.output, .complete⟩)
      (fits : step.output.length ≤ room)
  /-- a failure waits until there is room for everything before it -/
  | fails {failure : Failure} (result : step.result = .error failure)
      (outcome : p.outcome = .error failure) (fits : p.content.length ≤ room)
  /-- with nothing ahead but the end of the frame, a step ends it; and a step that hands out the last
  byte before a wrong one fails -/
  | continues {left : Nat} {later : Prospect} (result : step.result = .ok (left + 1))
      (ahead : p = later.behind step.output) (fits : step.output.length ≤ room)
      (state : Ahead step.state (x.drop step.taken) later)
      (shrinks : 0 < room → (x.drop step.taken).length + later.content.length <
        x.length + p.content.length)
      (unfinished : p ≠ ⟨[], .complete⟩) (right : ∀ text, later ≠ ⟨[], .wrong text⟩)

/-- Whether a decoder is asked to go on over the input, or to end without any. -/
def Asked (directive : Directive) (x : List UInt8) : Prop :=
  directive = .proceed ∧ x ≠ [] ∨ directive = .finish ∧ x = []

/-- A codec all steps of which go by what is ahead. -/
structure Foretells (Ahead : σ → List UInt8 → Prospect → Prop) : Prop where
  step {s : σ} {x : List UInt8} {p : Prospect} {room : Nat} {directive : Directive} :
    Ahead s x p → Asked directive x → Foretold Ahead p x room (Codec.step s x room directive)

/-- Stored data has itself ahead. -/
theorem Stored.foretells :
    Foretells fun (_ : Stored) x p => p = ⟨x, .complete⟩ where
  step {s x p room directive} := by
    rintro rfl (⟨rfl, hne⟩ | ⟨rfl, rfl⟩)
    · have hfits : (x.take room).length ≤ room := List.length_take_le ..
      have hdrop : x.drop (x.take room).length = x.drop room := by
        rw [List.length_take, ← List.drop_eq_drop_min]
      have hahead : Prospect.mk x .complete =
          Prospect.behind (x.take room) ⟨x.drop room, .complete⟩ := by
        rw [Prospect.behind, List.take_append_drop]
      refine .continues rfl hahead hfits ?_ ?_ ?_
        fun _ h => Ending.noConfusion (congrArg Prospect.ending h)
      · change Prospect.mk _ _ = ⟨x.drop (x.take room).length, _⟩
        rw [hdrop]
      · intro hroom
        change (x.drop (x.take room).length).length + (x.drop room).length < x.length + x.length
        have hpos := List.length_pos_iff.2 hne
        rw [hdrop, List.length_drop]
        omega
      · simpa using hne
    · have hstep : Codec.step s [] room .finish = ⟨0, [], .stored, .ok 0⟩ := by
        simp [Codec.step, step]
      rw [hstep]
      exact .ends rfl rfl (Nat.zero_le _)

end Sluice
