import Sluice.Deflate.Codec
import Sluice.FrameDecoder
import Sluice.Proofs.FrameDecoding
import Sluice.Toy.LengthPrefixed
import Sluice.Zstd.Codec

/-!
# The frame decoders

Which codecs of the library behave like an automaton with a queue.

* `FrameDecoder.frameDecoding` — the codec of a frame automaton, unless it is slowed down.
* `Bytewise` — a format's decoder that behaves like an automaton with a queue.
* `Zstd.Unpacking.frameDecoding`, `Deflate.Unpacking.frameDecoding` — the codecs over such a decoder.
-/

namespace Sluice

variable {δ : Type} [ByteDecoder δ]

/-! ## Runs that succeed -/

namespace Queued

/-- What is true of every run that succeeds. -/
structure Ran (q : Queued δ) (unread : List UInt8) (taken left : Nat) (run : Run (Queued δ)) :
    Prop where
  le_taken : taken ≤ run.taken
  failure : run.state.failure = none
  /-- after the end of a frame, nothing waits -/
  eq_new : left = 0 → run.state = .new run.state.decoder
  /-- if something waits after a run that takes nothing, or there was anything to take, something
  has waited before -/
  waits : run.taken = taken → unread ≠ [] ∨ run.state.queue ≠ [] ∨ run.state.frameEnd = true →
    q.queue ≠ [] ∨ q.frameEnd = true
  /-- at the end of a frame, the automaton is as after a reset -/
  rewound : (∀ (d next : δ) byte output,
      ByteDecoder.feed d byte = .ended next output → ByteDecoder.reset next = next) →
    (q.frameEnd = true → ByteDecoder.reset q.decoder = q.decoder) →
      left = 0 ∨ run.state.frameEnd = true →
        ByteDecoder.reset run.state.decoder = run.state.decoder

/-- A run that has taken a byte, and goes on. -/
theorem Ran.cons {d next : δ} {queue output unread : List UInt8} {byte : UInt8} {frameEnd : Bool}
    {taken left : Nat} {run : Run (Queued δ)}
    (h : Ran ⟨next, output, frameEnd, none⟩ unread (taken + 1) left run)
    (hend : frameEnd = true → ByteDecoder.feed d byte = .ended next output) :
    Ran ⟨d, queue, false, none⟩ (byte :: unread) taken left run where
  le_taken := Nat.le_of_succ_le h.le_taken
  failure := h.failure
  eq_new := h.eq_new
  waits := by
    intro heq
    have := h.le_taken
    omega
  rewound := fun hrewinds _ => h.rewound hrewinds fun htrue => hrewinds _ _ _ _ (hend htrue)

theorem go_ran {q : Queued δ} {unread : List UInt8} {room taken left : Nat} {out : Array UInt8}
    (hq : q.failure = none) (h : (q.go unread room taken out).result = .ok left) :
    Ran q unread taken left (q.go unread room taken out) := by
  refine go_induction
    (motive := fun q unread _ taken _ run => ∀ left, run.result = .ok left →
      Ran q unread taken left run) ?waiting ?ended ?nil ?more ?last ?failed hq unread room taken out
    left h
  case waiting =>
    intro q unread room taken out hq hroom left h
    obtain rfl : 1 = left := Except.ok.inj h
    have hqueue : q.queue ≠ [] := by
      rintro hnil
      rw [hnil] at hroom
      exact Nat.not_lt_zero _ hroom
    refine ⟨Nat.le_refl _, hq, fun h => absurd h Nat.one_ne_zero, fun _ _ => .inl hqueue, ?_⟩
    exact fun _ hrewound hend => hrewound (hend.resolve_left Nat.one_ne_zero)
  case ended =>
    intro d queue unread room taken out _ left _
    exact ⟨Nat.le_refl _, rfl, fun _ => rfl, fun _ _ => .inr rfl, fun _ hrewound _ => hrewound rfl⟩
  case nil =>
    intro d queue room taken out _ left h
    obtain rfl : 1 = left := Except.ok.inj h
    refine ⟨Nat.le_refl _, rfl, fun h => absurd h Nat.one_ne_zero, fun _ => by simp [Queued.new], ?_⟩
    exact fun _ _ hend => Bool.noConfusion (hend.resolve_left Nat.one_ne_zero)
  case more =>
    intro d next queue output byte unread room taken out run _ _ ih left h
    exact (ih left h).cons fun htrue => Bool.noConfusion htrue
  case last =>
    intro d next queue output byte unread room taken out run _ hfeed ih left h
    exact (ih left h).cons fun _ => hfeed
  case failed => rintro d queue byte unread room text taken out _ _ left ⟨⟩

end Queued

/-! ## The codec of a frame automaton -/

/-- An automaton that is part-read inside a frame, and is not at the end of one. -/
class LawfulFrameAutomaton (δ : Type) [FrameAutomaton δ] : Prop where
  isPartRead_more {d next : δ} {byte : UInt8} {output : List UInt8} :
    ByteDecoder.feed d byte = .more next output → FrameAutomaton.isPartRead next = true
  isPartRead_ended {d next : δ} {byte : UInt8} {output : List UInt8} :
    ByteDecoder.feed d byte = .ended next output → FrameAutomaton.isPartRead next = false

namespace FrameDecoder

variable {δ : Type} [FrameAutomaton δ]

section Go

variable {f : FrameDecoder δ} {directive : Directive} {unread : List UInt8} {room : Nat}
  (taken : Nat) (out : Array UInt8)

theorem go_waiting (h : room < f.queue.length) :
    f.go directive unread room taken out =
      ⟨taken, out.toList ++ f.queue.take room, { f with queue := f.queue.drop room },
        stopResult { f with queue := f.queue.drop room } (!unread.isEmpty) directive⟩ := by
  have hwaiting : (f.queue.drop room).isEmpty = false := by
    simpa [List.isEmpty_iff, List.drop_eq_nil_iff] using h
  rw [FrameDecoder.go]
  simp [List.splitAt_eq, hwaiting]

variable {d : δ} {queue : List UInt8}

theorem go_ended (h : queue.length ≤ room) :
    FrameDecoder.go directive ⟨d, queue, true, none⟩ unread room taken out =
      ⟨taken, out.toList ++ queue, ⟨d, [], false, none⟩, .ok 0⟩ := by
  rw [FrameDecoder.go]
  simp [List.splitAt_eq, List.drop_eq_nil_of_le h, List.take_of_length_le h]

theorem go_nil (h : queue.length ≤ room) :
    FrameDecoder.go directive ⟨d, queue, false, none⟩ [] room taken out =
      ⟨taken, out.toList ++ queue, ⟨d, [], false, none⟩,
        stopResult ⟨d, [], false, none⟩ false directive⟩ := by
  rw [FrameDecoder.go]
  simp [List.splitAt_eq, List.drop_eq_nil_of_le h, List.take_of_length_le h]

theorem go_more {byte : UInt8} {next : δ} {output : List UInt8} (h : queue.length ≤ room)
    (hfeed : ByteDecoder.feed d byte = .more next output) :
    FrameDecoder.go directive ⟨d, queue, false, none⟩ (byte :: unread) room taken out =
      FrameDecoder.go directive ⟨next, output, false, none⟩ unread (room - queue.length)
        (taken + 1) (out ++ queue) := by
  rw [FrameDecoder.go]
  simp [List.splitAt_eq, List.drop_eq_nil_of_le h, List.take_of_length_le h, hfeed]

theorem go_last {byte : UInt8} {next : δ} {output : List UInt8} (h : queue.length ≤ room)
    (hfeed : ByteDecoder.feed d byte = .ended next output) :
    FrameDecoder.go directive ⟨d, queue, false, none⟩ (byte :: unread) room taken out =
      FrameDecoder.go directive ⟨next, output, true, none⟩ unread (room - queue.length)
        (taken + 1) (out ++ queue) := by
  rw [FrameDecoder.go]
  simp [List.splitAt_eq, List.drop_eq_nil_of_le h, List.take_of_length_le h, hfeed]

theorem result_go_failed {byte : UInt8} {text : String} (h : queue.length ≤ room)
    (hfeed : ByteDecoder.feed d byte = .failed text) :
    (FrameDecoder.go directive ⟨d, queue, false, none⟩ (byte :: unread) room taken out).result =
      .error (.codec text) := by
  rw [FrameDecoder.go]
  simp [List.splitAt_eq, List.drop_eq_nil_of_le h, hfeed]

end Go

/-- The decoder is where the queue is, takes as much as it can, and is in a frame that has been
read in part if the automaton says so. -/
def Like (f : FrameDecoder δ) (q : Queued δ) (partRead : Bool) : Prop :=
  q = ⟨f.automaton, f.queue, f.frameEnd, none⟩ ∧ f.pace = none ∧
    FrameAutomaton.isPartRead f.automaton = (partRead && !f.frameEnd)

/-- A step that does what a run of the queue does, after `taken` bytes have been taken. -/
def GoesOn (partRead : Bool) (taken : Nat) (step : Step (FrameDecoder δ)) (run : Run (Queued δ)) :
    Prop :=
  Agrees (fun f q => Like f q (run.result matches .ok (_ + 1) && (partRead || taken < run.taken)))
    step.taken step.output step.state step.result run

/-- A run that only hands out what waits, whatever is asked of it. -/
theorem agrees_of_stop {f : FrameDecoder δ} {q : Queued δ} {partRead : Bool}
    (h : Like f q partRead) (directive : Directive) (unread : List UInt8) {room : Nat} (taken : Nat)
    (out : Array UInt8) (hstop : f.frameEnd = true ∨ room < f.queue.length) :
    GoesOn partRead taken (f.go directive unread room taken out) (q.go unread room taken out) := by
  obtain ⟨rfl, hpace, hpart⟩ := h
  by_cases hroom : room < f.queue.length
  · have hwaiting : (f.queue.drop room).isEmpty = false := by
      simpa [List.isEmpty_iff, List.drop_eq_nil_iff] using hroom
    rw [Queued.go_waiting taken out hroom, FrameDecoder.go_waiting taken out hroom]
    refine ⟨rfl, rfl, ⟨rfl, hpace, by simpa using hpart⟩, 1, ?_, Iff.rfl⟩
    cases directive <;> simp [stopResult, hwaiting]
  · obtain ⟨d, queue, frameEnd, pace⟩ := f
    obtain rfl : pace = none := hpace
    obtain rfl : frameEnd = true := hstop.resolve_right hroom
    have hroom := Nat.le_of_not_lt hroom
    rw [Queued.go_ended taken out hroom, FrameDecoder.go_ended taken out hroom]
    exact ⟨rfl, rfl, ⟨rfl, rfl, by simpa using hpart⟩, 0, rfl, Iff.rfl⟩

/-- A byte has been taken, so that the frame has been read in part unless it has ended. -/
theorem agrees_of_taken {step : Step (FrameDecoder δ)} {q : Queued δ} {unread : List UInt8}
    {room taken : Nat} {out : Array UInt8} {partRead : Bool} (hq : q.failure = none)
    (h : GoesOn true (taken + 1) step (q.go unread room (taken + 1) out)) :
    GoesOn partRead taken step (q.go unread room (taken + 1) out) := by
  refine h.imp fun left hleft hlike => ?_
  have hlt : taken < (q.go unread room (taken + 1) out).taken := (Queued.go_ran hq hleft).le_taken
  simpa [hlt] using hlike

/-- A run over input is a run of the queue. -/
theorem go_agrees [LawfulFrameAutomaton δ] {f : FrameDecoder δ} {q : Queued δ} {partRead : Bool}
    (h : Like f q partRead) (unread : List UInt8) (room taken : Nat) (out : Array UInt8) :
    GoesOn partRead taken (f.go .proceed unread room taken out) (q.go unread room taken out) := by
  induction unread generalizing f q partRead room taken out with
  | nil =>
    by_cases hstop : f.frameEnd = true ∨ room < f.queue.length
    · exact agrees_of_stop h .proceed [] taken out hstop
    · obtain ⟨d, queue, frameEnd, pace⟩ := f
      obtain ⟨rfl, rfl, hpart⟩ := h
      obtain ⟨hend, hroom⟩ := not_or.1 hstop
      obtain rfl : frameEnd = false := by simpa using hend
      have hroom := Nat.le_of_not_lt hroom
      rw [Queued.go_nil taken out hroom, FrameDecoder.go_nil taken out hroom]
      exact ⟨rfl, rfl, ⟨rfl, rfl, by simpa using hpart⟩, 1, rfl, Iff.rfl⟩
  | cons byte unread ih =>
    by_cases hstop : f.frameEnd = true ∨ room < f.queue.length
    · exact agrees_of_stop h .proceed (byte :: unread) taken out hstop
    · obtain ⟨d, queue, frameEnd, pace⟩ := f
      obtain ⟨rfl, rfl, -⟩ := h
      obtain ⟨hend, hroom⟩ := not_or.1 hstop
      obtain rfl : frameEnd = false := by simpa using hend
      have hroom := Nat.le_of_not_lt hroom
      cases hfeed : ByteDecoder.feed d byte with
      | more next output =>
        have hnext : Like ⟨next, output, false, none⟩ ⟨next, output, false, none⟩ true :=
          ⟨rfl, rfl, LawfulFrameAutomaton.isPartRead_more hfeed⟩
        rw [Queued.go_more taken out hroom hfeed, FrameDecoder.go_more taken out hroom hfeed]
        exact agrees_of_taken rfl (ih hnext _ _ _)
      | ended next output =>
        have hnext : Like ⟨next, output, true, none⟩ ⟨next, output, true, none⟩ true :=
          ⟨rfl, rfl, LawfulFrameAutomaton.isPartRead_ended hfeed⟩
        rw [Queued.go_last taken out hroom hfeed, FrameDecoder.go_last taken out hroom hfeed]
        exact agrees_of_taken rfl (ih hnext _ _ _)
      | failed text =>
        rw [Queued.go_failed taken out hroom hfeed]
        exact ⟨_, result_go_failed taken out hroom hfeed⟩

/-- The step that is to end the input, with room for what waits. -/
theorem step_unended {d : δ} {queue : List UInt8} {room : Nat} (h : queue.length ≤ room) :
    Codec.step (FrameDecoder.mk d queue false none) [] room .finish =
      ⟨0, queue, ⟨d, [], false, none⟩, stopResult ⟨d, [], false, none⟩ false .finish⟩ :=
  FrameDecoder.go_nil 0 #[] h

/-- If nothing waits, it does nothing else. -/
theorem step_finish {d : δ} (room : Nat) :
    Codec.step (FrameDecoder.mk d [] false none) [] room .finish =
      ⟨0, [], ⟨d, [], false, none⟩, stopResult ⟨d, [], false, none⟩ false .finish⟩ :=
  step_unended (Nat.zero_le room)

/-- The codec of a frame automaton is a frame decoder. -/
theorem frameDecoding [LawfulFrameAutomaton δ] :
    FrameDecoding (Like : FrameDecoder δ → Queued δ → Bool → Prop) where
  proceed {s q partRead unread room} := by
    intro hlike _ _
    exact go_agrees hlike unread room 0 #[]
  finish {s q partRead room} := by
    intro hlike _ hqueue
    refine agrees_of_stop hlike .finish [] 0 #[] ?_
    obtain ⟨rfl, -, -⟩ := hlike
    exact hqueue
  finish_within {s d room} := by
    intro hlike _
    obtain ⟨d', queue, frameEnd, pace⟩ := s
    obtain ⟨heq, rfl, hpart⟩ := hlike
    obtain ⟨rfl, rfl, rfl, -⟩ := Queued.mk.inj heq
    rw [step_finish]
    exact ⟨_, if_pos hpart⟩
  finish_between {s d room} := by
    intro hlike _
    obtain ⟨d', queue, frameEnd, pace⟩ := s
    obtain ⟨heq, rfl, hpart⟩ := hlike
    obtain ⟨rfl, rfl, rfl, -⟩ := Queued.mk.inj heq
    rw [step_finish]
    have hresult : stopResult ⟨d, [], false, none⟩ false .finish = .ok 0 := by
      simp only [Bool.false_and] at hpart
      simp [stopResult, hpart]
    exact ⟨hresult, rfl, rfl, rfl, hpart⟩

end FrameDecoder

namespace Toy.LengthPrefixed

/-- After a byte, the number of bytes left says whether the frame goes on. -/
theorem feed_cases (f : LengthPrefixed) (byte : UInt8) :
    match feed f byte with
    | .more next _ => next.left ≠ 0
    | .ended next _ => next.left = 0
    | .failed _ => True := by
  by_cases hleft : f.left = 0
  · by_cases hreserved : byte = reserved
    · simp [feed, hleft, hreserved]
    · by_cases hzero : byte = 0
      · subst hzero
        simp [feed, hleft, hreserved]
      · have hbyte : byte.toNat ≠ 0 := fun h => hzero (UInt8.toNat_inj.1 h)
        simp [feed, hleft, hreserved, hzero, hbyte]
  · by_cases hlast : f.left - 1 = 0
    · simp [feed, hleft, hlast]
    · simp [feed, hleft, hlast]

instance : LawfulFrameAutomaton LengthPrefixed where
  isPartRead_more {d next byte output} := by
    intro hfeed
    have := feed_cases d byte
    rw [show feed d byte = .more next output from hfeed] at this
    simpa [FrameAutomaton.isPartRead] using this
  isPartRead_ended {d next byte output} := by
    intro hfeed
    have := feed_cases d byte
    rw [show feed d byte = .ended next output from hfeed] at this
    simpa [FrameAutomaton.isPartRead] using this

end Toy.LengthPrefixed

/-! ## Decoders of a format -/

variable {ρ : Type} [Unframer ρ]

/-- The run of the decoder in state `u` is one of the queue. -/
def Runs (like : ρ → Queued δ → Prop) (u : ρ) (q : Queued δ) (unread : List UInt8) (room : Nat) :
    Prop :=
  Agrees like (Unframer.run u unread room).taken (Unframer.run u unread room).output
    (Unframer.run u unread room).state (Unframer.run u unread room).result (q.go unread room 0 #[])

/-- A format's decoder that behaves like an automaton with an output queue: with `like u q`, the
decoder in state `u` is where the queue `q` is, and none of the two has failed. -/
structure Bytewise (like : ρ → Queued δ → Prop) : Prop where
  intact {u : ρ} {q : Queued δ} : like u q → q.failure = none
  run {u : ρ} {q : Queued δ} {unread : List UInt8} {room : Nat} : like u q → 0 < room →
    Runs like u q unread room
  reset {u : ρ} {q : Queued δ} : like u q →
    like (Unframer.reset u) (.new (ByteDecoder.reset q.decoder))

/-- The queue runs like itself, also without room. -/
theorem Queued.runs {u q : Queued δ} (h : u = q ∧ q.failure = none) (unread : List UInt8)
    (room : Nat) : Runs (fun u q : Queued δ => u = q ∧ q.failure = none) u q unread room := by
  obtain ⟨rfl, hq⟩ := h
  have hrun : Unframer.run u unread room = u.go unread room 0 #[] := by
    obtain ⟨d, queue, frameEnd, failure⟩ := u
    obtain rfl : failure = none := hq
    rfl
  rw [Runs, hrun, Agrees]
  split
  · next text htext => exact ⟨text, htext⟩
  · next left hleft => exact ⟨rfl, rfl, ⟨rfl, (go_ran hq hleft).failure⟩, left, hleft, Iff.rfl⟩

/-- The queue itself is such a decoder. -/
theorem Queued.bytewise : Bytewise fun u q : Queued δ => u = q ∧ q.failure = none where
  intact h := h.2
  run h _ := Queued.runs h ..
  reset {u q} := by
    rintro ⟨rfl, -⟩
    exact ⟨rfl, rfl⟩

namespace Runs

variable {like : ρ → Queued δ → Prop} {u : ρ} {room : Nat}

/-- With nothing in the queue and no input, a run does nothing. -/
theorem idle {d : δ} (h : Runs like u (.new d) [] room) :
    (Unframer.run u [] room).taken = 0 ∧ (Unframer.run u [] room).output = [] ∧
      like (Unframer.run u [] room).state (.new d) ∧
      ∃ left, (Unframer.run u [] room).result = .ok (left + 1) := by
  have hqueue : ([] : List UInt8).length ≤ room := Nat.zero_le room
  rw [Runs, Queued.new, Queued.go_nil 0 #[] hqueue] at h
  obtain ⟨htaken, houtput, hlike, number, hnumber, hzero⟩ := h
  obtain ⟨left, rfl⟩ := Nat.exists_eq_succ_of_ne_zero fun h => Nat.one_ne_zero (hzero.1 h)
  exact ⟨htaken, houtput, hlike, left, hnumber⟩

/-- A run without input that does not get to the end of the frame it should end, or does not empty
the queue, fills the room. -/
theorem full {q : Queued δ} (h : Runs like u q [] room) (hq : q.failure = none)
    (hstop : q.frameEnd = true ∨ room < q.queue.length) {left : Nat}
    (hresult : (Unframer.run u [] room).result = .ok (left + 1)) :
    room ≤ (Unframer.run u [] room).output.length := by
  by_cases hwaits : room < q.queue.length
  · rw [Runs, Queued.go_waiting 0 #[] hwaits] at h
    obtain ⟨-, houtput, -⟩ := h
    rw [houtput]
    simp only [List.nil_append, List.length_take]
    omega
  · obtain ⟨d, queue, frameEnd, failure⟩ := q
    obtain rfl : failure = none := hq
    obtain rfl : frameEnd = true := hstop.resolve_right hwaits
    rw [Runs, Queued.go_ended 0 #[] (Nat.le_of_not_lt hwaits)] at h
    obtain ⟨-, -, -, number, hnumber, hzero⟩ := h
    rw [hresult] at hnumber
    exact absurd (hzero.2 rfl) (Except.ok.inj hnumber ▸ Nat.succ_ne_zero left)

end Runs

/-! ## The codecs over a format's decoder -/

namespace Zstd.Unpacking

/-- The decoder is where the queue is, and the codec knows whether a frame has been read in part. -/
def Like (like : ρ → Queued δ → Prop) (u : Unpacking ρ) (q : Queued δ) (partRead : Bool) : Prop :=
  like u.unframer q ∧ u.frameOpen = partRead

section Step

variable {u : Unpacking ρ} {unread : List UInt8} {room : Nat} (directive : Directive)

theorem result_step_of_error {text : String}
    (h : (Unframer.run u.unframer unread room).result = .error text) :
    (Codec.step u unread room directive).result = .error (failure text) := by
  change (step u unread room directive).result = _
  simp only [step, h]

theorem step_of_zero (h : (Unframer.run u.unframer unread room).result = .ok 0) :
    Codec.step u unread room directive =
      ⟨(Unframer.run u.unframer unread room).taken, (Unframer.run u.unframer unread room).output,
        ⟨(Unframer.run u.unframer unread room).state, false⟩, .ok 0⟩ := by
  change step u unread room directive = _
  simp only [step, h]

/-- A step in which no frame has ended. Its result is left open; see `step`. -/
theorem step_of_more {left : Nat}
    (h : (Unframer.run u.unframer unread room).result = .ok (left + 1)) :
    ∃ result, Codec.step u unread room directive =
      ⟨(Unframer.run u.unframer unread room).taken, (Unframer.run u.unframer unread room).output,
        ⟨(Unframer.run u.unframer unread room).state,
          u.frameOpen || 0 < (Unframer.run u.unframer unread room).taken⟩, result⟩ ∧
      (directive = .proceed → result = .ok (left + 1)) ∧
      (directive = .finish → result =
        if room ≤ (Unframer.run u.unframer unread room).output.length ∨
            unread.drop (Unframer.run u.unframer unread room).taken ≠ [] then .ok 1
        else if u.frameOpen || 0 < (Unframer.run u.unframer unread room).taken then
          .error (failure "input ended before frame was complete")
        else .ok 0) := by
  change ∃ result, step u unread room directive = _ ∧ _
  simp only [step, h]
  refine ⟨_, rfl, ?_, ?_⟩
  · rintro rfl
    rfl
  · rintro rfl
    simp

end Step

variable {like : ρ → Queued δ → Prop}

/-- A step whose result is positive when no frame has ended is a run of the queue. -/
theorem follows {u : Unpacking ρ} {q : Queued δ} {partRead : Bool} {unread : List UInt8}
    {room : Nat} (hrun : Runs like u.unframer q unread room) (h : Like like u q partRead)
    (directive : Directive)
    (hmore : ∀ left, (Unframer.run u.unframer unread room).result = .ok (left + 1) →
      ∃ number, (Codec.step u unread room directive).result = .ok (number + 1)) :
    Follows (Like like) partRead (Codec.step u unread room directive)
      (q.go unread room 0 #[]) := by
  obtain ⟨hlike, rfl⟩ := h
  rw [Follows]
  -- both fail, or both end a frame, or neither does
  unfold Runs at hrun
  unfold Agrees at hrun ⊢
  split at hrun
  · obtain ⟨text, htext⟩ := hrun
    exact ⟨_, result_step_of_error directive htext⟩
  · next left hleft =>
    obtain ⟨htaken, houtput, hstate, number, hnumber, hzero⟩ := hrun
    rw [hleft]
    cases number with
    | zero =>
      obtain rfl := hzero.1 rfl
      rw [step_of_zero directive hnumber]
      exact ⟨htaken, houtput, ⟨hstate, rfl⟩, 0, rfl, Iff.rfl⟩
    | succ n =>
      obtain ⟨m, rfl⟩ := Nat.exists_eq_succ_of_ne_zero fun h => Nat.succ_ne_zero n (hzero.2 h)
      obtain ⟨number, hresult⟩ := hmore n hnumber
      obtain ⟨result, hstep, -, -⟩ := step_of_more directive hnumber
      rw [hstep] at hresult ⊢
      refine ⟨htaken, houtput, ⟨hstate, ?_⟩, number + 1, hresult, by simp⟩
      rw [htaken]
      rfl

/-- The codec over a decoder that works byte by byte is a frame decoder. -/
theorem frameDecoding (hB : Bytewise like) : FrameDecoding (Like like) where
  proceed {u q partRead unread room} := by
    intro hlike _ hroom
    refine follows (hB.run hlike.1 hroom) hlike .proceed fun left hleft => ?_
    obtain ⟨result, hstep, hproceed, -⟩ := step_of_more .proceed hleft
    exact ⟨left, by rw [hstep, hproceed rfl]⟩
  finish {u q partRead room} := by
    intro hlike hroom hstop
    refine follows (hB.run hlike.1 hroom) hlike .finish fun left hleft => ?_
    obtain ⟨result, hstep, -, hfinish⟩ := step_of_more .finish hleft
    refine ⟨0, ?_⟩
    rw [hstep, hfinish rfl, if_pos (.inl ((hB.run hlike.1 hroom).full (hB.intact hlike.1) hstop hleft))]
  finish_within {u d room} := by
    rintro ⟨hlike, hopen⟩ hroom
    obtain ⟨htaken, houtput, -, left, hleft⟩ := (hB.run hlike hroom).idle
    obtain ⟨result, hstep, -, hfinish⟩ := step_of_more .finish hleft
    rw [hstep, hfinish rfl, houtput, if_neg (by simp [Nat.ne_of_gt hroom]), hopen]
    exact ⟨_, rfl⟩
  finish_between {u d room} := by
    rintro ⟨hlike, hopen⟩ hroom
    obtain ⟨htaken, houtput, hstate, left, hleft⟩ := (hB.run hlike hroom).idle
    obtain ⟨result, hstep, -, hfinish⟩ := step_of_more .finish hleft
    rw [hstep, hfinish rfl, houtput, if_neg (by simp [Nat.ne_of_gt hroom]), htaken, hopen]
    exact ⟨rfl, rfl, hstate, rfl⟩

end Zstd.Unpacking

namespace Deflate.Unpacking

/-- The decoder is where the queue is, and the codec knows whether a stream has been read in part.
After the end of one, the automaton is as after a reset. -/
structure Like (like : ρ → Queued δ → Prop) (u : Unpacking ρ) (q : Queued δ) (partRead : Bool) :
    Prop where
  like : like u.unframer q
  frameOpen : u.ended = false → u.frameOpen = partRead
  waits : q.queue ≠ [] ∨ q.frameEnd = true → partRead = true
  rewound : q.frameEnd = true → ByteDecoder.reset q.decoder = q.decoder
  ended : u.ended = true →
    partRead = false ∧ q = .new q.decoder ∧ ByteDecoder.reset q.decoder = q.decoder

omit [Unframer ρ] in
/-- In the middle of a stream, the codec knows that it has not ended. -/
theorem Like.not_ended {like : ρ → Queued δ → Prop} {u : Unpacking ρ} {q : Queued δ}
    (h : Like like u q true) : u.ended = false := by
  cases hended : u.ended with
  | true => exact absurd (h.ended hended).1 Bool.noConfusion
  | false => rfl

section Step

variable {unframer : ρ} {frameOpen : Bool} {unread : List UInt8} {room : Nat}
  (directive : Directive)

theorem result_stepWithin_of_error {text : String}
    (h : (Unframer.run unframer unread room).result = .error text) :
    (stepWithin unframer frameOpen unread room directive).result = .error (failure text) := by
  simp only [stepWithin, h]

theorem stepWithin_of_zero (h : (Unframer.run unframer unread room).result = .ok 0) :
    stepWithin unframer frameOpen unread room directive =
      ⟨(Unframer.run unframer unread room).taken, (Unframer.run unframer unread room).output,
        ⟨(Unframer.run unframer unread room).state, false, true⟩, .ok 0⟩ := by
  simp only [stepWithin, h]

/-- A step in which no stream has ended. Its result is left open; see `stepWithin`. -/
theorem stepWithin_of_more {left : Nat}
    (h : (Unframer.run unframer unread room).result = .ok (left + 1)) :
    ∃ result, stepWithin unframer frameOpen unread room directive =
      ⟨(Unframer.run unframer unread room).taken, (Unframer.run unframer unread room).output,
        ⟨(Unframer.run unframer unread room).state, frameOpen, false⟩, result⟩ ∧
      (directive = .proceed → result = .ok 1) ∧
      (directive = .finish → result =
        if room ≤ (Unframer.run unframer unread room).output.length ∨
            unread.drop (Unframer.run unframer unread room).taken ≠ [] then .ok 1
        else if frameOpen then .error (failure "input ended before stream was complete")
        else .ok 0) := by
  simp only [stepWithin, h]
  refine ⟨_, rfl, ?_, ?_⟩
  · rintro rfl
    rfl
  · rintro rfl
    simp

end Step

variable {like : ρ → Queued δ → Prop}

/-- A step within a stream whose result is positive when the stream has not ended is a run of the
queue. -/
theorem follows
    (hrewinds : ∀ (d next : δ) byte output,
      ByteDecoder.feed d byte = .ended next output → ByteDecoder.reset next = next)
    {unframer : ρ} {q : Queued δ} {partRead : Bool} {unread : List UInt8} {room : Nat}
    (hrun : Runs like unframer q unread room) (hintact : q.failure = none)
    (hwaits : q.queue ≠ [] ∨ q.frameEnd = true → partRead = true)
    (hrewound : q.frameEnd = true → ByteDecoder.reset q.decoder = q.decoder) (directive : Directive)
    (hactive : unread ≠ [] ∨ partRead = true)
    (hmore : ∀ left, (Unframer.run unframer unread room).result = .ok (left + 1) →
      ∃ number, (stepWithin unframer true unread room directive).result = .ok (number + 1)) :
    Follows (Like like) partRead (stepWithin unframer true unread room directive)
      (q.go unread room 0 #[]) := by
  rw [Follows]
  unfold Runs at hrun
  unfold Agrees at hrun ⊢
  split at hrun
  · obtain ⟨text, htext⟩ := hrun
    exact ⟨_, result_stepWithin_of_error directive htext⟩
  · next left hleft =>
    have hran := Queued.go_ran hintact hleft
    obtain ⟨htaken, houtput, hstate, number, hnumber, hzero⟩ := hrun
    rw [hleft]
    cases number with
    | zero =>
      obtain rfl := hzero.1 rfl
      have hnew := hran.eq_new rfl
      rw [stepWithin_of_zero directive hnumber]
      refine ⟨htaken, houtput, ⟨hstate, fun h => Bool.noConfusion h, ?_, ?_, ?_⟩, 0, rfl, Iff.rfl⟩
      · rw [hnew]
        simp [Queued.new]
      · exact fun _ => hran.rewound hrewinds hrewound (.inl rfl)
      · exact fun _ => ⟨rfl, hnew, hran.rewound hrewinds hrewound (.inl rfl)⟩
    | succ n =>
      obtain ⟨m, rfl⟩ := Nat.exists_eq_succ_of_ne_zero fun h => Nat.succ_ne_zero n (hzero.2 h)
      -- the stream has been read in part: before, or because something has been taken
      have hpart : (partRead || decide (0 < (q.go unread room 0 #[]).taken)) = true := by
        by_cases htook : (q.go unread room 0 #[]).taken = 0
        · rcases hactive with hne | hp
          · simp [hwaits (hran.waits htook (.inl hne))]
          · simp [hp]
        · simp [Nat.pos_of_ne_zero htook]
      obtain ⟨number, hresult⟩ := hmore n hnumber
      obtain ⟨result, hstep, -, -⟩ := stepWithin_of_more directive hnumber
      rw [hstep] at hresult ⊢
      refine ⟨htaken, houtput, ⟨hstate, fun _ => hpart.symm, fun _ => hpart, ?_, ?_⟩, number + 1,
        hresult, by simp⟩
      · exact fun hend => hran.rewound hrewinds hrewound (.inr hend)
      · exact fun h => Bool.noConfusion h

/-- Over input, a step is a run of the queue. -/
theorem follows_proceed (hB : Bytewise like)
    (hrewinds : ∀ (d next : δ) byte output,
      ByteDecoder.feed d byte = .ended next output → ByteDecoder.reset next = next)
    {u : Unpacking ρ} {q : Queued δ} {partRead : Bool} {unread : List UInt8} {room : Nat}
    (hruns : ∀ {u : ρ}, like u q → Runs like u q unread room) (h : Like like u q partRead)
    (hne : unread ≠ []) :
    Follows (Like like) partRead (Codec.step u unread room .proceed) (q.go unread room 0 #[]) := by
  have hmore : ∀ (unframer : ρ) left, (Unframer.run unframer unread room).result = .ok (left + 1) →
      ∃ number, (stepWithin unframer true unread room .proceed).result = .ok (number + 1) := by
    intro unframer left hleft
    obtain ⟨result, hstep, hproceed, -⟩ := stepWithin_of_more .proceed hleft
    exact ⟨0, by rw [hstep, hproceed rfl]⟩
  change Follows (Like like) partRead (step u unread room .proceed) _
  have hunread : unread.isEmpty = false := by simpa using hne
  cases hended : u.ended with
  | true =>
    -- the codec resets the decoder first, which changes nothing about where the queue is
    obtain ⟨rfl, hnew, hreset⟩ := h.ended hended
    have hlike : like (Unframer.reset u.unframer) q := by
      have := hB.reset h.like
      rwa [hreset, ← hnew] at this
    rw [step, hended, if_pos rfl, hunread]
    exact follows hrewinds (hruns hlike) (hB.intact hlike) h.waits h.rewound .proceed (.inl hne)
      (hmore _)
  | false =>
    rw [step, hended, if_neg Bool.false_ne_true, hunread, Bool.not_false, Bool.or_true]
    exact follows hrewinds (hruns h.like) (hB.intact h.like) h.waits h.rewound .proceed (.inl hne)
      (hmore _)

/-- The codec over a decoder that works byte by byte is a frame decoder, if after the end of a
stream the automaton is as after a reset. -/
theorem frameDecoding (hB : Bytewise like)
    (hrewinds : ∀ (d next : δ) byte output,
      ByteDecoder.feed d byte = .ended next output → ByteDecoder.reset next = next) :
    FrameDecoding (Like like) where
  proceed {u q partRead unread room} := by
    intro h hne hroom
    exact follows_proceed hB hrewinds (fun hlike => hB.run hlike hroom) h hne
  finish {u q partRead room} := by
    intro h hroom hstop
    -- what is in the queue, or waits for the end, is of a stream that has been read in part
    have hwaits : q.queue ≠ [] ∨ q.frameEnd = true := by
      refine hstop.symm.imp_left ?_
      rintro hlt hnil
      rw [hnil] at hlt
      exact Nat.not_lt_zero _ hlt
    obtain rfl := h.waits hwaits
    have hended := h.not_ended
    change Follows (Like like) true (step u [] room .finish) _
    rw [step, hended, if_neg Bool.false_ne_true, h.frameOpen hended, Bool.true_or]
    refine follows hrewinds (hB.run h.like hroom) (hB.intact h.like) (fun _ => rfl) h.rewound .finish
      (.inr rfl) fun left hleft => ?_
    obtain ⟨result, hstep, -, hfinish⟩ := stepWithin_of_more .finish hleft
    refine ⟨0, ?_⟩
    rw [hstep, hfinish rfl, if_pos (.inl ((hB.run h.like hroom).full (hB.intact h.like) hstop hleft))]
  finish_within {u d room} := by
    intro h hroom
    have hended := h.not_ended
    obtain ⟨htaken, houtput, -, left, hleft⟩ := (hB.run h.like hroom).idle
    obtain ⟨result, hstep, -, hfinish⟩ := stepWithin_of_more .finish hleft
    change ∃ failure, (step u [] room .finish).result = _
    rw [step, hended, if_neg Bool.false_ne_true, h.frameOpen hended, List.isEmpty_nil,
      Bool.not_true, Bool.or_false, hstep, hfinish rfl, houtput,
      if_neg (by simp [Nat.ne_of_gt hroom])]
    exact ⟨_, rfl⟩
  finish_between {u d room} := by
    intro h hroom
    change (step u [] room .finish).result = _ ∧ (step u [] room .finish).output = _ ∧
      Like like (step u [] room .finish).state _ _
    cases hended : u.ended with
    | true =>
      rw [step, hended, if_pos rfl, List.isEmpty_nil, if_pos rfl]
      exact ⟨rfl, rfl, h⟩
    | false =>
      obtain ⟨htaken, houtput, hstate, left, hleft⟩ := (hB.run h.like hroom).idle
      obtain ⟨result, hstep, -, hfinish⟩ := stepWithin_of_more .finish hleft
      rw [step, hended, if_neg Bool.false_ne_true, h.frameOpen hended, List.isEmpty_nil,
        Bool.not_true, Bool.or_false, hstep, hfinish rfl, houtput,
        if_neg (by simp [Nat.ne_of_gt hroom])]
      exact ⟨rfl, rfl, hstate, fun _ => rfl, h.waits, h.rewound, fun h => Bool.noConfusion h⟩

end Deflate.Unpacking

end Sluice
