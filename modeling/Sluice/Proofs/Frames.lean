import Mathlib.Data.List.Forall2
import Sluice.Unframer

/-!
# Frames of a byte decoder

Which bytes are frames, and what a decoder with a queue makes of them, however little of them it is
given at a time.

* `Frame`, `Frames`, `IsFrame` — the bytes that lead a decoder over one frame, and over several,
  with what these contain.
* `Queued.go_induction` — what a run of the queue can do, as an induction.
* `Queued.Account` — what a run of the queue takes and makes, whatever the bytes mean.
* `Queued.Inside` — a decoder with a queue inside a frame, and what is missing of its content.
* `Queued.go_inside` — one run hands out the front of that, and gets to the end of the frame, or is
  inside it again.
* `Queued.Midway` — a decoder with a queue inside a frame, with more frames ahead.
-/

namespace Sluice

variable {δ : Type} [ByteDecoder δ]

/-! ## Frames -/

/-- From state `d`, the bytes `f` lead over exactly one frame to the state `d'`; the frame contains
`c`. -/
inductive Frame : δ → List UInt8 → List UInt8 → δ → Prop where
  | ended {d d' : δ} {byte : UInt8} {output : List UInt8}
      (feed : ByteDecoder.feed d byte = .ended d' output) : Frame d [byte] output d'
  | more {d d₁ d' : δ} {byte : UInt8} {output f c : List UInt8}
      (feed : ByteDecoder.feed d byte = .more d₁ output) (others : Frame d₁ f c d') :
      Frame d (byte :: f) (output ++ c) d'

/-- From state `d`, the bytes `x` lead over exactly the frames that have these contents, to the
state `d'`. -/
inductive Frames : δ → List UInt8 → List (List UInt8) → δ → Prop where
  | nil {d : δ} : Frames d [] [] d
  | cons {d d₁ d' : δ} {f x c : List UInt8} {contents : List (List UInt8)}
      (first : Frame d f c d₁) (others : Frames d₁ x contents d') :
      Frames d (f ++ x) (c :: contents) d'

/-- From any of the states `Fresh`, the bytes `f` lead over exactly one frame that contains `c`, to
another one of them. -/
def IsFrame (Fresh : δ → Prop) (f c : List UInt8) : Prop :=
  ∀ d, Fresh d → ∃ d', Fresh d' ∧ Frame d f c d'

theorem Frame.ne_nil {d d' : δ} {f c : List UInt8} (h : Frame d f c d') : f ≠ [] := by
  cases h <;> exact List.cons_ne_nil _ _

/-- Some bytes in front of frames are the frames' first ones, if there are any. -/
theorem Frames.first {d d' : δ} {x : List UInt8} {contents : List (List UInt8)}
    (h : Frames d x contents d') (hx : x ≠ []) :
    ∃ d₁ f rest c others, x = f ++ rest ∧ contents = c :: others ∧ Frame d f c d₁ ∧
      Frames d₁ rest others d' := by
  cases h with
  | nil => exact absurd rfl hx
  | cons first others => exact ⟨_, _, _, _, _, rfl, rfl, first, others⟩

/-- There is no frame without bytes. -/
theorem Frames.contents_nil {d d' : δ} {contents : List (List UInt8)}
    (h : Frames d [] contents d') : contents = [] := by
  generalize hx : [] = x at h
  cases h with
  | nil => rfl
  | cons first others => exact absurd (List.append_eq_nil_iff.1 hx.symm).1 first.ne_nil

/-! ## Runs of the queue -/

namespace Queued

section Go

variable {q : Queued δ} {unread : List UInt8} {room : Nat} (taken : Nat) (out : Array UInt8)

/-- A run that has no room for all that waits hands out what there is room for. -/
theorem go_waiting (h : room < q.queue.length) :
    q.go unread room taken out =
      ⟨taken, out.toList ++ q.queue.take room, { q with queue := q.queue.drop room }, .ok 1⟩ := by
  have hwaiting : (q.queue.drop room).isEmpty = false := by
    simpa [List.isEmpty_iff, List.drop_eq_nil_iff] using h
  rw [Queued.go]
  simp [List.splitAt_eq, hwaiting]

variable {d : δ} {queue : List UInt8}

/-- With room for the last of a frame, a run hands it out and ends. -/
theorem go_ended (h : queue.length ≤ room) :
    Queued.go ⟨d, queue, true, none⟩ unread room taken out =
      ⟨taken, out.toList ++ queue, .new d, .ok 0⟩ := by
  rw [Queued.go]
  simp [List.splitAt_eq, List.drop_eq_nil_of_le h, List.take_of_length_le h]

/-- Without input, a run hands out what waits. -/
theorem go_nil (h : queue.length ≤ room) :
    Queued.go ⟨d, queue, false, none⟩ [] room taken out =
      ⟨taken, out.toList ++ queue, .new d, .ok 1⟩ := by
  rw [Queued.go]
  simp [List.splitAt_eq, List.drop_eq_nil_of_le h, List.take_of_length_le h]

/-- A byte inside a frame. -/
theorem go_more {byte : UInt8} {next : δ} {output : List UInt8} (h : queue.length ≤ room)
    (hfeed : ByteDecoder.feed d byte = .more next output) :
    Queued.go ⟨d, queue, false, none⟩ (byte :: unread) room taken out =
      Queued.go ⟨next, output, false, none⟩ unread (room - queue.length) (taken + 1)
        (out ++ queue) := by
  rw [Queued.go]
  simp [List.splitAt_eq, List.drop_eq_nil_of_le h, List.take_of_length_le h, hfeed]

/-- The last byte of a frame. -/
theorem go_last {byte : UInt8} {next : δ} {output : List UInt8} (h : queue.length ≤ room)
    (hfeed : ByteDecoder.feed d byte = .ended next output) :
    Queued.go ⟨d, queue, false, none⟩ (byte :: unread) room taken out =
      Queued.go ⟨next, output, true, none⟩ unread (room - queue.length) (taken + 1)
        (out ++ queue) := by
  rw [Queued.go]
  simp [List.splitAt_eq, List.drop_eq_nil_of_le h, List.take_of_length_le h, hfeed]

/-- A wrong byte. -/
theorem go_failed {byte : UInt8} {text : String} (h : queue.length ≤ room)
    (hfeed : ByteDecoder.feed d byte = .failed text) :
    Queued.go ⟨d, queue, false, none⟩ (byte :: unread) room taken out =
      ⟨0, [], { Queued.new d with failure := some text }, .error text⟩ := by
  rw [Queued.go]
  simp [List.splitAt_eq, List.drop_eq_nil_of_le h, hfeed]

end Go

/-- Induction on a run: it has no room for all that waits, or ends a frame, or gets no more input, or
takes a byte and goes on, or fails. -/
theorem go_induction
    {motive : Queued δ → List UInt8 → Nat → Nat → Array UInt8 → Run (Queued δ) → Prop}
    (waiting : ∀ {q unread room} taken (out : Array UInt8), q.failure = none →
      room < q.queue.length → motive q unread room taken out
        ⟨taken, out.toList ++ q.queue.take room, { q with queue := q.queue.drop room }, .ok 1⟩)
    (ended : ∀ {d : δ} {queue : List UInt8} {unread room} taken (out : Array UInt8),
      queue.length ≤ room → motive ⟨d, queue, true, none⟩ unread room taken out
        ⟨taken, out.toList ++ queue, .new d, .ok 0⟩)
    (nil : ∀ {d : δ} {queue : List UInt8} {room} taken (out : Array UInt8), queue.length ≤ room →
      motive ⟨d, queue, false, none⟩ [] room taken out ⟨taken, out.toList ++ queue, .new d, .ok 1⟩)
    (more : ∀ {d next : δ} {queue output : List UInt8} {byte unread room taken}
      {out : Array UInt8} {run},
      queue.length ≤ room → ByteDecoder.feed d byte = .more next output →
        motive ⟨next, output, false, none⟩ unread (room - queue.length) (taken + 1) (out ++ queue)
          run → motive ⟨d, queue, false, none⟩ (byte :: unread) room taken out run)
    (last : ∀ {d next : δ} {queue output : List UInt8} {byte unread room taken}
      {out : Array UInt8} {run},
      queue.length ≤ room → ByteDecoder.feed d byte = .ended next output →
        motive ⟨next, output, true, none⟩ unread (room - queue.length) (taken + 1) (out ++ queue)
          run → motive ⟨d, queue, false, none⟩ (byte :: unread) room taken out run)
    (failed : ∀ {d : δ} {queue : List UInt8} {byte unread room text} taken (out : Array UInt8),
      queue.length ≤ room → ByteDecoder.feed d byte = .failed text →
        motive ⟨d, queue, false, none⟩ (byte :: unread) room taken out
          ⟨0, [], { Queued.new d with failure := some text }, .error text⟩)
    {q : Queued δ} (hq : q.failure = none) (unread : List UInt8) (room taken : Nat)
    (out : Array UInt8) : motive q unread room taken out (q.go unread room taken out) := by
  induction unread generalizing q room taken out with
  | nil =>
    by_cases hroom : room < q.queue.length
    · rw [go_waiting taken out hroom]
      exact waiting taken out hq hroom
    · obtain ⟨d, queue, frameEnd, failure⟩ := q
      obtain rfl : failure = none := hq
      have hroom := Nat.le_of_not_lt hroom
      cases frameEnd with
      | true =>
        rw [go_ended taken out hroom]
        exact ended taken out hroom
      | false =>
        rw [go_nil taken out hroom]
        exact nil taken out hroom
  | cons byte unread ih =>
    by_cases hroom : room < q.queue.length
    · rw [go_waiting taken out hroom]
      exact waiting taken out hq hroom
    · obtain ⟨d, queue, frameEnd, failure⟩ := q
      obtain rfl : failure = none := hq
      have hroom := Nat.le_of_not_lt hroom
      cases frameEnd with
      | true =>
        rw [go_ended taken out hroom]
        exact ended taken out hroom
      | false =>
        cases hfeed : ByteDecoder.feed d byte with
        | more next output =>
          rw [go_more taken out hroom hfeed]
          exact more hroom hfeed (ih rfl _ _ _)
        | ended next output =>
          rw [go_last taken out hroom hfeed]
          exact last hroom hfeed (ih rfl _ _ _)
        | failed text =>
          rw [go_failed taken out hroom hfeed]
          exact failed taken out hroom hfeed

/-! ## Accounts of runs -/

/-- The account of a run that does not fail: it takes `count` bytes and makes `made`, for which it has
room. -/
structure Account (run : Run (Queued δ)) (unread : List UInt8) (room taken : Nat)
    (out : List UInt8) (count left : Nat) (made : List UInt8) : Prop where
  taken : run.taken = taken + count
  count_le : count ≤ unread.length
  output : run.output = out ++ made
  made_le : made.length ≤ room
  result : run.result = .ok left

section Account

variable {run : Run (Queued δ)} {unread out before made : List UInt8} {room taken count left : Nat}

omit [ByteDecoder δ] in
/-- A run that makes `before`, takes a byte, and goes on. -/
theorem Account.cons {byte : UInt8} (hroom : before.length ≤ room)
    (h : Account run unread (room - before.length) (taken + 1) (out ++ before) count left made) :
    Account run (byte :: unread) room taken out (count + 1) left (before ++ made) where
  taken := by
    rw [h.taken]
    omega
  count_le := Nat.succ_le_succ h.count_le
  output := by rw [h.output, List.append_assoc]
  made_le := by
    have := h.made_le
    rw [List.length_append]
    omega
  result := h.result

omit [ByteDecoder δ] in
/-- A run that takes nothing. -/
theorem account_idle {q : Queued δ} (taken left : Nat) (hroom : made.length ≤ room) :
    Account ⟨taken, out ++ made, q, .ok left⟩ unread room taken out 0 left made :=
  ⟨rfl, Nat.zero_le _, rfl, hroom, rfl⟩

end Account

/-! ## Inside a frame -/

/-- A decoder with a queue inside a frame, with the input `x` before it. The frame ends in front of
`rest` and leads to the state `d'`; what is missing of its content is `c`. -/
inductive Inside : Queued δ → List UInt8 → List UInt8 → δ → List UInt8 → Prop where
  | within {d d' : δ} {queue f c rest : List UInt8} (frame : Frame d f c d') :
      Inside ⟨d, queue, false, none⟩ (f ++ rest) (queue ++ c) d' rest
  | ending {d : δ} {queue rest : List UInt8} : Inside ⟨d, queue, true, none⟩ rest queue d rest

theorem Inside.failure_eq {q : Queued δ} {x c rest : List UInt8} {d' : δ}
    (h : Inside q x c d' rest) : q.failure = none := by
  cases h <;> rfl

/-- Once there is no input left, all of the frame has been taken. -/
theorem Inside.frameEnd_of_nil {q : Queued δ} {c rest : List UInt8} {d' : δ}
    (h : Inside q [] c d' rest) : q.frameEnd = true := by
  generalize hx : [] = x at h
  cases h with
  | within frame => exact absurd (List.append_eq_nil_iff.1 hx.symm).1 frame.ne_nil
  | ending => rfl

/-- Whether a run has anything to do: something waits, or there is input to take. -/
def Active (q : Queued δ) (unread : List UInt8) : Prop :=
  q.queue ≠ [] ∨ unread ≠ [] ∧ q.frameEnd = false

/-- What a run does that starts inside a frame: it takes `count` bytes, makes `made`, and is at the
end of the frame or inside it again. It stops inside only for lack of room or of input. -/
structure HandsOut (run : Run (Queued δ)) (unread later c : List UInt8) (d' : δ)
    (rest : List UInt8) (room taken : Nat) (out : List UInt8) (count left : Nat)
    (made missing : List UInt8) : Prop
    extends Account run unread room taken out count left made where
  content : c = made ++ missing
  ended : left = 0 → missing = [] ∧ run.state = .new d' ∧ unread.drop count ++ later = rest
  inside : left ≠ 0 → Inside run.state (unread.drop count ++ later) missing d' rest ∧
    (run.state.frameEnd = true → run.state.queue ≠ [])
  stops : left ≠ 0 → made.length = room ∨ run.state.queue = [] ∧ unread.drop count = []

/-- A run that makes `before`, takes a byte, and goes on. -/
theorem HandsOut.cons {run : Run (Queued δ)} {byte : UInt8} {unread later c rest : List UInt8}
    {d' : δ} {room taken count left : Nat} {out before made missing : List UInt8}
    (hroom : before.length ≤ room)
    (h : HandsOut run unread later c d' rest (room - before.length) (taken + 1) (out ++ before)
      count left made missing) :
    HandsOut run (byte :: unread) later (before ++ c) d' rest room taken out (count + 1) left
      (before ++ made) missing where
  toAccount := h.toAccount.cons hroom
  content := by rw [h.content, List.append_assoc]
  ended := h.ended
  inside := h.inside
  stops := by
    intro hleft
    refine (h.stops hleft).imp_left fun hmade => ?_
    rw [List.length_append]
    omega

/-- Inside a frame with input before it, the first byte goes on with the frame or ends it. -/
theorem Inside.cons_inv {d d' : δ} {queue x c rest : List UInt8} {byte : UInt8}
    (h : Inside ⟨d, queue, false, none⟩ (byte :: x) c d' rest) :
    ∃ next output missing, c = queue ++ missing ∧
      (ByteDecoder.feed d byte = .more next output ∧
          Inside ⟨next, output, false, none⟩ x missing d' rest ∨
        ByteDecoder.feed d byte = .ended next output ∧
          Inside ⟨next, output, true, none⟩ x missing d' rest) := by
  generalize hx : byte :: x = y at h
  cases h with
  | within frame =>
    cases frame with
    | ended feed =>
      obtain ⟨rfl, rfl⟩ := List.cons.inj hx
      exact ⟨_, _, _, rfl, .inr ⟨feed, .ending⟩⟩
    | more feed frame =>
      obtain ⟨rfl, rfl⟩ := List.cons.inj hx
      exact ⟨_, _, _, rfl, .inl ⟨feed, .within frame⟩⟩

/-- A run without room for all that waits. -/
theorem handsOut_waiting {q : Queued δ} {unread later c rest : List UInt8} {room : Nat} {d' : δ}
    (taken : Nat) (out : Array UInt8) (h : Inside q (unread ++ later) c d' rest)
    (hroom : room < q.queue.length) :
    ∃ missing, HandsOut
      ⟨taken, out.toList ++ q.queue.take room, { q with queue := q.queue.drop room }, .ok 1⟩
      unread later c d' rest room taken out.toList 0 1 (q.queue.take room) missing := by
  have hwaiting : q.queue.drop room ≠ [] := by
    simpa [List.drop_eq_nil_iff] using hroom
  have hmade : (q.queue.take room).length = room := by
    rw [List.length_take]
    omega
  have hzero : (1 : Nat) = 0 → ∀ {P : Prop}, P := fun h => absurd h Nat.one_ne_zero
  generalize hx : unread ++ later = x at h
  cases h with
  | @within d d' queue f c rest frame =>
    refine ⟨queue.drop room ++ c, account_idle taken 1 (Nat.le_of_eq hmade), ?_,
      fun h => hzero h, ?_, fun _ => .inl hmade⟩
    · rw [← List.append_assoc, List.take_append_drop]
    · exact fun _ => ⟨hx ▸ .within frame, fun hend => Bool.noConfusion hend⟩
  | ending =>
    refine ⟨c.drop room, account_idle taken 1 (Nat.le_of_eq hmade), ?_,
      fun h => hzero h, ?_, fun _ => .inl hmade⟩
    · rw [List.take_append_drop]
    · exact fun _ => ⟨hx ▸ .ending, fun _ => hwaiting⟩

theorem waits_of_lt {queue : List UInt8} {room : Nat} (hpos : 0 < room)
    (h : room < queue.length) : queue ≠ [] ∧ queue.take room ≠ [] := by
  simp only [← List.length_pos_iff, List.length_take]
  omega

/-- One run from inside a frame. If it has anything to do and room, it takes something, or hands out
something that has waited. -/
theorem go_inside {q : Queued δ} {unread later c rest : List UInt8} {d' : δ}
    (h : Inside q (unread ++ later) c d' rest) (room taken : Nat) (out : Array UInt8) :
    ∃ count left made missing,
      HandsOut (q.go unread room taken out) unread later c d' rest room taken out.toList count left
        made missing ∧
      (q.Active unread → 0 < room → count ≠ 0 ∨ q.queue ≠ [] ∧ made ≠ []) := by
  have hq := h.failure_eq
  revert c
  -- a run that takes a byte goes on inside the frame, over the rest of the bytes
  refine go_induction (motive := fun q unread room taken out run =>
      ∀ {c : List UInt8}, Inside q (unread ++ later) c d' rest → ∃ count left made missing,
        HandsOut run unread later c d' rest room taken out.toList count left made missing ∧
        (q.Active unread → 0 < room → count ≠ 0 ∨ q.queue ≠ [] ∧ made ≠ []))
    ?waiting ?ended ?nil ?more ?last ?failed hq unread room taken out
  case waiting =>
    intro q unread room taken out _ hroom c h
    obtain ⟨missing, hhands⟩ := handsOut_waiting taken out h hroom
    exact ⟨0, 1, _, missing, hhands, fun _ hpos => .inr (waits_of_lt hpos hroom)⟩
  case ended =>
    rintro d queue unread room taken out hroom c ⟨⟩
    refine ⟨0, 0, queue, [], ⟨account_idle taken 0 hroom, (List.append_nil _).symm,
      fun _ => ⟨rfl, rfl, rfl⟩, fun h => absurd rfl h, fun h => absurd rfl h⟩, ?_⟩
    exact fun hactive _ => .inr (and_self_iff.2 (hactive.resolve_right fun h => Bool.noConfusion h.2))
  case nil =>
    intro d queue room taken out hroom c h
    rw [List.nil_append] at h
    cases h with
    | within frame =>
      refine ⟨0, 1, queue, _, ⟨account_idle taken 1 hroom, rfl,
        fun h => absurd h Nat.one_ne_zero,
        fun _ => ⟨.within frame, fun hend => Bool.noConfusion hend⟩, fun _ => .inr ⟨rfl, rfl⟩⟩, ?_⟩
      exact fun hactive _ => .inr (and_self_iff.2 (hactive.resolve_right fun h => h.1 rfl))
  case more =>
    intro d next queue output byte unread room taken out run hroom hfeed ih c h
    obtain ⟨_, _, missing, rfl, ⟨hfeed', hinside⟩ | ⟨hfeed', -⟩⟩ := h.cons_inv
    · cases hfeed.symm.trans hfeed'
      obtain ⟨count, left, made, missing, hhands, -⟩ := ih hinside
      rw [Array.toList_appendList] at hhands
      exact ⟨count + 1, left, _, missing, hhands.cons hroom, fun _ _ => .inl (Nat.succ_ne_zero _)⟩
    · cases hfeed.symm.trans hfeed'
  case last =>
    intro d next queue output byte unread room taken out run hroom hfeed ih c h
    obtain ⟨_, _, missing, rfl, ⟨hfeed', -⟩ | ⟨hfeed', hinside⟩⟩ := h.cons_inv
    · cases hfeed.symm.trans hfeed'
    · cases hfeed.symm.trans hfeed'
      obtain ⟨count, left, made, missing, hhands, -⟩ := ih hinside
      rw [Array.toList_appendList] at hhands
      exact ⟨count + 1, left, _, missing, hhands.cons hroom, fun _ _ => .inl (Nat.succ_ne_zero _)⟩
  case failed =>
    intro d queue byte unread room text taken out hroom hfeed c h
    obtain ⟨_, _, missing, -, ⟨hfeed', -⟩ | ⟨hfeed', -⟩⟩ := h.cons_inv <;>
      cases hfeed.symm.trans hfeed'

/-! ## Midway -/

/-- A decoder with a queue inside a frame. In front of it is the rest of that frame, and more
frames; it has still to hand out the `contents`, the first of them as far as it is missing. -/
inductive Midway : Queued δ → List UInt8 → List (List UInt8) → Prop where
  | within {d d₁ d' : δ} {queue f x c : List UInt8} {contents : List (List UInt8)}
      (frame : Frame d f c d₁) (frames : Frames d₁ x contents d') :
      Midway ⟨d, queue, false, none⟩ (f ++ x) ((queue ++ c) :: contents)
  | ending {d d' : δ} {queue x : List UInt8} {contents : List (List UInt8)}
      (frames : Frames d x contents d') : Midway ⟨d, queue, true, none⟩ x (queue :: contents)

/-- Inside the first of several frames. -/
theorem Midway.inside {q : Queued δ} {x : List UInt8} {contents : List (List UInt8)}
    (h : Midway q x contents) :
    ∃ c d₁ rest others d', contents = c :: others ∧ Inside q x c d₁ rest ∧
      Frames d₁ rest others d' := by
  cases h with
  | within frame frames => exact ⟨_, _, _, _, _, rfl, .within frame, frames⟩
  | ending frames => exact ⟨_, _, _, _, _, rfl, .ending, frames⟩

theorem Inside.midway {q : Queued δ} {x c rest : List UInt8} {d₁ d' : δ}
    {others : List (List UInt8)} (h : Inside q x c d₁ rest) (frames : Frames d₁ rest others d') :
    Midway q x (c :: others) := by
  cases h with
  | within frame => exact .within frame frames
  | ending => exact .ending frames

end Queued

end Sluice
