import Sluice.Proofs.PatientDecoders
import Sluice.Proofs.StoredData

/-!
# Decoders that hold nothing back

What a decoder makes of bytes that stop anywhere, not only at the end of a frame. As long as its
windows are filled, some of it may be waiting; the first window that stays in part empty shows that
nothing is.

* `ByteDecoder.decode` — what some bytes decode to, over the ends of any number of frames.
* `Queued.Yields`, `Queued.go_decodes` — what one run of the queue hands out and keeps, and that it
  fails only where the bytes cannot be decoded.
* `Prompt` — a codec that hands out what it decodes as soon as there is room.
* `PatientDecoding.prompt`, `Stored.prompt` — frame decoders do, and so does stored data.
* `Prompt.course` — any number of steps.
-/

namespace Sluice

variable {σ δ : Type} [Codec σ] [ByteDecoder δ]

/-! ## What bytes decode to -/

namespace ByteDecoder

variable {d d' next : δ} {byte : UInt8} {x c output : List UInt8}

/-- What some bytes decode to, and the state that they lead to; `none` if one of them is wrong. -/
def decode (d : δ) : List UInt8 → Option (List UInt8 × δ)
  | [] => some ([], d)
  | byte :: bytes =>
    match feed d byte with
    | .more next output | .ended next output =>
      (decode next bytes).map fun p => (output ++ p.1, p.2)
    | .failed _ => none

theorem decode_more (h : feed d byte = .more next output) (bytes : List UInt8) :
    decode d (byte :: bytes) = (decode next bytes).map fun p => (output ++ p.1, p.2) := by
  rw [decode, h]

theorem decode_ended (h : feed d byte = .ended next output) (bytes : List UInt8) :
    decode d (byte :: bytes) = (decode next bytes).map fun p => (output ++ p.1, p.2) := by
  rw [decode, h]

theorem decode_failed {text : String} (h : feed d byte = .failed text) (bytes : List UInt8) :
    decode d (byte :: bytes) = none := by
  rw [decode, h]

/-- Bytes may be decoded in two parts. -/
theorem decode_append_eq (d : δ) (x y : List UInt8) :
    decode d (x ++ y) = (decode d x).bind fun p =>
      (decode p.2 y).map fun q => (p.1 ++ q.1, q.2) := by
  induction x generalizing d with
  | nil => simp [decode]
  | cons byte x ih =>
    rw [List.cons_append, decode, decode]
    cases feed d byte <;> simp [ih, Option.map_bind, Option.bind_map, Function.comp_def]

theorem decode_append (h : decode d x = some (c, d')) (y : List UInt8) :
    decode d (x ++ y) = (decode d' y).map fun p => (c ++ p.1, p.2) := by
  rw [decode_append_eq, h, Option.bind_some]

/-- If some bytes can be decoded, then so can their two parts. -/
theorem decode_append_inv {y : List UInt8} (h : decode d (x ++ y) = some (c, d')) :
    ∃ c₁ d₁ c₂, decode d x = some (c₁, d₁) ∧ decode d₁ y = some (c₂, d') ∧ c = c₁ ++ c₂ := by
  rw [decode_append_eq, Option.bind_eq_some_iff] at h
  obtain ⟨⟨c₁, d₁⟩, hx, hmap⟩ := h
  obtain ⟨⟨c₂, _⟩, hy, hpair⟩ := Option.map_eq_some_iff.1 hmap
  obtain ⟨rfl, rfl⟩ := Prod.mk.inj hpair
  exact ⟨c₁, d₁, c₂, hx, hy, rfl⟩

end ByteDecoder

open ByteDecoder (decode)

/-- A frame decodes to its content. -/
theorem Frame.decode {d d' : δ} {f c : List UInt8} (h : Frame d f c d') :
    decode d f = some (c, d') := by
  induction h with
  | ended feed => rw [ByteDecoder.decode_ended feed, ByteDecoder.decode, Option.map_some, List.append_nil]
  | more feed others ih => rw [ByteDecoder.decode_more feed, ih, Option.map_some]

/-- And so do frames one after the other. -/
theorem Frames.decode {d d' : δ} {x : List UInt8} {contents : List (List UInt8)}
    (h : Frames d x contents d') : decode d x = some (contents.flatten, d') := by
  induction h with
  | nil => rfl
  | cons first others ih =>
    rw [ByteDecoder.decode_append first.decode, ih, Option.map_some, List.flatten_cons]

/-! ## Runs of the queue -/

namespace Queued

omit [ByteDecoder δ] in
/-- With nothing waiting, no frame about to end and no failure, a queue is as at the start. -/
theorem eq_new {q : Queued δ} (hqueue : q.queue = []) (hend : q.frameEnd = false)
    (hfailure : q.failure = none) : q = .new q.decoder := by
  obtain ⟨d, queue, frameEnd, failure⟩ := q
  obtain rfl : queue = [] := hqueue
  obtain rfl : frameEnd = false := hend
  obtain rfl : failure = none := hfailure
  rfl

/-- What a run does that does not fail: it takes `bytes`, which decode to `content`, and hands out
`made`, the front of what has waited and of `content`; the rest waits afterwards, and only if there
was no room for it. -/
structure Yields (q : Queued δ) (unread : List UInt8) (room taken : Nat) (out : List UInt8)
    (run : Run (Queued δ)) (left : Nat) (bytes rest content made : List UInt8) : Prop
    extends Account run unread room taken out bytes.length left made where
  split : unread = bytes ++ rest
  decode : decode q.decoder bytes = some (content, run.state.decoder)
  queue : q.queue ++ content = made ++ run.state.queue
  failure : run.state.failure = none
  waits : run.state.frameEnd = true → run.state.queue ≠ []
  stops : made.length < room → run.state.queue = []
  ended : left = 0 → run.state.queue = []
  active : q.Active unread → 0 < room → bytes ≠ [] ∨ made ≠ []

/-- A run that hands out what has waited, takes a byte, and goes on. -/
theorem Yields.cons {d next : δ} {queue output unread out bytes rest content made : List UInt8}
    {byte : UInt8} {frameEnd : Bool} {room taken left : Nat} {run : Run (Queued δ)}
    (hroom : queue.length ≤ room)
    (hdecode : ∀ bytes, ByteDecoder.decode d (byte :: bytes) =
      (ByteDecoder.decode next bytes).map fun p => (output ++ p.1, p.2))
    (h : Yields ⟨next, output, frameEnd, none⟩ unread (room - queue.length) (taken + 1)
      (out ++ queue) run left bytes rest content made) :
    Yields ⟨d, queue, false, none⟩ (byte :: unread) room taken out run left (byte :: bytes) rest
      (output ++ content) (queue ++ made) where
  toAccount := h.toAccount.cons hroom
  split := congrArg (byte :: ·) h.split
  decode := by rw [hdecode, h.decode, Option.map_some]
  queue := by rw [h.queue, List.append_assoc]
  failure := h.failure
  waits := h.waits
  stops := by
    rw [List.length_append]
    intro hlt
    exact h.stops (by omega)
  ended := h.ended
  active := fun _ _ => .inl (List.cons_ne_nil _ _)

/-- A run that takes nothing and has room for all that waits. -/
theorem Yields.empties {d : δ} {queue unread : List UInt8} {frameEnd : Bool} {room : Nat}
    (taken left : Nat) (out : List UInt8) (hroom : queue.length ≤ room)
    (hactive : unread ≠ [] → frameEnd = true) :
    Yields ⟨d, queue, frameEnd, none⟩ unread room taken out
      ⟨taken, out ++ queue, .new d, .ok left⟩ left [] unread [] queue where
  toAccount := account_idle taken left hroom
  split := rfl
  decode := rfl
  queue := rfl
  failure := rfl
  waits := fun h => Bool.noConfusion h
  stops := fun _ => rfl
  ended := fun _ => rfl
  active := by
    rintro (hqueue | ⟨hne, hend⟩) -
    · exact .inr hqueue
    · exact Bool.noConfusion (hend.symm.trans (hactive hne))

/-- A run without room for all that waits. -/
theorem Yields.fills {q : Queued δ} {unread : List UInt8} {room : Nat} (taken : Nat)
    (out : List UInt8) (hq : q.failure = none) (hroom : room < q.queue.length) :
    Yields q unread room taken out
      ⟨taken, out ++ q.queue.take room, { q with queue := q.queue.drop room }, .ok 1⟩ 1 [] unread []
      (q.queue.take room) where
  toAccount := account_idle taken 1 (List.length_take_le ..)
  split := rfl
  decode := rfl
  queue := by rw [List.append_nil, List.take_append_drop]
  failure := hq
  waits := by
    intro _
    simpa [List.drop_eq_nil_iff] using hroom
  stops := by
    intro hlt
    rw [List.length_take] at hlt
    omega
  ended := fun h => absurd h Nat.one_ne_zero
  active := fun _ hpos => .inr (waits_of_lt hpos hroom).2

/-- A run hands out what it decodes, or it fails because the bytes before it cannot be decoded. -/
def Decodes (q : Queued δ) (unread : List UInt8) (room taken : Nat) (out : List UInt8)
    (run : Run (Queued δ)) : Prop :=
  (∃ left bytes rest content made,
    Yields q unread room taken out run left bytes rest content made) ∨
  (∃ text, run.result = .error text) ∧ decode q.decoder unread = none

theorem Decodes.cons {d next : δ} {queue output unread : List UInt8} {byte : UInt8}
    {frameEnd : Bool} {room taken : Nat} {out : Array UInt8} {run : Run (Queued δ)}
    (hroom : queue.length ≤ room)
    (hdecode : ∀ bytes, ByteDecoder.decode d (byte :: bytes) =
      (ByteDecoder.decode next bytes).map fun p => (output ++ p.1, p.2))
    (h : Decodes ⟨next, output, frameEnd, none⟩ unread (room - queue.length) (taken + 1)
      (out ++ queue).toList run) :
    Decodes ⟨d, queue, false, none⟩ (byte :: unread) room taken out.toList run := by
  rw [Array.toList_appendList] at h
  rcases h with ⟨left, bytes, rest, content, made, hyields⟩ | ⟨herror, hnone⟩
  · exact .inl ⟨left, _, rest, _, _, hyields.cons hroom hdecode⟩
  · refine .inr ⟨herror, ?_⟩
    rw [hdecode]
    exact congrArg _ hnone

theorem go_decodes {q : Queued δ} (hq : q.failure = none) (unread : List UInt8)
    (room taken : Nat) (out : Array UInt8) :
    Decodes q unread room taken out.toList (q.go unread room taken out) := by
  refine go_induction (motive := fun q unread room taken out run =>
    Decodes q unread room taken out.toList run) ?waiting ?ended ?nil ?more ?last ?failed hq unread
    room taken out
  case waiting =>
    intro q unread room taken out hq hroom
    exact .inl ⟨1, [], unread, [], _, .fills taken out.toList hq hroom⟩
  case ended =>
    intro d queue unread room taken out hroom
    exact .inl ⟨0, [], unread, [], queue, .empties taken 0 out.toList hroom fun _ => rfl⟩
  case nil =>
    intro d queue room taken out hroom
    exact .inl ⟨1, [], [], [], queue, .empties taken 1 out.toList hroom fun h => absurd rfl h⟩
  case more =>
    intro d next queue output byte unread room taken out run hroom hfeed h
    exact h.cons hroom (ByteDecoder.decode_more hfeed)
  case last =>
    intro d next queue output byte unread room taken out run hroom hfeed h
    exact h.cons hroom (ByteDecoder.decode_ended hfeed)
  case failed =>
    intro d queue byte unread room text taken out hroom hfeed
    exact .inr ⟨⟨text, rfl⟩, ByteDecoder.decode_failed hfeed unread⟩

end Queued

/-! ## Promptness -/

/-- What a turn does that goes on from state `s` of the codec, where the automaton is in state `d`
and the `queue` waits: what it takes decodes to `content`, and it hands out the front of what has
waited and of that. -/
structure Passes (At : σ → δ → List UInt8 → Prop) (t : Turn) (s' : σ) (d : δ)
    (queue content : List UInt8) (d' : δ) (queue' : List UInt8) : Prop where
  decode : decode d t.taken = some (content, d')
  made : queue ++ content = t.made ++ queue'
  state : At s' d' queue'
  /-- what waits has found no room -/
  stops : t.made.length < t.room → queue' = []
  /-- something happens if there is anything to do -/
  active : t.offered ≠ [] ∨ queue ≠ [] → t.taken ≠ [] ∨ t.made ≠ []

/-- A codec that hands out what it decodes as soon as there is room. With `At s d queue`, the codec in
state `s` is where the automaton is in state `d`, and the `queue` waits for room. -/
structure Prompt (At : σ → δ → List UInt8 → Prop) : Prop where
  /-- bytes that can be decoded are never refused -/
  accepts {s : σ} {d : δ} {queue unread : List UInt8} {room : Nat} : At s d queue → 0 < room →
    (decode d unread).isSome → ∃ left, (Codec.step s unread room .proceed).result = .ok left
  passes {s s' : σ} {t : Turn} {d : δ} {queue : List UInt8} : At s d queue →
    t.directive = .proceed → 0 < t.room → t.Leads s s' →
      ∃ content d' queue', Passes At t s' d queue content d' queue'

/-- Where a codec is that behaves like a queue behind an automaton. -/
def Holding (like : σ → Queued δ → Bool → Prop) (s : σ) (d : δ) (queue : List UInt8) : Prop :=
  ∃ q partRead, like s q partRead ∧ q.decoder = d ∧ q.queue = queue ∧ q.failure = none ∧
    (q.frameEnd = true → q.queue ≠ []) ∧ (partRead = false → q = .new d)

variable {like : σ → Queued δ → Bool → Prop}

omit [Codec σ] [ByteDecoder δ] in
theorem Holding.start {s : σ} {d : δ} (h : like s (.new d) false) : Holding like s d [] :=
  ⟨.new d, false, h, rfl, rfl, rfl, fun hend => Bool.noConfusion hend, fun _ => rfl⟩

/-- A turn that is a run of the queue. -/
theorem Holding.passes {s s' : σ} {q : Queued δ} {partRead : Bool} {t : Turn}
    (hfollows : Follows like partRead (Codec.step s t.offered t.room t.directive)
      (q.go t.offered t.room 0 #[])) (hq : q.failure = none)
    (hwaits : q.frameEnd = true → q.queue ≠ []) (hfresh : partRead = false → q = .new q.decoder)
    (hroom : 0 < t.room) (h : t.Leads s s') :
    ∃ content d' queue', Passes (Holding like) t s' q.decoder q.queue content d' queue' := by
  rcases Queued.go_decodes hq t.offered t.room 0 #[] with
    ⟨left, bytes, rest, content, made, hyields⟩ | ⟨⟨text, herror⟩, -⟩
  · obtain ⟨htaken, houtput, hlike, -⟩ := hfollows.of_account hyields.toAccount
    rw [h.state] at hlike
    have hmade : t.made = made := by
      rw [h.made, houtput, List.take_of_length_le hyields.made_le]
    have htook : t.taken = bytes := by
      rw [h.taken, htaken, hyields.split, List.take_left]
    refine ⟨content, _, _, htook ▸ hyields.decode, hmade ▸ hyields.queue,
      ⟨_, _, hlike, rfl, rfl, hyields.failure, hyields.waits, ?_⟩, hmade ▸ hyields.stops, ?_⟩
    · -- a frame has ended, or nothing has been taken of any
      intro hpart
      have hempty : (q.go t.offered t.room 0 #[]).state.queue = [] := by
        cases left with
        | zero => exact hyields.ended rfl
        | succ left =>
          simp only [ne_eq, Nat.succ_ne_zero, not_false_eq_true, decide_true, Bool.true_and,
            Bool.or_eq_false_iff, decide_eq_false_iff_not] at hpart
          obtain ⟨hpart, hnone⟩ := hpart
          obtain rfl : bytes = [] := List.length_eq_zero_iff.1 (Nat.eq_zero_of_not_pos hnone)
          have hcontent : [] = content := (Prod.mk.inj (Option.some.inj hyields.decode)).1
          have hnew : q.queue = [] := congrArg Queued.queue (hfresh hpart)
          have hqueue := hyields.queue
          rw [hnew, ← hcontent] at hqueue
          exact (List.append_eq_nil_iff.1 hqueue.symm).2
      have hend : (q.go t.offered t.room 0 #[]).state.frameEnd = false :=
        Bool.eq_false_iff.2 fun hend => hyields.waits hend hempty
      exact Queued.eq_new hempty hend hyields.failure
    · intro hwork
      rw [htook, hmade]
      refine hyields.active ?_ hroom
      by_cases hqueue : q.queue = []
      · have hend : q.frameEnd = false := Bool.eq_false_iff.2 fun hend => hwaits hend hqueue
        exact .inr ⟨hwork.resolve_right fun h => h hqueue, hend⟩
      · exact .inl hqueue
  · -- a run that fails is no turn
    obtain ⟨left, hleft⟩ := hfollows.exists_left h
    rw [herror] at hleft
    cases hleft

/-- A frame decoder holds nothing back. -/
theorem PatientDecoding.prompt (hP : PatientDecoding like) : Prompt (Holding like) where
  accepts {s d queue unread room} := by
    rintro ⟨q, partRead, hlike, rfl, rfl, hq, -, hfresh⟩ hroom hdecode
    by_cases hactive : unread ≠ [] ∨ partRead = true
    · have hfollows := hP.follows hlike hactive hroom
      rcases Queued.go_decodes hq unread room 0 #[] with
        ⟨left, bytes, rest, content, made, hyields⟩ | ⟨-, hnone⟩
      · exact Agrees.result_ok hfollows hyields.result
      · rw [hnone] at hdecode
        cases hdecode
    · obtain ⟨rfl, rfl⟩ : unread = [] ∧ partRead = false := by simpa using hactive
      rw [hfresh rfl] at hlike
      obtain ⟨left, hleft, -⟩ := hP.rests hlike hroom
      exact ⟨left, hleft⟩
  passes {s s' t d queue} := by
    rintro ⟨q, partRead, hlike, rfl, rfl, hq, hwaits, hfresh⟩ hdirective hroom hlead
    by_cases hactive : t.offered ≠ [] ∨ partRead = true
    · have hfollows := hP.follows hlike hactive hroom
      rw [← hdirective] at hfollows
      exact Holding.passes hfollows hq hwaits hfresh hroom hlead
    · -- between frames, without input, nothing happens
      obtain ⟨hoffered, rfl⟩ : t.offered = [] ∧ partRead = false := by simpa using hactive
      have hnew := hfresh rfl
      rw [hnew] at hlike
      obtain ⟨left, -, houtput, hlike'⟩ := hP.rests hlike hroom
      have hmade := hlead.made
      have hstate := hlead.state
      rw [hoffered, hdirective] at hmade hstate
      rw [houtput, List.take_nil] at hmade
      rw [hstate] at hlike'
      have htaken : t.taken = [] := (List.append_eq_nil_iff.1 hoffered).1
      have hqueue : q.queue = [] := congrArg Queued.queue hnew
      refine ⟨[], q.decoder, [], ?_, ?_, .start hlike', fun _ => rfl, ?_⟩
      · rw [htaken, decode]
      · rw [hqueue, hmade]
      · rintro (hne | hne)
        · exact absurd hoffered hne
        · exact absurd hqueue hne

namespace Stored

/-- Stored data, byte by byte. -/
instance : ByteDecoder Stored where
  feed s byte := .more s [byte]
  reset s := s

theorem decode_eq (s : Stored) (x : List UInt8) : decode s x = some (x, s) := by
  induction x with
  | nil => rfl
  | cons byte x ih => exact (ByteDecoder.decode_more rfl x).trans (congrArg _ ih)

/-- Nothing ever waits. -/
def Empty (_ _ : Stored) (queue : List UInt8) : Prop := queue = []

/-- The codec that changes nothing holds nothing back. -/
theorem prompt : Prompt Empty where
  accepts {s d queue unread room} := by
    intro _ _ _
    exact ⟨_, rfl⟩
  passes {s s' t d queue} := by
    rintro rfl - hroom h
    refine ⟨t.taken, d, [], decode_eq d t.taken, ?_, rfl, fun _ => rfl, ?_⟩
    · rw [made_eq_taken h, List.append_nil]
      rfl
    · intro hwork
      left
      rw [taken_eq h]
      have hoffered : t.offered ≠ [] := hwork.resolve_right fun hne => hne rfl
      simp [List.take_eq_nil_iff, Nat.ne_of_gt hroom, hoffered]

end Stored

/-! ## Courses -/

namespace Prompt

variable {At : σ → δ → List UInt8 → Prop} {s s' : σ} {x y : List UInt8} {turns : List Turn} {d : δ}
  {queue : List UInt8}

/-- What turns take decodes to what they hand out, up to what waits before and afterwards. -/
theorem course (hA : Prompt At) (h : Course s x turns s' y)
    (hturns : ∀ t ∈ turns, t.directive = .proceed ∧ 0 < t.room) (hat : At s d queue) :
    ∃ content d' queue', decode d (takenBy turns) = some (content, d') ∧
      queue ++ content = madeBy turns ++ queue' ∧ At s' d' queue' := by
  induction h generalizing d queue with
  | nil => exact ⟨[], d, queue, rfl, List.append_nil _, hat⟩
  | @cons s s₁ s' t turns x y later split first others ih =>
    obtain ⟨hdirective, hroom⟩ := hturns t List.mem_cons_self
    obtain ⟨content, d₁, queue₁, hpasses⟩ := hA.passes hat hdirective hroom first
    obtain ⟨content', d', queue', hdecode, hmade, hat'⟩ :=
      ih (fun u hu => hturns u (List.mem_cons_of_mem t hu)) hpasses.state
    refine ⟨content ++ content', d', queue', ?_, ?_, hat'⟩
    · rw [takenBy_cons, ByteDecoder.decode_append hpasses.decode, hdecode, Option.map_some]
    · rw [← List.append_assoc, hpasses.made, List.append_assoc, hmade, madeBy_cons,
        List.append_assoc]

end Prompt

end Sluice
