import Sluice.Proofs.FrameDecoders
import Sluice.Proofs.PlainFrames
import Sluice.Proofs.Prospects
import Sluice.Zstd.Decoder

/-!
# Frame tallies

Whoever gives bytes to a decoder can keep a tally: which bytes of the current frame it has taken, and
what it has handed out for them. The tally alone says whether a frame has been read in part.

* `Tally`, `Tally.Complete`, `Tally.Unfinished`, `Tally.Drained`, `Tally.Sound` — a tally, and how
  far in the frame it is.
* `Framewise` — a format's decoder that takes one frame after the other, as an automaton with an output
  queue would. How many bytes a run takes is left to it, but for the first one.
* `Queued.Spot`, `Queued.go_spot` — the queue behind an automaton, and one run of it.
* `Rewinds`, `Bytewise.framewise` — a decoder that behaves like it works frame by frame, if a frame
  leaves nothing in the automaton.
* `Zstd.Decoder.rewinds`, `PlainDecoder.rewinds` — which is so for these.
-/

namespace Sluice

variable {δ : Type} [ByteDecoder δ]

/-! ## Parts are no frames -/

/-- Bytes that lead on inside a frame do not lead over it. -/
theorem Part.not_frame {d d' : δ} {p c c' : List UInt8} (h : Part d p c) : ¬ Frame d p c' d' := by
  induction h generalizing c' with
  | nil => exact fun hframe => hframe.ne_nil rfl
  | more feed others ih =>
    intro hframe
    cases hframe with
    | ended feed' => cases feed.symm.trans feed'
    | more feed' hframe' =>
      cases feed.symm.trans feed'
      exact ih hframe'

/-- What bytes make inside a frame does not depend on anything else. -/
theorem Part.content_eq {d : δ} {p c c' : List UInt8} (h : Part d p c) (h' : Part d p c') :
    c = c' := by
  induction h generalizing c' with
  | nil =>
    cases h'
    rfl
  | more feed others ih =>
    cases h' with
    | more feed' others' =>
      cases feed.symm.trans feed'
      rw [ih others']

/-- Nor does the content of a frame. -/
theorem Frame.content_eq {d d₁ d₂ : δ} {f c₁ c₂ : List UInt8} (h₁ : Frame d f c₁ d₁)
    (h₂ : Frame d f c₂ d₂) : c₁ = c₂ := by
  induction h₁ generalizing c₂ with
  | ended feed =>
    cases h₂ with
    | ended feed' =>
      cases feed.symm.trans feed'
      rfl
    | more feed' others => cases feed.symm.trans feed'
  | more feed others ih =>
    cases h₂ with
    | ended feed' => cases feed.symm.trans feed'
    | more feed' others' =>
      cases feed.symm.trans feed'
      rw [ih others']

/-! ## Tallies -/

/-- What has been read of a frame, and what has been handed out for it. -/
structure Tally where
  read : List UInt8
  made : List UInt8
  deriving DecidableEq, Repr

namespace Tally

/-- In front of a frame. -/
def start : Tally := ⟨[], []⟩

/-- The tally after more bytes have been taken, and more have been made. -/
def add (t : Tally) (taken made : List UInt8) : Tally := ⟨t.read ++ taken, t.made ++ made⟩

/-- A whole frame has been read, and all of its content handed out. -/
def Complete (fresh : δ) (t : Tally) : Prop := ∃ d, Frame fresh t.read t.made d

/-- Some bytes of a frame have been read, and it is not complete with them. -/
def Unfinished (fresh : δ) (t : Tally) : Prop := t.read ≠ [] ∧ ∃ content, Part fresh t.read content

/-- All that the bytes make that have been read has been handed out. -/
def Drained (fresh : δ) (t : Tally) : Prop := Part fresh t.read t.made ∨ t.Complete fresh

/-- The bytes that have been read are the front of a frame, or all of it, and what has been handed out
is the front of what they make. -/
def Sound (fresh : δ) (t : Tally) : Prop :=
  ∃ content, t.made <+: content ∧
    (Part fresh t.read content ∨ ∃ d, Frame fresh t.read content d)

variable {fresh : δ} {t : Tally}

theorem not_complete_start : ¬ start.Complete fresh := fun ⟨_, h⟩ => h.ne_nil rfl

/-- An unfinished frame is not complete. -/
theorem Unfinished.not_complete (h : t.Unfinished fresh) : ¬ t.Complete fresh := by
  obtain ⟨-, content, hpart⟩ := h
  exact fun ⟨_, hframe⟩ => hpart.not_frame hframe

/-- In front of a frame nothing waits. -/
theorem Sound.drained_of_nil (h : t.Sound fresh) (hread : t.read = []) : t.Drained fresh := by
  obtain ⟨content, hmade, hpart | ⟨d, hframe⟩⟩ := h
  · rw [hread] at hpart
    cases hpart
    rw [Drained, hread, List.prefix_nil.1 hmade]
    exact .inl .nil
  · exact absurd hread hframe.ne_nil

theorem Complete.sound (h : t.Complete fresh) : t.Sound fresh := by
  obtain ⟨d, hframe⟩ := h
  exact ⟨t.made, List.prefix_refl _, .inr ⟨d, hframe⟩⟩

/-- If nothing waits, and bytes have been read, the frame is complete or unfinished. -/
theorem Drained.unfinished (h : t.Drained fresh) (hnot : ¬ t.Complete fresh) (hread : t.read ≠ []) :
    t.Unfinished fresh :=
  ⟨hread, t.made, h.resolve_right hnot⟩

end Tally

/-! ## Decoders that work frame by frame -/

/-- What a run has done that has not failed, if the tally was `t` before it. -/
structure RanFrom {ρ : Type} (fresh : δ) (At : ρ → Tally → Prop) (t : Tally) (unread : List UInt8)
    (room : Nat) (run : Run ρ) (left : Nat) : Prop where
  taken_le : run.taken ≤ unread.length
  goes : At run.state (t.add (unread.take run.taken) run.output)
  /-- the end of a frame is reported when its last byte has been taken and nothing waits -/
  ended : left = 0 ↔ (t.add (unread.take run.taken) run.output).Complete fresh
  /-- where nothing has been waiting, a run takes something if it can -/
  takes : unread ≠ [] → t.Drained fresh → 0 < run.taken
  /-- without more input, a run hands out what waits, as far as there is room -/
  gives : unread.length ≤ run.taken → run.output.length < room →
    (t.add (unread.take run.taken) run.output).Drained fresh

/-- A format's decoder that takes one frame after the other, each from the state `fresh` of an
automaton. With `At u t`, the decoder in state `u` is where the tally `t` says. Behind a complete frame
it need not be of any use before it is reset. -/
structure Framewise {ρ : Type} [Unframer ρ] (fresh : δ) (At : ρ → Tally → Prop) : Prop where
  sound {u : ρ} {t : Tally} : At u t → t.Sound fresh
  run {u : ρ} {t : Tally} {unread : List UInt8} {room left : Nat} : At u t → ¬ t.Complete fresh →
    0 < room → (Unframer.run u unread room).result = .ok left →
      RanFrom fresh At t unread room (Unframer.run u unread room) left
  /-- without input, only a frame that has been begun is a reason to fail -/
  fails {u : ρ} {t : Tally} {unread : List UInt8} {room : Nat} {text : String} : At u t →
    ¬ t.Complete fresh → 0 < room → (Unframer.run u unread room).result = .error text →
      unread ≠ [] ∨ t.Unfinished fresh
  reset {u : ρ} {t : Tally} : At u t → At (Unframer.reset u) .start

/-! ## The queue behind an automaton -/

/-- What a byte may lead to in an automaton that is `fresh` behind every frame, and keeps `Kept` inside
of one. -/
def Fed.Keeps (fresh : δ) (Kept : δ → Prop) : Fed δ → Prop
  | .more next _ => Kept next
  | .ended next _ => next = fresh
  | .failed _ => True

/-- An automaton that is `fresh` again behind every frame and after every reset, whatever it has been
fed; it keeps `Kept` all the time. -/
structure Rewinds (fresh : δ) (Kept : δ → Prop) : Prop where
  start : Kept fresh
  feed {d : δ} (byte : UInt8) : Kept d → (ByteDecoder.feed d byte).Keeps fresh Kept
  reset {d : δ} : Kept d → ByteDecoder.reset d = fresh

namespace Rewinds

variable {fresh d next : δ} {Kept : δ → Prop} {byte : UInt8} {output : List UInt8}

theorem more (h : Rewinds fresh Kept) (hkept : Kept d)
    (hfeed : ByteDecoder.feed d byte = .more next output) : Kept next := by
  have hkeeps := h.feed byte hkept
  rwa [hfeed] at hkeeps

theorem ended (h : Rewinds fresh Kept) (hkept : Kept d)
    (hfeed : ByteDecoder.feed d byte = .ended next output) : next = fresh := by
  have hkeeps := h.feed byte hkept
  rwa [hfeed] at hkeeps

end Rewinds

namespace Queued

/-- The queue is inside of a frame, or holds the last of it. What is fed inside goes on with what has
been read. -/
inductive Spot (fresh : δ) (Kept : δ → Prop) : Queued δ → Tally → Prop
  | inside {d : δ} {queue : List UInt8} {t : Tally} (kept : Kept d)
      (part : ∀ {x c : List UInt8}, Part d x c → Part fresh (t.read ++ x) (t.made ++ (queue ++ c)))
      (frame : ∀ {f c : List UInt8} {d' : δ}, Frame d f c d' →
        Frame fresh (t.read ++ f) (t.made ++ (queue ++ c)) d') :
      Spot fresh Kept ⟨d, queue, false, none⟩ t
  | behind {queue : List UInt8} {t : Tally} (frame : Frame fresh t.read (t.made ++ queue) fresh) :
      Spot fresh Kept ⟨fresh, queue, true, none⟩ t

variable {fresh : δ} {Kept : δ → Prop} {q : Queued δ} {t : Tally}

theorem Spot.failure_eq (h : Spot fresh Kept q t) : q.failure = none := by
  cases h <;> rfl

/-- In front of a frame. -/
theorem spot_start (h : Kept fresh) : Spot fresh Kept (.new fresh) .start :=
  .inside h (fun hpart => hpart) (fun hframe => hframe)

/-- What is in the queue can be handed out. -/
theorem Spot.give {front rest : List UInt8} (h : Spot fresh Kept q t)
    (hqueue : q.queue = front ++ rest) :
    Spot fresh Kept { q with queue := rest } (t.add [] front) := by
  cases h with
  | @inside d queue t kept part frame =>
    obtain rfl : queue = front ++ rest := hqueue
    refine .inside kept (fun hpart => ?_) (fun hframe => ?_)
    · simpa [Tally.add] using part hpart
    · simpa [Tally.add] using frame hframe
  | @behind queue t frame =>
    obtain rfl : queue = front ++ rest := hqueue
    exact .behind (by simpa [Tally.add] using frame)

/-- A byte inside a frame, with an empty queue. -/
theorem Spot.more {d next : δ} {byte : UInt8} {output : List UInt8} (hrewinds : Rewinds fresh Kept)
    (h : Spot fresh Kept ⟨d, [], false, none⟩ t)
    (hfeed : ByteDecoder.feed d byte = .more next output) :
    Spot fresh Kept ⟨next, output, false, none⟩ (t.add [byte] []) := by
  cases h with
  | inside kept part frame =>
    refine .inside (hrewinds.more kept hfeed) (fun hpart => ?_) (fun hframe => ?_)
    · simpa [Tally.add] using part (.more hfeed hpart)
    · simpa [Tally.add] using frame (.more hfeed hframe)

/-- The last byte of a frame. -/
theorem Spot.last {d next : δ} {byte : UInt8} {output : List UInt8} (hrewinds : Rewinds fresh Kept)
    (h : Spot fresh Kept ⟨d, [], false, none⟩ t)
    (hfeed : ByteDecoder.feed d byte = .ended next output) :
    Spot fresh Kept ⟨next, output, true, none⟩ (t.add [byte] []) := by
  cases h with
  | inside kept part frame =>
    obtain rfl := hrewinds.ended kept hfeed
    exact .behind (by simpa [Tally.add] using frame (.ended hfeed))

/-- Where the queue is inside of a frame, all that has been read is a part of it. -/
theorem Spot.part {d : δ} {queue : List UInt8} (h : Spot fresh Kept ⟨d, queue, false, none⟩ t) :
    Part fresh t.read (t.made ++ queue) := by
  cases h with
  | inside kept part frame => simpa using part .nil

/-- Wherever the queue is, the tally is one of a frame. -/
theorem Spot.sound (h : Spot fresh Kept q t) : t.Sound fresh := by
  cases h with
  | inside kept part frame => exact ⟨_, List.prefix_append .., .inl (by simpa using part .nil)⟩
  | behind frame => exact ⟨_, List.prefix_append .., .inr ⟨_, frame⟩⟩

/-- A frame is not complete as long as the last of it is in the queue. -/
theorem Spot.not_complete (h : Spot fresh Kept q t) (hwaits : q.frameEnd = true → q.queue ≠ []) :
    ¬ t.Complete fresh := by
  rintro ⟨d', hframe⟩
  cases h with
  | inside kept part frame => exact (part .nil).not_frame (by simpa using hframe)
  | behind frame =>
    have hnil := List.append_right_eq_self.1 (frame.content_eq hframe)
    exact hwaits rfl hnil

/-- If all has been handed out, and the frame is not complete, nothing waits. -/
theorem Spot.idle (h : Spot fresh Kept q t) (hdrained : t.Drained fresh)
    (hnot : ¬ t.Complete fresh) : q.queue = [] ∧ q.frameEnd = false := by
  have hpart := hdrained.resolve_right hnot
  cases h with
  | @inside d queue t kept part frame =>
    have hall : Part fresh t.read (t.made ++ queue) := by simpa using part .nil
    exact ⟨List.append_right_eq_self.1 (hall.content_eq hpart), rfl⟩
  | behind frame => exact absurd frame hpart.not_frame

/-! ## One run of the queue -/

/-- What a run has done: it has taken `count` bytes, made `made`, and come to the end of the frame or
not. -/
structure Went (fresh : δ) (Kept : δ → Prop) (run : Run (Queued δ)) (t : Tally)
    (unread : List UInt8) (room taken : Nat) (out : List UInt8) (left count : Nat)
    (made : List UInt8) : Prop extends Account run unread room taken out count left made where
  ended : left = 0 → run.state = .new fresh ∧ (t.add (unread.take count) made).Complete fresh
  inside : left ≠ 0 → Spot fresh Kept run.state (t.add (unread.take count) made) ∧
    (run.state.frameEnd = true → run.state.queue ≠ [])
  drained : unread.length ≤ count → made.length < room →
    (t.add (unread.take count) made).Drained fresh

/-- A run that makes `before`, takes a byte, and goes on. -/
theorem Went.cons {run : Run (Queued δ)} {byte : UInt8} {unread : List UInt8}
    {room taken left count : Nat} {out before made : List UInt8} (hroom : before.length ≤ room)
    (h : Went fresh Kept run ((t.add [] before).add [byte] []) unread (room - before.length)
      (taken + 1) (out ++ before) left count made) :
    Went fresh Kept run t (byte :: unread) room taken out left (count + 1) (before ++ made) := by
  have htally : ((t.add [] before).add [byte] []).add (unread.take count) made =
      t.add ((byte :: unread).take (count + 1)) (before ++ made) := by
    simp [Tally.add]
  obtain ⟨haccount, hended, hinside, hdrained⟩ := h
  rw [htally] at hended hinside hdrained
  refine ⟨haccount.cons hroom, hended, hinside, fun hall hlt => ?_⟩
  rw [List.length_append] at hlt
  exact hdrained (Nat.le_of_succ_le_succ hall) (by omega)

/-- One run of the queue. -/
theorem go_spot (hrewinds : Rewinds fresh Kept) (h : Spot fresh Kept q t) (unread : List UInt8)
    (room taken : Nat) (out : Array UInt8) {left : Nat}
    (hresult : (q.go unread room taken out).result = .ok left) :
    ∃ count made, Went fresh Kept (q.go unread room taken out) t unread room taken out.toList left
      count made := by
  have hq := h.failure_eq
  revert t
  -- a run that takes a byte goes on from there, with that byte in the tally
  refine go_induction (motive := fun q unread room taken out run => run.result = .ok left →
      ∀ {t : Tally}, Spot fresh Kept q t →
        ∃ count made, Went fresh Kept run t unread room taken out.toList left count made)
    ?waiting ?ended ?nil ?more ?last ?failed hq unread room taken out hresult
  case waiting =>
    intro q unread room taken out _ hroom hleft t h
    obtain rfl := Except.ok.inj hleft
    refine ⟨0, q.queue.take room, account_idle taken 1 (List.length_take_le ..),
      fun hzero => ?_, fun _ => ⟨?_, ?_⟩, ?_⟩
    · cases hzero
    · exact h.give (List.take_append_drop room q.queue).symm
    · intro _
      rwa [Ne, List.drop_eq_nil_iff, Nat.not_le]
    · intro _ hlt
      rw [List.length_take_of_le (Nat.le_of_lt hroom)] at hlt
      exact absurd hlt (Nat.lt_irrefl room)
  case ended =>
    intro d queue unread room taken out hroom hleft t h
    obtain rfl := Except.ok.inj hleft
    cases h with
    | behind frame =>
      have hcomplete : (t.add (unread.take 0) queue).Complete fresh :=
        ⟨fresh, by simpa [Tally.add] using frame⟩
      exact ⟨0, queue, account_idle taken 0 hroom, fun _ => ⟨rfl, hcomplete⟩,
        fun hne => absurd rfl hne, fun _ _ => .inr hcomplete⟩
  case nil =>
    intro d queue room taken out hroom hleft t h
    obtain rfl := Except.ok.inj hleft
    have hspot : Spot fresh Kept (.new d) (t.add [] queue) :=
      h.give (List.append_nil queue).symm
    refine ⟨0, queue, account_idle taken 1 hroom, fun hzero => ?_, fun _ => ⟨hspot, ?_⟩, ?_⟩
    · cases hzero
    · exact fun hend => Bool.noConfusion hend
    · exact fun _ _ => .inl (by simpa using hspot.part)
  case more =>
    intro d next queue output byte unread room taken out run hroom hfeed ih hleft t h
    have hbyte := (h.give (List.append_nil queue).symm).more hrewinds hfeed
    obtain ⟨count, made, hwent⟩ := ih hleft hbyte
    rw [Array.toList_appendList] at hwent
    exact ⟨count + 1, queue ++ made, hwent.cons hroom⟩
  case last =>
    intro d next queue output byte unread room taken out run hroom hfeed ih hleft t h
    have hbyte := (h.give (List.append_nil queue).symm).last hrewinds hfeed
    obtain ⟨count, made, hwent⟩ := ih hleft hbyte
    rw [Array.toList_appendList] at hwent
    exact ⟨count + 1, queue ++ made, hwent.cons hroom⟩
  case failed =>
    intro d queue byte unread room text taken out _ _ hleft
    cases hleft

/-! ## The queue between two runs -/

/-- Where a queue can be between two runs. -/
inductive At (fresh : δ) (Kept : δ → Prop) : Queued δ → Tally → Prop
  | amid {q : Queued δ} {t : Tally} (spot : Spot fresh Kept q t)
      (waits : q.frameEnd = true → q.queue ≠ []) : At fresh Kept q t
  | done {t : Tally} (complete : t.Complete fresh) : At fresh Kept (.new fresh) t

/-- In front of a frame. -/
theorem at_start (h : Rewinds fresh Kept) : At fresh Kept (.new fresh) .start :=
  .amid (spot_start h.start) fun hend => Bool.noConfusion hend

/-- Behind a complete frame, the queue is in front of another one. -/
theorem At.resume (hrewinds : Rewinds fresh Kept) (h : At fresh Kept q t)
    (hcomplete : t.Complete fresh) : At fresh Kept q .start := by
  cases h with
  | amid spot waits => exact absurd hcomplete (spot.not_complete waits)
  | done complete => exact at_start hrewinds

/-- One run from inside a frame. -/
theorem Spot.ranFrom {unread : List UInt8} {room left : Nat} (hrewinds : Rewinds fresh Kept)
    (h : Spot fresh Kept q t) (hnot : ¬ t.Complete fresh)
    (hresult : (q.go unread room 0 #[]).result = .ok left) :
    RanFrom fresh (At fresh Kept) t unread room (q.go unread room 0 #[]) left := by
  have hran := go_ran h.failure_eq hresult
  obtain ⟨count, made, ⟨htaken, hle, houtput, -, -⟩, hended, hinside, hdrained⟩ :=
    go_spot hrewinds h unread room 0 #[] hresult
  rw [Nat.zero_add] at htaken
  rw [List.nil_append] at houtput
  rw [← htaken] at hle
  rw [← htaken, ← houtput] at hended hinside hdrained
  refine ⟨hle, ?_, ⟨fun hzero => (hended hzero).2, fun hcomplete => ?_⟩, ?_, hdrained⟩
  · by_cases hzero : left = 0
    · rw [(hended hzero).1]
      exact .done (hended hzero).2
    · exact .amid (hinside hzero).1 (hinside hzero).2
  · by_contra hne
    exact (hinside hne).1.not_complete (hinside hne).2 hcomplete
  · intro hne hall
    obtain ⟨hqueue, hend⟩ := h.idle hall hnot
    refine Nat.pos_of_ne_zero fun hzero => ?_
    rcases hran.waits hzero (.inl hne) with hwaits | hwaits
    · exact hwaits hqueue
    · rw [hend] at hwaits
      cases hwaits

theorem At.sound (h : At fresh Kept q t) : t.Sound fresh := by
  cases h with
  | amid spot waits => exact spot.sound
  | done complete => exact complete.sound

/-- As long as the frame is not complete, the queue has something to do with it. -/
theorem At.spot (h : At fresh Kept q t) (hnot : ¬ t.Complete fresh) : Spot fresh Kept q t := by
  cases h with
  | amid spot waits => exact spot
  | done complete => exact absurd complete hnot

theorem At.reset_eq (hrewinds : Rewinds fresh Kept) (h : At fresh Kept q t) :
    ByteDecoder.reset q.decoder = fresh := by
  cases h with
  | amid spot waits =>
    cases spot with
    | inside kept part frame => exact hrewinds.reset kept
    | behind frame => exact hrewinds.reset hrewinds.start
  | done complete => exact hrewinds.reset hrewinds.start

end Queued

/-! ## Decoders that behave like the queue -/

namespace Bytewise

variable {ρ : Type} [Unframer ρ] {like : ρ → Queued δ → Prop} {fresh : δ} {Kept : δ → Prop}

/-- The decoder is where the queue is, and that is where the tally says. -/
def At (like : ρ → Queued δ → Prop) (fresh : δ) (Kept : δ → Prop) (u : ρ) (t : Tally) : Prop :=
  ∃ q, like u q ∧ Queued.At fresh Kept q t

/-- A decoder that behaves like the queue works frame by frame, if its automaton rewinds. -/
theorem framewise (hB : Bytewise like) (hrewinds : Rewinds fresh Kept) :
    Framewise fresh (At like fresh Kept) where
  sound {u t} := by
    rintro ⟨q, -, hat⟩
    exact hat.sound
  run {u t unread room left} := by
    rintro ⟨q, hlike, hat⟩ hnot hroom hresult
    have hrun : Runs like u q unread room := hB.run hlike hroom
    unfold Runs Agrees at hrun
    split at hrun
    · obtain ⟨text, htext⟩ := hrun
      rw [hresult] at htext
      cases htext
    · next left' hleft =>
      obtain ⟨htaken, houtput, hstate, number, hnumber, hzero⟩ := hrun
      obtain rfl : left = number := Except.ok.inj (hresult.symm.trans hnumber)
      obtain ⟨hle, hgoes, hended, htakes, hgives⟩ := (hat.spot hnot).ranFrom hrewinds hnot hleft
      rw [← htaken] at hle htakes
      rw [← htaken, ← houtput] at hgoes hended hgives
      exact ⟨hle, ⟨_, hstate, hgoes⟩, hzero.trans hended, htakes, hgives⟩
  fails {u t unread room text} := by
    rintro ⟨q, hlike, hat⟩ hnot hroom hresult
    refine .inl ?_
    rintro rfl
    obtain ⟨left, hleft⟩ := Queued.result_go_nil (hB.intact hlike) room
    obtain ⟨number, hnumber⟩ := Agrees.result_ok (hB.run hlike hroom) hleft
    rw [hresult] at hnumber
    cases hnumber
  reset {u t} := by
    rintro ⟨q, hlike, hat⟩
    have hreset := hB.reset hlike
    rw [hat.reset_eq hrewinds] at hreset
    exact ⟨_, hreset, Queued.at_start hrewinds⟩

omit [Unframer ρ] in
/-- Behind a complete frame, it is in front of another one. -/
theorem resume (hrewinds : Rewinds fresh Kept) {u : ρ} {t : Tally} (h : At like fresh Kept u t)
    (hcomplete : t.Complete fresh) : At like fresh Kept u .start := by
  obtain ⟨q, hlike, hat⟩ := h
  exact ⟨q, hlike, hat.resume hrewinds hcomplete⟩

end Bytewise

/-! ## Automata that rewind -/

namespace Zstd.Decoder

variable {delivery : Delivery} {header : Header} {memory : Memory}

/-- A byte does not change how frames are delivered, and a frame leaves nothing behind. -/
abbrev Stays (delivery : Delivery) (fed : Fed Decoder) : Prop :=
  fed.Keeps (new delivery) (·.delivery = delivery)

theorem stays_feedMagic (seen : List UInt8) : Stays delivery (feedMagic delivery seen) := by
  unfold feedMagic
  dsimp only
  split_ifs
  all_goals first | exact rfl | exact trivial

theorem stays_feedHeader (seen : List UInt8) : Stays delivery (feedHeader delivery seen) := by
  unfold feedHeader
  repeat' split
  all_goals first | exact rfl | exact trivial

theorem stays_feedSkipSize (seen : List UInt8) : Stays delivery (feedSkipSize delivery seen) := by
  unfold feedSkipSize
  repeat' split
  all_goals exact rfl

theorem stays_afterBlock (last : Bool) (output : List UInt8) :
    Stays delivery (afterBlock delivery header memory last output) := by
  unfold afterBlock
  split_ifs
  all_goals first | exact rfl | exact trivial

theorem stays_feedBlockHeader (seen : List UInt8) :
    Stays delivery (feedBlockHeader delivery header memory seen) := by
  unfold feedBlockHeader
  dsimp only
  repeat' split
  all_goals first | exact stays_afterBlock .. | exact rfl | exact trivial

theorem stays_feedBlocks (stage : BlockStage) (byte : UInt8) :
    Stays delivery (feedBlocks delivery header memory stage byte) := by
  unfold feedBlocks
  dsimp only
  repeat' split
  all_goals first
    | exact stays_afterBlock ..
    | exact stays_feedBlockHeader ..
    | exact rfl
    | exact trivial

theorem stays_feed (d : Decoder) (byte : UInt8) : Stays d.delivery (feed d byte) := by
  obtain ⟨delivery, stage⟩ := d
  cases stage with
  | magic seen => exact stays_feedMagic _
  | header seen => exact stays_feedHeader _
  | skipSize seen => exact stays_feedSkipSize _
  | skip left =>
    rw [feed]
    split_ifs
    all_goals exact rfl
  | blocks header memory stage => exact stays_feedBlocks _ _

/-- Whatever has been read of a Zstandard frame, nothing of it is left behind it. -/
theorem rewinds (delivery : Delivery) : Rewinds (new delivery) (·.delivery = delivery) where
  start := rfl
  feed {d} byte := by
    rintro rfl
    exact stays_feed d byte
  reset {d} := by
    rintro rfl
    rfl

end Zstd.Decoder

/-- Nor is anything left of a plain frame. -/
theorem PlainDecoder.rewinds (p : PlainStyle) : Rewinds (start p) (·.style = p) where
  start := rfl
  feed {d} byte := by
    rintro rfl
    change (feed d byte).Keeps (start d.style) (·.style = d.style)
    unfold feed
    repeat' split
    all_goals first | exact rfl | exact trivial
  reset {d} := by
    rintro rfl
    rfl

end Sluice
