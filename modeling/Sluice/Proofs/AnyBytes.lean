import Sluice.Proofs.CutFrames

/-!
# Any bytes

A frame decoder may be given any bytes at all: whole frames, frames that are cut off, or bytes that are
no frames. How far it gets, and what it makes until then, depends on the bytes only.

* `contentsOf` — what a byte decoder makes of some bytes, frame by frame; for whole frames, these are
  their contents (`Frames.contentsOf_eq`).
* `Queued.contents`, `Queued.go_any` — the same behind an output queue, and one run of it.
* `Unchecked`, `StrictDecoding.truthful_unchecked` — what a frame decoder owes in front of any bytes;
  it hands out nothing else.
-/

namespace Sluice

open Reader (FeedTurn DrainTurn)

variable {σ δ : Type} [Codec σ] [ByteDecoder δ]

/-! ## What bytes decode to -/

/-- Some output in front of the first of some contents. -/
def prepend (output : List UInt8) : List (List UInt8) → List (List UInt8)
  | [] => [output]
  | c :: cs => (output ++ c) :: cs

@[simp] theorem prepend_nil (output : List UInt8) : prepend output [] = [output] := rfl

@[simp] theorem prepend_cons (output c : List UInt8) (cs : List (List UInt8)) :
    prepend output (c :: cs) = (output ++ c) :: cs := rfl

@[simp] theorem prepend_prepend (output later : List UInt8) (contents : List (List UInt8)) :
    prepend output (prepend later contents) = prepend (output ++ later) contents := by
  cases contents <;> simp

/-- What a byte decoder in state `d` makes of some bytes: the contents of the frames, the last of them
as far as it goes. Of a byte that is wrong it makes nothing, and of what is behind that neither. -/
def contentsOf (d : δ) : List UInt8 → List (List UInt8)
  | [] => []
  | byte :: x =>
    match ByteDecoder.feed d byte with
    | .more next output => prepend output (contentsOf next x)
    | .ended next output => output :: contentsOf next x
    | .failed _ => []

theorem contentsOf_more {d next : δ} {byte : UInt8} {output : List UInt8} (x : List UInt8)
    (h : ByteDecoder.feed d byte = .more next output) :
    contentsOf d (byte :: x) = prepend output (contentsOf next x) := by
  simp only [contentsOf, h]

theorem contentsOf_ended {d next : δ} {byte : UInt8} {output : List UInt8} (x : List UInt8)
    (h : ByteDecoder.feed d byte = .ended next output) :
    contentsOf d (byte :: x) = output :: contentsOf next x := by
  simp only [contentsOf, h]

theorem Frame.contentsOf_append {d d' : δ} {f c : List UInt8} (h : Frame d f c d') (x : List UInt8) :
    contentsOf d (f ++ x) = c :: contentsOf d' x := by
  induction h with
  | ended feed => exact contentsOf_ended x feed
  | @more d d₁ d' byte output f c feed others ih =>
    rw [List.cons_append, contentsOf_more (f ++ x) feed, ih, prepend_cons]

/-- Whole frames decode to their contents. -/
theorem Frames.contentsOf_eq {d d' : δ} {x : List UInt8} {contents : List (List UInt8)}
    (h : Frames d x contents d') : contentsOf d x = contents := by
  induction h with
  | nil => rfl
  | cons first others ih => rw [first.contentsOf_append, ih]

namespace Queued

/-- What a decoder with a queue can hand out with the input `x` before it. -/
def contents (q : Queued δ) (x : List UInt8) : List (List UInt8) :=
  if q.frameEnd then q.queue :: contentsOf q.decoder x else prepend q.queue (contentsOf q.decoder x)

theorem contents_of_nil (q : Queued δ) : q.contents [] = [q.queue] := by
  cases h : q.frameEnd <;> simp [contents, contentsOf, h]

/-- The front of the queue is the front of what can be handed out. -/
theorem contents_eq_prepend {q : Queued δ} {front rest : List UInt8} (x : List UInt8)
    (h : q.queue = front ++ rest) :
    q.contents x = prepend front ({ q with queue := rest }.contents x) := by
  cases hend : q.frameEnd <;> simp [contents, hend, h]

theorem exists_contents_eq (q : Queued δ) (x : List UInt8) : ∃ c cs, q.contents x = c :: cs := by
  cases hend : q.frameEnd
  · cases hcontents : contentsOf q.decoder x <;> simp [contents, hend, hcontents]
  · simp [contents, hend]

/-! ## Runs of the queue -/

/-- What a run does that does not fail: it takes `count` bytes, makes `made`, and is at the end of a
frame, or inside one. -/
structure Emits (q : Queued δ) (run : Run (Queued δ)) (unread later : List UInt8) (room taken : Nat)
    (out : List UInt8) (count left : Nat) (made missing : List UInt8) (others : List (List UInt8)) :
    Prop extends Account run unread room taken out count left made where
  contents : q.contents (unread ++ later) = (made ++ missing) :: others
  ended : left = 0 → missing = [] ∧ ∃ d, run.state = .new d ∧
    others = contentsOf d (unread.drop count ++ later)
  inside : left ≠ 0 → run.state.failure = none ∧
    run.state.contents (unread.drop count ++ later) = missing :: others ∧
    (run.state.frameEnd = true → run.state.queue ≠ [])
  /-- the first byte that was taken was right -/
  right : count ≠ 0 → contentsOf q.decoder (unread ++ later) ≠ []

/-- A run that hands out what waits, takes a byte, and goes on. -/
theorem Emits.cons {q q₁ : Queued δ} {run : Run (Queued δ)} {byte : UInt8} {unread later : List UInt8}
    {room taken count left : Nat} {out made missing : List UInt8} {others : List (List UInt8)}
    (hroom : q.queue.length ≤ room)
    (hcontents : q.contents (byte :: unread ++ later) =
      prepend q.queue (q₁.contents (unread ++ later)))
    (hright : contentsOf q.decoder (byte :: unread ++ later) ≠ [])
    (h : Emits q₁ run unread later (room - q.queue.length) (taken + 1) (out ++ q.queue) count left made
      missing others) :
    Emits q run (byte :: unread) later room taken out (count + 1) left (q.queue ++ made) missing
      others where
  toAccount := h.toAccount.cons hroom
  contents := by rw [hcontents, h.contents, prepend_cons, List.append_assoc]
  ended := h.ended
  inside := h.inside
  right := fun _ => hright

/-- One run over any input. If it has anything to do and room, it takes something, or hands out
something that has waited. -/
theorem go_any {q : Queued δ} (hq : q.failure = none) (unread later : List UInt8) (room taken : Nat)
    (out : Array UInt8) {left : Nat} (h : (q.go unread room taken out).result = .ok left) :
    ∃ count made missing others,
      Emits q (q.go unread room taken out) unread later room taken out.toList count left made missing
        others ∧
      (q.Active unread → 0 < room → count ≠ 0 ∨ q.queue ≠ [] ∧ made ≠ []) := by
  revert h
  refine go_induction (motive := fun q unread room taken out run =>
      run.result = .ok left → ∃ count made missing others,
        Emits q run unread later room taken out.toList count left made missing others ∧
        (q.Active unread → 0 < room → count ≠ 0 ∨ q.queue ≠ [] ∧ made ≠ []))
    ?waiting ?ended ?nil ?more ?last ?failed hq unread room taken out
  case waiting =>
    rintro q unread room taken out hfailure hroom ⟨⟩
    have hqueue : q.queue = q.queue.take room ++ q.queue.drop room :=
      (List.take_append_drop room q.queue).symm
    obtain ⟨missing, others, hrest⟩ :=
      exists_contents_eq { q with queue := q.queue.drop room } (unread ++ later)
    have hcontents := contents_eq_prepend (unread ++ later) hqueue
    rw [hrest, prepend_cons] at hcontents
    refine ⟨0, _, missing, others, ⟨account_idle taken 1 (List.length_take_le ..), hcontents,
      nofun, fun _ => ⟨hfailure, hrest, fun _ => ?_⟩, fun h => absurd rfl h⟩,
      fun _ hpos => .inr (waits_of_lt hpos hroom)⟩
    simpa [List.drop_eq_nil_iff] using hroom
  case ended =>
    rintro d queue unread room taken out hroom ⟨⟩
    refine ⟨0, queue, [], contentsOf d (unread ++ later), ⟨account_idle taken 0 hroom, ?_,
      fun _ => ⟨rfl, d, rfl, rfl⟩, fun h => absurd rfl h, fun h => absurd rfl h⟩, ?_⟩
    · simp [contents]
    · exact fun hactive _ =>
        .inr (and_self_iff.2 (hactive.resolve_right fun h => Bool.noConfusion h.2))
  case nil =>
    rintro d queue room taken out hroom ⟨⟩
    obtain ⟨missing, others, hrest⟩ := exists_contents_eq (.new d) later
    have hcontents : contents ⟨d, queue, false, none⟩ later = _ :=
      contents_eq_prepend later (List.append_nil queue).symm
    rw [show ({ decoder := d, queue := [], frameEnd := false, failure := none } : Queued δ) = .new d
      from rfl, hrest, prepend_cons] at hcontents
    refine ⟨0, queue, missing, others, ⟨account_idle taken 1 hroom, hcontents, nofun,
      fun _ => ⟨rfl, hrest, fun h => Bool.noConfusion h⟩, fun h => absurd rfl h⟩, ?_⟩
    exact fun hactive _ => .inr (and_self_iff.2 (hactive.resolve_right fun h => h.1 rfl))
  case more =>
    intro d next queue output byte unread room taken out run hroom hfeed ih hresult
    obtain ⟨count, made, missing, others, hemits, -⟩ := ih hresult
    rw [Array.toList_appendList] at hemits
    have hcontents := contentsOf_more (unread ++ later) hfeed
    refine ⟨count + 1, _, missing, others, hemits.cons hroom ?_ ?_,
      fun _ _ => .inl (Nat.succ_ne_zero _)⟩
    · simp [contents, hcontents]
    · rw [List.cons_append, hcontents]
      cases contentsOf next (unread ++ later) <;> simp
  case last =>
    intro d next queue output byte unread room taken out run hroom hfeed ih hresult
    obtain ⟨count, made, missing, others, hemits, -⟩ := ih hresult
    rw [Array.toList_appendList] at hemits
    have hcontents := contentsOf_ended (unread ++ later) hfeed
    refine ⟨count + 1, _, missing, others, hemits.cons hroom ?_ ?_,
      fun _ _ => .inl (Nat.succ_ne_zero _)⟩
    · simp [contents, hcontents]
    · rw [List.cons_append, hcontents]
      exact List.cons_ne_nil _ _
  case failed => rintro d queue byte unread room text taken out _ _ ⟨⟩

end Queued

/-! ## Turns -/

variable {like : σ → Queued δ → Bool → Prop} {s s' : σ} {x later : List UInt8}
  {contents : List (List UInt8)} {t : Turn} {partRead : Bool}

/-- What a frame decoder owes in front of any bytes, between two frames and inside one. -/
inductive Unchecked (like : σ → Queued δ → Bool → Prop) (s : σ) (x : List UInt8) :
    List (List UInt8) → Prop where
  | between {d : δ} (state : like s (.new d) false) : Unchecked like s x (contentsOf d x)
  | midway {q : Queued δ} (state : like s q true) (sound : q.failure = none)
      (waits : q.frameEnd = true → q.queue ≠ []) : Unchecked like s x (q.contents x)

/-- A turn that is a run of the queue hands out the front of what can be handed out. It ends a frame,
or is inside one; and if there is anything to do, it takes something, or hands out something that has
waited. -/
theorem Follows.any {q : Queued δ}
    (hfollows : Follows like partRead (Codec.step s t.offered t.room t.directive)
      (q.go t.offered t.room 0 #[]))
    (hq : q.failure = none) (later : List UInt8) (h : t.Leads s s') :
    ∃ missing others, q.contents (t.offered ++ later) = (t.made ++ missing) :: others ∧
      (t.left = 0 → missing = [] ∧ Unchecked like s' (t.rest ++ later) others) ∧
      (t.left ≠ 0 → (partRead = true ∨ t.taken ≠ []) →
        Unchecked like s' (t.rest ++ later) (missing :: others)) ∧
      (t.taken ≠ [] → contentsOf q.decoder (t.offered ++ later) ≠ []) ∧
      (q.Active t.offered → 0 < t.room → t.taken ≠ [] ∨ q.queue ≠ [] ∧ t.made ≠ []) := by
  obtain ⟨left, hresult⟩ := hfollows.exists_left h
  obtain ⟨count, made, missing, others, hemits, hactive⟩ :=
    Queued.go_any hq t.offered later t.room 0 #[] hresult
  obtain ⟨hleft, hmade, hrest, htook, hlike⟩ := hfollows.turn hemits.toAccount h
  refine ⟨missing, others, by rw [hmade, hemits.contents], ?_, ?_,
    fun hne => hemits.right (htook.1 hne),
    fun hact hroom => (hactive hact hroom).imp htook.2 (hmade ▸ ·)⟩
  · intro hl
    obtain rfl := hleft.1 hl
    obtain ⟨hmissing, d, hstate, rfl⟩ := hemits.ended rfl
    rw [hstate] at hlike
    exact ⟨hmissing, hrest ▸ .between hlike⟩
  · intro hl hread
    have hne : left ≠ 0 := fun h => hl (hleft.2 h)
    obtain ⟨hsound, hcontents, hwaits⟩ := hemits.inside hne
    have hpart : (decide (left ≠ 0) && (partRead || decide (t.taken ≠ []))) = true := by
      simpa [hne] using hread
    rw [hpart] at hlike
    rw [← hcontents, hrest]
    exact .midway hlike hsound hwaits

namespace Unchecked

/-- A turn over input does something, and hands out the front of what is owed. -/
theorem turn (hS : StrictDecoding like) (h : Unchecked like s (t.offered ++ later) contents)
    (hturn : FeedTurn t) (hlead : t.Leads s s') :
    (t.taken ≠ [] ∨ t.made ≠ []) ∧ ∃ missing others, contents = (t.made ++ missing) :: others ∧
      (t.left = 0 → missing = [] ∧ Unchecked like s' (t.rest ++ later) others) ∧
      (t.left ≠ 0 → Unchecked like s' (t.rest ++ later) (missing :: others)) := by
  cases h with
  | @between d hlike =>
    have hfollows := hS.proceed hlike hturn.offered hturn.room_pos
    rw [← hturn.directive] at hfollows
    obtain ⟨missing, others, hcontents, hzero, hmore, hright, hactive⟩ := hfollows.any rfl later hlead
    -- nothing waits, so that a byte has been taken, and it was right
    have htaken : t.taken ≠ [] :=
      (hactive (.inr ⟨hturn.offered, rfl⟩) hturn.room_pos).resolve_right fun h => h.1 rfl
    have heq : Queued.contents (.new d) (t.offered ++ later) = contentsOf d (t.offered ++ later) := by
      obtain ⟨c, cs, hcons⟩ := List.exists_cons_of_ne_nil (hright htaken)
      simp only [Queued.contents, Queued.new] at hcons ⊢
      simp [hcons]
    exact ⟨.inl htaken, missing, others, heq ▸ hcontents, hzero, fun hl => hmore hl (.inr htaken)⟩
  | @midway q hlike sound waits =>
    have hfollows := hS.proceed hlike hturn.offered hturn.room_pos
    rw [← hturn.directive] at hfollows
    obtain ⟨missing, others, hcontents, hzero, hmore, -, hactive⟩ := hfollows.any sound later hlead
    have hact : q.Active t.offered := by
      by_cases hend : q.frameEnd = true
      · exact .inl (waits hend)
      · exact .inr ⟨hturn.offered, by simpa using hend⟩
    exact ⟨(hactive hact hturn.room_pos).imp_right And.right, missing, others, hcontents, hzero,
      fun hl => hmore hl (.inl rfl)⟩

/-- A turn without input hands out the front of what waits. -/
theorem drain (hS : StrictDecoding like) (h : Unchecked like s [] contents) (hturn : DrainTurn t)
    (hlead : t.Leads s s') :
    ∃ missing, contents.headD [] = t.made ++ missing ∧ contents.tail = [] ∧
      (t.left = 0 → missing = []) ∧ (t.left ≠ 0 → t.made ≠ [] ∧ Unchecked like s' [] [missing]) := by
  have hresult := hlead.result
  rw [hturn.directive, hturn.offered] at hresult
  cases h with
  | between hlike =>
    obtain ⟨hzero, houtput, -⟩ := hS.finish_between hlike hturn.room_pos
    have hmade := hlead.made
    rw [hturn.directive, hturn.offered, houtput, List.take_nil] at hmade
    rw [hzero] at hresult
    exact ⟨[], by simp [hmade, contentsOf], rfl, fun _ => rfl,
      fun hl => absurd (Except.ok.inj hresult).symm hl⟩
  | @midway q hlike sound waits =>
    -- a step that does not complain is a run of the queue
    have hfollows : Follows like true (Codec.step s [] t.room .finish) (q.go [] t.room 0 #[]) := by
      by_cases hend : q.frameEnd = true
      · exact hS.finish hlike hturn.room_pos (.inl hend)
      · rcases hS.complains hlike (by simpa using hend) with hfollows | ⟨⟨failure, hfails⟩, -⟩
        · exact hfollows
        · rw [hresult] at hfails
          cases hfails
    have hqueue : q.queue ≠ [] := by
      by_cases hend : q.frameEnd = true
      · exact waits hend
      · exact hS.queue_ne_nil hlike sound (by simpa using hend) hturn.room_pos hresult
    obtain ⟨htaken, hrest⟩ : t.taken = [] ∧ t.rest = [] := List.append_eq_nil_iff.1 hturn.offered
    have hfollows' : Follows like true (Codec.step s t.offered t.room t.directive)
        (q.go t.offered t.room 0 #[]) := by
      rw [hturn.directive, hturn.offered]
      exact hfollows
    obtain ⟨missing, others, hcontents, hzero, hmore, -, hactive⟩ := hfollows'.any sound [] hlead
    rw [hturn.offered, List.append_nil, Queued.contents_of_nil] at hcontents
    obtain ⟨hhead, rfl⟩ := List.cons.inj hcontents
    rw [Queued.contents_of_nil]
    refine ⟨missing, hhead, rfl, fun hl => (hzero hl).1, fun hl => ⟨?_, ?_⟩⟩
    · exact ((hactive (.inl hqueue) hturn.room_pos).resolve_left fun h => h htaken).2
    · have howes := hmore hl (.inl rfl)
      rwa [hrest] at howes

end Unchecked

/-- Over any bytes, a strict frame decoder hands out what they decode to, as long as it does not
fail. -/
theorem StrictDecoding.truthful_unchecked (hS : StrictDecoding like) : Truthful (Unchecked like) where
  advances := fun howes hturn hlead => (howes.turn hS hturn hlead).1
  proceeds := fun howes hturn hlead => (howes.turn hS hturn hlead).2
  finishes := fun howes hturn hlead => howes.drain hS hturn hlead

end Sluice
