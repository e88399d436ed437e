import Sluice.Proofs.FailingReaders
import Sluice.Proofs.FrameDecoding

/-!
# Frames that are cut off

Bytes may end inside a frame. A decoder makes of them what it makes of the front of the frame, and
waits for the rest.

* `Part`, `CutFrames` — the front of a frame, and whole frames with the front of another one behind.
* `Queued.Amid`, `Queued.go_amid` — a decoder with a queue in the front of a frame, and one run of
  it, which never ends the frame.
* `StrictDecoding` — a frame decoder that complains about an end of the input inside a frame.
* `Hanging`, `Hanging.turn` — such a decoder in the front of a frame, and one turn of it.
* `Short`, `StrictDecoding.complains_short` — what it owes in front of frames that are cut off; it
  pays that out, and then complains.
-/

namespace Sluice

open Reader (FeedTurn DrainTurn)

variable {σ δ : Type} [Codec σ] [ByteDecoder δ]

/-! ## Fronts of frames -/

/-- From state `d`, the bytes `p` lead on inside a frame; they make `c`. -/
inductive Part : δ → List UInt8 → List UInt8 → Prop where
  | nil {d : δ} : Part d [] []
  | more {d d₁ : δ} {byte : UInt8} {output p c : List UInt8}
      (feed : ByteDecoder.feed d byte = .more d₁ output) (others : Part d₁ p c) :
      Part d (byte :: p) (output ++ c)

/-- Without its last bytes, a frame is a part that makes the front of its content. -/
theorem Frame.part {d d' : δ} {p missing c : List UInt8} (h : Frame d (p ++ missing) c d')
    (hne : missing ≠ []) : ∃ made, Part d p made ∧ made <+: c := by
  induction p generalizing d c with
  | nil => exact ⟨[], .nil, List.nil_prefix⟩
  | cons byte p ih =>
    rw [List.cons_append] at h
    generalize hx : byte :: (p ++ missing) = x at h
    cases h with
    | ended feed =>
      obtain ⟨-, hnil⟩ := List.cons.inj hx
      exact absurd (List.append_eq_nil_iff.1 hnil).2 hne
    | more feed others =>
      obtain ⟨rfl, rfl⟩ := List.cons.inj hx
      obtain ⟨made, hpart, hfront⟩ := ih others
      refine ⟨_, .more feed hpart, ?_⟩
      rw [List.prefix_append_right_inj]
      exact hfront

/-- From state `d`, the bytes `x` lead over whole frames and into one that they do not end. These
are the contents, the last of them as far as the bytes make it. -/
inductive CutFrames : δ → List UInt8 → List (List UInt8) → Prop where
  | part {d : δ} {p c : List UInt8} (part : Part d p c) (ne : p ≠ []) : CutFrames d p [c]
  | cons {d d₁ : δ} {f x c : List UInt8} {contents : List (List UInt8)}
      (first : Frame d f c d₁) (others : CutFrames d₁ x contents) :
      CutFrames d (f ++ x) (c :: contents)

/-- A part behind whole frames. -/
theorem Frames.cut {d d' : δ} {x p c : List UInt8} {contents : List (List UInt8)}
    (h : Frames d x contents d') (hpart : Part d' p c) (hne : p ≠ []) :
    CutFrames d (x ++ p) (contents ++ [c]) := by
  induction h with
  | nil => exact .part hpart hne
  | cons first others ih =>
    rw [List.append_assoc]
    exact .cons first (ih hpart)

theorem CutFrames.ne_nil {d : δ} {x : List UInt8} {contents : List (List UInt8)}
    (h : CutFrames d x contents) : x ≠ [] := by
  cases h with
  | part part ne => exact ne
  | cons first others => exact List.append_ne_nil_of_left_ne_nil first.ne_nil _

/-! ## Runs of the queue -/

namespace Queued

/-- A decoder with a queue inside a frame, the input `x` before which does not end it; `c` is all
that can still be handed out. -/
inductive Amid : Queued δ → List UInt8 → List UInt8 → Prop where
  | intro {d : δ} {queue x c : List UInt8} (part : Part d x c) :
      Amid ⟨d, queue, false, none⟩ x (queue ++ c)

theorem Amid.failure_eq {q : Queued δ} {x c : List UInt8} (h : Amid q x c) : q.failure = none := by
  cases h
  rfl

theorem Amid.frameEnd_eq {q : Queued δ} {x c : List UInt8} (h : Amid q x c) : q.frameEnd = false := by
  cases h
  rfl

/-- After a step that has given up the queue, nothing can be handed out. -/
theorem amid_new (d : δ) : Amid (.new d) [] [] := .intro .nil

/-- The first byte of the input goes on with the frame. -/
theorem Amid.cons_inv {d : δ} {queue x c : List UInt8} {byte : UInt8}
    (h : Amid ⟨d, queue, false, none⟩ (byte :: x) c) :
    ∃ next output missing, c = queue ++ missing ∧ ByteDecoder.feed d byte = .more next output ∧
      Amid ⟨next, output, false, none⟩ x missing := by
  generalize hx : byte :: x = y at h
  cases h with
  | intro part =>
    cases part with
    | nil => cases hx
    | more feed others =>
      obtain ⟨rfl, rfl⟩ := List.cons.inj hx
      exact ⟨_, _, _, rfl, feed, .intro others⟩

/-- What a run does in the front of a frame: it takes `count` bytes, makes `made`, and stops for lack
of room or of input. -/
structure GoesOn (run : Run (Queued δ)) (unread later c : List UInt8) (room taken : Nat)
    (out : List UInt8) (count : Nat) (made missing : List UInt8) : Prop
    extends Account run unread room taken out count 1 made where
  content : c = made ++ missing
  amid : Amid run.state (unread.drop count ++ later) missing

/-- A run that makes `before`, takes a byte, and goes on. -/
theorem GoesOn.cons {run : Run (Queued δ)} {byte : UInt8} {unread later c : List UInt8}
    {room taken count : Nat} {out before made missing : List UInt8} (hroom : before.length ≤ room)
    (h : GoesOn run unread later c (room - before.length) (taken + 1) (out ++ before) count made
      missing) :
    GoesOn run (byte :: unread) later (before ++ c) room taken out (count + 1) (before ++ made)
      missing where
  toAccount := h.toAccount.cons hroom
  content := by rw [h.content, List.append_assoc]
  amid := h.amid

/-- A run without room for all that waits. -/
theorem goesOn_waiting {q : Queued δ} {unread later c : List UInt8} {room : Nat} (taken : Nat)
    (out : Array UInt8) (h : Amid q (unread ++ later) c) (hroom : room < q.queue.length) :
    ∃ missing, GoesOn
      ⟨taken, out.toList ++ q.queue.take room, { q with queue := q.queue.drop room }, .ok 1⟩
      unread later c room taken out.toList 0 (q.queue.take room) missing := by
  generalize hx : unread ++ later = x at h
  cases h with
  | @intro d queue x c part =>
    refine ⟨queue.drop room ++ c, account_idle taken 1 (List.length_take_le ..), ?_,
      hx ▸ .intro part⟩
    rw [← List.append_assoc, List.take_append_drop]

/-- One run in the front of a frame. If it has anything to do and room, it takes something or makes
something. -/
theorem go_amid {q : Queued δ} {unread later c : List UInt8} (h : Amid q (unread ++ later) c)
    (room taken : Nat) (out : Array UInt8) :
    ∃ count made missing,
      GoesOn (q.go unread room taken out) unread later c room taken out.toList count made missing ∧
      (q.Active unread → 0 < room → count ≠ 0 ∨ made ≠ []) := by
  have hq := h.failure_eq
  revert c
  -- a run that takes a byte goes on inside the frame, over the rest of the bytes
  refine go_induction (motive := fun q unread room taken out run =>
      ∀ {c : List UInt8}, Amid q (unread ++ later) c → ∃ count made missing,
        GoesOn run unread later c room taken out.toList count made missing ∧
        (q.Active unread → 0 < room → count ≠ 0 ∨ made ≠ []))
    ?waiting ?ended ?nil ?more ?last ?failed hq unread room taken out
  case waiting =>
    intro q unread room taken out _ hroom c h
    obtain ⟨missing, hgoes⟩ := goesOn_waiting taken out h hroom
    exact ⟨0, _, missing, hgoes, fun _ hpos => .inr (waits_of_lt hpos hroom).2⟩
  case ended => exact fun _ _ _ _ h => Bool.noConfusion h.frameEnd_eq
  case nil =>
    intro d queue room taken out hroom c h
    rw [List.nil_append] at h
    cases h with
    | intro part =>
      refine ⟨0, queue, _, ⟨account_idle taken 1 hroom, rfl, .intro part⟩, ?_⟩
      exact fun hactive _ => .inr (hactive.resolve_right fun h => h.1 rfl)
  case more =>
    intro d next queue output byte unread room taken out run hroom hfeed ih c h
    obtain ⟨_, _, missing, rfl, hfeed', hamid⟩ := h.cons_inv
    cases hfeed.symm.trans hfeed'
    obtain ⟨count, made, missing, hgoes, -⟩ := ih hamid
    rw [Array.toList_appendList] at hgoes
    exact ⟨count + 1, _, missing, hgoes.cons hroom, fun _ _ => .inl (Nat.succ_ne_zero _)⟩
  case last =>
    intro d next queue output byte unread room taken out run hroom hfeed ih c h
    obtain ⟨_, _, missing, -, hfeed', -⟩ := h.cons_inv
    cases hfeed.symm.trans hfeed'
  case failed =>
    intro d queue byte unread room text taken out hroom hfeed c h
    obtain ⟨_, _, missing, -, hfeed', -⟩ := h.cons_inv
    cases hfeed.symm.trans hfeed'

end Queued

/-! ## Steps in the front of a frame -/

variable {like : σ → Queued δ → Bool → Prop} {s s' : σ} {x later c : List UInt8}
  {contents : List (List UInt8)} {t : Turn} {partRead : Bool}

omit [Codec σ] in
/-- A step that is a run of the queue in the front of a frame does not fail. -/
theorem Follows.result_of_amid {step : Step σ} {q : Queued δ} {u : List UInt8} {room : Nat}
    (hfollows : Follows like partRead step (q.go u room 0 #[])) (hamid : q.Amid (u ++ later) c) :
    ∃ left, step.result = .ok left := by
  obtain ⟨count, made, missing, hgoes, -⟩ := Queued.go_amid hamid room 0 #[]
  exact Agrees.result_ok hfollows hgoes.result

/-- A turn that is a run of the queue in the front of a frame does not end the frame; it makes the
front of what can be handed out. -/
theorem Follows.amid {q : Queued δ}
    (hfollows : Follows like partRead (Codec.step s t.offered t.room t.directive)
      (q.go t.offered t.room 0 #[]))
    (hamid : q.Amid (t.offered ++ later) c) (h : t.Leads s s') :
    t.left ≠ 0 ∧ ∃ q' missing, c = t.made ++ missing ∧ like s' q' (partRead || t.taken ≠ []) ∧
      q'.Amid (t.rest ++ later) missing ∧
      (q.Active t.offered → 0 < t.room → t.taken ≠ [] ∨ t.made ≠ []) := by
  obtain ⟨count, made, missing, hgoes, hactive⟩ := Queued.go_amid hamid t.room 0 #[]
  obtain ⟨hleft, hmade, hrest, htook, hlike⟩ := hfollows.turn hgoes.toAccount h
  refine ⟨fun hl => Nat.one_ne_zero (hleft.1 hl), _, missing, by rw [hmade, hgoes.content], hlike,
    hrest ▸ hgoes.amid, fun hact hroom => (hactive hact hroom).imp htook.2 (hmade ▸ ·)⟩

/-- A frame decoder that complains about an end of the input inside a frame, and can be stepped
without room. -/
structure StrictDecoding (like : σ → Queued δ → Bool → Prop) : Prop extends
    FrameDecoding like where
  /-- over input, a step without room is a run of the queue too -/
  roomless {s : σ} {q : Queued δ} {partRead : Bool} {unread : List UInt8} :
    like s q partRead → unread ≠ [] →
      Follows like partRead (Codec.step s unread 0 .proceed) (q.go unread 0 0 #[])
  /-- at the end of the input inside a frame, a step is a run of the queue, or a complaint, with which
  the queue is given up -/
  complains {s : σ} {q : Queued δ} {room : Nat} : like s q true → q.frameEnd = false →
    Follows like true (Codec.step s [] room .finish) (q.go [] room 0 #[]) ∨
      (∃ failure, (Codec.step s [] room .finish).result = .error failure) ∧
        like (Codec.step s [] room .finish).state (.new q.decoder) true

namespace StrictDecoding

/-- Over input, a step is a run of the queue, with room or without. -/
theorem follows (hS : StrictDecoding like) {q : Queued δ} {unread : List UInt8}
    (hlike : like s q partRead) (hne : unread ≠ []) (room : Nat) :
    Follows like partRead (Codec.step s unread room .proceed) (q.go unread room 0 #[]) := by
  cases room with
  | zero => exact hS.roomless hlike hne
  | succ room => exact hS.proceed hlike hne (Nat.succ_pos room)

/-- With nothing in the queue, a step without input inside a frame complains. -/
theorem queue_ne_nil (hS : StrictDecoding like) {q : Queued δ} {room left : Nat}
    (hlike : like s q true) (hsound : q.failure = none) (hend : q.frameEnd = false) (hroom : 0 < room)
    (h : (Codec.step s [] room .finish).result = .ok left) : q.queue ≠ [] := by
  intro hempty
  obtain ⟨d, queue, frameEnd, failure⟩ := q
  obtain rfl : queue = [] := hempty
  obtain rfl : frameEnd = false := hend
  obtain rfl : failure = none := hsound
  obtain ⟨failure, hfails⟩ := hS.finish_within hlike hroom
  rw [hfails] at h
  cases h

end StrictDecoding

/-! ## Decoders in the front of a frame -/

/-- A decoder in state `s` inside a frame, or before one, that the input `x` before it does not end;
`c` is all that can still be handed out. -/
def Hanging (like : σ → Queued δ → Bool → Prop) (s : σ) (x c : List UInt8) : Prop :=
  ∃ q partRead, like s q partRead ∧ q.Amid x c ∧ (partRead = true ∨ x ≠ [])

/-- A turn does not end the frame, whether there is input or the end of it; it makes the front of
what can be handed out. If it has room, it takes something or makes something. -/
theorem Hanging.turn (hS : StrictDecoding like) (h : Hanging like s (t.offered ++ later) c)
    (hasked : t.directive = .proceed ∧ t.offered ≠ [] ∨ t.directive = .finish ∧ t.offered ++ later = [])
    (hlead : t.Leads s s') :
    t.left ≠ 0 ∧ (0 < t.room → t.taken ≠ [] ∨ t.made ≠ []) ∧
      ∃ missing, c = t.made ++ missing ∧ Hanging like s' (t.rest ++ later) missing := by
  obtain ⟨q, partRead, hlike, hamid, hbegun⟩ := h
  rcases hasked with ⟨hdirective, hne⟩ | ⟨hdirective, hnil⟩
  · have hfollows := hS.follows hlike hne t.room
    rw [← hdirective] at hfollows
    obtain ⟨hleft, q', missing, hcontent, hlike', hamid', hactive⟩ := hfollows.amid hamid hlead
    refine ⟨hleft, hactive (.inr ⟨hne, hamid.frameEnd_eq⟩), missing, hcontent, q', _, hlike', hamid',
      ?_⟩
    -- if nothing has been taken, all of the input is still there
    by_cases htaken : t.taken = []
    · have hrest : t.rest ≠ [] := by
        rw [Turn.offered, htaken, List.nil_append] at hne
        exact hne
      exact .inr (List.append_ne_nil_of_left_ne_nil hrest later)
    · exact .inl (by simp [htaken])
  · obtain ⟨hoffered, -⟩ := List.append_eq_nil_iff.1 hnil
    obtain ⟨htaken, hrest⟩ : t.taken = [] ∧ t.rest = [] := List.append_eq_nil_iff.1 hoffered
    obtain rfl := hbegun.resolve_right fun h => h hnil
    have hresult := hlead.result
    rw [hdirective, hoffered] at hresult
    have hstep : Follows like true (Codec.step s [] t.room .finish) (q.go [] t.room 0 #[]) ∨ _ :=
      hS.complains hlike hamid.frameEnd_eq
    rcases hstep with
      hfollows | ⟨⟨failure, hfails⟩, -⟩
    · have hfollows' : Follows like true (Codec.step s t.offered t.room t.directive)
          (q.go t.offered t.room 0 #[]) := by
        rw [hdirective, hoffered]
        exact hfollows
      obtain ⟨hleft, q', missing, hcontent, hlike', hamid', hactive⟩ := hfollows'.amid hamid hlead
      refine ⟨hleft, fun hroom => ?_, missing, hcontent, q', _, hlike', hamid', .inl rfl⟩
      have hqueue := hS.queue_ne_nil hlike hamid.failure_eq hamid.frameEnd_eq hroom hresult
      exact hactive (.inl hqueue) hroom
    · rw [hfails] at hresult
      cases hresult

/-! ## What is owed in front of frames that are cut off -/

/-- What a frame decoder owes in front of frames that are cut off: it is in a whole frame that others
follow, or in the last one. -/
inductive Short (like : σ → Queued δ → Bool → Prop) (s : σ) (x : List UInt8) :
    List (List UInt8) → Prop where
  | whole {q : Queued δ} {partRead : Bool} {d : δ} {rest c : List UInt8}
      {others : List (List UInt8)} (state : like s q partRead) (inside : q.Inside x c d rest)
      (waits : q.frameEnd = true → q.queue ≠ []) (frames : CutFrames d rest others) :
      Short like s x (c :: others)
  | hanging {c : List UInt8} (hanging : Hanging like s x c) : Short like s x [c]

namespace Short

omit [Codec σ] in
/-- Between two frames. -/
theorem between {d : δ} (hlike : like s (.new d) false) (h : CutFrames d x contents) :
    Short like s x contents := by
  cases h with
  | part part ne => exact .hanging ⟨.new d, false, hlike, .intro part, .inr ne⟩
  | cons first others =>
    exact .whole hlike (.within first) (fun hend => Bool.noConfusion hend) others

omit [Codec σ] in
/-- Once there is no input left, the decoder is in the last of the frames. -/
theorem of_nil (h : Short like s [] contents) : ∃ c, contents = [c] ∧ Hanging like s [] c := by
  cases h with
  | whole hlike inside waits frames =>
    have hend := inside.frameEnd_of_nil
    generalize hx : [] = x at inside
    cases inside with
    | within frame => cases hend
    | ending => exact absurd hx.symm frames.ne_nil
  | hanging hanging => exact ⟨_, rfl, hanging⟩

/-- A turn over input does something, and what it makes is owed. -/
theorem turn (hS : StrictDecoding like) (h : Short like s (t.offered ++ later) contents)
    (hturn : FeedTurn t) (hlead : t.Leads s s') :
    (t.taken ≠ [] ∨ t.made ≠ []) ∧ ∃ missing others, contents = (t.made ++ missing) :: others ∧
      (t.left = 0 → missing = [] ∧ Short like s' (t.rest ++ later) others) ∧
      (t.left ≠ 0 → Short like s' (t.rest ++ later) (missing :: others)) := by
  cases h with
  | @whole q partRead d rest c others state inside waits frames =>
    have hfollows := hS.follows state hturn.offered t.room
    rw [← hturn.directive] at hfollows
    obtain ⟨missing, hcontent, hzero, hmore, hactive⟩ := hfollows.inside inside hturn.room_pos hlead
    have hact : q.Active t.offered := by
      by_cases hend : q.frameEnd = true
      · exact .inl (waits hend)
      · exact .inr ⟨hturn.offered, by simpa using hend⟩
    refine ⟨(hactive hact).imp_right And.right, missing, others, by rw [hcontent], ?_, ?_⟩
    · intro hl
      obtain ⟨hmissing, hlike, hrest⟩ := hzero hl
      exact ⟨hmissing, .between hlike (hrest ▸ frames)⟩
    · intro hl
      obtain ⟨q', hlike, hinside, hwaits, -⟩ := hmore hl
      exact .whole hlike hinside hwaits frames
  | hanging hanging =>
    obtain ⟨hleft, hdoes, missing, hcontent, hanging'⟩ :=
      hanging.turn hS (.inl ⟨hturn.directive, hturn.offered⟩) hlead
    exact ⟨hdoes hturn.room_pos, missing, [], by rw [hcontent], fun hl => absurd hl hleft,
      fun _ => .hanging hanging'⟩

/-- A turn without input hands out something of the frame, and does not end it. -/
theorem drain (hS : StrictDecoding like) (h : Short like s [] contents) (hturn : DrainTurn t)
    (hlead : t.Leads s s') :
    t.left ≠ 0 ∧ t.made ≠ [] ∧ ∃ missing, contents = [t.made ++ missing] ∧
      Short like s' [] [missing] := by
  obtain ⟨c, rfl, hanging⟩ := h.of_nil
  obtain ⟨htaken, hrest⟩ : t.taken = [] ∧ t.rest = [] := List.append_eq_nil_iff.1 hturn.offered
  have hnil : t.offered ++ [] = [] := by rw [hturn.offered, List.nil_append]
  rw [← hnil] at hanging
  obtain ⟨hleft, hdoes, missing, rfl, hanging'⟩ :=
    hanging.turn hS (.inr ⟨hturn.directive, hnil⟩) hlead
  rw [hrest] at hanging'
  exact ⟨hleft, (hdoes hturn.room_pos).resolve_left fun h => h htaken, missing, rfl,
    .hanging hanging'⟩

end Short

/-- A strict frame decoder pays out what it owes in front of frames that are cut off, and then
complains. -/
theorem StrictDecoding.complains_short (hS : StrictDecoding like) : Complains (Short like) where
  accepts {s offered later contents room} := by
    intro howes hne hroom
    cases howes with
    | whole state inside waits frames => exact (hS.follows state hne room).result_ok inside
    | hanging hanging =>
      obtain ⟨q, partRead, hlike, hamid, -⟩ := hanging
      exact (hS.follows hlike hne room).result_of_amid hamid
  advances {s s' t later contents} := by
    intro howes hturn hlead
    exact (howes.turn hS hturn hlead).1
  proceeds {s s' t later contents} := by
    intro howes hturn hlead
    exact (howes.turn hS hturn hlead).2
  unended {s x contents} := by
    rintro ⟨⟩ <;> exact List.cons_ne_nil _ _
  finishes {s s' t contents} := by
    intro howes hturn hlead
    obtain ⟨hleft, hmade, missing, rfl, howes'⟩ := howes.drain hS hturn hlead
    exact ⟨missing, rfl, rfl, fun hl => absurd hl hleft, fun _ => ⟨hmade, howes'⟩⟩
  hangs {s s' t contents} := by
    intro howes hturn hlead
    exact (howes.drain hS hturn hlead).1
  breaks {s contents room failure} := by
    intro howes hroom hresult
    obtain ⟨c, rfl, q, partRead, hlike, hamid, hbegun⟩ := howes.of_nil
    obtain rfl := hbegun.resolve_right fun h => h rfl
    have hstep : Follows like true (Codec.step s [] room .finish) (q.go [] room 0 #[]) ∨ _ :=
      hS.complains hlike hamid.frameEnd_eq
    rcases hstep with hfollows | ⟨-, hlike'⟩
    · have hamid' : q.Amid ([] ++ []) c := hamid
      obtain ⟨left, hok⟩ := hfollows.result_of_amid hamid'
      rw [hresult] at hok
      cases hok
    · exact .hanging ⟨_, true, hlike', Queued.amid_new q.decoder, .inl rfl⟩

end Sluice
