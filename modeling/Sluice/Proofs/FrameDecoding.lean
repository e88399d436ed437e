import Sluice.Proofs.Delivery
import Sluice.Proofs.Frames

/-!
# Frame decoders

A codec that decodes frames byte by byte does, step by step, what a queue behind the automaton of
the format does. That is enough to know what it pays out.

* `Follows`, `Follows.inside` — a step that is a run of the queue, and what it does inside a frame.
* `FrameDecoding` — a codec that behaves like an automaton with a queue.
* `Unpaid` — what such a codec owes, between two frames and inside one.
* `FrameDecoding.honours` — it pays that out.
-/

namespace Sluice

variable {σ τ δ ε : Type} [Codec σ] [ByteDecoder δ]

/-! ## Behaving like a queue -/

/-- A step or a run that does what `run`, a run of the queue, does: it takes and makes the same, it
returns 0 in the same cases, and it fails in the same cases. -/
def Agrees (like : τ → Queued δ → Prop) (taken : Nat) (output : List UInt8) (state : τ)
    (result : Except ε Nat) (run : Run (Queued δ)) : Prop :=
  match run.result with
  | .error _ => ∃ failure, result = .error failure
  | .ok left =>
    taken = run.taken ∧ output = run.output ∧ like state run.state ∧
      ∃ number, result = .ok number ∧ (number = 0 ↔ left = 0)

omit [ByteDecoder δ] in
theorem Agrees.imp {like like' : τ → Queued δ → Prop} {taken : Nat} {output : List UInt8} {state : τ}
    {result : Except ε Nat} {run : Run (Queued δ)}
    (himp : ∀ left, run.result = .ok left → like state run.state → like' state run.state)
    (h : Agrees like taken output state result run) :
    Agrees like' taken output state result run := by
  unfold Agrees at h ⊢
  split at h
  · exact h
  · next left hleft =>
    obtain ⟨htaken, houtput, hlike, hnumber⟩ := h
    exact ⟨htaken, houtput, himp left hleft hlike, hnumber⟩

omit [ByteDecoder δ] in
/-- It does not fail if the run does not. -/
theorem Agrees.result_ok {like : τ → Queued δ → Prop} {taken : Nat} {output : List UInt8} {state : τ}
    {result : Except ε Nat} {run : Run (Queued δ)} {left : Nat}
    (h : Agrees like taken output state result run) (hrun : run.result = .ok left) :
    ∃ number, result = .ok number := by
  rw [Agrees, hrun] at h
  obtain ⟨-, -, -, number, hnumber, -⟩ := h
  exact ⟨number, hnumber⟩

/-- A codec step that does what a run of the queue does. A frame is part-read after it if some byte
of it has been taken and it has not ended. -/
def Follows (like : σ → Queued δ → Bool → Prop) (partRead : Bool) (step : Step σ)
    (run : Run (Queued δ)) : Prop :=
  Agrees (fun s q => like s q (run.result matches .ok (_ + 1) && (partRead || 0 < run.taken)))
    step.taken step.output step.state step.result run

omit [Codec σ] in
/-- A step that is a run of the queue from inside a frame does not fail. -/
theorem Follows.result_ok {like : σ → Queued δ → Bool → Prop} {step : Step σ} {q : Queued δ}
    {partRead : Bool} {u later c rest : List UInt8} {d' : δ} {room : Nat}
    (hfollows : Follows like partRead step (q.go u room 0 #[]))
    (hinside : q.Inside (u ++ later) c d' rest) : ∃ left, step.result = .ok left := by
  obtain ⟨count, left, made, missing, hhands, -⟩ := Queued.go_inside hinside room 0 #[]
  exact Agrees.result_ok hfollows hhands.result

omit [Codec σ] [ByteDecoder δ] in
/-- A step that is a run of the queue has the account of the run. -/
theorem Follows.of_account {like : σ → Queued δ → Bool → Prop} {step : Step σ} {partRead : Bool}
    {run : Run (Queued δ)} {unread : List UInt8} {room count left : Nat} {made : List UInt8}
    (hfollows : Follows like partRead step run)
    (haccount : Queued.Account run unread room 0 [] count left made) :
    step.taken = count ∧ step.output = made ∧
      like step.state run.state (left ≠ 0 && (partRead || 0 < count)) ∧
      ∃ number, step.result = .ok number ∧ (number = 0 ↔ left = 0) := by
  rw [Follows, Agrees, haccount.result] at hfollows
  obtain ⟨htaken, houtput, hlike, hnumber⟩ := hfollows
  have hcount : run.taken = count := haccount.taken.trans (Nat.zero_add count)
  refine ⟨htaken.trans hcount, houtput.trans haccount.output, ?_, hnumber⟩
  rw [hcount] at hlike
  cases left with
  | zero => exact hlike
  | succ left => simpa using hlike

omit [ByteDecoder δ] in
/-- A run that is a turn has not failed. -/
theorem Follows.exists_left {like : σ → Queued δ → Bool → Prop} {s s' : σ} {partRead : Bool}
    {t : Turn} {run : Run (Queued δ)}
    (hfollows : Follows like partRead (Codec.step s t.offered t.room t.directive) run)
    (h : t.Leads s s') : ∃ left, run.result = .ok left := by
  cases hresult : run.result with
  | ok left => exact ⟨left, rfl⟩
  | error text =>
    rw [Follows, Agrees, hresult] at hfollows
    obtain ⟨failure, hfails⟩ := hfollows
    rw [h.result] at hfails
    cases hfails

omit [ByteDecoder δ] in
/-- A turn that is a run of the queue takes and makes what the run does. -/
theorem Follows.turn {like : σ → Queued δ → Bool → Prop} {s s' : σ} {partRead : Bool} {t : Turn}
    {run : Run (Queued δ)} {count left : Nat} {made : List UInt8}
    (hfollows : Follows like partRead (Codec.step s t.offered t.room t.directive) run)
    (haccount : Queued.Account run t.offered t.room 0 [] count left made) (h : t.Leads s s') :
    (t.left = 0 ↔ left = 0) ∧ t.made = made ∧ t.rest = t.offered.drop count ∧
      (t.taken ≠ [] ↔ count ≠ 0) ∧ like s' run.state (left ≠ 0 && (partRead || t.taken ≠ [])) := by
  obtain ⟨htook, houtput, hlike, number, hnumber, hzero⟩ := hfollows.of_account haccount
  rw [h.state] at hlike
  have hle := haccount.count_le
  have hne : t.taken ≠ [] ↔ count ≠ 0 := by
    rw [h.taken, htook, ← List.length_pos_iff, List.length_take]
    omega
  refine ⟨?_, ?_, ?_, hne, ?_⟩
  · rw [h.result] at hnumber
    rw [← hzero, Except.ok.inj hnumber]
  · rw [h.made, houtput, List.take_of_length_le haccount.made_le]
  · rw [h.rest, htook]
  · rwa [decide_eq_decide.2 (Nat.pos_iff_ne_zero.trans hne.symm)] at hlike

/-- A turn that is a run of the queue from inside a frame: it makes the front of what is missing, and
ends the frame, or is inside it again and has stopped for lack of room or of input. If there is
anything to do, it takes something, or hands out something that has waited. -/
theorem Follows.inside {like : σ → Queued δ → Bool → Prop} {s s' : σ} {q : Queued δ}
    {partRead : Bool} {t : Turn} {later c rest : List UInt8} {d' : δ}
    (hfollows : Follows like partRead (Codec.step s t.offered t.room t.directive)
      (q.go t.offered t.room 0 #[]))
    (hinside : q.Inside (t.offered ++ later) c d' rest) (hroom : 0 < t.room) (h : t.Leads s s') :
    ∃ missing, c = t.made ++ missing ∧
      (t.left = 0 → missing = [] ∧ like s' (.new d') false ∧ t.rest ++ later = rest) ∧
      (t.left ≠ 0 → ∃ q', like s' q' (partRead || t.taken ≠ []) ∧
        q'.Inside (t.rest ++ later) missing d' rest ∧ (q'.frameEnd = true → q'.queue ≠ []) ∧
        (t.made.length = t.room ∨ q'.queue = [] ∧ t.rest = [])) ∧
      (q.Active t.offered → t.taken ≠ [] ∨ q.queue ≠ [] ∧ t.made ≠ []) := by
  obtain ⟨count, left, made, missing, hhands, hactive⟩ := Queued.go_inside hinside t.room 0 #[]
  obtain ⟨hleft, hmade, hrest, htook, hlike⟩ := hfollows.turn hhands.toAccount h
  refine ⟨missing, by rw [hmade, hhands.content], ?_, ?_, ?_⟩
  · intro hl
    obtain rfl := hleft.1 hl
    obtain ⟨hmissing, hstate, hafter⟩ := hhands.ended rfl
    rw [hstate] at hlike
    exact ⟨hmissing, hlike, hrest ▸ hafter⟩
  · intro hl
    have hne : left ≠ 0 := fun h => hl (hleft.2 h)
    obtain ⟨hmid, hwaits⟩ := hhands.inside hne
    rw [decide_eq_true hne, Bool.true_and] at hlike
    refine ⟨_, hlike, hrest ▸ hmid, hwaits, ?_⟩
    rw [hmade, hrest]
    exact hhands.stops hne
  · exact fun hact => (hactive hact hroom).imp htook.2 (hmade ▸ ·)

/-- A codec that behaves like an automaton with an output queue. With `like s q partRead`, the
codec in state `s` is where the queue `q` is, and a frame has been read in part or has not. -/
structure FrameDecoding (like : σ → Queued δ → Bool → Prop) : Prop where
  /-- over input, a step is a run of the queue -/
  proceed {s : σ} {q : Queued δ} {partRead : Bool} {unread : List UInt8} {room : Nat} :
    like s q partRead → unread ≠ [] → 0 < room →
      Follows like partRead (Codec.step s unread room .proceed) (q.go unread room 0 #[])
  /-- an end of the input is a run of the queue too, if the queue ends a frame or stays filled -/
  finish {s : σ} {q : Queued δ} {partRead : Bool} {room : Nat} :
    like s q partRead → 0 < room → q.frameEnd = true ∨ room < q.queue.length →
      Follows like partRead (Codec.step s [] room .finish) (q.go [] room 0 #[])
  /-- with nothing in the queue, the end is wrong inside a frame -/
  finish_within {s : σ} {d : δ} {room : Nat} : like s (.new d) true → 0 < room →
    ∃ failure, (Codec.step s [] room .finish).result = .error failure
  /-- and right between frames -/
  finish_between {s : σ} {d : δ} {room : Nat} : like s (.new d) false → 0 < room →
    (Codec.step s [] room .finish).result = .ok 0 ∧ (Codec.step s [] room .finish).output = [] ∧
      like (Codec.step s [] room .finish).state (.new d) false

/-! ## What a frame decoder owes -/

/-- What a frame decoder owes in front of whole frames, or of the rest of one and whole frames. -/
inductive Unpaid (like : σ → Queued δ → Bool → Prop) (s : σ) (x : List UInt8)
    (contents : List (List UInt8)) : Prop where
  | between {d d' : δ} (like : like s (.new d) false) (frames : Frames d x contents d')
  | midway {q : Queued δ} {partRead : Bool} (like : like s q partRead)
      (midway : q.Midway x contents) (waits : q.frameEnd = true → q.queue ≠ [])

namespace Unpaid

variable {like : σ → Queued δ → Bool → Prop} {s s' : σ} {x later : List UInt8}
  {contents : List (List UInt8)} {t : Turn}

omit [Codec σ] in
/-- With input in front of it, a decoder between frames can be said to be midway already. -/
theorem exists_midway (h : Unpaid like s x contents) (hx : x ≠ []) :
    ∃ q partRead, like s q partRead ∧ q.Midway x contents ∧
      (q.frameEnd = true → q.queue ≠ []) := by
  cases h with
  | @between d d' hlike frames =>
    obtain ⟨d₁, f, rest, c, others, rfl, rfl, first, hothers⟩ := frames.first hx
    have hmidway : Queued.Midway (.new d) (f ++ rest) (c :: others) := .within first hothers
    exact ⟨.new d, false, hlike, hmidway, fun hend => Bool.noConfusion hend⟩
  | midway hlike hmidway waits => exact ⟨_, _, hlike, hmidway, waits⟩

omit [Codec σ] in
/-- Without input, nothing is owed, or the rest of one frame that has been read completely. -/
theorem of_nil (h : Unpaid like s [] contents) :
    (∃ d, like s (.new d) false ∧ contents = []) ∨
      ∃ q partRead queue, like s q partRead ∧ q.Midway [] [queue] ∧ q.frameEnd = true ∧
        q.queue ≠ [] ∧ contents = [queue] := by
  cases h with
  | between hlike frames => exact .inl ⟨_, hlike, frames.contents_nil⟩
  | @midway q partRead hlike hmidway waits =>
    generalize hx : [] = x at hmidway
    cases hmidway with
    | within frame frames => exact absurd (List.append_eq_nil_iff.1 hx.symm).1 frame.ne_nil
    | @ending d d' queue x others frames =>
      subst hx
      obtain rfl := frames.contents_nil
      exact .inr ⟨_, _, queue, hlike, .ending frames, rfl, waits rfl, rfl⟩

/-- A turn that is a run of the queue pays out the front of what is owed. -/
theorem turn {q : Queued δ} {partRead : Bool} (hmidway : q.Midway (t.offered ++ later) contents)
    (hroom : 0 < t.room)
    (hfollows : Follows like partRead (Codec.step s t.offered t.room t.directive)
      (q.go t.offered t.room 0 #[])) (h : t.Leads s s') :
    ∃ missing others, contents = (t.made ++ missing) :: others ∧
      (t.left = 0 → missing = [] ∧ Unpaid like s' (t.rest ++ later) others) ∧
      (t.left ≠ 0 → Unpaid like s' (t.rest ++ later) (missing :: others)) ∧
      (q.Active t.offered → t.taken ≠ [] ∨ t.made ≠ []) := by
  obtain ⟨c, d₁, rest, others, d', rfl, hinside, hframes⟩ := hmidway.inside
  obtain ⟨missing, hcontent, hzero, hmore, hactive⟩ := hfollows.inside hinside hroom h
  refine ⟨missing, others, by rw [hcontent], ?_, ?_,
    fun hact => (hactive hact).imp_right And.right⟩
  · intro hleft
    obtain ⟨hmissing, hlike, hrest⟩ := hzero hleft
    exact ⟨hmissing, .between hlike (hrest ▸ hframes)⟩
  · intro hleft
    obtain ⟨q', hlike, hinside', hwaits, -⟩ := hmore hleft
    exact .midway hlike (hinside'.midway hframes) hwaits

end Unpaid

/-! ## Paying out -/

namespace FrameDecoding

variable {like : σ → Queued δ → Bool → Prop}

/-- A step that follows a run of the queue midway does not fail. -/
theorem result_of_follows {s : σ} {q : Queued δ} {partRead : Bool} {u later : List UInt8}
    {contents : List (List UInt8)} {room : Nat} {directive : Directive}
    (hmidway : q.Midway (u ++ later) contents)
    (h : Follows like partRead (Codec.step s u room directive) (q.go u room 0 #[])) :
    ∃ left, (Codec.step s u room directive).result = .ok left := by
  obtain ⟨c, d₁, rest, others, d', -, hinside, -⟩ := hmidway.inside
  exact h.result_ok hinside

/-- A frame decoder pays out what it owes. -/
theorem honours (hF : FrameDecoding like) : Honours (Unpaid like) where
  accepts {s offered later contents room} := by
    intro howes hne hroom
    obtain ⟨q, partRead, hlike, hmidway, -⟩ := howes.exists_midway (by simp [hne])
    exact result_of_follows hmidway (hF.proceed hlike hne hroom)
  advances {s s' t later contents} := by
    intro howes hturn hlead
    obtain ⟨q, partRead, hlike, hmidway, hwaits⟩ := howes.exists_midway (by simp [hturn.offered])
    have hfollows := hF.proceed hlike hturn.offered hturn.room_pos
    rw [← hturn.directive] at hfollows
    obtain ⟨missing, others, -, -, -, hactive⟩ :=
      Unpaid.turn hmidway hturn.room_pos hfollows hlead
    refine hactive ?_
    by_cases hend : q.frameEnd = true
    · exact .inl (hwaits hend)
    · exact .inr ⟨hturn.offered, by simpa using hend⟩
  proceeds {s s' t later contents} := by
    intro howes hturn hlead
    obtain ⟨q, partRead, hlike, hmidway, -⟩ := howes.exists_midway (by simp [hturn.offered])
    have hfollows := hF.proceed hlike hturn.offered hturn.room_pos
    rw [← hturn.directive] at hfollows
    obtain ⟨missing, others, hcontents, hzero, hmore, -⟩ :=
      Unpaid.turn hmidway hturn.room_pos hfollows hlead
    exact ⟨missing, others, hcontents, hzero, hmore⟩
  settles {s contents room} := by
    intro howes hroom
    rcases howes.of_nil with ⟨d, hlike, -⟩ | ⟨q, partRead, queue, hlike, hmidway, hend, -, -⟩
    · exact ⟨0, (hF.finish_between hlike hroom).1⟩
    · have hmidway' : q.Midway ([] ++ []) [queue] := hmidway
      exact result_of_follows hmidway' (hF.finish hlike hroom (.inl hend))
  finishes {s s' t contents} := by
    intro howes hturn hlead
    -- between frames nothing is owed, and midway the queue holds what is missing of the last frame
    rcases howes.of_nil with ⟨d, hlike, rfl⟩ |
      ⟨q, partRead, queue, hlike, hmidway, hend, hqueue, rfl⟩
    · obtain ⟨hresult, houtput, -⟩ := hF.finish_between hlike hturn.room_pos
      have hres := hlead.result
      have hmade := hlead.made
      rw [hturn.directive, hturn.offered] at hres hmade
      rw [hresult] at hres
      rw [houtput, List.take_nil] at hmade
      exact ⟨[], by simp [hmade], rfl, fun _ => rfl, fun hl => absurd (Except.ok.inj hres).symm hl⟩
    · have hfollows : Follows like partRead (Codec.step s t.offered t.room t.directive)
          (q.go t.offered t.room 0 #[]) := by
        rw [hturn.directive, hturn.offered]
        exact hF.finish hlike hturn.room_pos (.inl hend)
      have hmidway' : q.Midway (t.offered ++ []) [queue] := by
        rw [hturn.offered]
        exact hmidway
      obtain ⟨missing, others, hcontents, hzero, hmore, hactive⟩ :=
        Unpaid.turn hmidway' hturn.room_pos hfollows hlead
      obtain ⟨rfl, rfl⟩ := List.cons.inj hcontents
      have hoffered := hturn.offered
      rw [Turn.offered, List.append_eq_nil_iff] at hoffered
      obtain ⟨htaken, hrest⟩ := hoffered
      refine ⟨missing, rfl, rfl, fun hl => (hzero hl).1, fun hl => ⟨?_, ?_⟩⟩
      · exact (hactive (.inl hqueue)).resolve_left fun hne => hne htaken
      · have howes' := hmore hl
        rw [hrest] at howes'
        exact howes'

end FrameDecoding

end Sluice
