import Sluice.Deflate.Encoder
import Sluice.Proofs.ChunkRuns
import Sluice.Proofs.StoredData

/-!
# Flushing blocks of DEFLATE

The library that makes DEFLATE says how much it gives, and not whether that was all. So a flush goes on
until a step leaves some room. But a flush that finds nothing waiting adds another empty block, and
where such blocks fill one window after the other, it never comes to its end.

* `Deflate.Packer.SyncFlushes` — what the library does when it is asked for a flush, and there is no
  input.
* `Deflate.Packer.Settles` — steps after which a window is not full.
* `Deflate.Packer.settles_of_large`, `Deflate.Packer.settles_of_stop`, `Deflate.Packer.settles_of_none`,
  `Deflate.Packer.not_settles` — when there are such steps, and when not.
* `Writer.flush_settles`, `Writer.flush_never_settles`, `Chunker.flush_settles`,
  `Chunker.flush_never_settles` — they decide whether a flush returns.
* `Deflate.Encoder.syncFlushes` — the plain encoder is such a library.
* `Deflate.Packer.block_flushes` — all of it.
-/

namespace Sluice

namespace Deflate.Packer

section Library

variable {φ : Type} [Framer φ]

/-! ## The library -/

/-- What the library is asked for in each step of a flush. -/
abbrev sync (f : φ) (room : Nat) : Run φ := Framer.compress f [] room .flush

/-- What the library is relied on for when it is asked for a flush and there is no input. Its states
are `Kept`. Of each it is known how many bytes are `waiting` for room, and how many are `due` if they
are not: those of a block of what has been collected, and of an empty block. -/
structure SyncFlushes (Kept : φ → Prop) (waiting due : φ → Nat) (Marker : Nat → Prop) : Prop where
  succeeds {f : φ} {room : Nat} : Kept f → 0 < room →
    (∃ left, (sync f room).result = .ok left) ∧ Kept (sync f room).state
  /-- what waits is given first, as far as there is room -/
  gives {f : φ} {room : Nat} : Kept f → 0 < room → room ≤ waiting f →
    (sync f room).output.length = room ∧ waiting (sync f room).state = waiting f - room ∧
      due (sync f room).state = due f
  /-- behind it, there may be what is due, and there is if nothing waits; from then on an empty block is
  due -/
  goesOn {f : φ} {room : Nat} : Kept f → waiting f < room →
    0 < waiting f ∧ (sync f room).output.length = waiting f ∨
      (sync f room).output.length = min room (waiting f + due f) ∧
        waiting (sync f room).state = waiting f + due f - room ∧ Marker (due (sync f room).state)
  due_pos {f : φ} : Kept f → 0 < due f
  /-- the sizes of an empty block -/
  marker {count : Nat} : Marker count → 4 ≤ count ∧ count ≤ 10

/-- The library gives nothing behind what has been waiting: the next call does. -/
def Sparing (Kept : φ → Prop) (waiting : φ → Nat) : Prop :=
  ∀ {f : φ} {room : Nat}, Kept f → 0 < waiting f → waiting f < room →
    (sync f room).output.length = waiting f

/-- Steps of a flush, the first with room for `room` bytes and the others for `size`, all of which fill
their room but the last. -/
inductive Settles (size : Nat) : φ → Nat → Prop where
  | rest {f : φ} {room : Nat} (short : (sync f room).output.length < room) : Settles size f room
  | again {f : φ} {room : Nat} (full : room ≤ (sync f room).output.length)
    (later : Settles size (sync f room).state size) : Settles size f room

/-- So many bytes fill `room` bytes, and then windows of `size` bytes. -/
def FillsUp (size room count : Nat) : Prop := ∃ windows, count = room + size * windows

/-- How many bytes are given before anything is added to them. -/
def pending (waiting due : φ → Nat) (f : φ) : Nat := if waiting f = 0 then due f else waiting f

/-- The end of what is pending is the end of a window, and so is the end of what is due then. -/
def Fills (waiting due : φ → Nat) (size room : Nat) (f : φ) : Prop :=
  FillsUp size room (pending waiting due f) ∧ (waiting f ≠ 0 → size ∣ due f)

/-! ## Steps of a flush -/

section Arithmetic

variable {size room count : Nat}

theorem fillsUp_iff (h : room ≤ count) :
    FillsUp size room count ↔ count - room = 0 ∨ FillsUp size size (count - room) := by
  constructor
  · rintro ⟨windows, rfl⟩
    rw [Nat.add_sub_cancel_left]
    cases windows with
    | zero => exact .inl rfl
    | succ windows => exact .inr ⟨windows, by rw [Nat.mul_succ, Nat.add_comm]⟩
  · rintro (hzero | ⟨windows, hcount⟩)
    · exact ⟨0, by omega⟩
    · refine ⟨windows + 1, ?_⟩
      rw [Nat.mul_succ]
      omega

theorem fillsUp_self (h : 0 < count) : FillsUp size size count ↔ size ∣ count := by
  constructor
  · rintro ⟨windows, rfl⟩
    exact ⟨windows + 1, by rw [Nat.mul_succ, Nat.add_comm]⟩
  · rintro ⟨windows, rfl⟩
    cases windows with
    | zero => exact absurd h (Nat.lt_irrefl 0)
    | succ windows => exact ⟨windows, by rw [Nat.mul_succ, Nat.add_comm]⟩

end Arithmetic

namespace SyncFlushes

variable {Kept : φ → Prop} {waiting due : φ → Nat} {Marker : Nat → Prop} {size room : Nat} {f : φ}

theorem pending_pos (hL : SyncFlushes Kept waiting due Marker) (hf : Kept f) :
    0 < pending waiting due f := by
  unfold pending
  split
  · exact hL.due_pos hf
  · next h => exact Nat.pos_of_ne_zero h

/-- While more is pending than there is room for, it is given. -/
theorem full (hL : SyncFlushes Kept waiting due Marker) (hf : Kept f) (hroom : 0 < room)
    (hle : room ≤ pending waiting due f) :
    (sync f room).output.length = room ∧
      waiting (sync f room).state = pending waiting due f - room ∧
      (waiting f ≠ 0 → due (sync f room).state = due f) ∧
      (waiting f = 0 → Marker (due (sync f room).state)) := by
  unfold pending at hle ⊢
  by_cases hwaiting : waiting f = 0
  · rw [if_pos hwaiting] at hle ⊢
    rcases hL.goesOn hf (hwaiting ▸ hroom) with ⟨hpos, -⟩ | ⟨houtput, hstate, hmarker⟩
    · omega
    · exact ⟨by omega, by omega, fun hne => absurd hwaiting hne, fun _ => hmarker⟩
  · rw [if_neg hwaiting] at hle ⊢
    obtain ⟨houtput, hstate, hdue⟩ := hL.gives hf hroom hle
    exact ⟨houtput, hstate, fun _ => hdue, fun hzero => absurd hzero hwaiting⟩

/-- If less is pending than there is room for, some room is left. -/
theorem short (hL : SyncFlushes Kept waiting due Marker) (hS : Sparing Kept waiting) (hf : Kept f)
    (hlt : pending waiting due f < room) : (sync f room).output.length < room := by
  unfold pending at hlt
  by_cases hwaiting : waiting f = 0
  · rw [if_pos hwaiting] at hlt
    have hnone : waiting f < room := by omega
    rcases hL.goesOn hf hnone with ⟨hpos, -⟩ | ⟨houtput, -, -⟩
    · omega
    · omega
  · rw [if_neg hwaiting] at hlt
    rw [hS hf (Nat.pos_of_ne_zero hwaiting) hlt]
    exact hlt

/-! ## When a flush settles -/

/-- Steps that fill larger windows leave less and less to be given. -/
theorem settles_of_large (hL : SyncFlushes Kept waiting due Marker) (hsize : 10 < size) (hf : Kept f)
    (hroom : 0 < room) : Settles size f room := by
  have hwindow : ∀ {g : φ}, Kept g → Settles size g size := by
    intro g hg
    -- on what waits and what is due: an empty block is smaller than the window that it follows
    induction hn : waiting g + due g using Nat.strongRecOn generalizing g with
    | _ n ih =>
      have hpos : 0 < size := by omega
      obtain ⟨-, hkept⟩ := hL.succeeds hg hpos
      rcases Nat.lt_or_ge (sync g size).output.length size with hshort | hfull
      · exact .rest hshort
      · refine .again hfull (ih _ ?_ hkept rfl)
        rcases Nat.lt_or_ge (waiting g) size with hlt | hle
        · rcases hL.goesOn hg hlt with ⟨-, houtput⟩ | ⟨houtput, hwaiting, hmarker⟩
          · omega
          · have hbound := hL.marker hmarker
            omega
        · obtain ⟨-, hwaiting, hdue⟩ := hL.gives hg (by omega) hle
          omega
  rcases Nat.lt_or_ge (sync f room).output.length room with hshort | hfull
  · exact .rest hshort
  · exact .again hfull (hwindow (hL.succeeds hf hroom).2)

/-- What is pending ends in the middle of a window. -/
theorem settles_of_stop (hL : SyncFlushes Kept waiting due Marker) (hS : Sparing Kept waiting)
    (hsize : 0 < size) (hf : Kept f) (hroom : 0 < room)
    (hstop : ¬ FillsUp size room (pending waiting due f)) : Settles size f room := by
  induction hn : pending waiting due f using Nat.strongRecOn generalizing f room with
  | _ n ih =>
    rcases Nat.lt_or_ge (pending waiting due f) room with hlt | hle
    · exact .rest (hL.short hS hf hlt)
    · obtain ⟨houtput, hwaiting, -, -⟩ := hL.full hf hroom hle
      rw [fillsUp_iff hle, not_or] at hstop
      have hpending : pending waiting due (sync f room).state = pending waiting due f - room := by
        rw [pending, hwaiting, if_neg hstop.1]
      refine .again (Nat.le_of_eq houtput.symm) (ih _ ?_ (hL.succeeds hf hroom).2 hsize ?_ rfl)
      · omega
      · rw [hpending]
        exact hstop.2

/-- Whatever is pending, either the flush settles, or there comes a state in which nothing waits. -/
theorem settles_or_drains (hL : SyncFlushes Kept waiting due Marker) (hS : Sparing Kept waiting)
    (hsize : 0 < size) (hf : Kept f) (hroom : 0 < room) :
    Settles size f room ∨ ∃ g, Kept g ∧ waiting g = 0 ∧ (waiting f ≠ 0 → due g = due f) ∧
      (waiting f = 0 → Marker (due g)) ∧ (Settles size g size → Settles size f room) := by
  induction hn : pending waiting due f using Nat.strongRecOn generalizing f room with
  | _ n ih =>
    rcases Nat.lt_or_ge (pending waiting due f) room with hlt | hle
    · exact .inl (.rest (hL.short hS hf hlt))
    · obtain ⟨houtput, hwaiting, hdue, hmarker⟩ := hL.full hf hroom hle
      have hkept := (hL.succeeds hf hroom).2
      have hagain : Settles size (sync f room).state size → Settles size f room :=
        .again (Nat.le_of_eq houtput.symm)
      by_cases hzero : pending waiting due f - room = 0
      · exact .inr ⟨_, hkept, hwaiting.trans hzero, hdue, hmarker, hagain⟩
      · have hne : waiting (sync f room).state ≠ 0 := hwaiting ▸ hzero
        have hpending : pending waiting due (sync f room).state =
            pending waiting due f - room := by
          rw [pending, if_neg hne, hwaiting]
        rcases ih _ (by omega) hkept hsize rfl with hsettles | ⟨g, hg, hdrained, hsame, -, hlater⟩
        · exact .inl (hagain hsettles)
        · refine .inr ⟨g, hg, hdrained, fun h => (hsame hne).trans (hdue h),
            fun h => ?_, fun h => hagain (hlater h)⟩
          rw [hsame hne]
          exact hmarker h

/-- Where nothing waits, and what is due ends in the middle of a window. -/
theorem settles_of_due (hL : SyncFlushes Kept waiting due Marker) (hS : Sparing Kept waiting)
    (hsize : 0 < size) (hf : Kept f) (hwaiting : waiting f = 0) (hdue : ¬ size ∣ due f) :
    Settles size f size := by
  refine hL.settles_of_stop hS hsize hf hsize ?_
  rwa [pending, if_pos hwaiting, fillsUp_self (hL.due_pos hf)]

/-- What is pending and due does not end with a window. -/
theorem settles_of_not_fills (hL : SyncFlushes Kept waiting due Marker) (hS : Sparing Kept waiting)
    (hsize : 0 < size) (hf : Kept f) (hroom : 0 < room) (hstop : ¬ Fills waiting due size room f) :
    Settles size f room := by
  by_cases hfills : FillsUp size room (pending waiting due f)
  · have hdue : ¬ (waiting f ≠ 0 → size ∣ due f) := fun h => hstop ⟨hfills, h⟩
    obtain ⟨hwaiting, hdue⟩ := Classical.not_imp.1 hdue
    rcases hL.settles_or_drains hS hsize hf hroom with h | ⟨g, hg, hdrained, hsame, -, hlater⟩
    · exact h
    · exact hlater (hL.settles_of_due hS hsize hg hdrained (hsame hwaiting ▸ hdue))
  · exact hL.settles_of_stop hS hsize hf hroom hfills

/-- No empty block ends with a window. -/
theorem settles_of_none (hL : SyncFlushes Kept waiting due Marker) (hS : Sparing Kept waiting)
    (hsize : 0 < size) (hnone : ∀ count, Marker count → ¬ size ∣ count) (hf : Kept f)
    (hroom : 0 < room) : Settles size f room := by
  rcases hL.settles_or_drains hS hsize hf hroom with h | ⟨g, hg, hdrained, -, -, hlater⟩
  · exact h
  · refine hlater ?_
    rcases hL.settles_or_drains hS hsize hg hsize with h | ⟨g', hg', hdrained', -, hmarker, hlater'⟩
    · exact h
    · exact hlater' (hL.settles_of_due hS hsize hg' hdrained' (hnone _ (hmarker hdrained)))

/-- All empty blocks end with a window, and so does what is in front of them. -/
theorem not_settles (hL : SyncFlushes Kept waiting due Marker) (hsize : 0 < size)
    (hall : ∀ count, Marker count → size ∣ count) (hf : Kept f) (hroom : 0 < room)
    (hfills : Fills waiting due size room f) : ¬ Settles size f room := by
  intro h
  induction h with
  | @rest f room hshort =>
    obtain ⟨⟨windows, hpending⟩, -⟩ := hfills
    obtain ⟨houtput, -⟩ := hL.full hf hroom (hpending ▸ Nat.le_add_right ..)
    omega
  | @again f room hfull later ih =>
    obtain ⟨hfillsUp, hends⟩ := hfills
    have hle : room ≤ pending waiting due f := by
      obtain ⟨windows, hpending⟩ := hfillsUp
      exact hpending ▸ Nat.le_add_right ..
    obtain ⟨-, hwaiting, hdue, hmarker⟩ := hL.full hf hroom hle
    have hkept := (hL.succeeds hf hroom).2
    have hends' : size ∣ due (sync f room).state := by
      by_cases hzero : waiting f = 0
      · exact hall _ (hmarker hzero)
      · exact hdue hzero ▸ hends hzero
    refine ih hkept hsize ⟨?_, fun _ => hends'⟩
    rw [pending, hwaiting]
    split
    · exact (fillsUp_self (hL.due_pos hkept)).2 hends'
    · next hne => exact ((fillsUp_iff hle).1 hfillsUp).resolve_left hne

end SyncFlushes

/-- A step of a flush asks the library once, and tells from its output whether to go on. -/
theorem step_flush {p : Packer φ} {room left : Nat}
    (h : (sync p.framer room).result = .ok left) :
    Codec.step p [] room .flush = ⟨(sync p.framer room).taken, (sync p.framer room).output,
      ⟨(sync p.framer room).state, true⟩,
      .ok (if room ≤ (sync p.framer room).output.length then 1 else 0)⟩ := by
  change Packer.step p [] room .flush = _
  rw [Packer.step, if_neg (by simp)]
  simp only [h, List.drop_nil, List.isEmpty_nil, Bool.not_true, Bool.false_or, decide_eq_true_eq]

end Library

end Deflate.Packer

variable {φ : Type} [Framer φ] {Kept : φ → Prop} {waiting due : φ → Nat} {Marker : Nat → Prop}
  {size limit : Nat} {f : φ}

open Deflate (Packer)
open Deflate.Packer (sync SyncFlushes Settles)

/-- A loop with one step more answers what it answers later. -/
theorem eq_of_succ_le {α : Type} {run : Nat → α} {answer : α} {enough : Nat}
    (h : ∀ limit, enough ≤ limit → run (limit + 1) = answer) :
    ∀ limit, enough + 1 ≤ limit → run limit = answer := by
  intro limit hle
  cases limit with
  | zero => exact absurd hle (Nat.not_succ_le_zero enough)
  | succ limit => exact h limit (Nat.le_of_succ_le_succ hle)

/-! ## Writers -/

namespace Writer

/-- The condition on which a flush is over. -/
abbrev emptied : Done := fun left _ _ => left == 0

/-- After a step of a flush, the sink has failed, or the library decides whether to go on. -/
theorem run_flush_step {flow : Flow (Packer φ)} {left : Nat} (hinput : flow.input.unread = [])
    (hresult : (sync flow.codec.framer size).result = .ok left) :
    (¬ flow.sink.Steady ∧ ∃ answer, ∀ limit,
      Flow.run size .flush emptied (limit + 1) flow = answer) ∨
    ∃ flow' : Flow (Packer φ), flow'.codec.framer = (sync flow.codec.framer size).state ∧
      flow'.input.unread = [] ∧ (flow.sink.Steady → flow'.sink.Steady) ∧
      ∀ limit, Flow.run size .flush emptied (limit + 1) flow =
        if size ≤ (sync flow.codec.framer size).output.length then
          Flow.run size .flush emptied limit flow'
        else (.ok (), flow') := by
  have hstep := Packer.step_flush hresult
  have hres : (drive flow.codec flow.input (.fresh size) .flush).result =
      .ok (if size ≤ (sync flow.codec.framer size).output.length then 1 else 0) := by
    rw [drive, hinput, Window.spare_fresh, hstep]
  rcases hwrite : flow.sink.writeAll
    (drive flow.codec flow.input (.fresh size) .flush).window.written.toList with
    ⟨error | ⟨⟩, sink⟩
  · left
    refine ⟨fun hsteady => ?_, (.error (.ofIo error),
      ⟨(drive flow.codec flow.input (.fresh size) .flush).codec, sink,
        (drive flow.codec flow.input (.fresh size) .flush).input, flow.pushed⟩), fun limit => ?_⟩
    · obtain ⟨sink', hok, -⟩ := hsteady.writeAll_ok
        (drive flow.codec flow.input (.fresh size) .flush).window.written.toList
      rw [hwrite] at hok
      cases hok
    · rw [Flow.run]
      simp only [hres, hwrite]
  · right
    refine ⟨⟨(drive flow.codec flow.input (.fresh size) .flush).codec, sink,
      (drive flow.codec flow.input (.fresh size) .flush).input,
      flow.pushed + (drive flow.codec flow.input (.fresh size) .flush).window.pos⟩, ?_, ?_,
      fun hsteady => ?_, fun limit => ?_⟩
    · rw [drive, hinput, Window.spare_fresh, hstep]
    · rw [drive_input, Input.unread_advance, hinput, List.drop_nil]
    · obtain ⟨sink', hok, hsteady'⟩ := hsteady.writeAll_ok
        (drive flow.codec flow.input (.fresh size) .flush).window.written.toList
      rw [hwrite] at hok
      cases hok
      exact hsteady'
    · rw [Flow.run]
      simp only [hres, hwrite]
      split <;> simp [emptied]

/-- A flush that settles comes to its end, after some number of steps, unless the sink fails before. -/
theorem run_settles (flow : Flow (Packer φ)) {room : Nat} (hL : SyncFlushes Kept waiting due Marker)
    (hsize : 0 < size) (h : Settles size f room) (hroom : room = size) (hf : Kept f)
    (hframer : flow.codec.framer = f)
    (hinput : flow.input.unread = []) :
    ∃ enough answer, (∀ limit, enough ≤ limit →
        Flow.run size .flush emptied limit flow = answer) ∧
      (flow.sink.Steady → answer.1 = .ok () ∧ answer.2.sink.Steady) := by
  induction h generalizing flow with
  | @rest f room hshort =>
    subst hframer hroom
    obtain ⟨⟨left, hresult⟩, -⟩ := hL.succeeds hf hsize
    rcases run_flush_step hinput hresult with
      ⟨hfails, answer, hanswer⟩ | ⟨flow', -, -, hsteady, hrun⟩
    · exact ⟨0 + 1, answer, eq_of_succ_le fun limit _ => hanswer limit,
        fun h => absurd h hfails⟩
    · refine ⟨0 + 1, (.ok (), flow'), eq_of_succ_le fun limit _ => ?_,
        fun h => ⟨rfl, hsteady h⟩⟩
      rw [hrun, if_neg (Nat.not_le_of_lt hshort)]
  | @again f room hfull later ih =>
    subst hframer hroom
    obtain ⟨⟨left, hresult⟩, hkept⟩ := hL.succeeds hf hsize
    rcases run_flush_step hinput hresult with
      ⟨hfails, answer, hanswer⟩ | ⟨flow', hframer', hinput', hsteady, hrun⟩
    · exact ⟨0 + 1, answer, eq_of_succ_le fun limit _ => hanswer limit,
        fun h => absurd h hfails⟩
    · obtain ⟨enough, answer, hanswer, hok⟩ := ih flow' rfl hkept hframer' hinput'
      refine ⟨enough + 1, answer, eq_of_succ_le fun limit hle => ?_, fun h => hok (hsteady h)⟩
      rw [hrun, if_pos hfull]
      exact hanswer limit hle

/-- A flush that does not settle goes on as long as the sink does. -/
theorem run_never_settles (flow : Flow (Packer φ)) (hL : SyncFlushes Kept waiting due Marker)
    (hsize : 0 < size) (hf : Kept flow.codec.framer) (hinput : flow.input.unread = [])
    (hsink : flow.sink.Steady)
    (h : ¬ Settles size flow.codec.framer size) (limit : Nat) :
    (Flow.run size .flush emptied limit flow).1 = .error .stepLimit := by
  induction limit generalizing flow with
  | zero => rfl
  | succ limit ih =>
    obtain ⟨⟨left, hresult⟩, hkept⟩ := hL.succeeds hf hsize
    rcases run_flush_step hinput hresult with
      ⟨hfails, -⟩ | ⟨flow', hframer', hinput', hsteady, hrun⟩
    · exact absurd hsink hfails
    · rcases Nat.lt_or_ge (sync flow.codec.framer size).output.length size with hshort | hfull
      · exact absurd (.rest hshort) h
      · rw [hrun, if_pos hfull]
        refine ih flow' (hframer' ▸ hkept) hinput' (hsteady hsink) fun hlater => h (.again hfull ?_)
        exact hframer' ▸ hlater

section Flush

variable {w : Writer (Packer φ)} {p : Packer φ} {k : Sink}

/-- What a flush makes of the run of its steps. -/
def afterRun (w : Writer (Packer φ)) : Except Failure Unit × Flow (Packer φ) →
    Except Failure Nat × Writer (Packer φ)
  | (.error failure, flow) => (.error failure,
    { w with codec := .live flow.codec, sink := some flow.sink,
             emitted := w.emitted + flow.pushed : Writer (Packer φ) }.release)
  | (.ok (), flow) =>
    match flow.sink.flush with
    | (.ok (), sink) => (.ok flow.pushed, { w with
        codec := .live flow.codec, sink := some sink, emitted := w.emitted + flow.pushed })
    | (.error error, sink) => (.error (.ofIo error), { w with
        codec := .live flow.codec, sink := some sink, emitted := w.emitted + flow.pushed })

theorem Live.flush_block (h : w.Live size p k) (hdirection : w.direction = .compressing)
    (limit : Nat) : w.flush limit .block =
      w.afterRun (Flow.run size .flush emptied limit ⟨p, k, .ofList [], 0⟩) := by
  rw [Writer.flush, h.phase, hdirection]
  simp only [Phase.require, Writer.finishStep, FlushMode.directive, h.pump_eq]
  rcases Flow.run size .flush emptied limit ⟨p, k, .ofList [], 0⟩ with ⟨failure | ⟨⟩, flow⟩
  · rfl
  · simp only [Except.map, Writer.fail, Writer.flushSink, afterRun]
    rcases flow.sink.flush with ⟨error | ⟨⟩, sink⟩ <;> rfl

/-- A flush that settles is answered, and steady sinks get everything. -/
theorem flush_settles (hL : SyncFlushes Kept waiting due Marker) (hsize : 0 < size)
    (hlive : w.Live size p k) (hdirection : w.direction = .compressing) (hp : Kept p.framer)
    (h : Settles size p.framer size) :
    ∃ enough answer, (∀ limit, enough ≤ limit → w.flush limit .block = answer) ∧
      (k.Steady → ∃ pushed, answer.1 = .ok pushed) := by
  obtain ⟨enough, answer, hanswer, hok⟩ :=
    run_settles ⟨p, k, .ofList [], 0⟩ hL hsize h rfl hp rfl rfl
  refine ⟨enough, w.afterRun answer, fun limit hle => ?_, fun hsteady => ?_⟩
  · rw [hlive.flush_block hdirection, hanswer limit hle]
  · obtain ⟨hresult, hsteady'⟩ := hok hsteady
    obtain ⟨result, flow⟩ := answer
    obtain rfl : result = .ok () := hresult
    obtain ⟨sink, hflush, -⟩ := Sink.Steady.flush_ok (s := flow.sink) hsteady'
    exact ⟨flow.pushed, by rw [afterRun, hflush]⟩

/-- A flush that does not settle is never answered, as long as the sink accepts everything. -/
theorem flush_never_settles (hL : SyncFlushes Kept waiting due Marker) (hsize : 0 < size)
    (hlive : w.Live size p k) (hdirection : w.direction = .compressing) (hp : Kept p.framer)
    (hsteady : k.Steady) (h : ¬ Settles size p.framer size) (limit : Nat) :
    (w.flush limit .block).1 = .error .stepLimit := by
  have hrun := run_never_settles ⟨p, k, .ofList [], 0⟩ hL hsize hp rfl hsteady h limit
  rw [hlive.flush_block hdirection]
  generalize Flow.run size .flush emptied limit ⟨p, k, .ofList [], 0⟩ = answer at hrun ⊢
  obtain ⟨result, flow⟩ := answer
  obtain rfl : result = .error .stepLimit := hrun
  rfl

end Flush

end Writer

/-! ## Chunkers -/

namespace Chunker

variable {c : Chunker (Packer φ)}

/-- After a step of a flush the chunk is full, and the next one is begun, or the flush is over. -/
theorem run_flush_step {input : Input} (chunks : Array (List UInt8)) {left : Nat}
    (hinput : input.unread = [])
    (hresult : (sync c.codec.framer c.chunk.spare).result = .ok left) :
    ∃ (c₁ c₂ : Chunker (Packer φ)) (input' : Input) (chunks' : Array (List UInt8)),
      c₁.codec.framer = (sync c.codec.framer c.chunk.spare).state ∧ c₁.size = c.size ∧
      c₁.chunk.spare = c.size ∧ input'.unread = [] ∧
      ∀ limit, c.run .flush (fun left _ => left == 0) (limit + 1) input chunks =
        if c.chunk.spare ≤ (sync c.codec.framer c.chunk.spare).output.length then
          c₁.run .flush (fun left _ => left == 0) limit input' chunks'
        else (.ok chunks, c₂) := by
  have hstep := Packer.step_flush hresult
  have hres : (drive c.codec input c.chunk .flush).result =
      .ok (if c.chunk.spare ≤ (sync c.codec.framer c.chunk.spare).output.length then 1 else 0) := by
    rw [drive, hinput, hstep]
  have hfull : (drive c.codec input c.chunk .flush).window.isFull =
      decide (c.chunk.spare ≤ (sync c.codec.framer c.chunk.spare).output.length) := by
    rw [drive_window, Window.isFull, Window.spare_put, hinput, hstep, Bool.eq_iff_iff, beq_iff_eq,
      decide_eq_true_iff, Nat.sub_eq_zero_iff_le]
  refine ⟨{ c with codec := (drive c.codec input c.chunk .flush).codec, chunk := .fresh c.size },
    { c with
      codec := (drive c.codec input c.chunk .flush).codec
      chunk := (drive c.codec input c.chunk .flush).window },
    (drive c.codec input c.chunk .flush).input,
    chunks.push (drive c.codec input c.chunk .flush).window.written.toList, ?_, rfl, rfl, ?_,
    fun limit => ?_⟩
  · rw [drive, hinput, hstep]
  · rw [drive_input, Input.unread_advance, hinput, List.drop_nil]
  · rw [run]
    simp only [hres, hfull, decide_eq_true_eq]
    split <;> simp

/-- A flush that settles comes to its end. -/
theorem run_settles (input : Input) (chunks : Array (List UInt8)) {room : Nat}
    (hL : SyncFlushes Kept waiting due Marker) (hsize : 0 < size)
    (h : Settles size f room) (hroom : 0 < room) (hf : Kept f) (hframer : c.codec.framer = f)
    (hspare : c.chunk.spare = room) (hc : c.size = size) (hinput : input.unread = []) :
    ∃ enough chunks' c', ∀ limit, enough ≤ limit →
      c.run .flush (fun left _ => left == 0) limit input chunks = (.ok chunks', c') := by
  induction h generalizing c input chunks with
  | @rest f room hshort =>
    subst hframer hspare
    obtain ⟨⟨left, hresult⟩, -⟩ := hL.succeeds hf hroom
    obtain ⟨c₁, c₂, input', chunks', -, -, -, -, hrun⟩ :=
      run_flush_step chunks hinput hresult
    refine ⟨0 + 1, chunks, c₂, eq_of_succ_le fun limit _ => ?_⟩
    rw [hrun, if_neg (Nat.not_le_of_lt hshort)]
  | @again f room hfull later ih =>
    subst hframer hspare hc
    obtain ⟨⟨left, hresult⟩, hkept⟩ := hL.succeeds hf hroom
    obtain ⟨c₁, c₂, input', chunks', hframer', hsize', hspare', hinput', hrun⟩ :=
      run_flush_step chunks hinput hresult
    obtain ⟨enough, out, c', hout⟩ :=
      ih input' chunks' hsize hkept hframer' hspare' hsize' hinput'
    refine ⟨enough + 1, out, c', eq_of_succ_le fun limit hle => ?_⟩
    rw [hrun, if_pos hfull]
    exact hout limit hle

/-- A flush that does not settle goes on for ever. -/
theorem run_never_settles (input : Input) (chunks : Array (List UInt8))
    (hL : SyncFlushes Kept waiting due Marker) (hsize : 0 < size) (hc : c.size = size)
    (hroom : 0 < c.chunk.spare) (hf : Kept c.codec.framer) (hinput : input.unread = [])
    (h : ¬ Settles size c.codec.framer c.chunk.spare) (limit : Nat) :
    (c.run .flush (fun left _ => left == 0) limit input chunks).1 = .error .stepLimit := by
  induction limit generalizing c input chunks with
  | zero => rfl
  | succ limit ih =>
    subst hc
    obtain ⟨⟨left, hresult⟩, hkept⟩ := hL.succeeds hf hroom
    obtain ⟨c₁, c₂, input', chunks', hframer', hsize', hspare', hinput', hrun⟩ :=
      run_flush_step chunks hinput hresult
    rcases Nat.lt_or_ge (sync c.codec.framer c.chunk.spare).output.length c.chunk.spare with
      hshort | hfull
    · exact absurd (.rest hshort) h
    · rw [hrun, if_pos hfull]
      refine ih input' chunks' hsize' (hspare' ▸ hsize) (hframer' ▸ hkept) hinput' fun hlater =>
        h (.again hfull ?_)
      rwa [hframer', hspare'] at hlater

/-- Between two calls, a flush that settles is answered. -/
theorem flush_settles (hL : SyncFlushes Kept waiting due Marker) (hc : Tidy size c)
    (hopen : c.finished = false) (hp : Kept c.codec.framer)
    (h : Settles size c.codec.framer c.chunk.spare) :
    ∃ enough out c', ∀ limit, enough ≤ limit → c.flush limit = (.ok out, c') := by
  obtain ⟨enough, chunks, c₁, hrun⟩ := run_settles .empty #[] hL
    (hc.sized ▸ hc.size_pos) h hc.room hp rfl rfl hc.sized rfl
  refine ⟨enough, (c₁.takePartial chunks).1, (c₁.takePartial chunks).2, fun limit hle => ?_⟩
  simp only [flush, requireOpen, hopen, Bool.false_eq_true, if_false, empty, hrun limit hle]

/-- One that does not settle is never answered. -/
theorem flush_never_settles (hL : SyncFlushes Kept waiting due Marker) (hc : Tidy size c)
    (hopen : c.finished = false) (hp : Kept c.codec.framer)
    (h : ¬ Settles size c.codec.framer c.chunk.spare) (limit : Nat) :
    (c.flush limit).1 = .error .stepLimit := by
  have hrun := run_never_settles .empty #[] hL (hc.sized ▸ hc.size_pos)
    hc.sized hc.room hp rfl h limit
  simp only [flush, requireOpen, hopen, Bool.false_eq_true, if_false, empty]
  generalize c.run .flush (fun left _ => left == 0) limit .empty #[] = answer at hrun ⊢
  obtain ⟨result, c₁⟩ := answer
  obtain rfl : result = .error .stepLimit := hrun
  rfl

end Chunker

/-! ## The plain encoder -/

namespace Deflate

theorem length_packBits (bits : List Bool) (acc : Array UInt8) :
    (packBits bits acc).1.length = acc.size + bits.length / 8 := by
  fun_induction packBits bits acc with
  | case1 acc a b c d e f g h rest ih =>
    rw [ih]
    simp only [Array.size_push, List.length_cons]
    omega
  | case2 bits acc hshort =>
    have hlt : bits.length < 8 := by
      refine Nat.lt_of_not_le fun hle => ?_
      obtain ⟨front, rest, rfl, hfront⟩ : ∃ front rest, bits = front ++ rest ∧ front.length = 8 :=
        ⟨bits.take 8, bits.drop 8, (List.take_append_drop 8 bits).symm, List.length_take_of_le hle⟩
      match front, hfront with
      | [a, b, c, d, e, f, g, h], _ => exact hshort a b c d e f g h rest rfl
    rw [Nat.div_eq_of_lt hlt]
    rfl

/-- In nothing, there are no repeats. -/
theorem bits_fixedBlock_empty (last : Bool) :
    fixedBlock .empty last = last :: true :: false :: fixedWord endOfBlock := by
  have hnone : Repeat.all repeatRule .empty = [] := by
    rw [Repeat.all, Repeat.search, dif_neg (by decide)]
  have htokens : tokenBits .empty 0 [] = [] := by simp [tokenBits, literalBits]
  rw [fixedBlock, hnone, htokens]
  rfl

namespace Encoder

/-- What a flush makes. -/
def flushed (e : Encoder) : List UInt8 := (packBits (storedBlock (e.blockBits false) [] false) #[]).1

/-- The lengths at the end of a stored block alone are four bytes. -/
theorem flushed_pos (e : Encoder) : 0 < e.flushed.length := by
  have hbits : 32 ≤ (storedBlock (e.blockBits false) [] false).length := by
    simp only [storedBlock, lowBits, List.length_append, List.length_map, List.length_range]
    omega
  rw [flushed, length_packBits]
  omega

/-- The size of an empty block: two stored ones, or one in the fixed code and a stored one. -/
def markerSize (plain : Bool) : Nat := if plain then 10 else 6

theorem length_flushed_empty (plain ended : Bool) :
    (flushed ⟨plain, [], .empty, ended⟩).length = markerSize plain := by
  rw [flushed, length_packBits]
  cases plain with
  | true =>
    simp only [blockBits, if_true, ByteArray.toList_empty]
    rfl
  | false =>
    have hbits : blockBits ⟨false, [], .empty, ended⟩ false =
        false :: true :: false :: fixedWord endOfBlock := bits_fixedBlock_empty false
    rw [hbits]
    decide

/-- The state behind a flush. -/
def empty (e : Encoder) : Encoder := { e with bits := [], block := .empty }

section Outgoing

variable {o : Outgoing Encoder} {room : Nat}

theorem run_nil (o : Outgoing Encoder) (room : Nat) :
    o.run [] room = ⟨0, o.queue.take room, ⟨o.encoder, o.queue.drop room⟩, .ok 1⟩ := by
  simp [Outgoing.run, Outgoing.go, ByteEncoder.begin]

/-- The library in a flush without input. -/
theorem sync_eq (o : Outgoing Encoder) (room : Nat) :
    Packer.sync o room = if (o.queue.take room).isEmpty then
      o.runThen [] room ByteEncoder.flush else o.run [] room := by
  simp only [Packer.sync, Framer.compress, run_nil, List.isEmpty_nil, Bool.true_and]
  cases (o.queue.take room).isEmpty <;> rfl

/-- While something waits, that is all that is given. -/
theorem sync_waiting (hroom : 0 < room) (h : o.queue ≠ []) :
    Packer.sync o room = ⟨0, o.queue.take room, ⟨o.encoder, o.queue.drop room⟩, .ok 1⟩ := by
  have hready : (o.queue.take room).isEmpty = false := by
    rw [List.isEmpty_eq_false_iff]
    exact fun hnil => h ((List.take_eq_nil_iff.1 hnil).resolve_left (Nat.ne_of_gt hroom))
  rw [sync_eq, hready, if_neg Bool.false_ne_true, run_nil]

/-- When nothing does, a block is made. -/
theorem sync_idle (h : o.queue = []) :
    Packer.sync o room = ⟨0, o.encoder.flushed.take room,
      ⟨o.encoder.empty, o.encoder.flushed.drop room⟩,
      .ok (if (o.encoder.flushed.drop room).isEmpty then 0 else 1)⟩ := by
  have hflush : (⟨o.encoder, []⟩ : Outgoing Encoder).empty room ByteEncoder.flush =
      ⟨0, o.encoder.flushed.take room, ⟨o.encoder.empty, o.encoder.flushed.drop room⟩,
        .ok (if (o.encoder.flushed.drop room).isEmpty then 0 else 1)⟩ := by
    simp [Outgoing.empty, ByteEncoder.flush, flush, flushed, empty]
  rw [sync_eq, Outgoing.runThen, run_nil]
  simp [h, hflush]

end Outgoing

/-- The plain encoder with its queue is such a library, in every state. -/
theorem syncFlushes (plain : Bool) :
    SyncFlushes (fun o : Outgoing Encoder => o.encoder.plain = plain) (fun o => o.queue.length)
      (fun o => o.encoder.flushed.length) (fun count => count = markerSize plain) where
  succeeds {o room} hplain hroom := by
    by_cases hqueue : o.queue = []
    · rw [sync_idle hqueue]
      exact ⟨⟨_, rfl⟩, hplain⟩
    · rw [sync_waiting hroom hqueue]
      exact ⟨⟨_, rfl⟩, hplain⟩
  gives {o room} hplain hroom hle := by
    rw [sync_waiting hroom (List.ne_nil_of_length_pos (Nat.lt_of_lt_of_le hroom hle))]
    exact ⟨List.length_take_of_le hle, List.length_drop, rfl⟩
  goesOn {o room} hplain hlt := by
    by_cases hqueue : o.queue = []
    · right
      have hmarker : o.encoder.empty.flushed.length = markerSize plain :=
        hplain ▸ length_flushed_empty o.encoder.plain o.encoder.ended
      rw [sync_idle hqueue, hqueue, List.length_nil, Nat.zero_add]
      exact ⟨List.length_take, List.length_drop, hmarker⟩
    · left
      have hpos := List.length_pos_iff.2 hqueue
      rw [sync_waiting (Nat.zero_lt_of_lt hlt) hqueue]
      exact ⟨hpos, congrArg List.length (List.take_of_length_le (Nat.le_of_lt hlt))⟩
  due_pos _ := flushed_pos _
  marker {count} h := by
    subst h
    cases plain <;> decide

/-- It gives nothing behind what has been waiting. -/
theorem sparing (plain : Bool) :
    Packer.Sparing (fun o : Outgoing Encoder => o.encoder.plain = plain)
      (fun o => o.queue.length) := by
  intro o room hplain hpos hlt
  rw [sync_waiting (Nat.zero_lt_of_lt hlt) (List.length_pos_iff.1 hpos)]
  exact congrArg _ (List.take_of_length_le (Nat.le_of_lt hlt))

end Encoder

namespace Packer

/-! ## Flushes of blocks -/

/-- The sizes say that a flush comes to its end: the windows are larger than any empty block; or the
library gives nothing behind what has been waiting, and neither all that is pending nor any empty
block ends with a window. -/
def Ends (Kept : φ → Prop) (waiting due : φ → Nat) (Marker : Nat → Prop) (size room : Nat) (f : φ) :
    Prop :=
  10 < size ∨ Sparing Kept waiting ∧
    (¬ Fills waiting due size room f ∨ ∀ count, Marker count → ¬ size ∣ count)

/-- The sizes say that it does not: all that is pending ends with a window, and so does every empty
block. -/
def Endless (waiting due : φ → Nat) (Marker : Nat → Prop) (size room : Nat) (f : φ) : Prop :=
  Fills waiting due size room f ∧ ∀ count, Marker count → size ∣ count

theorem SyncFlushes.settles_of_ends (hL : SyncFlushes Kept waiting due Marker) {room : Nat}
    (hsize : 0 < size) (hf : Kept f) (hroom : 0 < room)
    (h : Ends Kept waiting due Marker size room f) : Settles size f room := by
  rcases h with hlarge | ⟨hS, hstop | hnone⟩
  · exact hL.settles_of_large hlarge hf hroom
  · exact hL.settles_of_not_fills hS hsize hf hroom hstop
  · exact hL.settles_of_none hS hsize hnone hf hroom

/-- With windows of a single byte, everything ends with a window. -/
theorem SyncFlushes.endless_of_one (hL : SyncFlushes Kept waiting due Marker) (hf : Kept f) :
    Endless waiting due Marker 1 1 f :=
  ⟨⟨(fillsUp_self (hL.pending_pos hf)).2 (Nat.one_dvd _), fun _ => Nat.one_dvd _⟩,
    fun _ _ => Nat.one_dvd _⟩

/-- Empty blocks of one size leave nothing undecided. -/
theorem ends_or_endless (hS : Sparing Kept waiting) {room : Nat}
    (hsame : ∀ a b, Marker a → Marker b → a = b) :
    Ends Kept waiting due Marker size room f ∨ Endless waiting due Marker size room f := by
  by_cases hfills : Fills waiting due size room f
  · by_cases hall : ∀ count, Marker count → size ∣ count
    · exact .inr ⟨hfills, hall⟩
    · refine .inl (.inr ⟨hS, .inr fun count hmarker hdvd => hall fun other hother => ?_⟩)
      exact hsame _ _ hmarker hother ▸ hdvd
  · exact .inl (.inr ⟨hS, .inl hfills⟩)

/-- A flush of a block that is asked for inside the scope of a writer, or of a chunker in the middle of
its frame, in windows or chunks of `size` bytes and in whatever state the library is. It comes to its
end if the sizes say so, which they do for all sizes beyond that of an empty block, and then it succeeds
if the sink does not fail. It never comes to its end, as long as the sink accepts everything, if all that
is given ends with a window, which it does in windows of a single byte. There is nothing between, if
the library gives nothing behind what has been waiting and empty blocks have one size. -/
theorem block_flushes (hL : SyncFlushes Kept waiting due Marker) (hsize : 0 < size) (hf : Kept f)
    (frameOpen : Bool) :
    (∀ (w : Writer (Packer φ)) (k : Sink), w.Live size ⟨f, frameOpen⟩ k →
      w.direction = .compressing →
      (Ends Kept waiting due Marker size size f → ∃ enough answer,
        (∀ limit, enough ≤ limit → w.flush limit .block = answer) ∧
          (k.Steady → ∃ pushed, answer.1 = .ok pushed)) ∧
      (Endless waiting due Marker size size f → k.Steady → ∀ limit,
        (w.flush limit .block).1 = .error .stepLimit)) ∧
    (∀ c : Chunker (Packer φ), c.Tidy size → c.codec = ⟨f, frameOpen⟩ → c.finished = false →
      (Ends Kept waiting due Marker size c.chunk.spare f → ∃ enough out c', ∀ limit,
        enough ≤ limit → c.flush limit = (.ok out, c')) ∧
      (Endless waiting due Marker size c.chunk.spare f → ∀ limit,
        (c.flush limit).1 = .error .stepLimit)) ∧
    (size = 1 → Endless waiting due Marker 1 1 f) ∧
    (Sparing Kept waiting → (∀ a b, Marker a → Marker b → a = b) → ∀ room,
      Ends Kept waiting due Marker size room f ∨ Endless waiting due Marker size room f) := by
  refine ⟨fun w k hlive hdirection => ⟨fun hends => ?_, fun hendless hsteady => ?_⟩,
    fun c hc hcodec hopen => ?_, fun _ => hL.endless_of_one hf,
    fun hS hsame room => ends_or_endless hS hsame⟩
  · exact Writer.flush_settles hL hsize hlive hdirection hf
      (hL.settles_of_ends hsize hf hsize hends)
  · exact Writer.flush_never_settles hL hsize hlive hdirection hf hsteady
      (hL.not_settles hsize hendless.2 hf hsize hendless.1)
  · have hkept : Kept c.codec.framer := hcodec ▸ hf
    rw [show f = c.codec.framer by rw [hcodec]]
    refine ⟨fun hends => ?_, fun hendless => ?_⟩
    · exact Chunker.flush_settles hL hc hopen hkept
        (hL.settles_of_ends hsize hkept hc.room hends)
    · exact Chunker.flush_never_settles hL hc hopen hkept
        (hL.not_settles hsize hendless.2 hkept hc.room hendless.1)

/-- A writer of the plain encoder inside its scope, with a window of `size` bytes, that has been given
one byte. -/
def oneByteWritten (size : Nat) : Writer (Packer (Outgoing Encoder)) where
  phase := .active
  direction := .compressing
  sink := some {}
  codec := .live ⟨⟨⟨false, [], ⟨#[97]⟩, false⟩, []⟩, true⟩
  window := size
  settings := ⟨size, false, none⟩
  emitted := 0

theorem live_oneByteWritten (size : Nat) :
    (oneByteWritten size).Live size ⟨⟨⟨false, [], ⟨#[97]⟩, false⟩, []⟩, true⟩ {} :=
  ⟨rfl, rfl, rfl, rfl⟩

/-- The byte waits in the encoder. -/
theorem write_oneByte {size : Nat} (h : 0 < size) :
    Writer.write 1
        { oneByteWritten size with codec := .live ⟨Outgoing.new (Encoder.new 6), true⟩ } [97] =
      (.ok 0, oneByteWritten size) := by
  have hstep : Codec.step (⟨Outgoing.new (Encoder.new 6), true⟩ : Packer (Outgoing Encoder)) [97]
      size .proceed = ⟨1, [], ⟨⟨⟨false, [], ⟨#[97]⟩, false⟩, []⟩, true⟩, .ok 1⟩ := rfl
  have hspare : (Window.fresh size).isFull = false := beq_eq_false_iff_ne.2 (Nat.ne_of_gt h)
  have hempty : (Window.fresh size).written.toList = [] := rfl
  have hnone : Sink.writeAll {} [] = (.ok (), {}) := by rw [Sink.writeAll, if_pos rfl]
  simp only [Writer.write, oneByteWritten, Phase.require, Writer.pump, Writer.Flow.run, drive,
    Input.ofList, Window.spare_fresh, hstep, Window.put_nil, hspare, hempty, hnone]
  rfl

/-- A sink without plans accepts everything. -/
theorem steady_empty : Sink.Steady {} := ⟨nofun, nofun⟩

/-- One byte in windows of five bytes, of which no number is an empty block of six; and a frame just
begun in chunks of one byte. -/
theorem block_flushes_plain :
    (∃ w w₁ w₂ enough pushed,
      Writer.new .compressing (new (Outgoing.new (Encoder.new 6))) {} ⟨5, false, none⟩ = .ok w ∧
      w.enter = (.ok (), w₁) ∧ w₁.write 1 [97] = (.ok 0, w₂) ∧
      ∀ limit, enough ≤ limit → (w₂.flush limit .block).1 = .ok pushed) ∧
    ∃ c, Chunker.new (new (Outgoing.new (Encoder.new 6))) none 1 = .ok c ∧
      ∀ limit, (c.flush limit).1 = .error .stepLimit := by
  have hnone : ∀ count, count = Encoder.markerSize false → ¬ 5 ∣ count := by
    rintro count rfl
    decide
  obtain ⟨hwriters, -, -, -⟩ := block_flushes (f := ⟨⟨false, [], ⟨#[97]⟩, false⟩, []⟩)
    (Encoder.syncFlushes false) (Nat.succ_pos 4) rfl true
  obtain ⟨enough, answer, hanswer, hok⟩ := (hwriters _ _ (live_oneByteWritten 5) rfl).1
    (.inr ⟨Encoder.sparing false, .inr hnone⟩)
  obtain ⟨pushed, hpushed⟩ := hok steady_empty
  obtain ⟨-, hchunkers, hone, -⟩ := block_flushes (f := Outgoing.new (Encoder.new 6))
    (Encoder.syncFlushes false) Nat.one_pos rfl true
  have hnew : Chunker.new (new (Outgoing.new (Encoder.new 6))) none 1 =
      .ok ⟨⟨Outgoing.new (Encoder.new 6), true⟩, 1, .fresh 1, false⟩ := rfl
  exact ⟨⟨_, _, _, enough, pushed, rfl, rfl, write_oneByte (Nat.succ_pos 4),
    fun limit hle => (hanswer limit hle).symm ▸ hpushed⟩,
    _, hnew, (hchunkers _ (Chunker.tidy_of_new hnew).1 rfl rfl).2 (hone rfl)⟩

/-- The plain encoder is a library as it is documented. With a window of one byte, one byte written and
a sink that accepts everything, no number of steps brings the flush of a block to its end. -/
theorem block_flush_never_returns :
    SyncFlushes (fun o : Outgoing Encoder => o.encoder.plain = false) (fun o => o.queue.length)
      (fun o => o.encoder.flushed.length) (fun count => count = 6) ∧
    ∃ w w₁ w₂,
      Writer.new .compressing (new (Outgoing.new (Encoder.new 6))) {} ⟨1, false, none⟩ = .ok w ∧
      w.enter = (.ok (), w₁) ∧ w₁.write 1 [97] = (.ok 0, w₂) ∧
      ¬ ∃ limit pushed w', w₂.flush limit .block = (.ok pushed, w') := by
  have hL := Encoder.syncFlushes false
  refine ⟨hL, _, _, oneByteWritten 1, rfl, rfl, write_oneByte Nat.one_pos, ?_⟩
  rintro ⟨limit, pushed, w', hflush⟩
  obtain ⟨hfills, hall⟩ := hL.endless_of_one (f := ⟨⟨false, [], ⟨#[97]⟩, false⟩, []⟩) rfl
  have hnever := Writer.flush_never_settles hL Nat.one_pos (live_oneByteWritten 1) rfl rfl steady_empty
    (hL.not_settles Nat.one_pos hall rfl Nat.one_pos hfills) limit
  rw [hflush] at hnever
  cases hnever

end Packer

end Deflate

end Sluice
