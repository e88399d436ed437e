import Sluice.Proofs.Conforming
import Sluice.Transfer

/-!
# Reading what an encoder makes

A compressing reader tells its encoder about the frame in the first request, feeds it until the
source ends, and then empties it. Its answers, and the pieces of an iterator over it, are the frame
in parts.

* `Reader.Encodes` — a compressing reader and the part of the frame that it has delivered.
* `Reader.Encodes.fill`, `Reader.Encodes.serve` — one request, and any number of them.
* `Pieces.Gives`, `Pieces.Gives.decodes` — an iterator until it stops.
-/

namespace Sluice

variable {σ : Type} [Codec σ]

namespace Reader

/-- How far a compressing reader has come that has delivered `out` of the frame for `x`. -/
inductive Stage (decode : List UInt8 → Option (List UInt8)) (codec : σ) (x : List UInt8)
    (r : Reader σ) (out : List UInt8) : Prop where
  /-- nothing has been asked for -/
  | fresh (owes : r.owesPledge = true) (live : r.codec = .live codec) (goes_on : r.outputDone = false)
      (sound : r.Sound) (ahead : r.ahead = x) (nothing : out = [])
  /-- the frame is being made -/
  | within {turns : List Turn} {s : σ} (running : r.Running s)
      (making : Making codec x turns s r.ahead) (made : out = madeBy turns)
  /-- the frame has been delivered -/
  | ended (done : r.outputDone = true) (decodes : decode out = some x)

/-- A compressing reader over the content `x` that has delivered `out`. -/
structure Encodes (decode : List UInt8 → Option (List UInt8)) (codec : σ) (x : List UInt8)
    (r : Reader σ) (out : List UInt8) : Prop where
  direction : r.direction = .compressing
  endless : r.stopsAtFrameEnd = false
  phase : r.phase ≠ .closed
  stage : Stage decode codec x r out

variable {decode : List UInt8 → Option (List UInt8)} {codec s s' : σ} {x out bytes : List UInt8}
  {r r' : Reader σ}

theorem Encodes.decodes (h : Encodes decode codec x r out) (hdone : r.outputDone = true) :
    decode out = some x := by
  cases h.stage with
  | fresh owes live goes_on => exact Bool.noConfusion (goes_on.symm.trans hdone)
  | within running => exact Bool.noConfusion (running.outputDone.symm.trans hdone)
  | ended done decodes => exact decodes

/-- A turn of the loop that steps and pulls ends no frame. -/
theorem FeedTurn.not_endsFrame {t : Turn} (h : FeedTurn t) : ¬ t.EndsFrame := by
  intro hend
  have hdirective := h.directive.symm.trans hend.1
  cases hdirective

/-- A request on a running reader: what the encoder makes is delivered, and as long as the frame has
not ended, that is something. -/
theorem Filled.stage (hC : Conforming decode codec) {fed drained turns : List Turn}
    (h : Filled r s fed drained s' bytes r') (hr : r.Running s) (hstops : r.stopsAtFrameEnd = false)
    (hmaking : Making codec x turns s r.ahead) :
    Stage decode codec x r' (madeBy turns ++ bytes) ∧ (bytes = [] → r'.outputDone = true) := by
  have hfed : ∀ t ∈ fed, ¬ t.EndsFrame := fun t ht => (h.feedTurn t ht).not_endsFrame
  have hcourse := h.course
  rw [h.made, ← madeBy_append]
  cases h.ending with
  | frame split last_left before_left stops => exact Bool.noConfusion (hstops.symm.trans stops)
  | enough left drained_nil got goes_on =>
    subst drained_nil
    rw [List.append_nil] at hcourse ⊢
    refine ⟨.within (h.running hr goes_on) (hmaking.course hcourse hfed) rfl, fun hnil => ?_⟩
    rw [h.made, List.append_nil] at got
    exact absurd hnil got
  | @finished before last left ahead split before_left last_left done =>
    subst split
    rw [ahead, ← List.append_assoc] at hcourse
    have hbefore : ∀ t ∈ fed ++ before, ¬ t.EndsFrame := by
      intro t ht hend
      rcases List.mem_append.1 ht with ht | ht
      · exact hfed t ht hend
      · exact (before_left t ht).1 hend.2
    have hturn := h.drainTurn last (by simp)
    obtain ⟨s₁, later, hfirst, hlead, -⟩ := hcourse.concat_inv
    have hzero : last.left = 0 := by
      rcases last_left with hzero | hnothing
      · exact hzero
      · -- an end that is not complete would have filled the room
        refine Classical.not_not.1 fun hleft => ?_
        have hne : last.directive ≠ .proceed := by simp [hturn.directive]
        have hfills := hC.fills (hmaking.course hfirst hbefore) hlead hne hleft
        rw [hnothing] at hfills
        exact absurd hturn.room_pos (Nat.not_lt.2 (Nat.le_of_eq hfills.symm))
    have hdecodes := hC.ends hmaking hcourse hbefore ⟨hturn.directive, hzero⟩
    rw [← madeBy_append, List.append_assoc] at hdecodes
    exact ⟨.ended done hdecodes, fun _ => done⟩
  | full left ahead drained_left got goes_on =>
    have hnot : ∀ t ∈ fed ++ drained, ¬ t.EndsFrame := by
      intro t ht hend
      rcases List.mem_append.1 ht with ht | ht
      · exact hfed t ht hend
      · exact (drained_left t ht).1 hend.2
    refine ⟨.within (h.running hr goes_on) (hmaking.course hcourse hnot) rfl, fun hnil => ?_⟩
    rw [h.made] at got
    exact absurd hnil got
  | @stuck before last split taken made goes_on =>
    -- input is taken where there is room
    subst split
    obtain ⟨s₁, y, hfirst, -⟩ := hcourse.append_inv
    obtain ⟨s₂, later, hbefore, hlead, -⟩ := hfirst.concat_inv
    have hturn := h.feedTurn last (by simp)
    have hroom : last.made.length < last.room := by
      rw [made]
      exact hturn.room_pos
    have hrest := hC.proceeds
      (hmaking.course hbefore fun t ht => hfed t (List.mem_append_left _ ht)) hlead
      hturn.directive hroom
    refine absurd ?_ hturn.offered
    rw [Turn.offered, taken, hrest]
    rfl

/-- A request delivers a part of the frame; it is empty only at the end. -/
theorem Encodes.fill (hC : Conforming decode codec) (h : Encodes decode codec x r out) {eager : Bool}
    {size : Nat} (hsize : 0 < size) (hfill : r.fill eager size = (.ok bytes, r')) :
    Encodes decode codec x r' (out ++ bytes) ∧
      (r.outputDone = true ∨ bytes = [] → r'.outputDone = true) := by
  -- the reader itself, or the one that has just told its encoder about the frame
  have hrunning : ∀ {r₀ : Reader σ} {turns : List Turn} {s : σ}, r₀.fill eager size = (.ok bytes, r') →
      r₀.direction = .compressing → r₀.stopsAtFrameEnd = false → r₀.Running s →
      Making codec x turns s r₀.ahead →
      Encodes decode codec x r' (madeBy turns ++ bytes) ∧ (bytes = [] → r'.outputDone = true) := by
    intro r₀ turns s hfill hdirection hstops hr hmaking
    obtain ⟨fed, drained, s', hfilled⟩ := fill_ok hfill hr hsize
    obtain ⟨hstage, hnil⟩ := hfilled.stage hC hr hstops hmaking
    refine ⟨⟨?_, hfilled.stops.trans hstops, ?_, hstage⟩, hnil⟩
    · rw [hfilled.same]
      exact hdirection
    · rw [hfilled.same]
      exact hr.phase
  cases h.stage with
  | fresh owes live goes_on sound ahead nothing =>
    obtain ⟨s, hpledge, hfill'⟩ := fill_of_owesPledge hfill h.phase goes_on owes live hsize
    have hmaking : Making codec x [] s r.ahead := ahead ▸ .start hpledge r.ahead
    obtain ⟨hencodes, hnil⟩ := hrunning hfill' h.direction h.endless
      ⟨h.phase, goes_on, rfl, rfl, sound.readSize_pos, sound.whole, sound.content_nil⟩ hmaking
    rw [nothing]
    refine ⟨hencodes, fun hend => ?_⟩
    rcases hend with hdone | hempty
    · exact Bool.noConfusion (goes_on.symm.trans hdone)
    · exact hnil hempty
  | within running making made =>
    obtain ⟨hencodes, hnil⟩ := hrunning hfill h.direction h.endless running making
    rw [made]
    refine ⟨hencodes, fun hend => ?_⟩
    rcases hend with hdone | hempty
    · exact Bool.noConfusion (running.outputDone.symm.trans hdone)
    · exact hnil hempty
  | ended done decodes =>
    rw [Reader.fill, if_neg h.phase, if_pos (.inl done)] at hfill
    cases hfill
    rw [List.append_nil]
    exact ⟨h, fun _ => done⟩

/-- Any number of requests deliver the frame in parts. Once a part is empty, the parts so far decode
to the content. -/
theorem Encodes.serve (hC : Conforming decode codec) (h : Encodes decode codec x r out)
    {requests : List Request} (hsizes : ∀ request ∈ requests, 0 < request.size)
    {pieces : List (List UInt8)} (hserve : r.serve requests = (pieces.map .ok, r'))
    (hend : r.outputDone = true ∨ [] ∈ pieces) : decode (out ++ pieces.flatten) = some x := by
  induction requests generalizing r out pieces with
  | nil =>
    simp only [Reader.serve, Prod.mk.injEq] at hserve
    obtain rfl : pieces = [] := by simpa using hserve.1.symm
    rw [List.flatten_nil, List.append_nil]
    rcases hend with hdone | hmem
    · exact h.decodes hdone
    · exact absurd hmem List.not_mem_nil
  | cons request requests ih =>
    have hsize := hsizes request List.mem_cons_self
    rw [Reader.serve, answer_eq_fill r hsize] at hserve
    rcases hfill : r.fill request.isEager request.size with ⟨answer, r₁⟩
    rcases hothers : r₁.serve requests with ⟨answers, r₂⟩
    simp only [hfill, hothers, Prod.mk.injEq] at hserve
    obtain ⟨hanswers, rfl⟩ := hserve
    obtain ⟨piece, pieces, rfl, rfl, rfl⟩ := List.map_eq_cons_iff.1 hanswers.symm
    obtain ⟨hencodes, hdone⟩ := h.fill hC hsize hfill
    rw [List.flatten_cons, ← List.append_assoc]
    refine ih hencodes (fun q hq => hsizes q (List.mem_cons_of_mem request hq)) hothers ?_
    rcases hend with hover | hmem
    · exact .inl (hdone (.inl hover))
    · rcases List.mem_cons.1 hmem with hempty | hmem
      · exact .inl (hdone (.inr hempty.symm))
      · exact .inr hmem

theorem encodes_new {source : Source} {settings : ReaderSettings}
    (hnew : Reader.new .compressing codec source settings = .ok r) (hwhole : source.Whole) :
    Encodes decode codec source.content r [] := by
  obtain ⟨hsize, rfl⟩ := new_ok hnew
  have hsound : ∀ r : Reader σ, r.readSize = settings.readSize → r.source = source →
      r.inputDone = false → r.Sound := by
    rintro r hread rfl hdone
    exact ⟨hread ▸ hsize, hwhole, fun h => Bool.noConfusion (hdone.symm.trans h)⟩
  exact ⟨rfl, rfl, Phase.noConfusion, .fresh rfl rfl rfl (hsound _ rfl rfl rfl) rfl rfl⟩

/-- Entering a scope makes no difference to what is read. -/
theorem Encodes.enter (h : Encodes decode codec x r out) (henter : r.enter = (.ok (), r')) :
    Encodes decode codec x r' out := by
  obtain rfl := enter_ok henter
  refine ⟨h.direction, h.endless, Phase.noConfusion, ?_⟩
  have hsound : r.Sound → Sound { r with phase := .active } := fun hs =>
    ⟨hs.readSize_pos, hs.whole, hs.content_nil⟩
  cases h.stage with
  | fresh owes live goes_on sound ahead nothing =>
    exact .fresh owes live goes_on (hsound sound) ahead nothing
  | within running making made =>
    exact .within ⟨Phase.noConfusion, running.outputDone, running.pledged, running.codec,
      hsound running.sound⟩ making made
  | ended done decodes => exact .ended done decodes

end Reader

/-! ## Iterators -/

namespace Pieces

/-- Until it stops, the iterator gives the pieces. -/
inductive Gives : Pieces σ → List (List UInt8) → Pieces σ → Prop where
  | nil {p p' : Pieces σ} (stop : p.next = (none, p')) : Gives p [] p'
  | cons {p p₁ p' : Pieces σ} {piece : List UInt8} {pieces : List (List UInt8)}
      (first : p.next = (some (.ok piece), p₁)) (others : Gives p₁ pieces p') :
      Gives p (piece :: pieces) p'

variable {decode : List UInt8 → Option (List UInt8)} {codec : σ} {x out : List UInt8}
  {p p' : Pieces σ} {pieces : List (List UInt8)}

/-- The pieces are the rest of the frame. -/
theorem Gives.decodes (hC : Conforming decode codec) (h : Gives p pieces p')
    (hsize : 0 < p.writeSize) (hdone : p.done = false)
    (hreader : p.reader.Encodes decode codec x out) : decode (out ++ pieces.flatten) = some x := by
  induction h generalizing out with
  | @nil p p' stop =>
    rcases hfill : p.reader.fill true p.writeSize with ⟨failure | _ | ⟨byte, rest⟩, r⟩
    · simp [next, hdone, hreader.direction, Reader.read1, Reader.readInto1, hfill] at stop
    · obtain ⟨hencodes, hover⟩ := hreader.fill hC hsize hfill
      exact hencodes.decodes (hover (.inr rfl))
    · simp [next, hdone, hreader.direction, Reader.read1, Reader.readInto1, hfill] at stop
  | @cons p p₁ p' piece pieces first others ih =>
    rcases hfill : p.reader.fill true p.writeSize with ⟨failure | _ | ⟨byte, rest⟩, r⟩
    · simp [next, hdone, hreader.direction, Reader.read1, Reader.readInto1, hfill] at first
    · simp [next, hdone, hreader.direction, Reader.read1, Reader.readInto1, hfill] at first
    · simp only [next, hdone, hreader.direction, Reader.read1, Reader.readInto1, hfill,
        Bool.false_eq_true, if_false, Prod.mk.injEq, Option.some.injEq, Except.ok.injEq] at first
      obtain ⟨rfl, rfl⟩ := first
      obtain ⟨hencodes, -⟩ := hreader.fill hC hsize hfill
      rw [List.flatten_cons, ← List.append_assoc]
      exact ih hsize rfl hencodes

/-- A new iterator. -/
theorem encodes_compressing {source : Source} {readSize writeSize : Nat}
    (h : compressing codec source readSize writeSize = .ok p) (hwhole : source.Whole) :
    0 < p.writeSize ∧ p.done = false ∧ p.reader.Encodes decode codec source.content [] := by
  unfold compressing at h
  rcases hnew : Reader.new .compressing codec source
    (ReaderSettings.forCompression.withReadSize readSize) with failure | r
  · simp [hnew] at h
  · simp only [hnew, new] at h
    by_cases hsize : writeSize = 0
    · rw [if_pos hsize] at h
      cases h
    · rw [if_neg hsize] at h
      cases h
      exact ⟨Nat.pos_of_ne_zero hsize, rfl, Reader.encodes_new hnew hwhole⟩

end Pieces

end Sluice
