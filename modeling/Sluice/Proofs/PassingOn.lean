import Sluice.Proofs.PromptDecoding
import Sluice.Proofs.ReadingFrames
import Sluice.Proofs.WriterBooks
import Sluice.Transfer

/-!
# Passing everything on

A decompressing writer steps its codec until the input is used up and a window has stayed in part
empty. Over a codec that hands out what it decodes as soon as there is room, nothing waits then, and
there is nothing left to do for a flush or for the end of the scope.

* `Prompt.run_ok`, `Prompt.run_returns` — what a run of steps passes on, and that it comes to its end.
* `Writer.Clear` — a writer that holds nothing back.
* `Writer.Clear.write_ok`, `Writer.Clear.pushAll_ok` — it passes on what it decodes.
* `transfer_returns` — and so does a transfer.
* `Writer.passesOn` — over frame decoders and over stored data.
-/

namespace Sluice

variable {σ δ : Type} [Codec σ] [ByteDecoder δ] {At : σ → δ → List UInt8 → Prop}

open ByteDecoder (decode)
open Writer (Flow)

/-! ## Runs of steps -/

namespace Prompt

variable {window limit : Nat} {flow flow' : Flow σ} {d d' : δ} {queue content : List UInt8}

/-- A run that has used up the input and has not filled its last window has passed on all that has
waited and all that the input decodes to. -/
theorem run_ok (hA : Prompt At) (hwindow : 0 < window)
    (h : Flow.run window .proceed (fun _ input full => input.isConsumed && !full) limit flow =
      (.ok (), flow')) (hat : At flow.codec d queue) :
    ∃ content d', decode d flow.input.unread = some (content, d') ∧ At flow'.codec d' [] ∧
      flow'.sink.received.toList = flow.sink.received.toList ++ (queue ++ content) ∧
      flow'.pushed = flow.pushed + (queue ++ content).length := by
  obtain ⟨before, last, hran⟩ := Flow.run_ok h
  have hdone := hran.done
  simp only [Input.isConsumed_iff, Bool.and_eq_true, Bool.not_eq_true',
    decide_eq_false_iff_not, Nat.not_le] at hdone
  obtain ⟨hunread, hspare⟩ := hdone
  have hturns : ∀ t ∈ before ++ [last], t.directive = .proceed ∧ 0 < t.room :=
    fun t ht => ⟨hran.turn t ht, (hran.room t ht).symm ▸ hwindow⟩
  have htaken := hran.course.takenBy_append_eq
  rw [hunread, List.append_nil, takenBy_append, takenBy_cons, takenBy_nil, List.append_nil] at htaken
  obtain ⟨s₁, later, hbefore, hlast, -⟩ := hran.course.concat_inv
  obtain ⟨c₁, d₁, queue₁, hdecode₁, hmade₁, hat₁⟩ :=
    hA.course hbefore (fun t ht => hturns t (List.mem_append_left _ ht)) hat
  obtain ⟨hdirective, hroom⟩ := hturns last (by simp)
  obtain ⟨c₂, d₂, queue₂, hpasses⟩ := hA.passes hat₁ hdirective hroom hlast
  -- the last window has stayed in part empty, so that nothing waits
  obtain rfl : queue₂ = [] := hpasses.stops (by rw [hran.room last (by simp)]; exact hspare)
  have hmade : madeBy (before ++ [last]) = queue ++ (c₁ ++ c₂) := by
    have hlastMade := hpasses.made
    rw [List.append_nil] at hlastMade
    rw [madeBy_append, madeBy_cons, madeBy_nil, List.append_nil, ← hlastMade, ← List.append_assoc,
      ← hmade₁, List.append_assoc]
  refine ⟨c₁ ++ c₂, d₂, ?_, hpasses.state, ?_, ?_⟩
  · rw [← htaken, ByteDecoder.decode_append hdecode₁, hpasses.decode, Option.map_some]
  · rw [hran.received, hmade]
  · rw [hran.pushed, hmade]

/-- Over a steady sink, a run over bytes that can be decoded comes to its end. -/
theorem run_returns (hA : Prompt At) (flow : Flow σ) (hwindow : 0 < window)
    (hsteady : flow.sink.Steady)
    (hat : At flow.codec d queue) (hdecode : decode d flow.input.unread = some (content, d'))
    (hlimit : flow.input.unread.length + (queue ++ content).length < limit) :
    ∃ flow', Flow.run window .proceed (fun _ input full => input.isConsumed && !full) limit flow =
      (.ok (), flow') ∧ flow'.sink.Steady := by
  -- on the limit: a step that is not the last takes something, or passes something on
  induction limit generalizing flow d queue content with
  | zero => exact absurd hlimit (Nat.not_lt_zero _)
  | succ limit ih =>
    have hsome : (decode d flow.input.unread).isSome := by rw [hdecode]; rfl
    obtain ⟨left, hleft⟩ := hA.accepts hat hwindow hsome
    have hlead : (flow.turn window .proceed left).Leads _ _ := Turn.leads_ofStep hleft
    obtain ⟨c₁, d₁, queue₁, hpasses⟩ := hA.passes hat rfl hwindow hlead
    have hsplit : (flow.turn window .proceed left).taken ++ (flow.turn window .proceed left).rest =
        flow.input.unread := Turn.offered_ofStep ..
    have hres : (drive flow.codec flow.input (.fresh window) .proceed).result = .ok left := hleft
    obtain ⟨sink, hwrite, hsteady'⟩ := hsteady.writeAll_ok
      (drive flow.codec flow.input (.fresh window) .proceed).window.written.toList
    rw [Flow.run]
    simp only [hres, hwrite]
    split
    · exact ⟨_, rfl, hsteady'⟩
    next hdone =>
    -- what is left can be decoded from where the step has got to
    rw [← hsplit, ByteDecoder.decode_append hpasses.decode, Option.map_eq_some_iff] at hdecode
    obtain ⟨⟨c₂, _⟩, hdecode₂, hpair⟩ := hdecode
    obtain ⟨rfl, rfl⟩ := Prod.mk.inj hpair
    refine ih _ hsteady' hpasses.state hdecode₂ ?_
    have hprogress : (flow.turn window .proceed left).taken ≠ [] ∨
        (flow.turn window .proceed left).made ≠ [] := by
      -- a step that does nothing has found nothing to do, and is the last
      by_contra hidle
      obtain ⟨htaken, hmade⟩ : (flow.turn window .proceed left).taken = [] ∧
          (flow.turn window .proceed left).made = [] := by simpa using hidle
      have hoffered : (flow.turn window .proceed left).offered = [] := by
        by_contra hne
        exact hidle (hpasses.active (.inl hne))
      refine hdone ?_
      rw [Flow.isFull_turn, hmade, Input.isConsumed,
        drive_unread flow.codec flow.input (.fresh window) .proceed left]
      have hrest : (flow.turn window .proceed left).rest = [] :=
        (List.append_eq_nil_iff.1 hoffered).2
      simp [hrest, Nat.ne_of_gt hwindow]
    have htotal := congrArg List.length hpasses.made
    have hunread := congrArg List.length hsplit
    simp only [List.length_append] at htotal hunread hlimit
    change (flow.turn window .proceed left).rest.length + (queue₁ ++ c₂).length < limit
    rw [List.length_append]
    rcases hprogress with hne | hne
    · have := List.length_pos_iff.2 hne
      omega
    · have := List.length_pos_iff.2 hne
      omega

end Prompt

/-! ## Writers -/

namespace Writer

/-- A decompressing writer inside its scope that holds nothing back: its automaton has got to state
`d`, and nothing waits. -/
structure Clear (At : σ → δ → List UInt8 → Prop) (w : Writer σ) (window : Nat) (d : δ) (k : Sink) :
    Prop where
  direction : w.direction = .decompressing
  window_pos : 0 < window
  live : ∃ s, w.Live window s k ∧ At s d []

variable {w w' : Writer σ} {window limit : Nat} {d d' : δ} {k : Sink} {bytes content : List UInt8}

omit [ByteDecoder δ] in
/-- A decompressing writer that has just been entered holds nothing back. -/
theorem clear_of_enter {codec : σ} {sink : Sink} {settings : WriterSettings} {w w₀ : Writer σ}
    (hat : At codec d []) (hnew : Writer.new .decompressing codec sink settings = .ok w)
    (henter : w.enter = (.ok (), w₀)) : Clear At w₀ settings.writeSize d sink := by
  obtain ⟨hsize, rfl⟩ := new_ok hnew
  cases henter
  exact ⟨rfl, hsize, codec, ⟨rfl, rfl, rfl, rfl⟩, hat⟩

namespace Clear

/-- What a write passes on: all that it decodes to, and nothing waits afterwards. -/
structure Passed (At : σ → δ → List UInt8 → Prop) (w : Writer σ) (window : Nat) (d : δ) (k : Sink)
    (bytes : List UInt8) (w' : Writer σ) (content : List UInt8) (d' : δ) (k' : Sink) : Prop where
  decode : decode d bytes = some (content, d')
  clear : Clear At w' window d' k'
  received : k'.received.toList = k.received.toList ++ content
  emitted : w'.emitted = w.emitted + content.length

omit [Codec σ] in
/-- Bytes may be passed on in two parts. -/
theorem Passed.append {w₁ : Writer σ} {d₁ : δ} {k₁ k' : Sink} {more content' : List UInt8}
    (h : Passed At w window d k bytes w₁ content d₁ k₁)
    (h' : Passed At w₁ window d₁ k₁ more w' content' d' k') :
    Passed At w window d k (bytes ++ more) w' (content ++ content') d' k' where
  decode := by rw [ByteDecoder.decode_append h.decode, h'.decode, Option.map_some]
  clear := h'.clear
  received := by rw [h'.received, h.received, List.append_assoc]
  emitted := by rw [h'.emitted, h.emitted, List.length_append, Nat.add_assoc]

omit [Codec σ] in
/-- And in no parts at all. -/
theorem passed_nil (hw : Clear At w window d k) : Passed At w window d k [] w [] d k :=
  ⟨rfl, hw, (List.append_nil _).symm, rfl⟩

/-- A run of steps that succeeds is a write that does. -/
theorem write_of_run (hA : Prompt At) (hw : Clear At w window d k) {s : σ} {flow : Flow σ}
    (hlive : w.Live window s k) (hat : At s d [])
    (hrun : Flow.run window .proceed (fun _ input full => input.isConsumed && !full) limit
      ⟨s, k, .ofList bytes, 0⟩ = (.ok (), flow)) :
    ∃ n w' content d', w.write limit bytes = (.ok n, w') ∧
      Passed At w window d k bytes w' content d' flow.sink := by
  obtain ⟨content, d', hdecode, hat', hreceived, hpushed⟩ := hA.run_ok hw.window_pos hrun hat
  rw [hlive.write_eq, hrun]
  refine ⟨_, _, content, d', rfl, hdecode, ⟨hw.direction, hw.window_pos, flow.codec, ?_, hat'⟩,
    hreceived, ?_⟩
  · exact ⟨hlive.phase, hlive.window, rfl, rfl⟩
  · change w.emitted + flow.pushed = _
    rw [hpushed, List.nil_append]
    exact congrArg _ (Nat.zero_add _)

theorem write_ok (hA : Prompt At) (hw : Clear At w window d k) {n : Nat}
    (h : w.write limit bytes = (.ok n, w')) :
    ∃ content d' k', Passed At w window d k bytes w' content d' k' := by
  obtain ⟨s, hlive, hat⟩ := hw.live
  rcases hrun : Flow.run window .proceed (fun _ input full => input.isConsumed && !full) limit
    ⟨s, k, .ofList bytes, 0⟩ with ⟨failure | ⟨⟩, flow⟩
  · rw [hlive.write_eq, hrun] at h
    cases h
  · obtain ⟨n', w₁, content, d', hwrite, hpassed⟩ := hw.write_of_run hA hlive hat hrun
    rw [h] at hwrite
    cases hwrite
    exact ⟨content, d', flow.sink, hpassed⟩

/-- Over a steady sink, a write of bytes that can be decoded succeeds. -/
theorem write_returns (hA : Prompt At) (hw : Clear At w window d k) (hk : k.Steady)
    (hdecode : decode d bytes = some (content, d')) (hlimit : bytes.length + content.length < limit) :
    ∃ n w' k', w.write limit bytes = (.ok n, w') ∧ Passed At w window d k bytes w' content d' k' ∧
      k'.Steady := by
  obtain ⟨s, hlive, hat⟩ := hw.live
  obtain ⟨flow, hrun, hsteady⟩ :=
    hA.run_returns ⟨s, k, .ofList bytes, 0⟩ hw.window_pos hk hat hdecode hlimit
  obtain ⟨n, w', content', d₁, hwrite, hpassed⟩ := hw.write_of_run hA hlive hat hrun
  obtain ⟨rfl, rfl⟩ := Prod.mk.inj (Option.some.inj (hdecode.symm.trans hpassed.decode))
  exact ⟨n, w', flow.sink, hwrite, hpassed, hsteady⟩

/-- A write of the front of bytes that can be decoded leaves the others to be decoded. -/
theorem write_front (hA : Prompt At) (hw : Clear At w window d k) (hk : k.Steady)
    {later : List UInt8} (hdecode : decode d (bytes ++ later) = some (content, d'))
    (hlimit : (bytes ++ later).length + content.length < limit) :
    ∃ n w' k' c₁ d₁ c₂, w.write limit bytes = (.ok n, w') ∧ k'.Steady ∧
      Passed At w window d k bytes w' c₁ d₁ k' ∧ decode d₁ later = some (c₂, d') ∧
      content = c₁ ++ c₂ ∧ later.length + c₂.length < limit := by
  obtain ⟨c₁, d₁, c₂, hdecode₁, hdecode₂, rfl⟩ := ByteDecoder.decode_append_inv hdecode
  simp only [List.length_append] at hlimit
  have hfirst : bytes.length + c₁.length < limit := by omega
  obtain ⟨n, w', k', hwrite, hpassed, hk'⟩ := hw.write_returns hA hk hdecode₁ hfirst
  exact ⟨n, w', k', c₁, d₁, c₂, hwrite, hk', hpassed, hdecode₂, rfl, by omega⟩

/-! ### Flushes and ends -/

omit [Codec σ] [ByteDecoder δ] in
/-- Flushing the sink passes nothing on. -/
theorem received_flushSink (w : Writer σ) : w.flushSink.2.received = w.received := by
  cases hsink : w.sink with
  | none => rw [flushSink, hsink]
  | some k =>
    rw [flushSink_state hsink, received, received, hsink, Option.map_some, k.received_flush,
      Option.map_some]

omit [Codec σ] [ByteDecoder δ] in
theorem flushSink (hw : Clear At w window d k) : Clear At w.flushSink.2 window d k.flush.2 := by
  obtain ⟨s, hlive, hat⟩ := hw.live
  rw [flushSink_state hlive.sink]
  exact ⟨hw.direction, hw.window_pos, s, ⟨hlive.phase, hlive.window, hlive.codec, rfl⟩, hat⟩

omit [Codec σ] [ByteDecoder δ] in
/-- A steady sink can always be flushed. -/
theorem flushSink_returns (hw : Clear At w window d k) (hk : k.Steady) :
    w.flushSink.1 = .ok () ∧ k.flush.2.Steady := by
  obtain ⟨s, hlive, -⟩ := hw.live
  obtain ⟨k', hflush, hk'⟩ := hk.flush_ok
  rw [Writer.flushSink, hlive.sink]
  simp only [hflush]
  exact ⟨trivial, hk'⟩

omit [ByteDecoder δ] in
/-- A flush is a flush of the sink, whatever the mode. -/
theorem flush_eq (hw : Clear At w window d k) (limit : Nat) (mode : FlushMode) :
    w.flush limit mode = (w.flushSink.1.map fun () => 0, w.flushSink.2) := by
  obtain ⟨s, hlive, -⟩ := hw.live
  rw [flush, hlive.phase, hw.direction]
  rcases hflush : w.flushSink with ⟨failure | ⟨⟩, w'⟩
  · rfl
  · rfl

omit [ByteDecoder δ] in
/-- And so is the end of the scope. -/
theorem exit_eq (hw : Clear At w window d k) (limit : Nat) :
    w.exit limit true = (w.flushSink.1, w.flushSink.2.release) := by
  obtain ⟨s, hlive, -⟩ := hw.live
  rw [exit, settle, hlive.phase, hw.direction]
  rfl

omit [ByteDecoder δ] in
/-- Onto a steady sink, it succeeds. -/
theorem exit_returns (hw : Clear At w window d k) (hk : k.Steady) (limit : Nat) :
    w.exit limit true = (.ok (), { w with sink := some k.flush.2 }.release) := by
  obtain ⟨hok, -⟩ := hw.flushSink_returns hk
  obtain ⟨s, hlive, -⟩ := hw.live
  rw [hw.exit_eq, hok, flushSink_state hlive.sink]

/-! ### Sessions -/

omit [Codec σ] in
/-- A flush passes nothing on. -/
theorem passed_flushSink (hw : Clear At w window d k) :
    Passed At w window d k [] w.flushSink.2 [] d k.flush.2 where
  decode := rfl
  clear := hw.flushSink
  received := by rw [k.received_flush, List.append_nil]
  emitted := by
    obtain ⟨s, hlive, -⟩ := hw.live
    rw [flushSink_state hlive.sink]
    rfl

/-- One operation. -/
theorem push_ok (hA : Prompt At) (hw : Clear At w window d k) {op : WriterOp} {n : Nat}
    (h : w.push limit op = (.ok n, w')) :
    ∃ content d' k', Passed At w window d k op.input w' content d' k' := by
  cases op with
  | write bytes => exact hw.write_ok hA h
  | flush mode =>
    have hw' : w' = w.flushSink.2 := by
      rw [push, hw.flush_eq] at h
      exact (congrArg Prod.snd h).symm
    exact ⟨[], d, k.flush.2, hw' ▸ hw.passed_flushSink⟩

/-- What a session passes on, if none of its operations fails. -/
theorem pushAll_ok (hA : Prompt At) (hw : Clear At w window d k) {ops : List WriterOp}
    (h : w.pushAll limit ops = (.ok (), w')) :
    ∃ content d' k', Passed At w window d k (pushedBy ops) w' content d' k' := by
  induction ops generalizing w d k with
  | nil =>
    cases h
    exact ⟨[], d, k, hw.passed_nil⟩
  | cons op ops ih =>
    rcases hpush : w.push limit op with ⟨failure | n, w₁⟩
    · simp [pushAll, hpush] at h
    simp only [pushAll, hpush] at h
    obtain ⟨content, d₁, k₁, hpassed⟩ := hw.push_ok hA hpush
    obtain ⟨content', d', k', hpassed'⟩ := ih hpassed.clear h
    exact ⟨_, d', k', hpassed.append hpassed'⟩

/-- Over a steady sink, an operation over bytes that can be decoded succeeds. -/
theorem push_returns (hA : Prompt At) (hw : Clear At w window d k) (hk : k.Steady) {op : WriterOp}
    (hdecode : decode d op.input = some (content, d'))
    (hlimit : op.input.length + content.length < limit) :
    ∃ n w' k', w.push limit op = (.ok n, w') ∧
      Passed At w window d k op.input w' content d' k' ∧ k'.Steady := by
  cases op with
  | write bytes => exact hw.write_returns hA hk hdecode hlimit
  | flush mode =>
    obtain ⟨rfl, rfl⟩ := Prod.mk.inj (Option.some.inj hdecode)
    obtain ⟨hok, hk'⟩ := hw.flushSink_returns hk
    refine ⟨0, w.flushSink.2, k.flush.2, ?_, hw.passed_flushSink, hk'⟩
    rw [push, hw.flush_eq, hok]
    rfl

/-- And so does a session. -/
theorem pushAll_returns (hA : Prompt At) (hw : Clear At w window d k) (hk : k.Steady)
    {ops : List WriterOp} (hdecode : decode d (pushedBy ops) = some (content, d'))
    (hlimit : (pushedBy ops).length + content.length < limit) :
    ∃ w' k', w.pushAll limit ops = (.ok (), w') ∧
      Passed At w window d k (pushedBy ops) w' content d' k' ∧ k'.Steady := by
  induction ops generalizing w d k content with
  | nil =>
    obtain ⟨rfl, rfl⟩ := Prod.mk.inj (Option.some.inj hdecode)
    exact ⟨w, k, rfl, hw.passed_nil, hk⟩
  | cons op ops ih =>
    rw [pushedBy_cons] at hdecode hlimit ⊢
    obtain ⟨c₁, d₁, c₂, hdecode₁, hdecode₂, rfl⟩ := ByteDecoder.decode_append_inv hdecode
    simp only [List.length_append] at hlimit
    have hfirst : op.input.length + c₁.length < limit := by omega
    obtain ⟨n, w₁, k₁, hpush, hpassed, hk₁⟩ := hw.push_returns hA hk hdecode₁ hfirst
    obtain ⟨w', k', hall, hpassed', hk'⟩ := ih hpassed.clear hk₁ hdecode₂ (by omega)
    exact ⟨w', k', by rw [pushAll, hpush]; exact hall, hpassed.append hpassed', hk'⟩

end Clear

end Writer

/-! ## Transfers -/

variable {window limit : Nat} {d d' : δ} {k : Sink} {content : List UInt8}

open Writer (Clear)
open Writer.Clear (Passed)

/-- From a steady source onto a steady sink, the loop of a copy comes to its end, and passes
everything on. -/
theorem Copying.run_returns (hA : Prompt At) {readSize : Nat} (hsize : 0 < readSize)
    {c : Copying σ} (hsource : c.source.Steady) (hw : Clear At c.writer window d k) (hk : k.Steady)
    (hdecode : decode d c.source.content = some (content, d'))
    (hlimit : c.source.content.length + content.length < limit) :
    ∃ c' k', Copying.run limit readSize c = (.ok (), c') ∧
      Passed At c.writer window d k c.source.content c'.writer content d' k' ∧ k'.Steady ∧
      c'.total = c.total + c.source.content.length := by
  fun_induction Copying.run limit readSize c generalizing d k content
  case case1 c failure source hpull =>
    obtain ⟨bytes, source', hok, -⟩ := hsource.pull_ok readSize
    rw [hpull] at hok
    cases hok
  -- an empty piece is the end of the source
  case case2 c source hpull =>
    have hcontent := hsource.whole.content_of_pull_nil hsize hpull
    rw [hcontent] at hdecode ⊢
    obtain ⟨rfl, rfl⟩ := Prod.mk.inj (Option.some.inj hdecode)
    exact ⟨_, k, rfl, hw.passed_nil, hk, rfl⟩
  -- any other piece is written, and the write does not fail
  case case3 c byte rest source hpull failure writer hwrite =>
    rw [Source.content_pull hpull] at hdecode hlimit
    obtain ⟨n, w', k', c₁, d₁, c₂, hok, -⟩ := hw.write_front hA hk hdecode hlimit
    rw [hwrite] at hok
    cases hok
  case case4 c byte rest source hpull n writer hwrite ih =>
    rw [Source.content_pull hpull] at hdecode hlimit ⊢
    obtain ⟨n', w', k₁, c₁, d₁, c₂, hok, hk₁, hpassed, hdecode', rfl, hlimit'⟩ :=
      hw.write_front hA hk hdecode hlimit
    rw [hwrite] at hok
    cases hok
    obtain ⟨bytes, source', hpulled, hsource'⟩ := hsource.pull_ok readSize
    rw [hpull] at hpulled
    cases hpulled
    obtain ⟨c', k', hrun, hpassed', hk', htotal⟩ := ih hsource' hpassed.clear hk₁ hdecode' hlimit'
    refine ⟨c', k', hrun, hpassed.append hpassed', hk', ?_⟩
    rw [htotal, List.length_append, List.length_cons, Nat.add_assoc]

/-- A transfer passes on all that the source gives decodes to, and says how much that is. -/
theorem transfer_returns (hA : Prompt At) {readSize : Nat} (hsize : 0 < readSize) {codec : σ}
    (hat : At codec d []) {source : Source} {sink : Sink} {settings : WriterSettings}
    (hsource : source.Steady) (hsink : sink.Steady) (hwindow : 0 < settings.writeSize)
    (hdecode : decode d source.content = some (content, d'))
    (hlimit : source.content.length + content.length < limit) :
    ∃ source' sink', transfer limit source sink readSize
        (Writer.new .decompressing codec sink settings) =
          (.ok (source.content.length, content.length), source', sink') ∧
      sink'.received.toList = sink.received.toList ++ content := by
  have hnew : Writer.new .decompressing codec sink settings = .ok _ := Writer.new_eq hwindow
  let entered : Writer σ :=
    ⟨.active, .decompressing, some sink, .live codec, settings.writeSize, settings, 0⟩
  have henter : Writer.enter ⟨.notEntered, .decompressing, some sink, .live codec,
      settings.writeSize, settings, 0⟩ = (.ok (), entered) := rfl
  have hclear := Writer.clear_of_enter hat hnew henter
  obtain ⟨c, k, hrun, hpassed, hk, htotal⟩ :=
    Copying.run_returns (c := ⟨source, entered, 0⟩) hA hsize hsource hclear hsink hdecode hlimit
  have hexit := hpassed.clear.exit_returns hk limit
  simp only [transfer, hnew, copy, henter, hrun, hexit, Writer.release, Option.getD_some]
  rw [htotal, hpassed.emitted, Nat.zero_add, Nat.zero_add]
  refine ⟨c.source, k.flush.2, rfl, ?_⟩
  rw [k.received_flush]
  exact hpassed.received

/-! ## Everything that is decoded -/

namespace Writer

/-- What a decompressing writer over a codec passes on, where `decode` says what bytes decode to, and
`Whole` which bytes are whole frames with which content. -/
structure PassesOn (codec : σ) (decode : List UInt8 → Option (List UInt8))
    (Whole : List UInt8 → List UInt8 → Prop) : Prop where
  /-- whatever has been written, the sink has received all that it decodes to -/
  pushed {limit : Nat} {sink : Sink} {settings : WriterSettings} {w w₀ w' : Writer σ}
    {ops : List WriterOp} : Writer.new .decompressing codec sink settings = .ok w →
      w.enter = (.ok (), w₀) → w₀.pushAll limit ops = (.ok (), w') →
        ∃ content, decode (pushedBy ops) = some content ∧
          w'.received = some (sink.received.toList ++ content)
  /-- so that flushes and a normal exit add nothing -/
  settled {limit : Nat} {sink : Sink} {settings : WriterSettings} {w w₀ w' : Writer σ}
    {ops : List WriterOp} : Writer.new .decompressing codec sink settings = .ok w →
      w.enter = (.ok (), w₀) → w₀.pushAll limit ops = (.ok (), w') →
        (∀ mode, (w'.flush limit mode).2.received = w'.received) ∧
          (w'.exit limit true).2.received = w'.received
  /-- onto a steady sink, what can be decoded can be written -/
  returns {limit : Nat} {sink : Sink} {settings : WriterSettings} {ops : List WriterOp}
    {content : List UInt8} : sink.Steady → 0 < settings.writeSize →
      decode (pushedBy ops) = some content → (pushedBy ops).length + content.length < limit →
        ∃ w w₀ w', Writer.new .decompressing codec sink settings = .ok w ∧
          w.enter = (.ok (), w₀) ∧ w₀.pushAll limit ops = (.ok (), w')
  /-- a transfer passes on what the source decodes to, and says how long both are -/
  copied {limit readSize : Nat} {source : Source} {sink : Sink} {settings : WriterSettings}
    {content : List UInt8} : source.Steady → sink.Steady → 0 < readSize → 0 < settings.writeSize →
      decode source.content = some content → source.content.length + content.length < limit →
        ∃ source' sink', transfer limit source sink readSize
            (Writer.new .decompressing codec sink settings) =
              (.ok (source.content.length, content.length), source', sink') ∧
          sink'.received.toList = sink.received.toList ++ content
  /-- whole frames decode to what they contain -/
  whole {x content : List UInt8} : Whole x content → decode x = some content
  /-- and that is what a reader across frames delivers -/
  read {source : Source} {settings : ReaderSettings} {content : List UInt8} :
    Whole source.content content → source.Steady → 0 < settings.readSize →
      settings.acrossFrames = true →
        ∃ r, Reader.new .decompressing codec source settings = .ok r ∧ r.Delivers content

/-- A codec that holds nothing back and pays out what it owes. -/
theorem passesOn_of_prompt (hA : Prompt At) {codec : σ} (hat : At codec d [])
    {Owes : σ → List UInt8 → List (List UInt8) → Prop} (hO : Honours Owes)
    {Whole : List UInt8 → List UInt8 → Prop}
    (hwhole : ∀ {x content}, Whole x content → (∃ d', decode d x = some (content, d')) ∧
      ∃ contents, Owes codec x contents ∧ contents.flatten = content) :
    PassesOn codec (fun x => (decode d x).map Prod.fst) Whole where
  pushed := by
    intro limit sink settings w w₀ w' ops hnew henter hpush
    obtain ⟨content, d', k, hpassed⟩ := (clear_of_enter hat hnew henter).pushAll_ok hA hpush
    obtain ⟨s, hlive, -⟩ := hpassed.clear.live
    refine ⟨content, by simp [hpassed.decode], ?_⟩
    rw [received, hlive.sink, Option.map_some, hpassed.received]
  settled := by
    intro limit sink settings w w₀ w' ops hnew henter hpush
    obtain ⟨content, d', k, hpassed⟩ := (clear_of_enter hat hnew henter).pushAll_ok hA hpush
    refine ⟨fun mode => ?_, ?_⟩
    · rw [hpassed.clear.flush_eq]
      exact Clear.received_flushSink w'
    · rw [hpassed.clear.exit_eq]
      exact Clear.received_flushSink w'
  returns := by
    intro limit sink settings ops content hsink hsize hdecode hlimit
    obtain ⟨⟨_, d'⟩, hdecode', rfl⟩ := Option.map_eq_some_iff.1 hdecode
    have hnew : Writer.new .decompressing codec sink settings = .ok _ := new_eq hsize
    have hclear := clear_of_enter hat hnew rfl
    obtain ⟨w', -, hpush, -⟩ := hclear.pushAll_returns hA hsink hdecode' hlimit
    exact ⟨_, _, w', hnew, rfl, hpush⟩
  copied := by
    intro limit readSize source sink settings content hsource hsink hread hsize hdecode hlimit
    obtain ⟨⟨_, d'⟩, hdecode', rfl⟩ := Option.map_eq_some_iff.1 hdecode
    exact transfer_returns hA hread hat hsource hsink hsize hdecode' hlimit
  whole := by
    intro x content h
    obtain ⟨⟨d', hdecode⟩, -⟩ := hwhole h
    simp [hdecode]
  read := by
    intro source settings content h hsource hsize hacross
    obtain ⟨-, contents, howes, rfl⟩ := hwhole h
    obtain ⟨r, -, hnew, -, -, hdelivers, -⟩ := Reader.delivers_new hO howes hsource hsize
    rw [if_pos hacross] at hdelivers
    exact ⟨r, hnew, hdelivers⟩

/-- The bytes `x` are whole frames, and this is what they contain. -/
def WholeFrames (d : δ) (x content : List UInt8) : Prop :=
  ∃ contents d', Frames d x contents d' ∧ contents.flatten = content

/-- A decompressing writer over a frame decoder passes on everything as soon as it can be decoded, and
so does one over stored data. -/
theorem passesOn {like : σ → Queued δ → Bool → Prop} (hP : PatientDecoding like) {codec : σ}
    {automaton : δ} (hlike : like codec (.new automaton) false) :
    PassesOn codec (fun x => (decode automaton x).map Prod.fst) (WholeFrames automaton) ∧
      PassesOn Stored.stored some Eq := by
  constructor
  · refine passesOn_of_prompt hP.prompt (.start hlike) hP.honours ?_
    rintro x content ⟨contents, d', hframes, rfl⟩
    exact ⟨⟨d', hframes.decode⟩, contents, .between hlike hframes, rfl⟩
  · have hdecode : (fun x => (decode Stored.stored x).map Prod.fst) = some :=
      funext fun x => by rw [Stored.decode_eq, Option.map_some]
    rw [← hdecode]
    refine passesOn_of_prompt Stored.prompt rfl Stored.honours ?_
    rintro x _ rfl
    exact ⟨⟨Stored.stored, Stored.decode_eq _ x⟩, [x], rfl, List.append_nil x⟩

/-- Bytes of length-prefixed frames, each of which stands for two. -/
theorem passesOn_lengthPrefixed :
    PassesOn (FrameDecoder.new (Toy.LengthPrefixed.new 2) none)
        (fun x => (decode (Toy.LengthPrefixed.new 2) x).map Prod.fst)
        (WholeFrames (Toy.LengthPrefixed.new 2)) ∧
      PassesOn Stored.stored some Eq ∧
      (decode (Toy.LengthPrefixed.new 2) [2, 7, 8, 0, 1]).map Prod.fst = some [7, 7, 8, 8] := by
  have hlike : FrameDecoder.Like (.new (Toy.LengthPrefixed.new 2) none)
      (.new (Toy.LengthPrefixed.new 2)) false := ⟨rfl, rfl, rfl⟩
  obtain ⟨hframes, hstored⟩ := passesOn FrameDecoder.patientDecoding hlike
  exact ⟨hframes, hstored, by decide⟩

end Writer

end Sluice
