import Sluice.Proofs.Session

/-!
# Pushing through a writer

What a writer does to its codec and to its sink, as long as nothing fails.

* `Sink.received_writeAll` — a sink that has accepted everything has received it.
* `Sink.Steady.writeAll_ok` — a sink that neither fails nor refuses accepts everything.
* `Writer.Flow.Stepped` — what one step of a run has done.
* `Writer.Flow.run_ok` — a run of steps is a course over the input, and the sink receives what the
  codec makes on the way.
* `Writer.Live`, `Writer.Live.pump_eq`, `Writer.Live.write_eq` — a writer inside its scope, and that
  its codec runs when it is asked to.
* `Writer.push`, `Writer.pushAll` — what a caller can ask of a writer inside a scope.
* `Writer.push_ok`, `Writer.pushAll_ok` — an effort of the codec, and a session.
* `Writer.scope_ok` — a scope is a session that ends with the end of a frame.
-/

namespace Sluice

/-! ## Sinks -/

theorem Sink.received_writeAll {s s' : Sink} {bytes : List UInt8}
    (h : s.writeAll bytes = (.ok (), s')) : s'.received.toList = s.received.toList ++ bytes := by
  fun_induction Sink.writeAll s bytes with
  | case1 s =>
    cases h
    simp
  | case2 s bytes hne hp =>
    cases h
    simp [write, hp]
  | case3 => cases h
  | case4 s bytes hne limit plan hp hlimit ih =>
    rw [ih h]
    simp [write, hp]
  | case5 s bytes hne error plan hp hk ih =>
    rw [ih h]
    simp [write, hp]
  | case6 => cases h

theorem Sink.received_flush (s : Sink) : s.flush.2.received = s.received := by
  simp only [Sink.flush]
  split <;> rfl

/-- Every write is accepted at least in part, or interrupted, and every flush succeeds. -/
structure Sink.Steady (s : Sink) : Prop where
  writes : ∀ answer ∈ s.plan, match answer with
    | .move limit => 0 < limit
    | .fail error => error.kind = .interrupted
  flushes : ∀ error, .fail error ∉ s.flushPlan

namespace Sink.Steady

/-- A steady sink accepts everything. -/
theorem writeAll_ok {s : Sink} (h : s.Steady) (bytes : List UInt8) :
    ∃ s', s.writeAll bytes = (.ok (), s') ∧ s'.Steady := by
  have hlater : ∀ {s : Sink} {answer : Answer} {plan : List Answer} {bytes : List UInt8},
      s.Steady → s.plan = answer :: plan → Sink.Steady { (s.write bytes).2 with plan } := by
    intro s answer plan bytes hs hp
    refine ⟨fun a ha => hs.writes a (hp ▸ List.mem_cons_of_mem _ ha), ?_⟩
    cases answer <;> simpa [Sink.write, hp] using hs.flushes
  fun_induction Sink.writeAll s bytes with
  | case1 s => exact ⟨s, rfl, h⟩
  | case2 s bytes hne hp =>
    refine ⟨_, rfl, ⟨?_, ?_⟩⟩
    · simp [Sink.write, hp]
    · simpa [Sink.write, hp] using h.flushes
  | case3 s bytes hne plan hp =>
    have hpos := h.writes (.move 0) (hp ▸ List.mem_cons_self)
    exact absurd hpos (Nat.lt_irrefl 0)
  | case4 s bytes hne limit plan hp hlimit ih => exact ih (hlater h hp)
  | case5 s bytes hne error plan hp hk ih => exact ih (hlater h hp)
  | case6 s bytes hne error plan hp hk =>
    exact absurd (h.writes (.fail error) (hp ▸ List.mem_cons_self)) hk

theorem flush_ok {s : Sink} (h : s.Steady) : ∃ s', s.flush = (.ok (), s') ∧ s'.Steady := by
  have hlater : ∀ {answer : Answer} {rest : List Answer} {flushes : Nat},
      s.flushPlan = answer :: rest → Sink.Steady { s with flushes, flushPlan := rest } := by
    intro answer rest flushes hp
    exact ⟨h.writes, fun error hmem => h.flushes error (hp ▸ List.mem_cons_of_mem _ hmem)⟩
  rcases hp : s.flushPlan with _ | ⟨_ | error, rest⟩
  · simp only [Sink.flush, hp]
    exact ⟨_, rfl, h.writes, by simp⟩
  · simp only [Sink.flush, hp]
    exact ⟨_, rfl, hlater hp⟩
  · exact absurd (hp ▸ List.mem_cons_self) (h.flushes error)

end Sink.Steady

/-! ## Runs of steps -/

variable {σ : Type} [Codec σ]

namespace Writer

/-- What a run of steps has done, if it succeeds. All of the turns but the last leave the caller's
condition unmet. -/
structure Flow.Ran (window : Nat) (directive : Directive) (done : Done) (flow flow' : Flow σ)
    (before : List Turn) (last : Turn) : Prop where
  course : Course flow.codec flow.input.unread (before ++ [last]) flow'.codec flow'.input.unread
  turn : ∀ t ∈ before ++ [last], t.directive = directive
  room : ∀ t ∈ before ++ [last], t.room = window
  received : flow'.sink.received.toList =
    flow.sink.received.toList ++ madeBy (before ++ [last])
  pushed : flow'.pushed = flow.pushed + (madeBy (before ++ [last])).length
  undone : ∀ t ∈ before, ∃ input, done t.left input (decide (window ≤ t.made.length)) = false
  done : done last.left flow'.input (decide (window ≤ last.made.length)) = true

section Step

variable {window : Nat} {directive : Directive} {left : Nat} {flow : Flow σ}

/-- The step of a run, as a turn. -/
abbrev Flow.turn (flow : Flow σ) (window : Nat) (directive : Directive) (left : Nat) : Turn :=
  .ofStep flow.codec flow.input.unread window directive left

/-- The window is empty before every step, so that it holds what the step has made. -/
theorem Flow.written_turn (left : Nat) :
    (drive flow.codec flow.input (.fresh window) directive).window.written.toList =
      (flow.turn window directive left).made := by
  have hwritten := drive_written flow.codec flow.input (.fresh window) directive left
  rw [Window.written_fresh] at hwritten
  exact hwritten

/-- The number of bytes pushed after a step is the number of bytes that it has made. -/
theorem Flow.pos_turn (left : Nat) :
    (drive flow.codec flow.input (.fresh window) directive).window.pos =
      (flow.turn window directive left).made.length := by
  rw [← Flow.written_turn left, Array.length_toList]
  rfl

theorem Flow.isFull_turn :
    (drive flow.codec flow.input (.fresh window) directive).window.isFull =
      decide (window ≤ (flow.turn window directive left).made.length) :=
  drive_isFull flow.codec flow.input (.fresh window) directive left

/-- What a step of a run has done, if it succeeds and the sink accepts what it has made. -/
structure Flow.Stepped (window : Nat) (directive : Directive) (flow flow₁ : Flow σ) (t : Turn) :
    Prop where
  leads : t.Leads flow.codec flow₁.codec
  offered : t.offered = flow.input.unread
  rest : t.rest = flow₁.input.unread
  directive : t.directive = directive
  room : t.room = window
  received : flow₁.sink.received.toList = flow.sink.received.toList ++ t.made
  pushed : flow₁.pushed = flow.pushed + t.made.length

theorem Flow.stepped {sink : Sink}
    (hres : (drive flow.codec flow.input (.fresh window) directive).result = .ok left)
    (hwrite : flow.sink.writeAll
      (drive flow.codec flow.input (.fresh window) directive).window.written.toList =
        (.ok (), sink)) :
    Stepped window directive flow
      ⟨(drive flow.codec flow.input (.fresh window) directive).codec, sink,
        (drive flow.codec flow.input (.fresh window) directive).input,
        flow.pushed + (drive flow.codec flow.input (.fresh window) directive).window.pos⟩
      (flow.turn window directive left) where
  leads := Turn.leads_ofStep hres
  offered := Turn.offered_ofStep ..
  rest := (drive_unread flow.codec flow.input (.fresh window) directive left).symm
  directive := rfl
  room := rfl
  received := by rw [Sink.received_writeAll hwrite, Flow.written_turn left]
  pushed := congrArg _ (Flow.pos_turn left)

theorem Flow.Stepped.course {flow₁ : Flow σ} {t : Turn} {turns : List Turn} {s' : σ} {y : List UInt8}
    (h : Stepped window directive flow flow₁ t)
    (hcourse : Course flow₁.codec flow₁.input.unread turns s' y) :
    Course flow.codec flow.input.unread (t :: turns) s' y := by
  rw [← h.offered]
  rw [← h.rest] at hcourse
  exact .cons_whole h.leads hcourse

end Step

section Runs

variable {window : Nat} {directive : Directive} {done : Done} {flow flow₁ flow' : Flow σ} {t : Turn}

/-- The step that is the last one. -/
theorem Flow.Stepped.ran (h : Stepped window directive flow flow₁ t)
    (hdone : done t.left flow₁.input (decide (window ≤ t.made.length)) = true) :
    Ran window directive done flow flow₁ [] t where
  course := h.course .nil
  turn := List.forall_mem_singleton.2 h.directive
  room := List.forall_mem_singleton.2 h.room
  received := by rw [h.received, List.nil_append, madeBy_cons, madeBy_nil, List.append_nil]
  pushed := by rw [h.pushed, List.nil_append, madeBy_cons, madeBy_nil, List.append_nil]
  undone := fun _ hmem => absurd hmem List.not_mem_nil
  done := hdone

/-- A run that goes on after a step. -/
theorem Flow.Stepped.ran_cons {before : List Turn} {last : Turn}
    (h : Stepped window directive flow flow₁ t)
    (hundone : ∃ input, done t.left input (decide (window ≤ t.made.length)) = false)
    (hran : Ran window directive done flow₁ flow' before last) :
    Ran window directive done flow flow' (t :: before) last where
  course := h.course hran.course
  turn := List.forall_mem_cons.2 ⟨h.directive, hran.turn⟩
  room := List.forall_mem_cons.2 ⟨h.room, hran.room⟩
  received := by rw [hran.received, h.received, List.cons_append, madeBy_cons, List.append_assoc]
  pushed := by
    rw [hran.pushed, h.pushed, List.cons_append, madeBy_cons, List.length_append, Nat.add_assoc]
  undone := List.forall_mem_cons.2 ⟨hundone, hran.undone⟩
  done := hran.done

end Runs

theorem Flow.run_ok {window : Nat} {directive : Directive} {done : Done} {limit : Nat}
    {flow flow' : Flow σ} (h : Flow.run window directive done limit flow = (.ok (), flow')) :
    ∃ before last, Flow.Ran window directive done flow flow' before last := by
  fun_induction Flow.run window directive done limit flow
  case case1 => cases h
  case case2 => cases h
  case case3 => cases h
  -- the condition is met, and this step is the last one
  case case4 limit flow driven stepped left hres sink hwrite pushed hdone =>
    obtain ⟨-, rfl⟩ := Prod.mk.inj h
    refine ⟨[], _, (Flow.stepped hres hwrite).ran ?_⟩
    rw [← Flow.isFull_turn]
    exact hdone
  -- or not, and the run goes on over what is left
  case case5 limit flow driven stepped left hres sink hwrite pushed hdone ih =>
    obtain ⟨before, last, hran⟩ := ih h
    refine ⟨_, last, (Flow.stepped hres hwrite).ran_cons ⟨driven.input, ?_⟩ hran⟩
    rw [← Flow.isFull_turn]
    simpa using hdone

/-- A run over no input that ends when the codec returns zero is a flush. -/
theorem Flow.Ran.effort {window : Nat} {mode : FlushMode} {flow flow' : Flow σ} {before : List Turn}
    {last : Turn}
    (h : Ran window mode.directive (fun left _ _ => left == 0) flow flow' before last)
    (hinput : flow.input.unread = []) :
    Effort (.flush mode) flow.codec (before ++ [last]) flow'.codec := by
  have hbefore : ∀ t ∈ before, t.left ≠ 0 := by
    intro t ht
    obtain ⟨input, hundone⟩ := h.undone t ht
    simpa using hundone
  have hlast : last.left = 0 := by simpa using h.done
  exact .of_flush (hinput ▸ h.course) h.turn hbefore hlast

end Writer

/-! ## Inside a scope -/

namespace Writer

/-- Do one of the operations. -/
def push (limit : Nat) (w : Writer σ) : WriterOp → Except Failure Nat × Writer σ
  | .write bytes => w.write limit bytes
  | .flush mode => w.flush limit mode

/-- Do the operations one after the other, up to the first that fails. -/
def pushAll (limit : Nat) (w : Writer σ) : List WriterOp → Except Failure Unit × Writer σ
  | [] => (.ok (), w)
  | op :: ops =>
    match w.push limit op with
    | (.error failure, w) => (.error failure, w)
    | (.ok _, w) => pushAll limit w ops

/-- A writer inside its scope: its codec and its sink are there. -/
structure Live (w : Writer σ) (window : Nat) (s : σ) (k : Sink) : Prop where
  phase : w.phase = .active
  window : w.window = window
  codec : w.codec = .live s
  sink : w.sink = some k

/-- A compressing writer inside its scope: its codec, and what its sink has received. -/
structure Open (w : Writer σ) (window : Nat) (s : σ) (received : List UInt8) : Prop where
  phase : w.phase = .active
  direction : w.direction = .compressing
  window : w.window = window
  codec : w.codec = .live s
  sink : ∃ sink, w.sink = some sink ∧ sink.received.toList = received

/-- What the sink has received. -/
def received (w : Writer σ) : Option (List UInt8) := w.sink.map fun sink => sink.received.toList

variable {w w' : Writer σ} {window limit : Nat} {s : σ} {k : Sink} {received : List UInt8}

omit [Codec σ] in
theorem Open.live (h : w.Open window s received) :
    ∃ k, w.Live window s k ∧ k.received.toList = received := by
  obtain ⟨k, hsink, hreceived⟩ := h.sink
  exact ⟨k, ⟨h.phase, h.window, h.codec, hsink⟩, hreceived⟩

/-- Inside its scope, a writer can run its codec. -/
theorem Live.pump_eq (h : w.Live window s k) (limit : Nat) (bytes : List UInt8)
    (directive : Directive) (done : Done) :
    w.pump limit bytes directive done =
      let (result, flow) := Flow.run window directive done limit ⟨s, k, .ofList bytes, 0⟩
      (result.map fun () => flow.pushed,
        { w with
          codec := .live flow.codec
          sink := some flow.sink
          emitted := w.emitted + flow.pushed }) := by
  rw [pump, h.sink, h.codec, h.window]

/-- A write is a run of steps, and the writer is closed if that fails. -/
theorem Live.write_eq (h : w.Live window s k) (limit : Nat) (bytes : List UInt8) :
    w.write limit bytes =
      match Flow.run window .proceed (fun _ input full => input.isConsumed && !full) limit
        ⟨s, k, .ofList bytes, 0⟩ with
      | (.ok (), flow) =>
        (.ok (if w.settings.returnRead then bytes.length else flow.pushed),
          { w with
            codec := .live flow.codec
            sink := some flow.sink
            emitted := w.emitted + flow.pushed })
      | (.error failure, flow) =>
        (.error failure,
          { w with
            codec := .live flow.codec
            sink := some flow.sink
            emitted := w.emitted + flow.pushed }.release) := by
  have hactive : w.phase.require "write" = .ok () := by
    rw [h.phase]
    rfl
  rw [write, hactive, h.pump_eq]
  rcases Flow.run window .proceed (fun _ input full => input.isConsumed && !full) limit
    ⟨s, k, .ofList bytes, 0⟩ with ⟨failure | ⟨⟩, flow⟩
  · rfl
  · rfl

theorem pump_ok {bytes : List UInt8} {directive : Directive} {done : Done} {n : Nat}
    (h : w.pump limit bytes directive done = (.ok n, w')) (hw : w.Open window s received) :
    ∃ flow flow' before last, flow.codec = s ∧ flow.input = .ofList bytes ∧
      Flow.Ran window directive done flow flow' before last ∧
      w'.Open window flow'.codec (received ++ madeBy (before ++ [last])) := by
  obtain ⟨sink, hlive, hreceived⟩ := hw.live
  rw [hlive.pump_eq] at h
  rcases hrun : Flow.run window directive done limit ⟨s, sink, .ofList bytes, 0⟩ with
    ⟨failure | ⟨⟩, flow'⟩
  · simp [hrun, Except.map] at h
  · simp only [hrun, Except.map, Prod.mk.injEq] at h
    obtain ⟨-, rfl⟩ := h
    obtain ⟨before, last, hran⟩ := Flow.run_ok hrun
    refine ⟨_, flow', before, last, rfl, rfl, hran, hw.phase, hw.direction, hw.window, rfl, ?_⟩
    exact ⟨flow'.sink, rfl, by rw [hran.received, hreceived]⟩

theorem write_ok {bytes : List UInt8} {n : Nat} (h : w.write limit bytes = (.ok n, w'))
    (hw : w.Open window s received) :
    ∃ turns s', Effort (.write bytes) s turns s' ∧
      w'.Open window s' (received ++ madeBy turns) := by
  unfold write at h
  rw [hw.phase] at h
  rcases hpump : w.pump limit bytes .proceed fun _ input full => input.isConsumed && !full with
    ⟨failure | pushed, w₁⟩
  · simp [hpump, Phase.require, fail] at h
  · simp only [hpump, Phase.require, fail, Prod.mk.injEq] at h
    obtain ⟨-, rfl⟩ := h
    obtain ⟨flow, flow', before, last, rfl, hinput, hran, hopen⟩ := pump_ok hpump hw
    have hdone := hran.done
    simp only [Bool.and_eq_true, Input.isConsumed_iff] at hdone
    have hcourse := hran.course
    rw [hdone.1, hinput] at hcourse
    exact ⟨before ++ [last], flow'.codec, .of_write hcourse hran.turn, hopen⟩

omit [Codec σ] in
/-- What becomes of the sink in a flush, whether it succeeds or not. -/
theorem flushSink_state (h : w.sink = some k) :
    w.flushSink.2 = { w with sink := some k.flush.2 } := by
  rw [Writer.flushSink, h]
  rcases hk : k.flush with ⟨error | ⟨⟩, k'⟩
  · simp only [hk]
  · simp only [hk]

omit [Codec σ] in
theorem Open.flushSink (hw : w.Open window s received) :
    w.flushSink.2.Open window s received := by
  obtain ⟨sink, hlive, hreceived⟩ := hw.live
  rw [flushSink_state hlive.sink]
  exact ⟨hw.phase, hw.direction, hw.window, hw.codec, sink.flush.2, rfl,
    by rw [sink.received_flush, hreceived]⟩

theorem finishStep_ok (mode : FlushMode) {n : Nat}
    (h : w.finishStep limit mode.directive = (.ok n, w')) (hw : w.Open window s received) :
    ∃ turns s', Effort (.flush mode) s turns s' ∧
      w'.Open window s' (received ++ madeBy turns) := by
  unfold finishStep at h
  rcases hpump : w.pump limit [] mode.directive fun left _ _ => left == 0 with
    ⟨failure | pushed, w₁⟩
  · simp [hpump, fail] at h
  · simp only [hpump, fail] at h
    obtain ⟨flow, flow', before, last, rfl, hinput, hran, hopen⟩ := pump_ok hpump hw
    have hw' : w'.Open window flow'.codec (received ++ madeBy (before ++ [last])) := by
      have hflushed := hopen.flushSink
      rcases hf : w₁.flushSink with ⟨failure | ⟨⟩, w₂⟩
      · simp [hf] at h
      · simp only [hf, Prod.mk.injEq] at h
        rw [hf] at hflushed
        exact h.2 ▸ hflushed
    exact ⟨before ++ [last], flow'.codec, hran.effort (hinput ▸ Input.unread_ofList []), hw'⟩

theorem flush_ok {mode : FlushMode} {n : Nat} (h : w.flush limit mode = (.ok n, w'))
    (hw : w.Open window s received) :
    ∃ turns s', Effort (.flush mode) s turns s' ∧
      w'.Open window s' (received ++ madeBy turns) := by
  unfold flush at h
  rw [hw.phase, hw.direction] at h
  exact finishStep_ok mode h hw

theorem push_ok {op : WriterOp} {n : Nat} (h : w.push limit op = (.ok n, w'))
    (hw : w.Open window s received) :
    ∃ turns s', Effort op s turns s' ∧ w'.Open window s' (received ++ madeBy turns) := by
  cases op with
  | write bytes => exact write_ok h hw
  | flush mode => exact flush_ok h hw

theorem pushAll_ok {ops : List WriterOp} (h : w.pushAll limit ops = (.ok (), w'))
    (hw : w.Open window s received) :
    ∃ made s', Session s ops made s' ∧ w'.Open window s' (received ++ made) := by
  induction ops generalizing w s received with
  | nil =>
    cases h
    exact ⟨[], s, .nil, by rwa [List.append_nil]⟩
  | cons op ops ih =>
    rcases hpush : w.push limit op with ⟨failure | n, w₁⟩
    · simp [pushAll, hpush] at h
    · simp only [pushAll, hpush] at h
      obtain ⟨turns, s₁, heffort, hopen⟩ := push_ok hpush hw
      obtain ⟨made, s', hsession, hopen'⟩ := ih h hopen
      exact ⟨_, s', .cons heffort hsession, by rwa [← List.append_assoc]⟩

/-! ## Scopes -/

omit [Codec σ] in
theorem new_eq {direction : Direction} {codec : σ} {sink : Sink} {settings : WriterSettings}
    (h : 0 < settings.writeSize) :
    Writer.new direction codec sink settings =
      .ok ⟨.notEntered, direction, some sink, .live codec, settings.writeSize, settings, 0⟩ :=
  if_neg (Nat.ne_of_gt h)

omit [Codec σ] in
/-- What a writer is like that has not been entered. -/
theorem new_ok {direction : Direction} {codec : σ} {sink : Sink} {settings : WriterSettings}
    (h : Writer.new direction codec sink settings = .ok w) :
    0 < settings.writeSize ∧
      w = ⟨.notEntered, direction, some sink, .live codec, settings.writeSize, settings, 0⟩ := by
  rw [Writer.new] at h
  split at h
  · cases h
  · next hsize => exact ⟨Nat.pos_of_ne_zero hsize, (Except.ok.inj h).symm⟩

/-- Entering tells the codec the size. -/
theorem enter_ok {codec : σ} {sink : Sink} {settings : WriterSettings}
    (hnew : Writer.new .compressing codec sink settings = .ok w) (h : w.enter = (.ok (), w')) :
    0 < settings.writeSize ∧ ∃ s, Codec.pledge codec settings.sourceSize = (.ok (), s) ∧
      w'.Open settings.writeSize s sink.received.toList := by
  obtain ⟨hsize, rfl⟩ := new_ok hnew
  rcases hpledge : Codec.pledge codec settings.sourceSize with ⟨failure | ⟨⟩, s⟩
  · simp [enter, Phase.enter, hpledge] at h
  · simp only [enter, Phase.enter, hpledge, Prod.mk.injEq, true_and] at h
    exact ⟨hsize, s, rfl, h ▸ ⟨rfl, rfl, rfl, rfl, sink, rfl, rfl⟩⟩

/-- A normal exit ends the frame, and the sink stays. -/
theorem exit_ok (h : w.exit limit true = (.ok (), w')) (hw : w.Open window s received) :
    ∃ turns s' sink, Effort (.flush .frame) s turns s' ∧ w'.sink = some sink ∧
      sink.received.toList = received ++ madeBy turns := by
  simp only [exit, hw.phase, Phase.require, if_true, settle, hw.direction] at h
  rcases hfinish : w.finishStep limit .finish with ⟨failure | n, w₁⟩
  · simp [hfinish] at h
  · simp only [hfinish, Prod.mk.injEq, true_and] at h
    obtain ⟨turns, s', heffort, hopen⟩ := finishStep_ok .frame hfinish hw
    obtain ⟨sink, hsink, hreceived⟩ := hopen.sink
    exact ⟨turns, s', sink, heffort, h ▸ hsink, hreceived⟩

/-- A scope that is left normally is a session of what its body asks for and of the end of the
frame. -/
theorem scope_ok {codec : σ} {sink : Sink} {settings : WriterSettings} {ops : List WriterOp}
    (hnew : Writer.new .compressing codec sink settings = .ok w)
    (h : w.scope limit (fun w => w.pushAll limit ops) = (.ok (), w')) :
    0 < settings.writeSize ∧ ∃ s s' made sink',
      Codec.pledge codec settings.sourceSize = (.ok (), s) ∧
      Session s (ops ++ [.flush .frame]) made s' ∧ w'.sink = some sink' ∧
      sink'.received.toList = sink.received.toList ++ made := by
  rcases henter : w.enter with ⟨failure | ⟨⟩, w₁⟩
  · simp [scope, henter] at h
  obtain ⟨hsize, s, hpledge, hopen⟩ := enter_ok hnew henter
  rcases hbody : w₁.pushAll limit ops with ⟨failure | ⟨⟩, w₂⟩
  · simp [scope, henter, hbody] at h
  obtain ⟨made, s₁, hsession, hopen⟩ := pushAll_ok hbody hopen
  rcases hexit : w₂.exit limit true with ⟨failure | ⟨⟩, w₃⟩
  · simp [scope, henter, hbody, hexit] at h
  simp only [scope, henter, hbody, hexit, Prod.mk.injEq, true_and] at h
  obtain ⟨turns, s', sink', heffort, hsink, hreceived⟩ := exit_ok hexit hopen
  refine ⟨hsize, s, s', _, sink', hpledge, hsession.append (.cons heffort .nil), h ▸ hsink, ?_⟩
  rw [hreceived, List.append_nil, List.append_assoc]

end Writer

end Sluice
