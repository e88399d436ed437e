import Sluice.Proofs.FrameDecoders

/-!
# Decoders that wait

A decoder may be asked to go on although there is no input for it. Inside a frame it hands out what
has found no room before, and between frames it does nothing.

* `PatientDecoding` — a frame decoder of which that is known.
* `FrameDecoder.patientDecoding`, `Zstd.Unpacking.patientDecoding`,
  `Deflate.Unpacking.patientDecoding` — all frame decoders of the library wait.
* `Opening` — a decoder inside one frame, with anything behind that frame.
* `Opening.step` — one step of it.
-/

namespace Sluice

variable {σ δ : Type} [Codec σ] [ByteDecoder δ]

/-- A frame decoder that may be asked to go on without input. -/
structure PatientDecoding (like : σ → Queued δ → Bool → Prop) : Prop extends
    FrameDecoding like where
  /-- inside a frame, a step without input is a run of the queue -/
  waits {s : σ} {q : Queued δ} {room : Nat} : like s q true → 0 < room →
    Follows like true (Codec.step s [] room .proceed) (q.go [] room 0 #[])
  /-- between frames, it changes nothing -/
  rests {s : σ} {d : δ} {room : Nat} : like s (.new d) false → 0 < room →
    ∃ left, (Codec.step s [] room .proceed).result = .ok left ∧
      (Codec.step s [] room .proceed).output = [] ∧
      like (Codec.step s [] room .proceed).state (.new d) false

/-- A step over input, or inside a frame, is a run of the queue. -/
theorem PatientDecoding.follows {like : σ → Queued δ → Bool → Prop} (hP : PatientDecoding like)
    {s : σ} {q : Queued δ} {partRead : Bool} {unread : List UInt8} {room : Nat}
    (hlike : like s q partRead) (hactive : unread ≠ [] ∨ partRead = true) (hroom : 0 < room) :
    Follows like partRead (Codec.step s unread room .proceed) (q.go unread room 0 #[]) := by
  by_cases hne : unread = []
  · subst hne
    obtain rfl : partRead = true := hactive.resolve_left fun h => h rfl
    exact hP.waits hlike hroom
  · exact hP.proceed hlike hne hroom

/-! ## The frame decoders -/

omit [Codec σ] in
/-- Between frames, a run of the queue without input changes nothing. -/
theorem Follows.rests {like : σ → Queued δ → Bool → Prop} {step : Step σ} {d : δ} {room : Nat}
    (h : Follows like false step (Queued.go (.new d) [] room 0 #[])) :
    ∃ left, step.result = .ok left ∧ step.output = [] ∧ like step.state (.new d) false := by
  have hqueue : ([] : List UInt8).length ≤ room := Nat.zero_le room
  rw [Queued.new, Queued.go_nil 0 #[] hqueue] at h
  obtain ⟨-, houtput, hlike, number, hnumber, -⟩ := h
  exact ⟨number, hnumber, houtput, hlike⟩

/-- The codec of a frame automaton waits. -/
theorem FrameDecoder.patientDecoding {δ : Type} [FrameAutomaton δ] [LawfulFrameAutomaton δ] :
    PatientDecoding (Like : FrameDecoder δ → Queued δ → Bool → Prop) where
  toFrameDecoding := frameDecoding
  waits {s q room} := by
    intro hlike _
    exact go_agrees hlike [] room 0 #[]
  rests {s d room} := by
    intro hlike _
    exact Follows.rests (go_agrees hlike [] room 0 #[])

variable {ρ : Type} [Unframer ρ] {like : ρ → Queued δ → Prop}

/-- The Zstandard codec over a decoder that works byte by byte waits. -/
theorem Zstd.Unpacking.patientDecoding (hB : Bytewise like) : PatientDecoding (Like like) := by
  have hfollows : ∀ {u : Unpacking ρ} {q : Queued δ} {partRead : Bool} {room : Nat},
      Like like u q partRead → 0 < room →
        Follows (Like like) partRead (Codec.step u [] room .proceed) (q.go [] room 0 #[]) := by
    intro u q partRead room hlike hroom
    refine follows (hB.run hlike.1 hroom) hlike .proceed fun left hleft => ?_
    obtain ⟨result, hstep, hproceed, -⟩ := step_of_more .proceed hleft
    exact ⟨left, by rw [hstep, hproceed rfl]⟩
  refine { toFrameDecoding := frameDecoding hB, waits := hfollows, rests := ?_ }
  intro u d room hlike hroom
  exact (hfollows hlike hroom).rests

/-- The DEFLATE codec over a decoder that works byte by byte waits, if after the end of a stream the
automaton is as after a reset. -/
theorem Deflate.Unpacking.patientDecoding (hB : Bytewise like)
    (hrewinds : ∀ (d next : δ) byte output,
      ByteDecoder.feed d byte = .ended next output → ByteDecoder.reset next = next) :
    PatientDecoding (Like like) where
  toFrameDecoding := frameDecoding hB hrewinds
  waits {u q room} := by
    intro h hroom
    have hended := h.not_ended
    change Follows (Like like) true (step u [] room .proceed) _
    rw [step, hended, if_neg Bool.false_ne_true, h.frameOpen hended, Bool.true_or]
    refine follows hrewinds (hB.run h.like hroom) (hB.intact h.like) (fun _ => rfl) h.rewound
      .proceed (.inr rfl) fun left hleft => ?_
    obtain ⟨result, hstep, hproceed, -⟩ := stepWithin_of_more .proceed hleft
    exact ⟨0, by rw [hstep, hproceed rfl]⟩
  rests {u d room} := by
    intro h hroom
    change ∃ left, (step u [] room .proceed).result = .ok left ∧
      (step u [] room .proceed).output = [] ∧ Like like (step u [] room .proceed).state _ _
    cases hended : u.ended with
    | true =>
      rw [step, hended, if_pos rfl, List.isEmpty_nil, if_pos rfl]
      exact ⟨0, rfl, rfl, h⟩
    | false =>
      -- no stream has been begun, and none is now
      obtain ⟨-, houtput, hstate, left, hleft⟩ := (hB.run h.like hroom).idle
      obtain ⟨result, hstep, hproceed, -⟩ := stepWithin_of_more .proceed hleft
      rw [step, hended, if_neg Bool.false_ne_true, h.frameOpen hended, List.isEmpty_nil,
        Bool.not_true, Bool.or_false, hstep, hproceed rfl]
      exact ⟨1, rfl, houtput, hstate, fun _ => rfl, h.waits, h.rewound,
        fun h => Bool.noConfusion h⟩

/-! ## Inside one frame -/

variable {like : σ → Queued δ → Bool → Prop} {s : σ} {x missing rest : List UInt8} {d' : δ}
  {partRead : Bool}

/-- A decoder in state `s`, with the input `x` before it, inside a frame that ends in front of
`rest`; what is missing of the content of the frame is `missing`. Nothing waits before the first
byte of the frame has been taken. -/
def Opening (like : σ → Queued δ → Bool → Prop) (s : σ) (x missing : List UInt8) (d' : δ)
    (rest : List UInt8) (partRead : Bool) : Prop :=
  ∃ q, like s q partRead ∧ q.Inside x missing d' rest ∧ (q.frameEnd = true → q.queue ≠ []) ∧
    (partRead = false → q.queue = [] ∧ q.frameEnd = false)

omit [Codec σ] in
/-- In front of a frame. -/
theorem Opening.start {d : δ} {f : List UInt8} (hlike : like s (.new d) false)
    (hframe : Frame d f missing d') (rest : List UInt8) :
    Opening like s (f ++ rest) missing d' rest false :=
  ⟨.new d, hlike, .within hframe, fun hend => Bool.noConfusion hend, fun _ => ⟨rfl, rfl⟩⟩

/-- What a turn inside a frame does: it makes the front of what is missing, and ends the frame, or
stops inside of it for lack of room or of input. -/
structure Opened (like : σ → Queued δ → Bool → Prop) (t : Turn) (s' : σ)
    (later missing : List UInt8) (d' : δ) (rest missing' : List UInt8) : Prop where
  content : missing = t.made ++ missing'
  ended : t.left = 0 → missing' = [] ∧ t.rest ++ later = rest
  inside : t.left ≠ 0 → Opening like s' (t.rest ++ later) missing' d' rest true
  stops : t.left ≠ 0 → t.room ≤ t.made.length ∨ t.rest = [] ∧ rest.length < later.length

/-- What a decoder inside a frame can be asked for: to go on over input, or without any once a byte
of the frame has been taken; and to end, once there is no more input. -/
def Askable (directive : Directive) (u later : List UInt8) (partRead : Bool) : Prop :=
  directive = .proceed ∧ (u ≠ [] ∨ partRead = true) ∨ directive = .finish ∧ u ++ later = []

/-- A step inside a frame is a run of the queue. -/
theorem PatientDecoding.follows_inside (hP : PatientDecoding like) {q : Queued δ}
    {u later : List UInt8} {room : Nat} {directive : Directive} (hlike : like s q partRead)
    (hinside : q.Inside (u ++ later) missing d' rest) (hasked : Askable directive u later partRead)
    (hroom : 0 < room) :
    Follows like partRead (Codec.step s u room directive) (q.go u room 0 #[]) := by
  rcases hasked with ⟨rfl, hactive⟩ | ⟨rfl, hnil⟩
  · exact hP.follows hlike hactive hroom
  · rw [hnil] at hinside
    obtain ⟨rfl, -⟩ := List.append_eq_nil_iff.1 hnil
    exact hP.finish hlike hroom (.inl hinside.frameEnd_of_nil)

/-- Inside a frame, a decoder can always go on, and it can be told the end of the input once all of
it has been taken. -/
theorem Opening.step (hP : PatientDecoding like) {u later : List UInt8} {room : Nat}
    {directive : Directive} (h : Opening like s (u ++ later) missing d' rest partRead)
    (hasked : Askable directive u later partRead) (hroom : 0 < room) :
    ∃ left missing', (Codec.step s u room directive).result = .ok left ∧
      Opened like (.ofStep s u room directive left) (Codec.step s u room directive).state later
        missing d' rest missing' := by
  obtain ⟨q, hlike, hinside, hwaits, hfresh⟩ := h
  have hfollows := hP.follows_inside hlike hinside hasked hroom
  obtain ⟨left, hleft⟩ := hfollows.result_ok hinside
  have hlead := Turn.leads_ofStep hleft
  obtain ⟨missing', hcontent, hzero, hmore, hactive⟩ :=
    Follows.inside (t := .ofStep s u room directive left)
      (by rw [Turn.offered_ofStep]; exact hfollows) (by rw [Turn.offered_ofStep]; exact hinside)
      hroom hlead
  rw [Turn.offered_ofStep] at hactive
  refine ⟨left, missing', hleft, hcontent, fun hl => ⟨(hzero hl).1, (hzero hl).2.2⟩, ?_, ?_⟩
  · intro hl
    obtain ⟨q', hlike', hinside', hwaits', -⟩ := hmore hl
    have hpart : (partRead || decide ((Turn.ofStep s u room directive left).taken ≠ [])) = true := by
      cases partRead with
      | true => rfl
      | false =>
        -- a first step takes a byte, since nothing waits
        obtain ⟨hqueue, hend⟩ := hfresh rfl
        rcases hasked with ⟨-, hne⟩ | ⟨-, hnil⟩
        · have hact : q.Active u := .inr ⟨hne.resolve_right Bool.noConfusion, hend⟩
          simpa using (hactive hact).resolve_right fun h => h.1 hqueue
        · rw [hnil] at hinside
          exact Bool.noConfusion (hend.symm.trans hinside.frameEnd_of_nil)
    rw [hpart] at hlike'
    exact ⟨q', hlike', hinside', hwaits', fun h => Bool.noConfusion h⟩
  · intro hl
    obtain ⟨q', -, hinside', hwaits', hstops⟩ := hmore hl
    refine hstops.imp (fun hmade => Nat.le_of_eq hmade.symm) fun ⟨hqueue, hrest⟩ => ⟨hrest, ?_⟩
    rw [hrest, List.nil_append] at hinside'
    cases hinside' with
    | within frame =>
      have := List.length_pos_iff.2 frame.ne_nil
      rw [List.length_append]
      omega
    | ending => exact absurd hqueue (hwaits' rfl)

end Sluice
