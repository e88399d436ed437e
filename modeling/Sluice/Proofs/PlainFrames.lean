import Sluice.Proofs.Frames
import Sluice.Proofs.Framing

/-!
# Plain frames

The simplest frames that DEFLATE and Zstandard have: every byte is a block of its own, and nothing
is compressed. They are little use, but an encoder and a decoder for them are easily understood.

* `PlainStyle` — which bytes stand around the content.
* `PlainDecoder.isFrame` — the decoder takes a plain frame for what it is.
* `PlainFramer.framesWell` — the encoder makes plain frames.
-/

namespace Sluice

/-- How plain frames look: what stands in front of a frame, what in front of each byte of its
content, and what behind the last one. -/
structure PlainStyle where
  opening : List UInt8
  marker : UInt8
  markerRest : List UInt8
  closing : UInt8
  closingRest : List UInt8
  closing_ne : closing ≠ marker
  closingRest_ne : closingRest ≠ []

namespace PlainStyle

/-- Stored blocks of one byte, and an empty one that is the last. -/
def deflate : PlainStyle :=
  ⟨[], 0x00, [0x01, 0x00, 0xfe, 0xff], 0x01, [0x00, 0x00, 0xff, 0xff], by decide, by decide⟩

/-- The magic number, a header, raw blocks of one byte, and an empty one that is the last. -/
def zstd : PlainStyle :=
  ⟨[0x28, 0xb5, 0x2f, 0xfd, 0x00, 0x00], 0x08, [0x00, 0x00], 0x01, [0x00, 0x00], by decide,
    by decide⟩

/-- The blocks of a frame. -/
def blocks (p : PlainStyle) (content : List UInt8) : List UInt8 :=
  content.flatMap (fun byte => p.marker :: (p.markerRest ++ [byte])) ++ p.closing :: p.closingRest

/-- The frame with some content. -/
def frame (p : PlainStyle) (content : List UInt8) : List UInt8 := p.opening ++ p.blocks content

theorem blocks_cons (p : PlainStyle) (byte : UInt8) (content : List UInt8) :
    p.blocks (byte :: content) = p.marker :: (p.markerRest ++ byte :: p.blocks content) := by
  simp [blocks]

end PlainStyle

/-! ## Decoding -/

/-- What a decoder of plain frames comes to next. -/
inductive PlainGoal where
  | block
  | literal
  | done
  deriving DecidableEq, Repr

/-- A decoder of plain frames: the bytes that it has to meet, and what comes then. -/
structure PlainDecoder where
  style : PlainStyle
  expected : List UInt8
  goal : PlainGoal

namespace PlainDecoder

/-- In front of a frame. -/
def start (p : PlainStyle) : PlainDecoder := ⟨p, p.opening, .block⟩

/-- Meet a byte. -/
def feed (d : PlainDecoder) (byte : UInt8) : Fed PlainDecoder :=
  match d.expected, d.goal with
  | next :: others, goal =>
    if byte ≠ next then .failed "plain: wrong byte"
    else if others = [] ∧ goal = .done then .ended (start d.style) []
    else .more ⟨d.style, others, goal⟩ []
  | [], .block =>
    if byte = d.style.marker then .more ⟨d.style, d.style.markerRest, .literal⟩ []
    else if byte = d.style.closing then .more ⟨d.style, d.style.closingRest, .done⟩ []
    else .failed "plain: wrong block"
  | [], .literal => .more ⟨d.style, [], .block⟩ [byte]
  | [], .done => .failed "plain: nothing to come"

instance : ByteDecoder PlainDecoder where
  feed := feed
  reset d := start d.style

variable {p : PlainStyle}

/-- Bytes that have to be met, on the way to a block or to a literal. -/
theorem frame_expected {goal : PlainGoal} (hgoal : goal ≠ .done) {f c : List UInt8}
    {d : PlainDecoder} (h : Frame ⟨p, [], goal⟩ f c d) (expected : List UInt8) :
    Frame ⟨p, expected, goal⟩ (expected ++ f) c d := by
  induction expected with
  | nil => exact h
  | cons next others ih =>
    have hfeed : ByteDecoder.feed (PlainDecoder.mk p (next :: others) goal) next =
        .more ⟨p, others, goal⟩ [] := by
      simp [ByteDecoder.feed, feed, hgoal]
    exact .more hfeed ih

/-- Bytes that have to be met, up to the end of the frame. -/
theorem frame_closing {expected : List UInt8} (h : expected ≠ []) :
    Frame ⟨p, expected, .done⟩ expected [] (start p) := by
  induction expected with
  | nil => exact absurd rfl h
  | cons next others ih =>
    by_cases hlast : others = []
    · subst hlast
      have hfeed : ByteDecoder.feed (PlainDecoder.mk p [next] .done) next = .ended (start p) [] := by
        simp [ByteDecoder.feed, feed]
      exact .ended hfeed
    · have hfeed : ByteDecoder.feed (PlainDecoder.mk p (next :: others) .done) next =
          .more ⟨p, others, .done⟩ [] := by
        simp [ByteDecoder.feed, feed, hlast]
      exact .more hfeed (ih hlast)

/-- The blocks of a frame contain what they should. -/
theorem frame_blocks (content : List UInt8) :
    Frame ⟨p, [], .block⟩ (p.blocks content) content (start p) := by
  induction content with
  | nil =>
    have hfeed : ByteDecoder.feed (PlainDecoder.mk p [] .block) p.closing =
        .more ⟨p, p.closingRest, .done⟩ [] := by
      simp [ByteDecoder.feed, feed, p.closing_ne]
    exact .more hfeed (frame_closing p.closingRest_ne)
  | cons byte content ih =>
    have hliteral : ByteDecoder.feed (PlainDecoder.mk p [] .literal) byte =
        .more ⟨p, [], .block⟩ [byte] := rfl
    have hmarker : ByteDecoder.feed (PlainDecoder.mk p [] .block) p.marker =
        .more ⟨p, p.markerRest, .literal⟩ [] := by
      simp [ByteDecoder.feed, feed]
    rw [PlainStyle.blocks_cons]
    exact .more hmarker (frame_expected (by decide) (.more hliteral ih) p.markerRest)

/-- A plain frame contains what it should. -/
theorem isFrame (p : PlainStyle) (content : List UInt8) :
    IsFrame (· = start p) (p.frame content) content := by
  rintro d rfl
  exact ⟨start p, rfl, frame_expected (by decide) (frame_blocks content) p.opening⟩

end PlainDecoder

/-! ## Encoding -/

/-- An encoder of plain frames: what it has taken for a frame, and what is left of the frame once it
has been asked to end it. -/
structure PlainFramer where
  style : PlainStyle
  fed : List UInt8
  rest : Option (List UInt8)

namespace PlainFramer

/-- Between two frames. -/
def new (p : PlainStyle) : PlainFramer := ⟨p, [], none⟩

/-- Hand out the front of some bytes, and keep the rest. -/
def handOut (f : PlainFramer) (taken : Nat) (bytes : List UInt8) (room : Nat) : Run PlainFramer :=
  ⟨taken, bytes.take room, { f with rest := some (bytes.drop room) },
    .ok (if (bytes.drop room).isEmpty then 0 else 1)⟩

/-- Nothing is made before a frame is ended, and no input is taken from then on. -/
instance : Framer PlainFramer where
  compress f unread room directive :=
    match f.rest, directive with
    | none, .proceed => ⟨unread.length, [], { f with fed := f.fed ++ unread }, .ok 1⟩
    | none, .flush => ⟨unread.length, [], { f with fed := f.fed ++ unread }, .ok 0⟩
    | none, .finish =>
      handOut { f with fed := f.fed ++ unread } unread.length (f.style.frame (f.fed ++ unread)) room
    | some bytes, .finish => handOut f 0 bytes room
    | some _, _ => ⟨0, [], f, .error "plain: the frame is being ended"⟩
  reset f := new f.style
  pledge f _ := (.ok (), f)

variable {p : PlainStyle} {f : PlainFramer} {emitted fed unread : List UInt8} {room left : Nat}
  {directive : Directive}

/-- Where an encoder is in a frame: nothing has been made of it, or some of all of it has. -/
structure Within (p : PlainStyle) (f : PlainFramer) (emitted fed : List UInt8) : Prop where
  style_eq : f.style = p
  fed_eq : f.fed = fed
  unmade : f.rest = none → emitted = []
  whole : emitted ++ f.rest.getD (p.frame fed) = p.frame fed

theorem length_compress_le (f : PlainFramer) (unread : List UInt8) (room : Nat)
    (directive : Directive) : (Framer.compress f unread room directive).output.length ≤ room := by
  obtain ⟨style, fed, _ | rest⟩ := f
  · cases directive with
    | proceed => exact Nat.zero_le room
    | flush => exact Nat.zero_le room
    | finish => exact List.length_take_le ..
  · cases directive with
    | proceed => exact Nat.zero_le room
    | flush => exact Nat.zero_le room
    | finish => exact List.length_take_le ..

/-- Once all has been handed out, nothing is left. -/
theorem rest_handOut {taken : Nat} {bytes : List UInt8}
    (h : (f.handOut taken bytes room).result = .ok 0) :
    (f.handOut taken bytes room).state.rest = some [] := by
  simp only [handOut, Except.ok.injEq, ite_eq_left_iff, List.isEmpty_iff] at h ⊢
  simpa using h

/-- Bytes that are the rest of the frame stay so, as they are handed out. -/
theorem Within.handOut (f : PlainFramer) {bytes : List UInt8} (hstyle : f.style = p)
    (hfed : f.fed = fed) (hwhole : emitted ++ bytes = p.frame fed) (taken : Nat) :
    Within p (f.handOut taken bytes room).state (emitted ++ (f.handOut taken bytes room).output)
      fed where
  style_eq := hstyle
  fed_eq := hfed
  unmade h := by cases h
  whole := by
    simp only [PlainFramer.handOut, Option.getD_some, List.append_assoc, List.take_append_drop]
    exact hwhole

/-- What has been made, and what is left of the frame, stay the frame. -/
theorem Within.compress (h : Within p f emitted fed)
    (hresult : (Framer.compress f unread room directive).result = .ok left) :
    Within p (Framer.compress f unread room directive).state
      (emitted ++ (Framer.compress f unread room directive).output)
      (fed ++ unread.take (Framer.compress f unread room directive).taken) := by
  obtain ⟨hstyle, hfed, hunmade, hwhole⟩ := h
  obtain ⟨style, fed', _ | rest⟩ := f
  · -- all of the input is taken
    obtain rfl := hunmade rfl
    subst hstyle hfed
    cases directive with
    | proceed => exact ⟨rfl, by simp [Framer.compress], fun _ => rfl, by simp [Framer.compress]⟩
    | flush => exact ⟨rfl, by simp [Framer.compress], fun _ => rfl, by simp [Framer.compress]⟩
    | finish =>
      have hrun : Framer.compress (⟨style, fed', none⟩ : PlainFramer) unread room .finish =
          PlainFramer.handOut ⟨style, fed' ++ unread, none⟩ unread.length
            (style.frame (fed' ++ unread)) room := rfl
      rw [hrun, show (PlainFramer.handOut _ unread.length _ room).taken = unread.length from rfl,
        List.take_length]
      exact .handOut ⟨style, fed' ++ unread, none⟩ rfl rfl (List.nil_append _) _
  · -- and nothing of it from then on
    cases directive with
    | finish =>
      have hrun : Framer.compress (⟨style, fed', some rest⟩ : PlainFramer) unread room .finish =
          PlainFramer.handOut ⟨style, fed', some rest⟩ 0 rest room := rfl
      rw [hrun, show (PlainFramer.handOut _ 0 rest room).taken = 0 from rfl, List.take_zero,
        List.append_nil]
      exact .handOut ⟨style, fed', some rest⟩ hstyle hfed hwhole 0
    | proceed => cases hresult
    | flush => cases hresult

/-- What has been made, and what is left of the frame, are the frame. -/
theorem within_of_framing (h : Framing (new p) f emitted fed) : Within p f emitted fed := by
  induction h with
  | start => exact ⟨rfl, rfl, fun _ => rfl, rfl⟩
  | pledged pledge =>
    cases pledge
    exact ⟨rfl, rfl, fun _ => rfl, rfl⟩
  | compress before result _ ih => exact ih.compress result

/-- The encoder makes plain frames. -/
theorem framesWell (p : PlainStyle) :
    FramesWell (· = new p) (IsFrame (· = PlainDecoder.start p)) where
  length_compress_le _ _ := length_compress_le ..
  ended {f₀ f emitted fed unread room} := by
    rintro rfl hframing hzero
    have hwithin := (within_of_framing hframing).compress hzero
    -- nothing is left of the frame
    have hnil : (Framer.compress f unread room .finish).state.rest = some [] := by
      obtain ⟨style, fed, _ | rest⟩ := f
      · exact rest_handOut hzero
      · exact rest_handOut hzero
    have hall := hwithin.whole
    rw [hnil, Option.getD_some, List.append_nil] at hall
    exact ⟨hall ▸ PlainDecoder.isFrame p _, congrArg new hwithin.style_eq⟩

end PlainFramer

end Sluice
