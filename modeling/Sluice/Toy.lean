import Sluice.Toy.Hold
import Sluice.Toy.LengthPrefixed
import Sluice.Toy.Script

/-!
# Toy codecs

Codecs small enough to follow by hand, to try readers and writers with.

* `Toy.script` — does as it is told.
* `Toy.hold` — holds input back.
* `Toy.unframe` — takes length-prefixed frames apart.
-/

namespace Sluice

/-- A toy codec. -/
inductive Toy where
  | script (codec : Toy.Script)
  | hold (codec : Toy.Hold)
  | unframe (codec : FrameDecoder Toy.LengthPrefixed)

instance : Codec Toy where
  name _ := "toy"
  step toy unread room directive :=
    match toy with
    | .script c => (Codec.step c unread room directive).map .script
    | .hold c => (Codec.step c unread room directive).map .hold
    | .unframe c => (Codec.step c unread room directive).map .unframe
  reset
    | .script c => .script (Codec.reset c)
    | .hold c => .hold (Codec.reset c)
    | .unframe c => .unframe (Codec.reset c)
  pledge toy _ := (.ok (), toy)

end Sluice
