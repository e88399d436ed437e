import Sluice.Deflate.Codec
import Sluice.Deflate.Decoder
import Sluice.Deflate.Encoder
import Sluice.Settings
import Sluice.Stored
import Sluice.Zstd.Codec
import Sluice.Zstd.Decoder
import Sluice.Zstd.Encoder

/-!
# Engines

The codecs of this library under one roof, and how they are chosen.

* `Engine` — any of the five codecs.
* `Engine.packing`, `Engine.unpacking` — the codec for some settings. Settings that the method
  cannot serve are refused here, before anything is done with the codec.
-/

namespace Sluice

/-- A codec of this library. -/
inductive Engine where
  | stored (codec : Stored)
  | inflate (codec : Deflate.Unpacking Deflate.Decoder)
  | deflate (codec : Deflate.Packer (Outgoing Deflate.Encoder))
  | unzstd (codec : Zstd.Unpacking Zstd.Unpacker)
  | zstd (codec : Zstd.Packer (Outgoing Zstd.Encoder))

namespace Engine

/-! ## The common interface -/

instance : Codec Engine where
  name
    | stored c => Codec.name c
    | inflate c => Codec.name c
    | deflate c => Codec.name c
    | unzstd c => Codec.name c
    | zstd c => Codec.name c
  step engine unread room directive :=
    match engine with
    | stored c => (Codec.step c unread room directive).map stored
    | inflate c => (Codec.step c unread room directive).map inflate
    | deflate c => (Codec.step c unread room directive).map deflate
    | unzstd c => (Codec.step c unread room directive).map unzstd
    | zstd c => (Codec.step c unread room directive).map zstd
  reset
    | stored c => stored (Codec.reset c)
    | inflate c => inflate (Codec.reset c)
    | deflate c => deflate (Codec.reset c)
    | unzstd c => unzstd (Codec.reset c)
    | zstd c => zstd (Codec.reset c)
  pledge engine size :=
    match engine with
    | stored c => (Codec.pledge c size).map id stored
    | inflate c => (Codec.pledge c size).map id inflate
    | deflate c => (Codec.pledge c size).map id deflate
    | unzstd c => (Codec.pledge c size).map id unzstd
    | zstd c => (Codec.pledge c size).map id zstd

/-! ## Choosing -/

/-- The window logarithms that can be asked for. -/
def windowLogRange : Nat × Nat := (10, 31)

/-- A window logarithm that has been asked for: 0 stands for the default, and so does none. -/
def checkWindowLog (log : Option Nat) (fallback : Nat) : Except Failure Nat :=
  match log with
  | none | some 0 => .ok fallback
  | some n =>
    if windowLogRange.1 ≤ n ∧ n ≤ windowLogRange.2 then .ok n
    else .error (.codec "zstd parameter error: Parameter is out of bound")

/-- The codec that compresses as asked for. -/
def packing (p : Packing) : Except Failure Engine :=
  match p.method with
  | .stored => .ok (stored default)
  | .deflate => .ok (deflate (.new (.new (.new (Method.deflate.clampLevel p.level)))))
  | .zstd =>
    (checkWindowLog p.windowLog (Zstd.levelWindowLog p.level)).map fun windowLog =>
      zstd (.new (.new (.new ⟨windowLog, p.writeChecksum, p.writeContentSize⟩)))

/-- The codec that decompresses as asked for. -/
def unpacking (u : Unpacking) : Except Failure Engine :=
  match u.method with
  | .stored => .ok (stored default)
  | .deflate => .ok (inflate (.new .start))
  | .zstd =>
    (checkWindowLog u.windowLogMax Zstd.Delivery.defaultWindowLog).map fun windowLog =>
      unzstd (.new (.new (1 <<< windowLog)))

end Engine

end Sluice
