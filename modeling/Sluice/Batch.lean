import Sluice.OneShot
import Sluice.Segment.Buffer

/-!
# Batches

Many items at once: every item becomes a frame of its own, or every frame an item, and the results
lie one after the other in a segmented buffer. One codec does all the work.
-/

namespace Sluice

variable {σ : Type} [Codec σ]

/-- Compress the items in order, adding each frame to `packed`. -/
def compressItems (limit : Nat) (codec : σ) (packed : SegmentedBuffer) :
    List (List UInt8) → Except Failure SegmentedBuffer
  | [] => .ok packed
  | item :: rest =>
    match compressFrame limit codec item with
    | (.error failure, _) => .error failure
    | (.ok frame, codec) => compressItems limit codec (packed.push frame) rest

/-- Compress every item into a frame of its own. There has to be an item, and one that is not
empty. -/
def compressBatch (limit : Nat) (codec : σ) (items : List (List UInt8)) :
    Except Failure SegmentedBuffer :=
  match compressItems limit codec .empty items with
  | .error failure => .error failure
  | .ok packed =>
    if items = [] then .error (.misuse .noElements)
    else if items.all List.isEmpty then .error (.misuse .emptyElements)
    else .ok packed

/-- A failure of a codec, with the index of the item it was working on. -/
def Failure.atItem (index : Nat) : Failure → Failure
  | .codec text => .codec ("error decompressing item " ++ toString index ++ ": " ++ text)
  | failure => failure

/-- Decompress the frames in order, adding each result to `unpacked`; `index` counts them. -/
def decompressItems (limit : Nat) (codec : σ) (unpacked : SegmentedBuffer) (index : Nat) :
    List (List UInt8) → Except Failure SegmentedBuffer
  | [] => .ok unpacked
  | frame :: rest =>
    match decompressFrame limit (Codec.reset codec) frame none with
    | (.error failure, _) => .error (failure.atItem index)
    | (.ok item, codec) => decompressItems limit codec (unpacked.push item) (index + 1) rest

/-- Decompress every frame, each with a codec that has been reset. There has to be a frame. -/
def decompressBatch (limit : Nat) (codec : σ) (frames : List (List UInt8)) :
    Except Failure SegmentedBuffer :=
  match decompressItems limit codec .empty 0 frames with
  | .error failure => .error failure
  | .ok unpacked =>
    if frames = [] then .error (.misuse .noElements) else .ok unpacked

end Sluice
