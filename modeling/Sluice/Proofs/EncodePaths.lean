import Sluice.Proofs.Chunking
import Sluice.Proofs.Copying
import Sluice.Proofs.EncodingReaders
import Sluice.Proofs.Gathering

/-!
# Ways to encode

Data can be encoded at once, through a writer, a copy, a reader or an iterator, and in pieces that a
builder or a chunker puts together. Each of these drives its encoder in a loop of its own. With an
encoder that conforms they all get a frame that decodes to the data, however the data is cut, and
wherever output ends at the end of a window, a chunk or a block.

* `EncodePaths` — what is asked of each way.
* `encodePaths` — an encoder that conforms is enough.
-/

namespace Sluice

/-- Whenever the calls succeed, each way to encode gives a frame that decodes to the data. -/
structure EncodePaths {σ : Type} [Codec σ] (decode : List UInt8 → Option (List UInt8))
    (codec : σ) : Prop where
  /-- all of the data at once -/
  whole {limit : Nat} {bytes out : List UInt8} {codec' : σ} :
    compressFrame limit codec bytes = (.ok out, codec') → decode out = some bytes
  /-- a scope of a writer that is left normally -/
  scope {sink : Sink} {settings : WriterSettings} {limit : Nat} {ops : List WriterOp}
    {w w' : Writer σ} : .flush .frame ∉ ops →
      Writer.new .compressing codec sink settings = .ok w →
        w.scope limit (fun w => w.pushAll limit ops) = (.ok (), w') →
          ∃ out, w'.received = some (sink.received.toList ++ out) ∧
            decode out = some (pushedBy ops)
  /-- a copy from a source to a sink -/
  copied {limit readSize : Nat} {source source' : Source} {sink sink' : Sink}
    {settings : WriterSettings} {counts : Nat × Nat} : 0 < readSize → source.Whole →
      transfer limit source sink readSize (Writer.new .compressing codec sink settings) =
        (.ok counts, source', sink') →
          ∃ out, sink'.received.toList = sink.received.toList ++ out ∧
            decode out = some source.content
  /-- a reader that is read until it answers with nothing, outside of a scope or inside of one -/
  read {source : Source} {settings : ReaderSettings} {r r₀ r' : Reader σ} {requests : List Request}
    {pieces : List (List UInt8)} : source.Whole →
      Reader.new .compressing codec source settings = .ok r →
        r₀ = r ∨ r.enter = (.ok (), r₀) → (∀ request ∈ requests, 0 < request.size) →
          r₀.serve requests = (pieces.map .ok, r') → [] ∈ pieces →
            decode pieces.flatten = some source.content
  /-- an iterator until it stops -/
  iterated {source : Source} {readSize writeSize : Nat} {p p' : Pieces σ}
    {pieces : List (List UInt8)} : source.Whole →
      Pieces.compressing codec source readSize writeSize = .ok p → p.Gives pieces p' →
        decode pieces.flatten = some source.content
  /-- a builder, up to the end of the frame -/
  built {size : Option Nat} {limit : Nat} {ops : List WriterOp} {b b' : FrameBuilder σ}
    {pieces : List (List UInt8)} : FrameBuilder.new codec size = .ok b →
      pushEach (FrameBuilder.push limit) b (ops ++ [.flush .frame]) = (.ok pieces, b') →
        decode pieces.flatten = some (pushedBy ops)
  /-- a chunker, up to the end of the frame -/
  chunked {size : Option Nat} {chunkSize limit : Nat} {ops : List WriterOp} {c c' : Chunker σ}
    {chunks : List (List (List UInt8))} : Chunker.new codec size chunkSize = .ok c →
      pushEach (Chunker.push limit) c (ops ++ [.flush .frame]) = (.ok chunks, c') →
        decode chunks.flatten.flatten = some (pushedBy ops)

variable {σ : Type} [Codec σ] {decode : List UInt8 → Option (List UInt8)} {codec : σ}

theorem Conforming.frontEnds (hC : Conforming decode codec) : EncodePaths decode codec where
  whole {limit bytes out codec'} := by
    intro h
    obtain ⟨s, before, last, y, hpledge, hcourse, hbefore, hlast, hrest, rfl⟩ := compressFrame_ok h
    have hmaking := Making.start hpledge bytes
    obtain ⟨s₁, later, hfirst, hlead, -⟩ := hcourse.concat_inv
    -- an end that is complete has taken all of the input
    have hne : last.directive ≠ .proceed := by simp [hlast.1]
    rw [hC.completes (hmaking.course hfirst hbefore) hlead hne hlast.2] at hrest
    exact hC.ends hmaking (hrest ▸ hcourse) hbefore hlast
  scope {sink settings limit ops w w'} := by
    intro hne hnew h
    obtain ⟨-, s, s', made, sink', hpledge, hsession, hsink, hreceived⟩ := Writer.scope_ok hnew h
    refine ⟨made, ?_, hC.session hpledge hsession hne⟩
    rw [Writer.received, hsink, Option.map_some, hreceived]
  copied {limit readSize source source' sink sink' settings counts} := by
    intro hsize hwhole h
    obtain ⟨s, ops, made, s', hpledge, hsession, hne, hpushed, hreceived⟩ :=
      transfer_ok hsize hwhole h
    exact ⟨made, hreceived, hpushed ▸ hC.session hpledge hsession hne⟩
  read {source settings r r₀ r' requests pieces} := by
    intro hwhole hnew hentered hsizes hserve hend
    have hencodes : r₀.Encodes decode codec source.content [] := by
      have houtside : r.Encodes decode codec source.content [] := Reader.encodes_new hnew hwhole
      rcases hentered with rfl | henter
      · exact houtside
      · exact houtside.enter henter
    exact hencodes.serve hC hsizes hserve (.inr hend)
  iterated {source readSize writeSize p p' pieces} := by
    intro hwhole hnew hgives
    obtain ⟨hsize, hdone, hencodes⟩ := Pieces.encodes_compressing hnew hwhole
    exact hgives.decodes hC hsize hdone hencodes
  built {size limit ops b b' pieces} := by
    intro hnew h
    obtain ⟨hsession, hne⟩ := FrameBuilder.pushEach_ok h
    exact hC.session (FrameBuilder.new_ok hnew) hsession hne
  chunked {size chunkSize limit ops c c' chunks} := by
    intro hnew h
    exact (Chunker.underway_new hnew).pushEach hC h

/-- All ways to encode agree, whichever encoder it is, as long as it conforms. Stored data does. -/
theorem encodePaths :
    (∀ {σ : Type} [Codec σ] {decode : List UInt8 → Option (List UInt8)} {codec : σ},
      Conforming decode codec → EncodePaths decode codec) ∧
    Conforming some Stored.stored :=
  ⟨fun hC => hC.frontEnds, Stored.conforming⟩

/-- Stored data at once, through a writer onto a sink that takes one byte first, through a builder,
and in chunks of two bytes, of which the first is full just when its write ends. -/
theorem encodePaths_stored :
    EncodePaths some Stored.stored ∧
    (compressFrame 9 Stored.stored [7, 8, 9]).1 = .ok [7, 8, 9] ∧
    (∃ w w', Writer.new .compressing Stored.stored { plan := [.move 1] } ⟨2, false, none⟩ = .ok w ∧
      w.scope 9 (fun w => w.pushAll 9 [.write [7, 8], .flush .block, .write [9]]) =
        (.ok (), w')) ∧
    (∃ b, FrameBuilder.new Stored.stored none = .ok b ∧
      (pushEach (FrameBuilder.push 9) b [.write [7, 8], .write [9], .flush .frame]).1 =
        .ok [[7, 8], [9], []]) ∧
    ∃ c, Chunker.new Stored.stored none 2 = .ok c ∧
      (pushEach (Chunker.push 9) c [.write [7, 8], .flush .block, .write [9], .flush .frame]).1 =
        .ok [[[7, 8]], [], [], [[9]]] := by
  have hsteady : Sink.Steady { plan := [.move 1] } := ⟨by simp, by simp⟩
  exact ⟨encodePaths.1 encodePaths.2, by cbv, Stored.scope_returns hsteady (by decide) (by decide),
    ⟨_, rfl, by cbv⟩, _, rfl, by cbv⟩

end Sluice
