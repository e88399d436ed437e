import Sluice.Proofs.Pushing
import Sluice.Proofs.Supply
import Sluice.Transfer

/-!
# Copying

A copy writes what the source gives, piece by piece, and then ends the frame.

* `Copying.run_ok` — the writes of the loop push all of the content, whatever the pieces are.
* `transfer_ok` — a transfer is a session of these writes and of the end of the frame.
-/

namespace Sluice

variable {σ : Type} [Codec σ]

/-- The loop comes to its end when the source does, and it writes all that the source gives. -/
theorem Copying.run_ok {limit readSize : Nat} (hsize : 0 < readSize) {c c' : Copying σ} {window : Nat}
    {s : σ} {received : List UInt8} (h : Copying.run limit readSize c = (.ok (), c'))
    (hwhole : c.source.Whole) (hopen : c.writer.Open window s received) :
    ∃ ops made s', Session s ops made s' ∧ .flush .frame ∉ ops ∧ pushedBy ops = c.source.content ∧
      c'.writer.Open window s' (received ++ made) := by
  fun_induction Copying.run limit readSize c generalizing s received
  case case1 => cases h
  -- an empty piece is the end of the source
  case case2 c source hpull =>
    cases h
    have hcontent := hwhole.content_of_pull_nil hsize hpull
    exact ⟨[], [], s, .nil, List.not_mem_nil, hcontent.symm, by rwa [List.append_nil]⟩
  case case3 => cases h
  case case4 c byte rest source hpull n writer hwrite ih =>
    obtain ⟨turns, s₁, heffort, hopen₁⟩ := Writer.write_ok hwrite hopen
    have hwhole₁ := hwhole.of_suffix (Source.plan_pull hpull)
    obtain ⟨ops, made, s', hsession, hne, hpushed, hopen'⟩ := ih h hwhole₁ hopen₁
    refine ⟨.write (byte :: rest) :: ops, _, s', .cons heffort hsession, ?_, ?_, ?_⟩
    · simpa using hne
    · rw [pushedBy_cons, hpushed, Source.content_pull hpull]
      rfl
    · rwa [← List.append_assoc]

/-- What a copy through a fresh writer has done, if it succeeds. -/
theorem copy_ok {limit readSize : Nat} (hsize : 0 < readSize) {codec : σ} {source source' : Source}
    {sink : Sink} {settings : WriterSettings} {writer writer' : Writer σ} {counts : Nat × Nat}
    (hnew : Writer.new .compressing codec sink settings = .ok writer) (hwhole : source.Whole)
    (h : copy limit source writer readSize = (.ok counts, source', writer')) :
    ∃ s ops made s' sink', Codec.pledge codec settings.sourceSize = (.ok (), s) ∧
      Session s (ops ++ [.flush .frame]) made s' ∧ .flush .frame ∉ ops ∧
      pushedBy ops = source.content ∧ writer'.sink = some sink' ∧
      sink'.received.toList = sink.received.toList ++ made := by
  rcases henter : writer.enter with ⟨failure | ⟨⟩, w₀⟩
  · simp [copy, henter] at h
  obtain ⟨-, s, hpledge, hopen⟩ := Writer.enter_ok hnew henter
  rcases hrun : Copying.run limit readSize ⟨source, w₀, 0⟩ with ⟨failure | ⟨⟩, c⟩
  · simp [copy, henter, hrun] at h
  obtain ⟨ops, made, s₁, hsession, hne, hpushed, hopen₁⟩ :=
    Copying.run_ok hsize hrun hwhole hopen
  rcases hexit : c.writer.exit limit true with ⟨failure | ⟨⟩, w₁⟩
  · simp [copy, henter, hrun, hexit] at h
  simp only [copy, henter, hrun, hexit, Prod.mk.injEq] at h
  obtain ⟨-, -, rfl⟩ := h
  obtain ⟨turns, s', sink', heffort, hsink, hreceived⟩ := Writer.exit_ok hexit hopen₁
  refine ⟨s, ops, _, s', sink', hpledge, hsession.append (.cons heffort .nil), hne, hpushed, hsink,
    ?_⟩
  rw [hreceived, List.append_nil, List.append_assoc]

/-- A transfer makes the writer, copies, and hands the sink back. -/
theorem transfer_ok {limit readSize : Nat} (hsize : 0 < readSize) {codec : σ}
    {source source' : Source} {sink sink' : Sink} {settings : WriterSettings} {counts : Nat × Nat}
    (hwhole : source.Whole)
    (h : transfer limit source sink readSize (Writer.new .compressing codec sink settings) =
      (.ok counts, source', sink')) :
    ∃ s ops made s', Codec.pledge codec settings.sourceSize = (.ok (), s) ∧
      Session s (ops ++ [.flush .frame]) made s' ∧ .flush .frame ∉ ops ∧
      pushedBy ops = source.content ∧
      sink'.received.toList = sink.received.toList ++ made := by
  rcases hnew : Writer.new .compressing codec sink settings with failure | writer
  · simp [transfer, hnew] at h
  rcases hcopy : copy limit source writer readSize with ⟨result, source₁, writer'⟩
  simp only [transfer, hnew, hcopy, Prod.mk.injEq] at h
  obtain ⟨rfl, -, rfl⟩ := h
  obtain ⟨s, ops, made, s', sink₁, hpledge, hsession, hne, hpushed, hsink, hreceived⟩ :=
    copy_ok hsize hnew hwhole hcopy
  refine ⟨s, ops, made, s', hpledge, hsession, hne, hpushed, ?_⟩
  rw [hsink, Option.getD_some, hreceived]

end Sluice
