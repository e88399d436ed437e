import Sluice.Error

/-!
# Sources

Where a reader's bytes come from. A source answers each request with some bytes, with none (the
end), or with a failure. How it answers is part of its value: a *plan* of answers, and once the
plan is used up, as many bytes as were asked for and are left.

* `Source.read` — one request.
* `Source.pull` — requests until one is answered by anything but an interruption.
* `Source.answersLeft` — a bound on the answers that are still to come before the end; every pull
  that brings bytes makes it smaller (`Source.answersLeft_pull`).
-/

namespace Sluice

/-- One planned answer of a source or a sink. -/
inductive Answer where
  /-- move at most `limit` bytes -/
  | move (limit : Nat)
  | fail (error : IoError)

/-- A source: the bytes it will still give, its plan, and the sizes it has been asked for. -/
structure Source where
  content : List UInt8
  plan : List Answer := []
  requests : Array Nat := #[]

namespace Source

/-- Give the next `count` bytes of the content. -/
def give (s : Source) (count : Nat) (plan : List Answer) (size : Nat) : List UInt8 × Source :=
  (s.content.take count, ⟨s.content.drop count, plan, s.requests.push size⟩)

/-- One request for up to `size` bytes; an answer without bytes is the end of the source. -/
def read (s : Source) (size : Nat) : Except IoError (List UInt8) × Source :=
  match s.plan with
  | [] =>
    let (bytes, s) := s.give size [] size
    (.ok bytes, s)
  | .move limit :: plan =>
    let (bytes, s) := s.give (min limit size) plan size
    (.ok bytes, s)
  | .fail error :: plan =>
    (.error error, { s with plan, requests := s.requests.push size })

/-- The number of answers the source can still give without ending. -/
def answersLeft (s : Source) : Nat := s.content.length + s.plan.length

theorem plan_read (s : Source) (size : Nat) : (s.read size).2.plan = s.plan.tail := by
  unfold read
  split <;> simp_all [give]

/-- A request never adds to what the source holds. -/
theorem answersLeft_read_le (s : Source) (size : Nat) :
    (s.read size).2.answersLeft ≤ s.answersLeft := by
  unfold read
  split <;> simp_all [give, answersLeft]
  omega

/-- Bytes that have been given are gone from the source. -/
theorem length_drop_lt {content bytes : List UInt8} {count : Nat}
    (h : content.take count = bytes) (hb : bytes ≠ []) :
    (content.drop count).length < content.length := by
  have : 0 < (content.take count).length := by
    rw [h]
    exact List.length_pos_iff.2 hb
  simp at this ⊢
  omega

/-- Only an end of input leaves a source as full as it was. -/
theorem answersLeft_read_lt {s : Source} {size : Nat} {bytes : List UInt8}
    (h : (s.read size).1 = .ok bytes) (hb : bytes ≠ []) :
    (s.read size).2.answersLeft < s.answersLeft := by
  unfold read at h ⊢
  split at h
  · next hp =>
    simp only [give, Except.ok.injEq] at h
    have := length_drop_lt h hb
    simpa [give, answersLeft, hp] using this
  · next limit plan hp =>
    simp only [give, Except.ok.injEq] at h
    have := length_drop_lt h hb
    simp only [give, answersLeft, hp, List.length_cons]
    omega
  · simp at h

theorem answersLeft_read_fail {s : Source} {size : Nat} {error : IoError}
    (h : (s.read size).1 = .error error) : (s.read size).2.answersLeft < s.answersLeft := by
  unfold read at h ⊢
  split <;> simp_all [answersLeft, give]

/-- Ask for up to `size` bytes until the source answers with bytes, its end, or a failure that is
no interruption. -/
def pull (s : Source) (size : Nat) : Except Failure (List UInt8) × Source :=
  match _h : s.read size with
  | (.ok bytes, s') => (.ok bytes, s')
  | (.error error, s') =>
    if error.kind = .interrupted then s'.pull size else (.error (.ofIo error), s')
termination_by s.answersLeft
decreasing_by
  have := @answersLeft_read_fail s size error (by rw [_h])
  rw [_h] at this
  exact this

/-- Every pull that brings bytes leaves fewer answers. -/
theorem answersLeft_pull {s : Source} {size : Nat} {bytes : List UInt8}
    (h : (s.pull size).1 = .ok bytes) (hb : bytes ≠ []) :
    (s.pull size).2.answersLeft < s.answersLeft := by
  fun_induction pull s size with
  | case1 s got s' hr =>
    have := @answersLeft_read_lt s size got (by simp [hr])
    simp at h
    simp [hr] at this
    exact this (h ▸ hb)
  | case2 s error s' hr hk ih =>
    have := answersLeft_read_le s size
    simp [hr] at this
    have := ih h
    omega
  | case3 s error s' hr hk => simp at h

end Source

end Sluice
