import Sluice.Source

/-!
# What sources give

The answers of a source are planned, and a plan can do harm: it can fail, and it can pretend that
the source has ended while there are bytes left.

* `Source.Whole` — the plan never pretends an end.
* `Source.Steady` — the plan is short reads and interruptions only.
* `Source.failures` — how often the plan makes a pull fail.
* `content_pull`, `Source.Whole.content_of_pull_nil`, `Source.Steady.pull_ok` — what a pull brings
  is the front of the content; it is empty only at the end; and it does bring something.
* `length_pull` — a pull never brings more than was asked for.
* `plan_pull`, `failures_pull_error` — a pull uses up the front of the plan; one that fails, a failure.
-/

namespace Sluice

namespace Source

/-- The source does not end before its content does. -/
def Whole (s : Source) : Prop := Answer.move 0 ∉ s.plan

/-- Every answer is a short read of at least one byte, or an interruption. -/
def Steady (s : Source) : Prop :=
  ∀ answer ∈ s.plan, match answer with
    | .move limit => 0 < limit
    | .fail error => error.kind = .interrupted

theorem Steady.whole {s : Source} (h : s.Steady) : s.Whole := by
  intro hmem
  exact absurd (h _ hmem) (Nat.lt_irrefl 0)

/-- The number of planned failures that are no interruptions. -/
def failures (s : Source) : Nat :=
  s.plan.countP fun
    | .move _ => false
    | .fail error => error.kind ≠ .interrupted

/-! ## What is left of a plan -/

section Suffix

variable {s s' : Source}

theorem Whole.of_suffix (h : s.Whole) (hplan : s'.plan <:+ s.plan) : s'.Whole :=
  fun hmem => h (hplan.mem hmem)

theorem Steady.of_suffix (h : s.Steady) (hplan : s'.plan <:+ s.plan) : s'.Steady :=
  fun answer hmem => h answer (hplan.mem hmem)

theorem failures_le_of_suffix (hplan : s'.plan <:+ s.plan) : s'.failures ≤ s.failures :=
  hplan.sublist.countP_le

/-- A steady source does not fail. -/
theorem Steady.failures_eq_zero (h : s.Steady) : s.failures = 0 := by
  rw [failures, List.countP_eq_zero]
  intro answer hmem
  have hsteady := h answer hmem
  cases answer with
  | move limit => simp
  | fail error => simpa using hsteady

end Suffix

/-! ## One request -/

theorem content_read {s s' : Source} {size : Nat} {bytes : List UInt8}
    (h : s.read size = (.ok bytes, s')) : s.content = bytes ++ s'.content := by
  unfold read at h
  split at h
  · cases h
    exact (List.take_append_drop ..).symm
  · cases h
    exact (List.take_append_drop ..).symm
  · cases h

theorem content_read_error {s s' : Source} {size : Nat} {error : IoError}
    (h : s.read size = (.error error, s')) : s'.content = s.content := by
  unfold read at h
  split at h
  · cases h
  · cases h
  · cases h
    rfl

/-- A request uses up the first planned answer. -/
theorem plan_of_read {s s' : Source} {size : Nat} {answer : Except IoError (List UInt8)}
    (h : s.read size = (answer, s')) : s'.plan <:+ s.plan := by
  have hplan : s'.plan = s.plan.tail := by rw [← plan_read s size, h]
  rw [hplan]
  exact List.tail_suffix s.plan

/-- A request that fails by anything but an interruption uses up a failure. -/
theorem failures_read_error {s s' : Source} {size : Nat} {error : IoError}
    (h : s.read size = (.error error, s')) (hkind : error.kind ≠ .interrupted) :
    s'.failures < s.failures := by
  unfold read at h
  split at h
  · cases h
  · cases h
  · next planned plan hp =>
    cases h
    simp [failures, hp, hkind]

/-- An empty answer to a request for bytes is the end of the content. -/
theorem Whole.content_of_read_nil {s s' : Source} {size : Nat} (hw : s.Whole) (hsize : 0 < size)
    (h : s.read size = (.ok [], s')) : s.content = [] := by
  unfold Source.read at h
  split at h
  · cases hc : s.content with
    | nil => rfl
    | cons b rest =>
      obtain ⟨n, rfl⟩ := Nat.exists_eq_succ_of_ne_zero (Nat.ne_of_gt hsize)
      simp [give, hc] at h
  · next limit plan hp =>
    have hlimit : limit ≠ 0 := by
      rintro rfl
      exact hw (hp ▸ List.mem_cons_self)
    cases hc : s.content with
    | nil => rfl
    | cons b rest =>
      obtain ⟨n, hn⟩ := Nat.exists_eq_succ_of_ne_zero (show min limit size ≠ 0 by omega)
      simp [give, hc, hn] at h
  · cases h

/-- A steady source fails by interruptions only. -/
theorem Steady.interrupted {s s' : Source} {size : Nat} {error : IoError} (hs : s.Steady)
    (h : s.read size = (.error error, s')) : error.kind = .interrupted := by
  unfold Source.read at h
  split at h
  · cases h
  · cases h
  · next e plan hp =>
    cases h
    exact hs (.fail _) (hp ▸ List.mem_cons_self)

/-! ## Pulls -/

/-- A request that is answered is the last one of a pull. -/
theorem pull_of_read_ok {s s' : Source} {size : Nat} {bytes : List UInt8}
    (h : s.read size = (.ok bytes, s')) : s.pull size = (.ok bytes, s') := by
  rw [pull]
  split
  · next h' =>
    cases h'.symm.trans h
    rfl
  · next h' => cases h'.symm.trans h

/-- A request that fails is repeated after an interruption. -/
theorem pull_of_read_error {s s' : Source} {size : Nat} {error : IoError}
    (h : s.read size = (.error error, s')) :
    s.pull size =
      if error.kind = .interrupted then s'.pull size else (.error (.ofIo error), s') := by
  rw [pull]
  split
  · next h' => cases h'.symm.trans h
  · next h' =>
    cases h'.symm.trans h
    rfl

theorem content_pull {s s' : Source} {size : Nat} {bytes : List UInt8}
    (h : s.pull size = (.ok bytes, s')) : s.content = bytes ++ s'.content := by
  fun_induction pull s size with
  | case1 s got s₁ hr =>
    cases h
    exact content_read hr
  | case2 s error s₁ hr hk ih =>
    rw [← content_read_error hr]
    exact ih h
  | case3 s error s₁ hr hk => cases h

/-- A pull gives no more than it is asked for. -/
theorem length_pull {s s' : Source} {size : Nat} {got : List UInt8}
    (h : s.pull size = (.ok got, s')) : got.length ≤ size := by
  fun_induction pull s size with
  | case1 s got s₁ hr =>
    cases h
    unfold read at hr
    split at hr
    · cases hr
      exact List.length_take_le ..
    · cases hr
      exact Nat.le_trans (List.length_take_le ..) (Nat.min_le_right ..)
    · cases hr
  | case2 s error s₁ hr hk ih => exact ih h
  | case3 s error s₁ hr hk => cases h

theorem content_pull_error {s s' : Source} {size : Nat} {failure : Failure}
    (h : s.pull size = (.error failure, s')) : s'.content = s.content := by
  fun_induction pull s size with
  | case1 s got s₁ hr => cases h
  | case2 s error s₁ hr hk ih => rw [ih h, content_read_error hr]
  | case3 s error s₁ hr hk =>
    cases h
    exact content_read_error hr

theorem plan_pull {s s' : Source} {size : Nat} {answer : Except Failure (List UInt8)}
    (h : s.pull size = (answer, s')) : s'.plan <:+ s.plan := by
  fun_induction pull s size with
  | case1 s got s₁ hr =>
    cases h
    exact plan_of_read hr
  | case2 s error s₁ hr hk ih => exact (ih h).trans (plan_of_read hr)
  | case3 s error s₁ hr hk =>
    cases h
    exact plan_of_read hr

/-- A pull that fails uses up a failure. -/
theorem failures_pull_error {s s' : Source} {size : Nat} {failure : Failure}
    (h : s.pull size = (.error failure, s')) : s'.failures < s.failures := by
  fun_induction pull s size with
  | case1 s got s₁ hr => cases h
  | case2 s error s₁ hr hk ih =>
    exact Nat.lt_of_lt_of_le (ih h) (failures_le_of_suffix (plan_of_read hr))
  | case3 s error s₁ hr hk =>
    cases h
    exact failures_read_error hr hk

theorem Whole.content_of_pull_nil {s s' : Source} {size : Nat} (hw : s.Whole) (hsize : 0 < size)
    (h : s.pull size = (.ok [], s')) : s.content = [] := by
  fun_induction Source.pull s size with
  | case1 s got s₁ hr =>
    cases h
    exact hw.content_of_read_nil hsize hr
  | case2 s error s₁ hr hk ih =>
    rw [← content_read_error hr]
    exact ih (hw.of_suffix (plan_of_read hr)) h
  | case3 s error s₁ hr hk => cases h

/-- A pull from a steady source succeeds, and the source stays steady. -/
theorem Steady.pull_ok {s : Source} (hs : s.Steady) (size : Nat) :
    ∃ bytes s', s.pull size = (.ok bytes, s') ∧ s'.Steady := by
  fun_induction Source.pull s size with
  | case1 s got s₁ hr => exact ⟨got, s₁, rfl, hs.of_suffix (plan_of_read hr)⟩
  | case2 s error s₁ hr hk ih => exact ih (hs.of_suffix (plan_of_read hr))
  | case3 s error s₁ hr hk => exact absurd (hs.interrupted hr) hk

end Source

end Sluice
