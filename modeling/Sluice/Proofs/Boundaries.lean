import Sluice.Error

/-!
# Crossing I/O boundaries

Where streams stand on each other, a failure becomes an I/O failure and a stream's failure again at
every boundary. Both can hold the other, to any depth. A boundary takes off one layer at most, and
only where an I/O failure holds a stream's failure itself.

* `IoError.carried?` — the stream's failure that an I/O failure holds.
* `Failure.Bare`, `Failure.crossed` — a failure that is no such I/O failure, and one that has crossed a
  number of boundaries.
* `Failure.bare_iff_crossed` — bare failures survive, and no others do.
* `Failure.crosses_boundaries` — both directions.
-/

namespace Sluice

/-- The stream's failure that an I/O failure holds as its payload. What its payload holds in turn does
not count. -/
def IoError.carried? : IoError → Option Failure
  | .carrying _ failure => some failure
  | _ => none

namespace Failure

/-! ## One boundary -/

/-- A stream's failure comes out of an I/O failure that holds it, under whatever kind. -/
theorem ofIo_of_carried {error : IoError} {failure : Failure}
    (h : error.carried? = some failure) : ofIo error = failure := by
  cases error with
  | carrying kind held => exact Option.some.inj h
  | _ => cases h

/-- Any other I/O failure is kept as it is. -/
theorem ofIo_of_not_carried {error : IoError} (h : error.carried? = none) :
    ofIo error = .io error := by
  cases error with
  | carrying kind held => cases h
  | _ => rfl

/-- Whether a failure is anything but an I/O failure that holds a stream's failure. -/
def Bare (failure : Failure) : Prop := ∀ error, failure = .io error → error.carried? = none

/-- A bare failure comes back from an I/O caller. -/
theorem ofIo_toIo {failure : Failure} (h : failure.Bare) : ofIo failure.toIo = failure := by
  cases failure with
  | io error => exact ofIo_of_not_carried (h error rfl)
  | _ => rfl

/-- A failure that is not bare comes back without its outermost layers, and that is another failure: it
is smaller. -/
theorem ofIo_toIo_ne {error : IoError} {failure : Failure} (h : error.carried? = some failure) :
    ofIo (Failure.io error).toIo ≠ .io error := by
  rw [toIo_io, ofIo_of_carried h]
  cases error with
  | carrying kind held =>
    obtain rfl : held = failure := Option.some.inj h
    intro hsame
    have hsize := congrArg sizeOf hsame
    simp only [io.sizeOf_spec, IoError.carrying.sizeOf_spec] at hsize
    omega
  | _ => cases h

/-! ## Any number of boundaries -/

/-- A failure that has been handed to an I/O caller, and turned back, as often as that. -/
def crossed (failure : Failure) : (times : Nat) → Failure
  | 0 => failure
  | times + 1 => ofIo (failure.crossed times).toIo

/-- A failure is the same after any number of boundaries if and only if it is bare. -/
theorem bare_iff_crossed (failure : Failure) :
    failure.Bare ↔ ∀ times, failure.crossed times = failure := by
  constructor
  · intro h times
    induction times with
    | zero => rfl
    | succ times ih => rw [crossed, ih, ofIo_toIo h]
  · rintro h error rfl
    cases hcarried : error.carried? with
    | none => rfl
    | some held => exact absurd (h 1) (ofIo_toIo_ne hcarried)

/-- What boundaries do to failures. A stream's failure survives any number of them, unless it is an I/O
failure that holds a stream's failure. An I/O failure that holds none is the same behind a stream; one
that holds some stream's failure, of whatever depth, gives just that. -/
theorem crosses_boundaries :
    (∀ failure : Failure, failure.Bare ↔ ∀ times, failure.crossed times = failure) ∧
      (∀ error : IoError, error.carried? = none → (ofIo error).toIo = error) ∧
      ∀ (error : IoError) (failure : Failure), error.carried? = some failure →
        ofIo error = failure := by
  refine ⟨bare_iff_crossed, ?_, fun error failure h => ofIo_of_carried h⟩
  intro error h
  rw [ofIo_of_not_carried h, toIo_io]

/-- A stream reports an error of the system, a caller reports that again as a timeout, and another one
as a failure of its own. -/
theorem crosses_boundaries_nested :
    let missing : IoError := .system 2 .notFound "No such file or directory"
    let timeout : IoError := .nesting .timedOut (.carrying .other (.io missing))
    missing.carried? = none ∧ (ofIo missing).toIo = missing ∧
      (Failure.io timeout).crossed 3 = .io timeout ∧
      ofIo (.carrying .permissionDenied (.io timeout)) = .io timeout := by
  intro missing timeout
  have hbare : (Failure.io timeout).Bare := by
    rintro error ⟨⟩
    rfl
  obtain ⟨hsurvives, hkept, hgiven⟩ := crosses_boundaries
  exact ⟨rfl, hkept missing rfl, (hsurvives _).1 hbare 3, hgiven _ _ rfl⟩

end Failure

end Sluice
