import Sluice.Source

/-!
# Sinks

Where a writer's bytes go. A sink answers each write by accepting some of the bytes or by a
failure, as its plan says, and accepts everything once the plan is used up.

* `Sink.write` — one write.
* `Sink.writeAll` — writes until everything has been accepted; interruptions are retried, a write
  that accepts nothing is a failure.
-/

namespace Sluice

/-- A sink: what it has accepted, its plans for writes and flushes, the sizes of the writes it has
seen, and the number of flushes. -/
structure Sink where
  received : Array UInt8 := #[]
  plan : List Answer := []
  flushPlan : List Answer := []
  writes : Array Nat := #[]
  flushes : Nat := 0

namespace Sink

/-- Offer `bytes`; the answer is the number of bytes accepted. -/
def write (s : Sink) (bytes : List UInt8) : Except IoError Nat × Sink :=
  let size := bytes.length
  let s := { s with writes := s.writes.push size }
  match s.plan with
  | [] => (.ok size, { s with received := s.received ++ bytes })
  | .move limit :: plan =>
    (.ok (min limit size), { s with plan, received := s.received ++ bytes.take limit })
  | .fail error :: plan => (.error error, { s with plan })

/-- The failure of a sink that accepts none of the bytes it is offered. -/
def refusal : IoError := .noted .writeZero "failed to write whole buffer"

/-- Offer `bytes` until all are accepted. -/
def writeAll (s : Sink) (bytes : List UInt8) : Except IoError Unit × Sink :=
  if bytes = [] then (.ok (), s)
  else
    match _h : s.plan with
    | [] => (.ok (), (s.write bytes).2)
    | .move limit :: plan =>
      if limit = 0 then (.error refusal, (s.write bytes).2)
      else writeAll { (s.write bytes).2 with plan } (bytes.drop limit)
    | .fail error :: plan =>
      if error.kind = .interrupted then writeAll { (s.write bytes).2 with plan } bytes
      else (.error error, (s.write bytes).2)
termination_by s.plan.length
decreasing_by all_goals simp [_h]

/-- Ask the sink to pass on what it holds. -/
def flush (s : Sink) : Except IoError Unit × Sink :=
  let s := { s with flushes := s.flushes + 1 }
  match s.flushPlan with
  | .fail error :: rest => (.error error, { s with flushPlan := rest })
  | _ :: rest => (.ok (), { s with flushPlan := rest })
  | [] => (.ok (), s)

end Sink

end Sluice
