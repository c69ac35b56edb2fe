/-
KokkosComm.Drain — the generic loop over `wait_any`.

Generic code treats the two request types alike and drains a span by
calling `wait_any` on it until it returns `nullopt`:

    while (auto i = KokkosComm::wait_any(requests)) { … }

`drain` is that loop for any implementation of one call, and
`VisitsOnce` is what its user expects of the log of its calls. The loop is
given a number of calls as fuel; out of fuel, it has not ended.

The MPI span starts with each request wrapping an active operation of its
own (`ActiveSpan`). Before the `k`-th call the operations `(schedule k).1`
complete, and `(schedule k).2` is the request `MPI_Waitany` reports. A
released handle that is passed again is erroneous, or is reported complete
again, as the `policy` says.
-/
import KokkosComm.Nccl.WaitAllTheorems
import KokkosComm.Mpi.RequestTheorems

namespace KokkosComm

/-- One call of `wait_any`: the index it returned, and the callbacks that
ran in it. -/
abbrev WaitAnyLog (κ : Type) := List (Option Int × List κ)

section Drain

variable {σ κ : Type}

def drain (call : σ → Outcome (Option Int × List κ × σ)) : Nat → σ → Outcome (WaitAnyLog κ)
  | 0, _ => .blocks
  | fuel + 1, s => do
    let (i, ran, s) ← call s
    match i with
    | none => .returns [(none, ran)]
    | some i => do
      let log ← drain call fuel s
      .returns ((some i, ran) :: log)

/-- A span of `n` requests with these callbacks was drained: `n + 1` calls,
every index once, each with the callbacks of its own request. -/
structure VisitsOnce (callbacks : List (List κ)) (log : WaitAnyLog κ) : Prop where
  calls : log.length = callbacks.length + 1
  distinct : (log.filterMap Prod.fst).Nodup
  own : ∀ i ran, (some i, ran) ∈ log → 0 ≤ i ∧ callbacks[i.toNat]? = some ran
  last : ∀ ran, (none, ran) ∈ log → ran = []

/-- A loop whose calls never return `nullopt` does not end. -/
theorem drain_ne_returns {call : σ → Outcome (Option Int × List κ × σ)} {P : σ → Prop}
    (hcall : ∀ s out, P s → call s = .returns out → out.1 ≠ none ∧ P out.2.2) (fuel : Nat)
    {s : σ} (hs : P s) (log : WaitAnyLog κ) : drain call fuel s ≠ .returns log := by
  induction fuel generalizing s log with
  | zero => nofun
  | succ fuel ih =>
    intro h
    obtain ⟨⟨i, ran, s'⟩, hone, h⟩ := Outcome.bind_eq_returns.mp h
    obtain ⟨hsome, hs'⟩ := hcall s _ hs hone
    cases i with
    | none => exact hsome rfl
    | some i =>
      obtain ⟨rest, hrest, -⟩ := Outcome.bind_eq_returns.mp h
      exact ih hs' rest hrest

end Drain

/-! ## NCCL -/

namespace Nccl

variable {κ : Type}

/-- One call, which may poll the span `passes` times. -/
def drainCall (passes : Nat) (s : List (Request κ) × Cuda κ) :
    Outcome (Option Int × List κ × (List (Request κ) × Cuda κ)) := do
  let (i, requests, c) ← waitAny passes s.1 s.2
  .returns (i, c.ran.drop s.2.ran.length, (requests, c))

/-- Draining the span on the schedule `k` ends and visits every request once. -/
def DrainsOnce (s : CapturedSpan κ) (k : EventId → Nat) : Prop :=
  ∃ passes fuel log, drain (drainCall passes) fuel (s.requests, Cuda.scheduled k) = .returns log ∧
    VisitsOnce (s.requests.map Request.callbacks_) log

end Nccl

/-! ## MPI -/

namespace Mpi

variable {κ : Type}

/-- What happens when a released handle is passed to a completion call. -/
inductive StalePolicy where
  | erroneous
  | reportedAgain
  deriving DecidableEq, Repr

/-- A span of requests that wrap active operations, each its own. -/
structure ActiveSpan (κ : Type) where
  requests : List (Request κ)
  ops : List OpId
  active : requests.map Request.request_ = ops.map some
  distinct : ops.Nodup

/-- The library when nothing has completed yet. -/
def Library.active : Library := { status := fun _ => .inFlight, stale := [] }

/-- The operations of `ops` complete. -/
def Library.completed (m : Library) (ops : List OpId) : Library :=
  { m with status := fun op =>
      if op ∈ ops ∧ m.status op = .inFlight then .complete else m.status op }

/-- The `k`-th call of the loop. -/
def drainCall (policy : StalePolicy) (schedule : Nat → List OpId × Nat)
    (s : Nat × List (Request κ) × Library) :
    Outcome (Option Int × List κ × (Nat × List (Request κ) × Library)) := do
  let (k, requests, m) := s
  let (i, ran, requests, m) ← waitAny requests (schedule k).2 (m.completed (schedule k).1)
  if policy = .erroneous ∧ m.stale ≠ [] then .undefined
  else .returns (i, ran, (k + 1, requests, m))

/-- Draining the span ends and visits every request once. -/
def DrainsOnce (policy : StalePolicy) (s : ActiveSpan κ) (schedule : Nat → List OpId × Nat) :
    Prop :=
  ∃ fuel log, drain (drainCall policy schedule) fuel (0, s.requests, Library.active)
      = .returns log ∧ VisitsOnce (s.requests.map Request.callbacks_) log

end Mpi

end KokkosComm
