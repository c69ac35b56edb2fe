/-
KokkosComm.Mpi.Request — `Request<MpiSpace>` and its free functions
(`mpi/request.hpp`), over a model of the MPI completion calls.

`Library` is MPI's view of the started operations. An operation is in
flight, complete, or complete and RELEASED: its completion has been
reported by a completion call, and the handle no longer refers to it. A
completion call sets the reported handles to null in the handle storage it
was given, and nowhere else; `Request::wait` and `test` pass the handle of
the request itself, `wait_all` and `wait_any` pass copies. Passing a
released handle is erroneous and recorded in `stale`; such a handle is
reported complete again.

A completion call that has nothing to report yet has not returned
(`Outcome.blocks`), except for `MPI_Test`. Which of several complete
operations `MPI_Waitany` reports is its choice, given as `pick`.

A request is generic in its callbacks `κ`. The functions return the
callbacks they run, in the order in which they run them.
-/
import Mathlib.Data.List.Basic
import KokkosComm.Mpi.Calls

namespace KokkosComm.Mpi

/-! ## Completion calls -/

inductive OpStatus where
  | inFlight
  | complete
  | released
  deriving DecidableEq, Repr

/-- The return codes of the completion calls. -/
inductive MpiError where
  | success
  | errCount
  deriving DecidableEq, Repr

/-- The started operations, and the released handles that were passed. -/
structure Library where
  status : OpId → OpStatus
  stale : List OpId

namespace Library

/-- The handle is null, or its operation is over. -/
def done (m : Library) : MpiRequest → Bool
  | none => true
  | some op => m.status op != .inFlight

/-- The operation completes. -/
def finish (m : Library) (op : OpId) : Library :=
  { m with status := Function.update m.status op .complete }

/-- A completion call was given the handles `passed`, and reported the
operations of `reported` complete. -/
def settle (m : Library) (passed reported : List MpiRequest) : Library where
  status op := if some op ∈ reported then .released else m.status op
  stale := m.stale ++ passed.reduceOption.filter fun op => m.status op == .released

end Library

/-- `MPI_Wait(&request, &status)`. -/
def mpiWait (m : Library) (request : MpiRequest) : Outcome (MpiError × MpiRequest × Library) :=
  if m.done request then .returns (.success, none, m.settle [request] [request]) else .blocks

/-- `MPI_Test(&request, &flag, &status)`. -/
def mpiTest (m : Library) (request : MpiRequest) :
    Outcome (MpiError × Bool × MpiRequest × Library) :=
  if m.done request then
    .returns (.success, true, none, m.settle [request] [request])
  else .returns (.success, false, request, m.settle [request] [])

/-- `MPI_Waitall(count, requests, statuses)`: the array it leaves. -/
def mpiWaitall (m : Library) (count : Int) (requests : List MpiRequest) :
    Outcome (MpiError × List MpiRequest × Library) :=
  if count < 0 then .returns (.errCount, requests, m)
  else
    let passed := requests.take count.toNat
    if passed.all m.done then
      .returns (.success, passed.map (fun _ => none) ++ requests.drop count.toNat,
        m.settle passed passed)
    else .blocks

/-- `MPI_Waitany(count, requests, &idx, &status)`. The index is `none` for
`MPI_UNDEFINED`. -/
def mpiWaitany (m : Library) (count : Int) (requests : List MpiRequest) (pick : Nat) :
    Outcome (MpiError × Option Nat × List MpiRequest × Library) :=
  if count < 0 then .returns (.errCount, none, requests, m)
  else
    let passed := requests.take count.toNat
    if passed.all Option.isNone then .returns (.success, none, requests, m)
    else
      match passed[pick]? with
      | some (some op) =>
        if m.done (some op) then
          .returns (.success, some pick, requests.set pick none, m.settle passed [some op])
        else .blocks
      | _ => .blocks

/-! ## Callbacks -/

/-- A callback the library or the user registers: a lambda that captures
views by value and acts on a space when it runs. It can name what it
captures only. -/
structure Callback where
  captures : List View
  body : List SpaceOp
  closed : ∀ c ∈ body, c.views ⊆ captures
  deriving DecidableEq, Repr

namespace Callback

/-- `[view]() {}`. -/
def keepAlive (view : View) : Callback :=
  { captures := [view], body := [], closed := by simp }

/-- The views a callback writes when it runs. -/
def targets (cb : Callback) : List View := cb.body.flatMap SpaceOp.written

/-- The callback owns a reference to the allocation. -/
def retains (cb : Callback) (a : AllocId) : Bool :=
  cb.captures.any fun v => v.managed && v.alloc == a

theorem targets_subset_captures (cb : Callback) : cb.targets ⊆ cb.captures := by
  intro v hv
  obtain ⟨c, hc, hv⟩ := List.mem_flatMap.mp hv
  exact cb.closed c hc (c.written_subset hv)

theorem retains_iff {cb : Callback} {a : AllocId} :
    cb.retains a = true ↔ ∃ v ∈ cb.captures, v.managed = true ∧ v.alloc = a := by
  simp [retains]

end Callback

/-! ## `Request<MpiSpace>` -/

/-- `Request<MpiSpace>`: `request_` and `callbacks_`. -/
structure Request (κ : Type) where
  request_ : MpiRequest
  callbacks_ : List κ
  deriving DecidableEq, Repr

namespace Request

variable {κ : Type}

/-- `Request(request_type request = MPI_REQUEST_NULL)`. -/
def new (request : MpiRequest) : Request κ := { request_ := request, callbacks_ := [] }

/-- `add_callback`. -/
def addCallback (r : Request κ) (cb : κ) : Request κ :=
  { r with callbacks_ := r.callbacks_ ++ [cb] }

/-- `extend_view_lifetime`: unmanaged views have `use_count() == 0`. -/
def extendViewLifetime (r : Request Callback) (view : View) : Request Callback :=
  if view.managed then r.addCallback (.keepAlive view) else r

/-- `execute_all_callbacks`: the callbacks run, and what is left. -/
def executeAllCallbacks (r : Request κ) : List κ × Request κ :=
  (r.callbacks_, { r with callbacks_ := [] })

/-- `Request::wait`. -/
def wait (r : Request κ) (m : Library) : Outcome (List κ × Request κ × Library) := do
  let (err, request, m) ← mpiWait m r.request_
  failIf (err != .success) "KokkosComm::Request::wait: request completion failed"
  let (ran, r) := { r with request_ := request }.executeAllCallbacks
  .returns (ran, r, m)

/-- `Request::test`. -/
def test (r : Request κ) (m : Library) : Outcome (Bool × List κ × Request κ × Library) := do
  let (err, hasCompleted, request, m) ← mpiTest m r.request_
  failIf (err != .success) "KokkosComm::Request::test: request query failed"
  let r := { r with request_ := request }
  if hasCompleted then
    let (ran, r) := r.executeAllCallbacks
    .returns (true, ran, r, m)
  else .returns (false, [], r, m)

/-- `Request(Request&&) = default`: the new object and what is left of the
source. The handle is copied, the vector of callbacks moved out. -/
def moveConstruct (src : Request κ) : Request κ × Request κ :=
  ({ request_ := src.request_, callbacks_ := src.callbacks_ }, { src with callbacks_ := [] })

/-- `operator=(Request&&) = default`: the callbacks of `dst` are dropped. -/
def moveAssign (_dst src : Request κ) : Request κ × Request κ :=
  ({ request_ := src.request_, callbacks_ := src.callbacks_ }, { src with callbacks_ := [] })

end Request

/-! ## Free functions over spans -/

variable {κ : Type}

/-- `wait_all(std::span<Request<MpiSpace>> requests)`. -/
def waitAll (requests : List (Request κ)) (m : Library) :
    Outcome (List κ × List (Request κ) × Library) :=
  if requests.isEmpty then .returns ([], requests, m)
  else do
    let mpiRequests := requests.map Request.request_
    let (err, _mpiRequests, m) ← mpiWaitall m (CInt.ofSize mpiRequests.length) mpiRequests
    failIf (err != .success) "KokkosComm::Request::wait_all: request completions failed"
    -- for (auto& req : requests) { req.execute_all_callbacks(); }
    let executed := requests.map Request.executeAllCallbacks
    .returns (executed.flatMap Prod.fst, executed.map Prod.snd, m)

/-- `wait_any(std::span<Request<MpiSpace>> requests)`. -/
def waitAny (requests : List (Request κ)) (pick : Nat) (m : Library) :
    Outcome (Option Int × List κ × List (Request κ) × Library) :=
  if requests.isEmpty then .returns (none, [], requests, m)
  else do
    let mpiRequests := requests.map Request.request_
    let (err, idx, _mpiRequests, m) ←
      mpiWaitany m (CInt.ofSize mpiRequests.length) mpiRequests pick
    failIf (err != .success) "KokkosComm::Request::wait_any: request completion failed"
    match idx with
    | none => .returns (none, [], requests, m)
    | some idx =>
      match requests[idx]? with
      | none => .undefined
      | some req =>
        let (ran, req) := req.executeAllCallbacks
        .returns (some (idx : Int), ran, requests.set idx req, m)

end KokkosComm.Mpi
