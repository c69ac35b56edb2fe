/-
KokkosComm.Mpi.Reception — one receive on the MPI backend, from the call of
`MPI_Irecv` on, on a communicator with the handler `MPI_ERRORS_RETURN`.

The call answers a code that `Recv::execute` does not look at; if it fails
the request stays `MPI_REQUEST_NULL`. After that the program calls `wait`
and `test` on the request, and `wait_all` on spans with any other requests.
The message arrives at any time, and other operations complete at any time.
A message that is too long makes the completion call fail, and the process
aborts; so does no step below.
-/
import KokkosComm.Mpi.Fencing
import KokkosComm.Reception

namespace KokkosComm.Mpi

open Routine
open Nccl (runCallbacks)

variable {α : Type}

/-- `MPI_SUCCESS`. -/
def mpiSuccess : Int := 0

/-- A non-blocking MPI call that returns its error code, given a request
that is null. Negative counts are errors. -/
def startReturning (code : Int) (call : MpiCall) : Routine MpiRequest := do
  if code = mpiSuccess ∧ call.validCounts = true then start call
  else return none

/-- `Impl::Recv::execute`, where `MPI_Irecv` answers `code`: the call and
the request. -/
def recvReturning (code : Int) (rv : View) (src : Int) (comm : MpiComm) :
    Routine (MpiCall × Request Callback) := do
  let (call, wrap) ← recvUpToMpi rv src comm
  let request ← startReturning code call
  return (call, wrap request)

/-- The receive in progress: its call, the handle that MPI gave out for it
and the request of the program. -/
structure Receiving (α : Type) extends Reception α where
  call : MpiCall
  started : MpiRequest
  req : Request Callback
  lib : Library

/-- After `recv`; no operation has completed. -/
def Receiving.start (memory : Heap α) (call : MpiCall) (req : Request Callback) :
    Receiving α where
  memory := memory
  arrived := none
  reported := false
  call := call
  started := req.request_
  req := req
  lib := { status := fun _ => .inFlight, stale := [] }

inductive ReceivingAction (α : Type) where
  | arrive (message : List α)
  | finish (op : OpId)
  | wait
  | test
  | waitAll (before after : List (Request Callback))

namespace Receiving

/-- Some callbacks run, and the request of the receive becomes `req`. -/
def ran (s : Receiving α) (ran : List Callback) (req : Request Callback) (lib : Library)
    (reported : Bool) : Receiving α :=
  { s with memory := runCallbacks ran s.memory, req := req, lib := lib,
           reported := s.reported || reported }

def step (s : Receiving α) : ReceivingAction α → Option (Receiving α)
  | .arrive message =>
    match s.started, s.arrived with
    | some op, none => do
      let memory ← (s.call.receive message s.memory).toOption
      return { s with memory := memory, arrived := some message, lib := s.lib.finish op }
    | _, _ => none
  | .finish op => if s.started = some op then none else some { s with lib := s.lib.finish op }
  | .wait => do
    let (ran, req, lib) ← (s.req.wait s.lib).toOption
    return s.ran ran req lib true
  | .test => do
    let (completed, ran, req, lib) ← (s.req.test s.lib).toOption
    return s.ran ran req lib completed
  | .waitAll before after => do
    let (ran, requests, lib) ← (Mpi.waitAll (before ++ s.req :: after) s.lib).toOption
    let req ← requests[before.length]?
    return s.ran ran req lib true

end Receiving

/-- The rule of the program: the other requests of a span leave the receive
alone. -/
def ReceivingAction.Allowed (rv : View) (a : AllocId) : ReceivingAction α → Prop
  | .waitAll before after => ∀ r ∈ before ++ after, ∀ cb ∈ r.callbacks_, Spares rv a cb
  | _ => True

/-- A request that `wait_all` finds behind `before` other ones, and before
`after` more, is among those that MPI looks at. -/
def Covers (before after : List (Request Callback)) : Prop :=
  before.length < CInt.ofSize (before.length + 1 + after.length)

/-- The condition on a step: completion calls are made after the initiation
has succeeded, and a span covers the request or the message has arrived. -/
def Receiving.Safe (initiated : Prop) (s : Receiving α) : ReceivingAction α → Prop
  | .arrive _ => True
  | .finish _ => True
  | .wait => initiated
  | .test => initiated
  | .waitAll before after => initiated ∧ (Covers before after ∨ s.arrived ≠ none)

/-- A call of `recv`, whose `MPI_Irecv` answers `code`, and what is done
with its request. -/
structure ReceiveRun (α : Type) where
  code : Int
  rv : View
  src : Int
  comm : MpiComm
  nextOp : OpId
  nextAlloc : AllocId
  memory : Heap α
  call : MpiCall
  req : Request Callback
  host : Host
  actions : List (ReceivingAction α)
  fresh : rv.alloc < nextAlloc
  returns : recvReturning code rv src comm (.start nextOp nextAlloc) = .returns ((call, req), host)
  allowed : Lts.AllSteps Receiving.step (fun _ act _ => act.Allowed rv nextAlloc)
    (.start memory call req) actions

namespace ReceiveRun

/-- `MPI_Irecv` succeeds. -/
def initiated (r : ReceiveRun α) : Prop := r.code = mpiSuccess ∧ r.call.validCounts = true

/-- The receive never corrupts its view: it is reported complete only with
the message in the view, and a failed one leaves the view alone. -/
def NeverCorrupts (r : ReceiveRun α) : Prop :=
  Lts.AllStates Receiving.step (fun s => s.Uncorrupted r.rv r.initiated r.memory)
    (.start r.memory r.call r.req) r.actions

def Safe (r : ReceiveRun α) : Prop :=
  Lts.AllSteps Receiving.step (fun s act _ => s.Safe r.initiated act)
    (.start r.memory r.call r.req) r.actions

end ReceiveRun

end KokkosComm.Mpi
