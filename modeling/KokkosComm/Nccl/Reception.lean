/-
KokkosComm.Nccl.Reception — one receive on the NCCL backend, from the call
of `ncclRecv` on.

`KC_NCCL_CHECK` prints the result of the call and drops it. A call that
fails enqueues nothing, but the request captures the state of the stream
anyway: its event completes with whatever was enqueued before. After that
the program calls `wait` and `test` on the request, and `wait_all` on spans
with any other requests. NCCL matches counts, so that a message has exactly
as many elements as the call says.
-/
import KokkosComm.Foundation.Lts
import KokkosComm.Foundation.Polling
import KokkosComm.Nccl.Collectives
import KokkosComm.Nccl.PointToPoint
import KokkosComm.Reception

namespace KokkosComm.Nccl

open Mpi (Callback)

variable {α : Type}

/-- `ncclResult_t`. -/
inductive NcclResult where
  | ncclSuccess
  | ncclUnhandledCudaError
  | ncclSystemError
  | ncclInternalError
  | ncclInvalidArgument
  | ncclInvalidUsage
  | ncclRemoteError
  | ncclInProgress
  deriving DecidableEq, Repr

/-- The receive in progress: its call, if it was enqueued, the request of
the program, and whether its event is complete. -/
structure Receiving (α : Type) extends KokkosComm.Reception α where
  enqueued : Option NcclCall
  req : Request Callback
  ready : Bool

/-- After `recv`, whose call had this result. -/
def Receiving.start (memory : Heap α) (result : NcclResult) (call : NcclCall)
    (req : Request Callback) : Receiving α where
  memory := memory
  arrived := none
  reported := false
  enqueued := if result = .ncclSuccess then some call else none
  req := req
  ready := false

inductive ReceivingAction (α : Type) where
  | arrive (message : List α)
  | complete
  | wait
  | test
  | waitAll (before after : List (Request Callback)) (pending : EventId → Nat) (fuel : Nat)

namespace Receiving

/-- Some callbacks run, and the request of the receive becomes `req`. -/
def ran (s : Receiving α) (ran : List Callback) (req : Request Callback) (reported : Bool) :
    Receiving α :=
  { s with memory := runCallbacks ran s.memory, req := req, reported := s.reported || reported }

/-- A query answers according to `ready`. During `wait_all` the events
complete on the schedule `pending`, that of the receive not before it is
ready. -/
def step (s : Receiving α) : ReceivingAction α → Option (Receiving α)
  | .arrive message => do
    let call ← s.enqueued
    let recvbuff ← call.recvbuff
    if s.arrived.isNone ∧ message.length = CInt.toSize call.count then
      some { s with
        memory := Memory.scatter s.memory (recvbuff.buffer (CInt.toSize call.count)) message,
        arrived := some message }
    else none
  | .complete =>
    if s.enqueued.isNone ∨ s.arrived.isSome then some { s with ready := true } else none
  | .wait =>
    if s.ready then do
      let (req, c) ← (s.req.wait (Cuda.scheduled fun _ => 0)).toOption
      return s.ran c.ran req true
    else none
  | .test => do
    let (completed, req, c) ←
      (s.req.test (Cuda.scheduled fun _ => if s.ready then 0 else 1)).toOption
    return s.ran c.ran req completed
  | .waitAll before after pending fuel => do
    let (requests, c) ←
      (Nccl.waitAll fuel (before ++ s.req :: after) (Cuda.scheduled pending)).toOption
    let req ← requests[before.length]?
    if s.ready ∨ ∀ e ∈ s.req.request_, e ∉ c.reported then some (s.ran c.ran req true)
    else none

end Receiving

/-- The rules of the program: the other requests of a span leave the receive
alone, and every request has captured an event of its own. -/
def Receiving.Allowed (rv : View) (a : AllocId) (s : Receiving α) : ReceivingAction α → Prop
  | .waitAll before after _ _ =>
    (∀ r ∈ before ++ after, ∀ cb ∈ r.callbacks_, Spares rv a cb) ∧
      ∃ events : List EventId, events.Nodup ∧
        (before ++ s.req :: after).map Request.request_ = events.map some
  | _ => True

/-- `wait_all` waits for one request of a span: the passes by which the
other events precede its own, summed, stay below the counter. -/
def Finds (requests : List (Request Callback)) (req : Request Callback)
    (pending : EventId → Nat) : Prop :=
  ∀ e, req.request_ = some e →
    (Polling.found pending (requests.filterMap Request.request_) (pending e) : Int) <
      CInt.ofSize requests.length

/-- The condition on a step: completion calls report a receive that was
enqueued, and a span waits for it or the view holds the message already. -/
def Receiving.Safe (rv : View) (s : Receiving α) : ReceivingAction α → Prop
  | .arrive _ => True
  | .complete => True
  | .wait => s.enqueued ≠ none
  | .test => s.enqueued ≠ none ∨ s.ready = false
  | .waitAll before after pending _ => s.enqueued ≠ none ∧
    (Finds (before ++ s.req :: after) s.req pending ∨
      ∃ message, s.arrived = some message ∧ rv.Holds message s.memory)

/-- A call of `recv`, whose `ncclRecv` has this result, and what is done
with its request. -/
structure ReceiveRun (α : Type) where
  result : NcclResult
  rv : View
  peer : Int
  comm : NcclComm
  memory : Heap α
  call : NcclCall
  req : Request Callback
  before : Host
  behind : Host
  actions : List (ReceivingAction α)
  fresh : rv.alloc < before.nextAlloc
  returns : recv rv peer comm before = .returns (req, behind)
  calls : ncclCalls behind.trace = ncclCalls before.trace ++ [call]
  allowed : Lts.AllSteps Receiving.step (fun s act _ => s.Allowed rv before.nextAlloc act)
    (.start memory result call req) actions

namespace ReceiveRun

/-- The receive never corrupts its view: it is reported complete only with
the message in the view, and a failed one leaves the view alone. -/
def NeverCorrupts (r : ReceiveRun α) : Prop :=
  Lts.AllStates Receiving.step
    (fun s => s.Uncorrupted r.rv (r.result = .ncclSuccess) r.memory)
    (.start r.memory r.result r.call r.req) r.actions

def Safe (r : ReceiveRun α) : Prop :=
  Lts.AllSteps Receiving.step (fun s act _ => s.Safe r.rv act)
    (.start r.memory r.result r.call r.req) r.actions

end ReceiveRun

end KokkosComm.Nccl
