/-
KokkosComm.Mpi.Transfer — a point-to-point transfer, from the heap of the
sender to the heap of the receiver.

The traces and callbacks of the routines are given their meaning on heaps
here: a copy on a space is done by the fence that follows it, MPI reads and
writes as many consecutive elements behind a data handle as the count says,
and delivers the k-th element sent as the k-th element received. A message
longer than the receive buffer is `MPI_ERR_TRUNCATE`, which is fatal; a
shorter one leaves the rest of the buffer alone.

`transfer` is `KokkosComm::send` on one process, `KokkosComm::recv` on
another one, and the completion of both.
-/
import KokkosComm.Mpi.Routines

namespace KokkosComm.Mpi

variable {α : Type}

/-! ## Copies -/

def SpaceOp.run (c : SpaceOp) (h : Heap α) : Heap α :=
  match c with
  | .deepCopy dst src => h.deepCopy dst src
  | .fence _ => h

/-- The copies of a trace, in order. -/
def runTrace (trace : List HostOp) (h : Heap α) : Heap α :=
  trace.foldl (fun h a =>
    match a with
    | .space c => c.run h
    | _ => h) h

def Callback.run (cb : Callback) (h : Heap α) : Heap α := cb.body.foldl (fun h c => c.run h) h

/-- The heap after the callbacks of a request that completes. -/
def Request.complete (r : Request Callback) (h : Heap α) : Heap α :=
  r.executeAllCallbacks.1.foldl (fun h cb => cb.run h) h

@[simp] theorem complete_new (request : MpiRequest) (h : Heap α) :
    (Request.new request).complete h = h := rfl

@[simp] theorem complete_addCallback (r : Request Callback) (cb : Callback) (h : Heap α) :
    (r.addCallback cb).complete h = cb.run (r.complete h) := by
  simp [Request.complete, Request.addCallback, Request.executeAllCallbacks]

/-- Keeping a view alive does nothing to the heap. -/
@[simp] theorem complete_extendViewLifetime (r : Request Callback) (v : View) (h : Heap α) :
    (r.extendViewLifetime v).complete h = r.complete h := by
  unfold Request.extendViewLifetime
  split
  · rw [complete_addCallback]
    rfl
  · rfl

theorem run_unpackCallback (rv packed : View) (label : String) (h : Heap α) :
    (unpackCallback rv packed label).run h = h.deepCopy rv packed := rfl

/-! ## Messages -/

namespace MpiFn

/-- Destination and tag of a send. -/
def sendEnvelope : MpiFn → Option (Int × Int)
  | mpiIsend dest tag => some (dest, tag)
  | mpiIrsend dest tag => some (dest, tag)
  | mpiIssend dest tag => some (dest, tag)
  | _ => none

/-- Source and tag of a receive. -/
def recvEnvelope : MpiFn → Option (Int × Int)
  | mpiIrecv source tag => some (source, tag)
  | _ => none

end MpiFn

namespace MpiCall

/-- The elements a send call sends. -/
def message (c : MpiCall) (h : Heap α) : List α :=
  c.sendbuf.toList.flatMap fun v => Memory.gather h (v.buffer c.sendcount.toNat)

/-- A message arrives in the buffer of a receive call. -/
def receive (c : MpiCall) (message : List α) (h : Heap α) : Outcome (Heap α) :=
  match c.recvbuf with
  | some v =>
    if message.length ≤ c.recvcount.toNat then
      .returns (Memory.scatter h (v.buffer c.recvcount.toNat) message)
    else .aborts
  | none => .undefined

/-- A send of process `a` and a receive of process `b` match. -/
def matching (a b : Int) (send recv : MpiCall) : Bool :=
  match send.fn.sendEnvelope, recv.fn.recvEnvelope with
  | some (dest, tag), some (source, tag') =>
    dest == b && source == a && tag == tag' && send.comm == recv.comm
  | _, _ => false

end MpiCall

/-! ## `KokkosComm::send` and `KokkosComm::recv` -/

/-- `KokkosComm::send(h, sv, dest)`; `mode` is `DefaultCommMode`. -/
def send (mode : CommunicationMode) (sv : View) (dest : Int) (comm : MpiComm) :
    Routine (Request Callback) :=
  isendImpl sv dest pointToPointTag mode comm

/-- `KokkosComm::recv(h, rv, src)`. -/
def recv (rv : View) (src : Int) (comm : MpiComm) : Routine (Request Callback) :=
  recvExecute rv src comm

/-- Process `a` calls `send(h, sv, b)`, process `b` calls `recv(h', rv, a)`,
and both requests complete. `hs` and `hr` are the heaps of the processes,
`allocA` and `allocB` their next allocations; the result is the heap of
`b`. -/
def transfer (mode : CommunicationMode) (a b : Int) (comm : MpiComm) (sv rv : View)
    (allocA allocB : AllocId) (hs hr : Heap α) : Outcome (Heap α) := do
  let (_, hostA) ← send mode sv b comm (Host.start 0 allocA)
  let (req, hostB) ← recv rv a comm (Host.start 0 allocB)
  match mpiCalls hostA.trace, mpiCalls hostB.trace with
  | [(_, send)], [(_, recv)] =>
    if MpiCall.matching a b send recv then do
      let message := send.message (runTrace hostA.trace hs)
      let h ← recv.receive message (runTrace hostB.trace hr)
      .returns (req.complete h)
    else .blocks
  | _, _ => .blocks

end KokkosComm.Mpi
