/-
KokkosComm.Mpi.Reduce — the reductions of the MPI backend, from the heaps
of all processes to their heaps after completion.

A process is a member of the collective: what it passes to MPI is read off
the trace of the routine it calls. A non-blocking routine is over when its
request is complete, a blocking one when what it enqueued after its MPI
call has run.
-/
import KokkosComm.Elementwise
import KokkosComm.Mpi.Blocking
import KokkosComm.Mpi.Transfer

namespace KokkosComm.Mpi

open Reduction

variable {α : Type}

/-- The party of a member that passes these buffers and counts to MPI, when
its heap is `found`. -/
def partyOf (sendbuf recvbuf : Option View) (sendcount recvcount : Int) (found : Heap α)
    (complete : Heap α → Heap α) : Outcome (Party Cell α) :=
  match sendbuf, recvbuf with
  | some send, some recv =>
    .returns {
      memory   := found
      sendbuf  := send.buffer sendcount.toNat
      recvbuf  := recv.buffer recvcount.toNat
      complete := complete }
  | _, _ => .undefined

/-- A member that calls a non-blocking routine and completes its request. -/
def asyncParty (routine : Routine (Request Callback)) (m : Member) (memory : Heap α) :
    Outcome (Party Cell α) := do
  let (req, host) ← routine (Host.start 0 m.nextAlloc)
  match mpiCalls host.trace with
  | [(_, call)] =>
    partyOf call.sendbuf call.recvbuf call.sendcount call.recvcount
      (runTrace host.trace memory) req.complete
  | _ => .undefined

/-- A member that calls a blocking routine. MPI rejects negative counts. -/
def blockingParty (routine : BlockingRoutine) (m : Member) (memory : Heap α) :
    Outcome (Party Cell α) := do
  let ((call, after), host) ← routine (Host.start 0 m.nextAlloc)
  if call.sendcount < 0 ∨ call.recvcount < 0 then .aborts
  else
    partyOf call.sendbuf call.recvbuf call.sendcount call.recvcount
      (runTrace host.trace memory) (runTrace after)

/-! ## The routines -/

def ireduceParty (op : MpiOp) (root : Nat) (comm : MpiComm) (rank : Nat) (m : Member) :
    Heap α → Outcome (Party Cell α) :=
  asyncParty (ireduce m.sv m.rv op rank root comm) m

/-- The reductions without a restriction on the rank of the views:
`mpi::reduce` with a space, and `mpi::allreduce` with one, without one, and
not blocking. -/
inductive ReductionRoutine where
  | reduce (op : MpiOp) (root : Nat)
  | allreduce (op : MpiOp)
  | allreduceOn (op : MpiOp)
  | iallreduce (op : MpiOp)
  deriving DecidableEq, Repr

namespace ReductionRoutine

def party (k : ReductionRoutine) (comm : MpiComm) (rank : Nat) (m : Member) :
    Heap α → Outcome (Party Cell α) :=
  match k with
  | reduce op root => blockingParty (Blocking.reduce m.sv m.rv op rank root comm) m
  | allreduce op => blockingParty (Blocking.allreduce m.sv m.rv op comm) m
  | allreduceOn op => blockingParty (Blocking.allreduceOn m.sv m.rv op comm) m
  | iallreduce op => asyncParty (Mpi.iallreduce m.sv m.rv op comm) m

/-- The processes that have a result. -/
def receives : ReductionRoutine → Nat → Bool
  | reduce _ root => (· == root)
  | _ => fun _ => true

/-- The views that the routine accepts. -/
def Accepts (k : ReductionRoutine) (m : Member) : Prop :=
  match k with
  | reduce _ _ => True
  | iallreduce _ => m.sv.isContiguous = true ∧ m.rv.isContiguous = true
  | _ => m.sv.isContiguous = true ∧ m.rv.isContiguous = true ∧ m.sv.size = m.rv.size

instance (k : ReductionRoutine) (m : Member) : Decidable (k.Accepts m) := by
  cases k <;> unfold Accepts <;> infer_instance

end ReductionRoutine

end KokkosComm.Mpi
