/-
KokkosComm.Mpi.Variants — the collectives that the MPI backend has in two
variants, a blocking one and one that returns a request (`allreduce.hpp`,
`alltoall.hpp`).

The variants are written apart, each with checks and counts of its own.
They agree (`VariantsAgree`) if they reject the same calls before MPI is
called, leave the same memories behind if none is rejected, and have MPI
store into the receive view only.

A process may pass its variant a count that the other processes do not
pass. Then the contract of the collective is broken in both variants.
-/
import KokkosComm.Foundation.BlockExchange
import KokkosComm.Mpi.Fencing
import KokkosComm.Mpi.Reduce

namespace KokkosComm.Mpi

open BlockExchange Reduction

variable {α : Type}

/-- A member with contiguous views. -/
structure ContiguousMember extends Member where
  send_contiguous : sv.isContiguous = true
  recv_contiguous : rv.isContiguous = true

inductive Variant where
  | blocking
  | nonblocking
  deriving DecidableEq, Repr

/-- The call of a collective on one process. The buffers have `blocks` times
the elements that are counted. -/
structure CollectiveCall where
  member : Member
  blocking : BlockingRoutine
  nonblocking : AsyncCall
  blocks : Nat

namespace CollectiveCall

def start (x : CollectiveCall) : Host := Host.start 0 x.member.nextAlloc

/-- The process ends before MPI is called. -/
def Rejects (x : CollectiveCall) : Variant → Prop
  | .blocking => x.blocking x.start = .aborts
  | .nonblocking => x.nonblocking.upToMpi x.start = .aborts

/-- What the process brings to the collective. A non-blocking variant is
over when `wait` has run the callbacks of its request. -/
def party (x : CollectiveCall) (kind : Variant) (memory : Heap α) : Outcome (Party Cell α) :=
  match kind with
  | .blocking => do
    let ((call, after), host) ← x.blocking x.start
    if call.sendcount < 0 ∨ call.recvcount < 0 then .aborts
    else
      partyOf call.sendbuf call.recvbuf (x.blocks * call.sendcount) (x.blocks * call.recvcount)
        (runTrace host.trace memory) (runTrace after)
  | .nonblocking => do
    let (req, host) ← x.nonblocking.run x.start
    match mpiCalls host.trace with
    | [(_, call)] =>
      partyOf call.sendbuf call.recvbuf (x.blocks * call.sendcount) (x.blocks * call.recvcount)
        (runTrace host.trace memory) req.complete
    | _ => .undefined

/-- MPI stores into the cell `c`, whatever the elements are. -/
def Writes (x : CollectiveCall) (kind : Variant) (c : Cell) : Prop :=
  ∃ p : Party Cell Unit, x.party kind (fun _ => ()) = .returns p ∧ c ∈ p.recvbuf

end CollectiveCall

/-- All processes call one variant of a collective. -/
def runVariant (kind : Variant) (collective : List (Party Cell α) → Outcome (List (Heap α)))
    (procs : List CollectiveCall) (memory : Nat → Heap α) : Outcome (List (Heap α)) := do
  let parties ← Outcome.all (procs.mapIdx fun r x => x.party kind (memory r))
  collective parties

/-- `SameContents` compares the memories after the collective. -/
structure VariantsAgree (procs : List CollectiveCall) (SameContents : Prop) : Prop where
  rejects : ∀ x ∈ procs, x.Rejects .blocking ↔ x.Rejects .nonblocking
  contents : (∀ x ∈ procs, ¬ x.Rejects .blocking) → SameContents
  inside : ∀ x ∈ procs, ∀ kind c, x.Writes kind c → c ∈ x.member.rv.buffer x.member.rv.span

/-! ## The collectives -/

/-- `mpi::allreduce(space, sv, rv, op, comm)` and `mpi::iallreduce`. -/
def allreduceCallOf (op : MpiOp) (comm : MpiComm) (m : Member) : CollectiveCall where
  member := m
  blocking := Blocking.allreduce m.sv m.rv op comm
  nonblocking := .iallreduce m.sv m.rv op comm
  blocks := 1

/-- `mpi::alltoall(space, sv, count, rv, count, comm)` and `mpi::ialltoall`,
on a communicator of this size. The count is a `size_t` for the former and
an `int` for the latter. -/
def alltoallCallOf (size : Nat) (comm : MpiComm) (m : Member) (count : UInt64) :
    CollectiveCall where
  member := m
  blocking := Blocking.alltoall m.sv count m.rv count size comm
  nonblocking := .ialltoall m.sv m.rv (CInt.ofSize count.toNat) comm
  blocks := size

/-- The variants of `allreduce` agree, for every operator and every grouping
that MPI may choose in either of them. -/
def AllreduceAgrees (α : Type) (op : MpiOp) (comm : MpiComm) (members : List ContiguousMember) :
    Prop :=
  let procs := members.map fun m => allreduceCallOf op comm m.toMember
  VariantsAgree procs (∀ (f : α → α → α) [Std.Associative f] (c c' : Combiner f)
    (memory : Nat → Heap α), runVariant .blocking (collect c fun _ => true) procs memory =
      runVariant .nonblocking (collect c' fun _ => true) procs memory)

/-- The variants of `alltoall` agree. Each process passes a count of its own. -/
def AlltoallAgrees (α : Type) (comm : MpiComm) (members : List (ContiguousMember × UInt64)) :
    Prop :=
  let procs := members.map fun x => alltoallCallOf members.length comm x.1.toMember x.2
  VariantsAgree procs (∀ memory : Nat → Heap α,
    runVariant .blocking exchange procs memory = runVariant .nonblocking exchange procs memory)

end KokkosComm.Mpi
