/-
KokkosComm.Mpi.Parallel — data-parallel programs with the MPI backend.

§1 what MPI does for a call, by its documentation: whose buffers it reads
and writes, how far, and with what. How a reduction is grouped may differ
from process to process and from call to call. §2 is what runs. The host
makes one step of its program at a time; MPI reads a buffer, stores what
has been sent, and completes an operation when it likes, each process on
its own: a broadcast may be over at the root before the others have called
it. The m-th collective of a process on the communicator belongs to the
m-th one of the others, the k-th send from `a` to `b` to the k-th receive
at `b` from `a`. §3 the programs, and the views that they may use.
-/
import KokkosComm.Collective
import KokkosComm.Mpi.Messaging

namespace KokkosComm.Mpi

open Reduction

variable {α : Type} {n : Nat}

/-! ## §1 What MPI does -/

namespace MpiFn

def isCollective : MpiFn → Bool
  | mpiIreduce _ _ => true
  | mpiIallreduce _ => true
  | mpiIalltoall => true
  | mpiIallgather => true
  | mpiIbcast _ => true
  | _ => false

/-- MPI reads the send buffer of process `p`, … -/
def reads (p : Nat) : MpiFn → Bool
  | mpiIrecv _ _ => false
  | mpiIbcast root => (p : Int) == root
  | _ => true

/-- … and writes its receive buffer. -/
def writes (p : Nat) : MpiFn → Bool
  | mpiIreduce _ root => (p : Int) == root
  | mpiIbcast root => (p : Int) != root
  | mpiIrecv _ _ => true
  | fn => fn.isCollective

/-- The operation may be over before the other processes have made their
calls. `buffers`: what has been sent is kept until then. -/
def early (buffers : Bool) : MpiFn → Bool
  | mpiIssend _ _ => false
  | mpiIrecv _ _ => true
  | _ => buffers

end MpiFn

namespace MpiCall

/-- A collective on this communicator. -/
def isCollectiveOn (comm : MpiComm) (call : MpiCall) : Bool :=
  call.fn.isCollective && call.comm == comm

/-- The cells that are read when there are `size` processes, … -/
def sent (size : Nat) (call : MpiCall) : List Cell :=
  let count := match call.fn with
    | .mpiIalltoall => size * call.sendcount.toNat
    | _ => call.sendcount.toNat
  call.sendbuf.toList.flatMap fun v => v.buffer count

/-- … and those that are written. -/
def received (size : Nat) (call : MpiCall) : List Cell :=
  let count := match call.fn with
    | .mpiIalltoall => size * call.recvcount.toNat
    | .mpiIallgather => size * call.recvcount.toNat
    | _ => call.recvcount.toNat
  call.recvbuf.toList.flatMap fun v => v.buffer count

/-- What a collective brings process `p`, when the processes have sent these
messages. -/
def result {ops : MpiOp → α → α → α} (combiners : ∀ op, Combiner (ops op)) (p : Nat)
    (messages : List (List α)) (call : MpiCall) : List α :=
  match call.fn with
  | .mpiIbcast (.ofNat root) => messages.getD root []
  | .mpiIreduce op _ => (combiners op).combineAll messages call.recvcount.toNat
  | .mpiIallreduce op => (combiners op).combineAll messages call.recvcount.toNat
  | .mpiIallgather => messages.flatten
  | .mpiIalltoall => messages.flatMap fun m => BlockExchange.block call.recvcount.toNat m p
  | _ => []

end MpiCall

namespace Parallel

/-! ## §2 Processes over MPI -/

/-- The processes of a communicator, and how MPI works between them. -/
structure World {α : Type} (ops : MpiOp → α → α → α) extends Messaging.Transport where
  size : Nat
  combiners : Nat → Nat → ∀ op, Combiner (ops op)

/-- An instruction: a call of a routine that returns a request, work of the
user, or `wait` on the request of the `op`-th call. -/
inductive Instr (α : Type) where
  | call (c : AsyncCall)
  | kernel (k : Kernel α)
  | wait (op : OpId)

/-- An operation that has been started: what MPI has read for it, and whether
it has stored what was sent. -/
structure Started (α : Type) where
  call : MpiCall
  req : Request Callback
  read : Option (List α)
  stored : Bool

structure Node (α : Type) where
  program : List (Instr α)
  heap : Heap α
  lib : Library
  nextAlloc : AllocId
  posted : List (Started α)

/-- The processes, by rank. -/
abbrev Nodes (α : Type) := Nat → Node α

/-- The host of `p` makes a step; or something happens to its `op`-th
operation. -/
inductive Act where
  | host (p : Nat)
  | read (p : Nat) (op : OpId)
  | store (p : Nat) (op : OpId)
  | finish (p : Nat) (op : OpId)
  deriving DecidableEq

namespace Node

/-- A process at the start of its program; the user owns the first `n`
allocations. -/
def start (program : List (Instr α)) (heap : Heap α) (n : Nat) : Node α where
  program := program
  heap := heap
  lib := { status := fun _ => .inFlight, stale := [] }
  nextAlloc := n
  posted := []

/-- The next instruction. -/
def host (A : Node α) : Outcome (Node α) :=
  match A.program with
  | [] => .blocks
  | .call c :: rest => do
    let (req, host) ← c.run (Host.start A.posted.length A.nextAlloc)
    match mpiCalls host.trace with
    | [(_, call)] =>
      .returns { A with
        program   := rest
        heap      := runTrace host.trace A.heap
        nextAlloc := host.nextAlloc
        posted    := A.posted ++ [{ call := call, req := req, read := none, stored := false }] }
    | _ => .undefined
  | .kernel k :: rest => .returns { A with program := rest, heap := k.run A.heap }
  | .wait op :: rest =>
    match A.posted[op]? with
    | some x => do
      let (ran, req, lib) ← x.req.wait A.lib
      .returns { A with
        program := rest
        heap    := ran.foldl (fun h cb => cb.run h) A.heap
        lib     := lib
        posted  := A.posted.set op { x with req := req } }
    | none => .undefined

/-- The `k`-th operation of some kind. -/
def nth (A : Node α) (kind : MpiCall → Bool) (k : Nat) : Option (Started α) :=
  (A.posted.filter fun x => kind x.call)[k]?

/-- The operations of some kind, and those before the `op`-th operation. -/
def count (A : Node α) (kind : MpiCall → Bool) : Nat := A.posted.countP fun x => kind x.call

def before (A : Node α) (kind : MpiCall → Bool) (op : OpId) : Nat :=
  (A.posted.take op).countP fun x => kind x.call

/-- What the process has sent for the `m`-th collective, which should be the
one that `call` is for. -/
def contribution (A : Node α) (m : Nat) (call : MpiCall) : Option (List α) :=
  (A.nth (MpiCall.isCollectiveOn call.comm) m).bind fun y =>
    if y.call.fn = call.fn ∧ y.call.sendcount = call.recvcount then y.read else none

end Node

namespace Nodes

variable {ops : MpiOp → α → α → α} (W : World ops)

/-- All processes at the start of their programs. -/
def start (programs : Nat → List (Instr α)) (heaps : Nat → Heap α) (n : Nat) : Nodes α :=
  fun p => .start (programs p) (heaps p) n

/-- What there is to store for `call`, the `op`-th operation of `p`. -/
def arriving (w : Nodes α) (p : Nat) (op : OpId) (call : MpiCall) : Option (List α) :=
  match call.fn with
  | .mpiIrecv (.ofNat src) _ =>
    if call.isRecvFrom W.comm src then
      ((w src).nth (MpiCall.isSendTo W.comm p)
        ((w p).before (MpiCall.isRecvFrom W.comm src) op)).bind Started.read
    else none
  | _ =>
    let m := (w p).before (MpiCall.isCollectiveOn W.comm) op
    let messages := (List.range W.size).map fun q => (w q).contribution m call
    if call.isCollectiveOn W.comm = true ∧
        ∀ q < W.size, call.fn.reads q = true → ((w q).contribution m call).isSome = true then
      some (call.result (W.combiners p m) p (messages.map fun xs => xs.getD []))
    else none

/-- The processes that `call` is with have made their calls, too. -/
def Called (w : Nodes α) (p : Nat) (op : OpId) (call : MpiCall) : Prop :=
  match call.fn.sendEnvelope with
  | some (dest, _) => (w p).before (MpiCall.isSendTo W.comm dest) op <
      (w dest.toNat).count (MpiCall.isRecvFrom W.comm p)
  | none => ∀ q < W.size, (w p).before (MpiCall.isCollectiveOn W.comm) op <
      (w q).count (MpiCall.isCollectiveOn W.comm)

instance (w : Nodes α) (p : Nat) (op : OpId) (call : MpiCall) :
    Decidable (Called W w p op call) := by
  unfold Called
  split <;> infer_instance

def perform (w : Nodes α) : Act → Outcome (Nodes α)
  | .host p => do
    let A ← (w p).host
    .returns (Function.update w p A)
  | .read p op =>
    match (w p).posted[op]? with
    | some x =>
      if x.read.isNone ∧ x.call.fn.reads p = true then
        .returns (Function.update w p { w p with
          posted := (w p).posted.set op
            { x with read := some (Memory.gather (w p).heap (x.call.sent W.size)) } })
      else .blocks
    | none => .blocks
  | .store p op =>
    match (w p).posted[op]? with
    | some x =>
      if x.stored = false ∧ x.call.fn.writes p = true then
        match arriving W w p op x.call with
        | some message =>
          -- anything longer is an error, which is fatal
          if message.length ≤ (x.call.received W.size).length then
            .returns (Function.update w p { w p with
              heap   := Memory.scatter (w p).heap (x.call.received W.size) message
              posted := (w p).posted.set op { x with stored := true } })
          else .aborts
        | none => .blocks
      else .blocks
    | none => .blocks
  | .finish p op =>
    match (w p).posted[op]? with
    | some x =>
      if (w p).lib.status op = .inFlight ∧ (x.call.fn.reads p = true → x.read.isSome = true) ∧
          (x.call.fn.writes p = true → x.stored = true) ∧
          (x.call.fn.early W.buffers = true ∨ Called W w p op x.call) then
        .returns (Function.update w p { w p with lib := (w p).lib.finish op })
      else .blocks
    | none => .blocks

def step (w : Nodes α) (x : Act) : Option (Nodes α) := (perform W w x).toOption

/-- All programs have been run. -/
def Finished (w : Nodes α) : Prop := ∀ p, (w p).program = []

end Nodes

/-! ## §3 Programs -/

section Programs

variable {ops : MpiOp → α → α → α} (W : World ops)

/-- The call of process `p`. -/
def collectiveCall (comm : MpiComm) (p : Nat) : Collective → AsyncCall
  | .broadcast v root => .ibroadcast (v p) root comm
  | .allgather sv rv => .iallgather (sv p) (rv p) comm
  | .alltoall sv rv count => .ialltoall (sv p) (rv p) count comm
  | .allreduce sv rv op => .iallreduce (sv p) (rv p) op comm
  | .reduce sv rv op root => .ireduce (sv p) (rv p) op p root comm

/-- What process `p` calls for a step, if it does. -/
def partOf (p : Nat) : ParallelStep α n → Option AsyncCall
  | .event (.work _ _) => none
  | .event (.transfer src dst sv rv) =>
    if src = p then some (.isendImpl sv dst pointToPointTag W.mode W.comm)
    else if dst = p then some (.recvExecute rv src W.comm)
    else none
  | .all c => if p < W.size then some (collectiveCall W.comm p c) else none

/-- The instructions of process `p` for a step, after `m` calls. -/
def instrsOf (p m : Nat) (s : ParallelStep α n) : List (Instr α) :=
  match s, partOf W p s with
  | _, some c => [.call c, .wait m]
  | .event (.work q k), none => if q = p then [.kernel k.toKernel] else []
  | _, none => []

/-- The program of process `p`, which has made `m` calls before. -/
def parallelProgram (p : Nat) : List (ParallelStep α n) → Nat → List (Instr α)
  | [], _ => []
  | s :: steps, m =>
    instrsOf W p m s ++ parallelProgram p steps (if (partOf W p s).isSome then m + 1 else m)

def parallelPrograms (steps : List (ParallelStep α n)) (p : Nat) : List (Instr α) :=
  parallelProgram W p steps 0

end Programs

/-- A collective that does what it is for: sizes and offsets as its comment
assumes them, orders that agree, and counts that fit an `int`. -/
def ProperCollective (n N : Nat) : Collective → Prop
  | .broadcast v root => root < N ∧
    ∀ p < N, Flat n (v p) ∧ Carries n (v root) (v p) ∧ (v p).size < 2147483648
  | .allgather sv rv => ∀ p < N, Flat n (sv p) ∧ Flat n (rv p) ∧ Apart (sv p) (rv p) ∧
    (sv p).size = (sv 0).size ∧ (rv p).size = N * (sv 0).size ∧ (sv p).size < 2147483648
  | .alltoall sv rv count => ∀ p < N, Flat n (sv p) ∧ Flat n (rv p) ∧ Apart (sv p) (rv p) ∧
    (sv p).size = N * count ∧ (rv p).size = N * count ∧ count < 2147483648
  | .allreduce sv rv _ => ∀ p < N, Flat n (sv p) ∧ Flat n (rv p) ∧ Apart (sv p) (rv p) ∧
    (∀ q < N, Carries n (sv q) (rv p)) ∧ (sv p).size < 2147483648
  | .reduce sv rv _ root => root < N ∧ Apart (sv root) (rv root) ∧
    ∀ p < N, Carries n (sv p) (rv root) ∧ (sv p).size < 2147483648

/-- A step that the programs of `N` processes do as it is meant. -/
def ProperStep (N : Nat) : ParallelStep α n → Prop
  | .event (.work p _) => p < N
  | .event (.transfer src dst sv rv) =>
    src < N ∧ dst < N ∧ src ≠ dst ∧ Carries n sv rv ∧ sv.size < 2147483648
  | .all c => ProperCollective n N c

end Parallel

end KokkosComm.Mpi
