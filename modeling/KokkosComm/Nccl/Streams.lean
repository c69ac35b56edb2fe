/-
KokkosComm.Nccl.Streams — any number of processes that use the NCCL
backend, each on one CUDA stream.

A process is a host that runs its program, and a stream that does what the
host has enqueued, one thing after the other. The routines of the backend
enqueue their copies and their NCCL call; the event a request captures is
behind all of them. `wait` lets the host go on when the stream has got
there, and then runs the callbacks of the request: the unpacking is
enqueued like any other copy, and its fence waits for the whole stream.

NCCL is modelled by its documented behaviour outside of groups. A send
blocks its stream until the receive it is matched with is reached, and the
other way round; a collective blocks it until all processes are at the same
collective. Each of these is one `Joint` operation, which takes place when
it is next on the streams of all its parties. What a collective makes of
their memories is a parameter of the network. Parties that disagree on a
count never meet here.

When the host and the stream of which process make their next step is up to
the run. `alltoall` is the variant that calls `ncclAlltoAll`; `test`,
`wait_all` and `wait_any`, which poll, are left out.
-/
import KokkosComm.Foundation.Lts
import KokkosComm.Nccl.Contiguous
import KokkosComm.Nccl.PointToPoint

namespace KokkosComm.Nccl

open Mpi (Callback SpaceOp)

variable {α : Type}

/-! ## §1 Streams -/

/-- A call of NCCL. -/
inductive TransportCall where
  | nccl (call : NcclCall)
  | contiguous (call : ContiguousCall)
  deriving DecidableEq, Repr

/-- The function of a call, with its envelope. -/
inductive TransportFn where
  | nccl (fn : NcclFn)
  | contiguous (fn : ContiguousFn)
  deriving DecidableEq, Repr

/-- What the parties of an operation see of a call. -/
structure Wire where
  fn : TransportFn
  count : Int
  deriving DecidableEq, Repr

namespace TransportCall

def wire : TransportCall → Wire
  | nccl call => ⟨.nccl call.fn, call.count⟩
  | contiguous call => ⟨.contiguous call.fn, call.count⟩

/-- The cells that are sent. -/
def sent (count : Nat) : TransportCall → List Cell
  | nccl call => call.sendbuff.toList.flatMap fun p => p.buffer count
  | contiguous call => call.sendbuff.buffer count

/-- The cells that are received into. -/
def received (count : Nat) : TransportCall → List Cell
  | nccl call => call.recvbuff.toList.flatMap fun p => p.buffer count
  | contiguous call => call.recvbuff.buffer count

end TransportCall

/-- What can be enqueued on a stream. -/
inductive StreamOp (α : Type) where
  | copy (dst src : View)
  | kernel (run : Heap α → Heap α)
  | transport (call : TransportCall)

namespace StreamOp

/-- The effect of work that needs no other process. -/
def effect : StreamOp α → Option (Heap α → Heap α)
  | copy dst src => some fun h => h.deepCopy dst src
  | kernel run => some run
  | transport _ => none

def call? : StreamOp α → Option TransportCall
  | transport call => some call
  | _ => none

end StreamOp

/-- What a trace leaves on the stream. The routines below neither fence nor
open a group. -/
def enqueued (trace : List HostOp) : List (StreamOp α) :=
  trace.filterMap fun a => match a with
    | .space (.deepCopy dst src) => some (.copy dst src)
    | .nccl call => some (.transport (.nccl call))
    | _ => none

/-! ## §2 Processes -/

/-- A call of a routine of the backend. -/
inductive Call where
  | send (sv : View) (peer : Int)
  | recv (rv : View) (peer : Int)
  | reduce (sv rv : View) (op : NcclRedOp) (root : Int)
  | alltoall (sv rv : View) (count : Int)
  | allgather (sv rv : View)
  | allreduce (sv rv : View) (op : NcclRedOp)
  | broadcast (v : View) (root : Int)
  deriving DecidableEq, Repr

/-- On the process `rank` of `size`: the request, and the call that is not
in the trace. -/
def Call.run (size rank : Nat) (comm : NcclComm) :
    Call → Routine (Request Callback × Option ContiguousCall)
  | .send sv peer => do return (← Nccl.send sv peer comm, none)
  | .recv rv peer => do return (← Nccl.recv rv peer comm, none)
  | .reduce sv rv op root => do return (← Nccl.reduce sv rv op root rank comm, none)
  | .alltoall sv rv count => do return (← Nccl.alltoall true sv rv count size comm, none)
  | .allgather sv rv => do
    let (req, call) ← Nccl.allgather sv rv comm
    return (req, some call)
  | .allreduce sv rv op => do
    let (req, call) ← Nccl.allreduce sv rv op comm
    return (req, some call)
  | .broadcast v root => do
    let (req, call) ← Nccl.broadcast v root comm
    return (req, some call)

/-- The instructions of a host: a call of a routine, work of the user on
the same stream, an action on the space, and `wait` on the request of the
`k`-th call. -/
inductive Instr (α : Type) where
  | call (c : Call)
  | kernel (run : Heap α → Heap α)
  | space (c : SpaceOp)
  | wait (k : Nat)

/-- A process. `done` counts what the stream has done, and `recorded` is the
count an event waits for. -/
structure Rank (α : Type) where
  program : List (Instr α)
  heap : Heap α
  queue : List (StreamOp α)
  done : Nat
  nextAlloc : AllocId
  events : Ledger
  recorded : EventId → Nat
  requests : List (Request Callback)

/-- A process that has done nothing; the user owns the first `n`
allocations. -/
def Rank.start (program : List (Instr α)) (heap : Heap α) (n : Nat) : Rank α where
  program := program
  heap := heap
  queue := []
  done := 0
  nextAlloc := n
  events := .empty
  recorded := fun _ => 0
  requests := []

namespace Rank

def enqueue (R : Rank α) (ops : List (StreamOp α)) : Rank α := { R with queue := R.queue ++ ops }

/-- A routine has returned `req`, and has enqueued `ops`. -/
def posted (R : Rank α) (ops : List (StreamOp α)) (req : Request Callback) (host : Host) :
    Rank α :=
  { R with
    queue     := R.queue ++ ops
    nextAlloc := host.nextAlloc
    events    := host.events
    recorded  := match req.request_ with
      | some e => Function.update R.recorded e (R.done + (R.queue.length + ops.length))
      | none => R.recorded
    requests  := R.requests ++ [req] }

/-- A routine is called. -/
def post (R : Rank α) (routine : Routine (Request Callback × Option ContiguousCall)) :
    Outcome (Rank α) := do
  let ((req, call), host) ←
    routine { nextAlloc := R.nextAlloc, events := R.events, trace := [] }
  .returns (R.posted (enqueued host.trace ++
    call.toList.map fun call => .transport (.contiguous call)) req host)

/-- `requests[k].wait()`, once `cudaEventSynchronize` has returned: the
callbacks run next, and are cleared. -/
def wait (R : Rank α) (k : Nat) : Outcome (Rank α) :=
  match R.requests[k]? with
  | some req =>
    match req.request_ with
    | some e =>
      if R.recorded e ≤ R.done then
        .returns { R with
          program  := (req.callbacks_.flatMap Callback.body).map .space ++ R.program
          requests := R.requests.set k { req with callbacks_ := [] } }
      else .blocks
    | none => .aborts
  | none => .undefined

/-- The next step of the host. -/
def host (R : Rank α) (size rank : Nat) (comm : NcclComm) : Outcome (Rank α) :=
  match R.program with
  | [] => .blocks
  | .call c :: rest => { R with program := rest }.post (c.run size rank comm)
  | .kernel run :: rest => .returns ({ R with program := rest }.enqueue [.kernel run])
  | .space (.deepCopy dst src) :: rest =>
    .returns ({ R with program := rest }.enqueue [.copy dst src])
  | .space (.fence _) :: rest =>
    if R.queue.isEmpty then .returns { R with program := rest } else .blocks
  | .wait k :: rest => { R with program := rest }.wait k

/-- The stream has done what was next, which left `heap`. -/
def pop (R : Rank α) (heap : Heap α) : Rank α :=
  { R with heap := heap, queue := R.queue.tail, done := R.done + 1 }

/-- The NCCL call that is next on the stream. -/
def head? (R : Rank α) : Option TransportCall := R.queue.head?.bind StreamOp.call?

/-- The next step of the stream, if it needs no other process. -/
def work (R : Rank α) : Outcome (Rank α) :=
  match R.queue.head?.bind StreamOp.effect with
  | some f => .returns (R.pop (f R.heap))
  | none => .blocks

end Rank

/-! ## §3 The network -/

/-- All processes call it. -/
def TransportFn.isCollective : TransportFn → Bool
  | nccl (.ncclSend _) => false
  | nccl (.ncclRecv _) => false
  | _ => true

/-- An operation that several processes take part in. -/
inductive Joint where
  | transfer (src dst count : Nat) (ne : src ≠ dst)
  | collective (fn : TransportFn) (count : Nat) (all : fn.isCollective = true)
  deriving DecidableEq

namespace Joint

def parties (size : Nat) : Joint → List Nat
  | transfer src dst _ _ => [src, dst]
  | collective _ _ _ => List.range size

/-- The call by which process `p` takes part. -/
def wire (size : Nat) (t : Joint) (p : Nat) : Option Wire :=
  match t with
  | transfer src dst count _ =>
    if p = src then some ⟨.nccl (.ncclSend dst), count⟩
    else if p = dst then some ⟨.nccl (.ncclRecv src), count⟩
    else none
  | collective fn count _ => if p < size then some ⟨fn, count⟩ else none

end Joint

/-- The communicator of `size` processes, and what a collective leaves in the
memory of each of them. -/
structure Fabric (α : Type) where
  size : Nat
  size_pos : 0 < size
  comm : NcclComm
  collective : TransportFn → Nat → List (TransportCall × Heap α) → Nat → Heap α

/-- The memory of process `p` after the operation, which the parties take
part in with `calls`. -/
def Fabric.after (F : Fabric α) (t : Joint) (calls : List TransportCall) (heaps : Nat → Heap α)
    (p : Nat) : Heap α :=
  match t with
  | .transfer src dst count _ =>
    match calls with
    | [send, recv] =>
      if p = dst then
        Memory.scatter (heaps dst) (recv.received count)
          (Memory.gather (heaps src) (send.sent count))
      else heaps p
    | _ => heaps p
  | .collective fn count _ => F.collective fn count (calls.mapIdx fun r c => (c, heaps r)) p

/-- The processes, by rank. -/
abbrev Ranks (α : Type) := Nat → Rank α

/-- The host of `p` makes a step, or its stream does, or an operation takes
place. -/
inductive Act where
  | host (p : Nat)
  | work (p : Nat)
  | meet (t : Joint)
  deriving DecidableEq

namespace Ranks

/-- Process `p` runs the `p`-th program; the others run none. -/
def start (programs : List (List (Instr α))) (heaps : Nat → Heap α) (n : Nat) : Ranks α :=
  fun p => Rank.start (programs[p]?.getD []) (heaps p) n

/-- The operation is next on the streams of all its parties. -/
def Ready (F : Fabric α) (w : Ranks α) (t : Joint) : Prop :=
  ∀ p ∈ t.parties F.size, (w p).head?.map TransportCall.wire = t.wire F.size p

instance (F : Fabric α) (w : Ranks α) (t : Joint) : Decidable (w.Ready F t) :=
  inferInstanceAs (Decidable (∀ p ∈ t.parties F.size, _))

/-- What an operation leaves in the memory of `p`. -/
def heapAfter (F : Fabric α) (w : Ranks α) (t : Joint) (p : Nat) : Heap α :=
  F.after t ((t.parties F.size).filterMap fun q => (w q).head?) (fun q => (w q).heap) p

/-- The processes after an operation. -/
def meet (F : Fabric α) (w : Ranks α) (t : Joint) : Ranks α := fun p =>
  if p ∈ t.parties F.size then (w p).pop (w.heapAfter F t p) else w p

def perform (F : Fabric α) (w : Ranks α) : Act → Outcome (Ranks α)
  | .host p => do
    let R ← (w p).host F.size p F.comm
    .returns (Function.update w p R)
  | .work p => do
    let R ← (w p).work
    .returns (Function.update w p R)
  | .meet t => if w.Ready F t then .returns (w.meet F t) else .blocks

def step (F : Fabric α) (w : Ranks α) (x : Act) : Option (Ranks α) := (w.perform F x).toOption

/-- All programs have been run, and all streams are empty. -/
def Finished (w : Ranks α) : Prop := ∀ p, (w p).program = [] ∧ (w p).queue = []

end Ranks

end KokkosComm.Nccl
