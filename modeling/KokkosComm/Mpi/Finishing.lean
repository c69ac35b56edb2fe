/-
KokkosComm.Mpi.Finishing — what a blocking routine leaves behind when it
returns, and what a non-blocking one leaves when its request completes.

A space is a memory and a queue of tasks, as in `Fencing`. A routine first
enqueues and fences, then MPI stores a message behind the data handle it
was given, then the routine enqueues some more and returns. In between the
space works off its queue as it likes: `before` and `behind` are any
sequences of events whose program part is what the routine does.

`RecvFinishes` and `ReduceFinishes` say that the message is in the receive
view when the routine returns, and that nothing is pending that would touch
the view or the packed buffer.
-/
import KokkosComm.Elementwise
import KokkosComm.Mpi.Fencing

namespace KokkosComm.Mpi

open WorkQueue

variable {κ α : Type}

/-- The memory and the queue of a space. -/
abbrev SpaceState (κ α : Type) := Heap α × List (Task κ)

/-- MPI stores `data` behind the data handle. -/
def store (recvbuf : Option View) (recvcount : Int) (data : List α) (m : Heap α) : Heap α :=
  match recvbuf with
  | some v => Memory.scatter m (v.buffer recvcount.toNat) data
  | none => m

/-- Some events, an MPI call, more events. -/
def aroundMpi (kernel : κ → Heap α → Heap α) (before behind : List (Event (Task κ)))
    (stored : Heap α → Heap α) (s : SpaceState κ α) : SpaceState κ α :=
  let s := exec (Task.run kernel) s.1 s.2 before
  exec (Task.run kernel) (stored s.1) s.2 behind

/-- What MPI may deliver: a received message can be shorter than the
buffer. -/
def BlockingFn.Delivers (fn : BlockingFn) (count : Int) (data : List α) : Prop :=
  match fn with
  | .mpiRecv _ _ => data.length ≤ count.toNat
  | _ => data.length = count.toNat

/-- The routine, called in the state `s`, can return in `s'` with `data`
received. MPI rejects negative counts. -/
def BlockingRoutine.ReturnsIn (routine : BlockingRoutine) (nextAlloc : AllocId)
    (kernel : κ → Heap α → Heap α) (data : List α) (s s' : SpaceState κ α) : Prop :=
  ∃ call after host before behind,
    routine (Host.start 0 nextAlloc) = .returns ((call, after), host) ∧
    0 ≤ call.sendcount ∧ 0 ≤ call.recvcount ∧ call.fn.Delivers call.recvcount data ∧
    program before = spaceEvents host.trace ∧ program behind = spaceEvents after ∧
    s' = aroundMpi kernel before behind (store call.recvbuf call.recvcount data) s

/-- What the callbacks do to the queue. -/
def callbacksEvents (ran : List Callback) : List (Event (Task κ)) :=
  ran.flatMap fun cb => cb.body.map (SpaceOp.event none)

/-- A non-blocking routine is called in the state `s`, its message arrives,
and `wait` on its request returns in `s'`. -/
def AsyncCall.CompletesIn (c : AsyncCall) (nextAlloc : AllocId) (kernel : κ → Heap α → Heap α)
    (data : List α) (s s' : SpaceState κ α) : Prop :=
  ∃ call wrap host before behind op lib ran left,
    c.upToMpi (Host.start 0 nextAlloc) = .returns ((call, wrap), host) ∧
    call.validCounts = true ∧ data.length ≤ call.recvcount.toNat ∧
    (wrap (some op)).wait lib = .returns (ran, left) ∧
    program before = spaceEvents host.trace ∧ program behind = callbacksEvents ran ∧
    s' = aroundMpi kernel before behind (store call.recvbuf call.recvcount data) s

/-- The task may write `rv`, or read a buffer that the routine allocated. -/
def Task.Disturbs (rv : View) (nextAlloc : AllocId) : Task κ → Prop
  | .kernel _ => True
  | .allocate _ => False
  | .copy _ dst src => dst = rv ∨ nextAlloc ≤ src.alloc

/-- The `k`-th element of the message is the `k`-th of `rv`, and nothing is
pending that disturbs it. -/
structure FinishedOnReturn (rv : View) (nextAlloc : AllocId) (data : List α)
    (s' : SpaceState κ α) : Prop where
  holds : rv.elements.Nodup → ∀ (k : Nat) i x, rv.route.order[k]? = some i →
    data[k]? = some x → s'.1 (rv.cell i) = x
  quiet : ∀ t ∈ s'.2, ¬ t.Disturbs rv nextAlloc

/-- `mpi::recv(space, rv, src, tag, comm)` is finished on return, in the
state in which `KokkosComm::recv` and `wait` end. -/
def RecvFinishes (κ α : Type) (rv : View) (src tag : Int) (comm : MpiComm) : Prop :=
  ∀ (nextAlloc : AllocId) (kernel : κ → Heap α → Heap α) (data : List α) (s s' : SpaceState κ α),
    (Blocking.recv rv src tag comm).ReturnsIn nextAlloc kernel data s s' →
      FinishedOnReturn rv nextAlloc data s' ∧
      ∀ s'', (AsyncCall.recvExecute rv src comm).CompletesIn nextAlloc kernel data s s'' → s'' = s'

/-- `mpi::reduce(space, sv, rv, op, root, comm)` is finished on return, on
the root. -/
def ReduceFinishes (κ α : Type) (sv rv : View) (op : MpiOp) (root : Nat) (comm : MpiComm) : Prop :=
  ∀ (nextAlloc : AllocId) (kernel : κ → Heap α → Heap α) (data : List α) (s s' : SpaceState κ α),
    (Blocking.reduce sv rv op root root comm).ReturnsIn nextAlloc kernel data s s' →
      FinishedOnReturn rv nextAlloc data s'

end KokkosComm.Mpi
