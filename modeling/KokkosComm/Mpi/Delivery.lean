/-
KokkosComm.Mpi.Delivery — any number of processes that send to and receive
from each other with `KokkosComm::send` and `KokkosComm::recv`.

A process has a heap, its MPI library, and the operations it has posted, in
order; the n-th operation is the one the n-th call started, and `Operation`
keeps its request. Within the rules of MPI everything is up to the run:

* MPI reads the buffer of a send at any time before the send is complete
  (`capture`), and a send whose buffer was read may complete (`finish`);
* on one communicator, the k-th send from `a` to `b` is matched with the
  k-th receive at `b` from `a`, and its message arrives at any time after
  both (`deliver a b k`);
* a request is completed by any of `wait`, `test`, `wait_all`, `wait_any`,
  which run the callbacks on the heap.

Ghost state, read by nothing else: what a view held when its operation was
posted, which operations have been completed, which allocations are the
user's (packed views are not), and the heap as it would be had only the
user written to it (`untouched`).

`Allowed` is what the user promises at each call, `CountsFit` the condition
under which the counts handed to MPI are what they should be.
-/
import KokkosComm.Foundation.Lts
import KokkosComm.Mpi.Transfer

namespace KokkosComm.Mpi

variable {α : Type}

/-! ## Processes -/

/-- A posted send or receive of `view`. `moved` is the message that MPI has
read, or that has arrived. -/
structure Operation (α : Type) where
  call : MpiCall
  view : View
  held : List α
  moved : Option (List α)
  req : Request Callback
  completed : Bool

structure Process (α : Type) where
  heap : Heap α
  untouched : Heap α
  lib : Library
  nextAlloc : AllocId
  users : List AllocId
  posted : List (Operation α)

/-- Nothing has been posted; the user owns the first `n` allocations. -/
def Process.start (heap : Heap α) (n : Nat) : Process α where
  heap := heap
  untouched := heap
  lib := { status := fun _ => .inFlight, stale := [] }
  nextAlloc := n
  users := List.range n
  posted := []

namespace Process

/-- A routine that returns a request is called on a view. -/
def post (P : Process α) (view : View) (routine : Routine (Request Callback)) :
    Outcome (Process α) := do
  let (req, host) ← routine (Host.start P.posted.length P.nextAlloc)
  match mpiCalls host.trace with
  | [(_, call)] =>
    .returns { P with
      heap      := runTrace host.trace P.heap
      nextAlloc := host.nextAlloc
      posted    := P.posted ++
        [{ call := call, view := view, held := Memory.gather P.heap view.elements, moved := none,
           req := req, completed := false }] }
  | _ => .undefined

/-- MPI reads the buffer of a send. -/
def capture (P : Process α) (op : OpId) : Outcome (Process α) :=
  match P.posted[op]? with
  | some x =>
    if x.moved.isNone ∧ x.call.sendbuf.isSome then
      .returns { P with
        posted := P.posted.set op { x with moved := some (x.call.message P.heap) } }
    else .blocks
  | none => .blocks

/-- A send whose buffer has been read completes. -/
def finish (P : Process α) (op : OpId) : Outcome (Process α) :=
  match P.posted[op]? with
  | some x =>
    if x.moved.isSome ∧ x.call.sendbuf.isSome ∧ P.lib.status op = .inFlight then
      .returns { P with lib := P.lib.finish op }
    else .blocks
  | none => .blocks

/-- A message arrives for a receive, which is then complete. -/
def arrive (P : Process α) (op : OpId) (message : List α) : Outcome (Process α) :=
  match P.posted[op]? with
  | some x =>
    if x.moved.isNone then do
      let heap ← x.call.receive message P.heap
      .returns { P with
        heap   := heap
        lib    := P.lib.finish op
        posted := P.posted.set op { x with moved := some message } }
    else .blocks
  | none => .blocks

/-- The requests of a span. -/
def requests (P : Process α) (span : List OpId) : List (Request Callback) :=
  span.filterMap fun op => P.posted[op]?.map Operation.req

/-- A completing call on `span` has returned: it left `reqs` in the span,
ran the callbacks `ran`, and the requests `done` are completed. -/
def settle (P : Process α) (span : List OpId) (reqs : List (Request Callback))
    (ran : List Callback) (lib : Library) (done : List OpId) : Process α :=
  { P with
    heap   := ran.foldl (fun h cb => cb.run h) P.heap
    lib    := lib
    posted := P.posted.mapIdx fun op x =>
      { x with
        req       := (reqs[span.idxOf op]?).getD x.req
        completed := x.completed || done.contains op } }

def wait (P : Process α) (op : OpId) : Outcome (Process α) :=
  match P.posted[op]? with
  | some x => do
    let (ran, req, lib) ← x.req.wait P.lib
    .returns (P.settle [op] [req] ran lib [op])
  | none => .undefined

def test (P : Process α) (op : OpId) : Outcome (Process α) :=
  match P.posted[op]? with
  | some x => do
    let (completed, ran, req, lib) ← x.req.test P.lib
    .returns (P.settle [op] [req] ran lib (if completed then [op] else []))
  | none => .undefined

def waitAll (P : Process α) (span : List OpId) : Outcome (Process α) := do
  let (ran, reqs, lib) ← Mpi.waitAll (P.requests span) P.lib
  .returns (P.settle span reqs ran lib span)

def waitAny (P : Process α) (span : List OpId) (pick : Nat) : Outcome (Process α) := do
  let (i, ran, reqs, lib) ← Mpi.waitAny (P.requests span) pick P.lib
  .returns (P.settle span reqs ran lib (i.bind fun i => span[i.toNat]?).toList)

/-- The operations whose call is of some kind, in posting order. -/
def ops (P : Process α) (kind : MpiCall → Bool) : List OpId :=
  (P.posted.map Operation.call).findIdxs kind

end Process

/-! ## The network -/

/-- A process for each rank. -/
abbrev Network (α : Type) := Int → Process α

/-- What happens on the process `p`, or between `a` and `b`. -/
inductive NetAct (α : Type) where
  | send (p : Int) (sv : View) (dest : Int)
  | recv (p : Int) (rv : View) (src : Int)
  | capture (p : Int) (op : OpId)
  | finish (p : Int) (op : OpId)
  | deliver (a b : Int) (k : Nat)
  | wait (p : Int) (op : OpId)
  | test (p : Int) (op : OpId)
  | waitAll (p : Int) (span : List OpId)
  | waitAny (p : Int) (span : List OpId) (pick : Nat)
  | write (p : Int) (c : Cell) (x : α)
  | allocate (p : Int)

namespace MpiCall

/-- A send to `b` with the tag of the library. -/
def isSendTo (comm : MpiComm) (b : Int) (call : MpiCall) : Bool :=
  call.fn.sendEnvelope == some (b, pointToPointTag) && call.comm == comm

/-- A receive from `a` with the tag of the library. -/
def isRecvFrom (comm : MpiComm) (a : Int) (call : MpiCall) : Bool :=
  call.fn.recvEnvelope == some (a, pointToPointTag) && call.comm == comm

end MpiCall

namespace Network

variable (mode : CommunicationMode) (comm : MpiComm)

def start (heaps : Int → Heap α) (allocs : Int → Nat) : Network α :=
  fun p => Process.start (heaps p) (allocs p)

/-- The sends from `a` to `b`. -/
def sends (w : Network α) (a b : Int) : List OpId := (w a).ops (MpiCall.isSendTo comm b)

/-- The receives at `b` from `a`. -/
def recvs (w : Network α) (a b : Int) : List OpId := (w b).ops (MpiCall.isRecvFrom comm a)

/-- A call of one process. -/
def on (w : Network α) (p : Int) (call : Process α → Outcome (Process α)) :
    Outcome (Network α) := do
  let P ← call (w p)
  .returns (Function.update w p P)

def perform (w : Network α) : NetAct α → Outcome (Network α)
  | .send p sv dest => w.on p fun P => P.post sv (Mpi.send mode sv dest comm)
  | .recv p rv src => w.on p fun P => P.post rv (Mpi.recv rv src comm)
  | .capture p op => w.on p fun P => P.capture op
  | .finish p op => w.on p fun P => P.finish op
  | .deliver a b k =>
    match (w.sends comm a b)[k]?, (w.recvs comm a b)[k]? with
    | some i, some j =>
      match ((w a).posted[i]?).bind Operation.moved with
      | some message => w.on b fun P => P.arrive j message
      | none => .blocks
    | _, _ => .blocks
  | .wait p op => w.on p fun P => P.wait op
  | .test p op => w.on p fun P => P.test op
  | .waitAll p span => w.on p fun P => P.waitAll span
  | .waitAny p span pick => w.on p fun P => P.waitAny span pick
  | .write p c x =>
    w.on p fun P => .returns { P with
      heap      := Function.update P.heap c x
      untouched := Function.update P.untouched c x }
  | .allocate p =>
    w.on p fun P => .returns { P with
      nextAlloc := P.nextAlloc + 1
      users     := P.nextAlloc :: P.users }

def step (w : Network α) (x : NetAct α) : Option (Network α) :=
  (w.perform mode comm x).toOption

end Network

/-! ## What the user promises -/

namespace Process

/-- No cell of `v` is an element of a view posted for `kind`. -/
def ApartFrom (P : Process α) (v : View) (kind : MpiCall → Bool) : Prop :=
  ∀ x ∈ P.posted, kind x.call = true → ∀ c ∈ v.elements, c ∉ x.view.elements

/-- A view of rank at most 1 in memory of the user. -/
def Owns (P : Process α) (v : View) : Prop := v.extents.length ≤ 1 ∧ v.alloc ∈ P.users

/-- Each of these requests is there, and has not been completed. -/
def Uncompleted (P : Process α) (span : List OpId) : Prop :=
  span.Nodup ∧ ∀ op ∈ span, ∃ x, P.posted[op]? = some x ∧ x.completed = false

section Decide

variable {P : Process α}

instance {v : View} {kind : MpiCall → Bool} : Decidable (P.ApartFrom v kind) :=
  inferInstanceAs (Decidable (∀ x ∈ P.posted, _))

instance {v : View} : Decidable (P.Owns v) := inferInstanceAs (Decidable (_ ∧ _))

instance {span : List OpId} : Decidable (P.Uncompleted span) :=
  decidable_of_iff (span.Nodup ∧ ∀ op ∈ span, ∃ x ∈ P.posted[op]?, x.completed = false) Iff.rfl

end Decide

end Process

namespace Network

variable (comm : MpiComm)

/-- The `n`-th operation of a kind, if it has been posted already, was
posted for a view of these extents. -/
def Agrees (P : Process α) (ops : List OpId) (n : Nat) (extents : List Nat) : Prop :=
  ∀ op x, ops[n]? = some op → P.posted[op]? = some x → x.view.extents = extents

instance {P : Process α} {ops : List OpId} {n : Nat} {extents : List Nat} :
    Decidable (Agrees P ops n extents) :=
  decidable_of_iff (∀ op ∈ ops[n]?, ∀ x ∈ P.posted[op]?, x.view.extents = extents)
    ⟨fun h op x hop hx => h op hop x hx, fun h op hop x hx => h op x hop hx⟩

/-- Views are the user's own, receive views are apart from all others, the
k-th send and the k-th receive have equal extents; each request is
completed once; and the user does not write to a view of an operation that
is not completed, nor to a receive view. -/
def Allowed (w : Network α) : NetAct α → Prop
  | .send p sv dest =>
    (w p).Owns sv ∧ (w p).ApartFrom sv (fun call => call.recvbuf.isSome) ∧
      Agrees (w dest) (w.recvs comm p dest) (w.sends comm p dest).length sv.extents
  | .recv p rv src =>
    (w p).Owns rv ∧ (w p).ApartFrom rv (fun _ => true) ∧
      Agrees (w src) (w.sends comm src p) (w.recvs comm src p).length rv.extents
  | .wait p op => (w p).Uncompleted [op]
  | .test p op => (w p).Uncompleted [op]
  | .waitAll p span => (w p).Uncompleted span
  | .waitAny p span _ => (w p).Uncompleted span
  | .write p c _ =>
    c.1 ∈ (w p).users ∧ ∀ x ∈ (w p).posted,
      (x.call.recvbuf.isSome = true ∨ x.completed = false) → c ∉ x.view.elements
  | _ => True

instance {w : Network α} : (x : NetAct α) → Decidable (w.Allowed comm x)
  | .send _ _ _ => inferInstanceAs (Decidable (_ ∧ _ ∧ _))
  | .recv _ _ _ => inferInstanceAs (Decidable (_ ∧ _ ∧ _))
  | .wait p op => inferInstanceAs (Decidable ((w p).Uncompleted [op]))
  | .test p op => inferInstanceAs (Decidable ((w p).Uncompleted [op]))
  | .waitAll p span => inferInstanceAs (Decidable ((w p).Uncompleted span))
  | .waitAny p span _ => inferInstanceAs (Decidable ((w p).Uncompleted span))
  | .write p c _ => inferInstanceAs (Decidable (c.1 ∈ (w p).users ∧ ∀ x ∈ (w p).posted, _))
  | .capture _ _ => isTrue trivial
  | .finish _ _ => isTrue trivial
  | .deliver _ _ _ => isTrue trivial
  | .allocate _ => isTrue trivial

/-- The counts are exact as an `int`; and the elements of a receive view
are distinct cells. -/
def CountsFit : NetAct α → Prop
  | .send _ sv _ => sv.size < 2147483648
  | .recv _ rv _ => rv.size < 2147483648 ∧ rv.elements.Nodup
  | .waitAll _ span => span.length < 2147483648
  | _ => True

instance : (x : NetAct α) → Decidable (CountsFit x)
  | .send _ sv _ => inferInstanceAs (Decidable (sv.size < 2147483648))
  | .recv _ rv _ => inferInstanceAs (Decidable (rv.size < 2147483648 ∧ rv.elements.Nodup))
  | .waitAll _ span => inferInstanceAs (Decidable (span.length < 2147483648))
  | .capture _ _ => isTrue trivial
  | .finish _ _ => isTrue trivial
  | .deliver _ _ _ => isTrue trivial
  | .wait _ _ => isTrue trivial
  | .test _ _ => isTrue trivial
  | .waitAny _ _ _ => isTrue trivial
  | .write _ _ _ => isTrue trivial
  | .allocate _ => isTrue trivial

/-- What has been received: the k-th receive view at `b` from `a` holds, in
index order, what the k-th send view from `a` to `b` held; and no other
cell of a user has been modified by the library. -/
def Delivers (w : Network α) : Prop :=
  (∀ (a b : Int) (k j : Nat) (y : Operation α), (w.recvs comm a b)[k]? = some j →
    (w b).posted[j]? = some y → y.completed = true →
      ∃ (i : Nat) (x : Operation α), (w.sends comm a b)[k]? = some i ∧
        (w a).posted[i]? = some x ∧ Memory.gather (w b).heap y.view.elements = x.held) ∧
  ∀ (p : Int) (c : Cell), c.1 ∈ (w p).users →
    (∀ x ∈ (w p).posted, x.call.recvbuf.isSome = true → c ∉ x.view.elements) →
      (w p).heap c = (w p).untouched c

end Network

end KokkosComm.Mpi
