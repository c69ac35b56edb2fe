/-
KokkosComm.Mpi.Program — programs that work on `Request<MpiSpace>` objects.

A program state holds the MPI library, the live request objects, and the
references of the user. One `Op` is one call of the program: a routine
that returns a request, a member or free function of `mpi/request.hpp`, a
special member, or the user's own handling of its views. The environment
completes operations (`Op.complete`) at any time; which complete operation
`MPI_Waitany` reports is part of the call. So a list of `Op`s is one run.

What a statement about runs needs besides is kept as ghost state, read by
no function of the program: the operation a request wraps and an identity
that follows it when it is moved (`Object`), all callbacks ever registered
and all callbacks run, in order (`Entry`), and for each operation the views
the transport may touch (`buffers`) and those its callbacks will write
(`targets`), and the operations whose request was destroyed or assigned
over (`abandoned`).

`perform` is one call, with what it returns. Using an object that is not
there, or constructing one where there is one, is undefined. Each of the
completing calls executes callbacks, which is where `ProgramTheorems`
states their specifications.
-/
import KokkosComm.Foundation.Lts
import KokkosComm.Mpi.Routines

namespace KokkosComm.Mpi

abbrev ObjId := Nat

/-! ## §1 States -/

/-- A callback that was registered: the how manieth, on which request, and
the operation that request wraps. -/
structure Entry where
  token : Nat
  rid : Nat
  op : MpiRequest
  callback : Callback
  deriving DecidableEq, Repr

/-- A live request object. `op` and `rid` move with the request. -/
structure Object where
  req : Request Entry
  rid : Nat
  op : MpiRequest
  movedFrom : Bool
  deriving DecidableEq, Repr

namespace Object

/-- `Request()`, or `Request(request)`. -/
def wrap (rid : Nat) (request : MpiRequest) : Object :=
  { req := Request.new request, rid := rid, op := request, movedFrom := false }

/-- All callbacks have run; `wait` and `test` also set the handle to null. -/
def executed (o : Object) (null : Bool) : Object :=
  { o with req := { request_ := if null then none else o.req.request_, callbacks_ := [] } }

/-- What is left of an object whose request has been moved away. -/
def leftBehind (o : Object) (req : Request Entry) : Object :=
  { o with req := req, op := none, movedFrom := true }

/-- A callback of the object owns a reference to the allocation. -/
def retains (o : Object) (a : AllocId) : Bool :=
  o.req.callbacks_.any fun e => e.callback.retains a

end Object

structure Program where
  lib : Library
  objs : ObjId → Option Object
  nextOp : OpId
  nextAlloc : AllocId
  nextRid : Nat
  userRefs : List AllocId
  buffers : List (OpId × View)
  targets : List (OpId × View)
  abandoned : List OpId
  registered : List Entry
  ran : List Entry

/-- `n` requests, each wrapping a distinct active operation. -/
def Program.start (n : Nat) : Program where
  lib := { status := fun _ => .inFlight, stale := [] }
  objs r := if r < n then some (.wrap r (some r)) else none
  nextOp := n
  nextAlloc := 0
  nextRid := n
  userRefs := []
  buffers := []
  targets := []
  abandoned := []
  registered := []
  ran := []

/-! ## §2 Calls -/

inductive Op where
  | construct (r : ObjId)
  | launch (r : ObjId) (call : AsyncCall)
  | addCallback (r : ObjId) (cb : Callback)
  | wait (r : ObjId)
  | test (r : ObjId)
  | waitAll (requests : List ObjId)
  | waitAny (requests : List ObjId) (pick : Nat)
  | moveConstruct (dst src : ObjId)
  | moveAssign (dst src : ObjId)
  | destroy (r : ObjId)
  | complete (op : OpId)
  | userAllocate
  | userCopy (a : AllocId)
  | userDrop (a : AllocId)
  deriving DecidableEq, Repr

/-- What a call returns. -/
inductive Ret where
  | unit
  | tested (completed : Bool)
  | index (i : Option Int)
  deriving DecidableEq, Repr

namespace Program

def set (w : Program) (r : ObjId) (v : Option Object) : Program :=
  { w with objs := Function.update w.objs r v }

/-- The request in `o` is given up. -/
def abandon (w : Program) (o : Object) : Program :=
  { w with abandoned := w.abandoned ++ o.op.toList }

/-- The next entries, for callbacks registered on one request. -/
def entries (w : Program) (rid : Nat) (op : MpiRequest) (cbs : List Callback) : List Entry :=
  cbs.mapIdx fun k cb =>
    { token := w.registered.length + k, rid := rid, op := op, callback := cb }

/-- The elements of a span: distinct live objects. -/
def IsSpan (w : Program) (span : List ObjId) : Prop :=
  span.Nodup ∧ ∀ r ∈ span, (w.objs r).isSome

instance (w : Program) (span : List ObjId) : Decidable (w.IsSpan span) :=
  inferInstanceAs (Decidable (_ ∧ _))

/-- The requests of a span. -/
def requests (w : Program) (span : List ObjId) : List (Request Entry) :=
  (span.filterMap w.objs).map Object.req

/-- The objects after a call left `reqs` in the elements of a span. -/
def store (w : Program) (span : List ObjId) (reqs : List (Request Entry)) : Program :=
  { w with objs := fun r =>
      match reqs[span.idxOf r]? with
      | some req => (w.objs r).map fun o => { o with req := req }
      | none => w.objs r }

/-- A routine returns a request into the storage `r`. The caller owns a
reference to every managed view it passes. -/
def launch (w : Program) (r : ObjId) (call : AsyncCall) : Outcome (Ret × Program) :=
  if (w.objs r).isNone ∧ ∀ v ∈ call.views, v.managed = true → v.alloc ∈ w.userRefs then do
    let (req, host) ← call.run (Host.start w.nextOp w.nextAlloc)
    let entries := w.entries w.nextRid req.request_ req.callbacks_
    let object := { Object.wrap w.nextRid req.request_ with
      req := { request_ := req.request_, callbacks_ := entries } }
    .returns (.unit,
      { w.set r (some object) with
        nextOp := host.nextOp
        nextAlloc := host.nextAlloc
        nextRid := w.nextRid + 1
        buffers := w.buffers ++
          (mpiCalls host.trace).flatMap fun p => p.2.buffers.map fun v => (p.1, v)
        targets := w.targets ++ req.request_.toList.flatMap fun op =>
          (req.callbacks_.flatMap Callback.targets).map fun v => (op, v)
        registered := w.registered ++ entries })
  else .undefined

def addCallback (w : Program) (r : ObjId) (cb : Callback) : Outcome (Ret × Program) :=
  match w.objs r with
  | some o =>
    let entries := w.entries o.rid o.op [cb]
    let req := entries.foldl Request.addCallback o.req
    .returns (.unit,
      { w.set r (some { o with req := req }) with registered := w.registered ++ entries })
  | none => .undefined

/-- `Request b(std::move(a));` -/
def moveConstruct (w : Program) (dst src : ObjId) : Outcome (Ret × Program) :=
  match w.objs dst, w.objs src with
  | none, some s =>
    let (new, old) := s.req.moveConstruct
    .returns (.unit, (w.set src (some (s.leftBehind old))).set dst (some { s with req := new }))
  | _, _ => .undefined

/-- `b = std::move(a);`. Assigned to itself, a request keeps its handle and
loses its callbacks, like any vector moved onto itself. -/
def moveAssign (w : Program) (dst src : ObjId) : Outcome (Ret × Program) :=
  match w.objs dst, w.objs src with
  | some d, some s =>
    let (new, old) := d.req.moveAssign s.req
    let w := (w.abandon d).set src (some (s.leftBehind old))
    if dst = src then .returns (.unit, w)
    else .returns (.unit, w.set dst (some { s with req := new }))
  | _, _ => .undefined

/-- One call of the program, and what it returns. -/
def perform (w : Program) : Op → Outcome (Ret × Program)
  | .construct r =>
    if (w.objs r).isNone then
      .returns (.unit, { w.set r (some (.wrap w.nextRid none)) with nextRid := w.nextRid + 1 })
    else .undefined
  | .launch r call => w.launch r call
  | .addCallback r cb => w.addCallback r cb
  | .wait r =>
    match w.objs r with
    | some o => do
      let (ran, req, lib) ← o.req.wait w.lib
      .returns (.unit, { w.set r (some { o with req := req }) with
        lib := lib, ran := w.ran ++ ran })
    | none => .undefined
  | .test r =>
    match w.objs r with
    | some o => do
      let (completed, ran, req, lib) ← o.req.test w.lib
      .returns (.tested completed, { w.set r (some { o with req := req }) with
        lib := lib, ran := w.ran ++ ran })
    | none => .undefined
  | .waitAll span =>
    if w.IsSpan span then do
      let (ran, reqs, lib) ← Mpi.waitAll (w.requests span) w.lib
      .returns (.unit, { w.store span reqs with lib := lib, ran := w.ran ++ ran })
    else .undefined
  | .waitAny span pick =>
    if w.IsSpan span then do
      let (i, ran, reqs, lib) ← Mpi.waitAny (w.requests span) pick w.lib
      .returns (.index i, { w.store span reqs with lib := lib, ran := w.ran ++ ran })
    else .undefined
  | .moveConstruct dst src => w.moveConstruct dst src
  | .moveAssign dst src => w.moveAssign dst src
  | .destroy r =>
    match w.objs r with
    | some o => .returns (.unit, (w.abandon o).set r none)
    | none => .undefined
  | .complete op =>
    if op < w.nextOp ∧ w.lib.status op = .inFlight then
      .returns (.unit, { w with lib := w.lib.finish op })
    else .undefined
  | .userAllocate =>
    .returns (.unit, { w with
      nextAlloc := w.nextAlloc + 1, userRefs := w.nextAlloc :: w.userRefs })
  | .userCopy a =>
    if a ∈ w.userRefs then .returns (.unit, { w with userRefs := a :: w.userRefs })
    else .undefined
  | .userDrop a =>
    if a ∈ w.userRefs then .returns (.unit, { w with userRefs := w.userRefs.erase a })
    else .undefined

/-- The state after a call that returns. -/
def step (w : Program) (a : Op) : Option Program := (w.perform a).toOption.map Prod.snd

end Program

end KokkosComm.Mpi
