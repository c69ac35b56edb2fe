/-
KokkosComm.Nccl.Ownership — the life of `Request<NcclSpace>` objects and of
the CUDA events behind them (`nccl/request.hpp`, special members and
`capture_stream_state`).

The class has a hand-written destructor, which destroys the event, and
`= default` move operations, which move member by member: `request_` is a
pointer and is COPIED, `callbacks_` is a vector and is moved out of the
source. The functions below say exactly that, over a `Ledger` of events
(`cudaEventCreate`, `cudaEventDestroy`, and the calls that use an event).
Every CUDA call succeeds.

`step` is one operation of a program on any number of request objects.
Storage in a `std::vector` is move construction into an element, and
growth (`grow`) relocates the elements: each is move constructed in the
new storage, then the old ones are destroyed.
-/
import KokkosComm.Foundation.Ledger
import KokkosComm.Foundation.Lts
import KokkosComm.Nccl.Request

namespace KokkosComm.Nccl

variable {κ : Type}

abbrev ObjId := Nat

/-! ## Special members -/

/-- An event call made by the request, if it has an event. -/
def useEvent (events : Ledger) : Option EventId → Ledger
  | none => events
  | some e => events.use e

/-- `if (request_ != nullptr) { cudaEventDestroy(request_); }` -/
def destroyEvent (events : Ledger) : Option EventId → Ledger
  | none => events
  | some e => events.free e

namespace Request

/-- `capture_stream_state`: destroy the old event if there is one, create a
new one and record it. -/
def captureStreamState (r : Request κ) (events : Ledger) : Request κ × Ledger :=
  let events := destroyEvent events r.request_
  let (e, events) := events.create
  ({ r with request_ := some e }, events.use e)

/-- `~Request`. -/
def destructor (r : Request κ) (events : Ledger) : Ledger :=
  destroyEvent events r.request_

/-- `Request(Request&&) = default`: the new object and what is left of the
source. -/
def moveConstruct (src : Request κ) : Request κ × Request κ :=
  ({ request_ := src.request_, callbacks_ := src.callbacks_ }, { src with callbacks_ := [] })

/-- `operator=(Request&&) = default`: no event is destroyed. -/
def moveAssign (_dst src : Request κ) : Request κ × Request κ :=
  ({ request_ := src.request_, callbacks_ := src.callbacks_ }, { src with callbacks_ := [] })

end Request

/-! ## Programs -/

/-- The live request objects, and the events created for them. -/
structure Program (κ : Type) where
  events : Ledger
  objs : ObjId → Option (Request κ)

/-- No object has been constructed. -/
def Program.start : Program κ := { events := .empty, objs := fun _ => none }

/-- The operations on request objects. -/
inductive Op where
  | construct (r : ObjId)
  | capture (r : ObjId)
  | moveConstruct (dst src : ObjId)
  | moveAssign (dst src : ObjId)
  | grow (elements : List (ObjId × ObjId))
  | wait (r : ObjId)
  | test (r : ObjId) (completed : Bool)
  | destroy (r : ObjId)
  deriving DecidableEq, Repr

namespace Program

def set (w : Program κ) (r : ObjId) (v : Option (Request κ)) : Program κ :=
  { w with objs := Function.update w.objs r v }

/-- `Request dst(std::move(src));` in fresh storage. -/
def moveConstruct (w : Program κ) (dst src : ObjId) : Option (Program κ) :=
  match w.objs dst, w.objs src with
  | none, some s =>
    let (new, old) := s.moveConstruct
    some ((w.set src (some old)).set dst (some new))
  | _, _ => none

/-- `dst = std::move(src);`. Assigned to itself, a request keeps its event
and loses its callbacks, like any vector moved onto itself. -/
def moveAssign (w : Program κ) (dst src : ObjId) : Option (Program κ) :=
  match w.objs dst, w.objs src with
  | some d, some s =>
    let (new, old) := d.moveAssign s
    if dst = src then some (w.set src (some old))
    else some ((w.set src (some old)).set dst (some new))
  | _, _ => none

def destroy (w : Program κ) (r : ObjId) : Option (Program κ) :=
  match w.objs r with
  | some q => some { w.set r none with events := q.destructor w.events }
  | none => none

/-- Relocation of vector elements `(new, old)`. -/
def grow (w : Program κ) (elements : List (ObjId × ObjId)) : Option (Program κ) := do
  let w ← elements.foldlM (fun w x => w.moveConstruct x.1 x.2) w
  elements.foldlM (fun w x => w.destroy x.2) w

/-- One operation; `none` when an object it names is not there (or, for
storage to construct in, already is). -/
def step (w : Program κ) : Op → Option (Program κ)
  | .construct r =>
    match w.objs r with
    | none => some (w.set r (some Request.new))
    | some _ => none
  | .capture r =>
    match w.objs r with
    | some q =>
      let (q, events) := q.captureStreamState w.events
      some { w.set r (some q) with events := events }
    | none => none
  | .moveConstruct dst src => w.moveConstruct dst src
  | .moveAssign dst src => w.moveAssign dst src
  | .grow elements => w.grow elements
  | .wait r =>
    match w.objs r with
    | some q =>
      some { w.set r (some { q with callbacks_ := [] }) with
        events := useEvent w.events q.request_ }
    | none => none
  | .test r completed =>
    match w.objs r with
    | some q =>
      let q' := if completed then { q with callbacks_ := [] } else q
      some { w.set r (some q') with events := useEvent w.events q.request_ }
    | none => none
  | .destroy r => w.destroy r

end Program

end KokkosComm.Nccl
