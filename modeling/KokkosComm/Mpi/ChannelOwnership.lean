/-
KokkosComm.Mpi.ChannelOwnership — the life of `Channel<MpiSpace>` objects
and of their persistent requests (`mpi/channel.hpp`, special members and
`release_requests`).

A channel keeps its requests in a vector. A move takes the vector out of
the source and copies the endpoints; a move assignment onto another object
first frees what that object keeps; the destructor frees what is left.

`step` is one operation of a program on any number of channels, over the
`Ledger` of persistent requests. A call that ends the process is no step.
Whether a request is active plays no part: MPI lets an active request be
freed, and a request may be started and waited for any number of times.

`Channels.endpoints` is ghost state: the endpoints of the channel at each
registration. `ChannelOp.keep` is the specification's side, what each
operation does to the custody of the requests.
-/
import KokkosComm.Foundation.Custody
import KokkosComm.Foundation.Lts
import KokkosComm.Mpi.Channel
import KokkosComm.Mpi.Program

namespace KokkosComm.Mpi

/-- Where a channel sends to and receives from. -/
structure Endpoints where
  dst_rank : Int
  src_rank : Int
  tag : Int
  comm : MpiComm
  deriving DecidableEq, Repr

namespace Channel

def endpoints (c : Channel) : Endpoints :=
  { dst_rank := c.dst_rank_, src_rank := c.src_rank_, tag := c.tag_, comm := c.comm_ }

/-- The loop of `release_requests`: `MPI_Request_free` on each request that
is not null. -/
def freeRequests (log : Ledger) : List MpiRequest → Ledger
  | [] => log
  | none :: requests => freeRequests log requests
  | some h :: requests => freeRequests (log.free h) requests

/-- `release_requests`. -/
def releaseRequests (c : Channel) (log : Ledger) : Channel × Ledger :=
  ({ c with requests_ := [], statuses_ := 0 }, freeRequests log c.requests_)

/-- `~Channel`. -/
def destructor (c : Channel) (log : Ledger) : Ledger := (c.releaseRequests log).2

/-- `Channel(Channel&& other)`: the new object and what is left of `other`. -/
def moveConstruct (other : Channel) : Channel × Channel :=
  (other, { other with requests_ := [], statuses_ := 0 })

/-- `operator=(Channel&& other)` on two different objects. -/
def moveAssign (this other : Channel) (log : Ledger) : Channel × Channel × Ledger :=
  let (_, log) := this.releaseRequests log
  (other, { other with requests_ := [], statuses_ := 0 }, log)

end Channel

/-- Calls on the requests of a list. -/
def useRequests (log : Ledger) : List MpiRequest → Ledger
  | [] => log
  | none :: requests => useRequests log requests
  | some h :: requests => useRequests (log.use h) requests

/-! ## Programs -/

/-- The live channels and the persistent requests created for them. -/
structure Channels where
  mpi : PersistentTable
  log : Ledger
  endpoints : List Endpoints
  objs : ObjId → Option Channel

/-- No channel has been constructed. -/
def Channels.start : Channels :=
  { mpi := [], log := .empty, endpoints := [], objs := fun _ => none }

/-- The operations on channels. -/
inductive ChannelOp where
  | construct (r : ObjId) (endpoints : Endpoints)
  | sendinit (r : ObjId) (view : View) (elemSize : Nat)
  | recvinit (r : ObjId) (view : View) (elemSize : Nat)
  | start (r : ObjId)
  | wait (r : ObjId)
  | moveConstruct (dst src : ObjId)
  | moveAssign (dst src : ObjId)
  | destroy (r : ObjId)
  deriving DecidableEq, Repr

namespace Channels

def set (w : Channels) (r : ObjId) (v : Option Channel) : Channels :=
  { w with objs := Function.update w.objs r v }

/-- `sendinit` or `recvinit` on the channel `r`. -/
def register (w : Channels) (r : ObjId)
    (init : Channel → PersistentTable → Outcome (Channel × PersistentTable)) : Option Channels :=
  match w.objs r with
  | some c =>
    match init c w.mpi with
    | .returns (c', mpi) =>
      some { w.set r (some c') with
        mpi := mpi, log := w.log.create.2, endpoints := w.endpoints ++ [c.endpoints] }
    | _ => none
  | none => none

/-- `start` or `wait` on the channel `r`. -/
def act (w : Channels) (r : ObjId) (call : Channel → Outcome (List MpiRequest)) :
    Option Channels :=
  match w.objs r with
  | some c =>
    match call c with
    | .returns requests => some { w with log := useRequests w.log requests }
    | _ => none
  | none => none

/-- One operation; `none` when an object it names is not there (or, for
storage to construct in, already is), or the process ends. -/
def step (w : Channels) : ChannelOp → Option Channels
  | .construct r e =>
    match w.objs r with
    | none => some (w.set r (some (.new e.dst_rank e.src_rank e.tag e.comm)))
    | some _ => none
  | .sendinit r view elemSize => w.register r fun c mpi => c.sendinit view elemSize mpi
  | .recvinit r view elemSize => w.register r fun c mpi => c.recvinit view elemSize mpi
  | .start r => w.act r Channel.start
  | .wait r => w.act r Channel.wait
  | .moveConstruct dst src =>
    match w.objs dst, w.objs src with
    | none, some other =>
      let (new, old) := other.moveConstruct
      some ((w.set src (some old)).set dst (some new))
    | _, _ => none
  | .moveAssign dst src =>
    match w.objs dst, w.objs src with
    | some this, some other =>
      if dst = src then some w
      else
        let (new, old, log) := this.moveAssign other w.log
        some { (w.set src (some old)).set dst (some new) with log := log }
    | _, _ => none
  | .destroy r =>
    match w.objs r with
    | some c => some { w.set r none with log := c.destructor w.log }
    | none => none

end Channels

/-! ## What each operation is for -/

/-- Registering acquires a request, moves hand all over, a destroyed
channel releases all; `start` and `wait` change nothing. -/
def ChannelOp.keep (k : Custody ObjId) : ChannelOp → Custody ObjId
  | .construct _ _ => k
  | .sendinit r _ _ => k.acquire r
  | .recvinit r _ _ => k.acquire r
  | .start _ => k
  | .wait _ => k
  | .moveConstruct dst src => k.transfer dst src
  | .moveAssign dst src => k.transfer dst src
  | .destroy r => k.release r

/-- Who keeps which request after some operations. -/
def ChannelOp.custody (ops : List ChannelOp) : Custody ObjId := ops.foldl keep .empty

end KokkosComm.Mpi
