/-
KokkosComm.Mpi.ChannelRun — two processes that exchange messages over a
pair of channels, cycle after cycle.

Process `a` has registered send views on its channel, process `b` receive
views on a channel with the matching source, tag and communicator. Each
process starts and waits on its own; one can be cycles ahead. Within the
rules of MPI everything is up to the run:

* `MPI_Startall` starts the requests in any order (`startSend order`);
* MPI reads a started send's buffer at any time before the send completes
  (`capture k`: the k-th send started);
* the k-th send started is matched with the k-th receive started, and its
  message arrives at any time after both (`deliver k`); a message too long
  for the receive is `MPI_ERR_TRUNCATE`, and the process ends;
* `wait` returns once the requests it waits for are complete.

Between a wait and the next start the user may write anything anywhere.

`contents` and `completed` are ghost state: the contents of the send views
at each start, and the number of cycles the receiver has completed.
-/
import Mathlib.Logic.Equiv.Defs
import KokkosComm.Foundation.Lts
import KokkosComm.Mpi.Channel

namespace KokkosComm.Mpi

variable {α : Type}

/-- A view to register, and the size of its value type. -/
structure Registered where
  view : View
  elemSize : Nat
  deriving DecidableEq, Repr

namespace Registered

/-- The number of unit cells of the elements. -/
def length (r : Registered) : Nat := r.elemSize * r.view.size

/-- The cells of a contiguous view, from its first one on. -/
def cells (r : Registered) : List Cell :=
  (List.range r.length).map fun k => (r.view.alloc, r.elemSize * r.view.base + k)

/-- What a contiguous view holds. -/
def contents (r : Registered) (h : Heap α) : List α := Memory.gather h r.cells

end Registered

/-- `sendinit` or `recvinit` on one view after the other. -/
def registerAll
    (init : Channel → View → Nat → PersistentTable → Outcome (Channel × PersistentTable)) :
    List Registered → Channel → PersistentTable → Outcome (Channel × PersistentTable)
  | [], c, mpi => .returns (c, mpi)
  | r :: rs, c, mpi => do
    let (c, mpi) ← init c r.view r.elemSize mpi
    registerAll init rs c mpi

/-! ## States -/

/-- A process with one channel. `active` between `start` and `wait`. -/
structure Side (α : Type) where
  heap : Heap α
  mpi : PersistentTable
  channel : Channel
  active : Bool

/-- A started send, and its message once MPI has read it. -/
structure Sent (α : Type) where
  request : Nat
  message : Option (List α)

/-- A started receive, and whether its message has arrived. -/
structure Posted where
  request : Nat
  arrived : Bool

/-- The ranks and views are fixed; the rest is the state of a run. -/
structure Exchange (α : Type) where
  a : Int
  b : Int
  svs : List Registered
  rvs : List Registered
  sender : Side α
  receiver : Side α
  sends : List (Sent α)
  recvs : List Posted
  contents : List (List (List α))
  completed : Nat

namespace Exchange

/-- The send and receive views have been registered, on channels with the
same tag and communicator. -/
def init (a b tag : Int) (comm : MpiComm) (svs rvs : List Registered) (hs hr : Heap α) :
    Outcome (Exchange α) := do
  let (sendChannel, sendMpi) ← registerAll Channel.sendinit svs (.new b a tag comm) []
  let (recvChannel, recvMpi) ← registerAll Channel.recvinit rvs (.new b a tag comm) []
  .returns
    { a := a
      b := b
      svs := svs
      rvs := rvs
      sender := { heap := hs, mpi := sendMpi, channel := sendChannel, active := false }
      receiver := { heap := hr, mpi := recvMpi, channel := recvChannel, active := false }
      sends := []
      recvs := []
      contents := []
      completed := 0 }

/-! ## Steps -/

inductive Act (α : Type) where
  | startSend (order : List Nat)
  | startRecv (order : List Nat)
  | capture (k : Nat)
  | deliver (k : Nat)
  | waitSend
  | waitRecv
  | writeSend (c : Cell) (x : α)
  | writeRecv (c : Cell) (x : α)

/-- The contents of the send views. -/
def sendContents (w : Exchange α) : List (List α) :=
  w.svs.map fun r => r.contents w.sender.heap

/-- One step. A call made in the wrong state is not part of any run. -/
def perform (w : Exchange α) : Act α → Outcome (Exchange α)
  | .startSend order => do
    let started ← w.sender.channel.start
    if w.sender.active = false ∧ (order.map some).Perm started then
      .returns { w with
        sender := { w.sender with active := true }
        sends := w.sends ++ order.map fun r => { request := r, message := none }
        contents := w.contents ++ [w.sendContents] }
    else .undefined
  | .startRecv order => do
    let started ← w.receiver.channel.start
    if w.receiver.active = false ∧ (order.map some).Perm started then
      .returns { w with
        receiver := { w.receiver with active := true }
        recvs := w.recvs ++ order.map fun r => { request := r, arrived := false } }
    else .undefined
  | .capture k =>
    match w.sends[k]? with
    | some { request := r, message := none } =>
      match w.sender.mpi[r]? with
      | some call =>
        let message := Memory.gather w.sender.heap call.cells
        .returns { w with sends := w.sends.set k { request := r, message := some message } }
      | none => .undefined
    | _ => .blocks
  | .deliver k =>
    match w.sends[k]?, w.recvs[k]? with
    | some { request := s, message := some message }, some { request := r, arrived := false } =>
      match w.sender.mpi[s]?, w.receiver.mpi[r]? with
      | some sendCall, some recvCall =>
        if PersistentCall.matching w.a w.b sendCall recvCall then do
          let heap ← recvCall.receive message w.receiver.heap
          .returns { w with
            receiver := { w.receiver with heap := heap }
            recvs := w.recvs.set k { request := r, arrived := true } }
        else .blocks
      | _, _ => .undefined
    | _, _ => .blocks
  | .waitSend => do
    let waited ← w.sender.channel.wait
    if w.sender.active = true then
      if ∀ s ∈ w.sends, waited.contains (some s.request) → s.message.isSome then
        .returns { w with sender := { w.sender with active := false } }
      else .blocks
    else .undefined
  | .waitRecv => do
    let waited ← w.receiver.channel.wait
    if w.receiver.active = true then
      if ∀ r ∈ w.recvs, waited.contains (some r.request) → r.arrived = true then
        .returns { w with
          receiver := { w.receiver with active := false }
          completed := w.completed + 1 }
      else .blocks
    else .undefined
  | .writeSend c x =>
    if w.sender.active = false then
      .returns { w with
        sender := { w.sender with heap := Function.update w.sender.heap c x } }
    else .undefined
  | .writeRecv c x =>
    if w.receiver.active = false then
      .returns { w with
        receiver := { w.receiver with heap := Function.update w.receiver.heap c x } }
    else .undefined

def step (w : Exchange α) (x : Act α) : Option (Exchange α) := (w.perform x).toOption

/-- After a `wait` of the receiver, `r_j` holds what `s_j` held when the
cycle was started, for every `j`. -/
def CycleDelivers (w : Exchange α) (x : Act α) (w' : Exchange α) : Prop :=
  match x with
  | .waitRecv => ∀ (j : Nat) (r : Registered), w.rvs[j]? = some r →
      (w.contents[w.completed]?.bind fun held => held[j]?) = some (r.contents w'.receiver.heap)
  | _ => True

/-- After a `wait` of the receiver, each of its views holds what a send view of
its length held when the cycle was started, and no two of them the same one. -/
def CyclePermutes (w : Exchange α) (x : Act α) (w' : Exchange α) : Prop :=
  match x with
  | .waitRecv => ∃ σ : Equiv.Perm (Fin w.svs.length),
      ∀ (j : Fin w.svs.length) (s r : Registered), w.svs[(σ j).val]? = some s →
        w.rvs[j.val]? = some r → s.length = r.length ∧
          (w.contents[w.completed]?.bind fun held => held[(σ j).val]?) =
            some (r.contents w'.receiver.heap)
  | _ => True

end Exchange

end KokkosComm.Mpi
