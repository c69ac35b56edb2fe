/-
KokkosComm.Mpi.Messaging — any number of processes that each run a program of
sends, receives, work of their own and waits, over MPI.

§1 is what runs. A process is a `Process` of `Mpi.Delivery` with a program.
The host makes one step of the program at a time; MPI reads the buffer of a
send, completes a send, and delivers a message when it likes. It may
complete a send before the receive is there only if it buffers, and never
in synchronous mode; ready mode, which needs the receive to be there first,
is left out. The k-th send from `a` to `b` is for the k-th receive at `b`
from `a`.

§2 is what the programs say, with nothing in between: a send has sent what
its view holds when it is called, and a receive has it in its view when it
is waited for.

§3 is the rule for programs: nothing is done with a view, from the call of a
send or a receive to its wait, that MPI could notice; and a message is as
long as the view that it is for.
-/
import KokkosComm.Choreography
import KokkosComm.Foundation.Monotone
import KokkosComm.Mpi.Delivery

namespace KokkosComm.Mpi.Messaging

variable {α : Type}

/-! ## §1 Processes over MPI -/

/-- The instructions of a program: `KokkosComm::send`, `KokkosComm::recv`,
work of the user, `wait` on the request of the `op`-th call, and `wait_all`
on several. -/
inductive Instr (α : Type) where
  | send (sv : View) (dest : Int)
  | recv (rv : View) (src : Int)
  | kernel (k : Kernel α)
  | wait (op : OpId)
  | waitAll (span : List OpId)

/-- What MPI may do. `mode` is `DefaultCommMode`, standard or synchronous.
`buffers`: MPI may keep a message until there is a receive for it. -/
structure Transport where
  mode : CommunicationMode
  notReady : mode ≠ .ready
  comm : MpiComm
  buffers : Bool

/-- A send may complete before its receive is there. -/
def Transport.early (T : Transport) : Bool := T.buffers && T.mode != .synchronous

structure Peer (α : Type) where
  program : List (Instr α)
  proc : Process α

/-- The processes, by rank. -/
abbrev Peers (α : Type) := Int → Peer α

/-- The host of `p` makes a step; or something happens to the `k`-th message
from `a` to `b`. -/
inductive Act where
  | host (p : Int)
  | capture (a b : Int) (k : Nat)
  | finish (a b : Int) (k : Nat)
  | deliver (a b : Int) (k : Nat)
  deriving DecidableEq

/-- The next instruction of a host. -/
def Peer.host (T : Transport) (P : Peer α) : Outcome (Peer α) :=
  match P.program with
  | [] => .blocks
  | .send sv dest :: rest => do
    let proc ← P.proc.post sv (Mpi.send T.mode sv dest T.comm)
    .returns { program := rest, proc := proc }
  | .recv rv src :: rest => do
    let proc ← P.proc.post rv (Mpi.recv rv src T.comm)
    .returns { program := rest, proc := proc }
  | .kernel k :: rest =>
    .returns { program := rest, proc := { P.proc with heap := k.run P.proc.heap } }
  | .wait op :: rest => do
    let proc ← P.proc.wait op
    .returns { program := rest, proc := proc }
  | .waitAll span :: rest => do
    let proc ← P.proc.waitAll span
    .returns { program := rest, proc := proc }

namespace Peers

/-- All processes at the start of their programs; the user owns the first `n`
allocations. -/
def start (programs : Int → List (Instr α)) (heaps : Int → Heap α) (n : Nat) : Peers α :=
  fun p => { program := programs p, proc := .start (heaps p) n }

/-- The sends from `a` to `b`, and the receives at `b` from `a`. -/
def sends (w : Peers α) (comm : MpiComm) (a b : Int) : List OpId :=
  (w a).proc.ops (MpiCall.isSendTo comm b)

def recvs (w : Peers α) (comm : MpiComm) (a b : Int) : List OpId :=
  (w b).proc.ops (MpiCall.isRecvFrom comm a)

/-- Something happens in one process. -/
def on (w : Peers α) (p : Int) (call : Process α → Outcome (Process α)) : Outcome (Peers α) := do
  let proc ← call (w p).proc
  .returns (Function.update w p { w p with proc := proc })

def perform (T : Transport) (w : Peers α) : Act → Outcome (Peers α)
  | .host p => do
    let P ← (w p).host T
    .returns (Function.update w p P)
  | .capture a b k =>
    match (w.sends T.comm a b)[k]? with
    | some i => w.on a fun P => P.capture i
    | none => .blocks
  | .finish a b k =>
    match (w.sends T.comm a b)[k]? with
    | some i =>
      if T.early = true ∨ k < (w.recvs T.comm a b).length then w.on a fun P => P.finish i
      else .blocks
    | none => .blocks
  | .deliver a b k =>
    match (w.sends T.comm a b)[k]?, (w.recvs T.comm a b)[k]? with
    | some i, some j =>
      match ((w a).proc.posted[i]?).bind Operation.moved with
      | some message => w.on b fun P => P.arrive j message
      | none => .blocks
    | _, _ => .blocks

def step (T : Transport) (w : Peers α) (x : Act) : Option (Peers α) := (w.perform T x).toOption

/-- All programs have been run. -/
def Finished (w : Peers α) : Prop := ∀ p, (w p).program = []

end Peers

/-! ## §2 What the programs say -/

/-- A send, with what it has sent, or a receive. -/
inductive Post (α : Type) where
  | send (dest : Int) (message : List α)
  | recv (src : Int) (rv : View)

namespace Post

/-- What was sent to `b`. -/
def toPeer (b : Int) : Post α → Option (List α)
  | send dest message => if dest = b then some message else none
  | recv _ _ => none

/-- Where something is received from `a`. -/
def fromPeer (a : Int) : Post α → Option View
  | send _ _ => none
  | recv src rv => if src = a then some rv else none

end Post

/-- A process as its program says. -/
structure Meaning (α : Type) where
  program : List (Instr α)
  heap : Heap α
  posts : List (Post α)

namespace Meaning

/-- The messages for `b`, in their order. -/
def sent (S : Meaning α) (b : Int) : List (List α) := S.posts.filterMap (Post.toPeer b)

/-- The views for messages from `a`, in their order. -/
def asked (S : Meaning α) (a : Int) : List View := S.posts.filterMap (Post.fromPeer a)

/-- The sends to `b` before the `op`-th call. -/
def sentBefore (S : Meaning α) (op : OpId) (b : Int) : Nat :=
  ((S.posts.take op).filterMap (Post.toPeer b)).length

/-- The receives from `a` before the `op`-th call. -/
def askedBefore (S : Meaning α) (op : OpId) (a : Int) : Nat :=
  ((S.posts.take op).filterMap (Post.fromPeer a)).length

end Meaning

/-- What the wait for the `op`-th call of `p` does to the heap, if the host
can go on: the message that it is for is stored. -/
def completed (early : Bool) (p : Int) (w : Int → Meaning α) (op : OpId) :
    Option (Heap α → Heap α) :=
  match (w p).posts[op]? with
  | some (.send dest _) =>
    if early = true ∨ (w p).sentBefore op dest < ((w dest).asked p).length then some id else none
  | some (.recv src rv) =>
    match ((w src).sent p)[(w p).askedBefore op src]? with
    | some message => if message.length = rv.size then some (rv.store message) else none
    | none => none
  | none => none

/-- … and for several calls. -/
def completedAll (early : Bool) (p : Int) (w : Int → Meaning α) :
    List OpId → Option (Heap α → Heap α)
  | [] => some id
  | op :: ops =>
    match completed early p w op, completedAll early p w ops with
    | some f, some g => some (g ∘ f)
    | _, _ => none

/-- The next instruction of `p`. -/
def move (early : Bool) (p : Int) (w : Int → Meaning α) : Option (Meaning α) :=
  match (w p).program with
  | [] => none
  | .send sv dest :: rest =>
    some { w p with
      program := rest
      posts   := (w p).posts ++ [.send dest (sv.values (w p).heap)] }
  | .recv rv src :: rest =>
    some { w p with program := rest, posts := (w p).posts ++ [.recv src rv] }
  | .kernel k :: rest => some { w p with program := rest, heap := k.run (w p).heap }
  | .wait op :: rest =>
    (completedAll early p w [op]).map fun f => { w p with program := rest, heap := f (w p).heap }
  | .waitAll span :: rest =>
    (completedAll early p w span).map fun f => { w p with program := rest, heap := f (w p).heap }

/-- The programs at their start. -/
def Meaning.start (programs : Int → List (Instr α)) (heaps : Int → Heap α) : Int → Meaning α :=
  fun p => { program := programs p, heap := heaps p, posts := [] }

/-- Run one after the other in some order, the programs come to an end, with
the heaps `heaps'`. -/
def Says (early : Bool) (programs : Int → List (Instr α)) (heaps heaps' : Int → Heap α) : Prop :=
  ∃ turns t, Lts.exec (Lts.network (move early)) (Meaning.start programs heaps) turns = some t ∧
    ∀ p, (t p).program = [] ∧ (t p).heap = heaps' p

/-! ## §3 The rule for programs -/

/-- A call that has not been waited for. -/
structure Pending where
  op : OpId
  isRecv : Bool
  view : View
  deriving DecidableEq

/-- A view that can be sent or received into: it is the user's, its count
fits, and its elements are distinct cells where that matters. -/
structure Sendable (n : Nat) (v : View) : Prop where
  user : v.alloc < n
  count : v.size < 2147483648
  distinct : v.isContiguous = true → v.elements.Nodup

structure Receivable (n : Nat) (v : View) : Prop where
  user : v.alloc < n
  count : v.size < 2147483648
  distinct : v.elements.Nodup

/-- What is left after a wait. -/
def without (span : List OpId) (pending : List Pending) : List Pending :=
  pending.filter fun x => x.op ∉ span

/-- After `m` calls, of which `pending` have not been waited for: views that
are received into are left alone, views that are sent are not written to,
and what is waited for has been called. Everything is waited for. -/
def KeepsOff (n : Nat) : Nat → List Pending → List (Instr α) → Prop
  | _, pending, [] => pending = []
  | m, pending, .send sv _ :: is =>
    Sendable n sv ∧
      (∀ x ∈ pending, x.isRecv = true → ∀ c ∈ x.view.elements, c ∉ sv.elements) ∧
      KeepsOff n (m + 1) (pending ++ [⟨m, false, sv⟩]) is
  | m, pending, .recv rv _ :: is =>
    Receivable n rv ∧ (∀ x ∈ pending, ∀ c ∈ x.view.elements, c ∉ rv.elements) ∧
      KeepsOff n (m + 1) (pending ++ [⟨m, true, rv⟩]) is
  | m, pending, .kernel k :: is =>
    (∀ c, k.reads c ∨ k.writes c → c.1 < n) ∧
      (∀ x ∈ pending, ∀ c ∈ x.view.elements, ¬ k.writes c ∧ (x.isRecv = true → ¬ k.reads c)) ∧
      KeepsOff n m pending is
  | m, pending, .wait op :: is =>
    (∃ x ∈ pending, x.op = op) ∧ KeepsOff n m (without [op] pending) is
  | m, pending, .waitAll span :: is =>
    span.Nodup ∧ span.length < 2147483648 ∧ (∀ op ∈ span, ∃ x ∈ pending, x.op = op) ∧
      KeepsOff n m (without span pending) is

/-- The view that an instruction sends to `b`, or receives into from `a`. -/
def Instr.sendsTo (b : Int) : Instr α → Option View
  | .send sv dest => if dest = b then some sv else none
  | _ => none

def Instr.recvsFrom (a : Int) : Instr α → Option View
  | .recv rv src => if src = a then some rv else none
  | _ => none

/-- The k-th send from a process to another has as many elements as the k-th
receive. -/
def Matched (programs : Int → List (Instr α)) : Prop :=
  ∀ (a b : Int) (k : Nat) (sv rv : View),
    ((programs a).filterMap (Instr.sendsTo b))[k]? = some sv →
      ((programs b).filterMap (Instr.recvsFrom a))[k]? = some rv → sv.size = rv.size

end KokkosComm.Mpi.Messaging
