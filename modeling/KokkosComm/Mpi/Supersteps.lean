/-
KokkosComm.Mpi.Supersteps — programs in rounds: the processes work on their
memories, exchange messages, and wait for all of them.

That is how the halo exchange of the performance tests uses the library:
all sends, all receives, one `wait_all`. A `Round` comes with what makes it
proper, so that there are no others: the sends from a process to another
are as many as the receives, and as long; and receive views are apart from
the other views. `Round.run` is what a round is for, with no MPI in it.
-/
import KokkosComm.Mpi.Messaging

namespace KokkosComm.Mpi.Messaging

variable {α : Type} {n : Nat} {ranks : List Int}

/-- A send or a receive of a round. -/
inductive Leg where
  | send (sv : View) (dest : Int)
  | recv (rv : View) (src : Int)
  deriving DecidableEq

namespace Leg

def view : Leg → View
  | send sv _ => sv
  | recv rv _ => rv

def isRecv : Leg → Bool
  | send _ _ => false
  | recv _ _ => true

def instr : Leg → Instr α
  | send sv dest => .send sv dest
  | recv rv src => .recv rv src

/-- The view that is sent to `b`. -/
def sentTo (b : Int) : Leg → Option View
  | send sv dest => if dest = b then some sv else none
  | recv _ _ => none

/-- The view that is received into from `a`. -/
def askedFrom (a : Int) : Leg → Option View
  | send _ _ => none
  | recv rv src => if src = a then some rv else none

def Ok (n : Nat) : Leg → Prop
  | send sv _ => Sendable n sv
  | recv rv _ => Receivable n rv

end Leg

/-- What the processes compute. -/
abbrev Work (α : Type) (n : Nat) := Int → UserKernel α n

/-- Nothing. -/
def Work.idle : Work α n := fun _ => .idle

/-- The heaps after some work of the processes `ranks`. -/
def Work.run (k : Work α n) (ranks : List Int) (heaps : Int → Heap α) (p : Int) : Heap α :=
  if p ∈ ranks then (k p).run (heaps p) else heaps p

/-- A round of the processes `ranks`. -/
structure Round (α : Type) (n : Nat) (ranks : List Int) where
  work : Work α n
  legs : Int → List Leg
  ok : ∀ p, ∀ x ∈ legs p, x.Ok n
  apart : ∀ p, (legs p).Pairwise fun x y =>
    x.isRecv = true ∨ y.isRecv = true → ∀ c ∈ x.view.elements, c ∉ y.view.elements
  fits : ∀ p, (legs p).length < 2147483648
  matched : ∀ a b, ((legs a).filterMap (Leg.sentTo b)).map View.size =
    ((legs b).filterMap (Leg.askedFrom a)).map View.size
  silent : ∀ p, p ∉ ranks → legs p = []

namespace Round

/-- The instructions of `p` in a round, after `m` calls. -/
def instrs (r : Round α n ranks) (p : Int) (m : Nat) : List (Instr α) :=
  .kernel (r.work p).toKernel ::
    ((r.legs p).map Leg.instr ++ [.waitAll (List.range' m (r.legs p).length)])

def program (p : Int) : Nat → List (Round α n ranks) → List (Instr α)
  | _, [] => []
  | m, r :: rounds => r.instrs p m ++ program p (m + (r.legs p).length) rounds

def programs (rounds : List (Round α n ranks)) (p : Int) : List (Instr α) :=
  if p ∈ ranks then program p 0 rounds else []

/-- What the `j`-th leg of `p` brings: the k-th receive from a process
stores what the k-th send from there holds. -/
def brings (r : Round α n ranks) (heaps : Int → Heap α) (p : Int) (j : Nat) : Heap α → Heap α :=
  match (r.legs p)[j]? with
  | some (.recv rv src) =>
    let k := (((r.legs p).take j).filterMap (Leg.askedFrom src)).length
    match ((r.legs src).filterMap (Leg.sentTo p))[k]? with
    | some sv => rv.store (sv.values (heaps src))
    | none => id
  | _ => id

/-- The heap of `p` after the exchange. -/
def exchange (r : Round α n ranks) (heaps : Int → Heap α) (p : Int) : Heap α :=
  (List.range (r.legs p).length).foldl (fun h j => r.brings heaps p j h) (heaps p)

/-- The heaps after a round. -/
def run (r : Round α n ranks) (heaps : Int → Heap α) : Int → Heap α :=
  r.exchange (r.work.run ranks heaps)

def runAll (rounds : List (Round α n ranks)) (heaps : Int → Heap α) : Int → Heap α :=
  rounds.foldl (fun heaps r => r.run heaps) heaps

end Round

end KokkosComm.Mpi.Messaging
