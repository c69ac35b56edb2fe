/-
KokkosComm.Communicator — the two specialisations of `Communicator`
(`mpi/communicator.hpp`, `nccl/communicator.hpp`).

They are the same class but for two things: the MPI one never frees
`MPI_COMM_WORLD` and `MPI_COMM_SELF`, and duplicates with `MPI_Comm_dup`,
where the NCCL one splits with a single colour. Both are written here as
functions of the space. The execution space an object carries is only
passed on, and is left out.

`step` is one operation of a program on any number of communicators. A
call is made on valid handles and succeeds, as its caller promises; what a
split or a duplication yields is part of the action, a fresh communicator
of any size and rank or the null handle. `CommunicatorOp.keep` is the
specification's side, what each operation does to the custody of the
communicators that were created.
-/
import KokkosComm.Foundation.Custody
import KokkosComm.Foundation.Lts
import Mathlib.Logic.Function.Basic

namespace KokkosComm

/-- The communication spaces with a `Communicator`. -/
inductive CommSpace where
  | mpiSpace
  | ncclSpace
  deriving DecidableEq, Repr

/-! ## The native library -/

/-- `MPI_Comm` or `ncclComm_t`. `raw` is a communicator the user created
on his own, `created` one that a split or a duplication created. -/
inductive CommHandle where
  | null
  | world
  | self
  | raw (n : Nat)
  | created (n : Nat)
  deriving DecidableEq, Repr

/-- The size of a communicator, and the rank of this process in it. -/
structure CommShape where
  size : Int
  rank : Int
  deriving DecidableEq, Repr

/-- The calls that create a communicator. -/
inductive CreateCall where
  | split (comm : CommHandle) (color key : Int)
  | dup (comm : CommHandle)
  deriving DecidableEq, Repr

/-- The communicators of a process. `given` are the shapes of those it did
not create, `calls` the creating calls so far, and `released` the handles
passed to the native free call. -/
structure NativeComms where
  given : CommHandle → CommShape
  shapes : List CommShape
  log : Ledger
  calls : List CreateCall
  released : List CommHandle

namespace NativeComms

/-- `MPI_Comm_size` and `MPI_Comm_rank`, `ncclCommCount` and
`ncclCommUserRank`. -/
def shape (lib : NativeComms) : CommHandle → CommShape
  | .created n => lib.shapes[n]?.getD (lib.given (.created n))
  | h => lib.given h

/-- A call on the handle succeeds. -/
def valid (lib : NativeComms) : CommHandle → Bool
  | .null => false
  | .created n => n < lib.log.next && !lib.log.freed.contains n
  | _ => true

/-- `MPI_Comm_split`, `MPI_Comm_dup`, `ncclCommSplit`, with what they yield. -/
def create (lib : NativeComms) (call : CreateCall) : Option CommShape → CommHandle × NativeComms
  | none => (.null, { lib with calls := lib.calls ++ [call] })
  | some shape =>
    (.created lib.log.next,
      { lib with
        shapes := lib.shapes ++ [shape]
        log    := lib.log.create.2
        calls  := lib.calls ++ [call] })

/-- `MPI_Comm_free`, `ncclCommDestroy`. -/
def free (lib : NativeComms) (h : CommHandle) : NativeComms :=
  match h with
  | .created n => { lib with log := lib.log.free n, released := lib.released ++ [h] }
  | _ => { lib with released := lib.released ++ [h] }

end NativeComms

/-! ## `Communicator` -/

structure Communicator where
  comm_ : CommHandle
  size_ : Int
  rank_ : Int
  owned_ : Bool
  deriving DecidableEq, Repr

namespace Communicator

/-- What a move leaves behind. -/
def movedFrom : Communicator := { comm_ := .null, size_ := 0, rank_ := 0, owned_ := false }

/-- `Communicator(comm, exec, owned)`, with `set_size` and `set_rank`. -/
def new (comm : CommHandle) (owned : Bool) (lib : NativeComms) : Communicator :=
  { comm_ := comm, size_ := (lib.shape comm).size, rank_ := (lib.shape comm).rank,
    owned_ := owned }

/-- `Communicator(Communicator&& other)`: the new object and what is left
of `other`, exchanged member by member. -/
def moveConstruct (other : Communicator) : Communicator × Communicator :=
  ({ comm_ := other.comm_, size_ := other.size_, rank_ := other.rank_, owned_ := other.owned_ },
    { comm_ := .null, size_ := 0, rank_ := 0, owned_ := false })

/-- The condition of the destructor, repeated in the move assignment. -/
def mustFree (c : Communicator) (space : CommSpace) : Bool :=
  match space with
  | .mpiSpace => c.owned_ && c.comm_ != .world && c.comm_ != .self
  | .ncclSpace => c.owned_

/-- `~Communicator`. -/
def destructor (c : Communicator) (space : CommSpace) (lib : NativeComms) : NativeComms :=
  if c.mustFree space then lib.free c.comm_ else lib

/-- `operator=(Communicator&& other)` on two different objects. -/
def moveAssign (this : Communicator) (space : CommSpace) (other : Communicator)
    (lib : NativeComms) : Communicator × Communicator × NativeComms :=
  let lib := if this.mustFree space then lib.free this.comm_ else lib
  let (this, other) := other.moveConstruct
  (this, other, lib)

/-- `from_raw`. -/
def fromRaw (comm : CommHandle) (lib : NativeComms) : Communicator := new comm false lib

/-- `return Communicator(new_comm, exec, true);` into a
`std::optional<Communicator>`: the optional's object is move constructed
from a temporary, which is then destroyed. -/
def wrap (space : CommSpace) (comm : CommHandle) (lib : NativeComms) :
    Option Communicator × NativeComms :=
  if comm = .null then (none, lib)
  else
    let (result, temporary) := (new comm true lib).moveConstruct
    (some result, temporary.destructor space lib)

/-- The common body of the splits and duplications. -/
def createBy (space : CommSpace) (call : CreateCall) (yields : Option CommShape)
    (lib : NativeComms) : Option Communicator × NativeComms :=
  let (newComm, lib) := lib.create call yields
  wrap space newComm lib

/-- `split_from_raw`. -/
def splitFromRaw (space : CommSpace) (comm : CommHandle) (color key : Int)
    (yields : Option CommShape) (lib : NativeComms) : Option Communicator × NativeComms :=
  createBy space (.split comm color key) yields lib

/-- `split`. -/
def split (c : Communicator) (space : CommSpace) (color key : Int) (yields : Option CommShape)
    (lib : NativeComms) : Option Communicator × NativeComms :=
  splitFromRaw space c.comm_ color key yields lib

/-- `duplicate_from_raw`. -/
def duplicateFromRaw (space : CommSpace) (comm : CommHandle) (yields : Option CommShape)
    (lib : NativeComms) : Option Communicator × NativeComms :=
  match space with
  | .mpiSpace => createBy space (.dup comm) yields lib
  | .ncclSpace => splitFromRaw space comm 0 (lib.shape comm).rank yields lib

/-- `duplicate`. -/
def duplicate (c : Communicator) (space : CommSpace) (yields : Option CommShape)
    (lib : NativeComms) : Option Communicator × NativeComms :=
  match space with
  | .mpiSpace => duplicateFromRaw space c.comm_ yields lib
  | .ncclSpace => splitFromRaw space c.comm_ 0 c.rank_ yields lib

end Communicator

/-! ## Programs -/

abbrev CommId := Nat

/-- The live communicator objects, and the native communicators. -/
structure Communicators where
  lib : NativeComms
  objs : CommId → Option Communicator

/-- No object has been constructed. -/
def Communicators.start (given : CommHandle → CommShape) : Communicators :=
  { lib := { given := given, shapes := [], log := .empty, calls := [], released := [] }
    objs := fun _ => none }

/-- The operations on communicators. `dst` is where the result is stored. -/
inductive CommunicatorOp where
  | fromRaw (dst : CommId) (comm : CommHandle)
  | splitFromRaw (dst : CommId) (comm : CommHandle) (color key : Int) (yields : Option CommShape)
  | split (dst src : CommId) (color key : Int) (yields : Option CommShape)
  | duplicateFromRaw (dst : CommId) (comm : CommHandle) (yields : Option CommShape)
  | duplicate (dst src : CommId) (yields : Option CommShape)
  | moveConstruct (dst src : CommId)
  | moveAssign (dst src : CommId)
  | destroy (r : CommId)
  deriving DecidableEq, Repr

namespace Communicators

def set (w : Communicators) (r : CommId) (v : Option Communicator) : Communicators :=
  { w with objs := Function.update w.objs r v }

/-- A new object in fresh storage, from a valid handle. -/
def place (w : Communicators) (dst : CommId) (comm : CommHandle)
    (result : NativeComms → Option Communicator × NativeComms) : Option Communicators :=
  match w.objs dst with
  | none =>
    if w.lib.valid comm then
      some { w.set dst (result w.lib).1 with lib := (result w.lib).2 }
    else none
  | some _ => none

/-- One operation; `none` when an object it names is not there (or, for
storage to construct in, already is), or a handle is not valid. -/
def step (space : CommSpace) (w : Communicators) : CommunicatorOp → Option Communicators
  | .fromRaw dst comm => w.place dst comm fun lib => (some (.fromRaw comm lib), lib)
  | .splitFromRaw dst comm color key yields =>
    w.place dst comm (Communicator.splitFromRaw space comm color key yields)
  | .split dst src color key yields =>
    match w.objs src with
    | some c => w.place dst c.comm_ (c.split space color key yields)
    | none => none
  | .duplicateFromRaw dst comm yields =>
    w.place dst comm (Communicator.duplicateFromRaw space comm yields)
  | .duplicate dst src yields =>
    match w.objs src with
    | some c => w.place dst c.comm_ (c.duplicate space yields)
    | none => none
  | .moveConstruct dst src =>
    match w.objs dst, w.objs src with
    | none, some other =>
      let (new, old) := other.moveConstruct
      some ((w.set src (some old)).set dst (some new))
    | _, _ => none
  | .moveAssign dst src =>
    match w.objs dst, w.objs src with
    | some this, some other =>
      if dst = src then some w
      else
        let (new, old, lib) := this.moveAssign space other w.lib
        some { (w.set src (some old)).set dst (some new) with lib := lib }
    | _, _ => none
  | .destroy r =>
    match w.objs r with
    | some c => some { w.set r none with lib := c.destructor space w.lib }
    | none => none

end Communicators

/-! ## What each operation is for -/

/-- A split or duplication that yields a communicator gives it to the new
object, a borrowed handle is kept by nobody, moves hand over, a destroyed
object releases. -/
def CommunicatorOp.keep (k : Custody CommId) : CommunicatorOp → Custody CommId
  | .fromRaw _ _ => k
  | .splitFromRaw dst _ _ _ yields => if yields.isSome then k.acquire dst else k
  | .split dst _ _ _ yields => if yields.isSome then k.acquire dst else k
  | .duplicateFromRaw dst _ yields => if yields.isSome then k.acquire dst else k
  | .duplicate dst _ yields => if yields.isSome then k.acquire dst else k
  | .moveConstruct dst src => k.transfer dst src
  | .moveAssign dst src => k.transfer dst src
  | .destroy r => k.release r

/-- Who owns which communicator after some operations. -/
def CommunicatorOp.custody (ops : List CommunicatorOp) : Custody CommId := ops.foldl keep .empty

end KokkosComm
