/-
KokkosComm.CommunicatorFailure — splits and duplications that may fail.

In `Communicator` every creating call succeeds. Here it has one of three
outcomes, which the environment chooses: it creates a communicator, it
succeeds and excludes the process, or it returns an error. The four
functions do not look at the error code. They declare a variable without a
value, pass its address, and compare it with the null handle afterwards:

    communicator_type new_comm;
    MPI_Comm_split(comm, color, key, &new_comm);
    if (new_comm == MPI_COMM_NULL) { return std::nullopt; }

So after a failed call all depends on what is `left` in the variable: the
null handle, if the library writes it, or whatever the stack had there.

Parents are any handles, valid or not. The rest of the class is the one of
`Communicator`.
-/
import KokkosComm.Communicator

namespace KokkosComm.Fallible

/-- How a creating call ends. `excluded` is the answer to the colours
`MPI_UNDEFINED` and `NCCL_SPLIT_NOCOLOR`; a call that failed leaves any
value in the variable. -/
inductive Creation where
  | created (shape : CommShape)
  | excluded
  | failed (left : CommHandle)
  deriving DecidableEq, Repr

/-- `MPI_Comm_split`, `MPI_Comm_dup`, `ncclCommSplit`: the variable and the
library afterwards. -/
def attempt (lib : NativeComms) (call : CreateCall) : Creation → CommHandle × NativeComms
  | .created shape => lib.create call (some shape)
  | .excluded => lib.create call none
  | .failed left => (left, { lib with calls := lib.calls ++ [call] })

/-- A call that succeeds, by what it yields. -/
def ofYields : Option CommShape → Creation
  | some shape => .created shape
  | none => .excluded

/-! ## The functions of `Communicator` -/

/-- The common body of the splits and duplications. -/
def createBy (space : CommSpace) (call : CreateCall) (outcome : Creation) (lib : NativeComms) :
    Option Communicator × NativeComms :=
  let (newComm, lib) := attempt lib call outcome
  Communicator.wrap space newComm lib

/-- `split_from_raw`. -/
def splitFromRaw (space : CommSpace) (comm : CommHandle) (color key : Int) (outcome : Creation)
    (lib : NativeComms) : Option Communicator × NativeComms :=
  createBy space (.split comm color key) outcome lib

/-- `split`. -/
def split (c : Communicator) (space : CommSpace) (color key : Int) (outcome : Creation)
    (lib : NativeComms) : Option Communicator × NativeComms :=
  splitFromRaw space c.comm_ color key outcome lib

/-- `duplicate_from_raw`. `userRank` is what the variable of
`ncclCommUserRank` has after that call, which may fail, too. -/
def duplicateFromRaw (space : CommSpace) (comm : CommHandle) (userRank : Int) (outcome : Creation)
    (lib : NativeComms) : Option Communicator × NativeComms :=
  match space with
  | .mpiSpace => createBy space (.dup comm) outcome lib
  | .ncclSpace => splitFromRaw space comm 0 userRank outcome lib

/-- `duplicate`. The rank is the cached one; MPI does not need it. -/
def duplicate (c : Communicator) (space : CommSpace) (outcome : Creation) (lib : NativeComms) :
    Option Communicator × NativeComms :=
  match space with
  | .mpiSpace => duplicateFromRaw space c.comm_ c.rank_ outcome lib
  | .ncclSpace => splitFromRaw space c.comm_ 0 c.rank_ outcome lib

/-! ## Programs -/

/-- The operations on communicators. `dst` is where the result is stored. -/
inductive Op where
  | fromRaw (dst : CommId) (comm : CommHandle)
  | splitFromRaw (dst : CommId) (comm : CommHandle) (color key : Int) (outcome : Creation)
  | split (dst src : CommId) (color key : Int) (outcome : Creation)
  | duplicateFromRaw (dst : CommId) (comm : CommHandle) (userRank : Int) (outcome : Creation)
  | duplicate (dst src : CommId) (outcome : Creation)
  | moveConstruct (dst src : CommId)
  | moveAssign (dst src : CommId)
  | destroy (r : CommId)
  deriving DecidableEq, Repr

/-- A new object in fresh storage. -/
def place (w : Communicators) (dst : CommId)
    (result : NativeComms → Option Communicator × NativeComms) : Option Communicators :=
  match w.objs dst with
  | none => some { w.set dst (result w.lib).1 with lib := (result w.lib).2 }
  | some _ => none

/-- One operation; `none` when an object it names is not there (or, for
storage to construct in, already is). -/
def step (space : CommSpace) (w : Communicators) : Op → Option Communicators
  | .fromRaw dst comm => place w dst fun lib => (some (.fromRaw comm lib), lib)
  | .splitFromRaw dst comm color key outcome =>
    place w dst (splitFromRaw space comm color key outcome)
  | .split dst src color key outcome => do
    let c ← w.objs src
    place w dst (split c space color key outcome)
  | .duplicateFromRaw dst comm userRank outcome =>
    place w dst (duplicateFromRaw space comm userRank outcome)
  | .duplicate dst src outcome => do
    let c ← w.objs src
    place w dst (duplicate c space outcome)
  | .moveConstruct dst src => w.step space (.moveConstruct dst src)
  | .moveAssign dst src => w.step space (.moveAssign dst src)
  | .destroy r => w.step space (.destroy r)

/-- An operation of a program whose calls all succeed, as an operation here. -/
def ofSucceeding (lib : NativeComms) : CommunicatorOp → Op
  | .fromRaw dst comm => .fromRaw dst comm
  | .splitFromRaw dst comm color key yields => .splitFromRaw dst comm color key (ofYields yields)
  | .split dst src color key yields => .split dst src color key (ofYields yields)
  | .duplicateFromRaw dst comm yields =>
    .duplicateFromRaw dst comm (lib.shape comm).rank (ofYields yields)
  | .duplicate dst src yields => .duplicate dst src (ofYields yields)
  | .moveConstruct dst src => .moveConstruct dst src
  | .moveAssign dst src => .moveAssign dst src
  | .destroy r => .destroy r

/-! ## What is promised -/

/-- The creating operations, with where the result goes and how the call
ends. -/
def Op.creation : Op → Option (CommId × Creation)
  | .splitFromRaw dst _ _ _ outcome => some (dst, outcome)
  | .split dst _ _ _ outcome => some (dst, outcome)
  | .duplicateFromRaw dst _ _ outcome => some (dst, outcome)
  | .duplicate dst _ outcome => some (dst, outcome)
  | _ => none

/-- What a split or a duplication returns: `nullopt` unless the call created
a communicator, and an owning object around that one if it did. -/
structure Returns (outcome : Creation) (lib : NativeComms) (result : Option Communicator) :
    Prop where
  nullopt : (∀ shape, outcome ≠ .created shape) → result = none
  owning : ∀ c, result = some c → c.owned_ = true ∧ c.comm_ = .created lib.log.next

/-- The handle is of a communicator that was created. -/
def Created (lib : NativeComms) (h : CommHandle) : Prop := ∃ n < lib.log.next, h = .created n

/-- An operation returns what it is to return, and every handle freed by
then was created. -/
def Handled (w : Communicators) (op : Op) (w' : Communicators) : Prop :=
  (∀ dst outcome, op.creation = some (dst, outcome) → Returns outcome w.lib (w'.objs dst)) ∧
    ∀ h ∈ w'.lib.released, Created w'.lib h

/-- If the call of the operation fails, it leaves the null handle. -/
def Op.LeavesNull (op : Op) : Prop :=
  ∀ dst left, op.creation = some (dst, .failed left) → left = .null

instance (op : Op) : Decidable op.LeavesNull :=
  match h : op.creation with
  | some (_, .failed left) =>
    decidable_of_iff (left = .null)
      ⟨fun hl _ _ he => by rw [h] at he; cases he; exact hl, fun hop => hop _ _ h⟩
  | some (_, .created _) => isTrue fun _ _ he => by rw [h] at he; cases he
  | some (_, .excluded) => isTrue fun _ _ he => by rw [h] at he; cases he
  | none => isTrue fun _ _ he => by rw [h] at he; cases he

end KokkosComm.Fallible
