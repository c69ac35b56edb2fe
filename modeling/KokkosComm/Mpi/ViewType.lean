/-
KokkosComm.Mpi.ViewType — `view_mpi_type` (`mpi/impl/types.hpp`): the MPI
datatype that describes a view.

The datatype is built by wrapping one dimension after the other, and kept
in a cache, one for each view type (`static std::map`), whose key is the
list of extents and strides, each converted to `int`. MPI is modelled by
its table of datatypes: a handle is predefined, or the number of a datatype
that was created, and only committed ones can be used for a transfer. Other
code creates datatypes, too, but nobody frees those of the cache.

Memory is one of bytes here: an element has `sizeof(value_type)` of them.
-/
import KokkosComm.Foundation.Datatype
import KokkosComm.Foundation.Lts
import KokkosComm.Mpi.Blocking

namespace KokkosComm

/-- `stride(view, i)`. -/
def View.stride (v : View) (i : Nat) : Nat := v.strides.getD i 0

namespace Mpi

open MultiIndex

/-! ## Value types -/

/-- The types with an MPI datatype (`datatype.hpp`). `int8` is `std::int8_t`,
that is `signed char`; the other sized integers are among them under other
names. -/
inductive ValueType where
  | byte | char | unsignedChar | int8
  | short | unsignedShort
  | int | unsigned
  | long | unsignedLong
  | longLong | unsignedLongLong
  | float | double | longDouble
  | complexFloat | complexDouble
  deriving DecidableEq, Repr

/-- `sizeof(T)`, where `long` has 64 bits. -/
def ValueType.sizeof : ValueType → Nat
  | byte | char | unsignedChar | int8 => 1
  | short | unsignedShort => 2
  | int | unsigned | float => 4
  | long | unsignedLong | longLong | unsignedLongLong | double | complexFloat => 8
  | longDouble | complexDouble => 16

theorem ValueType.sizeof_pos (τ : ValueType) : 0 < τ.sizeof := by cases τ <;> decide

theorem ValueType.sizeof_le (τ : ValueType) : τ.sizeof ≤ 16 := by cases τ <;> decide

/-! ## Datatypes -/

/-- `MPI_Datatype`. -/
inductive MpiDatatype where
  | predefined (τ : ValueType)
  | derived (n : Nat)
  deriving DecidableEq, Repr

/-- The datatypes that were created, and which of them are committed. -/
structure Datatypes where
  maps : List (TypeMap ValueType)
  committed : List Nat
  deriving DecidableEq, Repr

namespace Datatypes

/-- The type map of a datatype. -/
def map? (lib : Datatypes) : MpiDatatype → Option (TypeMap ValueType)
  | .predefined τ => some [(τ, 0)]
  | .derived n => lib.maps[n]?

/-- The datatype can be used in a transfer. -/
def isCommitted (lib : Datatypes) : MpiDatatype → Bool
  | .predefined _ => true
  | .derived n => lib.committed.contains n

/-- `MPI_Type_create_hvector(count, 1, stride, oldtype, &newtype)`. -/
def createHvector (lib : Datatypes) (count stride : Int) (oldtype : MpiDatatype) :
    Outcome (MpiDatatype × Datatypes) :=
  match lib.map? oldtype with
  | some t =>
    if 0 ≤ count then
      .returns (.derived lib.maps.length,
        { lib with maps := lib.maps ++ [t.hvector count.toNat stride] })
    else .aborts
  | none => .aborts

/-- `MPI_Type_commit(&type)`. -/
def commit (lib : Datatypes) : MpiDatatype → Outcome Datatypes
  | .predefined _ => .returns lib
  | .derived n =>
    if n < lib.maps.length then .returns { lib with committed := lib.committed ++ [n] }
    else .aborts

/-- Other code creates and commits datatypes of its own. -/
def extended (lib : Datatypes) (maps : List (TypeMap ValueType)) (committed : List Nat) :
    Datatypes :=
  { maps := lib.maps ++ maps, committed := lib.committed ++ committed }

end Datatypes

/-- The conversion of a `size_t` to `MPI_Aint`. -/
def toAint (n : Nat) : Int := Int.bmod n 18446744073709551616

/-! ## `view_mpi_type` -/

/-- `std::array<int, 2 * View::rank>`. -/
abbrev Key := List Int

/-- `key[2 * d] = view.extent(d); key[2 * d + 1] = view.stride(d);` for all
`d`. -/
def keyOf (view : View) : Key :=
  (List.range view.extents.length).flatMap fun d =>
    [CInt.ofSize (view.extent d), CInt.ofSize (view.stride d)]

/-- The datatypes, and the cache of one view type. -/
structure ViewTypes where
  lib : Datatypes
  cache : Key → Option MpiDatatype

/-- The body of the loop: `type` is wrapped in dimension `d`. -/
def wrapDimension (τ : ValueType) (view : View) (p : MpiDatatype × Datatypes) (d : Nat) :
    Outcome (MpiDatatype × Datatypes) :=
  p.2.createHvector (CInt.ofSize (view.extent d)) (toAint (view.stride d * τ.sizeof)) p.1

/-- `view_mpi_type(view)`, for views of `τ`. -/
def viewMpiType (τ : ValueType) (view : View) (s : ViewTypes) :
    Outcome (MpiDatatype × ViewTypes) :=
  let key := keyOf view
  match s.cache key with
  | some type => .returns (type, s)
  | none => do
    let (type, lib) ←
      (List.range view.extents.length).foldlM (wrapDimension τ view) (.predefined τ, s.lib)
    let lib ← lib.commit type
    return (type, { lib := lib, cache := Function.update s.cache key (some type) })

/-! ## Histories -/

/-- A view whose extents and strides are all representable in `int`. -/
structure IntView extends View where
  extents_lt : ∀ e ∈ extents, e < 2147483648
  strides_lt : ∀ s ∈ strides, s < 2147483648

/-- What happens between two calls. -/
inductive TypeEvent where
  | viewMpiType (view : IntView)
  | elsewhere (maps : List (TypeMap ValueType)) (committed : List Nat)

/-- The cache is empty when the program starts. -/
def ViewTypes.start (lib : Datatypes) : ViewTypes := { lib := lib, cache := fun _ => none }

def ViewTypes.step (τ : ValueType) (s : ViewTypes) : TypeEvent → Option ViewTypes
  | .viewMpiType view => do
    let (_, s) ← (Mpi.viewMpiType τ view.toView s).toOption
    return s
  | .elsewhere maps committed => some { s with lib := s.lib.extended maps committed }

/-- `type` is what a call for `view` returns after some history, and `lib`
has the datatypes then. -/
def Returned (τ : ValueType) (view : IntView) (type : MpiDatatype) (lib : Datatypes) : Prop :=
  ∃ lib₀ history s s', Lts.exec (ViewTypes.step τ) (.start lib₀) history = some s ∧
    viewMpiType τ view.toView s = .returns (type, s') ∧ lib = s'.lib

/-! ## What a datatype describes -/

/-- The type map of a view: an entry for each multi-index, dimension 0
varying fastest. -/
def typeMapOf (τ : ValueType) (v : View) : TypeMap ValueType :=
  (colMajor v.extents).map fun i => (τ, (offset v.strides i * τ.sizeof : Nat))

/-- The datatype describes the view, and can be used. -/
structure Datatypes.Describes (lib : Datatypes) (τ : ValueType) (v : View) (type : MpiDatatype) :
    Prop where
  map : lib.map? type = some (typeMapOf τ v)
  committed : lib.isCommitted type = true

/-! ## Transfers -/

/-- A byte: an allocation and a position in it. -/
abbrev ByteCell := AllocId × Int

/-- The byte `d` bytes behind the data handle. -/
def byteAt (τ : ValueType) (v : View) (d : Int) : ByteCell :=
  (v.alloc, (v.base * τ.sizeof : Nat) + d)

/-- The `k`-th byte of the element `i`. -/
def elementByte (τ : ValueType) (v : View) (i : List Nat) (k : Nat) : ByteCell :=
  byteAt τ v ((offset v.strides i * τ.sizeof : Nat) + k)

variable {γ : Type}

/-- One item of `type` is sent from the data handle of `v`. -/
def Datatypes.send (lib : Datatypes) (τ : ValueType) (type : MpiDatatype) (v : View)
    (m : ByteCell → γ) : Outcome (List γ) :=
  match lib.map? type with
  | some t =>
    if lib.isCommitted type then .returns (t.send ValueType.sizeof (byteAt τ v) m)
    else .aborts
  | none => .aborts

/-- A message is received as one item of `type` behind the data handle of
`v`. -/
def Datatypes.receive (lib : Datatypes) (τ : ValueType) (type : MpiDatatype) (v : View)
    (message : List γ) (m : ByteCell → γ) : Outcome (ByteCell → γ) :=
  match lib.map? type with
  | some t =>
    if lib.isCommitted type then
      .returns (t.receive ValueType.sizeof (byteAt τ v) message m)
    else .aborts
  | none => .aborts

/-- `b(i) = a(i)` for every multi-index, byte by byte, and nothing else is
written: `m₀` is the memory of the sender, `m` and `m'` are those of the
receiver before and after. -/
structure Copied (τ : ValueType) (a b : View) (m₀ m m' : ByteCell → γ) : Prop where
  element : ∀ i, Valid b.extents i → ∀ k < τ.sizeof,
    m' (elementByte τ b i k) = m₀ (elementByte τ a i k)
  frame : ∀ c, (∀ i, Valid b.extents i → ∀ k < τ.sizeof, elementByte τ b i k ≠ c) → m' c = m c

end Mpi

end KokkosComm
