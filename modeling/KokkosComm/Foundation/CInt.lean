/-
KokkosComm.Foundation.CInt — conversion of an unsigned 64-bit count to a
32-bit signed `int`, and checked arithmetic on `int`.

`ofSize` is the implicit (or `static_cast<int>`) conversion: the low 32
bits, read as a signed number (since C++20 this is the defined result).
Only the residue matters, so the argument may be any natural number.
Signed arithmetic that leaves the range is undefined behaviour, which
`pred` and `mul` make visible. `toSize` is the conversion back.
-/
import Mathlib.Algebra.Order.Ring.Int
import KokkosComm.Foundation.Outcome

namespace CInt

/-- `INT_MAX`. -/
def intMax : Int := 2147483647
/-- `INT_MIN`. -/
def intMin : Int := -2147483648

/-- The `int` a `size_t` converts to. Reasoning goes through the lemmas
below, never through the remainder itself. -/
@[irreducible] def ofSize (n : Nat) : Int := (BitVec.ofNat 32 n).toInt

/-- The `size_t` an `int` converts to. -/
def toSize (x : Int) : Nat := (x % 18446744073709551616).toNat

theorem ofSize_eq_bmod (n : Nat) : ofSize n = Int.bmod n 4294967296 := by
  unfold ofSize
  exact BitVec.toInt_ofNat' n

/-- `x--` on an `int`. -/
def pred (x : Int) : Outcome Int :=
  if x ≤ intMin then .undefined else .returns (x - 1)

/-- `x * y` on `int`. -/
def mul (x y : Int) : Outcome Int :=
  if intMin ≤ x * y ∧ x * y ≤ intMax then .returns (x * y) else .undefined

theorem mul_of_le {x y : Int} (h₀ : 0 ≤ x * y) (h : x * y ≤ intMax) : mul x y = .returns (x * y) :=
  if_pos ⟨by unfold intMin; omega, h⟩

theorem mul_of_lt {x y : Int} (h : intMax < x * y) : mul x y = .undefined :=
  if_neg fun hle => Int.not_le.mpr h hle.2

theorem ofSize_eq_self_iff (n : Nat) : ofSize n = n ↔ n < 2147483648 := by
  rw [ofSize_eq_bmod, Int.bmod_def]
  split <;> omega

theorem ofSize_of_lt {n : Nat} (h : n < 2147483648) : ofSize n = n :=
  (ofSize_eq_self_iff n).mpr h

theorem ofSize_le (n : Nat) : ofSize n ≤ n := by
  rw [ofSize_eq_bmod, Int.bmod_def]
  split <;> omega

theorem ofSize_le_intMax (n : Nat) : ofSize n ≤ intMax := by
  unfold intMax
  rw [ofSize_eq_bmod, Int.bmod_def]
  split <;> omega

/-- Below 2^32 the conversion either is exact or turns negative. -/
theorem ofSize_of_nonneg {n : Nat} (hn : n < 4294967296) (h : 0 ≤ ofSize n) :
    ofSize n = n := by
  rw [ofSize_eq_bmod, Int.bmod_def] at h ⊢
  split at h <;> split <;> omega

/-- There and back again: exact below 2^31, and for the last 2^31 numbers,
which turn negative on the way. -/
theorem toSize_ofSize_iff {n : Nat} (hn : n < 18446744073709551616) :
    toSize (ofSize n) = n ↔ n < 2147483648 ∨ 18446744071562067968 ≤ n := by
  unfold toSize
  rw [ofSize_eq_bmod, Int.bmod_def]
  split <;> omega

theorem toNat_ofSize_le (n : Nat) : (ofSize n).toNat ≤ n := by
  have := ofSize_le n
  omega

@[simp] theorem ofSize_zero : ofSize 0 = 0 := ofSize_of_lt (by decide)

theorem pred_of_lt {x : Int} (h : intMin < x) : pred x = .returns (x - 1) := by
  unfold pred
  rw [if_neg (by omega)]

theorem pred_of_le {x : Int} (h : x ≤ intMin) : pred x = .undefined := if_pos h

end CInt
