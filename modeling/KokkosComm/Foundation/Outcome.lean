/-
KokkosComm.Foundation.Outcome — what a call of an imperative function can
end in.

A C++ call either returns, or is still running (a blocking call, a polling
loop that has not seen its condition yet), or terminates the process, or
has undefined behaviour. `Outcome` keeps the four apart, because a
partial-correctness statement treats them differently: a call that has
not returned promises nothing yet, a call with undefined behaviour
breaks every promise. `Outcome.Meets` is that reading of "whenever the
call returns normally".
-/
import Mathlib.Logic.Basic

/-- The possible ends of a call. `blocks` means "has not returned". -/
inductive Outcome (α : Type) where
  | returns (a : α)
  | blocks
  | aborts
  | undefined
  deriving DecidableEq, Repr

namespace Outcome

variable {α β : Type}

/-- Sequencing: the second call is made only when the first one returns. -/
def bind (x : Outcome α) (f : α → Outcome β) : Outcome β :=
  match x with
  | returns a => f a
  | blocks => blocks
  | aborts => aborts
  | undefined => undefined

instance : Monad Outcome where
  pure := returns
  bind := bind

@[simp] theorem pure_eq (a : α) : (pure a : Outcome α) = returns a := rfl
@[simp] theorem returns_bind (a : α) (f : α → Outcome β) : (returns a >>= f) = f a := rfl
@[simp] theorem blocks_bind (f : α → Outcome β) : (blocks >>= f) = blocks := rfl
@[simp] theorem aborts_bind (f : α → Outcome β) : (aborts >>= f) = aborts := rfl
@[simp] theorem undefined_bind (f : α → Outcome β) : (undefined >>= f) = undefined := rfl

/-- A sequence returns exactly when both calls do. -/
theorem bind_eq_returns {x : Outcome α} {f : α → Outcome β} {b : β} :
    (x >>= f) = returns b ↔ ∃ a, x = returns a ∧ f a = returns b := by
  cases x <;> simp

/-- A guarded call returns when the guard lets it. -/
theorem ite_aborts_eq_returns {p : Prop} [Decidable p] {x : Outcome α} {a : α} :
    (if p then aborts else x) = returns a ↔ ¬ p ∧ x = returns a := by
  by_cases h : p <;> simp [h]

theorem ite_eq_returns {p : Prop} [Decidable p] {b : α} {a : α} :
    (if p then returns b else aborts) = returns a ↔ p ∧ b = a := by
  by_cases h : p <;> simp [h]

/-- `P` holds of the result whenever the call returns normally, and the
call has no undefined behaviour. -/
def Meets (x : Outcome α) (P : α → Prop) : Prop :=
  match x with
  | returns a => P a
  | blocks => True
  | aborts => True
  | undefined => False

@[simp] theorem meets_returns (a : α) (P : α → Prop) : (returns a).Meets P ↔ P a := Iff.rfl
@[simp] theorem meets_blocks (P : α → Prop) : (blocks : Outcome α).Meets P := trivial
@[simp] theorem meets_aborts (P : α → Prop) : (aborts : Outcome α).Meets P := trivial
@[simp] theorem not_meets_undefined (P : α → Prop) : ¬ (undefined : Outcome α).Meets P :=
  fun h => h

instance (x : Outcome α) (P : α → Prop) [DecidablePred P] : Decidable (x.Meets P) :=
  match x with
  | returns a => inferInstanceAs (Decidable (P a))
  | blocks => isTrue trivial
  | aborts => isTrue trivial
  | undefined => isFalse fun h => h

/-- The result of a call that returned, if it did. -/
def toOption : Outcome α → Option α
  | returns a => some a
  | _ => none

@[simp] theorem toOption_eq_some {x : Outcome α} {a : α} :
    x.toOption = some a ↔ x = returns a := by
  cases x <;> simp [toOption]

/-! ## Several calls -/

/-- Several calls, one after the other. -/
def all : List (Outcome α) → Outcome (List α)
  | [] => .returns []
  | x :: xs => x >>= fun a => all xs >>= fun as => .returns (a :: as)

/-- All calls return, or one of them is what the sequence ends in. -/
theorem all_cases (xs : List (Outcome α)) :
    (∃ as, all xs = returns as ∧ xs = as.map returns) ∨
      (all xs = blocks ∧ blocks ∈ xs) ∨ (all xs = aborts ∧ aborts ∈ xs) ∨
      (all xs = undefined ∧ undefined ∈ xs) := by
  induction xs with
  | nil => exact .inl ⟨[], rfl, rfl⟩
  | cons x xs ih =>
    cases x with
    | returns a =>
      rcases ih with ⟨as, h, rfl⟩ | ⟨h, hmem⟩ | ⟨h, hmem⟩ | ⟨h, hmem⟩
      · exact .inl ⟨a :: as, by simp [all, h], rfl⟩
      · exact .inr (.inl ⟨by simp [all, h], by simp [hmem]⟩)
      · exact .inr (.inr (.inl ⟨by simp [all, h], by simp [hmem]⟩))
      · exact .inr (.inr (.inr ⟨by simp [all, h], by simp [hmem]⟩))
    | blocks => exact .inr (.inl ⟨rfl, by simp⟩)
    | aborts => exact .inr (.inr (.inl ⟨rfl, by simp⟩))
    | undefined => exact .inr (.inr (.inr ⟨rfl, by simp⟩))

theorem all_returns {xs : List (Outcome α)} (h : ∀ x ∈ xs, ∃ a, x = returns a) :
    ∃ as, all xs = returns as ∧ xs = as.map returns := by
  rcases all_cases xs with hall | ⟨_, hmem⟩ | ⟨_, hmem⟩ | ⟨_, hmem⟩
  · exact hall
  all_goals
    obtain ⟨a, ha⟩ := h _ hmem
    cases ha

theorem all_map_returns (as : List α) : all (as.map returns) = returns as := by
  induction as with
  | nil => rfl
  | cons a as ih => simp [all, ih]

/-- Every call of an enumerated list returns. -/
theorem all_mapIdx {l : List β} {f : Nat → β → Outcome α} {g : Nat → β → α}
    (h : ∀ r x, l[r]? = some x → f r x = returns (g r x)) :
    all (l.mapIdx f) = returns (l.mapIdx g) := by
  have hreturns : l.mapIdx f = (l.mapIdx g).map returns := by
    refine List.ext_getElem? fun r => ?_
    rw [List.getElem?_map, List.getElem?_mapIdx, List.getElem?_mapIdx]
    cases hx : l[r]? with
    | none => rfl
    | some x => exact congrArg some (h r x hx)
  rw [hreturns, all_map_returns]

end Outcome
