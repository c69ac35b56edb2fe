/-
KokkosComm.Foundation.Ledger — bookkeeping for handles that a library
creates and that its user must release exactly once.

A `Ledger` is the library's side: how many handles it has given out, the
log of the release calls, and the log of the calls that were applied to a
handle already released. `Exclusive l holds` is the discipline of the
user's side: every handle that is not released has exactly one owner
among `holds`, and no owner holds a released one. The owners are of any
type: an object, or a position in an object's list of handles.

One lemma for each way in which the owners change: a handle is created
(`Exclusive.create`), used (`Exclusive.use_eq`), or released by its owner
(`Exclusive.free`). When nobody holds anything any more, every handle has
been released exactly once (`Exclusive.count_freed`).
-/
import Mathlib.Data.List.Basic
import Mathlib.Data.List.Nodup

/-- The library's record of the handles it has given out. -/
structure Ledger where
  next : Nat
  freed : List Nat
  misused : List Nat
  deriving DecidableEq, Repr

namespace Ledger

/-- No handle has been created yet. -/
def empty : Ledger := { next := 0, freed := [], misused := [] }

/-- A call that reads the handle or the object behind it. -/
def use (l : Ledger) (h : Nat) : Ledger :=
  if h ∈ l.freed then { l with misused := l.misused ++ [h] } else l

/-- The call that gives out a fresh handle. -/
def create (l : Ledger) : Nat × Ledger := (l.next, { l with next := l.next + 1 })

/-- The call that releases a handle. -/
def free (l : Ledger) (h : Nat) : Ledger :=
  { l.use h with freed := l.freed ++ [h] }

@[simp] theorem use_next (l : Ledger) (h : Nat) : (l.use h).next = l.next := by
  unfold use; split <;> rfl

@[simp] theorem use_freed (l : Ledger) (h : Nat) : (l.use h).freed = l.freed := by
  unfold use; split <;> rfl

theorem use_of_live {l : Ledger} {h : Nat} (hl : h ∉ l.freed) : l.use h = l := if_neg hl

@[simp] theorem create_fst (l : Ledger) : l.create.1 = l.next := rfl
@[simp] theorem create_next (l : Ledger) : l.create.2.next = l.next + 1 := rfl
@[simp] theorem create_freed (l : Ledger) : l.create.2.freed = l.freed := rfl
@[simp] theorem free_next (l : Ledger) (h : Nat) : (l.free h).next = l.next := use_next l h
@[simp] theorem free_freed (l : Ledger) (h : Nat) : (l.free h).freed = l.freed ++ [h] := rfl

section Exclusive

variable {ω : Type} {holds : ω → Nat → Prop} {l : Ledger}

/-- Every live handle has exactly one owner; no released handle has one. -/
structure Exclusive (l : Ledger) (holds : ω → Nat → Prop) : Prop where
  owned : ∀ h, h < l.next → h ∉ l.freed → ∃ o, holds o h
  live : ∀ o h, holds o h → h < l.next ∧ h ∉ l.freed
  unique : ∀ o o' h, holds o h → holds o' h → o = o'
  created : ∀ h ∈ l.freed, h < l.next
  once : l.freed.Nodup
  clean : l.misused = []

theorem exclusive_empty (hnone : ∀ o h, ¬ holds o h) : empty.Exclusive holds where
  owned := fun _ hlt => absurd hlt (Nat.not_lt_zero _)
  live := fun o h ho => absurd ho (hnone o h)
  unique := fun o _ h ho => absurd ho (hnone o h)
  created := fun _ hh => by cases hh
  once := List.nodup_nil
  clean := rfl

/-- Only the relation matters, not how it is written. -/
theorem Exclusive.congr {holds' : ω → Nat → Prop} (he : l.Exclusive holds)
    (heq : ∀ o h, holds' o h ↔ holds o h) : l.Exclusive holds' where
  owned := fun h hlt hf => (he.owned h hlt hf).imp fun o => (heq o h).mpr
  live := fun o h ho => he.live o h ((heq o h).mp ho)
  unique := fun o o' h ho ho' => he.unique o o' h ((heq o h).mp ho) ((heq o' h).mp ho')
  created := he.created
  once := he.once
  clean := he.clean

/-- A call on a handle somebody holds is a legal one. -/
theorem Exclusive.use_eq (he : l.Exclusive holds) {o : ω} {h : Nat} (ho : holds o h) :
    l.use h = l := use_of_live (he.live o h ho).2

/-- The fresh handle goes to an owner. -/
theorem Exclusive.create (he : l.Exclusive holds) (o : ω) {holds' : ω → Nat → Prop}
    (heq : ∀ o' h, holds' o' h ↔ holds o' h ∨ (o' = o ∧ h = l.next)) :
    l.create.2.Exclusive holds' where
  owned := by
    intro h hlt hf
    rw [create_next, Nat.lt_succ_iff] at hlt
    rcases Nat.lt_or_eq_of_le hlt with hlt | rfl
    · exact (he.owned h hlt hf).imp fun o' ho' => (heq o' h).mpr (.inl ho')
    · exact ⟨o, (heq o _).mpr (.inr ⟨rfl, rfl⟩)⟩
  live := by
    intro o' h ho'
    rcases (heq o' h).mp ho' with ho' | ⟨rfl, rfl⟩
    · exact ⟨Nat.lt_succ_of_lt (he.live o' h ho').1, (he.live o' h ho').2⟩
    · exact ⟨Nat.lt_succ_self _, fun hf => Nat.lt_irrefl _ (he.created _ hf)⟩
  unique := by
    intro o₁ o₂ h h₁ h₂
    rcases (heq o₁ h).mp h₁ with h₁ | ⟨rfl, rfl⟩
    · rcases (heq o₂ h).mp h₂ with h₂ | ⟨rfl, rfl⟩
      · exact he.unique o₁ o₂ h h₁ h₂
      · exact absurd (he.live o₁ _ h₁).1 (Nat.lt_irrefl _)
    · rcases (heq o₂ _).mp h₂ with h₂ | ⟨rfl, _⟩
      · exact absurd (he.live o₂ _ h₂).1 (Nat.lt_irrefl _)
      · rfl
  created := fun h hh => Nat.lt_succ_of_lt (he.created h hh)
  once := he.once
  clean := he.clean

/-- The owner releases its handle and holds it no longer. -/
theorem Exclusive.free (he : l.Exclusive holds) {o : ω} {h : Nat} (ho : holds o h)
    {holds' : ω → Nat → Prop} (heq : ∀ o' h', holds' o' h' ↔ holds o' h' ∧ h' ≠ h) :
    (l.free h).Exclusive holds' where
  owned := by
    intro h' hlt hf
    simp only [free_freed, List.mem_append, List.mem_singleton, not_or] at hf
    exact (he.owned h' (by simpa using hlt) hf.1).imp fun o' ho' => (heq o' h').mpr ⟨ho', hf.2⟩
  live := by
    intro o' h' ho'
    obtain ⟨ho', hne⟩ := (heq o' h').mp ho'
    have := he.live o' h' ho'
    simpa [hne] using this
  unique := fun o₁ o₂ h' h₁ h₂ =>
    he.unique o₁ o₂ h' ((heq o₁ h').mp h₁).1 ((heq o₂ h').mp h₂).1
  created := by
    intro h' hf
    simp only [free_freed, List.mem_append, List.mem_singleton] at hf
    rcases hf with hf | rfl
    · simpa using he.created h' hf
    · simpa using (he.live o h' ho).1
  once := by
    rw [free_freed, List.nodup_append]
    refine ⟨he.once, by simp, ?_⟩
    rintro a ha b hb rfl
    obtain rfl : a = h := by simpa using hb
    exact (he.live o a ho).2 ha
  clean := by
    unfold Ledger.free
    rw [he.use_eq ho]
    exact he.clean

/-- With no owner left, every handle ever created has been released, once. -/
theorem Exclusive.count_freed (he : l.Exclusive holds) (hnone : ∀ o h, ¬ holds o h) {h : Nat}
    (hlt : h < l.next) : l.freed.count h = 1 := by
  have hf : h ∈ l.freed := by
    by_contra hf
    obtain ⟨o, ho⟩ := he.owned h hlt hf
    exact hnone o h ho
  exact List.count_eq_one_of_mem he.once hf

end Exclusive

end Ledger
