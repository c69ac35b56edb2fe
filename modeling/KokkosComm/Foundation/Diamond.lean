/-
KokkosComm.Foundation.Diamond — transition systems in which the order of
the steps does not matter.

`Commutes` says that two different actions which can both be taken can be
taken one after the other, in either order, with the same result. Then
one run that ends says everything about all others: any of them can be
continued to the same end, by the actions that are still missing
(`exec_to_end`). So no run is longer, and all that end, end alike
(`end_unique`).
-/
import KokkosComm.Foundation.Lts
import Mathlib.Data.List.Perm.Basic
import Mathlib.Tactic.Push

namespace Lts

variable {σ α : Type} {step : σ → α → Option σ}

/-- Different actions that can be taken commute. -/
def Commutes (step : σ → α → Option σ) : Prop :=
  ∀ s a b t u, a ≠ b → step s a = some t → step s b = some u →
    ∃ v, step t b = some v ∧ step u a = some v

/-- No action can be taken. -/
def Stuck (step : σ → α → Option σ) (s : σ) : Prop := ∀ a, step s a = none

theorem exec_cons_eq_some {s t : σ} {a : α} {as : List α} :
    exec step s (a :: as) = some t ↔ ∃ u, step s a = some u ∧ exec step u as = some t := by
  rw [exec_cons, Option.bind_eq_some_iff]

theorem exec_singleton {s t : σ} {a : α} (h : step s a = some t) : exec step s [a] = some t :=
  exec_cons_eq_some.mpr ⟨t, h, rfl⟩

theorem exec_append_eq_some {s t : σ} {as bs : List α} :
    exec step s (as ++ bs) = some t ↔
      ∃ u, exec step s as = some u ∧ exec step u bs = some t := by
  rw [exec_append, Option.bind_eq_some_iff]

/-- From a stuck state only the empty run goes on. -/
theorem Stuck.eq_nil {s t : σ} {as : List α} (hs : Stuck step s) (h : exec step s as = some t) :
    as = [] ∧ t = s := by
  cases as with
  | nil => exact ⟨rfl, by simpa using h.symm⟩
  | cons a as =>
    obtain ⟨u, hu, -⟩ := exec_cons_eq_some.mp h
    rw [hs a] at hu
    cases hu

section Ends

variable {s t u : σ} {a : α} {as bs : List α}

/-- An action that can be taken occurs in every run that ends, and can be
taken first. -/
theorem exec_of_step (hcomm : Commutes step) (hrun : exec step s as = some t)
    (hend : Stuck step t) (ha : step s a = some u) :
    ∃ cs, exec step u cs = some t ∧ (a :: cs).Perm as := by
  classical
  induction as generalizing s u with
  | nil =>
    obtain rfl : s = t := by simpa using hrun
    rw [hend a] at ha
    cases ha
  | cons b bs ih =>
    obtain ⟨v, hb, hbs⟩ := exec_cons_eq_some.mp hrun
    by_cases hab : a = b
    · subst hab
      obtain rfl : u = v := Option.some.inj (ha.symm.trans hb)
      exact ⟨bs, hbs, .refl _⟩
    · obtain ⟨v', hub, hva⟩ := hcomm s a b u v hab ha hb
      obtain ⟨cs, hcs, hperm⟩ := ih hbs hva
      refine ⟨b :: cs, exec_cons_eq_some.mpr ⟨v', hub, hcs⟩, ?_⟩
      exact (List.Perm.swap b a cs).trans (hperm.cons b)

/-- Every run can be continued to the end of one that ends. -/
theorem exec_to_end (hcomm : Commutes step) (hrun : exec step s as = some t)
    (hend : Stuck step t) (hbs : exec step s bs = some u) :
    ∃ cs, exec step u cs = some t ∧ (bs ++ cs).Perm as := by
  induction bs generalizing s as with
  | nil =>
    obtain rfl : s = u := by simpa using hbs
    exact ⟨as, hrun, .refl _⟩
  | cons b bs ih =>
    obtain ⟨v, hb, hbs⟩ := exec_cons_eq_some.mp hbs
    obtain ⟨as', has', hperm⟩ := exec_of_step hcomm hrun hend hb
    obtain ⟨cs, hcs, hperm'⟩ := ih has' hbs
    exact ⟨cs, hcs, (hperm'.cons b).trans hperm⟩

/-- Two runs that end, end in the same state after the same actions. -/
theorem end_unique (hcomm : Commutes step) (hrun : exec step s as = some t)
    (hend : Stuck step t) (hbs : exec step s bs = some u) (hend' : Stuck step u) :
    u = t ∧ bs.Perm as := by
  obtain ⟨cs, hcs, hperm⟩ := exec_to_end hcomm hrun hend hbs
  obtain ⟨rfl, rfl⟩ := hend'.eq_nil hcs
  exact ⟨rfl, by simpa using hperm⟩

end Ends

/-- Where every step makes a rank smaller, there is a run that ends. -/
theorem exists_end_of_rank {P : σ → Nat → Prop}
    (hstep : ∀ s r a t, P s r → step s a = some t → ∃ r', r' < r ∧ P t r') {s : σ} {r : Nat}
    (hP : P s r) : ∃ as t, exec step s as = some t ∧ Stuck step t := by
  induction r using Nat.strongRecOn generalizing s with
  | _ r ih =>
    by_cases hstuck : Stuck step s
    · exact ⟨[], s, rfl, hstuck⟩
    · unfold Stuck at hstuck
      push Not at hstuck
      obtain ⟨a, ha⟩ := hstuck
      obtain ⟨u, hu⟩ := Option.ne_none_iff_exists'.mp ha
      obtain ⟨r', hlt, hP'⟩ := hstep s r a u hP hu
      obtain ⟨as, t, has, hend⟩ := ih r' hlt hP'
      exact ⟨a :: as, t, exec_cons_eq_some.mpr ⟨u, hu, has⟩, hend⟩

/-- … and where it makes a measure of the state smaller. -/
theorem exists_end {I : σ → Prop} {measure : σ → Nat}
    (hstep : ∀ s a t, I s → step s a = some t → I t ∧ measure t < measure s) {s : σ} (hI : I s) :
    ∃ as t, exec step s as = some t ∧ Stuck step t := by
  refine exists_end_of_rank (P := fun s r => I s ∧ measure s = r) ?_ ⟨hI, rfl⟩
  rintro s r a t ⟨hIs, rfl⟩ hst
  obtain ⟨hIt, hlt⟩ := hstep s a t hIs hst
  exact ⟨_, hlt, hIt, rfl⟩

end Lts
