/-
KokkosComm.Foundation.Monotone — processes that see of each other only what
has been added, and systems that carry out such processes.

A `Monotone` family of moves is one in which a process that can move can
still make the same move after the others have added something. The
network of such processes commutes (`Monotone.commutes`), so that all of
its schedules end alike, by the lemmas of `Foundation.Diamond`; and what
several processes can do, each alone, they can do together
(`Monotone.each`).

A concrete system `CarriesOut` an abstract one if the abstract system can
follow each of its steps by a run, and it can do each abstract step by a
run. Both are asked only of abstract states that still lead to an end. Then
whatever the concrete system has done can be brought to that end
(`carried_to_end`).
-/
import KokkosComm.Foundation.Diamond
import Mathlib.Logic.Function.Basic

namespace Lts

/-! ## Networks -/

section Networks

variable {ι σ : Type} [DecidableEq ι] {move : ι → (ι → σ) → Option σ} {le : σ → σ → Prop}

/-- The network of some processes: one of them makes its move. -/
def network (move : ι → (ι → σ) → Option σ) (w : ι → σ) (p : ι) : Option (ι → σ) :=
  (move p w).map fun s => Function.update w p s

/-- A process adds to its state, and what others add does not change its
move. -/
structure Monotone (move : ι → (ι → σ) → Option σ) (le : σ → σ → Prop) : Prop where
  refl : ∀ s, le s s
  trans : ∀ s s' s'', le s s' → le s' s'' → le s s''
  adds : ∀ p w s, move p w = some s → le (w p) s
  stable : ∀ p w w' s, move p w = some s → w' p = w p → (∀ q, le (w q) (w' q)) →
    move p w' = some s

theorem network_eq_some {w w' : ι → σ} {p : ι} :
    network move w p = some w' ↔ ∃ s, move p w = some s ∧ w' = Function.update w p s := by
  simp [network, eq_comm]

theorem Monotone.le_update (h : Monotone move le) {w : ι → σ} {p : ι} {s : σ}
    (hs : move p w = some s) (q : ι) : le (w q) (Function.update w p s q) := by
  by_cases hqp : q = p
  · subst hqp
    rw [Function.update_self]
    exact h.adds q w s hs
  · rw [Function.update_of_ne hqp]
    exact h.refl _

theorem Monotone.commutes (h : Monotone move le) : Commutes (network move) := by
  intro w p q v v' hpq hp hq
  obtain ⟨s, hs, rfl⟩ := network_eq_some.mp hp
  obtain ⟨s', hs', rfl⟩ := network_eq_some.mp hq
  have hq' := h.stable q w (Function.update w p s) s' hs' (Function.update_of_ne hpq.symm _ _)
    (h.le_update hs)
  have hp' := h.stable p w (Function.update w q s') s hs (Function.update_of_ne hpq _ _)
    (h.le_update hs')
  exact ⟨_, network_eq_some.mpr ⟨s', hq', rfl⟩,
    network_eq_some.mpr ⟨s, hp', Function.update_comm hpq s s' w⟩⟩

theorem Monotone.le_of_exec (h : Monotone move le) {w w' : ι → σ} {ps : List ι}
    (hrun : exec (network move) w ps = some w') (q : ι) : le (w q) (w' q) := by
  induction ps generalizing w with
  | nil =>
    obtain rfl : w = w' := by simpa using hrun
    exact h.refl _
  | cons p ps ih =>
    obtain ⟨v, hv, hrest⟩ := exec_cons_eq_some.mp hrun
    obtain ⟨s, hs, rfl⟩ := network_eq_some.mp hv
    exact h.trans _ _ _ (h.le_update hs q) (ih hrest)

/-- What a process can do alone, it can do when the others have added
something. -/
theorem Monotone.alone (h : Monotone move le) {w w' : ι → σ} {p : ι} {s : σ} {k : Nat}
    (hrun : exec (network move) w (List.replicate k p) = some (Function.update w p s))
    (hp : w' p = w p) (hle : ∀ q, le (w q) (w' q)) :
    exec (network move) w' (List.replicate k p) = some (Function.update w' p s) := by
  induction k generalizing w w' with
  | zero =>
    have hs : s = w p := by simpa using (congrFun (Option.some.inj hrun) p).symm
    rw [hs, ← hp, Function.update_eq_self]
    rfl
  | succ k ih =>
    obtain ⟨v, hv, hrest⟩ := exec_cons_eq_some.mp (List.replicate_succ ▸ hrun)
    obtain ⟨s', hs', rfl⟩ := network_eq_some.mp hv
    have hs'' := h.stable p w w' s' hs' hp hle
    refine exec_cons_eq_some.mpr ⟨_, network_eq_some.mpr ⟨s', hs'', rfl⟩, ?_⟩
    rw [← Function.update_idem s' s w']
    refine ih (by rwa [Function.update_idem]) (by simp) fun q => ?_
    by_cases hqp : q = p
    · subst hqp
      rw [Function.update_self, Function.update_self]
      exact h.refl _
    · rw [Function.update_of_ne hqp, Function.update_of_ne hqp]
      exact hle q

/-- What some processes can do, each alone, they can do one after the other. -/
theorem Monotone.each (h : Monotone move le) {w f : ι → σ} {ps : List ι} (hps : ps.Nodup)
    (halone : ∀ p ∈ ps, ∃ k, exec (network move) w (List.replicate k p) =
      some (Function.update w p (f p))) :
    ∃ qs, exec (network move) w qs = some fun q => if q ∈ ps then f q else w q := by
  induction ps with
  | nil => exact ⟨[], by simp⟩
  | cons p ps ih =>
    obtain ⟨hnot, hnd⟩ := List.nodup_cons.mp hps
    obtain ⟨qs, hqs⟩ := ih hnd fun q hq => halone q (List.mem_cons_of_mem _ hq)
    obtain ⟨k, hk⟩ := halone p List.mem_cons_self
    have hrun := h.alone hk (by simp [hnot]) (h.le_of_exec hqs)
    refine ⟨qs ++ List.replicate k p, exec_append_eq_some.mpr ⟨_, hqs, hrun.trans ?_⟩⟩
    congr 1
    funext q
    by_cases hqp : q = p
    · subst hqp
      simp
    · rw [Function.update_of_ne hqp]
      simp [hqp]

end Networks

/-! ## Carrying out an abstract system -/

section Carrying

variable {σ α τ β : Type} {step : σ → α → Option σ} {astep : τ → β → Option τ}
  {R : σ → τ → Prop} {t : τ}

/-- From `s`, the abstract system can come to `t`. -/
def Leads (astep : τ → β → Option τ) (s t : τ) : Prop := ∃ bs, exec astep s bs = some t

theorem Leads.refl (s : τ) : Leads astep s s := ⟨[], rfl⟩

/-- Where the order of the steps does not matter, no step leads away from
an end. -/
theorem Leads.of_exec (hcomm : Commutes astep) (hend : Stuck astep t) {s u : τ}
    (h : Leads astep s t) {bs : List β} (hbs : exec astep s bs = some u) : Leads astep u t := by
  obtain ⟨as, has⟩ := h
  obtain ⟨cs, hcs, _⟩ := exec_to_end hcomm has hend hbs
  exact ⟨cs, hcs⟩

/-- A concrete system carries out an abstract one, on its way to `t`. -/
structure CarriesOut (step : σ → α → Option σ) (astep : τ → β → Option τ) (R : σ → τ → Prop)
    (t : τ) : Prop where
  follows : ∀ u s x u', R u s → Leads astep s t → step u x = some u' →
    ∃ bs s', exec astep s bs = some s' ∧ R u' s'
  can : ∀ u s b s', R u s → Leads astep s t → astep s b = some s' →
    ∃ xs u', exec step u xs = some u' ∧ R u' s'

variable {u u' : σ} {s : τ}

/-- The concrete system can be brought to the end of the abstract one. -/
theorem CarriesOut.reaches (h : CarriesOut step astep R t) {bs : List β} (hR : R u s)
    (hbs : exec astep s bs = some t) :
    ∃ xs u', exec step u xs = some u' ∧ R u' t := by
  induction bs generalizing u s with
  | nil =>
    obtain rfl : s = t := by simpa using hbs
    exact ⟨[], u, rfl, hR⟩
  | cons b bs ih =>
    obtain ⟨s', hs', hrest⟩ := exec_cons_eq_some.mp hbs
    obtain ⟨xs, v, hxs, hR'⟩ := h.can u s b s' hR ⟨b :: bs, hbs⟩ hs'
    obtain ⟨ys, u', hys, hu'⟩ := ih hR' hrest
    exact ⟨xs ++ ys, u', exec_append_eq_some.mpr ⟨v, hxs, hys⟩, hu'⟩

/-- What a run of the concrete system did, a run of the abstract one did. -/
theorem exec_followed {Q : σ → τ → Prop}
    (h : ∀ u s x u', Q u s → step u x = some u' → ∃ bs s', exec astep s bs = some s' ∧ Q u' s')
    {xs : List α} (hQ : Q u s) (hxs : exec step u xs = some u') :
    ∃ bs s', exec astep s bs = some s' ∧ Q u' s' := by
  induction xs generalizing u s with
  | nil =>
    obtain rfl : u = u' := by simpa using hxs
    exact ⟨[], s, rfl, hQ⟩
  | cons x xs ih =>
    obtain ⟨v, hv, hrest⟩ := exec_cons_eq_some.mp hxs
    obtain ⟨bs, s', hbs, hQ'⟩ := h u s x v hQ hv
    obtain ⟨cs, s'', hcs, hQ''⟩ := ih hQ' hrest
    exact ⟨bs ++ cs, s'', exec_append_eq_some.mpr ⟨s', hbs, hcs⟩, hQ''⟩

theorem CarriesOut.followed (h : CarriesOut step astep R t) (hcomm : Commutes astep)
    (hend : Stuck astep t) {xs : List α} (hR : R u s) (hs : Leads astep s t)
    (hxs : exec step u xs = some u') : ∃ s', Leads astep s' t ∧ R u' s' := by
  obtain ⟨_, s', _, hs', hR'⟩ := exec_followed (Q := fun u s => Leads astep s t ∧ R u s)
    (fun u s x u' ⟨hs, hR⟩ hx => by
      obtain ⟨bs, s', hbs, hR'⟩ := h.follows u s x u' hR hs hx
      exact ⟨bs, s', hbs, hs.of_exec hcomm hend hbs, hR'⟩) ⟨hs, hR⟩ hxs
  exact ⟨s', hs', hR'⟩

/-- Whatever the concrete system has done, it can still be brought to the end
of the abstract one. -/
theorem CarriesOut.carried_to_end (h : CarriesOut step astep R t) (hcomm : Commutes astep)
    (hend : Stuck astep t) {xs : List α} (hR : R u s) (hs : Leads astep s t)
    (hxs : exec step u xs = some u') :
    ∃ s' ys v, R u' s' ∧ Leads astep s' t ∧ exec step u' ys = some v ∧ R v t := by
  obtain ⟨s', hs', hR'⟩ := h.followed hcomm hend hR hs hxs
  obtain ⟨bs, hbs⟩ := hs'
  obtain ⟨ys, v, hys, hv⟩ := h.reaches hR' hbs
  exact ⟨s', ys, v, hR', ⟨bs, hbs⟩, hys, hv⟩

end Carrying

end Lts
