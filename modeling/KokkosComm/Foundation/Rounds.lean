/-
KokkosComm.Foundation.Rounds — logs that grow in rounds, and the matching
of two of them by position.

In each round every one of `m` items is appended once, in some order. Two
such logs are matched first come first served: the k-th entry of the one
with the k-th entry of the other. Nothing says that an item is matched with
itself — unless it can be told from the sizes of the items: if no item is
matched with a smaller one in a round, the sizes agree throughout the round
(`Rounds.size_eq`), because both logs hold the same items. For the same
reason the matching is one to one (`Rounds.exists_matching`).
-/
import Mathlib.Algebra.Order.BigOperators.Group.List
import Mathlib.Algebra.Order.Ring.Nat
import Mathlib.Data.Fintype.EquivFin

namespace Rounds

/-- Round `c` of a log with `m` entries a round. -/
def slice {α : Type} (m c : Nat) (log : List α) : List α := (log.drop (c * m)).take m

section Slice

variable {α β : Type} {m c : Nat} {log new : List α}

theorem getElem?_slice {p : Nat} (hp : p < m) : (slice m c log)[p]? = log[c * m + p]? := by
  rw [slice, List.getElem?_take, if_pos hp, List.getElem?_drop]

/-- A round that is over stays what it is. -/
theorem slice_append_of_le (h : (c + 1) * m ≤ log.length) :
    slice m c (log ++ new) = slice m c log := by
  have hle : c * m ≤ log.length := Nat.le_trans (Nat.mul_le_mul_right m (Nat.le_succ c)) h
  rw [slice, slice, List.drop_append_of_le_length hle, List.take_append_of_le_length]
  rw [List.length_drop]
  have : (c + 1) * m = c * m + m := Nat.succ_mul c m
  omega

theorem slice_append_self (h : log.length = c * m) (hnew : new.length = m) :
    slice m c (log ++ new) = new := by
  rw [slice, ← h, List.drop_left, ← hnew, List.take_length]

/-- An entry after a round was appended is an old one, or one of the round. -/
theorem getElem?_append_cases {rounds p : Nat} {x : α} (h : log.length = rounds * m)
    (hp : p < m) (hnew : new.length = m) (hx : (log ++ new)[c * m + p]? = some x) :
    log[c * m + p]? = some x ∨ (c = rounds ∧ new[p]? = some x) := by
  by_cases hlt : c * m + p < log.length
  · rw [List.getElem?_append_left hlt] at hx
    exact .inl hx
  · rw [List.getElem?_append_right (Nat.le_of_not_lt hlt)] at hx
    have hidx := (List.getElem?_eq_some_iff.mp hx).1
    rw [h] at hlt hidx hx
    have hc : c = rounds := by
      rw [hnew] at hidx
      have hle : c * m < rounds * m + m := by omega
      have hge : rounds * m < c * m + m := by omega
      rw [← Nat.succ_mul] at hle hge
      have := Nat.lt_of_mul_lt_mul_right hle
      have := Nat.lt_of_mul_lt_mul_right hge
      omega
    subst hc
    rw [Nat.add_sub_cancel_left] at hx
    exact .inr ⟨rfl, hx⟩

/-- Every index of a log lies in one of its rounds. -/
theorem exists_index {rounds k : Nat} (h : log.length = rounds * m) (hk : k < log.length) :
    ∃ c < rounds, ∃ p < m, k = c * m + p := by
  rw [h] at hk
  have hm : 0 < m := Nat.pos_of_ne_zero fun h0 => by simp [h0] at hk
  refine ⟨k / m, (Nat.div_lt_iff_lt_mul hm).mpr hk, k % m, Nat.mod_lt k hm, ?_⟩
  rw [Nat.mul_comm, Nat.div_add_mod]

/-- The round of an index of a log. -/
theorem lt_of_index {rounds p : Nat} (h : log.length = rounds * m) (hk : c * m + p < log.length) :
    c < rounds := by
  rw [h] at hk
  exact Nat.lt_of_mul_lt_mul_right (Nat.lt_of_le_of_lt (Nat.le_add_right _ p) hk)

/-- An entry of an updated log. -/
theorem getElem?_set_cases {k i : Nat} {x e : α} (h : (log.set k x)[i]? = some e) :
    (k = i ∧ e = x) ∨ (k ≠ i ∧ log[i]? = some e) := by
  rw [List.getElem?_set] at h
  split at h
  · rename_i heq
    split at h
    · exact .inl ⟨heq, (Option.some.inj h).symm⟩
    · cases h
  · rename_i hne
    exact .inr ⟨hne, h⟩

/-- Replacing an entry by one for the same item keeps the log of items. -/
theorem map_set_eq {f : α → β} {k : Nat} {x y : α} (hk : log[k]? = some x) (hf : f y = f x) :
    (log.set k y).map f = log.map f := by
  refine List.ext_getElem? fun i => ?_
  rw [List.getElem?_map, List.getElem?_map, List.getElem?_set]
  split
  · rename_i heq
    subst heq
    rw [if_pos (List.getElem?_eq_some_iff.mp hk).1, hk, Option.map_some, Option.map_some, hf]
  · rfl

end Slice

end Rounds

/-- `rounds` rounds of the items `0 … m - 1`. -/
structure Rounds (m rounds : Nat) (log : List Nat) : Prop where
  length : log.length = rounds * m
  perm : ∀ c < rounds, (Rounds.slice m c log).Perm (List.range m)

namespace Rounds

variable {m rounds : Nat} {log : List Nat}

theorem nil (m : Nat) : Rounds m 0 [] := ⟨by simp, nofun⟩

theorem append (h : Rounds m rounds log) {order : List Nat} (horder : order.Perm (List.range m)) :
    Rounds m (rounds + 1) (log ++ order) where
  length := by
    rw [List.length_append, h.length, horder.length_eq, List.length_range, Nat.succ_mul]
  perm := by
    intro c hc
    rcases Nat.lt_succ_iff_lt_or_eq.mp hc with hlt | rfl
    · rw [slice_append_of_le (by rw [h.length]; exact Nat.mul_le_mul_right m hlt)]
      exact h.perm c hlt
    · rwa [slice_append_self h.length (by rw [horder.length_eq, List.length_range])]

theorem lt_of_getElem? (h : Rounds m rounds log) {c p i : Nat} (hc : c < rounds) (hp : p < m)
    (hi : log[c * m + p]? = some i) : i < m := by
  rw [← getElem?_slice hp] at hi
  exact List.mem_range.mp ((h.perm c hc).subset (List.mem_of_getElem? hi))

/-- Every item occurs in every round. -/
theorem exists_getElem? (h : Rounds m rounds log) {c i : Nat} (hc : c < rounds) (hi : i < m) :
    ∃ p < m, log[c * m + p]? = some i := by
  have hmem : i ∈ slice m c log := (h.perm c hc).symm.subset (List.mem_range.mpr hi)
  obtain ⟨p, hp⟩ := List.mem_iff_getElem?.mp hmem
  have hlt : p < m := by
    have := (List.getElem?_eq_some_iff.mp hp).1
    rwa [(h.perm c hc).length_eq, List.length_range] at this
  exact ⟨p, hlt, by rwa [getElem?_slice hlt] at hp⟩

/-- … and only once. -/
theorem getElem?_injective (h : Rounds m rounds log) {c p p' i : Nat} (hc : c < rounds)
    (hp : p < m) (hp' : p' < m) (hi : log[c * m + p]? = some i)
    (hi' : log[c * m + p']? = some i) : p = p' := by
  rw [← getElem?_slice hp] at hi
  rw [← getElem?_slice hp'] at hi'
  have hnd : (slice m c log).Nodup := (h.perm c hc).nodup_iff.mpr List.nodup_range
  exact (List.getElem?_inj (List.getElem?_eq_some_iff.mp hi).1 hnd).mp (hi.trans hi'.symm)

/-- Two logs match the items of a round one to one. -/
theorem exists_matching {rounds' c : Nat} {log' : List Nat} (h : Rounds m rounds log)
    (h' : Rounds m rounds' log') (hc : c < rounds) (hc' : c < rounds') :
    ∃ σ : Equiv.Perm (Fin m), ∀ j : Fin m, ∃ p < m,
      log[c * m + p]? = some (σ j).val ∧ log'[c * m + p]? = some j.val := by
  choose pos hpos hj using fun j : Fin m => h'.exists_getElem? hc' j.isLt
  have hget : ∀ j, ∃ i, log[c * m + pos j]? = some i := fun j => by
    have hle : (c + 1) * m ≤ rounds * m := Nat.mul_le_mul_right m hc
    rw [Nat.succ_mul] at hle
    have hlt : c * m + pos j < log.length := by
      rw [h.length]
      have := hpos j
      omega
    exact ⟨_, List.getElem?_eq_getElem hlt⟩
  choose item hitem using hget
  have hlt : ∀ j, item j < m := fun j => h.lt_of_getElem? hc (hpos j) (hitem j)
  have hinj : Function.Injective fun j => (⟨item j, hlt j⟩ : Fin m) := by
    intro j j' heq
    have hsame : item j' = item j := (Fin.mk.inj heq).symm
    have hposeq : pos j = pos j' :=
      h.getElem?_injective hc (hpos j) (hpos j') (hitem j) (hsame ▸ hitem j')
    refine Fin.ext (Option.some.inj ?_)
    rw [← hj j, ← hj j', hposeq]
  exact ⟨Equiv.ofBijective _ hinj.bijective_of_finite,
    fun j => ⟨pos j, hpos j, hitem j, hj j⟩⟩

/-- In every round the items come in the same order, from the first one on. -/
def InOrder (m : Nat) (log : List Nat) : Prop := ∀ k i : Nat, log[k]? = some i → i = k % m

theorem InOrder.nil (m : Nat) : InOrder m [] := nofun

theorem InOrder.append (h : InOrder m log) (hlen : log.length = rounds * m) :
    InOrder m (log ++ List.range m) := by
  intro k i hi
  by_cases hk : k < log.length
  · rw [List.getElem?_append_left hk] at hi
    exact h k i hi
  · have hle := Nat.le_of_not_lt hk
    rw [List.getElem?_append_right hle] at hi
    obtain ⟨hlt, hget⟩ := List.getElem?_eq_some_iff.mp hi
    rw [List.getElem_range] at hget
    rw [List.length_range] at hlt
    obtain rfl : k = i + rounds * m := by omega
    rw [Nat.add_mul_mod_self_right, Nat.mod_eq_of_lt (by omega)]

/-- Numbers that do not decrease and do not sum up to more are the same. -/
theorem eq_of_forall₂_le_of_sum_le {xs ys : List Nat} (h : List.Forall₂ (· ≤ ·) xs ys)
    (hsum : ys.sum ≤ xs.sum) : xs = ys := by
  induction h with
  | nil => rfl
  | cons hle htail ih =>
    have := htail.sum_le_sum
    simp only [List.sum_cons] at hsum
    rw [ih (by omega), Nat.le_antisymm hle (by omega)]

/-- If in a round no item is matched with a smaller one, all are matched
with one of their size. -/
theorem size_eq {m rounds rounds' c : Nat} {log log' : List Nat} (h : Rounds m rounds log)
    (h' : Rounds m rounds' log') (hc : c < rounds) (hc' : c < rounds') {size : Nat → Nat}
    (hle : ∀ p < m, ∀ i j, log[c * m + p]? = some i → log'[c * m + p]? = some j →
      size i ≤ size j) {p i j : Nat} (hp : p < m) (hi : log[c * m + p]? = some i)
    (hj : log'[c * m + p]? = some j) : size i = size j := by
  have hlen : (slice m c log).length = (slice m c log').length := by
    rw [(h.perm c hc).length_eq, (h'.perm c hc').length_eq]
  have hforall : List.Forall₂ (· ≤ ·) ((slice m c log).map size) ((slice m c log').map size) := by
    rw [List.forall₂_iff_get]
    refine ⟨by simp [hlen], fun q hq hq' => ?_⟩
    rw [List.length_map] at hq hq'
    have hqm : q < m := by rwa [(h.perm c hc).length_eq, List.length_range] at hq
    simp only [List.get_eq_getElem, List.getElem_map]
    refine hle q hqm _ _ ?_ ?_
    · rw [← getElem?_slice hqm, List.getElem?_eq_getElem hq]
    · rw [← getElem?_slice hqm, List.getElem?_eq_getElem hq']
  have hperm : (slice m c log).Perm (slice m c log') := (h.perm c hc).trans (h'.perm c hc').symm
  have heq := eq_of_forall₂_le_of_sum_le hforall (Nat.le_of_eq (hperm.symm.map size).sum_eq)
  have hget := congrArg (·[p]?) heq
  simp only [List.getElem?_map, getElem?_slice hp, hi, hj, Option.map_some] at hget
  exact Option.some.inj hget

end Rounds
