/-
KokkosComm.Foundation.Occurrences — the k-th element of a kind in a list.

What a list has of some kind is `filterMap`; where these elements stand is
`findIdxs`. Both are counted by what comes before, so that the k-th is at
`i` when there are `k` of them in `take i`. Two lists that have the kinds
at the same places count alike (`countP_of_forall₂`).

The last section is about the places themselves: of the numbers below `k`,
those of a kind, and where one of them stands among them.
-/
import Mathlib.Data.List.Forall2

namespace Occurrences

variable {α β γ : Type}

/-- The `k`-th that `f` finds, and where. -/
theorem getElem?_filterMap {f : α → Option β} {l : List α} {k : Nat} {y : β} :
    (l.filterMap f)[k]? = some y ↔
      ∃ (i : Nat) (x : α), l[i]? = some x ∧ f x = some y ∧ ((l.take i).filterMap f).length = k := by
  induction l generalizing k with
  | nil => simp
  | cons a l ih =>
    cases hf : f a with
    | none =>
      rw [List.filterMap_cons_none hf, ih]
      constructor
      · rintro ⟨i, x, hx, hy, hk⟩
        exact ⟨i + 1, x, by simpa using hx, hy, by simpa [List.filterMap_cons_none hf] using hk⟩
      · rintro ⟨i, x, hx, hy, hk⟩
        cases i with
        | zero =>
          obtain rfl : a = x := by simpa using hx
          rw [hf] at hy
          cases hy
        | succ i =>
          exact ⟨i, x, by simpa using hx, hy, by simpa [List.filterMap_cons_none hf] using hk⟩
    | some z =>
      rw [List.filterMap_cons_some hf]
      cases k with
      | zero =>
        rw [List.getElem?_cons_zero, Option.some.injEq]
        constructor
        · rintro rfl
          exact ⟨0, a, rfl, hf, rfl⟩
        · rintro ⟨i, x, hx, hy, hk⟩
          cases i with
          | zero =>
            obtain rfl : a = x := by simpa using hx
            rw [hf] at hy
            exact Option.some.inj hy
          | succ i => simp [List.filterMap_cons_some hf] at hk
      | succ k =>
        rw [List.getElem?_cons_succ, ih]
        constructor
        · rintro ⟨i, x, hx, hy, hk⟩
          exact ⟨i + 1, x, by simpa using hx, hy, by simpa [List.filterMap_cons_some hf] using hk⟩
        · rintro ⟨i, x, hx, hy, hk⟩
          cases i with
          | zero => simp at hk
          | succ i =>
            exact ⟨i, x, by simpa using hx, hy, by simpa [List.filterMap_cons_some hf] using hk⟩

/-- What stands at `i` is found, after those before it. -/
theorem getElem?_filterMap_of_getElem? {f : α → Option β} {l : List α} {i : Nat} {x : α} {y : β}
    (hx : l[i]? = some x) (hy : f x = some y) :
    (l.filterMap f)[((l.take i).filterMap f).length]? = some y :=
  getElem?_filterMap.mpr ⟨i, x, hx, hy, rfl⟩

/-- The places of a kind are where the elements are found. -/
theorem getElem?_findIdxs {p : α → Bool} {l : List α} {k i : Nat} :
    (l.findIdxs p)[k]? = some i ↔ ∃ x, l[i]? = some x ∧ p x = true ∧ (l.take i).countP p = k := by
  induction l generalizing k i with
  | nil => simp
  | cons a l ih =>
    have hshift : ∀ {k i : Nat}, (l.findIdxs p 1)[k]? = some i ↔
        ∃ j x, i = j + 1 ∧ l[j]? = some x ∧ p x = true ∧ (l.take j).countP p = k := by
      intro k i
      rw [List.findIdxs_start, List.getElem?_map]
      constructor
      · intro h
        obtain ⟨j, hj, rfl⟩ := Option.map_eq_some_iff.mp h
        obtain ⟨x, hx, hp, hk⟩ := ih.mp hj
        exact ⟨j, x, rfl, hx, hp, hk⟩
      · rintro ⟨j, x, rfl, hx, hp, hk⟩
        rw [ih.mpr ⟨x, hx, hp, hk⟩]
        rfl
    rw [List.findIdxs_cons]
    by_cases hpa : p a = true
    · rw [if_pos hpa]
      cases k with
      | zero =>
        rw [List.getElem?_cons_zero, Option.some.injEq]
        constructor
        · rintro rfl
          exact ⟨a, rfl, hpa, rfl⟩
        · rintro ⟨x, hx, hp, hk⟩
          cases i with
          | zero => rfl
          | succ i => simp [hpa] at hk
      | succ k =>
        rw [List.getElem?_cons_succ, Nat.zero_add, hshift]
        constructor
        · rintro ⟨j, x, rfl, hx, hp, hk⟩
          exact ⟨x, by simpa using hx, hp, by simpa [hpa] using hk⟩
        · rintro ⟨x, hx, hp, hk⟩
          cases i with
          | zero => simp at hk
          | succ i => exact ⟨i, x, rfl, by simpa using hx, hp, by simpa [hpa] using hk⟩
    · rw [if_neg hpa, Nat.zero_add, hshift]
      constructor
      · rintro ⟨j, x, rfl, hx, hp, hk⟩
        exact ⟨x, by simpa using hx, hp, by simpa [hpa] using hk⟩
      · rintro ⟨x, hx, hp, hk⟩
        cases i with
        | zero =>
          obtain rfl : a = x := by simpa using hx
          exact absurd hp hpa
        | succ i => exact ⟨i, x, rfl, by simpa using hx, hp, by simpa [hpa] using hk⟩

/-- Two lists that have a kind at the same places have it as often. -/
theorem countP_of_forall₂ {p : α → Bool} {f : β → Option γ} {l : List α} {l' : List β}
    (h : List.Forall₂ (fun x y => p x = (f y).isSome) l l') :
    l.countP p = (l'.filterMap f).length := by
  induction h with
  | nil => rfl
  | @cons x y l l' hxy _ ih =>
    cases hf : f y with
    | none => simp [hxy, hf, ih]
    | some z => simp [hxy, hf, ih]

theorem length_findIdxs_of_forall₂ {p : α → Bool} {f : β → Option γ} {l : List α} {l' : List β}
    (h : List.Forall₂ (fun x y => p x = (f y).isSome) l l') :
    (l.findIdxs p).length = (l'.filterMap f).length := by
  rw [List.length_findIdxs, countP_of_forall₂ h]

/-- … so that its k-th place in one is its k-th place in the other. -/
theorem getElem?_findIdxs_of_forall₂ {p : α → Bool} {f : β → Option γ} {l : List α} {l' : List β}
    (h : List.Forall₂ (fun x y => p x = (f y).isSome) l l') {k i : Nat} :
    (l.findIdxs p)[k]? = some i ↔ ∃ y z, l'[i]? = some y ∧ f y = some z ∧
      ((l'.take i).filterMap f).length = k := by
  rw [getElem?_findIdxs, countP_of_forall₂ (List.forall₂_take i h)]
  constructor
  · rintro ⟨x, hx, hp, hk⟩
    have hlt := (List.getElem?_eq_some_iff.mp hx).1
    have hlt' : i < l'.length := h.length_eq ▸ hlt
    have hy : l'[i]? = some l'[i] := List.getElem?_eq_getElem hlt'
    have hxy := (List.forall₂_iff_get.mp h).2 i hlt hlt'
    rw [List.getElem?_eq_getElem hlt, Option.some.injEq] at hx
    simp only [List.get_eq_getElem, hx, hp] at hxy
    obtain ⟨z, hz⟩ := Option.isSome_iff_exists.mp hxy.symm
    exact ⟨_, z, hy, hz, hk⟩
  · rintro ⟨y, z, hy, hz, hk⟩
    have hlt := (List.getElem?_eq_some_iff.mp hy).1
    have hlt' : i < l.length := h.length_eq ▸ hlt
    have hx : l[i]? = some l[i] := List.getElem?_eq_getElem hlt'
    have hxy := (List.forall₂_iff_get.mp h).2 i hlt' hlt
    rw [List.getElem?_eq_getElem hlt, Option.some.injEq] at hy
    simp only [List.get_eq_getElem, hy, hz, Option.isSome_some] at hxy
    exact ⟨_, hx, hxy, hk⟩

/-! ## Places below a bound -/

section Places

variable {p q : Nat → Bool} {i k : Nat}

/-- The places of a kind below `i` come first. -/
theorem filter_range_of_le (h : i ≤ k) : ∃ rest, (∀ j ∈ rest, i ≤ j) ∧
    (List.range k).filter p = (List.range i).filter p ++ rest := by
  obtain ⟨d, rfl⟩ := Nat.exists_eq_add_of_le h
  refine ⟨((List.range d).map (i + ·)).filter p, fun j hj => ?_, ?_⟩
  · obtain ⟨j', -, rfl⟩ := List.mem_map.mp (List.mem_of_mem_filter hj)
    exact Nat.le_add_right i j'
  · rw [List.range_add, List.filter_append]

/-- A place of the kind stands after those below it. -/
theorem getElem?_filter_range (h : i < k) (hp : p i = true) :
    ((List.range k).filter p)[(List.range i).countP p]? = some i := by
  obtain ⟨rest, -, heq⟩ := filter_range_of_le (p := p) (Nat.succ_le_of_lt h)
  rw [heq, List.range_succ, List.filter_append, List.countP_eq_length_filter, List.append_assoc,
    List.getElem?_append_right (Nat.le_refl _), Nat.sub_self]
  simp [hp]

/-- A kind among the places of another that it is part of. -/
theorem filter_filter_range (hpq : ∀ j, p j = true → q j = true) :
    ((List.range k).filter q).filter p = (List.range k).filter p := by
  rw [List.filter_filter]
  refine List.filter_congr fun j _ => ?_
  cases hp : p j with
  | false => rfl
  | true => simp [hpq j hp]

/-- There are more below a place that is above one of the kind. -/
theorem countP_range_lt (h : i < k) (hp : p i = true) :
    (List.range i).countP p < (List.range k).countP p := by
  obtain ⟨hlt, -⟩ := List.getElem?_eq_some_iff.mp (getElem?_filter_range h hp)
  rwa [← List.countP_eq_length_filter] at hlt

end Places

end Occurrences
