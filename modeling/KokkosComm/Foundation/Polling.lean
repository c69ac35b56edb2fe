/-
KokkosComm.Foundation.Polling — counting over a set of items that become
ready one after the other while somebody polls them pass by pass.

`k e` is the first pass (from 0) in which item `e` is found ready; from
then on it is found ready in every pass. `found` counts, with
repetition, how often an item was found ready in the first `p` passes;
`last` is the pass in which the last item becomes ready.
-/
import Mathlib.Algebra.Order.Ring.Nat

namespace Polling

variable {ι : Type} (k : ι → Nat)

/-- Number of times an item of `es` is found ready in the passes below `p`. -/
def found (es : List ι) (p : Nat) : Nat := (es.map fun e => p - k e).sum

/-- The pass in which the last item of `es` becomes ready. -/
def last (es : List ι) : Nat := es.foldr (fun e m => max (k e) m) 0

@[simp] theorem found_nil (p : Nat) : found k [] p = 0 := rfl

@[simp] theorem found_cons (e : ι) (es : List ι) (p : Nat) :
    found k (e :: es) p = (p - k e) + found k es p := by
  simp [found]

@[simp] theorem found_zero (es : List ι) : found k es 0 = 0 := by
  induction es with
  | nil => rfl
  | cons e es ih => simp [ih]

/-- Pass `p` finds the items ready by then once more. -/
theorem found_succ (es : List ι) (p : Nat) :
    found k es (p + 1) = found k es p + es.countP fun e => k e ≤ p := by
  induction es with
  | nil => rfl
  | cons e es ih =>
    rw [found_cons, found_cons, ih, List.countP_cons]
    by_cases h : k e ≤ p
    · simp only [h, decide_true, if_true]; omega
    · simp only [h, decide_false]
      have h1 : p + 1 - k e = 0 := by omega
      have h2 : p - k e = 0 := by omega
      simp [h1, h2]

theorem found_mono (es : List ι) {p q : Nat} (h : p ≤ q) : found k es p ≤ found k es q := by
  induction es with
  | nil => simp
  | cons e es ih => rw [found_cons, found_cons]; omega

theorem le_last {e : ι} {es : List ι} (h : e ∈ es) : k e ≤ last k es := by
  induction es with
  | nil => cases h
  | cons e' es ih =>
    rcases List.mem_cons.mp h with rfl | h
    · exact Nat.le_max_left _ _
    · exact Nat.le_trans (ih h) (Nat.le_max_right _ _)

/-- A pass after which every item has been found lies beyond the last one. -/
theorem last_lt {es : List ι} (hne : es ≠ []) {p : Nat} (h : ∀ e ∈ es, k e < p) :
    last k es < p := by
  have hp : 0 < p := by
    obtain ⟨e, he⟩ := List.exists_mem_of_ne_nil es hne
    exact Nat.zero_lt_of_lt (h e he)
  clear hne
  induction es with
  | nil => exact hp
  | cons e es ih =>
    exact Nat.max_lt.mpr ⟨h e (by simp), ih fun e' he' => h e' (by simp [he'])⟩

/-- Once all items are ready, a pass finds all of them. -/
theorem countP_of_all_ready {es : List ι} {p : Nat} (h : ∀ e ∈ es, k e ≤ p) :
    es.countP (fun e => k e ≤ p) = es.length :=
  List.countP_eq_length.mpr fun e he => by simpa using h e he

/-- Polling long enough finds items any number of times. -/
theorem exists_le_found {es : List ι} (hne : es ≠ []) (r : Nat) : ∃ p, r ≤ found k es p := by
  obtain ⟨e, he⟩ := List.exists_mem_of_ne_nil es hne
  refine ⟨r + k e, ?_⟩
  clear hne
  induction es with
  | nil => cases he
  | cons e' es ih =>
    rw [found_cons]
    rcases List.mem_cons.mp he with rfl | he
    · omega
    · have := ih he
      omega

end Polling
