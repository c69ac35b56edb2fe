/-
KokkosComm.Foundation.Reduction — reductions over several parties, element
by element.

`reduction op xs` combines the values from left to right. A library that
combines them in another grouping (`Bracketed`) gets the same value when
the operator is associative (`Bracketed.reduction_eq`). A `Combiner` is any
choice of groupings, which may differ from element to element.

A `Party` takes part in a collective with a memory, the cells of its two
buffers, and what it does to its memory when the collective is over.
`collect` combines the k-th elements of all send buffers, for every k, and
stores the results in the receive buffers of the parties that receive.
Parties that disagree on the number of elements break the contract of the
collective, and anything may happen.
-/
import KokkosComm.Foundation.Outcome
import KokkosComm.Foundation.Scatter

namespace Reduction

variable {α : Type}

/-! ## Combining values -/

/-- The values combined from left to right. -/
def reduction (op : α → α → α) : List α → Option α
  | [] => none
  | x :: xs => some (xs.foldl op x)

/-- The values combined in their order, grouped in some way. -/
inductive Bracketed (op : α → α → α) : List α → α → Prop where
  | single (x : α) : Bracketed op [x] x
  | join {xs ys : List α} {x y : α} (left : Bracketed op xs x) (right : Bracketed op ys y) :
      Bracketed op (xs ++ ys) (op x y)

section Combining

variable {op : α → α → α}

@[simp] theorem reduction_nil : reduction op [] = none := rfl

@[simp] theorem reduction_singleton (x : α) : reduction op [x] = some x := rfl

theorem reduction_isSome {xs : List α} (h : xs ≠ []) : ∃ x, reduction op xs = some x := by
  cases xs with
  | nil => exact absurd rfl h
  | cons x xs => exact ⟨_, rfl⟩

/-- A value may be combined with the others first or last. -/
theorem foldl_assoc [hassoc : Std.Associative op] (x y : α) (ys : List α) :
    ys.foldl op (op x y) = op x (ys.foldl op y) := by
  induction ys generalizing y with
  | nil => rfl
  | cons z ys ih =>
    rw [List.foldl_cons, List.foldl_cons, hassoc.assoc]
    exact ih (op y z)

theorem reduction_append [Std.Associative op] {xs ys : List α} {x y : α}
    (hx : reduction op xs = some x) (hy : reduction op ys = some y) :
    reduction op (xs ++ ys) = some (op x y) := by
  cases xs with
  | nil => cases hx
  | cons x' xs =>
    cases ys with
    | nil => cases hy
    | cons y' ys =>
      cases hx
      cases hy
      simp [reduction, foldl_assoc]

/-- Grouping does not matter. -/
theorem Bracketed.reduction_eq [Std.Associative op] {xs : List α} {x : α}
    (h : Bracketed op xs x) : reduction op xs = some x := by
  induction h with
  | single x => rfl
  | join left right ihl ihr => exact reduction_append ihl ihr

theorem Bracketed.foldl {xs : List α} {x : α} (h : Bracketed op xs x) (ys : List α) :
    Bracketed op (xs ++ ys) (ys.foldl op x) := by
  induction ys generalizing xs x with
  | nil => simpa using h
  | cons y ys ih =>
    have := ih (h.join (.single y))
    simpa using this

theorem bracketed_of_reduction {xs : List α} {x : α} (h : reduction op xs = some x) :
    Bracketed op xs x := by
  cases xs with
  | nil => cases h
  | cons y ys =>
    cases h
    exact (Bracketed.single y).foldl ys

/-- With a right neutral element, trailing ones do not count. -/
theorem foldl_of_neutral {e : α} (hright : ∀ y, op y e = y) {xs : List α} (h : ∀ y ∈ xs, y = e)
    (x : α) : xs.foldl op x = x := by
  induction xs with
  | nil => rfl
  | cons y xs ih =>
    obtain rfl := h y (by simp)
    rw [List.foldl_cons, hright]
    exact ih fun z hz => h z (List.mem_cons_of_mem y hz)

/-- All values but one are neutral. -/
theorem reduction_of_one {e : α} (hleft : ∀ y, op e y = y) (hright : ∀ y, op y e = y)
    {xs : List α} {k : Nat} {x : α} (hk : xs[k]? = some x)
    (hother : ∀ j y, j ≠ k → xs[j]? = some y → y = e) : reduction op xs = some x := by
  induction xs generalizing k with
  | nil => cases hk
  | cons y xs ih =>
    have htail : ∀ j z, j + 1 ≠ k → xs[j]? = some z → z = e := fun j z hj hz =>
      hother (j + 1) z hj (by simpa using hz)
    cases k with
    | zero =>
      cases hk
      have hall : ∀ z ∈ xs, z = e := fun z hz => by
        obtain ⟨j, hj⟩ := List.mem_iff_getElem?.mp hz
        exact htail j z (by omega) hj
      exact congrArg some (foldl_of_neutral hright hall x)
    | succ k =>
      obtain rfl := hother 0 y (by omega) rfl
      have hxs := ih (by simpa using hk) fun j z hj => htail j z (by omega)
      cases xs with
      | nil => cases hk
      | cons z xs =>
        rw [reduction, List.foldl_cons, hleft]
        exact hxs

/-- The first value that is not `e`: associative, with `e` neutral. -/
def firstNot [DecidableEq α] (e : α) (x y : α) : α := if x = e then y else x

instance associative_firstNot [DecidableEq α] (e : α) : Std.Associative (firstNot e) where
  assoc x y z := by
    by_cases h : x = e <;> simp [firstNot, h]

theorem firstNot_left [DecidableEq α] (e y : α) : firstNot e e y = y := if_pos rfl

theorem firstNot_right [DecidableEq α] (e y : α) : firstNot e y e = y := by
  unfold firstNot
  split
  · rename_i h
    exact h.symm
  · rfl

/-- All values are `e`. -/
theorem reduction_firstNot [DecidableEq α] {e : α} {xs : List α} (hne : xs ≠ [])
    (h : ∀ y ∈ xs, y = e) : reduction (firstNot e) xs = some e := by
  cases xs with
  | nil => exact absurd rfl hne
  | cons x xs =>
    obtain rfl := h x (by simp)
    exact congrArg some
      (foldl_of_neutral (firstNot_right x) (fun y hy => h y (List.mem_cons_of_mem x hy)) x)

end Combining

/-- How the values of one element after the other are grouped. -/
structure Combiner (op : α → α → α) where
  combine : Nat → List α → α
  bracketed : ∀ k xs, xs ≠ [] → Bracketed op xs (combine k xs)

/-- Always from left to right; `x` is for no value at all. -/
def Combiner.leftToRight (op : α → α → α) (x : α) : Combiner op where
  combine _ xs := (reduction op xs).getD x
  bracketed _ xs h := by
    obtain ⟨y, hy⟩ : ∃ y, reduction op xs = some y := reduction_isSome h
    rw [hy]
    exact bracketed_of_reduction hy

theorem Combiner.combine_eq {op : α → α → α} [Std.Associative op] (c : Combiner op) (k : Nat)
    {xs : List α} (h : xs ≠ []) : reduction op xs = some (c.combine k xs) :=
  (c.bracketed k xs h).reduction_eq

/-! ## Element by element -/

/-- The `k`-th elements of all messages. -/
def column (messages : List (List α)) (k : Nat) : List α := messages.filterMap fun m => m[k]?

/-- The messages combined element by element. -/
def Combiner.combineAll {op : α → α → α} (c : Combiner op) (messages : List (List α)) (n : Nat) :
    List α := (List.range n).map fun k => c.combine k (column messages k)

section Elements

variable {op : α → α → α} (c : Combiner op) {messages : List (List α)} {n k : Nat}

@[simp] theorem length_combineAll : (c.combineAll messages n).length = n := by
  simp [Combiner.combineAll]

theorem column_eq {xs : List α} (h : messages.map (fun m => m[k]?) = xs.map some) :
    column messages k = xs := by
  have hid : (messages.map fun m => m[k]?).filterMap id = column messages k := by
    rw [List.filterMap_map]
    rfl
  rw [← hid, h, List.filterMap_map]
  simp

theorem combineAll_getElem? (hk : k < n) :
    (c.combineAll messages n)[k]? = some (c.combine k (column messages k)) := by
  simp [Combiner.combineAll, hk]

theorem column_ne_nil (hne : messages ≠ []) (hlen : ∀ m ∈ messages, m.length = n) (hk : k < n) :
    column messages k ≠ [] := by
  obtain ⟨m, hm⟩ := List.exists_mem_of_ne_nil messages hne
  have hkm : k < m.length := by rwa [hlen m hm]
  exact List.ne_nil_of_mem (List.mem_filterMap.mpr ⟨m, hm, List.getElem?_eq_getElem hkm⟩)

/-- Two combiners agree on messages that all have `n` elements. -/
theorem combineAll_congr [Std.Associative op] (c c' : Combiner op) (hne : messages ≠ [])
    (hlen : ∀ m ∈ messages, m.length = n) :
    c.combineAll messages n = c'.combineAll messages n := by
  refine List.map_congr_left fun k hk => ?_
  have hcolumn := column_ne_nil hne hlen (List.mem_range.mp hk)
  exact Option.some.inj ((c.combine_eq k hcolumn).symm.trans (c'.combine_eq k hcolumn))

end Elements

/-! ## Collectives -/

section Collectives

variable {ι : Type}

/-- A party to a collective. -/
structure Party (ι α : Type) where
  memory : ι → α
  sendbuf : List ι
  recvbuf : List ι
  complete : (ι → α) → ι → α

namespace Party

/-- The elements the party sends. -/
def message (p : Party ι α) : List α := Memory.gather p.memory p.sendbuf

@[simp] theorem length_message (p : Party ι α) : p.message.length = p.sendbuf.length := by
  simp [message]

/-- The memory of a party that receives, after completion. -/
def received [DecidableEq ι] (p : Party ι α) (result : List α) : ι → α :=
  p.complete (Memory.scatter p.memory p.recvbuf result)

/-- The memory of a party that does not. -/
def idle (p : Party ι α) : ι → α := p.complete p.memory

end Party

/-- The number of elements of a collective, if the parties agree on it. -/
def agreedCount (parties : List (Party ι α)) : Option Nat :=
  match parties with
  | [] => none
  | p :: ps =>
    if ps.all fun q => q.sendbuf.length == p.sendbuf.length then some p.sendbuf.length else none

/-- The memories of all parties after the collective. -/
def collect [DecidableEq ι] {op : α → α → α} (c : Combiner op) (receives : Nat → Bool)
    (parties : List (Party ι α)) : Outcome (List (ι → α)) :=
  match agreedCount parties with
  | some n =>
    let result := c.combineAll (parties.map Party.message) n
    .returns (parties.mapIdx fun r p => if receives r then p.received result else p.idle)
  | none => .undefined

theorem agreedCount_eq_some {parties : List (Party ι α)} {n : Nat} :
    agreedCount parties = some n ↔ parties ≠ [] ∧ ∀ p ∈ parties, p.sendbuf.length = n := by
  cases parties with
  | nil => simp [agreedCount]
  | cons p ps =>
    simp only [agreedCount, List.all_eq_true, beq_iff_eq, Option.ite_none_right_eq_some,
      Option.some.injEq, ne_eq, reduceCtorEq, not_false_eq_true, true_and, List.mem_cons,
      forall_eq_or_imp]
    constructor
    · rintro ⟨hall, rfl⟩
      exact ⟨rfl, hall⟩
    · rintro ⟨rfl, hall⟩
      exact ⟨hall, rfl⟩

variable [DecidableEq ι] {op : α → α → α} {c : Combiner op} {receives : Nat → Bool}
  {parties : List (Party ι α)}

/-- What every party is left with. -/
theorem collect_of_count {n : Nat} (hne : parties ≠ [])
    (hn : ∀ p ∈ parties, p.sendbuf.length = n) :
    collect c receives parties = .returns (parties.mapIdx fun r p =>
      if receives r then p.received (c.combineAll (parties.map Party.message) n) else p.idle) := by
  rw [collect, agreedCount_eq_some.mpr ⟨hne, hn⟩]

/-- The grouping does not matter to the parties. -/
theorem collect_congr [Std.Associative op] (c c' : Combiner op) (receives : Nat → Bool)
    (parties : List (Party ι α)) : collect c receives parties = collect c' receives parties := by
  cases hn : agreedCount parties with
  | none => rw [collect, collect, hn]
  | some n =>
    obtain ⟨hne, hcount⟩ := agreedCount_eq_some.mp hn
    have hlen : ∀ m ∈ parties.map Party.message, m.length = n := by
      intro m hm
      obtain ⟨p, hp, rfl⟩ := List.mem_map.mp hm
      rw [Party.length_message, hcount p hp]
    rw [collect_of_count hne hcount, collect_of_count hne hcount,
      combineAll_congr c c' (by simpa using hne) hlen]

theorem collect_undefined {p q : Party ι α} (hp : p ∈ parties) (hq : q ∈ parties)
    (h : p.sendbuf.length ≠ q.sendbuf.length) : collect c receives parties = .undefined := by
  have hnone : agreedCount parties = none := by
    cases hn : agreedCount parties with
    | none => rfl
    | some n =>
      obtain ⟨_, hall⟩ := agreedCount_eq_some.mp hn
      exact absurd ((hall p hp).trans (hall q hq).symm) h
  rw [collect, hnone]

end Collectives

end Reduction
