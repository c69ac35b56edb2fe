/-
KokkosComm.Mpi.Stencil — exchanges with neighbours.

In each direction a process sends one view to the neighbour there, and
receives another from the neighbour on the other side: a halo exchange of
any shape, of which `perf_tests/mpi/test_2d_halo.cpp` is one. The neighbours
on both sides may be the same process, or the process itself. Of the
messages between two processes, those of the same direction are for each
other (`exchange_eq`).
-/
import KokkosComm.Mpi.SuperstepsTheorems

namespace KokkosComm.Mpi.Messaging

variable {α δ : Type} {n : Nat} {ranks : List Int}

/-- An exchange with neighbours, alike on all processes. -/
structure Stencil (n : Nat) (ranks : List Int) (δ : Type) where
  dirs : List δ
  sv : δ → View
  rv : δ → View
  dest : δ → Int → Int
  src : δ → Int → Int
  sendable : ∀ d, Sendable n (sv d)
  receivable : ∀ d, Receivable n (rv d)
  size : ∀ d, (sv d).size = (rv d).size
  apart : ∀ d e, ∀ c ∈ (sv d).elements, c ∉ (rv e).elements
  disjoint : dirs.Pairwise fun d e => ∀ c ∈ (rv d).elements, c ∉ (rv e).elements
  fits : dirs.length + dirs.length < 2147483648
  dest_mem : ∀ d a, a ∈ ranks → dest d a ∈ ranks
  src_mem : ∀ d b, b ∈ ranks → src d b ∈ ranks
  opposite : ∀ d a b, a ∈ ranks → b ∈ ranks → (dest d a = b ↔ src d b = a)

namespace Stencil

variable (S : Stencil n ranks δ)

/-- First all sends, then all receives. -/
def legs (p : Int) : List Leg :=
  if p ∈ ranks then
    S.dirs.map (fun d => .send (S.sv d) (S.dest d p)) ++
      S.dirs.map (fun d => .recv (S.rv d) (S.src d p))
  else []

variable {S} {a b p : Int}

theorem legs_of_mem (hp : p ∈ ranks) : S.legs p =
    S.dirs.map (fun d => .send (S.sv d) (S.dest d p)) ++
      S.dirs.map (fun d => .recv (S.rv d) (S.src d p)) := if_pos hp

theorem legs_of_not_mem (hp : p ∉ ranks) : S.legs p = [] := if_neg hp

/-- Messages from `a` to `b` travel in direction `d`. -/
def leads (S : Stencil n ranks δ) (a b : Int) (d : δ) : Option δ :=
  if S.src d b = a then some d else none

theorem sentTo_legs (ha : a ∈ ranks) (hb : b ∈ ranks) :
    (S.legs a).filterMap (Leg.sentTo b) = (S.dirs.filterMap (S.leads a b)).map S.sv := by
  have hrecvs : S.dirs.filterMap (Leg.sentTo b ∘ fun d => .recv (S.rv d) (S.src d a)) = [] :=
    List.filterMap_eq_nil_iff.mpr fun _ _ => rfl
  rw [legs_of_mem ha, List.filterMap_append, List.filterMap_map, List.filterMap_map, hrecvs,
    List.append_nil, List.map_filterMap]
  refine List.filterMap_congr fun d _ => ?_
  by_cases hd : S.src d b = a
  · simp [leads, Leg.sentTo, hd, (S.opposite d a b ha hb).mpr hd]
  · have hd' : S.dest d a ≠ b := fun heq => hd ((S.opposite d a b ha hb).mp heq)
    simp [leads, Leg.sentTo, hd, hd']

theorem askedFrom_map (ds : List δ) :
    (ds.map fun d => Leg.recv (S.rv d) (S.src d b)).filterMap (Leg.askedFrom a) =
      (ds.filterMap (S.leads a b)).map S.rv := by
  rw [List.filterMap_map, List.map_filterMap]
  refine List.filterMap_congr fun d _ => ?_
  by_cases hd : S.src d b = a <;> simp [leads, Leg.askedFrom, hd]

theorem askedFrom_sends (ds : List δ) :
    (ds.map fun d => Leg.send (S.sv d) (S.dest d b)).filterMap (Leg.askedFrom a) = [] := by
  rw [List.filterMap_map]
  exact List.filterMap_eq_nil_iff.mpr fun _ _ => rfl

theorem askedFrom_legs (hb : b ∈ ranks) :
    (S.legs b).filterMap (Leg.askedFrom a) = (S.dirs.filterMap (S.leads a b)).map S.rv := by
  rw [legs_of_mem hb, List.filterMap_append, askedFrom_sends, List.nil_append, askedFrom_map]

/-- Nothing is sent from or to a process that takes no part. -/
theorem sentTo_of_not_mem (h : a ∉ ranks ∨ b ∉ ranks) :
    (S.legs a).filterMap (Leg.sentTo b) = [] := by
  by_cases ha : a ∈ ranks
  · refine List.filterMap_eq_nil_iff.mpr fun x hx => ?_
    rw [legs_of_mem ha] at hx
    rcases List.mem_append.mp hx with hx | hx
    · obtain ⟨d, -, rfl⟩ := List.mem_map.mp hx
      refine if_neg fun heq => h.resolve_left (not_not.mpr ha) ?_
      exact heq ▸ S.dest_mem d a ha
    · obtain ⟨d, -, rfl⟩ := List.mem_map.mp hx
      rfl
  · rw [legs_of_not_mem ha]
    rfl

theorem askedFrom_of_not_mem (h : a ∉ ranks ∨ b ∉ ranks) :
    (S.legs b).filterMap (Leg.askedFrom a) = [] := by
  by_cases hb : b ∈ ranks
  · refine List.filterMap_eq_nil_iff.mpr fun x hx => ?_
    rw [legs_of_mem hb] at hx
    rcases List.mem_append.mp hx with hx | hx
    · obtain ⟨d, -, rfl⟩ := List.mem_map.mp hx
      rfl
    · obtain ⟨d, -, rfl⟩ := List.mem_map.mp hx
      refine if_neg fun heq => h.resolve_right (not_not.mpr hb) ?_
      exact heq ▸ S.src_mem d b hb
  · rw [legs_of_not_mem hb]
    rfl

variable (S) in
/-- The exchange as a round, after some work. -/
def round (work : Work α n) : Round α n ranks where
  work := work
  legs := S.legs
  ok p x hx := by
    by_cases hp : p ∈ ranks
    · rw [legs_of_mem hp] at hx
      rcases List.mem_append.mp hx with hx | hx
      · obtain ⟨d, -, rfl⟩ := List.mem_map.mp hx
        exact S.sendable d
      · obtain ⟨d, -, rfl⟩ := List.mem_map.mp hx
        exact S.receivable d
    · rw [legs_of_not_mem hp] at hx
      cases hx
  apart p := by
    by_cases hp : p ∈ ranks
    · rw [legs_of_mem hp, List.pairwise_append]
      refine ⟨?_, ?_, fun x hx y hy _ c hc => ?_⟩
      · rw [List.pairwise_map]
        exact List.pairwise_of_forall fun d e hr => by simp [Leg.isRecv] at hr
      · rw [List.pairwise_map]
        refine S.disjoint.imp ?_
        exact fun {_ _} h _ => h
      · obtain ⟨d, -, rfl⟩ := List.mem_map.mp hx
        obtain ⟨e, -, rfl⟩ := List.mem_map.mp hy
        exact S.apart d e c hc
    · rw [legs_of_not_mem hp]
      exact List.Pairwise.nil
  fits p := by
    by_cases hp : p ∈ ranks
    · rw [legs_of_mem hp]
      simpa using S.fits
    · simp [legs_of_not_mem hp]
  matched a b := by
    by_cases hab : a ∈ ranks ∧ b ∈ ranks
    · rw [sentTo_legs hab.1 hab.2, askedFrom_legs hab.2, List.map_map, List.map_map]
      exact List.map_congr_left fun d _ => S.size d
    · rw [sentTo_of_not_mem (not_and_or.mp hab), askedFrom_of_not_mem (not_and_or.mp hab)]
  silent p hp := legs_of_not_mem hp

section Run

variable {work : Work α n} {heaps : Int → Heap α} {j : Nat} {d : δ}

/-- A send brings nothing; … -/
theorem brings_send (hp : p ∈ ranks) (hj : j < S.dirs.length) :
    (S.round work).brings heaps p j = id := by
  have hleg : (S.legs p)[j]? = some (.send (S.sv S.dirs[j]) (S.dest S.dirs[j] p)) := by
    rw [legs_of_mem hp, List.getElem?_append_left (by simpa using hj), List.getElem?_map,
      List.getElem?_eq_getElem hj]
    rfl
  simp only [Round.brings, Stencil.round, hleg]

/-- … a receive brings the view that the neighbour sends in its direction. -/
theorem brings_recv (hp : p ∈ ranks) (hd : S.dirs[j]? = some d) :
    (S.round work).brings heaps p (S.dirs.length + j) =
      (S.rv d).store ((S.sv d).values (heaps (S.src d p))) := by
  have hleg : (S.legs p)[S.dirs.length + j]? = some (.recv (S.rv d) (S.src d p)) := by
    rw [legs_of_mem hp, List.getElem?_append_right (by simp), List.length_map,
      Nat.add_sub_cancel_left, List.getElem?_map, hd]
    rfl
  -- the receives before it from there are those of the directions before it
  have hbefore : ((S.legs p).take (S.dirs.length + j)).filterMap (Leg.askedFrom (S.src d p)) =
      ((S.dirs.take j).filterMap (S.leads (S.src d p) p)).map S.rv := by
    rw [legs_of_mem hp, List.take_append, List.length_map, Nat.add_sub_cancel_left,
      List.filterMap_append, ← List.map_take, ← List.map_take, askedFrom_sends, List.nil_append,
      askedFrom_map]
  have hnth := Occurrences.getElem?_filterMap_of_getElem? hd
    (show S.leads (S.src d p) p d = some d from if_pos rfl)
  have hsent : ((S.legs (S.src d p)).filterMap (Leg.sentTo p))[
      ((S.dirs.take j).filterMap (S.leads (S.src d p) p)).length]? = some (S.sv d) := by
    rw [sentTo_legs (S.src_mem d p hp) hp, List.getElem?_map, hnth]
    rfl
  simp only [Round.brings, Stencil.round, hleg, hbefore, List.length_map, hsent]

theorem foldl_range_getElem? {β γ : Type} {l : List β} {f : γ → β → γ} {g : γ → Nat → γ}
    (h : ∀ c i x, l[i]? = some x → g c i = f c x) (c : γ) :
    (List.range l.length).foldl g c = l.foldl f c := by
  induction l generalizing c g with
  | nil => rfl
  | cons x l ih =>
    rw [List.length_cons, List.range_succ_eq_map, List.foldl_cons, List.foldl_cons, h c 0 x rfl,
      List.foldl_map]
    exact ih (fun c i y hy => h c (i + 1) y (by simpa using hy)) _

/-- What a process has after the exchange. -/
theorem exchange_eq (hp : p ∈ ranks) : (S.round work).exchange heaps p =
    S.dirs.foldl (fun h d => (S.rv d).store ((S.sv d).values (heaps (S.src d p))) h) (heaps p) := by
  have hlen : (S.legs p).length = S.dirs.length + S.dirs.length := by
    rw [legs_of_mem hp, List.length_append, List.length_map, List.length_map]
  have hsends : ∀ h : Heap α, (List.range S.dirs.length).foldl
      (fun h j => (S.round work).brings heaps p j h) h = h := by
    intro h
    rw [List.foldl_ext _ (fun h _ => h) h fun h j hj => by
      rw [brings_send hp (List.mem_range.mp hj), id]]
    exact List.foldl_fixed _
  rw [Round.exchange]
  show (List.range (S.legs p).length).foldl _ _ = _
  rw [hlen, List.range_add, List.foldl_append, hsends, List.foldl_map]
  exact foldl_range_getElem? (fun h i d hd => by rw [brings_recv hp hd]) _

theorem foldl_store_of_not_mem {ds : List δ} {rv : δ → View} {xs : δ → List α} {c : Cell}
    (hc : ∀ d ∈ ds, c ∉ (rv d).elements) (h : Heap α) :
    ds.foldl (fun h d => (rv d).store (xs d) h) h c = h c := by
  induction ds generalizing h with
  | nil => rfl
  | cons e ds ih =>
    rw [List.foldl_cons, ih fun d hd => hc d (List.mem_cons_of_mem _ hd)]
    exact View.store_of_not_mem (hc e List.mem_cons_self)

theorem values_foldl_store {ds : List δ} {rv : δ → View} (xs : δ → List α)
    (hnd : ∀ d, (rv d).elements.Nodup) (hlen : ∀ d, (xs d).length = (rv d).size)
    (hds : ds.Pairwise fun d e => ∀ c ∈ (rv d).elements, c ∉ (rv e).elements) (hd : d ∈ ds)
    (h : Heap α) :
    (rv d).values (ds.foldl (fun h d => (rv d).store (xs d) h) h) = xs d := by
  induction ds generalizing h with
  | nil => cases hd
  | cons e ds ih =>
    obtain ⟨he, hds⟩ := List.pairwise_cons.mp hds
    rw [List.foldl_cons]
    by_cases hmem : d ∈ ds
    · exact ih hds hmem _
    · obtain rfl := (List.mem_cons.mp hd).resolve_right hmem
      rw [View.values_congr fun c hc => foldl_store_of_not_mem (fun f hf => he f hf c hc) _]
      exact View.values_store (hnd d) (hlen d)

/-- What was sent in a direction has been received. -/
theorem values_exchange (work : Work α n) (heaps : Int → Heap α) (hp : p ∈ ranks)
    (hd : d ∈ S.dirs) :
    (S.rv d).values ((S.round work).exchange heaps p) =
      (S.sv d).values (heaps (S.src d p)) := by
  rw [exchange_eq hp]
  exact values_foldl_store (fun d => (S.sv d).values (heaps (S.src d p)))
    (fun d => (S.receivable d).distinct) (fun d => by rw [View.length_values, S.size])
    S.disjoint hd _

/-- Nothing else has changed. -/
theorem exchange_of_not_mem {c : Cell} (hc : ∀ d ∈ S.dirs, c ∉ (S.rv d).elements) :
    (S.round work).exchange heaps p c = heaps p c := by
  by_cases hp : p ∈ ranks
  · rw [exchange_eq hp]
    exact foldl_store_of_not_mem hc _
  · have hnone : (S.round work).legs p = [] := legs_of_not_mem hp
    rw [Round.exchange, hnone]
    rfl

end Run

end Stencil

end KokkosComm.Mpi.Messaging
