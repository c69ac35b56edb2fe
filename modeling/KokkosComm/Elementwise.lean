/-
KokkosComm.Elementwise — reductions over views, index by index.

A member of a collective has a send view and a receive view, in any memory
order. What a routine of the library makes of them is a `Party` of the
collective, or the end of the process; `runCollective` is the whole
collective, from the memories of the members to their memories after
completion. `ReducesElementwise` is what it is for: element `i` of each
receive view is the reduction of the elements `i` of all send views.

§2 is how a view arrives (`Delivered`), directly or unpacked. §3 is about
members whose elements travel in known orders (`Wired`): a collective is
element-wise if all elements travel, in orders that agree with those of
the receive views (`elementwise_of_orders`), and it is not, for some
operator and memories, if an element is left out
(`not_elementwise_of_count`) or two orders differ
(`not_elementwise_of_order`).
-/
import KokkosComm.Foundation.Reduction
import KokkosComm.View

namespace KokkosComm

open MultiIndex Reduction

variable {α : Type}

/-! ## §1 Collectives over views -/

/-- The views of a member of a collective, and its next fresh allocation. -/
structure Member where
  sv : View
  rv : View
  nextAlloc : AllocId

/-- The elements with index `i` of all send views. -/
def contributions (members : List Member) (memory : Nat → Heap α) (i : List Nat) : List α :=
  members.mapIdx fun r m => memory r (m.sv.cell i)

/-- The collective that member `r` takes part in as `party r`. -/
def runCollective (party : Nat → Member → Heap α → Outcome (Party Cell α))
    (receives : Nat → Bool) {op : α → α → α} (c : Combiner op) (members : List Member)
    (memory : Nat → Heap α) : Outcome (List (Heap α)) := do
  let parties ← Outcome.all (members.mapIdx fun r m => party r m (memory r))
  collect c receives parties

/-- Element `i` of the receive view is the reduction of the elements `i` of
the send views, for every member that receives and every index. -/
def ReducesElementwise (op : α → α → α) (receives : Nat → Bool) (members : List Member)
    (memory : Nat → Heap α) (heaps : List (Heap α)) : Prop :=
  ∀ q m, members[q]? = some m → receives q = true →
    ∃ h, heaps[q]? = some h ∧ ∀ i, Valid m.rv.extents i →
      reduction op (contributions members memory i) = some (h (m.rv.cell i))

/-! ## §2 How a view arrives -/

/-- How the elements of a view travel: in what order, and whether they are
left where they are or go through a packed view. -/
structure Route where
  order : List (List Nat)
  direct : Bool

/-- Contiguous views go directly, in their memory order, others packed. -/
def View.route (v : View) : Route :=
  if v.isContiguous then { order := v.memoryIndices, direct := true }
  else { order := v.arrayLayout.indices v.extents, direct := false }

theorem View.enumerates_route (v : View) : Enumerates v.route.order v.extents := by
  unfold View.route
  split
  · exact v.enumerates_memoryIndices
  · exact v.arrayLayout.enumerates_indices v.extents

/-- The view whose data handle is passed for a send view: itself, or one
packed in the allocation `a`. -/
def View.handed (a : AllocId) (v : View) : View :=
  if v.isContiguous then v else v.contiguousView a

/-- The heap after the packing, if there is any. -/
def Heap.handed (a : AllocId) (v : View) (h : Heap α) : Heap α :=
  if v.isContiguous then h else h.deepCopy (v.contiguousView a) v

section Handed

variable {v : View} (a : AllocId)

theorem View.handed_of_contiguous (hc : v.isContiguous = true) : v.handed a = v := if_pos hc

theorem View.handed_of_packed (hc : v.isContiguous = false) :
    v.handed a = v.contiguousView a := by simp [View.handed, hc]

theorem Heap.handed_of_contiguous (hc : v.isContiguous = true) (h : Heap α) :
    h.handed a v = h := if_pos hc

theorem Heap.handed_of_packed (hc : v.isContiguous = false) (h : Heap α) :
    h.handed a v = h.deepCopy (v.contiguousView a) v := by simp [Heap.handed, hc]

end Handed

theorem Heap.handed_of_ne {a : AllocId} (v : View) (h : Heap α) {c : Cell} (hc : c.1 ≠ a) :
    h.handed a v c = h c := by
  unfold Heap.handed
  split
  · rfl
  · refine Heap.deepCopy_of_not_elem h ?_
    rintro ⟨i, -, rfl⟩
    exact hc rfl

/-- The first elements behind the data handle are those of the view, in the
order in which they travel. -/
theorem Heap.gather_handed {v : View} (hnd : v.isContiguous = true → v.elements.Nodup)
    (a : AllocId) {n : Nat} (hn : n ≤ v.size) (h : Heap α) :
    Memory.gather (h.handed a v) ((v.handed a).buffer n) =
      (v.route.order.map fun i => h (v.cell i)).take n := by
  by_cases hc : v.isContiguous = true
  · simp only [Heap.handed, View.handed, View.route, if_pos hc]
    exact Heap.gather_buffer (View.map_offset_memoryIndices (hnd hc) hc) hn h
  · simp only [Heap.handed, View.handed, View.route, if_neg hc]
    have hpacked := View.map_offset_contiguousView a v
    rw [Heap.gather_buffer (v := v.contiguousView a) hpacked hn]
    refine congrArg _ (List.map_congr_left fun i hi => ?_)
    exact Heap.deepCopy_cell h (View.nodup_cells (View.ordered_contiguousView a v) _)
      ((Layout.mem_indices _).mp hi)

/-- The heap `h'` after `xs` arrived in `rv`: past the end of `xs`, the view
has what was there before, or in an allocation newer than `alloc` if it was
unpacked. -/
structure Delivered (w : Route) (rv : View) (alloc : AllocId) (h : Heap α) (xs : List α)
    (h' : Heap α) : Prop where
  enumerates : Enumerates w.order rv.extents
  element : ∀ (k : Nat) i x, w.order[k]? = some i → xs[k]? = some x → h' (rv.cell i) = x
  rest : ∀ (k : Nat) i, w.order[k]? = some i → xs.length ≤ k →
    ∃ c, (w.direct = true ∧ c = rv.cell i ∨ alloc ≤ c.1) ∧ h' (rv.cell i) = h c
  frame : ∀ c : Cell, ¬ rv.Elem c → c.1 < alloc → h' c = h c

section Arrival

variable {rv : View} {alloc a : AllocId} {n : Nat} {h m : Heap α} {xs : List α}

/-- A dense view is the buffer itself. -/
theorem delivered_direct {order : List (List Nat)} (he : Enumerates order rv.extents)
    (hdense : order.map (offset rv.strides) = List.range rv.size) (hold : rv.alloc < alloc)
    (hn : n ≤ rv.size) (hlen : xs.length ≤ n) (hm : ∀ c : Cell, c.1 < alloc → m c = h c) :
    Delivered { order := order, direct := true } rv alloc h xs
      (Memory.scatter m (rv.buffer n) xs) where
  enumerates := he
  element k i x hi hx := by
    rw [Heap.scatter_buffer_cell hdense hlen m hi, hx]
    rfl
  rest k i hi hk := by
    refine ⟨rv.cell i, .inl ⟨rfl, rfl⟩, ?_⟩
    rw [Heap.scatter_buffer_cell hdense hlen m hi, List.getElem?_eq_none hk]
    exact hm _ hold
  frame c hc hlt := (Heap.scatter_buffer_of_not_elem he hdense hn m xs hc).trans (hm c hlt)

/-- A packed view is the buffer, and is copied by index. -/
theorem delivered_packed (hnd : rv.elements.Nodup) (ha : alloc ≤ a) (hn : n ≤ rv.size)
    (hlen : xs.length ≤ n) (hm : ∀ c : Cell, c.1 < alloc ∨ c.1 = a → m c = h c) :
    Delivered { order := rv.arrayLayout.indices rv.extents, direct := false } rv alloc h xs
      (Heap.deepCopy (Memory.scatter m ((rv.contiguousView a).buffer n) xs) rv
        (rv.contiguousView a)) := by
  have hdense := View.map_offset_contiguousView a rv
  have he := rv.arrayLayout.enumerates_indices rv.extents
  have hwritten : ∀ (k : Nat) i, (rv.arrayLayout.indices rv.extents)[k]? = some i →
      Heap.deepCopy (Memory.scatter m ((rv.contiguousView a).buffer n) xs) rv
        (rv.contiguousView a) (rv.cell i) = xs[k]?.getD (m ((rv.contiguousView a).cell i)) := by
    intro k i hi
    have hvalid : Valid rv.extents i := (Layout.mem_indices _).mp (List.mem_of_getElem? hi)
    rw [Heap.deepCopy_cell _ hnd hvalid]
    exact Heap.scatter_buffer_cell (v := rv.contiguousView a) hdense hlen m hi
  constructor
  · exact he
  · intro k i x hi hx
    rw [hwritten k i hi, hx]
    rfl
  · intro k i hi hk
    refine ⟨(rv.contiguousView a).cell i, .inr ha, ?_⟩
    rw [hwritten k i hi, List.getElem?_eq_none hk]
    exact hm _ (.inr rfl)
  · intro c hc hlt
    rw [Heap.deepCopy_of_not_elem _ hc, ← hm c (.inl hlt)]
    refine Heap.scatter_buffer_of_not_elem (v := rv.contiguousView a) he hdense hn m xs ?_
    rintro ⟨i, -, rfl⟩
    exact Nat.not_lt.mpr ha hlt

/-- The allocation of a packed receive view: a packed send view comes
before it. -/
def Member.recvAlloc (m : Member) : AllocId :=
  if m.sv.isContiguous then m.nextAlloc else m.nextAlloc + 1

theorem Member.recvAlloc_of_contiguous {m : Member} (hc : m.sv.isContiguous = true) :
    m.recvAlloc = m.nextAlloc := if_pos hc

theorem Member.recvAlloc_of_packed {m : Member} (hc : m.sv.isContiguous = false) :
    m.recvAlloc = m.nextAlloc + 1 := by simp [Member.recvAlloc, hc]

theorem Member.nextAlloc_le_recvAlloc (m : Member) : m.nextAlloc ≤ m.recvAlloc := by
  unfold recvAlloc
  split
  · exact Nat.le_refl _
  · exact Nat.le_succ _

/-- Packing the send view changes no old cell, and none of the packed
receive view. -/
theorem Member.handed_of_old (m : Member) (h : Heap α) {c : Cell}
    (hc : c.1 < m.nextAlloc ∨ c.1 = m.recvAlloc) : h.handed m.nextAlloc m.sv c = h c := by
  by_cases hcont : m.sv.isContiguous = true
  · rw [Heap.handed, if_pos hcont]
  · rw [recvAlloc, if_neg hcont] at hc
    refine Heap.handed_of_ne _ _ fun heq => ?_
    rcases hc with hc | hc
    · exact Nat.lt_irrefl _ (heq ▸ hc)
    · exact Nat.succ_ne_self _ (hc.symm.trans heq)

/-- A party that sends the first `count` elements of the send view, and
receives as many into the receive view directly, or into a packed view that
is unpacked at completion. -/
structure Exchanges (m : Member) (h : Heap α) (count : Nat) (direct : Bool) (p : Party Cell α) :
    Prop where
  memory : p.memory = h.handed m.nextAlloc m.sv
  sendbuf : p.sendbuf = (m.sv.handed m.nextAlloc).buffer count
  recvbuf : p.recvbuf = (if direct then m.rv else m.rv.contiguousView m.recvAlloc).buffer count
  complete : ∀ h', p.complete h' =
    if direct then h' else Heap.deepCopy h' m.rv (m.rv.contiguousView m.recvAlloc)

namespace Exchanges

variable {member : Member} {count : Nat} {direct : Bool} {p : Party Cell α}

theorem message (hp : Exchanges member h count direct p)
    (hnd : member.sv.isContiguous = true → member.sv.elements.Nodup)
    (hn : count ≤ member.sv.size) :
    p.message = (member.sv.route.order.map fun i => h (member.sv.cell i)).take count := by
  rw [Party.message, hp.memory, hp.sendbuf]
  exact Heap.gather_handed hnd _ hn h

/-- A receive view that arrives directly if it is contiguous. -/
theorem received (hp : Exchanges member h count member.rv.isContiguous p)
    (hnd : member.rv.elements.Nodup) (hold : member.rv.alloc < member.nextAlloc)
    (hn : count ≤ member.rv.size) (hlen : xs.length = count) :
    Delivered member.rv.route member.rv member.nextAlloc h xs (p.received xs) := by
  rw [Party.received, hp.complete, hp.recvbuf, hp.memory]
  cases hc : member.rv.isContiguous with
  | true =>
    simp only [View.route, hc, if_true]
    exact delivered_direct member.rv.enumerates_memoryIndices
      (View.map_offset_memoryIndices hnd hc) hold hn hlen.le fun c hlt =>
        member.handed_of_old h (.inl hlt)
  | false =>
    simp only [View.route, hc, Bool.false_eq_true, if_false]
    exact delivered_packed hnd member.nextAlloc_le_recvAlloc hn hlen.le fun c hlt =>
      member.handed_of_old h hlt

theorem received_packed (hp : Exchanges member h count false p)
    (hnd : member.rv.elements.Nodup) (hn : count ≤ member.rv.size) (hlen : xs.length = count) :
    Delivered { order := member.rv.arrayLayout.indices member.rv.extents, direct := false }
      member.rv member.nextAlloc h xs (p.received xs) := by
  rw [Party.received, hp.complete, if_neg Bool.false_ne_true, hp.recvbuf,
    if_neg Bool.false_ne_true, hp.memory]
  exact delivered_packed hnd member.nextAlloc_le_recvAlloc hn hlen.le fun c hc =>
    member.handed_of_old h hc

theorem idle_direct (hp : Exchanges member h count true p) {c : Cell}
    (hc : c.1 < member.nextAlloc) : p.idle c = h c := by
  rw [Party.idle, hp.complete, if_pos rfl, hp.memory]
  exact member.handed_of_old h (.inl hc)

end Exchanges

/-- What arrives at an index is the reduction of what was sent at its
place. -/
theorem Delivered.reduction_eq {op : α → α → α} [Std.Associative op] {c : Combiner op}
    {w : Route} {sent : List (List α)} {h' : Heap α}
    (hd : Delivered w rv alloc h (c.combineAll sent n) h') {k : Nat} (hk : k < n) {i : List Nat}
    (hi : w.order[k]? = some i) (hne : column sent k ≠ []) :
    reduction op (column sent k) = some (h' (rv.cell i)) := by
  rw [hd.element k i _ hi (combineAll_getElem? c hk)]
  exact c.combine_eq k hne

end Arrival

/-! ## §3 Orders and counts -/

/-- Every member takes part: it sends its first `n` elements in the order
`sendOrder`, and `n` elements arrive by `recvRoute` if it receives. -/
def Wired (party : Nat → Member → Heap α → Outcome (Party Cell α)) (receives : Nat → Bool)
    (sendOrder : Member → List (List Nat)) (recvRoute : Member → Route) (n : Nat)
    (members : List Member) (memory : Nat → Heap α) : Prop :=
  ∀ r m, members[r]? = some m → ∃ p, party r m (memory r) = .returns p ∧
    p.sendbuf.length = n ∧
    p.message = ((sendOrder m).map fun i => memory r (m.sv.cell i)).take n ∧
    (receives r = true → ∀ xs, xs.length = n →
      Delivered (recvRoute m) m.rv m.nextAlloc (memory r) xs (p.received xs))

section Runs

variable {party : Nat → Member → Heap α → Outcome (Party Cell α)} {receives : Nat → Bool}
  {sendOrder : Member → List (List Nat)} {recvRoute : Member → Route} {n : Nat}
  {members : List Member} {memory : Nat → Heap α} {op : α → α → α}

/-- Members that exchange their views, each by its route. -/
theorem wired_of_exchanges (hparty : ∀ r m, members[r]? = some m → ∃ p direct,
      party r m (memory r) = .returns p ∧ Exchanges m (memory r) n direct p ∧
        (receives r = true → direct = m.rv.isContiguous))
    (hsend : ∀ m ∈ members, n ≤ m.sv.size ∧ (m.sv.isContiguous = true → m.sv.elements.Nodup))
    (hrecv : ∀ r m, members[r]? = some m → receives r = true →
      n ≤ m.rv.size ∧ m.rv.elements.Nodup ∧ m.rv.alloc < m.nextAlloc) :
    Wired party receives (fun m => m.sv.route.order) (fun m => m.rv.route) n members memory := by
  intro r m hm
  obtain ⟨p, direct, hp, hexchanges, hdirect⟩ := hparty r m hm
  obtain ⟨hsize, hnd⟩ := hsend m (List.mem_of_getElem? hm)
  refine ⟨p, hp, ?_, hexchanges.message hnd hsize, fun hr xs hxs => ?_⟩
  · rw [hexchanges.sendbuf, View.length_buffer]
  · obtain ⟨hsize', hnd', hold⟩ := hrecv r m hm hr
    rw [hdirect hr] at hexchanges
    exact hexchanges.received hnd' hold hsize' hxs

/-- What the members send. -/
def messages (sendOrder : Member → List (List Nat)) (n : Nat) (members : List Member)
    (memory : Nat → Heap α) : List (List α) :=
  members.mapIdx fun r m => ((sendOrder m).map fun i => memory r (m.sv.cell i)).take n

/-- When no member ends its process, they are parties of the collective. -/
theorem exists_parties
    (h : ∀ r m, members[r]? = some m → ∃ p, party r m (memory r) = .returns p) :
    ∃ parties, Outcome.all (members.mapIdx fun r m => party r m (memory r)) = .returns parties ∧
      parties.length = members.length ∧
      ∀ r m, members[r]? = some m → ∃ p, parties[r]? = some p ∧
        party r m (memory r) = .returns p := by
  have hreturns : ∀ x ∈ members.mapIdx fun r m => party r m (memory r), ∃ p, x = .returns p := by
    intro x hx
    obtain ⟨r, hr, rfl⟩ := List.mem_mapIdx.mp hx
    exact h r _ (List.getElem?_eq_getElem hr)
  obtain ⟨parties, hall, hparties⟩ := Outcome.all_returns hreturns
  refine ⟨parties, hall, ?_, fun r m hm => ?_⟩
  · have hlength := congrArg List.length hparties
    simpa using hlength.symm
  · have hget := congrArg (fun l => l[r]?) hparties
    simp only [List.getElem?_mapIdx, hm, Option.map_some, List.getElem?_map] at hget
    obtain ⟨p, hp, heq⟩ := Option.map_eq_some_iff.mp hget.symm
    exact ⟨p, hp, heq.symm⟩

/-- The collective returns, and every member that receives gets the
messages combined. -/
theorem runCollective_returns (hw : Wired party receives sendOrder recvRoute n members memory)
    (hne : members ≠ []) (c : Combiner op) :
    ∃ heaps, runCollective party receives c members memory = .returns heaps ∧
      ∀ q m, members[q]? = some m → ∃ h p, heaps[q]? = some h ∧
        party q m (memory q) = .returns p ∧
        (receives q = true → Delivered (recvRoute m) m.rv m.nextAlloc (memory q)
          (c.combineAll (messages sendOrder n members memory) n) h) ∧
        (receives q = false → h = p.idle) := by
  obtain ⟨parties, hall, hlen, hget⟩ := exists_parties fun r m hm => by
    obtain ⟨p, hp, _⟩ := hw r m hm
    exact ⟨p, hp⟩
  have hwired : ∀ r m p, members[r]? = some m → parties[r]? = some p →
      p.sendbuf.length = n ∧
      p.message = ((sendOrder m).map fun i => memory r (m.sv.cell i)).take n ∧
      (receives r = true → ∀ xs, xs.length = n →
        Delivered (recvRoute m) m.rv m.nextAlloc (memory r) xs (p.received xs)) := by
    intro r m p hm hp
    obtain ⟨p₁, hp₁, hparty₁⟩ := hget r m hm
    obtain ⟨p₂, hparty₂, hwire⟩ := hw r m hm
    cases hp.symm.trans hp₁
    cases hparty₁.symm.trans hparty₂
    exact hwire
  have hmember : ∀ (r : Nat) p, parties[r]? = some p → ∃ m, members[r]? = some m := by
    intro r p hp
    obtain ⟨hr, _⟩ := List.getElem?_eq_some_iff.mp hp
    exact ⟨_, List.getElem?_eq_getElem (by omega)⟩
  have hmessages : parties.map Party.message = messages sendOrder n members memory := by
    refine List.ext_getElem? fun r => ?_
    rw [List.getElem?_map, messages, List.getElem?_mapIdx]
    cases hm : members[r]? with
    | none =>
      have hr := List.getElem?_eq_none_iff.mp hm
      rw [List.getElem?_eq_none (by omega)]
      rfl
    | some m =>
      obtain ⟨p, hp, _⟩ := hget r m hm
      rw [hp, Option.map_some, (hwired r m p hm hp).2.1]
      rfl
  have hcount : ∀ p ∈ parties, p.sendbuf.length = n := by
    intro p hp
    obtain ⟨r, hr⟩ := List.mem_iff_getElem?.mp hp
    obtain ⟨m, hm⟩ := hmember r p hr
    exact (hwired r m p hm hr).1
  have hparties : parties ≠ [] := by
    intro h
    rw [h] at hlen
    exact hne (List.length_eq_zero_iff.mp hlen.symm)
  refine ⟨_, by rw [runCollective, hall, Outcome.returns_bind, collect_of_count hparties hcount],
    fun q m hm => ?_⟩
  obtain ⟨p, hp, hparty⟩ := hget q m hm
  refine ⟨_, p, by rw [List.getElem?_mapIdx, hp, Option.map_some], hparty, fun hq => ?_,
    fun hq => ?_⟩
  · rw [if_pos hq, hmessages]
    exact (hwired q m p hm hp).2.2 hq _ (length_combineAll c)
  · rw [if_neg (by simp [hq])]

/-- The elements that meet are those at place `k` of the send orders. -/
theorem column_messages {k : Nat} (hk : k < n) {i : Member → List Nat}
    (hi : ∀ m ∈ members, (sendOrder m)[k]? = some (i m)) :
    column (messages sendOrder n members memory) k =
      members.mapIdx fun r m => memory r (m.sv.cell (i m)) := by
  refine column_eq (List.ext_getElem? fun r => ?_)
  simp only [messages, List.getElem?_map, List.getElem?_mapIdx, Option.map_map]
  cases hm : members[r]? with
  | none => rfl
  | some m => simp [List.getElem?_take_of_lt hk, hi m (List.mem_of_getElem? hm)]

/-- A member has undefined behaviour, and none ends its process. -/
theorem runCollective_undefined {r : Nat} {m : Member} (hm : members[r]? = some m)
    (hundefined : party r m (memory r) = .undefined)
    (hall : ∀ r m, party r m (memory r) = .undefined ∨ ∃ p, party r m (memory r) = .returns p)
    (c : Combiner op) : runCollective party receives c members memory = .undefined := by
  have hends : ∀ x ∈ members.mapIdx fun r m => party r m (memory r),
      x = .undefined ∨ ∃ p, x = .returns p := by
    intro x hx
    obtain ⟨r, hr, rfl⟩ := List.mem_mapIdx.mp hx
    exact hall r _
  have hmem : Outcome.undefined ∈ members.mapIdx fun r m => party r m (memory r) := by
    obtain ⟨hr, rfl⟩ := List.getElem?_eq_some_iff.mp hm
    exact List.mem_mapIdx.mpr ⟨r, hr, hundefined⟩
  rcases Outcome.all_cases (members.mapIdx fun r m => party r m (memory r)) with
    ⟨parties, _, hreturns⟩ | ⟨_, hblocks⟩ | ⟨_, haborts⟩ | ⟨h, _⟩
  · rw [hreturns] at hmem
    simp at hmem
  · simpa using hends _ hblocks
  · simpa using hends _ haborts
  · rw [runCollective, h]
    rfl

/-- Members that all end their processes. -/
theorem runCollective_aborts (hne : members ≠ [])
    (h : ∀ m ∈ members, party 0 m (memory 0) = .aborts) (c : Combiner op) :
    runCollective party receives c members memory = .aborts := by
  cases members with
  | nil => exact absurd rfl hne
  | cons m ms =>
    rw [runCollective, List.mapIdx_cons, Outcome.all, h m (by simp)]
    rfl

/-- Two members with different counts. -/
theorem runCollective_of_counts {r₁ r₂ : Nat} {m₁ m₂ : Member} {p₁ p₂ : Party Cell α}
    (hreturns : ∀ r m, members[r]? = some m → ∃ p, party r m (memory r) = .returns p)
    (hm₁ : members[r₁]? = some m₁) (hp₁ : party r₁ m₁ (memory r₁) = .returns p₁)
    (hm₂ : members[r₂]? = some m₂) (hp₂ : party r₂ m₂ (memory r₂) = .returns p₂)
    (hne : p₁.sendbuf.length ≠ p₂.sendbuf.length) (c : Combiner op) :
    runCollective party receives c members memory = .undefined := by
  obtain ⟨parties, hall, _, hget⟩ := exists_parties hreturns
  have hmem : ∀ {r m p}, members[r]? = some m → party r m (memory r) = .returns p →
      p ∈ parties := by
    intro r m p hm hp
    obtain ⟨p', hp', hparty⟩ := hget r m hm
    cases hp.symm.trans hparty
    exact List.mem_of_getElem? hp'
  rw [runCollective, hall]
  exact collect_undefined (hmem hm₁ hp₁) (hmem hm₂ hp₂) hne

theorem contributions_ne_nil (hne : members ≠ []) (i : List Nat) :
    contributions members memory i ≠ [] := by
  simpa [contributions] using hne

/-- All elements travel, in orders that agree with those in which they
arrive. -/
theorem elementwise_of_orders [Std.Associative op]
    (hw : Wired party receives sendOrder recvRoute n members memory) (hne : members ≠ [])
    (hagree : ∀ q m', members[q]? = some m' → receives q = true → m'.rv.size ≤ n ∧
      ∀ m ∈ members, sendOrder m = (recvRoute m').order) (c : Combiner op) :
    (runCollective party receives c members memory).Meets
      (ReducesElementwise op receives members memory) := by
  obtain ⟨heaps, hrun, hheaps⟩ := runCollective_returns hw hne c
  rw [hrun]
  intro q m' hm' hq
  obtain ⟨h, _, hh, _, hdelivered, _⟩ := hheaps q m' hm'
  obtain ⟨hsize, horders⟩ := hagree q m' hm' hq
  refine ⟨h, hh, fun i hi => ?_⟩
  have he := (hdelivered hq).enumerates
  obtain ⟨k, hk⟩ := List.mem_iff_getElem?.mp (he.mem_iff.mpr hi)
  have hlt : k < n := by
    have hk' := (List.getElem?_eq_some_iff.mp hk).1
    rw [he.length_eq] at hk'
    exact Nat.lt_of_lt_of_le hk' hsize
  have hcolumn : column (messages sendOrder n members memory) k =
      contributions members memory i :=
    column_messages hlt fun m hm => by rw [horders m hm]; exact hk
  rw [← hcolumn]
  refine (hdelivered hq).reduction_eq hlt hk ?_
  rw [hcolumn]
  exact contributions_ne_nil hne i

end Runs

section Counterexamples

variable {party : Nat → Member → Heap α → Outcome (Party Cell α)} {receives : Nat → Bool}
  {sendOrder : Member → List (List Nat)} {recvRoute : Member → Route} {n : Nat}
  {members : List Member} {q r : Nat} {m m' : Member}

/-- The collective is element-wise for every operator, grouping and
memory. -/
def AlwaysElementwise (α : Type) (party : Nat → Member → Heap α → Outcome (Party Cell α))
    (receives : Nat → Bool) (members : List Member) : Prop :=
  ∀ (op : α → α → α) [Std.Associative op] (c : Combiner op) (memory : Nat → Heap α),
    (runCollective party receives c members memory).Meets
      (ReducesElementwise op receives members memory)

/-- The collective has undefined behaviour. -/
theorem not_elementwise_of_undefined [Nonempty α]
    (h : ∀ (op : α → α → α) (c : Combiner op) memory,
      runCollective party receives c members memory = .undefined) :
    ¬ AlwaysElementwise α party receives members := by
  classical
  intro hall
  obtain ⟨x⟩ := ‹Nonempty α›
  have hmeets := hall (firstNot x) (Combiner.leftToRight (firstNot x) x) fun _ _ => x
  rw [h] at hmeets
  exact hmeets

/-- At some index all contributions are `x`, and another value arrives. -/
theorem not_elementwise_of_value [DecidableEq α] {x y : α} (hxy : x ≠ y)
    {memory : Nat → Heap α} {heaps : List (Heap α)} {h : Heap α}
    (hrun : runCollective party receives (Combiner.leftToRight (firstNot x) x) members memory =
      .returns heaps)
    (hm : members[q]? = some m) (hq : receives q = true) (hh : heaps[q]? = some h) {j : List Nat}
    (hj : Valid m.rv.extents j) (hx : ∀ z ∈ contributions members memory j, z = x)
    (hy : h (m.rv.cell j) = y) : ¬ AlwaysElementwise α party receives members := by
  intro hall
  have hne : members ≠ [] := List.ne_nil_of_mem (List.mem_of_getElem? hm)
  have hmeets := hall (firstNot x) (Combiner.leftToRight (firstNot x) x) memory
  rw [hrun] at hmeets
  obtain ⟨h', hh', hreduced⟩ := hmeets q m hm hq
  cases hh.symm.trans hh'
  have hreduced := hreduced j hj
  rw [reduction_firstNot (contributions_ne_nil hne _) hx, hy] at hreduced
  exact hxy (Option.some.inj hreduced)

/-- An element that does not arrive. -/
theorem not_elementwise_of_count [Nontrivial α]
    (hw : ∀ memory, Wired party receives sendOrder recvRoute n members memory)
    (hm : members[q]? = some m) (hq : receives q = true) (hn : n < m.rv.size)
    (hext : m.rv.extents = m.sv.extents) (hold : m.sv.alloc < m.nextAlloc)
    (hdisj : (recvRoute m).direct = true → ∀ c, m.sv.Elem c → ¬ m.rv.Elem c) :
    ¬ AlwaysElementwise α party receives members := by
  classical
  obtain ⟨x, y, hxy⟩ := exists_pair_ne α
  have hne : members ≠ [] := List.ne_nil_of_mem (List.mem_of_getElem? hm)
  -- all elements that are sent are `x`, all other cells of the receiver `y`
  let memory : Nat → Heap α := fun r c => if r = q ∧ ¬ m.sv.Elem c then y else x
  obtain ⟨heaps, hrun, hheaps⟩ :=
    runCollective_returns (hw memory) hne (Combiner.leftToRight (firstNot x) x)
  obtain ⟨h, _, hh, _, hdelivered, _⟩ := hheaps q m hm
  obtain ⟨j, hj⟩ := (hdelivered hq).enumerates.exists_getElem? hn
  have hvalid := (hdelivered hq).enumerates.mem_iff.mp (List.mem_of_getElem? hj)
  refine not_elementwise_of_value hxy hrun hm hq hh hvalid (fun z hz => ?_) ?_
  · obtain ⟨r, hr, rfl⟩ := List.mem_mapIdx.mp hz
    refine if_neg ?_
    rintro ⟨rfl, hnot⟩
    obtain ⟨_, heq⟩ := List.getElem?_eq_some_iff.mp hm
    rw [heq] at hnot
    exact hnot ⟨_, hext ▸ hvalid, rfl⟩
  · -- what the view has there was not sent
    obtain ⟨c, hc, hrest⟩ := (hdelivered hq).rest n j hj (by simp)
    have hnot : ¬ m.sv.Elem c := by
      intro helem
      rcases hc with ⟨hdirect, rfl⟩ | hnew
      · exact hdisj hdirect _ helem ⟨_, hvalid, rfl⟩
      · obtain ⟨i, -, rfl⟩ := helem
        exact Nat.not_lt.mpr hnew hold
    rw [hrest]
    exact if_pos ⟨rfl, hnot⟩

/-- Two orders that differ. -/
theorem not_elementwise_of_order [Nontrivial α]
    (hw : ∀ memory, Wired party receives sendOrder recvRoute n members memory)
    {exts : List Nat} (hexts : ∀ m ∈ members, m.sv.extents = exts) (hn : exts.prod ≤ n)
    (hsend : ∀ m ∈ members, Enumerates (sendOrder m) exts)
    (hm : members[r]? = some m) (hnd : m.sv.elements.Nodup)
    (hm' : members[q]? = some m') (hq : receives q = true) (hext' : m'.rv.extents = exts)
    (hrecv : Enumerates (recvRoute m').order exts)
    (hdiff : sendOrder m ≠ (recvRoute m').order) :
    ¬ AlwaysElementwise α party receives members := by
  classical
  obtain ⟨x, y, hxy⟩ := exists_pair_ne α
  have hmem := List.mem_of_getElem? hm
  have hne : members ≠ [] := List.ne_nil_of_mem hmem
  have hmsv := hexts m hmem
  -- at some place the index `i` is sent and another index `j` arrives
  obtain ⟨k, hlt, hk⟩ := (hsend m hmem).exists_ne hrecv hdiff
  choose! i hi using fun m hm => (hsend m hm).exists_getElem? hlt
  obtain ⟨j, hj⟩ := hrecv.exists_getElem? hlt
  have hvalid_i := (hsend m hmem).mem_iff.mp (List.mem_of_getElem? (hi m hmem))
  have hvalid_j := hrecv.mem_iff.mp (List.mem_of_getElem? hj)
  have hij : i m ≠ j := by
    intro heq
    exact hk (by rw [hi m hmem, hj, heq])
  -- one element is `y`, all others are `x`
  let memory : Nat → Heap α := fun r' c => if r' = r ∧ c = m.sv.cell (i m) then y else x
  obtain ⟨heaps, hrun, hheaps⟩ :=
    runCollective_returns (hw memory) hne (Combiner.leftToRight (firstNot x) x)
  obtain ⟨h, _, hh, _, hdelivered, _⟩ := hheaps q m' hm'
  refine not_elementwise_of_value hxy hrun hm' hq hh (hext'.symm ▸ hvalid_j) (fun z hz => ?_) ?_
  · -- the contributions at index `j` are `x`, since `y` has another index
    obtain ⟨r', hr', rfl⟩ := List.mem_mapIdx.mp hz
    refine if_neg ?_
    rintro ⟨rfl, hcell⟩
    obtain ⟨_, rfl⟩ := List.getElem?_eq_some_iff.mp hm
    exact hij (View.cell_injective_of_nodup hnd (hmsv ▸ hvalid_i) (hmsv ▸ hvalid_j) hcell.symm)
  · -- and what arrives at index `j` is `y`
    have hkn := Nat.lt_of_lt_of_le hlt hn
    have hcolumn : column (messages sendOrder n members memory) k =
        members.mapIdx fun r m => memory r (m.sv.cell (i m)) := column_messages hkn hi
    have hy : reduction (firstNot x) (column (messages sendOrder n members memory) k) =
        some y := by
      rw [hcolumn]
      refine reduction_of_one (firstNot_left x) (firstNot_right x) (k := r) ?_ ?_
      · rw [List.getElem?_mapIdx, hm]
        exact congrArg some (if_pos ⟨rfl, rfl⟩)
      · intro r' z hr' hz
        rw [List.getElem?_mapIdx] at hz
        obtain ⟨m₁, _, rfl⟩ := Option.map_eq_some_iff.mp hz
        exact if_neg fun h => hr' h.1
    have harrives := (hdelivered hq).reduction_eq hkn hj (by
      rw [hcolumn]
      simpa using hne)
    exact Option.some.inj (harrives.symm.trans hy)

end Counterexamples

end KokkosComm
