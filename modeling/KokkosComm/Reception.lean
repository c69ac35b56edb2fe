/-
KokkosComm.Reception — the memory of a receive, whatever the backend.

A receive hands a buffer to the transport: the view itself if it is
contiguous, else a packed view in a fresh allocation `a`, and registers a
callback that unpacks it. Nobody connects the two: the callback runs when
the request is reported complete, whether a message came or not.

`Buffered` says that a message is behind the data handle that was passed,
`View.Holds` that it is in the view. Callbacks that only unpack the view or
leave it alone (`KeepsMessage`) keep both, and the first unpacking turns
one into the other (`holds_runCallbacks`).
-/
import KokkosComm.Elementwise
import KokkosComm.Nccl.Calls

namespace KokkosComm

open MultiIndex
open Mpi (Callback SpaceOp unpackCallback)
open Nccl (runCallbacks)

variable {α : Type}

/-- The transport stores a message behind a data handle. -/
def Heap.store (v : View) (count : Nat) (message : List α) (m : Heap α) : Heap α :=
  Memory.scatter m (v.buffer count) message

/-- The `k`-th element of the message is the `k`-th of the view. A view in
which two indices name one cell cannot hold a message. -/
def View.Holds (v : View) (message : List α) (m : Heap α) : Prop :=
  v.elements.Nodup → ∀ (k : Nat) i x, v.route.order[k]? = some i → message[k]? = some x →
    m (v.cell i) = x

/-- What has become of a receive. -/
structure Reception (α : Type) where
  memory : Heap α
  arrived : Option (List α)
  reported : Bool

/-- A receive that is reported complete has received a message, and the
view holds it; one that was not initiated leaves the view as it was. -/
structure Reception.Uncorrupted (rv : View) (initiated : Prop) (initial : Heap α)
    (s : Reception α) : Prop where
  holds : s.reported = true → ∃ message, s.arrived = some message ∧ rv.Holds message s.memory
  untouched : ¬ initiated → ∀ c, rv.Elem c → s.memory c = initial c

/-! ## Callbacks -/

/-- The callback that a receive registers for a view that is not
contiguous. -/
def Unpacks (rv : View) (a : AllocId) (cb : Callback) : Prop :=
  rv.isContiguous = false ∧ ∃ label, cb = unpackCallback rv (rv.contiguousView a) label

/-- The callback writes neither the view nor the allocation `a`. -/
def Spares (rv : View) (a : AllocId) (cb : Callback) : Prop :=
  ∀ v ∈ cb.targets, ∀ c, v.Elem c → c.1 ≠ a ∧ ¬ rv.Elem c

/-- The callbacks a program may run while the receive is going on. -/
def KeepsMessage (rv : View) (a : AllocId) (cb : Callback) : Prop :=
  Unpacks rv a cb ∨ Spares rv a cb

/-- The message is behind the data handle that the transport was given. -/
def Buffered (rv : View) (a : AllocId) (message : List α) (m : Heap α) : Prop :=
  rv.elements.Nodup → ∀ (k : Nat) i x, rv.route.order[k]? = some i → message[k]? = some x →
    m ((rv.handed a).cell i) = x

section Callbacks

variable {rv : View} {a : AllocId} {cb : Callback} {ran : List Callback} {m : Heap α}
  {message : List α}

theorem spares_keepAlive (v : View) : Spares rv a (.keepAlive v) := by
  intro w hw
  cases hw

/-- A callback changes what it writes only. -/
theorem run_of_not_target (cb : Callback) (m : Heap α) {c : Cell}
    (hc : ∀ v ∈ cb.targets, ¬ v.Elem c) : cb.run m c = m c := by
  unfold Callback.run
  unfold Callback.targets at hc
  generalize cb.body = body at hc ⊢
  induction body generalizing m with
  | nil => rfl
  | cons op body ih =>
    simp only [List.flatMap_cons, List.mem_append] at hc
    rw [List.foldl_cons, ih _ fun v hv => hc v (.inr hv)]
    cases op with
    | deepCopy dst src =>
      exact Heap.deepCopy_of_not_elem m (hc dst (.inl (by simp [SpaceOp.written])))
    | fence label => rfl

theorem Spares.run_handed (h : Spares rv a cb) (m : Heap α) {i : List Nat}
    (hi : Valid rv.extents i) : cb.run m ((rv.handed a).cell i) = m ((rv.handed a).cell i) := by
  refine run_of_not_target cb m fun v hv hc => ?_
  cases hcont : rv.isContiguous with
  | true =>
    rw [View.handed_of_contiguous a hcont] at hc
    exact (h v hv _ hc).2 ⟨i, hi, rfl⟩
  | false =>
    rw [View.handed_of_packed a hcont] at hc
    exact (h v hv _ hc).1 rfl

theorem Spares.run_cell (h : Spares rv a cb) (m : Heap α) {i : List Nat}
    (hi : Valid rv.extents i) : cb.run m (rv.cell i) = m (rv.cell i) :=
  run_of_not_target cb m fun v hv hc => (h v hv _ hc).2 ⟨i, hi, rfl⟩

theorem valid_of_route {k : Nat} {i : List Nat} (hk : rv.route.order[k]? = some i) :
    Valid rv.extents i :=
  (rv.enumerates_route).mem_iff.mp (List.mem_of_getElem? hk)

/-- The transport stores the message behind the handle. -/
theorem buffered_store {n : Nat} (hlen : message.length ≤ n) (m : Heap α) :
    Buffered rv a message (m.store (rv.handed a) n message) := by
  intro hnd k i x hi hx
  cases hc : rv.isContiguous with
  | true =>
    rw [View.handed_of_contiguous a hc]
    rw [View.route, if_pos hc] at hi
    rw [Heap.store, Heap.scatter_buffer_cell (View.map_offset_memoryIndices hnd hc) hlen m hi, hx]
    rfl
  | false =>
    rw [View.handed_of_packed a hc]
    rw [View.route, if_neg (by simp [hc])] at hi
    rw [Heap.store, Heap.scatter_buffer_cell (v := rv.contiguousView a)
      (View.map_offset_contiguousView a rv) hlen m hi, hx]
    rfl

/-- What a contiguous view holds is what was stored for it. -/
theorem holds_of_buffered (hc : rv.isContiguous = true) (h : Buffered rv a message m) :
    rv.Holds message m := by
  intro hnd k i x hi hx
  have := h hnd k i x hi hx
  rwa [View.handed_of_contiguous a hc] at this

theorem KeepsMessage.buffered (ha : rv.alloc ≠ a) (hcb : KeepsMessage rv a cb)
    (h : Buffered rv a message m) : Buffered rv a message (cb.run m) := by
  intro hnd k i x hi hx
  rw [← h hnd k i x hi hx]
  rcases hcb with ⟨hc, label, rfl⟩ | hcb
  · rw [View.handed_of_packed a hc]
    -- the unpacking reads the packed view, in an allocation of its own
    refine Heap.deepCopy_of_not_elem m ?_
    rintro ⟨j, -, hj⟩
    exact ha (Prod.mk.inj hj).1
  · exact hcb.run_handed m (valid_of_route hi)

theorem Unpacks.holds (hcb : Unpacks rv a cb) (h : Buffered rv a message m) :
    rv.Holds message (cb.run m) := by
  intro hnd k i x hi hx
  obtain ⟨hc, label, rfl⟩ := hcb
  have := h hnd k i x hi hx
  rw [View.handed_of_packed a hc] at this
  rw [Mpi.run_unpackCallback, Heap.deepCopy_cell m hnd (valid_of_route hi)]
  exact this

theorem KeepsMessage.holds (hcb : KeepsMessage rv a cb) (hb : Buffered rv a message m)
    (h : rv.Holds message m) : rv.Holds message (cb.run m) := by
  rcases hcb with hcb | hcb
  · exact hcb.holds hb
  · intro hnd k i x hi hx
    rw [hcb.run_cell m (valid_of_route hi), h hnd k i x hi hx]

/-- Callbacks that spare the view. -/
theorem runCallbacks_cell (hran : ∀ cb ∈ ran, Spares rv a cb) (m : Heap α) {i : List Nat}
    (hi : Valid rv.extents i) : runCallbacks ran m (rv.cell i) = m (rv.cell i) := by
  unfold runCallbacks
  induction ran generalizing m with
  | nil => rfl
  | cons cb ran ih =>
    rw [List.foldl_cons, ih (fun cb' hcb' => hran cb' (.tail _ hcb')),
      (hran cb (.head _)).run_cell m hi]

/-- Such callbacks keep the message where it was stored. -/
theorem buffered_runCallbacks (ha : rv.alloc ≠ a) (hran : ∀ cb ∈ ran, KeepsMessage rv a cb)
    (h : Buffered rv a message m) : Buffered rv a message (runCallbacks ran m) := by
  unfold runCallbacks
  induction ran generalizing m with
  | nil => exact h
  | cons cb ran ih =>
    exact ih (fun cb' hcb' => hran cb' (.tail _ hcb')) ((hran cb (.head _)).buffered ha h)

/-- They keep it in the view, too, and put it there if one unpacks. -/
theorem holds_runCallbacks (ha : rv.alloc ≠ a) (hran : ∀ cb ∈ ran, KeepsMessage rv a cb)
    (hb : Buffered rv a message m)
    (h : rv.Holds message m ∨ ∃ cb ∈ ran, Unpacks rv a cb) :
    rv.Holds message (runCallbacks ran m) := by
  unfold runCallbacks
  induction ran generalizing m with
  | nil => simpa using h
  | cons cb ran ih =>
    have hcb := hran cb (.head _)
    refine ih (fun cb' hcb' => hran cb' (.tail _ hcb')) (hcb.buffered ha hb) ?_
    rcases h with h | ⟨cb', hmem, hunpacks⟩
    · exact .inl (hcb.holds hb h)
    · rcases List.mem_cons.mp hmem with rfl | hmem
      · exact .inl (hunpacks.holds hb)
      · exact .inr ⟨cb', hmem, hunpacks⟩

end Callbacks

/-! ## The callbacks of the receive itself -/

/-- The callbacks registered on the request of a receive: they keep the
message, and one unpacks it if it has to be unpacked. -/
structure ReceiveCallbacks (rv : View) (a : AllocId) (callbacks : List Callback) : Prop where
  keeps : ∀ cb ∈ callbacks, KeepsMessage rv a cb
  unpacks : rv.isContiguous = false → ∃ cb ∈ callbacks, Unpacks rv a cb

section ReceiveCallbacks

variable {rv : View} {a : AllocId} {callbacks : List Callback}

theorem receiveCallbacks_nil (hc : rv.isContiguous = true) : ReceiveCallbacks rv a [] where
  keeps := fun cb hcb => by cases hcb
  unpacks := fun hn => by cases hc.symm.trans hn

theorem receiveCallbacks_unpack (hc : rv.isContiguous = false) (label : String) :
    ReceiveCallbacks rv a [unpackCallback rv (rv.contiguousView a) label] where
  keeps := by
    intro cb hcb
    obtain rfl := List.mem_singleton.mp hcb
    exact .inl ⟨hc, label, rfl⟩
  unpacks := fun _ => ⟨_, .head _, hc, label, rfl⟩

theorem ReceiveCallbacks.keepAlive (h : ReceiveCallbacks rv a callbacks) (v : View) :
    ReceiveCallbacks rv a (callbacks ++ [.keepAlive v]) where
  keeps := by
    intro cb hcb
    rcases List.mem_append.mp hcb with hcb | hcb
    · exact h.keeps cb hcb
    · obtain rfl := List.mem_singleton.mp hcb
      exact .inr (spares_keepAlive v)
  unpacks := fun hc => by
    obtain ⟨cb, hcb, hunpacks⟩ := h.unpacks hc
    exact ⟨cb, List.mem_append_left _ hcb, hunpacks⟩

end ReceiveCallbacks

/-- Where an initiated receive stands, whose request has these callbacks:
they are complete until it is reported complete, and the view holds the
message afterwards. -/
structure Reception.Sound (rv : View) (a : AllocId) (callbacks : List Callback)
    (s : Reception α) : Prop where
  keeps : ∀ cb ∈ callbacks, KeepsMessage rv a cb
  unpacks : s.reported = false → rv.isContiguous = false → ∃ cb ∈ callbacks, Unpacks rv a cb
  buffered : ∀ message, s.arrived = some message → Buffered rv a message s.memory
  holds : s.reported = true → ∃ message, s.arrived = some message ∧ rv.Holds message s.memory

namespace Reception.Sound

variable {rv : View} {a : AllocId} {callbacks callbacks' ran : List Callback} {s : Reception α}
  {message : List α}

/-- Nothing has happened since the call. -/
theorem of_receiveCallbacks (h : ReceiveCallbacks rv a callbacks) (memory : Heap α) :
    Sound rv a callbacks { memory := memory, arrived := none, reported := false } where
  keeps := h.keeps
  unpacks := fun _ => h.unpacks
  buffered := nofun
  holds := nofun

/-- The message arrives. -/
theorem arrive (h : s.Sound rv a callbacks) (hnone : s.arrived = none) {n : Nat}
    (hlen : message.length ≤ n) :
    Sound rv a callbacks
      { s with memory := s.memory.store (rv.handed a) n message, arrived := some message } where
  keeps := h.keeps
  unpacks := h.unpacks
  buffered := by
    rintro _ ⟨⟩
    exact buffered_store hlen s.memory
  holds := fun hr => by
    obtain ⟨message', harrived, -⟩ := h.holds hr
    cases hnone.symm.trans harrived

/-- Callbacks run that belong to the receive or spare it, and the request is
reported complete. The view must hold the message already, or be unpacked
now. -/
theorem report (h : s.Sound rv a callbacks) (ha : rv.alloc ≠ a)
    (hran : ∀ cb ∈ ran, cb ∈ callbacks ∨ Spares rv a cb) (hleft : callbacks' ⊆ callbacks)
    (hmessage : ∃ message, s.arrived = some message ∧
      (rv.Holds message s.memory ∨ callbacks ⊆ ran)) :
    Sound rv a callbacks' { s with memory := runCallbacks ran s.memory, reported := true } := by
  have hkeeps : ∀ cb ∈ ran, KeepsMessage rv a cb := fun cb hcb =>
    (hran cb hcb).elim (h.keeps cb) .inr
  refine ⟨fun cb hcb => h.keeps cb (hleft hcb), nofun,
    fun message hm => buffered_runCallbacks ha hkeeps (h.buffered message hm), fun _ => ?_⟩
  obtain ⟨message, harrived, hholds⟩ := hmessage
  have hbuffered := h.buffered message harrived
  refine ⟨message, harrived, holds_runCallbacks ha hkeeps hbuffered ?_⟩
  rcases hholds with hholds | hsub
  · exact .inl hholds
  cases hr : s.reported with
  | true =>
    obtain ⟨message', harrived', hholds⟩ := h.holds hr
    cases harrived.symm.trans harrived'
    exact .inl hholds
  | false =>
    cases hc : rv.isContiguous with
    | true => exact .inl (holds_of_buffered hc hbuffered)
    | false =>
      obtain ⟨cb, hcb, hunpacks⟩ := h.unpacks hr hc
      exact .inr ⟨cb, hsub hcb, hunpacks⟩

end Reception.Sound

end KokkosComm
