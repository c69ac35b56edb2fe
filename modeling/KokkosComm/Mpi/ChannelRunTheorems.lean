/-
KokkosComm.Mpi.ChannelRunTheorems — when the views of two channels are
exchanged in registration order.

All requests of a channel have one peer, one tag and one communicator, and
`start` hands them to `MPI_Startall`, which may start them in any order.
So messages are matched in the order in which the two sides happen to have
started their requests. What keeps a receive from getting the message of
another send is only its length: within one cycle a message that is too
long ends the process, and as the lengths of all messages and all receives
sum up to the same, none can be too short either (`Rounds.size_eq`).

§1 `Wired`: what registering the views leaves behind.
§2 `Running`, the invariant of the runs, one preservation lemma an action.
§3 the result (`channel_keeps_order`), and two views of one size that are
   swapped (`channel_swaps_views`).
-/
import KokkosComm.Foundation.Rounds
import KokkosComm.Mpi.ChannelRun
import KokkosComm.Mpi.RoutinesTheorems

namespace KokkosComm.Mpi

variable {α : Type}

/-! ## §1 Registered views -/

/-- The receive views have the sizes and value types of the send views, and
are disjoint. -/
structure Paired (svs rvs : List Registered) : Prop where
  count : rvs.length = svs.length
  size : ∀ (j : Nat) (s r : Registered), svs[j]? = some s → rvs[j]? = some r →
    r.view.size = s.view.size ∧ r.elemSize = s.elemSize
  sendContiguous : ∀ s ∈ svs, s.view.isContiguous = true
  recvContiguous : ∀ r ∈ rvs, r.view.isContiguous = true
  disjoint : ∀ (j j' : Nat) (r r' : Registered), rvs[j]? = some r → rvs[j']? = some r' → j ≠ j' →
    ∀ c ∈ r.cells, c ∉ r'.cells

theorem Paired.length_eq {svs rvs : List Registered} (h : Paired svs rvs) {j : Nat}
    {s r : Registered} (hs : svs[j]? = some s) (hr : rvs[j]? = some r) : r.length = s.length := by
  rw [Registered.length, Registered.length, (h.size j s r hs hr).1, (h.size j s r hs hr).2]

/-- The numbers of views and of elements are exact as `int`s, or negative
and rejected. -/
def CountsExact (svs : List Registered) : Prop :=
  (CInt.ofSize svs.length < 0 ∨ CInt.ofSize svs.length = svs.length) ∧
    ∀ s ∈ svs, CInt.ofSize s.view.size < 0 ∨ CInt.ofSize s.view.size = s.view.size

/-- No two views that are not empty have the same length. -/
def Distinguishable (svs : List Registered) : Prop :=
  ((svs.map Registered.length).filter (0 < ·)).Nodup

instance (svs : List Registered) : Decidable (CountsExact svs) :=
  inferInstanceAs (Decidable (_ ∧ _))

instance (svs : List Registered) : Decidable (Distinguishable svs) :=
  inferInstanceAs (Decidable (List.Nodup _))

theorem Distinguishable.index_eq {svs : List Registered} (h : Distinguishable svs) {i j : Nat}
    {s s' : Registered} (hi : svs[i]? = some s) (hj : svs[j]? = some s')
    (hlen : s.length = s'.length) (hpos : 0 < s.length) : i = j := by
  unfold Distinguishable at h
  induction svs generalizing i j with
  | nil => simp at hi
  | cons x svs ih =>
    rw [List.map_cons, List.filter_cons] at h
    have htail : (List.filter (fun x => decide (0 < x)) (svs.map Registered.length)).Nodup := by
      split at h
      · exact (List.nodup_cons.mp h).2
      · exact h
    -- the head is not among the lengths of the tail
    have hhead : ∀ {k : Nat} {y : Registered}, svs[k]? = some y → x.length = y.length →
        0 < x.length → False := by
      intro k y hk hxy hx
      rw [if_pos (by simpa using hx)] at h
      refine (List.nodup_cons.mp h).1 (List.mem_filter.mpr ⟨?_, by simpa using hx⟩)
      rw [hxy]
      exact List.mem_map_of_mem (List.mem_of_getElem? hk)
    cases i with
    | zero =>
      obtain rfl : x = s := by simpa using hi
      cases j with
      | zero => rfl
      | succ j => exact (hhead (by simpa using hj) hlen hpos).elim
    | succ i =>
      cases j with
      | zero =>
        obtain rfl : x = s' := by simpa using hj
        exact (hhead (by simpa using hi) hlen.symm (hlen ▸ hpos)).elim
      | succ j => exact congrArg Nat.succ (ih htail (by simpa using hi) (by simpa using hj))

/-- A channel and its persistent requests, one for each view, in order. -/
structure Registration (rs : List Registered) (c : Channel) (mpi : PersistentTable) : Prop where
  requests : c.requests_ = (List.range rs.length).map some
  statuses : c.statuses_ = rs.length
  length : mpi.length = rs.length
  call : ∀ (j : Nat) r, rs[j]? = some r → ∃ call, mpi[j]? = some call ∧ call.buffer = r.view ∧
    call.count = spanCount r.view ∧ call.elemSize = r.elemSize ∧ 0 ≤ spanCount r.view

/-- One more view. -/
theorem Registration.init {rs : List Registered} {c c' : Channel} {mpi mpi' : PersistentTable}
    (h : Registration rs c mpi) {fn : PersistentFn} {failure : String} {r : Registered}
    (hinit : c.init fn failure r.view r.elemSize mpi = .returns (c', mpi')) :
    Registration (rs ++ [r]) c' mpi' := by
  unfold Channel.init mpiInit at hinit
  dsimp only at hinit
  by_cases hneg : spanCount r.view < 0
  · rw [if_pos hneg] at hinit
    cases hinit
  · rw [if_neg hneg] at hinit
    cases hinit
    refine { requests := ?_, statuses := ?_, length := ?_, call := fun j r' hj => ?_ }
    · simp [h.requests, h.length, List.range_succ]
    · simp [h.requests]
    · simp [h.length]
    · by_cases hlt : j < rs.length
      · rw [List.getElem?_append_left hlt] at hj
        obtain ⟨call, hcall, hrest⟩ := h.call j r' hj
        exact ⟨call, by rw [List.getElem?_append_left (by rwa [h.length]), hcall], hrest⟩
      · obtain rfl : j = rs.length := by
          have := (List.getElem?_eq_some_iff.mp hj).1
          rw [List.length_append, List.length_singleton] at this
          omega
        obtain rfl : r = r' := by simpa using hj
        exact ⟨_, by rw [← h.length, List.getElem?_concat_length], rfl, rfl, rfl,
          Int.not_lt.mp hneg⟩

/-- All of them, by any of the two routines. -/
theorem Registration.registerAll (fn : Channel → PersistentFn) {failure : String}
    {rest done : List Registered} {c c' : Channel} {mpi mpi' : PersistentTable}
    (h : Registration done c mpi)
    (hall : KokkosComm.Mpi.registerAll (fun c v n mpi => c.init (fn c) failure v n mpi) rest c mpi
      = .returns (c', mpi')) : Registration (done ++ rest) c' mpi' := by
  induction rest generalizing done c mpi with
  | nil =>
    cases hall
    rwa [List.append_nil]
  | cons r rest ih =>
    obtain ⟨⟨c₁, mpi₁⟩, hinit, hall⟩ := Outcome.bind_eq_returns.mp hall
    rw [List.append_cons]
    exact ih (h.init hinit) hall

theorem registration_new (dst src tag : Int) (comm : MpiComm) :
    Registration [] (.new dst src tag comm) [] where
  requests := rfl
  statuses := rfl
  length := rfl
  call := nofun

section Registration

variable {rs : List Registered} {c : Channel} {mpi : PersistentTable}

/-- `start` starts every registered request. -/
theorem Registration.start (h : Registration rs c mpi)
    (hcount : CInt.ofSize rs.length < 0 ∨ CInt.ofSize rs.length = rs.length)
    {started : List MpiRequest} (hstart : c.start = .returns started) :
    started = (List.range rs.length).map some := by
  unfold Channel.start mpiStartall at hstart
  rw [h.requests, List.length_map, List.length_range] at hstart
  rcases hcount with hneg | hexact
  · rw [if_pos hneg] at hstart
    cases hstart
  · rw [if_neg (by omega), hexact] at hstart
    cases hstart
    exact List.take_of_length_le (by simp)

/-- … in some order. -/
theorem Registration.order_perm (h : Registration rs c mpi)
    (hcount : CInt.ofSize rs.length < 0 ∨ CInt.ofSize rs.length = rs.length)
    {started : List MpiRequest} (hstart : c.start = .returns started) {order : List Nat}
    (horder : (order.map some).Perm started) : order.Perm (List.range rs.length) := by
  rw [h.start hcount hstart] at horder
  exact (List.map_perm_map_iff (Option.some_injective _)).mp horder

/-- `wait` waits for all of them, too. -/
theorem Registration.wait (h : Registration rs c mpi)
    (hcount : CInt.ofSize rs.length < 0 ∨ CInt.ofSize rs.length = rs.length)
    {waited : List MpiRequest} (hwait : c.wait = .returns waited) :
    waited = (List.range rs.length).map some := by
  unfold Channel.wait mpiWaitallPersistent at hwait
  rw [h.requests, List.length_map, List.length_range] at hwait
  rcases hcount with hneg | hexact
  · rw [if_pos hneg] at hwait
    cases hwait
  · rw [if_neg (by omega), hexact, h.statuses, if_neg (by simp)] at hwait
    cases hwait
    exact List.take_of_length_le (by simp)

/-- The memory of a request is that of its contiguous view. -/
theorem Registration.cells (h : Registration rs c mpi) {j : Nat} {r : Registered}
    (hj : rs[j]? = some r) (hcont : r.view.isContiguous = true)
    (hcount : CInt.ofSize r.view.size < 0 ∨ CInt.ofSize r.view.size = r.view.size) :
    ∃ call, mpi[j]? = some call ∧ call.cells = r.cells := by
  obtain ⟨call, hcall, hview, hcnt, helem, hpos⟩ := h.call j r hj
  refine ⟨call, hcall, ?_⟩
  rw [spanCount, View.isContiguous_iff.mp hcont] at hcnt hpos
  have hexact : CInt.ofSize r.view.size = r.view.size := hcount.resolve_left (Int.not_lt.mpr hpos)
  rw [PersistentCall.cells, Registered.cells, Registered.length, hview, hcnt, helem, hexact,
    Int.toNat_natCast]

end Registration

/-! ## §2 Runs -/

namespace Exchange

variable {w w' : Exchange α}

/-! One theorem for each action. -/

theorem perform_startSend {order : List Nat} (h : w.perform (.startSend order) = .returns w') :
    ∃ started, w.sender.channel.start = .returns started ∧ w.sender.active = false ∧
      (order.map some).Perm started ∧ w' = { w with
        sender := { w.sender with active := true }
        sends := w.sends ++ order.map fun r => { request := r, message := none }
        contents := w.contents ++ [w.sendContents] } := by
  obtain ⟨started, hstart, h⟩ := Outcome.bind_eq_returns.mp h
  split at h
  · rename_i hok
    cases h
    exact ⟨started, hstart, hok.1, hok.2, rfl⟩
  · cases h

theorem perform_startRecv {order : List Nat} (h : w.perform (.startRecv order) = .returns w') :
    ∃ started, w.receiver.channel.start = .returns started ∧ w.receiver.active = false ∧
      (order.map some).Perm started ∧ w' = { w with
        receiver := { w.receiver with active := true }
        recvs := w.recvs ++ order.map fun r => { request := r, arrived := false } } := by
  obtain ⟨started, hstart, h⟩ := Outcome.bind_eq_returns.mp h
  split at h
  · rename_i hok
    cases h
    exact ⟨started, hstart, hok.1, hok.2, rfl⟩
  · cases h

theorem perform_capture {k : Nat} (h : w.perform (.capture k) = .returns w') :
    ∃ r call, w.sends[k]? = some { request := r, message := none } ∧
      w.sender.mpi[r]? = some call ∧ w' = { w with
        sends := w.sends.set k
          { request := r, message := some (Memory.gather w.sender.heap call.cells) } } := by
  simp only [perform] at h
  split at h
  · rename_i r hk
    split at h
    · rename_i call hcall
      cases h
      exact ⟨r, call, hk, hcall, rfl⟩
    · cases h
  · cases h

theorem perform_deliver {k : Nat} (h : w.perform (.deliver k) = .returns w') :
    ∃ s message r call, w.sends[k]? = some { request := s, message := some message } ∧
      w.recvs[k]? = some { request := r, arrived := false } ∧
      w.receiver.mpi[r]? = some call ∧ message.length ≤ call.cells.length ∧ w' = { w with
        receiver := { w.receiver with
          heap := Memory.scatter w.receiver.heap call.cells message }
        recvs := w.recvs.set k { request := r, arrived := true } } := by
  simp only [perform] at h
  split at h
  swap
  · cases h
  rename_i s message r hs hr
  split at h
  swap
  · cases h
  rename_i sendCall recvCall _ hcall
  split at h
  swap
  · cases h
  obtain ⟨heap, hreceive, h⟩ := Outcome.bind_eq_returns.mp h
  unfold PersistentCall.receive at hreceive
  split at hreceive
  · rename_i hlen
    cases hreceive
    cases h
    exact ⟨s, message, r, recvCall, hs, hr, hcall, hlen, rfl⟩
  · cases hreceive

theorem perform_waitSend (h : w.perform .waitSend = .returns w') :
    ∃ waited, w.sender.channel.wait = .returns waited ∧
      (∀ s ∈ w.sends, some s.request ∈ waited → s.message.isSome) ∧
      w' = { w with sender := { w.sender with active := false } } := by
  obtain ⟨waited, hwait, h⟩ := Outcome.bind_eq_returns.mp h
  split at h
  swap
  · cases h
  split at h
  · rename_i hall
    cases h
    exact ⟨waited, hwait, fun s hs hw => hall s hs (List.contains_iff_mem.mpr hw), rfl⟩
  · cases h

theorem perform_waitRecv (h : w.perform .waitRecv = .returns w') :
    ∃ waited, w.receiver.channel.wait = .returns waited ∧ w.receiver.active = true ∧
      (∀ r ∈ w.recvs, some r.request ∈ waited → r.arrived = true) ∧
      w' = { w with
        receiver := { w.receiver with active := false }
        completed := w.completed + 1 } := by
  obtain ⟨waited, hwait, h⟩ := Outcome.bind_eq_returns.mp h
  split at h
  swap
  · cases h
  rename_i hactive
  split at h
  · rename_i hall
    cases h
    exact ⟨waited, hwait, hactive, fun r hr hw => hall r hr (List.contains_iff_mem.mpr hw), rfl⟩
  · cases h

theorem perform_writeSend {c : Cell} {x : α} (h : w.perform (.writeSend c x) = .returns w') :
    w.sender.active = false ∧ w' = { w with
      sender := { w.sender with heap := Function.update w.sender.heap c x } } := by
  simp only [perform] at h
  split at h
  · rename_i hidle
    cases h
    exact ⟨hidle, rfl⟩
  · cases h

theorem perform_writeRecv {c : Cell} {x : α} (h : w.perform (.writeRecv c x) = .returns w') :
    w.receiver.active = false ∧ w' = { w with
      receiver := { w.receiver with heap := Function.update w.receiver.heap c x } } := by
  simp only [perform] at h
  split at h
  · rename_i hidle
    cases h
    exact ⟨hidle, rfl⟩
  · cases h

/-- Both channels have their views registered. -/
structure Wired (w : Exchange α) : Prop where
  paired : Paired w.svs w.rvs
  counts : CountsExact w.svs
  sender : Registration w.svs w.sender.channel w.sender.mpi
  receiver : Registration w.rvs w.receiver.channel w.receiver.mpi

theorem wired_init {a b tag : Int} {comm : MpiComm} {svs rvs : List Registered} {hs hr : Heap α}
    (hpaired : Paired svs rvs) (hcounts : CountsExact svs)
    (h : init a b tag comm svs rvs hs hr = .returns w) : Wired w := by
  obtain ⟨⟨sc, sm⟩, hsend, h⟩ := Outcome.bind_eq_returns.mp h
  obtain ⟨⟨rc, rm⟩, hrecv, h⟩ := Outcome.bind_eq_returns.mp h
  cases h
  exact
    { paired := hpaired
      counts := hcounts
      sender := (registration_new b a tag comm).registerAll
        (fun c => .mpiSendInit c.dst_rank_ c.tag_) hsend
      receiver := (registration_new b a tag comm).registerAll
        (fun c => .mpiRecvInit c.src_rank_ c.tag_) hrecv }

/-- The cycles the receiver has started. -/
def cyclesStarted (w : Exchange α) : Nat := w.completed + if w.receiver.active then 1 else 0

/-- The invariant. Index `c * m + p` is position `p` of cycle `c`. -/
structure Running (w : Exchange α) : Prop extends Wired w where
  sendRounds : Rounds w.svs.length w.contents.length (w.sends.map Sent.request)
  recvRounds : Rounds w.svs.length w.cyclesStarted (w.recvs.map Posted.request)
  held : ∀ held ∈ w.contents, ∀ (j : Nat) s, w.svs[j]? = some s →
    ∃ x, held[j]? = some x ∧ x.length = s.length
  current : w.sender.active = true →
    w.contents[w.contents.length - 1]? = some w.sendContents
  message : ∀ c p s x, p < w.svs.length →
    w.sends[c * w.svs.length + p]? = some { request := s, message := some x } →
    (w.contents[c]?.bind fun held => held[s]?) = some x
  unread : ∀ c p s, p < w.svs.length →
    w.sends[c * w.svs.length + p]? = some { request := s, message := none } →
    w.sender.active = true ∧ c + 1 = w.contents.length
  pending : ∀ c p r, p < w.svs.length →
    w.recvs[c * w.svs.length + p]? = some { request := r, arrived := false } →
    w.receiver.active = true ∧ c = w.completed
  arrived : ∀ (k : Nat) r, w.recvs[k]? = some { request := r, arrived := true } →
    ∃ s x, w.sends[k]? = some { request := s, message := some x } ∧
      ∀ rv, w.rvs[r]? = some rv → x.length ≤ rv.length
  written : w.receiver.active = true → ∀ p r rv s x, p < w.svs.length →
    w.recvs[w.completed * w.svs.length + p]? = some { request := r, arrived := true } →
    w.rvs[r]? = some rv →
    w.sends[w.completed * w.svs.length + p]? = some { request := s, message := some x } →
    x.length = rv.length → rv.contents w.receiver.heap = x

theorem running_init {a b tag : Int} {comm : MpiComm} {svs rvs : List Registered} {hs hr : Heap α}
    (hpaired : Paired svs rvs) (hcounts : CountsExact svs)
    (h : init a b tag comm svs rvs hs hr = .returns w) : Running w := by
  have hwired := wired_init hpaired hcounts h
  obtain ⟨⟨sc, sm⟩, hsend, h⟩ := Outcome.bind_eq_returns.mp h
  obtain ⟨⟨rc, rm⟩, hrecv, h⟩ := Outcome.bind_eq_returns.mp h
  cases h
  exact
    { hwired with
      sendRounds := .nil _
      recvRounds := .nil _
      held := nofun
      current := nofun
      message := nofun
      unread := nofun
      pending := nofun
      arrived := nofun
      written := nofun }

theorem Running.sends_length (hw : Running w) :
    w.sends.length = w.contents.length * w.svs.length := by
  rw [← hw.sendRounds.length, List.length_map]

theorem Running.recvs_length (hw : Running w) :
    w.recvs.length = w.cyclesStarted * w.svs.length := by
  rw [← hw.recvRounds.length, List.length_map]

theorem Running.startSend (hw : Running w) (hidle : w.sender.active = false) {order : List Nat}
    (horder : order.Perm (List.range w.svs.length)) :
    Running { w with
      sender := { w.sender with active := true }
      sends := w.sends ++ order.map fun r => { request := r, message := none }
      contents := w.contents ++ [w.sendContents] } := by
  have hnew : (order.map fun r => ({ request := r, message := none } : Sent α)).length
      = w.svs.length := by rw [List.length_map, horder.length_eq, List.length_range]
  -- a send whose message has been read was there before
  have hold : ∀ {c p s x}, p < w.svs.length →
      (w.sends ++ order.map fun r => ({ request := r, message := none } : Sent α))[
        c * w.svs.length + p]? = some { request := s, message := some x } →
      w.sends[c * w.svs.length + p]? = some { request := s, message := some x } := by
    intro c p s x hp h
    rcases Rounds.getElem?_append_cases hw.sends_length hp hnew h with h | ⟨-, h⟩
    · exact h
    · rw [List.getElem?_map] at h
      obtain ⟨_, -, h⟩ := Option.map_eq_some_iff.mp h
      cases h
  refine
    { hw with
      sendRounds := ?_, held := ?_, current := fun _ => ?_, message := fun c p s x hp h => ?_,
      unread := fun c p s hp h => ?_, arrived := fun k r h => ?_,
      written := fun hactive p r rv s x hp hr hrv h => hw.written hactive p r rv s x hp hr hrv
        (hold hp h) }
  · rw [List.map_append, List.map_map, List.length_append, List.length_singleton]
    have hid : (order.map (Sent.request ∘ fun r => ({ request := r, message := none } : Sent α)))
        = order := by simp [Function.comp_def]
    rw [hid]
    exact hw.sendRounds.append horder
  · intro held hheld j s hj
    rcases List.mem_append.mp hheld with hheld | hheld
    · exact hw.held held hheld j s hj
    · obtain rfl := List.mem_singleton.mp hheld
      refine ⟨s.contents w.sender.heap, by simp [sendContents, hj], ?_⟩
      simp [Registered.contents, Registered.cells]
  · simp [sendContents]
  · have hmsg := hw.message c p s x hp (hold hp h)
    obtain ⟨held, hheld, hget⟩ := Option.bind_eq_some_iff.mp hmsg
    rw [List.getElem?_append_left (List.getElem?_eq_some_iff.mp hheld).1]
    exact hmsg
  · rcases Rounds.getElem?_append_cases hw.sends_length hp hnew h with h | ⟨rfl, -⟩
    · have := (hw.unread c p s hp h).1
      rw [hidle] at this
      cases this
    · exact ⟨rfl, by simp⟩
  · obtain ⟨s, x, hs, hlen⟩ := hw.arrived k r h
    exact ⟨s, x, by rw [List.getElem?_append_left (List.getElem?_eq_some_iff.mp hs).1, hs], hlen⟩

theorem Running.startRecv (hw : Running w) (hidle : w.receiver.active = false)
    {order : List Nat} (horder : order.Perm (List.range w.svs.length)) :
    Running { w with
      receiver := { w.receiver with active := true }
      recvs := w.recvs ++ order.map fun r => { request := r, arrived := false } } := by
  have hnew : (order.map fun r => ({ request := r, arrived := false } : Posted)).length
      = w.svs.length := by rw [List.length_map, horder.length_eq, List.length_range]
  have hcycles : w.cyclesStarted = w.completed := by simp [cyclesStarted, hidle]
  -- a receive whose message has arrived was there before
  have hold : ∀ {k r : Nat}, (w.recvs ++ order.map fun r => ({ request := r, arrived := false } :
      Posted))[k]? = some { request := r, arrived := true } →
      w.recvs[k]? = some { request := r, arrived := true } := by
    intro k r h
    by_cases hk : k < w.recvs.length
    · rwa [List.getElem?_append_left hk] at h
    · rw [List.getElem?_append_right (Nat.le_of_not_lt hk), List.getElem?_map] at h
      obtain ⟨_, -, h⟩ := Option.map_eq_some_iff.mp h
      cases h
  refine
    { hw with
      recvRounds := ?_, pending := fun c p r hp h => ⟨rfl, ?_⟩,
      arrived := fun k r h => hw.arrived k r (hold h),
      written := fun _ p r rv s x hp hr => ?_ }
  · rw [List.map_append, List.map_map]
    have hid : (order.map (Posted.request ∘ fun r => ({ request := r, arrived := false } :
        Posted))) = order := by simp [Function.comp_def]
    rw [hid]
    have := hw.recvRounds.append horder
    rw [hcycles] at this
    exact this
  · rcases Rounds.getElem?_append_cases hw.recvs_length hp hnew h with h | ⟨rfl, -⟩
    · have := (hw.pending c p r hp h).1
      rw [hidle] at this
      cases this
    · exact hcycles
  · -- the new cycle has no arrivals yet
    have hlt := (List.getElem?_eq_some_iff.mp (hold hr)).1
    have := Rounds.lt_of_index hw.recvs_length hlt
    rw [hcycles] at this
    exact absurd this (Nat.lt_irrefl _)

/-- What a request that has not been read yet will send. -/
theorem Running.message_of_unread (hw : Running w) {c p r : Nat} {call : PersistentCall}
    (hp : p < w.svs.length)
    (hk : w.sends[c * w.svs.length + p]? = some { request := r, message := none })
    (hcall : w.sender.mpi[r]? = some call) :
    (w.contents[c]?.bind fun held => held[r]?)
      = some (Memory.gather w.sender.heap call.cells) := by
  obtain ⟨hactive, hc⟩ := hw.unread c p r hp hk
  have hr : r < w.svs.length := by
    rw [← hw.sender.length]
    exact (List.getElem?_eq_some_iff.mp hcall).1
  obtain ⟨s, hs⟩ : ∃ s, w.svs[r]? = some s := ⟨_, List.getElem?_eq_getElem hr⟩
  have hmem := List.mem_of_getElem? hs
  obtain ⟨call', hcall', hcells⟩ :=
    hw.sender.cells hs (hw.paired.sendContiguous s hmem) (hw.counts.2 s hmem)
  obtain rfl : call' = call := Option.some.inj (hcall'.symm.trans hcall)
  have hcurrent := hw.current hactive
  rw [← hc, Nat.add_sub_cancel] at hcurrent
  rw [hcurrent, hcells]
  simp [sendContents, hs, Registered.contents]

theorem Running.capture (hw : Running w) {k r : Nat} {call : PersistentCall}
    (hk : w.sends[k]? = some { request := r, message := none })
    (hcall : w.sender.mpi[r]? = some call) :
    Running { w with
      sends := w.sends.set k
        { request := r, message := some (Memory.gather w.sender.heap call.cells) } } := by
  refine
    { hw with
      sendRounds := ?_, message := fun c p s x hp h => ?_, unread := fun c p s hp h => ?_,
      arrived := fun i q h => ?_, written := fun hactive p q rv s x hp hq hrv h => ?_ }
  · have hlog : (w.sends.set k ⟨r, some (Memory.gather w.sender.heap call.cells)⟩).map
        Sent.request = w.sends.map Sent.request := Rounds.map_set_eq hk rfl
    exact hlog.symm ▸ hw.sendRounds
  · rcases Rounds.getElem?_set_cases h with ⟨hki, heq⟩ | ⟨-, h⟩
    · cases heq
      rw [hki] at hk
      exact hw.message_of_unread hp hk hcall
    · exact hw.message c p s x hp h
  · rcases Rounds.getElem?_set_cases h with ⟨-, heq⟩ | ⟨-, h⟩
    · cases heq
    · exact hw.unread c p s hp h
  · obtain ⟨s, x, hs, hlen⟩ := hw.arrived i q h
    refine ⟨s, x, ?_, hlen⟩
    rw [List.getElem?_set_ne, hs]
    rintro rfl
    cases hk.symm.trans hs
  · rcases Rounds.getElem?_set_cases h with ⟨hki, -⟩ | ⟨-, h⟩
    · -- nothing has arrived that was not read
      obtain ⟨s', x', hs', -⟩ := hw.arrived _ q hq
      rw [hki] at hk
      cases hk.symm.trans hs'
    · exact hw.written hactive p q rv s x hp hq hrv h

/-- The memory of a receive request is that of its view. -/
theorem Running.recv_cells (hw : Running w) {r : Nat} {call : PersistentCall}
    (hcall : w.receiver.mpi[r]? = some call) :
    ∃ rv, w.rvs[r]? = some rv ∧ call.cells = rv.cells := by
  have hlt : r < w.rvs.length := by
    rw [← hw.receiver.length]
    exact (List.getElem?_eq_some_iff.mp hcall).1
  obtain ⟨rv, hrv⟩ : ∃ rv, w.rvs[r]? = some rv := ⟨_, List.getElem?_eq_getElem hlt⟩
  rw [hw.paired.count] at hlt
  obtain ⟨sv, hsv⟩ : ∃ sv, w.svs[r]? = some sv := ⟨_, List.getElem?_eq_getElem hlt⟩
  have hcount := hw.counts.2 sv (List.mem_of_getElem? hsv)
  rw [← (hw.paired.size r sv rv hsv hrv).1] at hcount
  obtain ⟨call', hcall', hcells⟩ := hw.receiver.cells hrv
    (hw.paired.recvContiguous rv (List.mem_of_getElem? hrv)) hcount
  obtain rfl : call' = call := Option.some.inj (hcall'.symm.trans hcall)
  exact ⟨rv, hrv, hcells⟩

theorem Running.deliver (hw : Running w) {k s r : Nat} {message : List α} {call : PersistentCall}
    (hs : w.sends[k]? = some { request := s, message := some message })
    (hr : w.recvs[k]? = some { request := r, arrived := false })
    (hcall : w.receiver.mpi[r]? = some call) (hlen : message.length ≤ call.cells.length) :
    Running { w with
      receiver := { w.receiver with heap := Memory.scatter w.receiver.heap call.cells message }
      recvs := w.recvs.set k { request := r, arrived := true } } := by
  obtain ⟨rv, hrv, hcells⟩ := hw.recv_cells hcall
  refine
    { hw with
      recvRounds := ?_, pending := fun c p q hp h => ?_, arrived := fun i q h => ?_,
      written := fun hactive p q rv' s' x hp hq hrv' hx hxlen => ?_ }
  · have hlog : (w.recvs.set k { request := r, arrived := true }).map Posted.request
        = w.recvs.map Posted.request := Rounds.map_set_eq hr rfl
    exact hlog.symm ▸ hw.recvRounds
  · rcases Rounds.getElem?_set_cases h with ⟨-, heq⟩ | ⟨-, h⟩
    · cases heq
    · exact hw.pending c p q hp h
  · rcases Rounds.getElem?_set_cases h with ⟨rfl, heq⟩ | ⟨-, h⟩
    · cases heq
      refine ⟨s, message, hs, fun rv' hrv' => ?_⟩
      obtain rfl : rv = rv' := Option.some.inj (hrv.symm.trans hrv')
      rw [hcells] at hlen
      simpa [Registered.cells] using hlen
    · exact hw.arrived i q h
  · change Memory.gather (Memory.scatter w.receiver.heap call.cells message) rv'.cells = x
    rw [hcells]
    rcases Rounds.getElem?_set_cases hq with ⟨hki, heq⟩ | ⟨hne, hq⟩
    · -- the message that arrives now
      cases heq
      obtain rfl : rv = rv' := Option.some.inj (hrv.symm.trans hrv')
      rw [hki] at hs
      cases hs.symm.trans hx
      refine Memory.gather_scatter ?_ (by simpa [Registered.cells] using hxlen)
      exact List.nodup_range.map fun _ _ h => Nat.add_left_cancel (Prod.mk.inj h).2
    · -- one that arrived before, in memory disjoint from what is written now
      have hqr : r ≠ q := by
        rintro rfl
        have hki : w.completed * w.svs.length + p < w.recvs.length :=
          (List.getElem?_eq_some_iff.mp hq).1
        have hkr := (List.getElem?_eq_some_iff.mp hr).1
        obtain ⟨c, hc, p', hp', rfl⟩ := Rounds.exists_index hw.recvs_length hkr
        obtain ⟨-, rfl⟩ := hw.pending c p' r hp' hr
        refine hne ?_
        have hp'p := hw.recvRounds.getElem?_injective hc hp' hp (i := r)
          (by rw [List.getElem?_map, hr]; rfl) (by rw [List.getElem?_map, hq]; rfl)
        rw [hp'p]
      rw [Memory.gather_scatter_of_disjoint
        fun c hc hc' => hw.paired.disjoint q r rv' rv hrv' hrv hqr.symm c hc hc']
      exact hw.written hactive p q rv' s' x hp hq hrv' hx hxlen

theorem Running.waitSend (hw : Running w) {waited : List MpiRequest}
    (hwait : w.sender.channel.wait = .returns waited)
    (hall : ∀ s ∈ w.sends, some s.request ∈ waited → s.message.isSome) :
    Running { w with sender := { w.sender with active := false } } := by
  refine { hw with current := nofun, unread := fun c p s hp h => ?_ }
  have hlt := Rounds.lt_of_index hw.sends_length (List.getElem?_eq_some_iff.mp h).1
  have hs : s < w.svs.length :=
    hw.sendRounds.lt_of_getElem? hlt hp (by rw [List.getElem?_map]; exact congrArg _ h)
  have hread := hall _ (List.mem_of_getElem? h) (by
    rw [hw.sender.wait hw.counts.1 hwait]
    exact List.mem_map_of_mem (List.mem_range.mpr hs))
  cases hread

/-- The receiver waits until all its receives have got a message. -/
theorem Running.all_arrived (hw : Running w) {waited : List MpiRequest}
    (hwait : w.receiver.channel.wait = .returns waited)
    (hall : ∀ r ∈ w.recvs, some r.request ∈ waited → r.arrived = true) {c p r : Nat}
    (hp : p < w.svs.length) {arrived : Bool}
    (hr : w.recvs[c * w.svs.length + p]? = some { request := r, arrived := arrived }) :
    arrived = true := by
  have hlt := Rounds.lt_of_index hw.recvs_length (List.getElem?_eq_some_iff.mp hr).1
  have hrm : r < w.svs.length :=
    hw.recvRounds.lt_of_getElem? hlt hp (by rw [List.getElem?_map, hr]; rfl)
  refine hall _ (List.mem_of_getElem? hr) ?_
  rw [hw.receiver.wait (by rw [hw.paired.count]; exact hw.counts.1) hwait, hw.paired.count]
  exact List.mem_map_of_mem (List.mem_range.mpr hrm)

theorem Running.waitRecv (hw : Running w) {waited : List MpiRequest}
    (hwait : w.receiver.channel.wait = .returns waited) (hactive : w.receiver.active = true)
    (hall : ∀ r ∈ w.recvs, some r.request ∈ waited → r.arrived = true) :
    Running { w with
      receiver := { w.receiver with active := false }
      completed := w.completed + 1 } := by
  refine { hw with recvRounds := ?_, pending := fun c p r hp h => ?_, written := nofun }
  · have := hw.recvRounds
    simp only [cyclesStarted, hactive, if_true] at this
    exact this
  · cases hw.all_arrived hwait hall hp h

theorem Running.step (hw : Running w) {x : Act α} (h : w.step x = some w') : Running w' := by
  have h : w.perform x = .returns w' := Outcome.toOption_eq_some.mp h
  cases x with
  | startSend order =>
    obtain ⟨started, hstart, hidle, horder, rfl⟩ := perform_startSend h
    exact hw.startSend hidle (hw.sender.order_perm hw.counts.1 hstart horder)
  | startRecv order =>
    obtain ⟨started, hstart, hidle, horder, rfl⟩ := perform_startRecv h
    have hcount := hw.counts.1
    rw [← hw.paired.count] at hcount
    have hperm := hw.receiver.order_perm hcount hstart horder
    rw [hw.paired.count] at hperm
    exact hw.startRecv hidle hperm
  | capture k =>
    obtain ⟨r, call, hk, hcall, rfl⟩ := perform_capture h
    exact hw.capture hk hcall
  | deliver k =>
    obtain ⟨s, message, r, call, hs, hr, hcall, hlen, rfl⟩ := perform_deliver h
    exact hw.deliver hs hr hcall hlen
  | waitSend =>
    obtain ⟨waited, hwait, hall, rfl⟩ := perform_waitSend h
    exact hw.waitSend hwait hall
  | waitRecv =>
    obtain ⟨waited, hwait, hactive, hall, rfl⟩ := perform_waitRecv h
    exact hw.waitRecv hwait hactive hall
  | writeSend c x =>
    obtain ⟨hidle, rfl⟩ := perform_writeSend h
    refine { hw with current := fun hactive => ?_ }
    cases hidle.symm.trans hactive
  | writeRecv c x =>
    obtain ⟨hidle, rfl⟩ := perform_writeRecv h
    refine { hw with written := fun hactive => ?_ }
    cases hidle.symm.trans hactive

/-- Ranks, views and requests stay the same. -/
theorem step_frame {x : Act α} (h : w.step x = some w') :
    w'.a = w.a ∧ w'.b = w.b ∧ w'.svs = w.svs ∧ w'.sender.mpi = w.sender.mpi ∧
      w'.receiver.mpi = w.receiver.mpi := by
  have h : w.perform x = .returns w' := Outcome.toOption_eq_some.mp h
  cases x with
  | startSend order =>
    obtain ⟨started, -, -, -, rfl⟩ := perform_startSend h
    exact ⟨rfl, rfl, rfl, rfl, rfl⟩
  | startRecv order =>
    obtain ⟨started, -, -, -, rfl⟩ := perform_startRecv h
    exact ⟨rfl, rfl, rfl, rfl, rfl⟩
  | capture k =>
    obtain ⟨r, call, -, -, rfl⟩ := perform_capture h
    exact ⟨rfl, rfl, rfl, rfl, rfl⟩
  | deliver k =>
    obtain ⟨s, message, r, call, -, -, -, -, rfl⟩ := perform_deliver h
    exact ⟨rfl, rfl, rfl, rfl, rfl⟩
  | waitSend =>
    obtain ⟨waited, -, -, rfl⟩ := perform_waitSend h
    exact ⟨rfl, rfl, rfl, rfl, rfl⟩
  | waitRecv =>
    obtain ⟨waited, -, -, -, rfl⟩ := perform_waitRecv h
    exact ⟨rfl, rfl, rfl, rfl, rfl⟩
  | writeSend c x =>
    obtain ⟨-, rfl⟩ := perform_writeSend h
    exact ⟨rfl, rfl, rfl, rfl, rfl⟩
  | writeRecv c x =>
    obtain ⟨-, rfl⟩ := perform_writeRecv h
    exact ⟨rfl, rfl, rfl, rfl, rfl⟩

theorem svs_init {a b tag : Int} {comm : MpiComm} {svs rvs : List Registered} {hs hr : Heap α}
    (h : init a b tag comm svs rvs hs hr = .returns w) : w.svs = svs := by
  obtain ⟨⟨sc, sm⟩, -, h⟩ := Outcome.bind_eq_returns.mp h
  obtain ⟨⟨rc, rm⟩, -, h⟩ := Outcome.bind_eq_returns.mp h
  cases h
  rfl

/-! ## §3 Completed cycles -/

/-- A message has the length of the view it was read from. -/
theorem Running.message_length (hw : Running w) {c p s : Nat} {x : List α}
    (hp : p < w.svs.length)
    (h : w.sends[c * w.svs.length + p]? = some { request := s, message := some x }) :
    ∃ sv, w.svs[s]? = some sv ∧ x.length = sv.length := by
  have hlt := Rounds.lt_of_index hw.sends_length (List.getElem?_eq_some_iff.mp h).1
  have hs : s < w.svs.length :=
    hw.sendRounds.lt_of_getElem? hlt hp (by rw [List.getElem?_map, h]; rfl)
  obtain ⟨sv, hsv⟩ : ∃ sv, w.svs[s]? = some sv := ⟨_, List.getElem?_eq_getElem hs⟩
  obtain ⟨held, hheld, hx⟩ := Option.bind_eq_some_iff.mp (hw.message c p s x hp h)
  obtain ⟨x', hx', hlen⟩ := hw.held held (List.mem_of_getElem? hheld) s sv hsv
  obtain rfl : x = x' := Option.some.inj (hx.symm.trans hx')
  exact ⟨sv, hsv, hlen⟩

/-- The length of a send view, by position. -/
def lengthAt (w : Exchange α) (i : Nat) : Nat := ((w.svs[i]?).map Registered.length).getD 0

theorem lengthAt_eq {i : Nat} {sv : Registered} (h : w.svs[i]? = some sv) :
    w.lengthAt i = sv.length := by
  simp [lengthAt, h]

/-- In a cycle in which every message has arrived, each one has the length
of the view it arrived in. -/
theorem Running.lengthAt_eq_of_arrived (hw : Running w) {c : Nat} (hc : c < w.contents.length)
    (hc' : c < w.cyclesStarted)
    (hall : ∀ p r arrived, p < w.svs.length →
      w.recvs[c * w.svs.length + p]? = some { request := r, arrived := arrived } →
      arrived = true) {p s r : Nat} {x : List α} (hp : p < w.svs.length)
    (hs : w.sends[c * w.svs.length + p]? = some { request := s, message := some x })
    (hr : w.recvs[c * w.svs.length + p]? = some { request := r, arrived := true }) :
    w.lengthAt s = w.lengthAt r := by
  refine Rounds.size_eq hw.sendRounds hw.recvRounds hc hc' (fun q hq i j hi hj => ?_) hp
    (by rw [List.getElem?_map, hs]; rfl) (by rw [List.getElem?_map, hr]; rfl)
  rw [List.getElem?_map] at hi hj
  obtain ⟨⟨_, message⟩, hsend, rfl⟩ := Option.map_eq_some_iff.mp hi
  obtain ⟨⟨_, arrived⟩, hrecv, rfl⟩ := Option.map_eq_some_iff.mp hj
  obtain rfl := hall q _ arrived hq hrecv
  obtain ⟨_, y, hsend', hle⟩ := hw.arrived _ _ hrecv
  cases hsend.symm.trans hsend'
  obtain ⟨sv, hsv, hlen⟩ := hw.message_length hq hsend
  have hjlt := hw.recvRounds.lt_of_getElem? hc' hq (by rw [List.getElem?_map, hrecv]; rfl)
  obtain ⟨sv', hsv'⟩ : ∃ sv', w.svs[_]? = some sv' := ⟨_, List.getElem?_eq_getElem hjlt⟩
  obtain ⟨rv, hrv⟩ : ∃ rv, w.rvs[_]? = some rv :=
    ⟨_, List.getElem?_eq_getElem (by rwa [hw.paired.count])⟩
  rw [lengthAt_eq hsv, lengthAt_eq hsv', ← hlen, ← hw.paired.length_eq hsv' hrv]
  exact hle rv hrv

/-- When all has arrived, the receiver has completed a cycle that the sender
has started. -/
theorem Running.completed_lt (hw : Running w) {waited : List MpiRequest}
    (hwait : w.receiver.channel.wait = .returns waited) (hactive : w.receiver.active = true)
    (hall : ∀ r ∈ w.recvs, some r.request ∈ waited → r.arrived = true)
    (hpos : 0 < w.svs.length) : w.completed < w.contents.length := by
  have hc' : w.completed < w.cyclesStarted := by simp [cyclesStarted, hactive]
  obtain ⟨p, hp, hj⟩ := hw.recvRounds.exists_getElem? hc' hpos
  rw [List.getElem?_map] at hj
  obtain ⟨⟨_, arrived⟩, hrecv, rfl⟩ := Option.map_eq_some_iff.mp hj
  obtain rfl := hw.all_arrived hwait hall hp hrecv
  obtain ⟨s, x, hsend, -⟩ := hw.arrived _ _ hrecv
  exact Rounds.lt_of_index hw.sends_length (List.getElem?_eq_some_iff.mp hsend).1

/-- Which message a receive view has got, by the positions of the requests. -/
theorem Running.cycle_matching (hw : Running w) (h : w.step .waitRecv = some w') :
    ∃ σ : Equiv.Perm (Fin w.svs.length),
      (∀ j : Fin w.svs.length, ∃ p < w.svs.length,
        (w.sends.map Sent.request)[w.completed * w.svs.length + p]? = some (σ j).val ∧
        (w.recvs.map Posted.request)[w.completed * w.svs.length + p]? = some j.val) ∧
      ∀ (j : Fin w.svs.length) (s r : Registered), w.svs[(σ j).val]? = some s →
        w.rvs[j.val]? = some r → s.length = r.length ∧
          (w.contents[w.completed]?.bind fun held => held[(σ j).val]?) =
            some (r.contents w'.receiver.heap) := by
  obtain ⟨waited, hwait, hactive, hall, rfl⟩ := perform_waitRecv (Outcome.toOption_eq_some.mp h)
  have hc' : w.completed < w.cyclesStarted := by simp [cyclesStarted, hactive]
  rcases Nat.eq_zero_or_pos w.svs.length with hzero | hpos
  · exact ⟨Equiv.refl _, fun j => absurd j.isLt (by omega), fun j => absurd j.isLt (by omega)⟩
  have hc := hw.completed_lt hwait hactive hall hpos
  obtain ⟨σ, hσ⟩ := hw.sendRounds.exists_matching hw.recvRounds hc hc'
  refine ⟨σ, hσ, fun j sv rv hsv hrv => ?_⟩
  -- the receive of `r_j` in this cycle, and the send it was matched with
  obtain ⟨p, hp, hi, hj⟩ := hσ j
  rw [List.getElem?_map] at hi hj
  obtain ⟨⟨s, message⟩, hsend, rfl⟩ := Option.map_eq_some_iff.mp hi
  obtain ⟨⟨r, arrived⟩, hrecv, rfl⟩ := Option.map_eq_some_iff.mp hj
  obtain rfl := hw.all_arrived hwait hall hp hrecv
  obtain ⟨s', x, hsend', -⟩ := hw.arrived _ _ hrecv
  cases hsend.symm.trans hsend'
  have hsize := hw.lengthAt_eq_of_arrived hc hc'
    (fun q r arrived hq hr => hw.all_arrived hwait hall hq hr) hp hsend hrecv
  obtain ⟨svj, hsvj⟩ : ∃ sv, w.svs[j.val]? = some sv := ⟨_, List.getElem?_eq_getElem j.isLt⟩
  obtain ⟨sv', hsv', hxlen⟩ := hw.message_length hp hsend
  obtain rfl : sv' = sv := Option.some.inj (hsv'.symm.trans hsv)
  rw [lengthAt_eq hsv, lengthAt_eq hsvj] at hsize
  have hlen : sv'.length = rv.length := hsize.trans (hw.paired.length_eq hsvj hrv).symm
  have hwritten : rv.contents w.receiver.heap = x :=
    hw.written hactive p _ rv _ x hp hrecv hrv hsend (hxlen.trans hlen)
  refine ⟨hlen, ?_⟩
  change (w.contents[w.completed]?.bind _) = some (rv.contents w.receiver.heap)
  rw [hwritten]
  exact hw.message w.completed p _ x hp hsend

theorem Running.cyclePermutes (hw : Running w) {x : Act α} (h : w.step x = some w') :
    CyclePermutes w x w' := by
  cases x with
  | waitRecv =>
    obtain ⟨σ, -, hσ⟩ := hw.cycle_matching h
    exact ⟨σ, hσ⟩
  | startSend order => trivial
  | startRecv order => trivial
  | capture k => trivial
  | deliver k => trivial
  | waitSend => trivial
  | writeSend c x => trivial
  | writeRecv c x => trivial

/-- Views that can be told apart by their lengths are not permuted. -/
theorem Running.cycleDelivers (hw : Running w) (hdist : Distinguishable w.svs) {x : Act α}
    (h : w.step x = some w') : CycleDelivers w x w' := by
  have hpermutes := hw.cyclePermutes h
  cases x with
  | waitRecv =>
    intro j rv hrv
    obtain ⟨σ, hσ⟩ := hpermutes
    have hjlt : j < w.svs.length := by
      rw [← hw.paired.count]
      exact (List.getElem?_eq_some_iff.mp hrv).1
    obtain ⟨svj, hsvj⟩ : ∃ sv, w.svs[j]? = some sv := ⟨_, List.getElem?_eq_getElem hjlt⟩
    obtain ⟨sv, hsv⟩ : ∃ sv, w.svs[(σ ⟨j, hjlt⟩).val]? = some sv :=
      ⟨_, List.getElem?_eq_getElem (σ ⟨j, hjlt⟩).isLt⟩
    obtain ⟨hlen, hmsg⟩ := hσ ⟨j, hjlt⟩ sv rv hsv hrv
    have hrlen := hw.paired.length_eq hsvj hrv
    change (w.contents[w.completed]?.bind _) = some (rv.contents w'.receiver.heap)
    by_cases hpos : 0 < sv.length
    · rw [hdist.index_eq hsv hsvj (hlen.trans hrlen) hpos] at hmsg
      exact hmsg
    · -- an empty view holds nothing, whichever message it got
      obtain ⟨held, hheld, -⟩ := Option.bind_eq_some_iff.mp hmsg
      obtain ⟨y, hy, hylen⟩ := hw.held held (List.mem_of_getElem? hheld) _ svj hsvj
      have hy0 : y = [] := List.eq_nil_of_length_eq_zero (by omega)
      have hr0 : rv.contents w'.receiver.heap = [] := List.eq_nil_of_length_eq_zero (by
        simp only [Registered.contents, Registered.cells, Memory.length_gather, List.length_map,
          List.length_range]
        omega)
      rw [hheld, Option.bind_some, hy, hy0, hr0]
  | startSend order => trivial
  | startRecv order => trivial
  | capture k => trivial
  | deliver k => trivial
  | waitSend => trivial
  | writeSend c x => trivial
  | writeRecv c x => trivial

end Exchange

open Exchange

/-- **Registration order**: views of pairwise different lengths, empty ones
apart, are exchanged as they were registered, in every cycle of every run. -/
theorem channel_keeps_order {a b tag : Int} {comm : MpiComm} {svs rvs : List Registered}
    {hs hr : Heap α} {w : Exchange α} (hpaired : Paired svs rvs) (hcounts : CountsExact svs)
    (hdist : Distinguishable svs)
    (hinit : Exchange.init a b tag comm svs rvs hs hr = .returns w) (run : List (Act α)) :
    Lts.AllSteps Exchange.step CycleDelivers w run :=
  Lts.allSteps_of_inductive (I := fun w => Running w ∧ Distinguishable w.svs)
    (fun _ _ _ hw h => ⟨hw.1.step h, by rw [(step_frame h).2.2.1]; exact hw.2⟩)
    (fun _ _ _ hw h => hw.1.cycleDelivers hw.2 h)
    ⟨running_init hpaired hcounts hinit, by rw [svs_init hinit]; exact hdist⟩

/-- **Nothing is lost**: whatever the views and the orders in which the requests
are started, every cycle that is completed brings each message of it to one
receive view of its length, in every run. -/
theorem channel_permutes {a b tag : Int} {comm : MpiComm} {svs rvs : List Registered}
    {hs hr : Heap α} {w : Exchange α} (hpaired : Paired svs rvs) (hcounts : CountsExact svs)
    (hinit : Exchange.init a b tag comm svs rvs hs hr = .returns w) (run : List (Act α)) :
    Lts.AllSteps Exchange.step CyclePermutes w run :=
  Lts.allSteps_of_inductive (fun _ _ _ hw h => hw.step h) (fun _ _ _ hw h => hw.cyclePermutes h)
    (running_init hpaired hcounts hinit)

/-- `n` elements of the allocation 0, from `base` on. -/
def stretch (base n : Nat) : Registered := { view := .line 0 base n 1, elemSize := 1 }

theorem mem_cells_stretch {base n : Nat} {c : Cell} (h : c ∈ (stretch base n).cells) :
    base ≤ c.2 ∧ c.2 < base + n := by
  obtain ⟨k, hk, rfl⟩ := List.mem_map.mp h
  have := List.mem_range.mp hk
  simp only [Registered.length, View.size, View.line, stretch, List.prod_cons,
    List.prod_nil] at this ⊢
  omega

/-- Two views of one allocation, one after the other. -/
def consecutive (first second : Nat) : List Registered := [stretch 0 first, stretch first second]

theorem paired_consecutive {first second : Nat}
    (hcont : ∀ r ∈ consecutive first second, r.view.isContiguous = true) :
    Paired (consecutive first second) (consecutive first second) where
  count := rfl
  size := fun j s r hs hr => by
    cases hs.symm.trans hr
    exact ⟨rfl, rfl⟩
  sendContiguous := hcont
  recvContiguous := hcont
  disjoint := by
    intro j j' r r' hj hj' hne c hc hc'
    match j, j', hj, hj' with
    | 0, 0, _, _ => exact hne rfl
    | 1, 1, _, _ => exact hne rfl
    | 0, 1, hj, hj' =>
      cases hj
      cases hj'
      have := mem_cells_stretch hc
      have := mem_cells_stretch hc'
      omega
    | 1, 0, hj, hj' =>
      cases hj
      cases hj'
      have := mem_cells_stretch hc
      have := mem_cells_stretch hc'
      omega
    | _ + 2, _, hj, _ => cases hj
    | _, _ + 2, _, hj' => cases hj'

/-- Two cycles with views of two and three elements, the second one started
first and received first. -/
theorem channel_keeps_order_two_sizes :
    ∃ w : Exchange Nat, Exchange.init 0 1 7 0 (consecutive 2 3) (consecutive 2 3)
        (fun c => c.2) (fun _ => 9) = .returns w ∧
      Lts.AllSteps Exchange.step CycleDelivers w
        [.startSend [1, 0], .startRecv [1, 0], .capture 1, .capture 0, .waitSend, .deliver 1,
          .writeSend (0, 0) 7, .startSend [0, 1], .deliver 0, .waitRecv, .startRecv [0, 1],
          .capture 2, .deliver 2, .capture 3, .deliver 3, .waitRecv, .waitSend] := by
  have hinit : (Exchange.init 0 1 7 0 (consecutive 2 3) (consecutive 2 3) (fun c => c.2)
      (fun _ => 9)).toOption.isSome = true := by decide +kernel
  obtain ⟨w, hw⟩ := Option.isSome_iff_exists.mp hinit
  have hw := Outcome.toOption_eq_some.mp hw
  exact ⟨w, hw, channel_keeps_order (paired_consecutive (by decide)) (by decide +kernel)
    (by decide) hw _⟩

/-- The sends are started in the other order than the receives. -/
def crossed : List (Act Nat) :=
  [.startSend [1, 0], .startRecv [0, 1], .capture 0, .capture 1, .deliver 0, .deliver 1,
    .waitSend]

theorem channel_permutes_crossed :
    ∃ w : Exchange Nat, Exchange.init 0 1 7 0 (consecutive 1 1) (consecutive 1 1)
        (fun c => c.2) (fun _ => 9) = .returns w ∧
      Lts.AllSteps Exchange.step CyclePermutes w (crossed ++ [.waitRecv]) := by
  have hinit : (Exchange.init 0 1 7 0 (consecutive 1 1) (consecutive 1 1) (fun c => c.2)
      (fun _ => 9)).toOption.isSome = true := by decide +kernel
  obtain ⟨w, hw⟩ := Option.isSome_iff_exists.mp hinit
  have hw := Outcome.toOption_eq_some.mp hw
  exact ⟨w, hw, channel_permutes (paired_consecutive (by decide)) (by decide +kernel) hw _⟩

/-- Two views of one element, whose sends are started in the other order
than their receives: the first receive view gets the second send view. -/
theorem channel_swaps_views :
    ¬ ∀ (a b tag : Int) (comm : MpiComm) (svs rvs : List Registered) (hs hr : Heap Nat)
      (w : Exchange Nat) (run : List (Act Nat)), Paired svs rvs →
      Exchange.init a b tag comm svs rvs hs hr = .returns w →
      Lts.AllSteps Exchange.step CycleDelivers w run := by
  intro hall
  have hrun : ((Exchange.init 0 1 7 0 (consecutive 1 1) (consecutive 1 1) (fun c => c.2)
      (fun _ => 9)).toOption.bind fun w =>
        (Lts.exec Exchange.step w crossed).bind fun w₁ =>
            (w₁.step .waitRecv).map fun w₂ =>
              (w₁.contents[w₁.completed]?.bind fun held => held[0]?,
                w₁.rvs[0]?.map fun r => r.contents w₂.receiver.heap))
      = some (some [0], some [1]) := by decide +kernel
  obtain ⟨w, hw, hrun⟩ := Option.bind_eq_some_iff.mp hrun
  obtain ⟨w₁, hw₁, hrun⟩ := Option.bind_eq_some_iff.mp hrun
  obtain ⟨w₂, hw₂, hvalues⟩ := Option.map_eq_some_iff.mp hrun
  have hsteps := hall 0 1 7 0 _ _ _ _ w (crossed ++ [.waitRecv]) (paired_consecutive (by decide))
    (Outcome.toOption_eq_some.mp hw)
  have hcycle := ((Lts.allSteps_append.mp hsteps).2 w₁ hw₁ w₂ hw₂).1
  obtain ⟨hheld, hgot⟩ := Prod.mk.inj hvalues
  obtain ⟨r, hr, hcontents⟩ := Option.map_eq_some_iff.mp hgot
  have heq := hcycle 0 r hr
  rw [hheld, hcontents] at heq
  cases heq

end KokkosComm.Mpi
