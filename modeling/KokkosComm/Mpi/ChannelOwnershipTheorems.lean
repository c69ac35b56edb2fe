/-
KokkosComm.Mpi.ChannelOwnershipTheorems — a channel owns its persistent
requests.

Whatever operations run on any number of channels, the program keeps its
requests exactly as `ChannelOp.custody` says (`Keeps`, a simulation): each
request is kept by one channel until it is freed, in the order of
registration, with the endpoints it was registered with. The one thing
that depends on the run is the count that `start` and `wait` hand to MPI:
it is the size of the vector as an `int`, so they act on all the requests
exactly while there are fewer than 2^31 (`channelsOwned_iff`).
-/
import KokkosComm.Mpi.ChannelOwnership

namespace KokkosComm.Mpi

open Channels

/-- Request `h` was created by a call for the endpoints `e`. -/
def RegisteredFor (w : Channels) (h : Nat) (e : Endpoints) : Prop :=
  w.endpoints[h]? = some e ∧ ∃ call, w.mpi[h]? = some call ∧ call.comm = e.comm ∧
    (call.fn = .mpiSendInit e.dst_rank e.tag ∨ call.fn = .mpiRecvInit e.src_rank e.tag)

/-- The request at a place of a live channel. -/
def HoldsAt (w : Channels) (place : ObjId × Nat) (h : Nat) : Prop :=
  ∃ c, w.objs place.1 = some c ∧ c.requests_[place.2]? = some (some h)

/-- What `Channel` promises in a state that some operations have led to. -/
structure ChannelsOwned (ops : List ChannelOp) (w : Channels) : Prop where
  exclusive : w.log.Exclusive (HoldsAt w)
  released : (∀ r, w.objs r = none) → ∀ h < w.mpi.length, w.log.freed.count h = 1
  endpoints : ∀ r c, w.objs r = some c → ∀ h, some h ∈ c.requests_ →
    RegisteredFor w h c.endpoints
  statuses : ∀ r c, w.objs r = some c → c.statuses_ = c.requests_.length
  start : ∀ r c, w.objs r = some c →
    c.start = .returns (((ChannelOp.custody ops).of r).map some)
  wait : ∀ r c, w.objs r = some c →
    c.wait = .returns (((ChannelOp.custody ops).of r).map some)

/-! ## The calls of a channel -/

/-- What a registration does to a channel and to the table of requests. -/
structure Registers (c c' : Channel) (mpi mpi' : PersistentTable) : Prop where
  requests : c'.requests_ = c.requests_ ++ [some mpi.length]
  statuses : c'.statuses_ = c'.requests_.length
  endpoints : c'.endpoints = c.endpoints
  call : ∃ call, mpi' = mpi ++ [call] ∧ call.comm = c.comm_ ∧
    (call.fn = .mpiSendInit c.dst_rank_ c.tag_ ∨ call.fn = .mpiRecvInit c.src_rank_ c.tag_)

theorem Channel.registers_init {c c' : Channel} {fn : PersistentFn} {failure : String}
    {view : View} {elemSize : Nat} {mpi mpi' : PersistentTable}
    (hfn : fn = .mpiSendInit c.dst_rank_ c.tag_ ∨ fn = .mpiRecvInit c.src_rank_ c.tag_)
    (h : c.init fn failure view elemSize mpi = .returns (c', mpi')) :
    Registers c c' mpi mpi' := by
  unfold Channel.init at h
  obtain ⟨⟨err, request, table⟩, hinit, h⟩ := Outcome.bind_eq_returns.mp h
  obtain ⟨u, hfail, h⟩ := Outcome.bind_eq_returns.mp h
  unfold mpiInit at hinit
  split at hinit
  · -- a rejected count ends the process
    cases hinit
    cases hfail
  · cases hinit
    cases h
    exact ⟨rfl, rfl, rfl, _, rfl, rfl, hfn⟩

theorem Channel.registers_sendinit {c c' : Channel} {view : View} {elemSize : Nat}
    {mpi mpi' : PersistentTable} (h : c.sendinit view elemSize mpi = .returns (c', mpi')) :
    Registers c c' mpi mpi' :=
  registers_init (.inl rfl) h

theorem Channel.registers_recvinit {c c' : Channel} {view : View} {elemSize : Nat}
    {mpi mpi' : PersistentTable} (h : c.recvinit view elemSize mpi = .returns (c', mpi')) :
    Registers c c' mpi mpi' :=
  registers_init (.inr rfl) h

theorem Channel.start_eq (c : Channel) : c.start =
    if CInt.ofSize c.requests_.length < 0 then .aborts
    else .returns (c.requests_.take (CInt.ofSize c.requests_.length).toNat) := by
  unfold Channel.start mpiStartall
  split <;> rfl

theorem Channel.wait_eq {c : Channel} (hs : c.statuses_ = c.requests_.length) : c.wait =
    if CInt.ofSize c.requests_.length < 0 then .aborts
    else .returns (c.requests_.take (CInt.ofSize c.requests_.length).toNat) := by
  have hle : ¬ c.statuses_ < (CInt.ofSize c.requests_.length).toNat := by
    have := CInt.toNat_ofSize_le c.requests_.length
    omega
  unfold Channel.wait mpiWaitallPersistent
  split
  · rfl
  · -- the array of statuses is as long as the requests
    rfl

theorem take_ofSize_eq_iff {rs : List MpiRequest} :
    (if CInt.ofSize rs.length < 0 then (.aborts : Outcome (List MpiRequest))
      else .returns (rs.take (CInt.ofSize rs.length).toNat)) = .returns rs ↔
    rs.length < 2147483648 := by
  rw [Outcome.ite_aborts_eq_returns, ← CInt.ofSize_eq_self_iff]
  have hle := CInt.ofSize_le rs.length
  simp only [Outcome.returns.injEq, List.take_eq_self_iff]
  constructor
  · intro ⟨hpos, hlen⟩
    omega
  · intro heq
    omega

/-- A channel starts all its requests while their number is an `int`. -/
theorem Channel.start_eq_iff (c : Channel) :
    c.start = .returns c.requests_ ↔ c.requests_.length < 2147483648 := by
  rw [c.start_eq]
  exact take_ofSize_eq_iff

theorem Channel.wait_eq_iff {c : Channel} (hs : c.statuses_ = c.requests_.length) :
    c.wait = .returns c.requests_ ↔ c.requests_.length < 2147483648 := by
  rw [wait_eq hs]
  exact take_ofSize_eq_iff

theorem Channel.start_subset {c : Channel} {rs : List MpiRequest} (h : c.start = .returns rs) :
    rs ⊆ c.requests_ := by
  rw [c.start_eq, Outcome.ite_aborts_eq_returns] at h
  cases h.2
  exact List.take_subset _ _

theorem Channel.wait_subset {c : Channel} (hs : c.statuses_ = c.requests_.length)
    {rs : List MpiRequest} (h : c.wait = .returns rs) : rs ⊆ c.requests_ := by
  rw [wait_eq hs, Outcome.ite_aborts_eq_returns] at h
  cases h.2
  exact List.take_subset _ _

theorem freeRequests_map_some (hs : List Nat) (log : Ledger) :
    Channel.freeRequests log (hs.map some) = log.freeAll hs := by
  induction hs generalizing log with
  | nil => rfl
  | cons h hs ih => exact ih (log.free h)

theorem useRequests_eq {k : Custody ObjId} (hk : k.WellKept) {r : ObjId} {rs : List MpiRequest}
    (hrs : rs ⊆ (k.of r).map some) : useRequests k.ledger rs = k.ledger := by
  induction rs with
  | nil => rfl
  | cons q rs ih =>
    obtain ⟨h, hh, rfl⟩ := List.mem_map.mp (hrs (List.mem_cons_self ..))
    have huse : k.ledger.use h = k.ledger := Ledger.use_of_live (hk.live hh).2
    simp only [useRequests, huse]
    exact ih fun q' hq' => hrs (List.mem_cons_of_mem _ hq')

/-! ## The simulation -/

/-- What each live channel keeps to. -/
def Sound (w : Channels) (c : Channel) : Prop :=
  c.statuses_ = c.requests_.length ∧ ∀ h, some h ∈ c.requests_ → RegisteredFor w h c.endpoints

/-- The program keeps its requests as the custody says. -/
structure Keeps (w : Channels) (k : Custody ObjId) : Prop where
  kept : k.WellKept
  log : w.log = k.ledger
  table : w.mpi.length = k.next
  recorded : w.endpoints.length = k.next
  requests : Custody.Backs Channel.requests_ some w.objs k
  sound : ∀ r c, w.objs r = some c → Sound w c

theorem keeps_start : Keeps start .empty where
  kept := .empty
  log := rfl
  table := rfl
  recorded := rfl
  requests := fun _ => rfl
  sound := fun _ _ h => by cases h

variable {w w' : Channels} {k : Custody ObjId}

/-- Sound objects stay so, and the object that is replaced becomes so. -/
theorem sound_update {r : ObjId} {v : Option Channel} (hw : ∀ p c, w.objs p = some c → Sound w' c)
    (hv : ∀ c, v = some c → Sound w' c) :
    ∀ p c, Function.update w.objs r v p = some c → Sound w' c := by
  intro p c hc
  by_cases hp : p = r
  · subst hp
    rw [Function.update_self] at hc
    exact hv c hc
  · rw [Function.update_of_ne hp] at hc
    exact hw p c hc

theorem sound_empty {c : Channel} (hr : c.requests_ = []) (hs : c.statuses_ = 0) : Sound w c := by
  simp [Sound, hr, hs]

theorem Keeps.construct (hw : Keeps w k) {r : ObjId} {c : Channel} (hnone : w.objs r = none)
    (hr : c.requests_ = []) (hs : c.statuses_ = 0) : Keeps (w.set r (some c)) k where
  kept := hw.kept
  log := hw.log
  table := hw.table
  recorded := hw.recorded
  requests := hw.requests.replace (by simp [hr, hw.requests.of_none hnone])
  sound := by
    refine sound_update hw.sound ?_
    intro c' hc'
    cases hc'
    exact sound_empty hr hs

/-- Registrations only add to the two tables. -/
theorem RegisteredFor.append {h : Nat} {e e' : Endpoints} {call : PersistentCall}
    (hmpi : w'.mpi = w.mpi ++ [call]) (hend : w'.endpoints = w.endpoints ++ [e'])
    (hr : RegisteredFor w h e) : RegisteredFor w' h e := by
  obtain ⟨he, call', hcall, hrest⟩ := hr
  have hlt : h < w.endpoints.length := (List.getElem?_eq_some_iff.mp he).1
  have hlt' : h < w.mpi.length := (List.getElem?_eq_some_iff.mp hcall).1
  have he' : w'.endpoints[h]? = some e := by
    simpa [hend, List.getElem?_append_left hlt] using he
  have hcall₂ : w'.mpi[h]? = some call' := by
    simpa [hmpi, List.getElem?_append_left hlt'] using hcall
  exact ⟨he', call', hcall₂, hrest⟩

theorem Keeps.register (hw : Keeps w k) {r : ObjId}
    {init : Channel → PersistentTable → Outcome (Channel × PersistentTable)}
    (hinit : ∀ c c' mpi mpi', init c mpi = .returns (c', mpi') → Registers c c' mpi mpi')
    (h : w.register r init = some w') : Keeps w' (k.acquire r) := by
  unfold Channels.register at h
  split at h
  · rename_i c hc
    split at h
    · rename_i c' mpi' hret
      obtain ⟨hreq, hstat, hend, call, rfl, hcomm, hfn⟩ := hinit c c' _ _ hret
      cases h
      constructor
      · exact hw.kept.acquire r
      · rw [Custody.acquire_ledger, ← hw.log]
      · simp [Custody.acquire, hw.table]
      · simp [Custody.acquire, hw.recorded]
      · exact hw.requests.acquire (by simp [hreq, hw.requests.of_some hc, hw.table])
      · refine sound_update (fun p c₂ hc₂ => ?_) ?_
        · exact ⟨(hw.sound p c₂ hc₂).1, fun h hm =>
            RegisteredFor.append rfl rfl ((hw.sound p c₂ hc₂).2 h hm)⟩
        · intro c₂ hc₂
          cases hc₂
          refine ⟨hstat, fun h hm => ?_⟩
          rw [hreq, List.mem_append] at hm
          rw [hend]
          rcases hm with hm | hm
          · exact RegisteredFor.append rfl rfl ((hw.sound r c hc).2 h hm)
          · -- the request just created
            obtain rfl : h = w.mpi.length := by simpa using hm
            have hlen : w.mpi.length = w.endpoints.length := hw.table.trans hw.recorded.symm
            exact ⟨by simp [hlen], call, by simp, hcomm, hfn⟩
    · cases h
  · cases h

theorem Keeps.act (hw : Keeps w k) {r : ObjId} {call : Channel → Outcome (List MpiRequest)}
    (hcall : ∀ c rs, Sound w c → call c = .returns rs → rs ⊆ c.requests_)
    (h : w.act r call = some w') : Keeps w' k := by
  unfold Channels.act at h
  split at h
  · rename_i c hc
    split at h
    · rename_i rs hret
      have hsub : rs ⊆ (k.of r).map some := by
        rw [← hw.requests.of_some hc]
        exact hcall c rs (hw.sound r c hc) hret
      cases h
      exact { hw with log := by simp only [hw.log, useRequests_eq hw.kept hsub] }
    · cases h
  · cases h

theorem Keeps.freed (hw : Keeps w k) {r : ObjId} {c : Channel} (hc : w.objs r = some c) :
    (c.releaseRequests w.log).2 = (k.release r).ledger := by
  simp only [Channel.releaseRequests, hw.requests.of_some hc, freeRequests_map_some, hw.log]
  exact hw.kept.freeAll_eq r

theorem Keeps.destroy (hw : Keeps w k) {r : ObjId} {c : Channel} (hc : w.objs r = some c) :
    Keeps { w.set r none with log := c.destructor w.log } (k.release r) where
  kept := hw.kept.release r
  log := hw.freed hc
  table := hw.table
  recorded := hw.recorded
  requests := hw.requests.release rfl
  sound := sound_update hw.sound fun _ hc' => by cases hc'

/-- Everything `src` keeps goes to `dst`, whose own requests are released
(a channel just being constructed has none). -/
theorem Keeps.move (hw : Keeps w k) {dst src : ObjId} (hne : dst ≠ src) {other : Channel}
    (hsrc : w.objs src = some other) {log : Ledger} (hlog : log = (k.release dst).ledger) :
    Keeps { (w.set src (some other.moveConstruct.2)).set dst (some other) with log := log }
      (k.transfer dst src) := by
  have hnext : (k.transfer dst src).next = k.next := by simp [Custody.transfer, hne]
  have hledger : (k.transfer dst src).ledger = (k.release dst).ledger := by
    simp [Custody.transfer, hne]
  have hleft : ∀ p c, (w.set src (some other.moveConstruct.2)).objs p = some c → Sound w c := by
    refine sound_update hw.sound ?_
    intro c hc
    cases hc
    exact sound_empty rfl rfl
  constructor
  · exact hw.kept.transfer dst src
  · rw [hledger, ← hlog]
  · exact hw.table.trans hnext.symm
  · exact hw.recorded.trans hnext.symm
  · exact hw.requests.transfer hne (hw.requests.of_some hsrc) rfl
  · refine sound_update hleft ?_
    intro c hc
    cases hc
    exact hw.sound src other hsrc

theorem Keeps.step {op : ChannelOp} (hw : Keeps w k) (h : w.step op = some w') :
    Keeps w' (op.keep k) := by
  cases op with
  | construct r e =>
    simp only [Channels.step] at h
    split at h
    · rename_i hnone
      cases h
      exact hw.construct hnone rfl rfl
    · cases h
  | sendinit r view elemSize =>
    exact hw.register (fun _ _ _ _ => Channel.registers_sendinit) h
  | recvinit r view elemSize =>
    exact hw.register (fun _ _ _ _ => Channel.registers_recvinit) h
  | start r => exact hw.act (fun _ _ _ => Channel.start_subset) h
  | wait r => exact hw.act (fun _ _ hs => Channel.wait_subset hs.1) h
  | moveConstruct dst src =>
    simp only [Channels.step] at h
    split at h
    · rename_i other hnone hsrc
      cases h
      have hne : dst ≠ src := by
        intro heq
        simp [heq, hsrc] at hnone
      have hlog : w.log = (k.release dst).ledger := by
        simp [Custody.ledger, Custody.release, hw.requests.of_none hnone, hw.log]
      exact hw.move hne hsrc hlog
    · cases h
  | moveAssign dst src =>
    simp only [Channels.step] at h
    split at h
    · rename_i this other hdst hsrc
      split at h
      · rename_i heq
        cases h
        simpa [ChannelOp.keep, heq] using hw
      · rename_i hne
        cases h
        exact hw.move hne hsrc (hw.freed hdst)
    · cases h
  | destroy r =>
    simp only [Channels.step] at h
    split at h
    · rename_i c hc
      cases h
      exact hw.destroy hc
    · cases h

/-- Every run keeps to the custody of its operations. -/
theorem keeps_of_exec {ops : List ChannelOp} (h : Lts.exec step start ops = some w) :
    Keeps w (ChannelOp.custody ops) :=
  Lts.exec_simulation (fun _ _ _ _ hw hs => hw.step hs) keeps_start h

/-! ## Ownership -/

theorem Keeps.exclusive (hw : Keeps w k) : w.log.Exclusive (HoldsAt w) := by
  rw [hw.log]
  refine hw.kept.exclusive_place.congr ?_
  intro ⟨r, i⟩ h
  cases hc : w.objs r with
  | none => simp [HoldsAt, hc, hw.requests.of_none hc]
  | some c => simp [HoldsAt, hc, hw.requests.of_some hc]

theorem Keeps.released (hw : Keeps w k) (hnone : ∀ r, w.objs r = none) {h : Nat}
    (hlt : h < w.mpi.length) : w.log.freed.count h = 1 := by
  have hnext : h < w.log.next := by
    rw [hw.log, Custody.ledger_next, ← hw.table]
    exact hlt
  refine hw.exclusive.count_freed ?_ hnext
  intro ⟨r, i⟩ h' ⟨c, hc, _⟩
  simp [hnone r] at hc

/-- **Ownership of the persistent requests**: in every state a program can
reach, `Channel` keeps its promises exactly when no channel has so many
requests that their number is not an `int`. Only what `start` and `wait`
act on depends on that. -/
theorem channelsOwned_iff (ops : List ChannelOp) (w : Channels)
    (h : Lts.exec step start ops = some w) :
    ChannelsOwned ops w ↔ ∀ r c, w.objs r = some c → c.requests_.length < 2147483648 := by
  have hw := keeps_of_exec h
  constructor
  · intro howned r c hc
    rw [← c.start_eq_iff, howned.start r c hc, ← hw.requests.of_some hc]
  · intro hfit
    refine ⟨hw.exclusive, fun hnone _ => hw.released hnone, fun r c hc => (hw.sound r c hc).2,
      fun r c hc => (hw.sound r c hc).1, fun r c hc => ?_, fun r c hc => ?_⟩
    · rw [← hw.requests.of_some hc]
      exact c.start_eq_iff.mpr (hfit r c hc)
    · rw [← hw.requests.of_some hc]
      exact (Channel.wait_eq_iff (hw.sound r c hc).1).mpr (hfit r c hc)

/-- A view of one element. -/
def singleElement : View := .line 0 0 1 1

/-- Two channels, moved onto each other, and a third that takes over. -/
def movedChannels : List ChannelOp :=
  [.construct 0 ⟨1, 1, 7, 0⟩, .construct 1 ⟨2, 2, 8, 0⟩, .sendinit 0 singleElement 1,
    .recvinit 0 singleElement 1, .sendinit 1 singleElement 1, .start 0, .wait 0, .moveAssign 1 0,
    .moveAssign 1 1, .sendinit 0 singleElement 1, .moveConstruct 2 1, .start 2, .wait 2, .destroy 0]

theorem channelsOwned_movedChannels :
    ∃ w, Lts.exec step start movedChannels = some w ∧ ChannelsOwned movedChannels w := by
  have hsome : (Lts.exec step start movedChannels).isSome = true := by decide +kernel
  obtain ⟨w, hw⟩ := Option.isSome_iff_exists.mp hsome
  refine ⟨w, hw, (channelsOwned_iff movedChannels w hw).mpr fun r c hc => ?_⟩
  have hreq := (keeps_of_exec hw).requests.of_some hc
  have hle := (ChannelOp.custody movedChannels).length_of_le r
  have hheld : (ChannelOp.custody movedChannels).held.length = 2 := by decide
  rw [hreq, List.length_map]
  omega

/-! ## More requests than an `int` counts -/

theorem Channel.sendinit_returns {view : View} (hv : 0 ≤ spanCount view) (c : Channel)
    (elemSize : Nat) (mpi : PersistentTable) :
    ∃ c' mpi', c.sendinit view elemSize mpi = .returns (c', mpi') := by
  unfold Channel.sendinit Channel.init mpiInit
  rw [if_neg (by simpa using hv)]
  exact ⟨_, _, rfl⟩

/-- Any number of sends can be registered. -/
theorem exec_sendinit {view : View} (hv : 0 ≤ spanCount view) (r : ObjId) (elemSize n : Nat)
    {c : Channel} (hc : w.objs r = some c) :
    ∃ w' c', Lts.exec step w (List.replicate n (.sendinit r view elemSize)) = some w' ∧
      w'.objs r = some c' ∧ c'.requests_.length = c.requests_.length + n := by
  induction n generalizing w c with
  | zero => exact ⟨w, c, rfl, hc, rfl⟩
  | succ n ih =>
    obtain ⟨c₁, mpi₁, hinit⟩ := c.sendinit_returns hv elemSize w.mpi
    let w₁ : Channels := { w.set r (some c₁) with
      mpi       := mpi₁
      log       := w.log.create.2
      endpoints := w.endpoints ++ [c.endpoints] }
    have hstep : w.step (.sendinit r view elemSize) = some w₁ := by
      simp [Channels.step, Channels.register, hc, hinit, w₁]
    have hc₁ : w₁.objs r = some c₁ := by simp [w₁, Channels.set]
    obtain ⟨w', c', hexec, hc', hlen⟩ := ih hc₁
    refine ⟨w', c', ?_, hc', ?_⟩
    · rw [List.replicate_succ, Lts.exec_cons, hstep]
      exact hexec
    · rw [hlen, (Channel.registers_sendinit hinit).requests, List.length_append,
        List.length_singleton]
      omega

/-- A channel with `n` sends registered on it. -/
def manySends (n : Nat) : List ChannelOp :=
  .construct 0 ⟨1, 1, 7, 0⟩ :: List.replicate n (.sendinit 0 singleElement 1)

theorem exec_manySends (n : Nat) : ∃ w c, Lts.exec step start (manySends n) = some w ∧
    w.objs 0 = some c ∧ c.requests_.length = n := by
  have hv : 0 ≤ spanCount singleElement := by decide +kernel
  let w₀ : Channels := start.set 0 (some (.new 1 1 7 0))
  have hc₀ : w₀.objs 0 = some (.new 1 1 7 0) := by simp [w₀, Channels.set]
  obtain ⟨w, c, hexec, hc, hlen⟩ := exec_sendinit hv 0 1 n hc₀
  exact ⟨w, c, hexec, hc, by simpa [Channel.new] using hlen⟩

/-- With 2^32 requests the count is 0, and `start` starts none of them. -/
theorem start_starts_nothing :
    ¬ ∀ ops w, Lts.exec step start ops = some w → ChannelsOwned ops w := by
  intro h
  obtain ⟨w, c, hrun, hc, hlen⟩ := exec_manySends 4294967296
  have hreq := (keeps_of_exec hrun).requests.of_some hc
  have hstart := (h _ w hrun).start 0 c hc
  rw [← hreq, c.start_eq_iff, hlen] at hstart
  exact absurd hstart (by decide)

end KokkosComm.Mpi
