/-
KokkosComm.Mpi.ChannelProgressTheorems — a cycle that both sides have
started can be completed, by MPI alone.

Requests of different lengths can be started in orders in which a message
meets a receive that is too short for it, which ends the process. With views
of one length there is no such order: what has not been read can be read, and
what has been read can be delivered, until the waits return.

§1 what the tables hold. §2 MPI goes on until nothing is left. §3 the same
holds for all views where MPI starts requests in the order in which they
were registered. §4 the results.
-/
import KokkosComm.Foundation.Diamond
import KokkosComm.Mpi.ChannelRunTheorems

namespace KokkosComm.Mpi

open Lts

variable {α : Type}

/-! ## §1 The requests of both sides -/

/-- Registering notes the routine's function and the communicator. -/
theorem calls_registerAll (fn : Channel → PersistentFn) {failure : String}
    (hfn : ∀ (c : Channel) requests statuses,
      fn { c with requests_ := requests, statuses_ := statuses } = fn c)
    {rest : List Registered} {c c' : Channel} {mpi mpi' : PersistentTable}
    (hold : ∀ call ∈ mpi, call.fn = fn c ∧ call.comm = c.comm_)
    (hall : registerAll (fun c v n mpi => c.init (fn c) failure v n mpi) rest c mpi =
      .returns (c', mpi')) : ∀ call ∈ mpi', call.fn = fn c ∧ call.comm = c.comm_ := by
  induction rest generalizing c mpi with
  | nil =>
    cases hall
    exact hold
  | cons r rest ih =>
    obtain ⟨⟨c₁, mpi₁⟩, hinit, hall⟩ := Outcome.bind_eq_returns.mp hall
    unfold Channel.init mpiInit at hinit
    dsimp only at hinit
    by_cases hneg : spanCount r.view < 0
    · rw [if_pos hneg] at hinit
      cases hinit
    · rw [if_neg hneg] at hinit
      cases hinit
      intro call hcall
      have hnew := ih (fun call hcall => ?_) hall call hcall
      · rwa [hfn] at hnew
      · rw [hfn]
        rcases List.mem_append.mp hcall with hcall | hcall
        · exact hold call hcall
        · obtain rfl := List.mem_singleton.mp hcall
          exact ⟨rfl, rfl⟩

theorem Registration.wait_returns {rs : List Registered} {c : Channel} {mpi : PersistentTable}
    (h : Registration rs c mpi) (hexact : CInt.ofSize rs.length = rs.length) :
    c.wait = .returns ((List.range rs.length).map some) := by
  have hneg : ¬ ((rs.length : Int) < 0) := by omega
  unfold Channel.wait mpiWaitallPersistent
  rw [h.requests, h.statuses, List.length_map, List.length_range, hexact, if_neg hneg,
    if_neg (by simp)]
  simp [failIf]

namespace Exchange

/-- Both tables are of requests that match. -/
structure Linked (w : Exchange α) : Prop extends Running w where
  exact : CInt.ofSize w.svs.length = w.svs.length
  matching : ∀ send ∈ w.sender.mpi, ∀ recv ∈ w.receiver.mpi,
    PersistentCall.matching w.a w.b send recv = true

variable {w w' : Exchange α}

theorem linked_init {a b tag : Int} {comm : MpiComm} {svs rvs : List Registered} {hs hr : Heap α}
    (hpaired : Paired svs rvs) (hlen : svs.length < 2147483648)
    (hsizes : ∀ s ∈ svs, s.view.size < 2147483648)
    (h : init a b tag comm svs rvs hs hr = .returns w) : Linked w := by
  have hexact := CInt.ofSize_of_lt hlen
  have hrunning := running_init hpaired
    ⟨.inr hexact, fun s hs => .inr (CInt.ofSize_of_lt (hsizes s hs))⟩ h
  obtain ⟨⟨sc, sm⟩, hsend, h⟩ := Outcome.bind_eq_returns.mp h
  obtain ⟨⟨rc, rm⟩, hrecv, h⟩ := Outcome.bind_eq_returns.mp h
  cases h
  refine { hrunning with exact := hexact, matching := ?_ }
  intro send hs recv hr
  obtain ⟨hsfn, hscomm⟩ := calls_registerAll (fun c => .mpiSendInit c.dst_rank_ c.tag_)
    (fun _ _ _ => rfl) (by simp) hsend send hs
  obtain ⟨hrfn, hrcomm⟩ := calls_registerAll (fun c => .mpiRecvInit c.src_rank_ c.tag_)
    (fun _ _ _ => rfl) (by simp) hrecv recv hr
  simp [PersistentCall.matching, hsfn, hrfn, hscomm, hrcomm, Channel.new]

theorem Linked.step {x : Act α} (hw : Linked w) (h : w.step x = some w') : Linked w' := by
  obtain ⟨ha, hb, hsvs, hsend, hrecv⟩ := step_frame h
  refine { hw.toRunning.step h with exact := ?_, matching := ?_ }
  · rw [hsvs]
    exact hw.exact
  · rw [ha, hb, hsend, hrecv]
    exact hw.matching

/-- Requests that meet are of one length. -/
structure Ready (w : Exchange α) : Prop extends Linked w where
  fits : ∀ (k s r : Nat), (w.sends.map Sent.request)[k]? = some s →
    (w.recvs.map Posted.request)[k]? = some r → w.lengthAt s = w.lengthAt r

theorem Running.request_lt (hw : Running w) {k : Nat} :
    (∀ s, (w.sends.map Sent.request)[k]? = some s → s < w.svs.length) ∧
      ∀ r, (w.recvs.map Posted.request)[k]? = some r → r < w.svs.length := by
  refine ⟨fun s hs => ?_, fun r hr => ?_⟩
  · obtain ⟨c, hc, p, hp, rfl⟩ :=
      Rounds.exists_index hw.sendRounds.length (List.getElem?_eq_some_iff.mp hs).1
    exact hw.sendRounds.lt_of_getElem? hc hp hs
  · obtain ⟨c, hc, p, hp, rfl⟩ :=
      Rounds.exists_index hw.recvRounds.length (List.getElem?_eq_some_iff.mp hr).1
    exact hw.recvRounds.lt_of_getElem? hc hp hr

theorem Linked.ready_of_uniform (hw : Linked w)
    (huniform : ∀ s ∈ w.svs, ∀ s' ∈ w.svs, s.length = s'.length) : Ready w := by
  refine { hw with fits := fun k s r hs hr => ?_ }
  have hslt := hw.request_lt.1 s hs
  have hrlt := hw.request_lt.2 r hr
  rw [lengthAt_eq (List.getElem?_eq_getElem hslt), lengthAt_eq (List.getElem?_eq_getElem hrlt)]
  exact huniform _ (List.getElem_mem hslt) _ (List.getElem_mem hrlt)

/-! ## §2 What MPI does by itself -/

def Act.isMpi : Act α → Bool
  | .capture _ => true
  | .deliver _ => true
  | _ => false

/-- What MPI has not done yet. -/
def unfinished (w : Exchange α) : Nat :=
  (w.sends.countP fun s => s.message.isNone) + w.recvs.countP fun r => !r.arrived

/-- Both sides have made the same calls. -/
structure SameCalls (w w' : Exchange α) : Prop where
  sender : w'.sender.active = w.sender.active
  receiver : w'.receiver.active = w.receiver.active
  contents : w'.contents = w.contents
  completed : w'.completed = w.completed
  sends : w'.sends.map Sent.request = w.sends.map Sent.request
  recvs : w'.recvs.map Posted.request = w.recvs.map Posted.request

theorem SameCalls.refl (w : Exchange α) : SameCalls w w := ⟨rfl, rfl, rfl, rfl, rfl, rfl⟩

theorem SameCalls.trans {w₁ w₂ w₃ : Exchange α} (h : SameCalls w₁ w₂) (h' : SameCalls w₂ w₃) :
    SameCalls w₁ w₃ where
  sender := h'.sender.trans h.sender
  receiver := h'.receiver.trans h.receiver
  contents := h'.contents.trans h.contents
  completed := h'.completed.trans h.completed
  sends := h'.sends.trans h.sends
  recvs := h'.recvs.trans h.recvs

theorem countP_set_lt {β : Type} {l : List β} {p : β → Bool} {k : Nat} {x y : β}
    (hx : l[k]? = some x) (hpx : p x = true) (hpy : p y = false) :
    (l.set k y).countP p < l.countP p := by
  obtain ⟨hlt, hget⟩ := List.getElem?_eq_some_iff.mp hx
  have hpos : 0 < l.countP p := List.countP_pos_iff.mpr ⟨x, List.mem_of_getElem? hx, hpx⟩
  rw [List.countP_set hlt, hget, if_pos hpx, hpy]
  simp only [Bool.false_eq_true, if_false]
  omega

/-- Each of its acts leaves less to do. -/
theorem unfinished_lt {x : Act α} (hx : x.isMpi = true) (h : w.step x = some w') :
    unfinished w' < unfinished w ∧ SameCalls w w' := by
  have h : w.perform x = .returns w' := Outcome.toOption_eq_some.mp h
  cases x with
  | capture k =>
    obtain ⟨r, call, hk, -, rfl⟩ := perform_capture h
    exact ⟨Nat.add_lt_add_right (countP_set_lt hk rfl rfl) _, rfl, rfl, rfl, rfl,
      Rounds.map_set_eq hk rfl, rfl⟩
  | deliver k =>
    obtain ⟨s, message, r, call, -, hr, -, -, rfl⟩ := perform_deliver h
    exact ⟨Nat.add_lt_add_left (countP_set_lt hr rfl rfl) _, rfl, rfl, rfl, rfl, rfl,
      Rounds.map_set_eq hr rfl⟩
  | _ => cases hx

theorem Ready.step_of_isMpi {x : Act α} (hw : Ready w) (hx : x.isMpi = true)
    (h : w.step x = some w') : Ready w' := by
  obtain ⟨-, hsame⟩ := unfinished_lt hx h
  refine { hw.toLinked.step h with fits := ?_ }
  rw [hsame.sends, hsame.recvs]
  simp only [lengthAt, (step_frame h).2.2.1]
  exact hw.fits

/-- What has not been read can be read. -/
theorem Ready.can_capture (hw : Ready w) {k r : Nat}
    (hk : w.sends[k]? = some { request := r, message := none }) :
    ∃ w', w.step (.capture k) = some w' := by
  obtain ⟨c, hc, p, hp, rfl⟩ :=
    Rounds.exists_index hw.sends_length (List.getElem?_eq_some_iff.mp hk).1
  have hr : r < w.sender.mpi.length := by
    rw [hw.sender.length]
    exact hw.sendRounds.lt_of_getElem? hc hp (by rw [List.getElem?_map, hk]; rfl)
  have hcall := List.getElem?_eq_getElem hr
  simp [Exchange.step, perform, hk, hcall, Outcome.toOption]

/-- What has been read fits where it goes. -/
theorem Ready.can_deliver (hw : Ready w) {k s r : Nat} {message : List α}
    (hs : w.sends[k]? = some { request := s, message := some message })
    (hr : w.recvs[k]? = some { request := r, arrived := false }) :
    ∃ w', w.perform (.deliver k) = .returns w' := by
  obtain ⟨c, hc, p, hp, rfl⟩ :=
    Rounds.exists_index hw.sends_length (List.getElem?_eq_some_iff.mp hs).1
  have hc' := Rounds.lt_of_index hw.recvs_length (List.getElem?_eq_some_iff.mp hr).1
  obtain ⟨sv, hsv, hlen⟩ := hw.message_length hp hs
  have hsm : s < w.sender.mpi.length := by
    rw [hw.sender.length]
    exact (List.getElem?_eq_some_iff.mp hsv).1
  have hrlt : r < w.svs.length :=
    hw.recvRounds.lt_of_getElem? hc' hp (by rw [List.getElem?_map, hr]; rfl)
  have hrm : r < w.receiver.mpi.length := by
    rw [hw.receiver.length, hw.paired.count]
    exact hrlt
  have hsend := List.getElem?_eq_getElem hsm
  have hrecv := List.getElem?_eq_getElem hrm
  obtain ⟨rv, hrv, hcells⟩ := hw.recv_cells hrecv
  obtain ⟨sv', hsv'⟩ : ∃ sv', w.svs[r]? = some sv' := ⟨_, List.getElem?_eq_getElem hrlt⟩
  have hsame := hw.fits _ s r (by rw [List.getElem?_map, hs]; rfl)
    (by rw [List.getElem?_map, hr]; rfl)
  rw [lengthAt_eq hsv, lengthAt_eq hsv'] at hsame
  have hfits : message.length ≤ (w.receiver.mpi[r]).cells.length := by
    rw [hcells, hlen, hsame, ← hw.paired.length_eq hsv' hrv]
    simp [Registered.cells]
  have hmatching := hw.matching _ (List.mem_of_getElem? hsend) _ (List.mem_of_getElem? hrecv)
  simp [perform, hs, hr, hsend, hrecv, hmatching, PersistentCall.receive, hfits]

theorem Ready.deliver_ne_aborts (hw : Ready w) (k : Nat) : w.perform (.deliver k) ≠ .aborts := by
  intro h
  cases hs : w.sends[k]? with
  | none => simp [perform, hs] at h
  | some send =>
    obtain ⟨s, message⟩ := send
    cases message with
    | none => simp [perform, hs] at h
    | some x =>
      cases hr : w.recvs[k]? with
      | none => simp [perform, hs, hr] at h
      | some recv =>
        obtain ⟨r, arrived⟩ := recv
        cases arrived with
        | true => simp [perform, hs, hr] at h
        | false =>
          obtain ⟨w', hw'⟩ := hw.can_deliver hs hr
          rw [hw'] at h
          cases h

/-- When MPI has nothing left to do, all has been read, … -/
theorem Ready.all_read (hw : Ready w) (hstuck : Stuck (only Act.isMpi Exchange.step) w) :
    ∀ s ∈ w.sends, s.message.isSome := by
  intro s hs
  obtain ⟨k, hk⟩ := List.mem_iff_getElem?.mp hs
  obtain ⟨r, message⟩ := s
  cases message with
  | some x => rfl
  | none =>
    obtain ⟨w', hw'⟩ := hw.can_capture hk
    have hnone : w.step (.capture k) = none := hstuck (.capture k)
    rw [hw'] at hnone
    cases hnone

/-- … and all has arrived in a cycle that the sender has started. -/
theorem Ready.all_delivered (hw : Ready w) (hstuck : Stuck (only Act.isMpi Exchange.step) w)
    (hstarted : w.completed < w.contents.length) : ∀ r ∈ w.recvs, r.arrived = true := by
  intro r hr
  obtain ⟨k, hk⟩ := List.mem_iff_getElem?.mp hr
  obtain ⟨r, arrived⟩ := r
  cases arrived with
  | true => rfl
  | false =>
    obtain ⟨c, hc, p, hp, rfl⟩ :=
      Rounds.exists_index hw.recvs_length (List.getElem?_eq_some_iff.mp hk).1
    obtain ⟨-, rfl⟩ := hw.pending c p r hp hk
    -- Only the receiver's next cycle is open, and the sender has started it.
    have hlt : w.completed * w.svs.length + p < w.sends.length := by
      have hle : (w.completed + 1) * w.svs.length ≤ w.contents.length * w.svs.length :=
        Nat.mul_le_mul_right _ hstarted
      rw [Nat.succ_mul] at hle
      rw [hw.sends_length]
      omega
    have hget := List.getElem?_eq_getElem hlt
    obtain ⟨x, hx⟩ :=
      Option.isSome_iff_exists.mp (hw.all_read hstuck _ (List.mem_of_getElem? hget))
    obtain ⟨w', hw'⟩ := hw.can_deliver (hget.trans (by rw [← hx])) hk
    have hnone : w.step (.deliver (w.completed * w.svs.length + p)) = none := hstuck (.deliver _)
    rw [Exchange.step, hw'] at hnone
    cases hnone

/-- The waits return then. -/
theorem Ready.can_waitSend (hw : Ready w) (hstuck : Stuck (only Act.isMpi Exchange.step) w)
    (hactive : w.sender.active = true) : ∃ w', w.step .waitSend = some w' := by
  have hwait := hw.sender.wait_returns hw.exact
  simp only [Exchange.step, perform, hwait, Outcome.returns_bind]
  rw [if_pos hactive, if_pos fun s hs _ => hw.all_read hstuck s hs]
  exact ⟨_, rfl⟩

theorem Ready.can_waitRecv (hw : Ready w) (hstuck : Stuck (only Act.isMpi Exchange.step) w)
    (hactive : w.receiver.active = true) (hstarted : w.completed < w.contents.length) :
    ∃ w', w.step .waitRecv = some w' := by
  have hwait := hw.receiver.wait_returns (by rw [hw.paired.count]; exact hw.exact)
  simp only [Exchange.step, perform, hwait, Outcome.returns_bind]
  rw [if_pos hactive, if_pos fun r hr _ => hw.all_delivered hstuck hstarted r hr]
  exact ⟨_, rfl⟩

/-- MPI gets there from everywhere. -/
theorem Ready.exists_stuck (hw : Ready w) : ∃ acts t, exec Exchange.step w acts = some t ∧
    (∀ x ∈ acts, Act.isMpi x = true) ∧ Stuck (only Act.isMpi Exchange.step) t ∧ Ready t ∧
      SameCalls w t := by
  have hstep : ∀ (u : Exchange α) r x u', (Ready u ∧ SameCalls w u ∧ unfinished u = r) →
      only Act.isMpi Exchange.step u x = some u' →
      ∃ r', r' < r ∧ Ready u' ∧ SameCalls w u' ∧ unfinished u' = r' := by
    rintro u r x u' ⟨hu, hsame, rfl⟩ h
    obtain ⟨hx, h⟩ := only_eq_some.mp h
    obtain ⟨hlt, hsame'⟩ := unfinished_lt hx h
    exact ⟨_, hlt, hu.step_of_isMpi hx h, hsame.trans hsame', rfl⟩
  have hstart : Ready w ∧ SameCalls w w ∧ unfinished w = unfinished w :=
    ⟨hw, SameCalls.refl w, rfl⟩
  obtain ⟨acts, t, hacts, hstuck⟩ := exists_end_of_rank hstep hstart
  obtain ⟨r', ⟨ht, hsame, -⟩, -⟩ := exists_rank_of_exec hstep hstart hacts
  obtain ⟨hacts, hmpi⟩ := exec_only.mp hacts
  exact ⟨acts, t, hacts, hmpi, hstuck, ht, hsame⟩

/-- No delivery is an error, and MPI can do what is left on its own, so that the
sender's wait returns, and that of the receiver when the sender has started
the cycle, too. -/
def Completes (w : Exchange α) : Prop :=
  (∀ k, w.perform (.deliver k) ≠ .aborts) ∧
    (w.sender.active = true → ∃ acts w', (∀ x ∈ acts, Act.isMpi x = true) ∧
      exec Exchange.step w (acts ++ [.waitSend]) = some w') ∧
    (w.receiver.active = true → w.completed < w.contents.length →
      ∃ acts w', (∀ x ∈ acts, Act.isMpi x = true) ∧
        exec Exchange.step w (acts ++ [.waitRecv]) = some w')

theorem Ready.completes (hw : Ready w) : Completes w := by
  obtain ⟨acts, t, hacts, hmpi, hstuck, ht, hsame⟩ := hw.exists_stuck
  refine ⟨fun k => hw.deliver_ne_aborts k, fun hactive => ?_, fun hactive hstarted => ?_⟩
  · obtain ⟨w', hw'⟩ := ht.can_waitSend hstuck (hsame.sender.trans hactive)
    exact ⟨acts, w', hmpi, exec_append_eq_some.mpr ⟨t, hacts, exec_singleton hw'⟩⟩
  · obtain ⟨w', hw'⟩ := ht.can_waitRecv hstuck (hsame.receiver.trans hactive)
      (by rw [hsame.completed, hsame.contents]; exact hstarted)
    exact ⟨acts, w', hmpi, exec_append_eq_some.mpr ⟨t, hacts, exec_singleton hw'⟩⟩

/-! ## §3 Requests that are started in order -/

/-- The requests are started in the order of the array. -/
def Act.inOrder (m : Nat) : Act α → Bool
  | .startSend order => order == List.range m
  | .startRecv order => order == List.range m
  | _ => true

structure InOrder (w : Exchange α) : Prop extends Linked w where
  sendOrder : Rounds.InOrder w.svs.length (w.sends.map Sent.request)
  recvOrder : Rounds.InOrder w.svs.length (w.recvs.map Posted.request)

theorem Linked.inOrder_init {a b tag : Int} {comm : MpiComm} {svs rvs : List Registered}
    {hs hr : Heap α} (hw : Linked w) (h : init a b tag comm svs rvs hs hr = .returns w) :
    InOrder w := by
  obtain ⟨⟨sc, sm⟩, -, h⟩ := Outcome.bind_eq_returns.mp h
  obtain ⟨⟨rc, rm⟩, -, h⟩ := Outcome.bind_eq_returns.mp h
  cases h
  exact { hw with sendOrder := .nil _, recvOrder := .nil _ }

theorem InOrder.step {x : Act α} (hw : InOrder w) (hx : x.inOrder w.svs.length = true)
    (h : w.step x = some w') : InOrder w' := by
  have hlinked := hw.toLinked.step h
  have h : w.perform x = .returns w' := Outcome.toOption_eq_some.mp h
  cases x with
  | startSend order =>
    obtain rfl : order = List.range w.svs.length := by simpa [Act.inOrder] using hx
    obtain ⟨started, -, -, -, rfl⟩ := perform_startSend h
    refine { hlinked with sendOrder := ?_, recvOrder := hw.recvOrder }
    simpa [Function.comp_def] using hw.sendOrder.append hw.sendRounds.length
  | startRecv order =>
    obtain rfl : order = List.range w.svs.length := by simpa [Act.inOrder] using hx
    obtain ⟨started, -, -, -, rfl⟩ := perform_startRecv h
    refine { hlinked with sendOrder := hw.sendOrder, recvOrder := ?_ }
    simpa [Function.comp_def] using hw.recvOrder.append hw.recvRounds.length
  | capture k =>
    obtain ⟨-, hsame⟩ := unfinished_lt rfl (Outcome.toOption_eq_some.mpr h)
    obtain ⟨r, call, -, -, rfl⟩ := perform_capture h
    exact { hlinked with sendOrder := hsame.sends ▸ hw.sendOrder, recvOrder := hw.recvOrder }
  | deliver k =>
    obtain ⟨-, hsame⟩ := unfinished_lt rfl (Outcome.toOption_eq_some.mpr h)
    obtain ⟨s, message, r, call, -, -, -, -, rfl⟩ := perform_deliver h
    exact { hlinked with sendOrder := hw.sendOrder, recvOrder := hsame.recvs ▸ hw.recvOrder }
  | waitSend =>
    obtain ⟨waited, -, -, rfl⟩ := perform_waitSend h
    exact { hlinked with sendOrder := hw.sendOrder, recvOrder := hw.recvOrder }
  | waitRecv =>
    obtain ⟨waited, -, -, -, rfl⟩ := perform_waitRecv h
    exact { hlinked with sendOrder := hw.sendOrder, recvOrder := hw.recvOrder }
  | writeSend c x =>
    obtain ⟨-, rfl⟩ := perform_writeSend h
    exact { hlinked with sendOrder := hw.sendOrder, recvOrder := hw.recvOrder }
  | writeRecv c x =>
    obtain ⟨-, rfl⟩ := perform_writeRecv h
    exact { hlinked with sendOrder := hw.sendOrder, recvOrder := hw.recvOrder }

/-- Then each view meets its own. -/
theorem InOrder.ready (hw : InOrder w) : Ready w :=
  { hw with
    fits := fun k s r hs hr => by rw [hw.sendOrder k s hs, hw.recvOrder k r hr] }

theorem InOrder.cycleDelivers (hw : InOrder w) {x : Act α} (h : w.step x = some w') :
    CycleDelivers w x w' := by
  cases x with
  | waitRecv =>
    intro j rv hrv
    obtain ⟨σ, hmatch, hσ⟩ := hw.cycle_matching h
    have hjlt : j < w.svs.length := by
      rw [← hw.paired.count]
      exact (List.getElem?_eq_some_iff.mp hrv).1
    -- Both requests stand at the same place of their cycle, which is their number.
    obtain ⟨p, hp, hi, hj⟩ := hmatch ⟨j, hjlt⟩
    have hself : (σ ⟨j, hjlt⟩).val = j := (hw.sendOrder _ _ hi).trans (hw.recvOrder _ _ hj).symm
    obtain ⟨sv, hsv⟩ : ∃ sv, w.svs[(σ ⟨j, hjlt⟩).val]? = some sv :=
      ⟨_, List.getElem?_eq_getElem (σ ⟨j, hjlt⟩).isLt⟩
    obtain ⟨-, hmsg⟩ := hσ ⟨j, hjlt⟩ sv rv hsv hrv
    rw [hself] at hmsg
    exact hmsg
  | startSend order => trivial
  | startRecv order => trivial
  | capture k => trivial
  | deliver k => trivial
  | waitSend => trivial
  | writeSend c x => trivial
  | writeRecv c x => trivial

end Exchange

/-! ## §4 Cycles come to their end -/

open Exchange

/-- **No cycle hangs** with views of one length, in any state of any run. -/
theorem channel_cycle_completes {a b tag : Int} {comm : MpiComm} {svs rvs : List Registered}
    {hs hr : Heap α} {w₀ w : Exchange α} (hpaired : Paired svs rvs)
    (hlen : svs.length < 2147483648) (hsizes : ∀ s ∈ svs, s.view.size < 2147483648)
    (huniform : ∀ s ∈ svs, ∀ s' ∈ svs, s.length = s'.length)
    (hinit : Exchange.init a b tag comm svs rvs hs hr = .returns w₀) {run : List (Act α)}
    (hrun : exec Exchange.step w₀ run = some w) :
    Completes w := by
  have hlinked : Linked w ∧ w.svs = svs :=
    inv_of_exec (I := fun w => Linked w ∧ w.svs = svs)
      (fun _ _ _ hw h => ⟨hw.1.step h, (step_frame h).2.2.1.trans hw.2⟩)
      ⟨linked_init hpaired hlen hsizes hinit, svs_init hinit⟩ hrun
  obtain ⟨hlinked, rfl⟩ := hlinked
  exact (hlinked.ready_of_uniform huniform).completes

/-- Both sides have started a cycle with two views of one element, in different
orders. -/
theorem channel_cycle_completes_crossed : ∃ w₀ w : Exchange Nat,
    Exchange.init 0 1 7 0 (consecutive 1 1) (consecutive 1 1) (fun c => c.2) (fun _ => 9) =
      .returns w₀ ∧
    exec Exchange.step w₀ [.startSend [1, 0], .startRecv [0, 1]] = some w ∧
    (∃ acts w', (∀ x ∈ acts, Act.isMpi x = true) ∧
      exec Exchange.step w (acts ++ [.waitSend]) = some w') ∧
    ∃ acts w', (∀ x ∈ acts, Act.isMpi x = true) ∧
      exec Exchange.step w (acts ++ [.waitRecv]) = some w' := by
  have hrun : ((Exchange.init 0 1 7 0 (consecutive 1 1) (consecutive 1 1) (fun c => c.2)
      (fun _ => 9)).toOption.bind fun w₀ =>
        (exec Exchange.step w₀ [.startSend [1, 0], .startRecv [0, 1]]).map fun w =>
          (w.sender.active, w.receiver.active, w.completed, w.contents.length))
      = some (true, true, 0, 1) := by decide +kernel
  obtain ⟨w₀, hw₀, hrun⟩ := Option.bind_eq_some_iff.mp hrun
  obtain ⟨w, hw, hvalues⟩ := Option.map_eq_some_iff.mp hrun
  obtain ⟨hsend, hrecv, hcompleted, hcontents⟩ : w.sender.active = true ∧
      w.receiver.active = true ∧ w.completed = 0 ∧ w.contents.length = 1 := by
    simpa using hvalues
  have hw₀ := Outcome.toOption_eq_some.mp hw₀
  obtain ⟨-, hsender, hreceiver⟩ := channel_cycle_completes (paired_consecutive (by decide))
    (by decide) (by decide) (by decide) hw₀ hw
  exact ⟨w₀, w, hw₀, hw, hsender hsend, hreceiver hrecv (by omega)⟩

/-- **Registration order**: when MPI starts the requests of an array in order,
views of any lengths are exchanged as they were registered, and no cycle
hangs. -/
theorem channel_in_order {a b tag : Int} {comm : MpiComm} {svs rvs : List Registered}
    {hs hr : Heap α} {w₀ w : Exchange α} (hpaired : Paired svs rvs)
    (hlen : svs.length < 2147483648) (hsizes : ∀ s ∈ svs, s.view.size < 2147483648)
    (hinit : Exchange.init a b tag comm svs rvs hs hr = .returns w₀) {run : List (Act α)}
    (horder : ∀ x ∈ run, Act.inOrder svs.length x = true)
    (hrun : exec Exchange.step w₀ run = some w) :
    (∀ x w', w.step x = some w' → CycleDelivers w x w') ∧ Completes w := by
  have hrun' : exec (only (Act.inOrder svs.length) Exchange.step) w₀ run = some w :=
    exec_only.mpr ⟨hrun, horder⟩
  have hinorder : InOrder w ∧ w.svs = svs := by
    refine inv_of_exec (I := fun w => InOrder w ∧ w.svs = svs) ?_
      ⟨(linked_init hpaired hlen hsizes hinit).inOrder_init hinit, svs_init hinit⟩ hrun'
    rintro u x u' ⟨hu, rfl⟩ h
    obtain ⟨hx, h⟩ := only_eq_some.mp h
    exact ⟨hu.step hx h, (step_frame h).2.2.1⟩
  exact ⟨fun x w' h => hinorder.1.cycleDelivers h, hinorder.1.ready.completes⟩

/-- Two views of one element, started in order. -/
theorem channel_in_order_two : ∃ w₀ w : Exchange Nat,
    Exchange.init 0 1 7 0 (consecutive 1 1) (consecutive 1 1) (fun c => c.2) (fun _ => 9) =
      .returns w₀ ∧
    exec Exchange.step w₀ [.startSend [0, 1], .startRecv [0, 1], .capture 1] = some w ∧
    Completes w := by
  have hrun : ((Exchange.init 0 1 7 0 (consecutive 1 1) (consecutive 1 1) (fun c => c.2)
      (fun _ => 9)).toOption.bind fun w₀ =>
        exec Exchange.step w₀ [.startSend [0, 1], .startRecv [0, 1], .capture 1]).isSome
      = true := by decide +kernel
  obtain ⟨w, hrun⟩ := Option.isSome_iff_exists.mp hrun
  obtain ⟨w₀, hw₀, hw⟩ := Option.bind_eq_some_iff.mp hrun
  have hw₀ := Outcome.toOption_eq_some.mp hw₀
  obtain ⟨-, hcompletes⟩ := channel_in_order (paired_consecutive (by decide)) (by decide)
    (by decide) hw₀ (by decide) hw
  exact ⟨w₀, w, hw₀, hw, hcompletes⟩

end KokkosComm.Mpi
