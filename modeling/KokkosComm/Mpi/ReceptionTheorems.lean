/-
KokkosComm.Mpi.ReceptionTheorems — when a receive on the MPI backend never
corrupts its view.

An initiated receive is in flight until its message arrives, so that a
completion call that covers it reports it with the message in the buffer
(`Receiving.Inv`). A failed one has the null handle (`Receiving.Failed`),
and every completion call that returns reports it complete.
-/
import KokkosComm.Mpi.Reception
import KokkosComm.Mpi.FencingTheorems
import KokkosComm.Mpi.RequestTheorems
import KokkosComm.Mpi.TransferTheorems

namespace KokkosComm.Mpi

open Routine
open Nccl (runCallbacks)

variable {α : Type}

/-! ## The call -/

section Call

variable (code : Int) {rv : View} (src : Int) (comm : MpiComm)

theorem startReturning_apply (call : MpiCall) (h : Host) : ∃ host,
    startReturning code call h = .returns
      (if code = mpiSuccess ∧ call.validCounts = true then some h.nextOp else none, host) := by
  unfold startReturning
  by_cases hok : code = mpiSuccess ∧ call.validCounts = true
  · simp only [if_pos hok]
    exact ⟨_, Routine.start_eq_returns.mpr ⟨hok.2, rfl⟩⟩
  · simp only [if_neg hok]
    exact ⟨h, rfl⟩

/-- Where `MPI_Irecv` succeeds, this is the routine. -/
theorem recvExecute_of_success {h h' : Host} {call : MpiCall} {req : Request Callback}
    (hrun : recvReturning mpiSuccess rv src comm h = .returns ((call, req), h'))
    (hvalid : call.validCounts = true) : recvExecute rv src comm h = .returns (req, h') := by
  rw [recvExecute_parts]
  obtain ⟨⟨⟨call', wrap⟩, h₁⟩, hcall, hrun⟩ := Outcome.bind_eq_returns.mp hrun
  obtain ⟨⟨request, h₂⟩, hstart, hrun⟩ := Outcome.bind_eq_returns.mp hrun
  cases hrun
  rw [startReturning, if_pos ⟨rfl, hvalid⟩] at hstart
  simp [hcall, hstart]

/-- What `recv` returns. -/
structure Initiated (code : Int) (rv : View) (nextOp : OpId) (a : AllocId) (call : MpiCall)
    (req : Request Callback) : Prop where
  recvbuf : call.recvbuf = some (rv.handed a)
  validCounts : call.validCounts = true ↔ 0 ≤ wireCount rv
  registered : ReceiveCallbacks rv a req.callbacks_
  request : req.request_ =
    if code = mpiSuccess ∧ call.validCounts = true then some nextOp else none

/-- Up to the MPI call: the buffer is handed out, the callbacks are chosen. -/
theorem recvUpToMpi_spec (rv : View) (h : Host) : ∃ call wrap host,
    recvUpToMpi rv src comm h = .returns ((call, wrap), host) ∧ host.nextOp = h.nextOp ∧
      call.recvbuf = some (rv.handed h.nextAlloc) ∧
      (call.validCounts = true ↔ 0 ≤ wireCount rv) ∧
      ∀ request, (wrap request).request_ = request ∧
        ReceiveCallbacks rv h.nextAlloc (wrap request).callbacks_ := by
  unfold recvUpToMpi
  cases hc : rv.isContiguous with
  | true =>
    rw [View.handed_of_contiguous _ hc]
    refine ⟨_, _, _, rfl, rfl, rfl, ?_, fun request => ?_⟩
    · simp [MpiCall.validCounts, spanCount_of_contiguous hc]
    · unfold Request.extendViewLifetime
      split
      · exact ⟨rfl, (receiveCallbacks_nil hc).keepAlive rv⟩
      · exact ⟨rfl, receiveCallbacks_nil hc⟩
  | false =>
    rw [View.handed_of_packed _ hc]
    refine ⟨_, _, _, rfl, rfl, rfl, ?_, fun request => ⟨rfl, receiveCallbacks_unpack hc _⟩⟩
    rw [View.contiguousView_span]
    simp [MpiCall.validCounts, wireCount]

theorem recvReturning_spec (rv : View) (h : Host) : ∃ call req host,
    recvReturning code rv src comm h = .returns ((call, req), host) ∧
      Initiated code rv h.nextOp h.nextAlloc call req := by
  obtain ⟨call, wrap, h₁, hrun, hop, hbuf, hvalid, hwrap⟩ := recvUpToMpi_spec src comm rv h
  obtain ⟨h₂, hstart⟩ := startReturning_apply code call h₁
  rw [hop] at hstart
  refine ⟨call, wrap _, h₂, ?_, hbuf, hvalid, (hwrap _).2, (hwrap _).1⟩
  simp [recvReturning, hrun, hstart]

end Call

/-! ## Completion calls -/

namespace Receiving

variable {rv : View} {a : AllocId} {op : OpId} {s s' : Receiving α}

/-- A completion call has reported the operations of `passed`, and the
request among others; its callbacks have run, and others that spare the
receive. -/
structure Reports (rv : View) (a : AllocId) (s s' : Receiving α) (passed : List MpiRequest) :
    Prop where
  eq : ∃ ran request, s' = s.ran ran { request_ := request, callbacks_ := [] }
    (s.lib.settle passed passed) true ∧ s.req.callbacks_ ⊆ ran ∧
      ∀ cb ∈ ran, cb ∈ s.req.callbacks_ ∨ Spares rv a cb
  done : ∀ r ∈ passed, s.lib.done r = true

theorem wait_cases (rv : View) (a : AllocId) (hs : step s .wait = some s') :
    ∃ passed, Reports rv a s s' passed ∧ s.req.request_ ∈ passed := by
  obtain ⟨⟨ran, req, lib⟩, hwait, hs⟩ := Option.bind_eq_some_iff.mp hs
  obtain ⟨hd, hout⟩ := Request.wait_eq_returns (Outcome.toOption_eq_some.mp hwait)
  cases hout
  cases hs
  exact ⟨[s.req.request_], ⟨⟨_, _, rfl, List.Subset.refl _, fun cb hcb => .inl hcb⟩,
    by simpa using hd⟩, .head _⟩

theorem test_cases (rv : View) (a : AllocId) (hs : step s .test = some s') :
    (∃ passed, Reports rv a s s' passed ∧ s.req.request_ ∈ passed) ∨
      s.lib.done s.req.request_ = false ∧
        s' = { s with lib := s.lib.settle [s.req.request_] [] } := by
  obtain ⟨⟨completed, ran, req, lib⟩, htest, hs⟩ := Option.bind_eq_some_iff.mp hs
  rcases Request.test_eq_returns (Outcome.toOption_eq_some.mp htest) with ⟨hd, hout⟩ | ⟨hd, hout⟩
  · cases hout
    cases hs
    exact .inl ⟨[s.req.request_], ⟨⟨_, _, rfl, List.Subset.refl _, fun cb hcb => .inl hcb⟩,
      by simpa using hd⟩, .head _⟩
  · cases hout
    cases hs
    refine .inr ⟨hd, ?_⟩
    rw [Receiving.ran, Bool.or_false]
    rfl

theorem waitAll_cases {before after : List (Request Callback)}
    (hs : step s (.waitAll before after) = some s')
    (hspares : ∀ r ∈ before ++ after, ∀ cb ∈ r.callbacks_, Spares rv a cb) :
    ∃ passed, Reports rv a s s' passed ∧ (Covers before after → s.req.request_ ∈ passed) := by
  obtain ⟨⟨ran, requests, lib⟩, hwait, hs⟩ := Option.bind_eq_some_iff.mp hs
  obtain ⟨-, hall, hout⟩ := waitAll_eq_returns (Outcome.toOption_eq_some.mp hwait)
  cases hout
  obtain ⟨req, hreq, hs⟩ := Option.bind_eq_some_iff.mp hs
  cases hs
  rw [List.map_append, List.map_cons, List.getElem?_append_right (by simp)] at hreq
  simp only [List.length_map, Nat.sub_self, List.getElem?_cons_zero, Option.some.injEq] at hreq
  subst hreq
  refine ⟨passedHandles (before ++ s.req :: after),
    ⟨⟨_, _, rfl, fun cb hcb => ?_, fun cb hcb => ?_⟩, List.all_eq_true.mp hall⟩,
    fun hcovers => ?_⟩
  · exact List.mem_flatMap.mpr ⟨s.req, by simp, hcb⟩
  · obtain ⟨r, hr, hcb⟩ := List.mem_flatMap.mp hcb
    rcases (by simpa using hr : r ∈ before ∨ r = s.req ∨ r ∈ after) with hr | rfl | hr
    · exact .inr (hspares r (List.mem_append_left _ hr) cb hcb)
    · exact .inl hcb
    · exact .inr (hspares r (List.mem_append_right _ hr) cb hcb)
  · -- the place of the request is before the end of what MPI looks at
    have hlen : (before ++ s.req :: after).length = before.length + 1 + after.length := by
      simp only [List.length_append, List.length_cons]
      omega
    unfold Covers at hcovers
    refine List.mem_of_getElem? (i := before.length) ?_
    rw [passedHandles, hlen, List.getElem?_take_of_lt (by omega)]
    simp

/-- Without a message, such a call breaks the promise. -/
theorem Reports.not_uncorrupted {passed : List MpiRequest} {P : Prop} {initial : Heap α}
    (h : Reports rv a s s' passed) (hnone : s.arrived = none) :
    ¬ s'.Uncorrupted rv P initial := by
  obtain ⟨ran, request, rfl, -, -⟩ := h.eq
  intro huncorrupted
  obtain ⟨message, hmessage, -⟩ := huncorrupted.holds (Bool.or_true _)
  cases hnone.symm.trans hmessage

/-! ## A receive that was initiated -/

/-- The operation of the receive is `op`; it is over only when the message
has arrived. -/
structure Inv (rv : View) (a : AllocId) (op : OpId) (s : Receiving α) : Prop where
  started : s.started = some op
  recvbuf : s.call.recvbuf = some (rv.handed a)
  request : s.req.request_ = some op ∨ s.reported = true
  completes : s.lib.status op ≠ .inFlight → s.arrived ≠ none
  sound : s.toReception.Sound rv a s.req.callbacks_

/-- A completion call that has waited for the handle of the request. -/
theorem Inv.arrived_of_done (h : s.Inv rv a op) (hd : s.lib.done s.req.request_ = true) :
    s.arrived ≠ none := by
  rcases h.request with hreq | hr
  · rw [hreq] at hd
    exact h.completes (Library.done_iff.mp hd)
  · obtain ⟨message, harrived, -⟩ := h.sound.holds hr
    simp [harrived]

/-- A completion call reports operations that are over. -/
theorem Inv.completes_settle (h : s.Inv rv a op) {passed reported : List MpiRequest}
    (hdone : ∀ r ∈ reported, s.lib.done r = true)
    (hop : (s.lib.settle passed reported).status op ≠ .inFlight) : s.arrived ≠ none := by
  by_cases hmem : some op ∈ reported
  · exact h.completes (Library.done_iff.mp (hdone _ hmem))
  · rw [Library.settle_status_of_not_mem hmem] at hop
    exact h.completes hop

theorem Inv.reports (h : s.Inv rv a op) (ha : rv.alloc ≠ a) {passed : List MpiRequest}
    (hreports : Reports rv a s s' passed) (hmessage : s.arrived ≠ none) : s'.Inv rv a op := by
  obtain ⟨ran, request, rfl, hown, hothers⟩ := hreports.eq
  refine ⟨h.started, h.recvbuf, .inr (Bool.or_true _), h.completes_settle hreports.done, ?_⟩
  rw [Receiving.ran, Bool.or_true]
  obtain ⟨message, harrived⟩ := Option.ne_none_iff_exists'.mp hmessage
  exact h.sound.report ha hothers (List.nil_subset _) ⟨message, harrived, .inr hown⟩

theorem step_inv (ha : rv.alloc ≠ a) (h : s.Inv rv a op) {act : ReceivingAction α}
    (hs : step s act = some s') (hact : act.Allowed rv a) (hsafe : s.Safe True act) :
    s'.Inv rv a op := by
  cases act with
  | arrive message =>
    simp only [step, h.started] at hs
    split at hs
    · rename_i op' _ hop hnone
      cases hop
      obtain ⟨memory, hreceive, hs⟩ := Option.bind_eq_some_iff.mp hs
      simp only [Outcome.toOption_eq_some, MpiCall.receive, h.recvbuf] at hreceive
      obtain ⟨hlen, rfl⟩ := Outcome.ite_eq_returns.mp hreceive
      cases hs
      exact ⟨rfl, h.recvbuf, h.request, fun _ => Option.some_ne_none _,
        h.sound.arrive hnone hlen⟩
    · cases hs
  | finish op' =>
    simp only [step] at hs
    split at hs
    · cases hs
    · rename_i hne
      have hne : op ≠ op' := fun heq => hne (by rw [h.started, heq])
      cases hs
      refine ⟨h.started, h.recvbuf, h.request, fun hop => h.completes ?_, h.sound⟩
      rwa [Library.finish_status_of_ne hne] at hop
  | wait =>
    obtain ⟨passed, hreports, hmem⟩ := wait_cases rv a hs
    exact h.reports ha hreports (h.arrived_of_done (hreports.done _ hmem))
  | test =>
    rcases test_cases rv a hs with ⟨passed, hreports, hmem⟩ | ⟨-, rfl⟩
    · exact h.reports ha hreports (h.arrived_of_done (hreports.done _ hmem))
    · exact ⟨h.started, h.recvbuf, h.request, h.completes_settle nofun, h.sound⟩
  | waitAll before after =>
    obtain ⟨passed, hreports, hmem⟩ := waitAll_cases hs hact
    refine h.reports ha hreports (hsafe.2.elim (fun hcovers => ?_) id)
    exact h.arrived_of_done (hreports.done _ (hmem hcovers))

/-- Any other step breaks the promise. -/
theorem not_uncorrupted_of_unsafe {P : Prop} {initial : Heap α} {act : ReceivingAction α}
    (hs : step s act = some s') (hact : act.Allowed rv a) (hnotSafe : ¬ s.Safe True act) :
    ¬ s'.Uncorrupted rv P initial := by
  cases act with
  | waitAll before after =>
    obtain ⟨passed, hreports, -⟩ := waitAll_cases hs hact
    refine hreports.not_uncorrupted ?_
    simpa [Safe] using fun h => hnotSafe ⟨trivial, .inr h⟩
  | _ => exact absurd trivial hnotSafe

theorem inv_start {code : Int} {call : MpiCall} {req : Request Callback} (memory : Heap α)
    (h : Initiated code rv op a call req) (hok : code = mpiSuccess ∧ call.validCounts = true) :
    (start memory call req).Inv rv a op := by
  have hreq := h.request
  rw [if_pos hok] at hreq
  exact ⟨hreq, h.recvbuf, .inl hreq, fun hn => absurd rfl hn,
    .of_receiveCallbacks h.registered memory⟩

/-! ## A receive that failed -/

/-- Nothing has happened to the receive. -/
structure Failed (initial : Heap α) (s : Receiving α) : Prop where
  started : s.started = none
  request : s.req.request_ = none
  arrived : s.arrived = none
  reported : s.reported = false
  memory : s.memory = initial

variable {initial : Heap α}

theorem Failed.uncorrupted (h : s.Failed initial) (P : Prop) : s.Uncorrupted rv P initial where
  holds := fun hr => by cases h.reported.symm.trans hr
  untouched := fun _ c _ => by rw [h.memory]

theorem Failed.step (h : s.Failed initial) {act : ReceivingAction α} (hs : step s act = some s')
    (hsafe : s.Safe False act) : s'.Failed initial := by
  cases act with
  | arrive message => simp [Receiving.step, h.started] at hs
  | finish op' =>
    simp only [Receiving.step] at hs
    split at hs
    · cases hs
    · cases hs
      exact ⟨h.started, h.request, h.arrived, h.reported, h.memory⟩
  | wait => exact hsafe.elim
  | test => exact hsafe.elim
  | waitAll before after => exact hsafe.1.elim

/-- The null handle is reported complete. -/
theorem Failed.not_uncorrupted (h : s.Failed initial) {P : Prop} {act : ReceivingAction α}
    (hs : Receiving.step s act = some s') (hact : act.Allowed rv a)
    (hnotSafe : ¬ s.Safe False act) : ¬ s'.Uncorrupted rv P initial := by
  cases act with
  | arrive message => exact absurd trivial hnotSafe
  | finish op' => exact absurd trivial hnotSafe
  | wait =>
    obtain ⟨passed, hreports, -⟩ := wait_cases rv a hs
    exact hreports.not_uncorrupted h.arrived
  | test =>
    rcases test_cases rv a hs with ⟨passed, hreports, -⟩ | ⟨hd, -⟩
    · exact hreports.not_uncorrupted h.arrived
    · rw [h.request] at hd
      cases hd
  | waitAll before after =>
    obtain ⟨passed, hreports, -⟩ := waitAll_cases hs hact
    exact hreports.not_uncorrupted h.arrived

theorem failed_start {code : Int} {call : MpiCall} {req : Request Callback} (memory : Heap α)
    (h : Initiated code rv op a call req)
    (hfail : ¬ (code = mpiSuccess ∧ call.validCounts = true)) :
    (start memory call req).Failed memory := by
  have hreq := h.request
  rw [if_neg hfail] at hreq
  exact ⟨hreq, hreq, rfl, rfl, rfl⟩

end Receiving

/-! ## All runs -/

namespace ReceiveRun

variable (r : ReceiveRun α)

theorem spec : Initiated r.code r.rv r.nextOp r.nextAlloc r.call r.req := by
  obtain ⟨call, req, host, hrun, h⟩ :=
    recvReturning_spec r.code r.src r.comm r.rv (.start r.nextOp r.nextAlloc)
  have heq := r.returns
  rw [hrun] at heq
  cases heq
  exact h

/-- A receive never corrupts its view exactly when no completion call comes
after a failed initiation, or leaves the request out before the message has
arrived. -/
theorem neverCorrupts_iff_safe : r.NeverCorrupts ↔ r.Safe := by
  have ha : r.rv.alloc ≠ r.nextAlloc := Nat.ne_of_lt r.fresh
  unfold NeverCorrupts Safe
  by_cases hok : r.initiated
  · rw [eq_true hok]
    exact Lts.allStates_iff_of_rule (I := Receiving.Inv r.rv r.nextAlloc r.nextOp)
      (fun s act s' h hs hact hsafe => Receiving.step_inv ha h hs hact hsafe)
      (fun s h => ⟨h.sound.holds, fun hn => absurd trivial hn⟩)
      (fun s act s' _ hs hact => Receiving.not_uncorrupted_of_unsafe hs hact)
      (Receiving.inv_start r.memory r.spec hok) r.allowed
  · rw [eq_false hok]
    exact Lts.allStates_iff_of_rule (I := Receiving.Failed r.memory)
      (fun s act s' h hs _ hsafe => h.step hs hsafe) (fun s h => h.uncorrupted False)
      (fun s act s' h hs hact => h.not_uncorrupted hs hact)
      (Receiving.failed_start r.memory r.spec hok) r.allowed

end ReceiveRun

end KokkosComm.Mpi
