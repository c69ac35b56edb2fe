/-
KokkosComm.Nccl.ReceptionTheorems — when a receive on the NCCL backend
never corrupts its view.

The event of an enqueued receive is complete only behind the receive
itself, so that a completion call that has found it complete reports it
with the message in the buffer (`Receiving.Inv`). The event of a failed one
completes without it, and is reported like any other.
-/
import KokkosComm.Nccl.PointToPointTheorems
import KokkosComm.Nccl.Reception
import KokkosComm.Nccl.WaitAllTheorems

namespace KokkosComm.Nccl

open Mpi (Callback)
open Routine

variable {α : Type}

/-! ## The call -/

theorem receiveCallbacks_extendViewLifetime {rv : View} {a : AllocId} {req : Request Callback}
    (h : ReceiveCallbacks rv a req.callbacks_) (v : View) :
    ReceiveCallbacks rv a (req.extendViewLifetime v).callbacks_ := by
  unfold Request.extendViewLifetime
  split
  · exact h.keepAlive v
  · exact h

theorem recv_request (rv : View) (peer : Int) (comm : NcclComm) (h : Host) : ∃ req host e,
    recv rv peer comm h = .returns (req, host) ∧ req.request_ = some e ∧
      ReceiveCallbacks rv h.nextAlloc req.callbacks_ := by
  unfold recv
  cases hc : rv.isContiguous with
  | true =>
    refine ⟨_, _, _, rfl, request_extendViewLifetime _ _, ?_⟩
    exact receiveCallbacks_extendViewLifetime (receiveCallbacks_nil hc) rv
  | false =>
    refine ⟨_, _, _, rfl, request_extendViewLifetime _ _, ?_⟩
    exact receiveCallbacks_extendViewLifetime (receiveCallbacks_unpack hc _) rv

/-! ## Completion calls -/

section WaitAll

variable {pending : EventId → Nat} {fuel : Nat} {req : Request Callback} {e : EventId}
  {out : List (Request Callback) × Cuda Callback}

/-- `wait_all` waits for the requests whose events it has found complete. -/
theorem finds_iff_reported (span : CapturedSpan Callback)
    (h : waitAll fuel span.requests (Cuda.scheduled pending) = .returns out)
    (hmem : e ∈ span.events) (he : req.request_ = some e) :
    Finds span.requests req pending ↔ e ∈ out.2.reported := by
  have hevents : span.requests.filterMap Request.request_ = span.events := by
    have := congrArg (List.filterMap id) span.captured
    simpa only [List.filterMap_map, Function.id_comp, List.filterMap_some] using this
  rw [waitAll_reported_iff h hmem]
  unfold Finds
  rw [hevents, he]
  exact ⟨fun hfinds => hfinds e rfl, fun hlt e' he' => by cases he'; exact hlt⟩

/-- A callback that has run belongs to the receive or to another request. -/
theorem waitAll_origin {rv : View} {a : AllocId} {before after : List (Request Callback)}
    (hspares : ∀ r ∈ before ++ after, ∀ cb ∈ r.callbacks_, Spares rv a cb)
    (h : waitAll fuel (before ++ req :: after) (Cuda.scheduled pending) = .returns out)
    (he : req.request_ = some e) :
    ∀ cb ∈ out.2.ran, Spares rv a cb ∨ cb ∈ req.callbacks_ ∧ e ∈ out.2.reported := by
  intro cb hcb
  rcases (waitAll_polled h).origin cb hcb with hnone | ⟨i, r, e', hr, hcb, he', hmem'⟩
  · cases hnone
  · have hr := List.mem_of_getElem? hr
    rcases (by simpa using hr : r ∈ before ∨ r = req ∨ r ∈ after) with hr | rfl | hr
    · exact .inl (hspares r (List.mem_append_left _ hr) cb hcb)
    · cases he.symm.trans he'
      exact .inr ⟨hcb, hmem'⟩
    · exact .inl (hspares r (List.mem_append_right _ hr) cb hcb)

end WaitAll

namespace Receiving

variable {rv : View} {a : AllocId} {s s' : Receiving α} {e : EventId}

/-- The request has been found complete, and its callbacks have run, with
others that spare the receive. -/
structure Reports (rv : View) (a : AllocId) (s s' : Receiving α) : Prop where
  ready : s.ready = true
  eq : ∃ ran req, s' = s.ran ran req true ∧ req.request_ = s.req.request_ ∧
    req.callbacks_ ⊆ s.req.callbacks_ ∧ s.req.callbacks_ ⊆ ran ∧
      ∀ cb ∈ ran, cb ∈ s.req.callbacks_ ∨ Spares rv a cb

/-- `wait_all` has returned without finding it complete: callbacks have run
that spare the receive. -/
def Skips (rv : View) (a : AllocId) (s s' : Receiving α) : Prop :=
  ∃ ran, s' = s.ran ran s.req true ∧ ∀ cb ∈ ran, Spares rv a cb

theorem wait_cases (rv : View) (a : AllocId) (he : s.req.request_ = some e)
    (hs : step s .wait = some s') : Reports rv a s s' := by
  simp only [step] at hs
  split at hs
  · rename_i hready
    obtain ⟨⟨req, c⟩, hwait, hs⟩ := Option.bind_eq_some_iff.mp hs
    rw [Outcome.toOption_eq_some, Request.wait, he] at hwait
    cases hwait
    cases hs
    exact ⟨hready, _, _, rfl, rfl, List.nil_subset _, List.Subset.refl _, fun cb hcb => .inl hcb⟩
  · cases hs

theorem test_cases (rv : View) (a : AllocId) (he : s.req.request_ = some e)
    (hs : step s .test = some s') : Reports rv a s s' ∨ s.ready = false ∧ s' = s := by
  obtain ⟨⟨completed, req, c⟩, htest, hs⟩ := Option.bind_eq_some_iff.mp hs
  rw [Outcome.toOption_eq_some, Request.test, he] at htest
  cases hready : s.ready with
  | true =>
    rw [hready] at htest
    cases htest
    cases hs
    exact .inl ⟨hready, _, _, rfl, rfl, List.nil_subset _, List.Subset.refl _,
      fun cb hcb => .inl hcb⟩
  | false =>
    rw [hready] at htest
    cases htest
    cases hs
    refine .inr ⟨rfl, ?_⟩
    rw [Receiving.ran, Bool.or_false]
    rfl

theorem waitAll_cases {before after : List (Request Callback)} {pending : EventId → Nat}
    {fuel : Nat} (he : s.req.request_ = some e)
    (hs : step s (.waitAll before after pending fuel) = some s')
    (hact : s.Allowed rv a (.waitAll before after pending fuel)) :
    (Reports rv a s s' ∧ Finds (before ++ s.req :: after) s.req pending) ∨
      (Skips rv a s s' ∧ ¬ Finds (before ++ s.req :: after) s.req pending) := by
  obtain ⟨⟨requests, c⟩, hwait, hs⟩ := Option.bind_eq_some_iff.mp hs
  obtain ⟨req, hreq, hs⟩ := Option.bind_eq_some_iff.mp hs
  rw [Outcome.toOption_eq_some] at hwait
  obtain ⟨hspares, events, hnd, hcap⟩ := hact
  let span : CapturedSpan Callback := ⟨before ++ s.req :: after, events, hcap, hnd⟩
  have hmem : e ∈ events := mem_events hcap (by simp) he
  have hfinds := finds_iff_reported span hwait hmem he
  have horigin := waitAll_origin hspares hwait he
  have hrequest := (waitAll_polled hwait).request before.length s.req (by simp)
  by_cases hfound : e ∈ c.reported
  · refine .inl ⟨?_, hfinds.mpr hfound⟩
    split at hs
    · rename_i hready
      cases hs
      refine ⟨hready.resolve_right fun h => h e he hfound, c.ran, req, rfl, ?_⟩
      have hothers : ∀ cb ∈ c.ran, cb ∈ s.req.callbacks_ ∨ Spares rv a cb := fun cb hcb =>
        (horigin cb hcb).symm.imp_left And.left
      rcases hrequest with hsame | ⟨-, -, -, hran, hclear⟩
      · cases hreq.symm.trans hsame
        have hnone := waitAll_cleared (s := span) hwait hmem hfound (List.mem_of_getElem? hreq) he
        refine ⟨rfl, List.Subset.refl _, ?_, hothers⟩
        rw [hnone]
        exact List.nil_subset _
      · cases hreq.symm.trans hclear
        exact ⟨rfl, List.nil_subset _, hran, hothers⟩
    · cases hs
  · refine .inr ⟨?_, fun h => hfound (hfinds.mp h)⟩
    split at hs
    · cases hs
      refine ⟨c.ran, ?_, fun cb hcb => (horigin cb hcb).resolve_right fun h => hfound h.2⟩
      rcases hrequest with hsame | ⟨e', he', hmem', -, -⟩
      · cases hreq.symm.trans hsame
        rfl
      · cases he.symm.trans he'
        exact absurd hmem' hfound
    · cases hs

/-- Without a message, a report breaks the promise. -/
theorem Reports.not_uncorrupted {P : Prop} {initial : Heap α} (h : Reports rv a s s')
    (hnone : s.arrived = none) : ¬ s'.Uncorrupted rv P initial := by
  obtain ⟨ran, req, rfl, -⟩ := h.eq
  intro huncorrupted
  obtain ⟨message, hmessage, -⟩ := huncorrupted.holds (Bool.or_true _)
  cases hnone.symm.trans hmessage

/-- So does a return without it, unless the view holds the message already. -/
theorem Skips.not_uncorrupted {P : Prop} {initial : Heap α} (h : Skips rv a s s')
    (hnot : ¬ ∃ message, s.arrived = some message ∧ rv.Holds message s.memory) :
    ¬ s'.Uncorrupted rv P initial := by
  obtain ⟨ran, rfl, hspares⟩ := h
  intro huncorrupted
  obtain ⟨message, hmessage, hholds⟩ := huncorrupted.holds (Bool.or_true _)
  refine hnot ⟨message, hmessage, fun hnd k i x hi hx => ?_⟩
  rw [← hholds hnd k i x hi hx]
  exact (runCallbacks_cell hspares s.memory (valid_of_route hi)).symm

/-! ## A receive that was enqueued -/

/-- The event of the request is complete only when the message has arrived. -/
structure Inv (rv : View) (a : AllocId) (e : EventId) (s : Receiving α) : Prop where
  enqueued : ∃ call, s.enqueued = some call ∧ call.recvbuff = some (dataHandle (rv.handed a))
  request : s.req.request_ = some e
  ready : s.ready = true → s.arrived ≠ none
  sound : s.toReception.Sound rv a s.req.callbacks_

theorem Inv.reports (h : s.Inv rv a e) (ha : rv.alloc ≠ a) (hreports : Reports rv a s s') :
    s'.Inv rv a e := by
  obtain ⟨message, harrived⟩ := Option.ne_none_iff_exists'.mp (h.ready hreports.ready)
  obtain ⟨ran, req, rfl, hreq, hleft, hown, hothers⟩ := hreports.eq
  refine ⟨h.enqueued, hreq.trans h.request, h.ready, ?_⟩
  rw [Receiving.ran, Bool.or_true]
  exact h.sound.report ha hothers hleft ⟨message, harrived, .inr hown⟩

theorem Inv.skips (h : s.Inv rv a e) (ha : rv.alloc ≠ a) (hskips : Skips rv a s s')
    (hholds : ∃ message, s.arrived = some message ∧ rv.Holds message s.memory) :
    s'.Inv rv a e := by
  obtain ⟨ran, rfl, hspares⟩ := hskips
  obtain ⟨message, harrived, hholds⟩ := hholds
  refine ⟨h.enqueued, h.request, h.ready, ?_⟩
  rw [Receiving.ran, Bool.or_true]
  exact h.sound.report ha (fun cb hcb => .inr (hspares cb hcb)) (List.Subset.refl _)
    ⟨message, harrived, .inl hholds⟩

theorem step_inv (ha : rv.alloc ≠ a) (h : s.Inv rv a e) {act : ReceivingAction α}
    (hs : step s act = some s') (hact : s.Allowed rv a act) (hsafe : s.Safe rv act) :
    s'.Inv rv a e := by
  cases act with
  | arrive message =>
    obtain ⟨call, hcall, hbuf⟩ := h.enqueued
    simp only [step, hcall, hbuf, Option.bind_eq_bind, Option.bind_some] at hs
    split at hs
    · rename_i hmessage
      cases hs
      exact ⟨⟨call, rfl, hbuf⟩, h.request, fun _ => Option.some_ne_none _,
        h.sound.arrive (Option.isNone_iff_eq_none.mp hmessage.1) hmessage.2.le⟩
    · cases hs
  | complete =>
    obtain ⟨call, hcall, hbuf⟩ := h.enqueued
    simp only [step, hcall] at hs
    split at hs
    · rename_i hready
      cases hs
      refine ⟨⟨call, rfl, hbuf⟩, h.request, fun _ => ?_, h.sound⟩
      simpa [Option.isSome_iff_ne_none] using hready
    · cases hs
  | wait => exact h.reports ha (wait_cases rv a h.request hs)
  | test =>
    rcases test_cases rv a h.request hs with hreports | ⟨-, rfl⟩
    · exact h.reports ha hreports
    · exact h
  | waitAll before after pending fuel =>
    rcases waitAll_cases h.request hs hact with ⟨hreports, -⟩ | ⟨hskips, hfinds⟩
    · exact h.reports ha hreports
    · exact h.skips ha hskips (hsafe.2.resolve_left hfinds)

/-- Any other step breaks the promise. -/
theorem Inv.not_uncorrupted_of_unsafe {P : Prop} {initial : Heap α} (h : s.Inv rv a e)
    {act : ReceivingAction α} (hs : step s act = some s') (hact : s.Allowed rv a act)
    (hnotSafe : ¬ s.Safe rv act) : ¬ s'.Uncorrupted rv P initial := by
  have henqueued : s.enqueued ≠ none := by
    obtain ⟨call, hcall, -⟩ := h.enqueued
    simp [hcall]
  cases act with
  | arrive message => exact absurd trivial hnotSafe
  | complete => exact absurd trivial hnotSafe
  | wait => exact absurd henqueued hnotSafe
  | test => exact absurd (.inl henqueued) hnotSafe
  | waitAll before after pending fuel =>
    rcases waitAll_cases h.request hs hact with ⟨-, hfinds⟩ | ⟨hskips, -⟩
    · exact absurd ⟨henqueued, .inl hfinds⟩ hnotSafe
    · exact hskips.not_uncorrupted fun hholds => hnotSafe ⟨henqueued, .inr hholds⟩

/-! ## A receive that failed -/

/-- Nothing has happened to the receive, but its event may be complete. -/
structure Failed (e : EventId) (initial : Heap α) (s : Receiving α) : Prop where
  enqueued : s.enqueued = none
  request : s.req.request_ = some e
  arrived : s.arrived = none
  reported : s.reported = false
  memory : s.memory = initial

variable {initial : Heap α}

theorem Failed.uncorrupted (h : s.Failed e initial) (P : Prop) : s.Uncorrupted rv P initial where
  holds := fun hr => by cases h.reported.symm.trans hr
  untouched := fun _ c _ => by rw [h.memory]

theorem Failed.step (h : s.Failed e initial) {act : ReceivingAction α}
    (hs : step s act = some s') (hsafe : s.Safe rv act) : s'.Failed e initial := by
  cases act with
  | arrive message => simp [Receiving.step, h.enqueued] at hs
  | complete =>
    simp only [Receiving.step] at hs
    split at hs
    · cases hs
      exact ⟨h.enqueued, h.request, h.arrived, h.reported, h.memory⟩
    · cases hs
  | wait => exact absurd h.enqueued hsafe
  | test =>
    have hready := hsafe.resolve_left fun hn => hn h.enqueued
    rcases test_cases rv 0 h.request hs with hreports | ⟨-, rfl⟩
    · cases hready.symm.trans hreports.ready
    · exact h
  | waitAll before after pending fuel => exact absurd h.enqueued hsafe.1

/-- The event is found complete, or the loop ends without it: reported
either way. -/
theorem Failed.not_uncorrupted (h : s.Failed e initial) {P : Prop} {act : ReceivingAction α}
    (hs : Receiving.step s act = some s') (hact : s.Allowed rv a act) (hnotSafe : ¬ s.Safe rv act) :
    ¬ s'.Uncorrupted rv P initial := by
  cases act with
  | arrive message => exact absurd trivial hnotSafe
  | complete => exact absurd trivial hnotSafe
  | wait => exact (wait_cases rv a h.request hs).not_uncorrupted h.arrived
  | test =>
    rcases test_cases rv a h.request hs with hreports | ⟨hready, -⟩
    · exact hreports.not_uncorrupted h.arrived
    · exact absurd (.inr hready) hnotSafe
  | waitAll before after pending fuel =>
    rcases waitAll_cases h.request hs hact with ⟨hreports, -⟩ | ⟨hskips, -⟩
    · exact hreports.not_uncorrupted h.arrived
    · refine hskips.not_uncorrupted ?_
      rintro ⟨message, hmessage, -⟩
      cases h.arrived.symm.trans hmessage

end Receiving

/-! ## All runs -/

namespace ReceiveRun

variable (r : ReceiveRun α)

theorem spec : ∃ e, r.call.recvbuff = some (dataHandle (r.rv.handed r.before.nextAlloc)) ∧
    r.req.request_ = some e ∧ ReceiveCallbacks r.rv r.before.nextAlloc r.req.callbacks_ := by
  obtain ⟨req, host, e, hrun, he, hregistered⟩ := recv_request r.rv r.peer r.comm r.before
  obtain ⟨req', host', hrun', hcalls⟩ := recv_spec r.peer r.comm r.rv (h := r.before)
  have hreturns := r.returns
  rw [hrun'] at hrun
  cases hrun
  rw [hrun'] at hreturns
  cases hreturns
  have hcall := r.calls
  rw [hcalls] at hcall
  refine ⟨e, ?_, he, hregistered⟩
  rw [← List.singleton_inj.mp (List.append_cancel_left hcall)]
  rfl

/-- A receive never corrupts its view exactly when no completion call
reports one that was not enqueued, or returns before it is found complete. -/
theorem neverCorrupts_iff_safe : r.NeverCorrupts ↔ r.Safe := by
  have ha : r.rv.alloc ≠ r.before.nextAlloc := Nat.ne_of_lt r.fresh
  obtain ⟨e, hbuf, hreq, hregistered⟩ := r.spec
  unfold NeverCorrupts Safe
  by_cases hok : r.result = .ncclSuccess
  · refine Lts.allStates_iff_of_rule (I := Receiving.Inv r.rv r.before.nextAlloc e)
      (fun s act s' h hs hact hsafe => Receiving.step_inv ha h hs hact hsafe)
      (fun s h => ⟨h.sound.holds, fun hn => absurd hok hn⟩)
      (fun s act s' h hs hact hnotSafe => h.not_uncorrupted_of_unsafe hs hact hnotSafe) ?_ r.allowed
    exact ⟨⟨r.call, if_pos hok, hbuf⟩, hreq, nofun, .of_receiveCallbacks hregistered r.memory⟩
  · refine Lts.allStates_iff_of_rule (I := Receiving.Failed e r.memory)
      (fun s act s' h hs _ hsafe => h.step hs hsafe)
      (fun s h => h.uncorrupted _)
      (fun s act s' h hs hact hnotSafe => h.not_uncorrupted hs hact hnotSafe) ?_ r.allowed
    exact ⟨if_neg hok, hreq, rfl, rfl, rfl⟩

end ReceiveRun

end KokkosComm.Nccl
