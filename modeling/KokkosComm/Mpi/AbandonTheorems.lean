/-
KokkosComm.Mpi.AbandonTheorems — the buffers of an operation whose request
is given up.

The destructor of `Request<MpiSpace>` and its move assignment are the
default ones: they neither wait for the operation nor hand its references
to anybody. So a buffer of an operation in flight stays alive past its
request only as long as the user holds a reference to it
(`AbandonsSafely`), and a packed buffer, to which only the library ever
had one, never does.

`Sheltered` is the invariant of the runs in which that is respected: every
managed buffer in flight is referenced by an object that wraps its
operation, or its operation was abandoned and the user holds it.
-/
import KokkosComm.Mpi.RetentionTheorems

namespace KokkosComm.Mpi

open Program

/-! ## §1 Alive buffers, safe calls -/

namespace Program

/-- The allocation has not been released. -/
def Referenced (w : Program) (a : AllocId) : Prop :=
  a ∈ w.userRefs ∨ ∃ r o, w.objs r = some o ∧ o.retains a = true

/-- A managed buffer of an operation in flight. -/
def InUse (w : Program) (p : OpId × View) : Prop :=
  p ∈ w.buffers ∧ w.lib.status p.1 = .inFlight ∧ p.2.managed = true

/-- No managed buffer of an operation in flight has been released. -/
def BuffersAlive (w : Program) : Prop := ∀ p, w.InUse p → w.Referenced p.2.alloc

/-- The user holds every managed buffer of the operation, as long as it is
in flight. -/
def UserHolds (w : Program) (op : OpId) (userRefs : List AllocId) : Prop :=
  ∀ p ∈ w.buffers, p.1 = op → w.lib.status op = .inFlight → p.2.managed = true →
    p.2.alloc ∈ userRefs

theorem UserHolds.mono {w : Program} {op : OpId} {refs refs' : List AllocId}
    (h : w.UserHolds op refs) (hsub : refs ⊆ refs') : w.UserHolds op refs' :=
  fun p hp hop hfly hm => hsub (h p hp hop hfly hm)

instance (w : Program) (op : OpId) (userRefs : List AllocId) :
    Decidable (w.UserHolds op userRefs) :=
  inferInstanceAs (Decidable (∀ p ∈ w.buffers, _))

end Program

/-- The references the user is left with by a call. -/
def Op.userRefsAfter (userRefs : List AllocId) : Op → List AllocId
  | userDrop a => userRefs.erase a
  | _ => userRefs

/-- When a request is destroyed or assigned over, the user holds the
buffers of its operation, and goes on to hold those of all abandoned
operations until these are complete. -/
def AbandonsSafely (w : Program) (a : Op) : Prop :=
  (∀ r ∈ a.overwritten, ∀ o ∈ w.objs r, ∀ op ∈ o.op, w.UserHolds op w.userRefs) ∧
    (∀ op ∈ w.abandoned, w.UserHolds op (a.userRefsAfter w.userRefs)) ∧ WaitAllReaches w a

instance (w : Program) (a : Op) : Decidable (AbandonsSafely w a) :=
  inferInstanceAs (Decidable (_ ∧ _ ∧ _))

structure Sheltered (w : Program) : Prop where
  covered : ∀ p, w.InUse p → (p.1 ∈ w.abandoned ∧ p.2.alloc ∈ w.userRefs) ∨
    ∃ r o, w.objs r = some o ∧ o.op = some p.1 ∧ o.retains p.2.alloc = true
  handle : ∀ r o op, w.objs r = some o → o.op = some op →
    o.req.request_ = some op ∨ w.lib.status op ≠ .inFlight

theorem Sheltered.buffersAlive {w : Program} (hw : Sheltered w) : w.BuffersAlive := by
  intro p hp
  rcases hw.covered p hp with ⟨-, huser⟩ | ⟨r, o, ho, -, hret⟩
  · exact .inl huser
  · exact .inr ⟨r, o, ho, hret⟩

theorem sheltered_start (n : Nat) : Sheltered (Program.start n) where
  covered := fun _ h => nomatch h.1
  handle := by
    intro r o op ho hop
    obtain ⟨-, rfl⟩ := start_objs_eq_some ho
    exact .inl hop

section Preservation

variable {w w' : Program}

/-! ## §2 Preservation -/

theorem Sheltered.of_lib (hw : Sheltered w) {lib : Library}
    (hfly : ∀ op, lib.status op = .inFlight → w.lib.status op = .inFlight) :
    Sheltered { w with lib := lib } where
  covered := fun p hp => hw.covered p ⟨hp.1, hfly _ hp.2.1, hp.2.2⟩
  handle := fun r o op ho hop => (hw.handle r o op ho hop).imp_right fun h h' => h (hfly _ h')

/-- Callbacks run, of objects whose operation is then over. -/
theorem Sheltered.execute (hw : Sheltered w) {lib : Library} {cleared : List ObjId} {null : Bool}
    (hfly : ∀ op, lib.status op = .inFlight → w.lib.status op = .inFlight)
    (hover : ∀ r ∈ cleared, ∀ o, w.objs r = some o → (o.req.callbacks_ = [] ∧ null = false) ∨
      ∀ op, o.op = some op → lib.status op ≠ .inFlight) :
    Sheltered (w.execute lib cleared null) where
  covered := by
    intro p hp
    refine (hw.covered p ⟨hp.1, hfly _ hp.2.1, hp.2.2⟩).imp_right ?_
    rintro ⟨r, o, ho, hop, hret⟩
    have hr : r ∉ cleared := by
      intro hr
      rcases hover r hr o ho with ⟨hnil, -⟩ | hover
      · rw [Object.retains, hnil] at hret
        cases hret
      · exact hover _ hop hp.2.1
    exact ⟨r, o, by rw [execute_objs_of_not_mem hr, ho], hop, hret⟩
  handle := by
    intro r o' op ho' hop
    have hkeep : ∀ o, w.objs r = some o → o.op = some op →
        o.req.request_ = some op ∨ lib.status op ≠ .inFlight := fun o ho hop =>
      (hw.handle r o op ho hop).imp_right fun h h' => h (hfly _ h')
    obtain ⟨o, ho, ⟨hr, rfl⟩ | ⟨-, rfl⟩⟩ := execute_objs_eq_some ho'
    · cases null with
      | true => exact .inr ((hover r hr o ho).resolve_left (by simp) op hop)
      | false => exact hkeep o ho hop
    · exact hkeep _ ho hop

/-- `wait`, `test` that returns true, and `wait_any` that returns an index
complete the operation of one object. -/
theorem Sheltered.complete_one (hw : Sheltered w) {r : ObjId} {o : Object}
    (ho : w.objs r = some o) (passed : List MpiRequest) (null : Bool) :
    Sheltered (w.execute (w.lib.settle passed [o.req.request_]) [r] null) := by
  refine hw.execute (fun _ h => (Library.inFlight_of_settle h).1) fun r' hr' o' ho' => .inr ?_
  obtain rfl := List.mem_singleton.mp hr'
  obtain rfl : o' = o := Option.some.inj (ho'.symm.trans ho)
  intro op hop
  rcases hw.handle r' o' op ho hop with heq | hne
  · rw [Library.settle_status_of_mem (by simp [heq])]
    decide
  · exact Library.settle_status_ne_inFlight hne

/-- Objects change, and operations are abandoned. -/
theorem Sheltered.rearrange (hw : Sheltered w) {objs : ObjId → Option Object}
    {abandoned : List OpId} (hsub : w.abandoned ⊆ abandoned)
    (hback : ∀ r o' op, objs r = some o' → o'.op = some op →
      ∃ r₀ o, w.objs r₀ = some o ∧ o.op = some op ∧ o'.req.request_ = o.req.request_)
    (hforth : ∀ p, w.InUse p → ∀ r o, w.objs r = some o → o.op = some p.1 →
      o.retains p.2.alloc = true → (p.1 ∈ abandoned ∧ p.2.alloc ∈ w.userRefs) ∨
        ∃ r' o', objs r' = some o' ∧ o'.op = some p.1 ∧ o'.retains p.2.alloc = true) :
    Sheltered { w with objs := objs, abandoned := abandoned } where
  covered := by
    intro p hp
    rcases hw.covered p hp with ⟨hab, huser⟩ | ⟨r, o, ho, hop, hret⟩
    · exact .inl ⟨hsub hab, huser⟩
    · exact hforth p hp r o ho hop hret
  handle := by
    intro r o' op ho' hop
    obtain ⟨r₀, o, ho, hop, heq⟩ := hback r o' op ho' hop
    rw [heq]
    exact hw.handle r₀ o op ho hop

/-- One object changes in place. Its operation is given up with the old
object, or the new one has it, too, and at least the references. -/
theorem Sheltered.replace (hw : Sheltered w) {r : ObjId} {v : Option Object}
    {abandoned : List OpId} (hsub : w.abandoned ⊆ abandoned)
    (hback : ∀ o' op, v = some o' → o'.op = some op →
      ∃ o, w.objs r = some o ∧ o.op = some op ∧ o'.req.request_ = o.req.request_)
    (hforth : ∀ o op, w.objs r = some o → o.op = some op →
      (op ∈ abandoned ∧ w.UserHolds op w.userRefs) ∨
        ∃ o', v = some o' ∧ o'.op = some op ∧ ∀ a, o.retains a = true → o'.retains a = true) :
    Sheltered { w.set r v with abandoned := abandoned } := by
  refine hw.rearrange hsub (fun r' o' op ho' hop => ?_) fun p hp r' o ho hop hret => ?_
  · by_cases heq : r' = r
    · subst heq
      rw [set_objs_self] at ho'
      exact ⟨r', hback o' op ho' hop⟩
    · rw [set_objs_of_ne heq] at ho'
      exact ⟨r', o', ho', hop, rfl⟩
  · by_cases heq : r' = r
    · subst heq
      rcases hforth o p.1 ho hop with ⟨hab, hholds⟩ | ⟨o', hv, hop', hmono⟩
      · exact .inl ⟨hab, hholds p hp.1 rfl hp.2.1 hp.2.2⟩
      · exact .inr ⟨r', o', by rw [set_objs_self, hv], hop', hmono _ hret⟩
    · exact .inr ⟨r', o, by rw [set_objs_of_ne heq, ho], hop, hret⟩

/-- A request moves from `src` to `dst`, and what `dst` wrapped is given
up. -/
theorem Sheltered.moveTo (hw : Sheltered w) {dst src : ObjId} {s left : Object}
    {abandoned : List OpId} (hsub : w.abandoned ⊆ abandoned) (hs : w.objs src = some s)
    (hleft : left.op = none)
    (hdst : ∀ o op, w.objs dst = some o → o.op = some op → dst ≠ src →
      op ∈ abandoned ∧ w.UserHolds op w.userRefs) :
    Sheltered { (w.set src (some left)).set dst (some s) with
      abandoned := abandoned } := by
  refine hw.rearrange hsub (fun r o' op ho' hop => ?_) fun p hp r o ho hop hret => ?_
  · by_cases hd : r = dst
    · subst hd
      rw [set_objs_self] at ho'
      cases ho'
      exact ⟨src, s, hs, hop, rfl⟩
    · rw [set_objs_of_ne hd] at ho'
      by_cases hsrc : r = src
      · subst hsrc
        rw [set_objs_self] at ho'
        cases ho'
        cases hleft.symm.trans hop
      · rw [set_objs_of_ne hsrc] at ho'
        exact ⟨r, o', ho', hop, rfl⟩
  · by_cases hsrc : r = src
    · subst hsrc
      obtain rfl : o = s := Option.some.inj (ho.symm.trans hs)
      exact .inr ⟨dst, o, set_objs_self .., hop, hret⟩
    · by_cases hd : r = dst
      · subst hd
        obtain ⟨hab, hholds⟩ := hdst o p.1 ho hop hsrc
        exact .inl ⟨hab, hholds p hp.1 rfl hp.2.1 hp.2.2⟩
      · refine .inr ⟨r, o, ?_, hop, hret⟩
        rw [set_objs_of_ne hd, set_objs_of_ne hsrc, ho]

theorem Sheltered.launch (hw : Sheltered w) {r : ObjId} {o : Object} (h : LaunchedInto w w' r o) :
    Sheltered w' where
  covered := by
    intro p hp
    rw [h.userRefs, h.abandoned]
    have hfly : w.lib.status p.1 = .inFlight := by rw [← h.lib]; exact hp.2.1
    rcases h.buffers p hp.1 with hold | ⟨heq, hholds⟩
    · refine (hw.covered p ⟨hold, hfly, hp.2.2⟩).imp_right ?_
      rintro ⟨r', o', ho', hop', hret⟩
      exact ⟨r', o', h.objs_old ho', hop', hret⟩
    · exact .inr ⟨r, o, h.objs_self, by rw [h.op, heq], hholds hp.2.2⟩
  handle := by
    intro r' o' op ho' hop'
    rw [h.lib]
    rcases h.objs_cases ho' with ⟨-, rfl⟩ | hold
    · exact .inl (h.handle.trans (h.op.symm.trans hop'))
    · exact hw.handle r' o' op hold hop'

/-- Requests MPI was not asked about have no callbacks, or are over. -/
theorem Sheltered.waitAll (hw : Sheltered w) {span : List ObjId} (hspan : w.IsSpan span)
    (hreach : WaitAllReaches w (.waitAll span)) :
    Sheltered (w.execute (w.lib.settle (w.passed span) (w.passed span)) span false) := by
  refine hw.execute (fun _ h => (Library.inFlight_of_settle h).1) fun r hr o ho => ?_
  by_cases hbeyond : r ∈ beyond span
  · refine (hreach r hbeyond o ho).imp (⟨·, rfl⟩) fun hd op hop => ?_
    rw [hop, Library.done_iff] at hd
    exact Library.settle_status_ne_inFlight hd
  · refine .inr fun op hop => ?_
    rcases hw.handle r o op ho hop with heq | hne
    · rw [Library.settle_status_of_mem (heq ▸ hspan.request_mem_passed hr hbeyond ho)]
      decide
    · exact Library.settle_status_ne_inFlight hne

/-- The user's references change, and those that matter stay. -/
theorem Sheltered.of_userRefs (hw : Sheltered w) {userRefs : List AllocId}
    (h : ∀ op ∈ w.abandoned, w.UserHolds op userRefs) :
    Sheltered { w with userRefs := userRefs } where
  covered := fun p hp => (hw.covered p hp).imp_left fun hab =>
    ⟨hab.1, h p.1 hab.1 p hp.1 rfl hp.2.1 hp.2.2⟩
  handle := hw.handle

/-- A callback is registered. -/
theorem Sheltered.addCallbacks (hw : Sheltered w) {r : ObjId} {o : Object} (ho : w.objs r = some o)
    (entries : List Entry) :
    Sheltered (w.set r (some { o with req :=
      { o.req with callbacks_ := o.req.callbacks_ ++ entries } })) := by
  refine hw.replace (List.Subset.refl _) (fun o' op ho' hop => ?_) fun p op hp hop => .inr ?_
  · cases ho'
    exact ⟨o, ho, hop, rfl⟩
  · obtain rfl : p = o := Option.some.inj (hp.symm.trans ho)
    exact ⟨_, rfl, hop, fun _ => Object.retains_append entries⟩

/-- The request in `d` is given up by a call, and the user holds its
buffers. -/
theorem abandon_of_safe {r : ObjId} {d : Object} (hd : w.objs r = some d)
    (hover : ∀ o ∈ w.objs r, ∀ op ∈ o.op, w.UserHolds op w.userRefs) {o : Object} {op : OpId}
    (ho : w.objs r = some o) (hop : o.op = some op) :
    op ∈ (w.abandon d).abandoned ∧ w.UserHolds op w.userRefs := by
  obtain rfl : o = d := Option.some.inj (ho.symm.trans hd)
  exact ⟨by simp [abandon, hop], hover o ho op hop⟩

theorem Sheltered.step (hw : Sheltered w) {a : Op} (h : w.step a = some w')
    (hsafe : AbandonsSafely w a) : Sheltered w' := by
  obtain ⟨ret, h⟩ := step_eq_some.mp h
  obtain ⟨hover, hdrop, hreach⟩ := hsafe
  cases a with
  | construct r =>
    obtain ⟨hr, rfl⟩ := perform_construct h
    have hnew : Sheltered (w.set r (some (.wrap w.nextRid none))) := by
      refine hw.replace (List.Subset.refl _) (fun o' op ho' hop => ?_) fun o op ho => ?_
      · cases ho'
        cases hop
      · cases hr.symm.trans ho
    exact { hnew with }
  | launch r call =>
    obtain ⟨o, hl⟩ := launchedInto h
    exact hw.launch hl
  | addCallback r cb =>
    obtain ⟨o, ho, rfl⟩ := perform_addCallback h
    exact { hw.addCallbacks ho (w.entries o.rid o.op [cb]) with }
  | wait r =>
    obtain ⟨o, ho, -, rfl⟩ := perform_wait h
    exact hw.complete_one ho _ _
  | test r =>
    obtain ⟨o, ho, ⟨-, -, rfl⟩ | ⟨-, -, rfl⟩⟩ := perform_test h
    · exact hw.complete_one ho _ _
    · exact hw.of_lib fun _ h => (Library.inFlight_of_settle h).1
  | waitAll span =>
    obtain ⟨hspan, -, -, rfl⟩ := perform_waitAll h
    exact hw.waitAll hspan hreach
  | waitAny span pick =>
    obtain ⟨-, ⟨-, -, rfl⟩ | ⟨r, o, op, -, ho, hop, -, -, -, rfl⟩⟩ := perform_waitAny h
    · exact hw
    · rw [← hop]
      exact hw.complete_one ho _ _
  | moveConstruct dst src =>
    obtain ⟨s, hd, hs, rfl⟩ := perform_moveConstruct h
    refine hw.moveTo (List.Subset.refl _) hs rfl fun o op ho => ?_
    cases hd.symm.trans ho
  | moveAssign dst src =>
    obtain ⟨d, s, hd, hs, hcases⟩ := perform_moveAssign h
    have hsub : w.abandoned ⊆ (w.abandon d).abandoned := List.subset_append_left _ _
    have hgiven : ∀ o op, w.objs dst = some o → o.op = some op →
        op ∈ (w.abandon d).abandoned ∧ w.UserHolds op w.userRefs :=
      fun o op => abandon_of_safe hd (hover dst (by simp [Op.overwritten]))
    rcases hcases with ⟨rfl, rfl⟩ | ⟨-, rfl⟩
    · refine hw.replace hsub (fun o' op ho' hop => ?_) fun o op ho hop => .inl (hgiven o op ho hop)
      cases ho'
      cases hop
    · exact hw.moveTo hsub hs rfl fun o op ho hop _ => hgiven o op ho hop
  | destroy r =>
    obtain ⟨d, hd, rfl⟩ := perform_destroy h
    exact hw.replace (List.subset_append_left _ _) (by simp) fun o op ho hop =>
      .inl (abandon_of_safe hd (hover r (by simp [Op.overwritten])) ho hop)
  | complete op =>
    obtain ⟨-, hfly, rfl⟩ := perform_complete h
    refine hw.of_lib fun op' hfly' => ?_
    by_cases heq : op' = op
    · rwa [heq]
    · rwa [Library.finish_status_of_ne heq] at hfly'
  | userAllocate =>
    obtain rfl := perform_userAllocate h
    exact { hw.of_userRefs fun op hop =>
      (hdrop op hop).mono (List.subset_cons_self w.nextAlloc _) with }
  | userCopy a =>
    obtain rfl := perform_userCopy h
    exact hw.of_userRefs fun op hop => (hdrop op hop).mono (List.subset_cons_self a _)
  | userDrop a =>
    obtain rfl := perform_userDrop h
    exact hw.of_userRefs hdrop

end Preservation

/-- **Abandoned operations**: in every run in which a request is given up
only while the user holds the buffers of its operation, and goes on to do
so until it is complete, no managed buffer of an operation in flight is
ever released. -/
theorem buffers_alive_of_abandonsSafely (n : Nat) (ops : List Op)
    (hok : Lts.AllSteps Program.step (fun w a _ => AbandonsSafely w a) (start n) ops) :
    Lts.AllStates Program.step BuffersAlive (start n) ops :=
  Lts.allStates_of_inv (fun _ _ _ hw h hok => hw.step h hok) (fun _ hw => hw.buffersAlive)
    (sheltered_start n) hok

/-- A request destroyed and another one assigned over, while the user holds
on to what is sent. -/
theorem buffers_alive_user_holds :
    Lts.AllStates Program.step BuffersAlive (start 0)
      [.userAllocate, .launch 0 sendOneElement, .launch 1 sendOneElement, .construct 2,
        .userCopy 0, .destroy 0, .moveAssign 1 2, .userDrop 0, .complete 0, .complete 1,
        .userDrop 0] :=
  buffers_alive_of_abandonsSafely 0 _ (by decide +kernel)

/-- The user has dropped its reference to what is being sent, and destroyed
the request. -/
def deserted : Program :=
  (({ sending 0 with userRefs := [] } : Program).abandon (sender 0)).set 0 none

theorem deserted_objs (r : ObjId) : deserted.objs r = none := by
  by_cases hr : r = 0
  · rw [hr, deserted, set_objs_self]
  · rw [deserted, set_objs_of_ne hr]
    change (sending 0).objs r = none
    rw [sending_objs_of_ne hr]
    simp [start]

/-- Nothing refers to the buffer of a send whose request is destroyed. -/
theorem abandoned_send_releases_buffer :
    ¬ ∀ (n : Nat) (ops : List Op), Lts.AllStates Program.step BuffersAlive (start n) ops := by
  intro h
  have hexec : Lts.exec Program.step (start 0)
      ([.userAllocate, .launch 0 sendOneElement] ++ [.userDrop 0, .destroy 0]) = some deserted := by
    rw [Lts.exec_append, exec_sending]
    rfl
  have halive : deserted.BuffersAlive := (h 0 _).exec hexec
  rcases halive (0, oneElement) ⟨List.mem_singleton_self _, rfl, rfl⟩ with huser | ⟨r, o, ho, -⟩
  · cases huser
  · rw [deserted_objs] at ho
    cases ho

end KokkosComm.Mpi
