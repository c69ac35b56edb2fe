/-
KokkosComm.Mpi.CallbackTheorems — callbacks run exactly once, in order,
and only after completion.

The abstract picture is a `Journal` of callbacks registered under the
identity of a request. `Registry` says that a program refines it: the
`callbacks_` of every live request are what is pending under its
identity. Moving a request moves its identity, so a move is invisible in
the journal; a completing call is a `Journal.run` of the requests it
completes.

§1 the refinement, §2 its preservation by each kind of change, §3 by each
call, §4 what it says of a call: `CompletesInOrder`.

The one call that can break the discipline is a `wait_all` on a span whose
size, as an `int`, is smaller than the span: MPI is asked about the first
requests only, while the callbacks of all of them run
(`waitAll_runs_callback_early`).
-/
import KokkosComm.Foundation.Journal
import KokkosComm.Mpi.ProgramTheorems

namespace KokkosComm.Mpi

namespace Op

/-- The requests a call reads or moves from. -/
def used : Op → List ObjId
  | addCallback r _ => [r]
  | wait r => [r]
  | test r => [r]
  | waitAll span => span
  | waitAny span _ => span
  | moveConstruct _ src => [src]
  | moveAssign _ src => [src]
  | _ => []

/-- The requests a call executes the callbacks of without asking MPI. -/
def unasked : Op → List ObjId
  | waitAll span => Program.beyond span
  | _ => []

/-- The requests a call has completed, given what it returned. -/
def completed : Op → Ret → List ObjId
  | wait r, _ => [r]
  | test r, .tested true => [r]
  | waitAll span, _ => span
  | waitAny span _, .index (some i) => span[i.toNat]?.toList
  | _, _ => []

end Op

/-- A request that was moved from is not used again. -/
def UsesNoMovedFrom (w : Program) (a : Op) : Prop :=
  ∀ r ∈ a.used, ∀ o ∈ w.objs r, o.movedFrom = false

/-- The requests of a `wait_all` that MPI is not asked about have no
callbacks, or their operation is complete anyway. -/
def WaitAllReaches (w : Program) (a : Op) : Prop :=
  ∀ r ∈ a.unasked, ∀ o ∈ w.objs r, o.req.callbacks_ = [] ∨ w.lib.done o.op = true

instance (w : Program) (a : Op) : Decidable (UsesNoMovedFrom w a) :=
  inferInstanceAs (Decidable (∀ r ∈ a.used, ∀ o ∈ w.objs r, o.movedFrom = false))

instance (w : Program) (a : Op) : Decidable (WaitAllReaches w a) :=
  inferInstanceAs (Decidable (∀ r ∈ a.unasked, ∀ o ∈ w.objs r,
    o.req.callbacks_ = [] ∨ w.lib.done o.op = true))

/-- What a call does to the callbacks of the requests it completes, and to
no others: they run now, all of them, in the order in which they were
registered, none of them a second time, and after completion only. -/
structure CompletesInOrder (w w' : Program) (completed : List ObjId) (new : List Entry) :
    Prop where
  once : w'.ran.Nodup
  afterCompletion : ∀ e ∈ new, w.lib.done e.op = true
  inOrder : ∀ r ∈ completed, ∀ o, w.objs r = some o →
    new.filter (fun e => e.rid = o.rid) =
      w.registered.filter fun e => e.rid = o.rid ∧ e ∉ w.ran
  isolated : ∀ e ∈ new, ∃ r ∈ completed, ∃ o, w.objs r = some o ∧ e.rid = o.rid
  drained : ∀ r ∈ completed, ∀ o, w'.objs r = some o → o.req.callbacks_ = []

def RunsCallbacks (w : Program) (a : Op) (w' : Program) : Prop :=
  ∀ ret, w.perform a = .returns (ret, w') →
    ∃ new, w'.ran = w.ran ++ new ∧ CompletesInOrder w w' (a.completed ret) new

/-! ## §1 The refinement -/

namespace Program

/-- The abstract state: all callbacks, registered and run. -/
def journal (w : Program) : Journal Entry := { registered := w.registered, ran := w.ran }

/-- `r` is a request that has not been moved from. -/
def Live (w : Program) (r : ObjId) (o : Object) : Prop :=
  w.objs r = some o ∧ o.movedFrom = false

/-- The identity of a request. -/
def ridAt (w : Program) (r : ObjId) : Nat :=
  match w.objs r with
  | some o => o.rid
  | none => 0

theorem ridAt_eq {w : Program} {r : ObjId} {o : Object} (h : w.objs r = some o) :
    w.ridAt r = o.rid := by
  simp [ridAt, h]

end Program

open Program

structure Registry (w : Program) : Prop where
  journal : w.journal.WellFormed
  tokens : ∀ e ∈ w.registered, e.token < w.registered.length
  queue : ∀ r o, w.Live r o → o.req.callbacks_ = w.journal.pending Entry.rid o.rid
  unique : ∀ r r' o o', w.Live r o → w.Live r' o' → o.rid = o'.rid → r = r'
  rid : ∀ r o, w.Live r o → o.rid < w.nextRid
  entryRid : ∀ e ∈ w.registered, e.rid < w.nextRid
  entryOp : ∀ r o, w.Live r o → ∀ e ∈ w.registered, e.rid = o.rid → e.op = o.op
  handle : ∀ r o, w.Live r o →
    o.req.request_ = o.op ∨ (o.req.request_ = none ∧ w.lib.done o.op = true)

theorem registry_start (n : Nat) : Registry (Program.start n) where
  journal := ⟨List.nodup_nil, List.Subset.refl _, List.nodup_nil⟩
  tokens := nofun
  queue := by
    rintro r o ⟨ho, -⟩
    obtain ⟨-, rfl⟩ := start_objs_eq_some ho
    rfl
  unique := by
    rintro r r' o o' ⟨ho, -⟩ ⟨ho', -⟩ hrid
    obtain ⟨-, rfl⟩ := start_objs_eq_some ho
    obtain ⟨-, rfl⟩ := start_objs_eq_some ho'
    exact hrid
  rid := by
    rintro r o ⟨ho, -⟩
    obtain ⟨hr, rfl⟩ := start_objs_eq_some ho
    exact hr
  entryRid := nofun
  entryOp := nofun
  handle := by
    rintro r o ⟨ho, -⟩
    obtain ⟨-, rfl⟩ := start_objs_eq_some ho
    exact .inl rfl

section Preservation

variable {w w' : Program}

/-- A live request whose handle MPI reports done has its operation done. -/
theorem Registry.done_op (hw : Registry w) {r : ObjId} {o : Object} (ho : w.Live r o)
    (hd : w.lib.done o.req.request_ = true) : w.lib.done o.op = true := by
  rcases hw.handle r o ho with h | ⟨-, h⟩
  · rwa [← h]
  · exact h

theorem done_settle {lib : Library} {passed reported : List MpiRequest} {q : MpiRequest}
    (h : lib.done q = true) : (lib.settle passed reported).done q = true := by
  cases q with
  | none => rfl
  | some op =>
    exact Library.done_iff.mpr (Library.settle_status_ne_inFlight (Library.done_iff.mp h))

/-! ## §2 Kinds of change -/

/-- The library changes, and what was done stays done. -/
theorem Registry.of_lib (hw : Registry w) {lib : Library}
    (hdone : ∀ q, w.lib.done q = true → lib.done q = true) : Registry { w with lib := lib } :=
  { hw with handle := fun r o ho => (hw.handle r o ho).imp_right fun h => ⟨h.1, hdone _ h.2⟩ }

/-- Requests change places, or disappear. -/
theorem Registry.relocate (hw : Registry w) {objs : ObjId → Option Object}
    (origin : ObjId → ObjId) (hlive : ∀ r o, objs r = some o → o.movedFrom = false →
      w.Live (origin r) o)
    (hinj : ∀ r r' o o', objs r = some o → objs r' = some o' → o.movedFrom = false →
      o'.movedFrom = false → origin r = origin r' → r = r') :
    Registry { w with objs := objs } where
  journal := hw.journal
  tokens := hw.tokens
  queue := fun r o ho => hw.queue _ o (hlive r o ho.1 ho.2)
  unique := fun r r' o o' ho ho' hrid => hinj r r' o o' ho.1 ho'.1 ho.2 ho'.2
    (hw.unique _ _ o o' (hlive r o ho.1 ho.2) (hlive r' o' ho'.1 ho'.2) hrid)
  rid := fun r o ho => hw.rid _ o (hlive r o ho.1 ho.2)
  entryRid := hw.entryRid
  entryOp := fun r o ho => hw.entryOp _ o (hlive r o ho.1 ho.2)
  handle := fun r o ho => hw.handle _ o (hlive r o ho.1 ho.2)

theorem mem_entries {rid : Nat} {op : MpiRequest} {cbs : List Callback} {e : Entry}
    (h : e ∈ w.entries rid op cbs) : e.rid = rid ∧ e.op = op ∧
      w.registered.length ≤ e.token ∧ e.token < w.registered.length + cbs.length := by
  obtain ⟨i, hi, rfl⟩ := List.mem_mapIdx.mp h
  exact ⟨rfl, rfl, Nat.le_add_right _ _, Nat.add_lt_add_left hi _⟩

@[simp] theorem length_entries (rid : Nat) (op : MpiRequest) (cbs : List Callback) :
    (w.entries rid op cbs).length = cbs.length := List.length_mapIdx

theorem nodup_entries (rid : Nat) (op : MpiRequest) (cbs : List Callback) :
    (w.entries rid op cbs).Nodup := by
  have htok : (w.entries rid op cbs).map Entry.token
      = (List.range cbs.length).map (w.registered.length + ·) := by
    refine List.ext_getElem (by simp) fun i h h' => ?_
    simp [entries]
  refine List.Nodup.of_map Entry.token ?_
  rw [htok]
  exact List.nodup_range.map fun a b h => Nat.add_left_cancel h

theorem filter_entries_self {rid : Nat} {op : MpiRequest} {cbs : List Callback} :
    (w.entries rid op cbs).filter (fun e => e.rid = rid) = w.entries rid op cbs :=
  List.filter_eq_self.mpr fun e he => by simpa using (mem_entries he).1

theorem filter_entries_of_ne {rid t : Nat} {op : MpiRequest} {cbs : List Callback}
    (h : t ≠ rid) : (w.entries rid op cbs).filter (fun e => e.rid = t) = [] :=
  List.filter_eq_nil_iff.mpr fun e he => by
    simpa [(mem_entries he).1] using h.symm

/-- The live objects after a change of the object `r`. -/
theorem live_of_update {r r' : ObjId} {o o' : Object}
    (hobjs : w'.objs = Function.update w.objs r (some o)) (h : w'.Live r' o') :
    (r' = r ∧ o' = o) ∨ (r' ≠ r ∧ w.Live r' o') := by
  obtain ⟨ho', hm⟩ := h
  rw [hobjs] at ho'
  by_cases heq : r' = r
  · subst heq
    rw [Function.update_self] at ho'
    exact .inl ⟨rfl, (Option.some.inj ho').symm⟩
  · rw [Function.update_of_ne heq] at ho'
    exact .inr ⟨heq, ho', hm⟩

/-- Callbacks are registered on the object `r`, which may be new. -/
theorem Registry.register (hw : Registry w) {r : ObjId} {o : Object} (cbs : List Callback)
    (hobjs : w'.objs = Function.update w.objs r (some o))
    (hreg : w'.registered = w.registered ++ w.entries o.rid o.op cbs)
    (hran : w'.ran = w.ran) (hlib : w'.lib = w.lib) (hnext : w.nextRid ≤ w'.nextRid)
    (hrid : o.rid < w'.nextRid)
    (hother : ∀ r' o', r' ≠ r → w.Live r' o' → o'.rid ≠ o.rid)
    (hentry : ∀ e ∈ w.registered, e.rid = o.rid → e.op = o.op)
    (hqueue : o.req.callbacks_ =
      w.journal.pending Entry.rid o.rid ++ w.entries o.rid o.op cbs)
    (hhandle : o.req.request_ = o.op ∨ (o.req.request_ = none ∧ w.lib.done o.op = true)) :
    Registry w' := by
  have hjournal : w'.journal = w.journal.register (w.entries o.rid o.op cbs) := by
    simp [Program.journal, Journal.register, hreg, hran]
  have hfresh : ∀ e ∈ w.entries o.rid o.op cbs, e ∉ w.registered := fun e he hmem =>
    absurd (hw.tokens e hmem) (Nat.not_lt.mpr (mem_entries he).2.2.1)
  have hlive : ∀ r' o', w'.Live r' o' → (r' = r ∧ o' = o) ∨ (r' ≠ r ∧ w.Live r' o') :=
    fun _ _ h => live_of_update hobjs h
  refine
    { journal := ?_, tokens := ?_, queue := ?_, unique := ?_, rid := ?_, entryRid := ?_,
      entryOp := ?_, handle := ?_ }
  · rw [hjournal]
    exact hw.journal.register (nodup_entries _ _ _) hfresh
  · intro e he
    rw [hreg, List.length_append, length_entries]
    rw [hreg, List.mem_append] at he
    rcases he with he | he
    · exact Nat.lt_add_right _ (hw.tokens e he)
    · exact (mem_entries he).2.2.2
  · intro r' o' ho'
    rw [hjournal, Journal.pending_register hw.journal hfresh]
    rcases hlive r' o' ho' with ⟨-, rfl⟩ | ⟨hne, hlive'⟩
    · rw [filter_entries_self, hqueue]
    · rw [filter_entries_of_ne (hother r' o' hne hlive'), List.append_nil]
      exact hw.queue r' o' hlive'
  · intro r₁ r₂ o₁ o₂ h₁ h₂ hrid'
    rcases hlive r₁ o₁ h₁ with ⟨rfl, rfl⟩ | ⟨hne₁, hl₁⟩
    · rcases hlive r₂ o₂ h₂ with ⟨rfl, rfl⟩ | ⟨hne₂, hl₂⟩
      · rfl
      · exact absurd hrid'.symm (hother r₂ o₂ hne₂ hl₂)
    · rcases hlive r₂ o₂ h₂ with ⟨rfl, rfl⟩ | ⟨hne₂, hl₂⟩
      · exact absurd hrid' (hother r₁ o₁ hne₁ hl₁)
      · exact hw.unique r₁ r₂ o₁ o₂ hl₁ hl₂ hrid'
  · intro r' o' ho'
    rcases hlive r' o' ho' with ⟨-, rfl⟩ | ⟨-, hl⟩
    · exact hrid
    · exact Nat.lt_of_lt_of_le (hw.rid r' o' hl) hnext
  · intro e he
    rw [hreg, List.mem_append] at he
    rcases he with he | he
    · exact Nat.lt_of_lt_of_le (hw.entryRid e he) hnext
    · rwa [(mem_entries he).1]
  · intro r' o' ho' e he heq
    rw [hreg, List.mem_append] at he
    rcases hlive r' o' ho' with ⟨-, rfl⟩ | ⟨hne, hl⟩
    · rcases he with he | he
      · exact hentry e he heq
      · exact (mem_entries he).2.1
    · rcases he with he | he
      · exact hw.entryOp r' o' hl e he heq
      · exact absurd (heq.symm.trans (mem_entries he).1) (hother r' o' hne hl)
  · intro r' o' ho'
    rw [hlib]
    rcases hlive r' o' ho' with ⟨-, rfl⟩ | ⟨-, hl⟩
    · exact hhandle
    · exact hw.handle r' o' hl

/-! Running the callbacks of some live requests is a run of the journal. -/

section Execute

variable {cleared : List ObjId} {lib : Library} {null : Bool}

theorem Registry.journal_execute (hw : Registry w) (lib : Library) (null : Bool)
    (hlive : ∀ r ∈ cleared, ∃ o, w.Live r o) :
    (w.execute lib cleared null).journal = w.journal.run Entry.rid (cleared.map w.ridAt) := by
  have hran : cleared.flatMap w.callbacksAt
      = (cleared.map w.ridAt).flatMap (w.journal.pending Entry.rid) := by
    rw [List.flatMap_map]
    refine List.flatMap_congr fun r hr => ?_
    obtain ⟨o, ho⟩ := hlive r hr
    rw [callbacksAt_eq ho.1, ridAt_eq ho.1, hw.queue r o ho]
  simp only [Program.journal, execute, hran, Journal.run]

theorem Registry.nodup_rids (hw : Registry w) (hlive : ∀ r ∈ cleared, ∃ o, w.Live r o)
    (hnd : cleared.Nodup) : (cleared.map w.ridAt).Nodup := by
  refine hnd.map_on fun r hr r' hr' heq => ?_
  obtain ⟨o, ho⟩ := hlive r hr
  obtain ⟨o', ho'⟩ := hlive r' hr'
  rw [ridAt_eq ho.1, ridAt_eq ho'.1] at heq
  exact hw.unique r r' o o' ho ho' heq

/-- A live object after the call comes from a live one before. -/
theorem live_of_execute {r : ObjId} {o' : Object} (h : (w.execute lib cleared null).Live r o') :
    ∃ o, w.Live r o ∧ o'.rid = o.rid ∧ o'.op = o.op ∧
      ((r ∈ cleared ∧ o' = o.executed null) ∨ (r ∉ cleared ∧ o' = o)) := by
  obtain ⟨o, ho, ⟨hr, rfl⟩ | ⟨hr, rfl⟩⟩ := execute_objs_eq_some h.1
  · exact ⟨o, ⟨ho, h.2⟩, rfl, rfl, .inl ⟨hr, rfl⟩⟩
  · exact ⟨o', ⟨ho, h.2⟩, rfl, rfl, .inr ⟨hr, rfl⟩⟩

/-- … and an object that was live still is. -/
theorem live_execute (lib : Library) (cleared : List ObjId) (null : Bool) {r : ObjId}
    {o : Object} (h : w.Live r o) :
    ∃ o', (w.execute lib cleared null).Live r o' ∧ o'.op = o.op := by
  by_cases hr : r ∈ cleared
  · exact ⟨o.executed null, ⟨by rw [execute_objs_of_mem hr, h.1]; rfl, h.2⟩, rfl⟩
  · exact ⟨o, ⟨by rw [execute_objs_of_not_mem hr, h.1], h.2⟩, rfl⟩

theorem Registry.execute (hw : Registry w) (hlive : ∀ r ∈ cleared, ∃ o, w.Live r o)
    (hnd : cleared.Nodup) (hdone : ∀ q, w.lib.done q = true → lib.done q = true)
    (hnull : null = true → ∀ r ∈ cleared, ∀ o, w.Live r o → lib.done o.op = true) :
    Registry (w.execute lib cleared null) := by
  refine
    { journal := ?_, tokens := hw.tokens, queue := ?_, unique := ?_, rid := ?_,
      entryRid := hw.entryRid, entryOp := ?_, handle := ?_ }
  · rw [hw.journal_execute lib null hlive]
    exact hw.journal.run (hw.nodup_rids hlive hnd)
  · intro r o' ho'
    rw [hw.journal_execute lib null hlive]
    obtain ⟨o, ho, hrid, -, ⟨hr, rfl⟩ | ⟨hr, rfl⟩⟩ := live_of_execute ho'
    · exact (Journal.pending_run_of_mem
        (List.mem_map.mpr ⟨r, hr, ridAt_eq ho.1⟩)).symm
    · rw [Journal.pending_run_of_not_mem, hw.queue r _ ho]
      intro hmem
      obtain ⟨r₁, hr₁, heq⟩ := List.mem_map.mp hmem
      obtain ⟨o₁, ho₁⟩ := hlive r₁ hr₁
      rw [ridAt_eq ho₁.1] at heq
      exact hr (hw.unique r₁ r o₁ _ ho₁ ho heq ▸ hr₁)
  · intro r₁ r₂ o₁ o₂ h₁ h₂ heq
    obtain ⟨p₁, hp₁, hrid₁, -⟩ := live_of_execute h₁
    obtain ⟨p₂, hp₂, hrid₂, -⟩ := live_of_execute h₂
    exact hw.unique r₁ r₂ p₁ p₂ hp₁ hp₂ (by rw [← hrid₁, ← hrid₂, heq])
  · intro r o' ho'
    obtain ⟨o, ho, hrid, -⟩ := live_of_execute ho'
    rw [hrid]
    exact hw.rid r o ho
  · intro r o' ho' e he heq
    obtain ⟨o, ho, hrid, hop, -⟩ := live_of_execute ho'
    rw [hop]
    exact hw.entryOp r o ho e he (heq.trans hrid)
  · intro r o' ho'
    obtain ⟨o, ho, -, -, ⟨hr, rfl⟩ | ⟨hr, rfl⟩⟩ := live_of_execute ho'
    · cases null with
      | true => exact .inr ⟨rfl, hnull rfl r hr o ho⟩
      | false => exact (hw.handle r o ho).imp_right fun h => ⟨h.1, hdone _ h.2⟩
    · exact (hw.handle r _ ho).imp_right fun h => ⟨h.1, hdone _ h.2⟩

/-- A completing call of one request. -/
theorem Registry.execute_one (hw : Registry w) {r : ObjId} {o : Object} (hl : w.Live r o)
    (hdone : ∀ q, w.lib.done q = true → lib.done q = true)
    (hnull : null = true → lib.done o.op = true) : Registry (w.execute lib [r] null) := by
  refine hw.execute (List.forall_mem_singleton.mpr ⟨o, hl⟩) (List.nodup_singleton r) hdone
    fun h => List.forall_mem_singleton.mpr fun o' ho' => ?_
  obtain rfl : o' = o := Option.some.inj (ho'.1.symm.trans hl.1)
  exact hnull h

/-- Of a completing call that completes what it clears, this is what is
known. -/
theorem Registry.completesInOrder (hw : Registry w) (hlive : ∀ r ∈ cleared, ∃ o, w.Live r o)
    (hnd : cleared.Nodup)
    (hover : ∀ r ∈ cleared, ∀ o, w.Live r o → o.req.callbacks_ = [] ∨ w.lib.done o.op = true) :
    CompletesInOrder w (w.execute lib cleared null) cleared (cleared.flatMap w.callbacksAt) := by
  have hrids := hw.nodup_rids hlive hnd
  have hjournal := hw.journal_execute lib null hlive
  have hcallbacks : ∀ r ∈ cleared, ∀ e ∈ w.callbacksAt r, ∃ o, w.Live r o ∧
      e ∈ o.req.callbacks_ ∧ e ∈ w.registered ∧ e.rid = o.rid := by
    intro r hr e he
    obtain ⟨o, ho⟩ := hlive r hr
    rw [callbacksAt_eq ho.1] at he
    have := he
    rw [hw.queue r o ho, Journal.mem_pending] at this
    exact ⟨o, ho, he, this.1, this.2.1⟩
  refine { once := ?_, afterCompletion := ?_, inOrder := ?_, isolated := ?_, drained := ?_ }
  · have hwf : (w.execute lib cleared null).journal.WellFormed := by
      rw [hjournal]
      exact hw.journal.run hrids
    exact hwf.once
  · intro e he
    obtain ⟨r, hr, he⟩ := List.mem_flatMap.mp he
    obtain ⟨o, ho, hmem, hreg, hrid⟩ := hcallbacks r hr e he
    rw [hw.entryOp r o ho e hreg hrid]
    rcases hover r hr o ho with hnil | hd
    · rw [hnil] at hmem
      cases hmem
    · exact hd
  · intro r hr o ho
    obtain ⟨o', ho'⟩ := hlive r hr
    obtain rfl : o' = o := Option.some.inj (ho'.1.symm.trans ho)
    have hran : cleared.flatMap w.callbacksAt
        = (cleared.map w.ridAt).flatMap (w.journal.pending Entry.rid) := by
      have := congrArg Journal.ran hjournal
      exact List.append_cancel_left this
    rw [hran, Journal.filter_flatMap_pending hrids
      (List.mem_map.mpr ⟨r, hr, ridAt_eq ho⟩)]
    rfl
  · intro e he
    obtain ⟨r, hr, he⟩ := List.mem_flatMap.mp he
    obtain ⟨o, ho, -, -, hrid⟩ := hcallbacks r hr e he
    exact ⟨r, hr, o, ho.1, hrid⟩
  · intro r hr o' ho'
    obtain ⟨o, -, ⟨-, rfl⟩ | ⟨hnot, -⟩⟩ := execute_objs_eq_some ho'
    · rfl
    · exact absurd hr hnot

end Execute

/-! ## §3 Calls -/

/-- Nothing is pending under an identity not given out yet. -/
theorem Registry.pending_fresh (hw : Registry w) :
    w.journal.pending Entry.rid w.nextRid = [] := by
  refine List.eq_nil_iff_forall_not_mem.mpr fun e he => ?_
  obtain ⟨hreg, hrid, -⟩ := Journal.mem_pending.mp he
  exact absurd hrid (Nat.ne_of_lt (hw.entryRid e hreg))

/-- A request with a fresh identity, in free storage. -/
theorem Registry.create (hw : Registry w) {r : ObjId} {op : MpiRequest} (cbs : List Callback)
    (hobjs : w'.objs = Function.update w.objs r (some { Object.wrap w.nextRid op with
      req := { request_ := op, callbacks_ := w.entries w.nextRid op cbs } }))
    (hreg : w'.registered = w.registered ++ w.entries w.nextRid op cbs)
    (hran : w'.ran = w.ran) (hlib : w'.lib = w.lib) (hnext : w'.nextRid = w.nextRid + 1) :
    Registry w' := by
  refine hw.register cbs hobjs hreg hran hlib (by omega) ?_ ?_ ?_ ?_ ?_
  · rw [hnext]
    exact Nat.lt_succ_self _
  · exact fun r' o' _ ho' => Nat.ne_of_lt (hw.rid r' o' ho')
  · exact fun e he heq => absurd heq (Nat.ne_of_lt (hw.entryRid e he))
  · change w.entries w.nextRid op cbs
      = w.journal.pending Entry.rid w.nextRid ++ w.entries w.nextRid op cbs
    rw [hw.pending_fresh, List.nil_append]
  · exact .inl rfl

/-- The live objects after a request was moved from `src` to `dst`. -/
theorem objs_of_move {dst src r : ObjId} {s left o : Object} (hleft : left.movedFrom = true)
    (ho : ((w.set src (some left)).set dst (some s)).objs r = some o)
    (hm : o.movedFrom = false) :
    (r = dst ∧ o = s) ∨ (r ≠ dst ∧ r ≠ src ∧ w.objs r = some o) := by
  by_cases hd : r = dst
  · subst hd
    rw [set_objs_self] at ho
    exact .inl ⟨rfl, (Option.some.inj ho).symm⟩
  · rw [set_objs_of_ne hd] at ho
    by_cases hsrc : r = src
    · subst hsrc
      rw [set_objs_self] at ho
      cases ho
      exact absurd hm (by simp [hleft])
    · rw [set_objs_of_ne hsrc] at ho
      exact .inr ⟨hd, hsrc, ho⟩

/-- No two of them come from one object. -/
theorem origin_injective {dst src r r' : ObjId} {P P' Q Q' : Prop}
    (h : (r = dst ∧ P) ∨ (r ≠ dst ∧ r ≠ src ∧ Q))
    (h' : (r' = dst ∧ P') ∨ (r' ≠ dst ∧ r' ≠ src ∧ Q'))
    (heq : (if r = dst then src else r) = if r' = dst then src else r') : r = r' := by
  rcases h with ⟨rfl, -⟩ | ⟨hd, hne, -⟩
  · rcases h' with ⟨rfl, -⟩ | ⟨hd', hne', -⟩
    · rfl
    · rw [if_pos rfl, if_neg hd'] at heq
      exact absurd heq.symm hne'
  · rcases h' with ⟨rfl, -⟩ | ⟨hd', hne', -⟩
    · rw [if_neg hd, if_pos rfl] at heq
      exact absurd heq hne
    · rwa [if_neg hd, if_neg hd'] at heq

theorem Registry.moveConstruct (hw : Registry w) {dst src : ObjId} {s : Object}
    {left : Object} (hs : w.objs src = some s) (hleft : left.movedFrom = true) :
    Registry ((w.set src (some left)).set dst (some s)) := by
  refine hw.relocate (fun r => if r = dst then src else r) (fun r o ho hm => ?_) ?_
  · rcases objs_of_move hleft ho hm with ⟨rfl, rfl⟩ | ⟨hd, -, ho⟩
    · rw [if_pos rfl]
      exact ⟨hs, hm⟩
    · rw [if_neg hd]
      exact ⟨ho, hm⟩
  · exact fun r r' o o' ho ho' hm hm' =>
      origin_injective (objs_of_move hleft ho hm) (objs_of_move hleft ho' hm')

/-- An object is removed, or left without a request. -/
theorem Registry.drop (hw : Registry w) {r : ObjId} {v : Option Object}
    (hv : ∀ o, v = some o → o.movedFrom = true) : Registry (w.set r v) := by
  refine hw.relocate id (fun r' o (ho : (w.set r v).objs r' = some o) hm => ?_)
    fun r' r'' _ _ _ _ _ _ heq => heq
  by_cases h : r' = r
  · subst h
    rw [set_objs_self] at ho
    rw [hv o ho] at hm
    cases hm
  · rw [set_objs_of_ne h] at ho
    exact ⟨ho, hm⟩

/-- The requests a call uses are live ones. -/
theorem live_of_used {a : Op} (h : UsesNoMovedFrom w a) {r : ObjId} {o : Object}
    (hr : r ∈ a.used) (ho : w.objs r = some o) : w.Live r o := ⟨ho, h r hr o ho⟩

theorem IsSpan.live {span : List ObjId} (hspan : w.IsSpan span)
    (hused : ∀ r ∈ span, ∀ o ∈ w.objs r, o.movedFrom = false) :
    ∀ r ∈ span, ∃ o, w.Live r o := by
  intro r hr
  obtain ⟨o, ho⟩ := Option.isSome_iff_exists.mp (hspan.2 r hr)
  exact ⟨o, ho, hused r hr o ho⟩

theorem Registry.step (hw : Registry w) {a : Op} (h : w.step a = some w')
    (hused : UsesNoMovedFrom w a) : Registry w' := by
  obtain ⟨ret, h⟩ := step_eq_some.mp h
  cases a with
  | construct r =>
    obtain ⟨-, rfl⟩ := perform_construct h
    exact hw.create [] rfl (List.append_nil _).symm rfl rfl rfl
  | launch r call =>
    obtain ⟨-, c, cbs, host, -, rfl⟩ := perform_launch h
    exact hw.create cbs rfl rfl rfl rfl rfl
  | addCallback r cb =>
    obtain ⟨o, ho, rfl⟩ := perform_addCallback h
    have hl := live_of_used hused (r := r) (by simp [Op.used]) ho
    refine hw.register [cb] rfl rfl rfl rfl (Nat.le_refl _) (hw.rid r o hl)
      (fun r' o' hne hl' heq => hne (hw.unique r' r o' o hl' hl heq)) (hw.entryOp r o hl) ?_
      (hw.handle r o hl)
    rw [← hw.queue r o hl]
  | wait r =>
    obtain ⟨o, ho, hd, rfl⟩ := perform_wait h
    have hl := live_of_used hused (r := r) (by simp [Op.used]) ho
    exact hw.execute_one hl (fun _ => done_settle) fun _ => done_settle (hw.done_op hl hd)
  | test r =>
    obtain ⟨o, ho, ⟨hd, -, rfl⟩ | ⟨-, -, rfl⟩⟩ := perform_test h
    · have hl := live_of_used hused (r := r) (by simp [Op.used]) ho
      exact hw.execute_one hl (fun _ => done_settle) fun _ => done_settle (hw.done_op hl hd)
    · exact hw.of_lib fun _ => done_settle
  | waitAll span =>
    obtain ⟨hspan, -, -, rfl⟩ := perform_waitAll h
    exact hw.execute (IsSpan.live hspan hused) hspan.1 (fun _ => done_settle) nofun
  | waitAny span pick =>
    obtain ⟨hspan, ⟨-, -, rfl⟩ | ⟨r, o, op, hr, ho, -, -, -, -, rfl⟩⟩ := perform_waitAny h
    · exact hw
    · have hl := live_of_used hused (List.mem_of_getElem? hr) ho
      exact hw.execute_one hl (fun _ => done_settle) nofun
  | moveConstruct dst src =>
    obtain ⟨s, -, hs, rfl⟩ := perform_moveConstruct h
    exact hw.moveConstruct hs rfl
  | moveAssign dst src =>
    obtain ⟨d, s, -, hs, ⟨-, rfl⟩ | ⟨-, rfl⟩⟩ := perform_moveAssign h
    · exact Registry.drop (w := w.abandon d) { hw with } fun o ho => (by cases ho; rfl)
    · exact Registry.moveConstruct (w := w.abandon d) { hw with } hs rfl
  | destroy r =>
    obtain ⟨o, -, rfl⟩ := perform_destroy h
    exact Registry.drop (w := w.abandon o) { hw with } nofun
  | complete op =>
    obtain ⟨-, -, rfl⟩ := perform_complete h
    refine hw.of_lib fun q hq => ?_
    cases q with
    | none => rfl
    | some op' =>
      rw [Library.done_iff] at hq ⊢
      by_cases heq : op' = op
      · simp [heq]
      · rwa [Library.finish_status_of_ne heq]
  | userAllocate =>
    obtain rfl := perform_userAllocate h
    exact { hw with }
  | userCopy a =>
    obtain rfl := perform_userCopy h
    exact { hw with }
  | userDrop a =>
    obtain rfl := perform_userDrop h
    exact { hw with }

/-! ## §4 The discipline -/

/-- A call that runs no callback. -/
theorem runs_none (hran : w'.ran = w.ran) (honce : w.ran.Nodup) :
    ∃ new, w'.ran = w.ran ++ new ∧ CompletesInOrder w w' [] new :=
  ⟨[], by rw [hran, List.append_nil],
    { once := by rwa [hran]
      afterCompletion := nofun
      inOrder := nofun
      isolated := nofun
      drained := nofun }⟩

/-- A call that completes one request. -/
theorem Registry.runs_one (hw : Registry w) {r : ObjId} {o : Object} (lib : Library) (null : Bool)
    (hl : w.Live r o) (hd : w.lib.done o.op = true) :
    CompletesInOrder w (w.execute lib [r] null) [r] ([r].flatMap w.callbacksAt) := by
  refine hw.completesInOrder (List.forall_mem_singleton.mpr ⟨o, hl⟩) (List.nodup_singleton r)
    (List.forall_mem_singleton.mpr fun o' ho' => ?_)
  obtain rfl : o' = o := Option.some.inj (ho'.1.symm.trans hl.1)
  exact .inr hd

theorem Registry.runsCallbacks (hw : Registry w) {a : Op} (hused : UsesNoMovedFrom w a)
    (hreach : WaitAllReaches w a) : RunsCallbacks w a w' := by
  intro ret h
  have honce : w.ran.Nodup := hw.journal.once
  cases a with
  | wait r =>
    obtain ⟨o, ho, hd, rfl⟩ := perform_wait h
    have hl := live_of_used hused (r := r) (by simp [Op.used]) ho
    exact ⟨_, rfl, hw.runs_one _ _ hl (hw.done_op hl hd)⟩
  | test r =>
    obtain ⟨o, ho, ⟨hd, rfl, rfl⟩ | ⟨-, rfl, rfl⟩⟩ := perform_test h
    · have hl := live_of_used hused (r := r) (by simp [Op.used]) ho
      exact ⟨_, rfl, hw.runs_one _ _ hl (hw.done_op hl hd)⟩
    · exact runs_none rfl honce
  | waitAll span =>
    obtain ⟨hspan, -, hall, rfl⟩ := perform_waitAll h
    refine ⟨_, rfl, hw.completesInOrder (IsSpan.live hspan hused) hspan.1 fun r hr o ho => ?_⟩
    by_cases hbeyond : r ∈ beyond span
    · exact hreach r hbeyond o ho.1
    · have hpassed := hspan.request_mem_passed hr hbeyond ho.1
      exact .inr (hw.done_op ho (List.all_eq_true.mp hall _ hpassed))
  | waitAny span pick =>
    obtain ⟨hspan, ⟨-, rfl, rfl⟩ | ⟨r, o, op, hr, ho, hop, -, hd, rfl, rfl⟩⟩ := perform_waitAny h
    · exact runs_none rfl honce
    · have hl := live_of_used hused (List.mem_of_getElem? hr) ho
      have hcompleted : Op.completed (.waitAny span pick) (.index (some (pick : Int))) = [r] := by
        simp [Op.completed, hr]
      rw [hcompleted]
      exact ⟨_, rfl, hw.runs_one _ _ hl (hw.done_op hl (by rwa [hop]))⟩
  | construct r =>
    obtain ⟨-, rfl⟩ := perform_construct h
    exact runs_none rfl honce
  | launch r call =>
    obtain ⟨-, c, cbs, host, -, rfl⟩ := perform_launch h
    exact runs_none rfl honce
  | addCallback r cb =>
    obtain ⟨o, -, rfl⟩ := perform_addCallback h
    exact runs_none rfl honce
  | moveConstruct dst src =>
    obtain ⟨s, -, -, rfl⟩ := perform_moveConstruct h
    exact runs_none rfl honce
  | moveAssign dst src =>
    obtain ⟨d, s, -, -, ⟨-, rfl⟩ | ⟨-, rfl⟩⟩ := perform_moveAssign h <;> exact runs_none rfl honce
  | destroy r =>
    obtain ⟨o, -, rfl⟩ := perform_destroy h
    exact runs_none rfl honce
  | complete op =>
    obtain ⟨-, -, rfl⟩ := perform_complete h
    exact runs_none rfl honce
  | userAllocate =>
    obtain rfl := perform_userAllocate h
    exact runs_none rfl honce
  | userCopy a =>
    obtain rfl := perform_userCopy h
    exact runs_none rfl honce
  | userDrop a =>
    obtain rfl := perform_userDrop h
    exact runs_none rfl honce

end Preservation

/-- **Callbacks run once, in order, after completion**: in every run in
which no moved-from request is used and no `wait_all` leaves out a request
that is still in flight and has callbacks, every call runs exactly the
callbacks of the requests it completes. -/
theorem callbacks_run_once_in_order (n : Nat) (ops : List Op)
    (hok : Lts.AllSteps Program.step
      (fun w a _ => UsesNoMovedFrom w a ∧ WaitAllReaches w a) (start n) ops) :
    Lts.AllSteps Program.step RunsCallbacks (start n) ops :=
  Lts.allSteps_of_inv (fun _ _ _ hw h hok => hw.step h hok.1)
    (fun _ _ _ hw _ hok => hw.runsCallbacks hok.1 hok.2) (registry_start n) hok

/-- A callback that captures nothing and does nothing. -/
def noop : Callback := { captures := [], body := [], closed := nofun }

/-- Callbacks added before and after completion, on two requests, one of
them moved. -/
theorem callbacks_run_moved :
    Lts.AllSteps Program.step RunsCallbacks (start 2)
      [.addCallback 0 noop, .test 0, .addCallback 1 noop, .moveConstruct 2 0, .complete 0,
        .waitAny [1, 2] 1, .addCallback 2 noop, .complete 1, .waitAll [2, 1], .wait 2] :=
  callbacks_run_once_in_order 2 _ (by decide +kernel)

/-- With a span whose size converts to 0, `wait_all` asks MPI about no
request, and runs the callback of one that is in flight. -/
theorem not_runsCallbacks_of_zero_count {n : Nat} (hpos : 0 < n) (hzero : CInt.ofSize n = 0) :
    ¬ Lts.AllSteps Program.step RunsCallbacks (start n)
      [.addCallback 0 noop, .waitAll (List.range n)] := by
  intro hrun
  obtain ⟨w, hw⟩ : ∃ w, (start n).perform (.addCallback 0 noop) = .returns (.unit, w) := by
    simp [perform, addCallback, start, hpos]
  obtain ⟨-, hrun⟩ := hrun w (step_eq_some.mpr ⟨_, hw⟩)
  obtain ⟨o, ho, hweq⟩ := perform_addCallback hw
  obtain ⟨-, rfl⟩ := start_objs_eq_some ho
  have hcallbacks : w.callbacksAt 0 = [⟨0, 0, some 0, noop⟩] := by
    rw [hweq]
    simp [callbacksAt, Object.wrap, Request.new, entries, start]
  have hlib : w.lib = (start n).lib := by
    rw [hweq]
    rfl
  have hspan : w.IsSpan (List.range n) := by
    refine ⟨List.nodup_range, fun r hr => ?_⟩
    rw [hweq]
    by_cases hr0 : r = 0
    · rw [hr0, set_objs_self]
      rfl
    · rw [set_objs_of_ne hr0]
      simp [start, List.mem_range.mp hr]
  obtain ⟨w', hw'⟩ := perform_waitAll_returns hspan (by rw [List.length_range, hzero])
    (by simp [passed, passedHandles, hspan.length_requests, hzero])
  obtain ⟨hcall, -⟩ := hrun w' (step_eq_some.mpr ⟨_, hw'⟩)
  obtain ⟨new, hran, hnew⟩ := hcall _ hw'
  obtain ⟨-, -, -, rfl⟩ := perform_waitAll hw'
  -- the entry of the one callback is among those that ran
  have hmem : (⟨0, 0, some 0, noop⟩ : Entry) ∈ new := by
    rw [← List.append_cancel_left hran]
    refine List.mem_flatMap.mpr ⟨0, List.mem_range.mpr hpos, ?_⟩
    rw [hcallbacks]
    exact List.mem_singleton_self _
  have hdone := hnew.afterCompletion _ hmem
  rw [hlib] at hdone
  cases hdone

/-- 2^32 requests. -/
theorem waitAll_runs_callback_early :
    ¬ ∀ (n : Nat) (ops : List Op),
      Lts.AllSteps Program.step (fun w a _ => UsesNoMovedFrom w a) (start n) ops →
      Lts.AllSteps Program.step RunsCallbacks (start n) ops := by
  intro h
  refine not_runsCallbacks_of_zero_count (n := 4294967296) (by decide) (by decide +kernel)
    (h 4294967296 _ ?_)
  intro w hw
  obtain ⟨ret, hw⟩ := step_eq_some.mp hw
  obtain ⟨o, ho, rfl⟩ := perform_addCallback hw
  have hstart : ∀ r o', (start 4294967296).objs r = some o' → o'.movedFrom = false := by
    intro r o' ho'
    obtain ⟨-, rfl⟩ := start_objs_eq_some ho'
    rfl
  refine ⟨fun r _ => hstart r, fun w' _ => ⟨fun r _ o' ho' => ?_, trivial⟩⟩
  by_cases hr : r = 0
  · subst hr
    simp only [set_objs_self, Option.mem_some_iff] at ho'
    subst ho'
    exact hstart 0 o ho
  · simp only [set_objs_of_ne hr] at ho'
    exact hstart r o' ho'

end KokkosComm.Mpi
