/-
KokkosComm.Mpi.RetentionTheorems — the views of an operation stay alive.

MPI reads and writes the buffers of an operation until it is complete, and
a pending unpack writes its destination after that. What keeps them alive
are the callbacks of the request: a view captured by a callback is a
reference to its allocation.

§1 `accessed`, the views of each operation, and `Held`, the invariant: a
   live request owns a reference to everything its operation accesses.
§2 its preservation, and the result for requests that are kept until their
   operation is complete (`retained_until_observed`).
§3 where it fails: a `wait_all` that executes the callbacks of requests it
   has not asked about (`waitAll_drops_references`).

What becomes of the buffers when the request is NOT kept is the subject of
`AbandonTheorems`.
-/
import KokkosComm.Mpi.CallbackTheorems

namespace KokkosComm.Mpi

open Program

/-! ## §1 References to what an operation accesses -/

/-- The object owns a reference to the allocation of `v`, if it is managed. -/
def Object.Holds (o : Object) (v : View) : Prop := v.managed = true → o.retains v.alloc = true

/-- With more callbacks an object loses no reference. -/
theorem Object.retains_append {o : Object} (more : List Entry) {a : AllocId}
    (h : o.retains a = true) :
    Object.retains { o with req := { o.req with callbacks_ := o.req.callbacks_ ++ more } } a
      = true := by
  simp only [Object.retains] at h ⊢
  rw [List.any_append, h, Bool.true_or]

namespace Program

/-- The views the transport may touch for an operation, and those its
pending callbacks will write. -/
def accessed (w : Program) : List (OpId × View) := w.buffers ++ w.targets

/-- Everything an operation accesses is referenced by the request that
wraps it, until its completion has been observed; and while it is in
flight there is such a request. -/
def Retained (w : Program) : Prop :=
  ∀ p ∈ w.accessed, w.lib.status p.1 ≠ .released →
    (∀ r o, w.Live r o → o.op = some p.1 → o.Holds p.2) ∧
      (w.lib.status p.1 = .inFlight → ∃ r o, w.Live r o ∧ o.op = some p.1)

end Program

/-- A request whose operation was observed complete between the two states
owns no reference. -/
def DropsObserved (w w' : Program) : Prop :=
  ∀ op, w.lib.status op ≠ .released → w'.lib.status op = .released →
    ∀ r o, w'.Live r o → o.op = some op → ∀ a, o.retains a = false

/-- The call leaves the views retained, and requests whose operation it has
observed complete without any reference. -/
def RetainsUntilObserved (w : Program) (_ : Op) (w' : Program) : Prop :=
  w'.Retained ∧ DropsObserved w w'

namespace Op

/-- The requests a call destroys or assigns over. -/
def overwritten : Op → List ObjId
  | destroy r => [r]
  | moveAssign dst _ => [dst]
  | _ => []

end Op

/-- No request is destroyed or assigned over before its operation is
complete. -/
def KeepsRequest (w : Program) (a : Op) : Prop :=
  ∀ r ∈ a.overwritten, ∀ o ∈ w.objs r, w.lib.done o.op = true

/-- The requests of a `wait_all` that MPI is not asked about have no
callbacks, or their operation has been observed complete before. -/
def WaitAllObserves (w : Program) (a : Op) : Prop :=
  ∀ r ∈ a.unasked, ∀ o ∈ w.objs r, o.req.callbacks_ = [] ∨ ∀ op ∈ o.op,
    w.lib.status op = .released

instance (w : Program) (a : Op) : Decidable (KeepsRequest w a) :=
  inferInstanceAs (Decidable (∀ r ∈ a.overwritten, ∀ o ∈ w.objs r, w.lib.done o.op = true))

instance (w : Program) (a : Op) : Decidable (WaitAllObserves w a) :=
  inferInstanceAs (Decidable (∀ r ∈ a.unasked, ∀ o ∈ w.objs r,
    o.req.callbacks_ = [] ∨ ∀ op ∈ o.op, w.lib.status op = .released))

/-- The invariant behind `Retained`: one live request wraps an operation,
and its handle is the operation's until the operation is released. -/
structure Held (w : Program) : Prop where
  holds : ∀ p ∈ w.accessed, w.lib.status p.1 ≠ .released →
    ∀ r o, w.Live r o → o.op = some p.1 → o.Holds p.2
  wrapped : ∀ p ∈ w.accessed, w.lib.status p.1 = .inFlight → ∃ r o, w.Live r o ∧ o.op = some p.1
  handle : ∀ r o, w.Live r o → o.req.request_ = o.op ∨
    (o.req.request_ = none ∧ ∀ op, o.op = some op → w.lib.status op = .released)
  unique : ∀ r r' o o' op, w.Live r o → w.Live r' o' → o.op = some op → o'.op = some op → r = r'
  bound : ∀ r o op, w.Live r o → o.op = some op → op < w.nextOp
  accessedBound : ∀ p ∈ w.accessed, p.1 < w.nextOp

theorem Held.retained {w : Program} (hw : Held w) : w.Retained :=
  fun p hp hrel => ⟨hw.holds p hp hrel, hw.wrapped p hp⟩

theorem held_start (n : Nat) : Held (Program.start n) where
  holds := nofun
  wrapped := nofun
  handle := by
    rintro r o ⟨ho, -⟩
    obtain ⟨-, rfl⟩ := start_objs_eq_some ho
    exact .inl rfl
  unique := by
    rintro r r' o o' op ⟨ho, -⟩ ⟨ho', -⟩ hop hop'
    obtain ⟨-, rfl⟩ := start_objs_eq_some ho
    obtain ⟨-, rfl⟩ := start_objs_eq_some ho'
    exact Option.some.inj (hop.trans hop'.symm)
  bound := by
    rintro r o op ⟨ho, -⟩ hop
    obtain ⟨hr, rfl⟩ := start_objs_eq_some ho
    cases hop
    exact hr
  accessedBound := nofun

section Preservation

variable {w w' : Program}

/-! ## §2 Requests that are kept -/

/-- The library changes: what was released stays released, and nothing is
in flight that was not. -/
theorem Held.of_lib (hw : Held w) {lib : Library}
    (hrel : ∀ op, w.lib.status op = .released → lib.status op = .released)
    (hfly : ∀ op, lib.status op = .inFlight → w.lib.status op = .inFlight) :
    Held { w with lib := lib } :=
  { hw with
    holds := fun p hp hne => hw.holds p hp fun h => hne (hrel _ h)
    wrapped := fun p hp h => hw.wrapped p hp (hfly _ h)
    handle := fun r o ho => (hw.handle r o ho).imp_right fun h =>
      ⟨h.1, fun op hop => hrel op (h.2 op hop)⟩ }

/-- Callbacks run: each request that runs some has its operation released
with it. -/
theorem Held.execute (hw : Held w) {lib : Library} {cleared : List ObjId} {null : Bool}
    (hrel : ∀ op, w.lib.status op = .released → lib.status op = .released)
    (hfly : ∀ op, lib.status op = .inFlight → w.lib.status op = .inFlight)
    (hover : ∀ r ∈ cleared, ∀ o, w.Live r o →
      (o.req.callbacks_ = [] ∧ null = false) ∨ ∀ op, o.op = some op → lib.status op = .released) :
    Held (w.execute lib cleared null) where
  holds := by
    intro p hp hne r o' ho' hop
    obtain ⟨o, ho, -, hopeq, ⟨hr, rfl⟩ | ⟨-, rfl⟩⟩ := live_of_execute ho'
    · rcases hover r hr o ho with ⟨hnil, -⟩ | hover
      · intro hm
        have hold := hw.holds p hp (fun h => hne (hrel _ h)) r o ho hop hm
        rw [Object.retains, hnil] at hold
        cases hold
      · exact absurd (hover _ hop) hne
    · exact hw.holds p hp (fun h => hne (hrel _ h)) r _ ho hop
  wrapped := by
    intro p hp h
    obtain ⟨r, o, ho, hop⟩ := hw.wrapped p hp (hfly _ h)
    obtain ⟨o', ho', heq⟩ := live_execute lib cleared null ho
    exact ⟨r, o', ho', heq.trans hop⟩
  handle := by
    intro r o' ho'
    obtain ⟨o, ho, -, -, ⟨hr, rfl⟩ | ⟨-, rfl⟩⟩ := live_of_execute ho'
    · cases null with
      | true => exact .inr ⟨rfl, (hover r hr o ho).resolve_left (by simp)⟩
      | false =>
        exact (hw.handle r o ho).imp_right fun h => ⟨h.1, fun op hop => hrel op (h.2 op hop)⟩
    · exact (hw.handle r _ ho).imp_right fun h => ⟨h.1, fun op hop => hrel op (h.2 op hop)⟩
  unique := by
    intro r₁ r₂ o₁ o₂ op h₁ h₂ hop₁ hop₂
    obtain ⟨p₁, hp₁, -, heq₁, -⟩ := live_of_execute h₁
    obtain ⟨p₂, hp₂, -, heq₂, -⟩ := live_of_execute h₂
    exact hw.unique r₁ r₂ p₁ p₂ op hp₁ hp₂ (heq₁ ▸ hop₁) (heq₂ ▸ hop₂)
  bound := by
    intro r o' op ho' hop
    obtain ⟨o, ho, -, heq, -⟩ := live_of_execute ho'
    exact hw.bound r o op ho (heq ▸ hop)
  accessedBound := hw.accessedBound

/-- Requests change places, gain callbacks, or disappear once their
operation is complete; new ones wrap nothing. -/
theorem Held.rearrange (hw : Held w) {objs : ObjId → Option Object} (origin : ObjId → ObjId)
    (hback : ∀ r o', objs r = some o' → o'.movedFrom = false →
      (o'.op = none ∧ o'.req.request_ = none) ∨
        ∃ o, w.Live (origin r) o ∧ o'.op = o.op ∧ o'.req.request_ = o.req.request_ ∧
          ∀ a, o.retains a = true → o'.retains a = true)
    (hinj : ∀ r r' o o', objs r = some o → objs r' = some o' → o.movedFrom = false →
      o'.movedFrom = false → origin r = origin r' → r = r')
    (hforth : ∀ r o op, w.Live r o → o.op = some op → w.lib.status op = .inFlight →
      ∃ r' o', objs r' = some o' ∧ o'.movedFrom = false ∧ o'.op = some op) :
    Held { w with objs := objs } where
  holds := by
    intro p hp hne r o' ho' hop hm
    rcases hback r o' ho'.1 ho'.2 with ⟨hnone, -⟩ | ⟨o, ho, heq, -, hret⟩
    · cases hnone.symm.trans hop
    · exact hret _ (hw.holds p hp hne _ o ho (heq ▸ hop) hm)
  wrapped := by
    intro p hp h
    obtain ⟨r, o, ho, hop⟩ := hw.wrapped p hp h
    obtain ⟨r', o', ho', hm', hop'⟩ := hforth r o p.1 ho hop h
    exact ⟨r', o', ⟨ho', hm'⟩, hop'⟩
  handle := by
    intro r o' ho'
    rcases hback r o' ho'.1 ho'.2 with ⟨hnone, hreq⟩ | ⟨o, ho, heq, hreq, -⟩
    · exact .inl (hreq.trans hnone.symm)
    · rw [heq, hreq]
      exact hw.handle _ o ho
  unique := by
    intro r₁ r₂ o₁ o₂ op h₁ h₂ hop₁ hop₂
    rcases hback r₁ o₁ h₁.1 h₁.2 with ⟨hnone, -⟩ | ⟨p₁, hp₁, heq₁, -⟩
    · cases hnone.symm.trans hop₁
    rcases hback r₂ o₂ h₂.1 h₂.2 with ⟨hnone, -⟩ | ⟨p₂, hp₂, heq₂, -⟩
    · cases hnone.symm.trans hop₂
    exact hinj r₁ r₂ o₁ o₂ h₁.1 h₂.1 h₁.2 h₂.2
      (hw.unique _ _ p₁ p₂ op hp₁ hp₂ (heq₁ ▸ hop₁) (heq₂ ▸ hop₂))
  bound := by
    intro r o' op ho' hop
    rcases hback r o' ho'.1 ho'.2 with ⟨hnone, -⟩ | ⟨o, ho, heq, -⟩
    · cases hnone.symm.trans hop
    · exact hw.bound _ o op ho (heq ▸ hop)
  accessedBound := hw.accessedBound

theorem retains_iff_exists {o : Object} {a : AllocId} :
    o.retains a = true ↔ ∃ e ∈ o.req.callbacks_, e.callback.retains a = true := by
  simp [Object.retains]

/-- The object a routine returns into. -/
theorem holds_launched {rid : Nat} {op : OpId} {cbs : List Callback} {v : View}
    (hkeeps : ({ request_ := some op, callbacks_ := cbs } : Request Callback).Keeps v) :
    Object.Holds { Object.wrap rid (some op) with
      req := { request_ := some op, callbacks_ := w.entries rid (some op) cbs } } v := by
  intro hm
  obtain ⟨cb, hcb, hret⟩ := hkeeps hm
  obtain ⟨i, hi, rfl⟩ := List.mem_iff_getElem.mp hcb
  refine retains_iff_exists.mpr ⟨_, List.mem_iff_getElem.mpr ⟨i, by simpa using hi, rfl⟩, ?_⟩
  simpa [entries] using hret

/-- What a request returned by a routine owns references to. -/
theorem Launched.keeps_accessed {h h' : Host} {op : OpId} {cbs : List Callback} {c : MpiCall}
    (hl : Launched h h' { request_ := some op, callbacks_ := cbs } c) {v : View}
    (hv : v ∈ c.buffers ∨ v ∈ cbs.flatMap Callback.targets) :
    ({ request_ := some op, callbacks_ := cbs } : Request Callback).Keeps v := by
  rcases hv with hv | hv
  · exact hl.keeps v hv
  · obtain ⟨cb, hcb, hv⟩ := List.mem_flatMap.mp hv
    exact fun hm => ⟨cb, hcb,
      Callback.retains_iff.mpr ⟨v, cb.targets_subset_captures hv, hm, rfl⟩⟩

/-- A routine has returned a request into the free storage `r`: the new
object `o` holds every view its operation accesses. -/
structure LaunchedInto (w w' : Program) (r : ObjId) (o : Object) : Prop where
  free : w.objs r = none
  objs : w'.objs = Function.update w.objs r (some o)
  op : o.op = some w.nextOp
  handle : o.req.request_ = some w.nextOp
  movedFrom : o.movedFrom = false
  lib : w'.lib = w.lib
  nextOp : w'.nextOp = w.nextOp + 1
  userRefs : w'.userRefs = w.userRefs
  abandoned : w'.abandoned = w.abandoned
  buffers : ∀ p ∈ w'.buffers, p ∈ w.buffers ∨ (p.1 = w.nextOp ∧ o.Holds p.2)
  targets : ∀ p ∈ w'.targets, p ∈ w.targets ∨ (p.1 = w.nextOp ∧ o.Holds p.2)

theorem launchedInto {r : ObjId} {call : AsyncCall} {ret : Ret}
    (h : w.perform (.launch r call) = .returns (ret, w')) : ∃ o, LaunchedInto w w' r o := by
  obtain ⟨hr, c, cbs, host, hl, rfl⟩ := perform_launch h
  refine ⟨_, { free := hr, objs := rfl, op := rfl, handle := rfl, movedFrom := rfl, lib := rfl,
               nextOp := rfl, userRefs := rfl, abandoned := rfl, buffers := fun p hp => ?_,
               targets := fun p hp => ?_ }⟩
  · refine (List.mem_append.mp hp).imp_right fun hp => ?_
    obtain ⟨v, hv, rfl⟩ := List.mem_map.mp hp
    exact ⟨rfl, holds_launched (hl.keeps_accessed (.inl hv))⟩
  · refine (List.mem_append.mp hp).imp_right fun hp => ?_
    obtain ⟨v, hv, rfl⟩ := List.mem_map.mp hp
    exact ⟨rfl, holds_launched (hl.keeps_accessed (.inr hv))⟩

namespace LaunchedInto

variable {r : ObjId} {o : Object}

theorem accessed (h : LaunchedInto w w' r o) :
    ∀ p ∈ w'.accessed, p ∈ w.accessed ∨ (p.1 = w.nextOp ∧ o.Holds p.2) := by
  intro p hp
  rcases List.mem_append.mp hp with hp | hp
  · exact (h.buffers p hp).imp_left (List.mem_append_left _)
  · exact (h.targets p hp).imp_left (List.mem_append_right _)

theorem objs_self (h : LaunchedInto w w' r o) : w'.objs r = some o := by
  rw [h.objs, Function.update_self]

/-- The objects that were there stay. -/
theorem objs_old (h : LaunchedInto w w' r o) {r' : ObjId} {o' : Object}
    (ho' : w.objs r' = some o') : w'.objs r' = some o' := by
  rw [h.objs, Function.update_of_ne, ho']
  rintro rfl
  cases h.free.symm.trans ho'

/-- … and only the new one is added. -/
theorem objs_cases (h : LaunchedInto w w' r o) {r' : ObjId} {o' : Object}
    (ho' : w'.objs r' = some o') : (r' = r ∧ o' = o) ∨ w.objs r' = some o' := by
  rw [h.objs] at ho'
  by_cases heq : r' = r
  · subst heq
    rw [Function.update_self] at ho'
    exact .inl ⟨rfl, (Option.some.inj ho').symm⟩
  · rw [Function.update_of_ne heq] at ho'
    exact .inr ho'

end LaunchedInto

theorem Held.launch (hw : Held w) {r : ObjId} {o : Object} (h : LaunchedInto w w' r o) :
    Held w' := by
  have hlive : ∀ r' o', w'.Live r' o' → (r' = r ∧ o' = o) ∨ w.Live r' o' :=
    fun r' o' ho' => (h.objs_cases ho'.1).imp_right fun ho => ⟨ho, ho'.2⟩
  have hfresh : ∀ r' o', w.Live r' o' → o'.op ≠ some w.nextOp := fun r' o' ho' heq =>
    Nat.lt_irrefl _ (hw.bound r' o' _ ho' heq)
  refine
    { holds := ?_, wrapped := ?_, handle := ?_, unique := ?_, bound := ?_, accessedBound := ?_ }
  · intro p hp hne r' o' ho' hop'
    rw [h.lib] at hne
    rcases hlive r' o' ho' with ⟨rfl, rfl⟩ | hl
    · rcases h.accessed p hp with hp | ⟨-, hholds⟩
      · have heq : w.nextOp = p.1 := Option.some.inj (h.op.symm.trans hop')
        exact absurd (hw.accessedBound p hp) (Nat.not_lt.mpr (Nat.le_of_eq heq))
      · exact hholds
    · rcases h.accessed p hp with hp | ⟨heq, -⟩
      · exact hw.holds p hp hne r' o' hl hop'
      · rw [heq] at hop'
        exact absurd hop' (hfresh r' o' hl)
  · intro p hp hfly
    rw [h.lib] at hfly
    rcases h.accessed p hp with hp | ⟨heq, -⟩
    · obtain ⟨r', o', ho', hop'⟩ := hw.wrapped p hp hfly
      exact ⟨r', o', ⟨h.objs_old ho'.1, ho'.2⟩, hop'⟩
    · exact ⟨r, o, ⟨h.objs_self, h.movedFrom⟩, by rw [h.op, heq]⟩
  · intro r' o' ho'
    rcases hlive r' o' ho' with ⟨rfl, rfl⟩ | hl
    · exact .inl (h.handle.trans h.op.symm)
    · rw [h.lib]
      exact hw.handle r' o' hl
  · intro r₁ r₂ o₁ o₂ op h₁ h₂ hop₁ hop₂
    rcases hlive r₁ o₁ h₁ with ⟨rfl, rfl⟩ | hl₁ <;> rcases hlive r₂ o₂ h₂ with ⟨rfl, rfl⟩ | hl₂
    · rfl
    · cases h.op.symm.trans hop₁
      exact absurd hop₂ (hfresh r₂ o₂ hl₂)
    · cases h.op.symm.trans hop₂
      exact absurd hop₁ (hfresh r₁ o₁ hl₁)
    · exact hw.unique r₁ r₂ o₁ o₂ op hl₁ hl₂ hop₁ hop₂
  · intro r' o' op ho' hop'
    rw [h.nextOp]
    rcases hlive r' o' ho' with ⟨rfl, rfl⟩ | hl
    · cases h.op.symm.trans hop'
      exact Nat.lt_succ_self _
    · exact Nat.lt_succ_of_lt (hw.bound r' o' op hl hop')
  · intro p hp
    rw [h.nextOp]
    rcases h.accessed p hp with hp | ⟨heq, -⟩
    · exact Nat.lt_succ_of_lt (hw.accessedBound p hp)
    · rw [heq]
      exact Nat.lt_succ_self _

/-- What a completion call reports is released for the request that holds
the handle. -/
theorem Held.released_of_mem (hw : Held w) {r : ObjId} {o : Object} (ho : w.Live r o)
    (passed : List MpiRequest) {reported : List MpiRequest} (hmem : o.req.request_ ∈ reported) :
    ∀ op, o.op = some op → (w.lib.settle passed reported).status op = .released := by
  intro op hop
  rcases hw.handle r o ho with heq | ⟨-, hrel⟩
  · rw [heq, hop] at hmem
    exact Library.settle_status_of_mem hmem
  · exact Library.settle_status_released (hrel op hop)

/-- A completion call runs the callbacks of the requests it reports. -/
theorem Held.dropsObserved_execute (hw : Held w) {passed reported : List MpiRequest}
    {cleared : List ObjId} {null : Bool} (hreported : ∀ op, some op ∈ reported →
      ∃ r ∈ cleared, ∃ o, w.Live r o ∧ o.req.request_ = some op) :
    DropsObserved w (w.execute (w.lib.settle passed reported) cleared null) := by
  intro op hne hrel r o' ho' hop a
  have hmem : some op ∈ reported := Decidable.byContradiction fun hnot =>
    hne (by rwa [execute_lib, Library.settle_status_of_not_mem hnot] at hrel)
  obtain ⟨r₁, hr₁, o₁, ho₁, hreq⟩ := hreported op hmem
  have hop₁ : o₁.op = some op := by
    rcases hw.handle r₁ o₁ ho₁ with heq | ⟨hnone, -⟩
    · rw [← heq, hreq]
    · cases hnone.symm.trans hreq
  obtain ⟨o, ho, -, heq, ⟨-, rfl⟩ | ⟨hnot, rfl⟩⟩ := live_of_execute ho'
  · rfl
  · exact absurd (hw.unique r₁ r o₁ _ op ho₁ ho hop₁ hop ▸ hr₁) hnot

theorem DropsObserved.of_released
    (h : ∀ op, w'.lib.status op = .released → w.lib.status op = .released) :
    DropsObserved w w' :=
  fun op hne hrel => absurd (h op hrel) hne

/-- `wait`, `test` that returns true, and `wait_any` that returns an index
complete one request. -/
theorem Held.complete_one (hw : Held w) {r : ObjId} {o : Object} (ho : w.Live r o)
    (passed : List MpiRequest) (null : Bool) :
    Held (w.execute (w.lib.settle passed [o.req.request_]) [r] null) ∧
      DropsObserved w (w.execute (w.lib.settle passed [o.req.request_]) [r] null) := by
  refine ⟨hw.execute (fun _ => Library.settle_status_released)
    (fun _ h => (Library.inFlight_of_settle h).1) fun r' hr' o' ho' => .inr ?_,
    hw.dropsObserved_execute fun op hop => ⟨r, by simp, o, ho, (List.mem_singleton.mp hop).symm⟩⟩
  obtain rfl := List.mem_singleton.mp hr'
  obtain rfl : o' = o := Option.some.inj (ho'.1.symm.trans ho.1)
  exact hw.released_of_mem ho passed (List.mem_singleton_self _)

theorem Held.moveTo (hw : Held w) {dst src : ObjId} {s left : Object} (hs : w.objs src = some s)
    (hleft : left.movedFrom = true)
    (hdst : ∀ o op, w.Live dst o → o.op = some op → w.lib.status op = .inFlight → dst = src) :
    Held ((w.set src (some left)).set dst (some s)) := by
  change Held { w with objs := ((w.set src (some left)).set dst (some s)).objs }
  refine hw.rearrange (fun r => if r = dst then src else r) (fun r o ho hm => .inr ?_) ?_ ?_
  · rcases objs_of_move hleft ho hm with ⟨rfl, rfl⟩ | ⟨hd, -, ho⟩
    · exact ⟨o, by rw [if_pos rfl]; exact ⟨hs, hm⟩, rfl, rfl, fun _ => id⟩
    · exact ⟨o, by rw [if_neg hd]; exact ⟨ho, hm⟩, rfl, rfl, fun _ => id⟩
  · exact fun r r' o o' ho ho' hm hm' =>
      origin_injective (objs_of_move hleft ho hm) (objs_of_move hleft ho' hm')
  · intro r o op ho hop hfly
    by_cases hr : r = src
    · subst hr
      obtain rfl : o = s := Option.some.inj (ho.1.symm.trans hs)
      exact ⟨dst, o, set_objs_self .., ho.2, hop⟩
    · have hd : r ≠ dst := by
        rintro rfl
        exact hr (hdst o op ho hop hfly)
      refine ⟨r, o, ?_, ho.2, hop⟩
      rw [set_objs_of_ne hd, set_objs_of_ne hr, ho.1]

/-- An object is removed, or left without a request. -/
theorem Held.drop (hw : Held w) {r : ObjId} {v : Option Object}
    (hv : ∀ o, v = some o → o.movedFrom = true)
    (hdone : ∀ o, w.objs r = some o → w.lib.done o.op = true) : Held (w.set r v) := by
  change Held { w with objs := (w.set r v).objs }
  refine hw.rearrange id (fun r' o ho hm => .inr ?_) (fun r' r'' _ _ _ _ _ _ heq => heq) ?_
  · by_cases h : r' = r
    · subst h
      rw [set_objs_self] at ho
      rw [hv o ho] at hm
      cases hm
    · rw [set_objs_of_ne h] at ho
      exact ⟨o, ⟨ho, hm⟩, rfl, rfl, fun _ => id⟩
  · intro r' o op ho hop hfly
    have hne : r' ≠ r := by
      rintro rfl
      have := hdone o ho.1
      rw [hop, Library.done_iff] at this
      exact this hfly
    exact ⟨r', o, by rw [set_objs_of_ne hne, ho.1], ho.2, hop⟩

/-- A request gets more callbacks, and with them loses no reference. -/
theorem Held.grow (hw : Held w) {r : ObjId} {o : Object} (ho : w.objs r = some o)
    (more : List Entry) :
    Held (w.set r (some { o with req := { o.req with
      callbacks_ := o.req.callbacks_ ++ more } })) := by
  change Held { w with objs := (w.set r (some { o with req := { o.req with
    callbacks_ := o.req.callbacks_ ++ more } })).objs }
  refine hw.rearrange id (fun r' p hp hpm => .inr ?_) (fun r' r'' _ _ _ _ _ _ heq => heq) ?_
  · by_cases h : r' = r
    · subst h
      rw [set_objs_self] at hp
      cases hp
      exact ⟨o, ⟨ho, hpm⟩, rfl, rfl, fun _ => Object.retains_append more⟩
    · rw [set_objs_of_ne h] at hp
      exact ⟨p, ⟨hp, hpm⟩, rfl, rfl, fun _ => id⟩
  · intro r' p op hp hpop _
    by_cases h : r' = r
    · subst h
      obtain rfl : p = o := Option.some.inj (hp.1.symm.trans ho)
      exact ⟨r', _, set_objs_self .., hp.2, hpop⟩
    · exact ⟨r', p, by rw [set_objs_of_ne h, hp.1], hp.2, hpop⟩

/-- A request that wraps nothing, in free storage. -/
theorem Held.create (hw : Held w) {r : ObjId} (hr : w.objs r = none) (rid : Nat) :
    Held (w.set r (some (.wrap rid none))) := by
  change Held { w with objs := (w.set r (some (.wrap rid none))).objs }
  refine hw.rearrange id (fun r' o' ho' hm => ?_) (fun r' r'' _ _ _ _ _ _ heq => heq) ?_
  · by_cases h : r' = r
    · subst h
      rw [set_objs_self] at ho'
      cases ho'
      exact .inl ⟨rfl, rfl⟩
    · rw [set_objs_of_ne h] at ho'
      exact .inr ⟨o', ⟨ho', hm⟩, rfl, rfl, fun _ => id⟩
  · intro r' p op hp hpop _
    have hne : r' ≠ r := by
      rintro rfl
      cases hr.symm.trans hp.1
    exact ⟨r', p, by rw [set_objs_of_ne hne, hp.1], hp.2, hpop⟩

theorem Held.step (hw : Held w) {a : Op} (h : w.step a = some w') (hused : UsesNoMovedFrom w a)
    (hkeeps : KeepsRequest w a) (hobserves : WaitAllObserves w a) :
    Held w' ∧ DropsObserved w w' := by
  obtain ⟨ret, h⟩ := step_eq_some.mp h
  have hsame : ∀ {w'' : Program}, Held w'' → w''.lib = w.lib → Held w'' ∧ DropsObserved w w'' :=
    fun hw'' hlib => ⟨hw'', .of_released fun op hrel => by rwa [hlib] at hrel⟩
  cases a with
  | construct r =>
    obtain ⟨hr, rfl⟩ := perform_construct h
    exact hsame { hw.create hr w.nextRid with } rfl
  | launch r call =>
    obtain ⟨o, hl⟩ := launchedInto h
    exact hsame (hw.launch hl) hl.lib
  | addCallback r cb =>
    obtain ⟨o, ho, rfl⟩ := perform_addCallback h
    have hheld := hw.grow ho (w.entries o.rid o.op [cb])
    exact hsame { hheld with } rfl
  | wait r =>
    obtain ⟨o, ho, -, rfl⟩ := perform_wait h
    exact hw.complete_one (live_of_used hused (r := r) (by simp [Op.used]) ho) _ _
  | test r =>
    obtain ⟨o, ho, ⟨-, -, rfl⟩ | ⟨-, -, rfl⟩⟩ := perform_test h
    · exact hw.complete_one (live_of_used hused (r := r) (by simp [Op.used]) ho) _ _
    · refine ⟨hw.of_lib (fun _ => Library.settle_status_released)
        fun _ h => (Library.inFlight_of_settle h).1, .of_released fun op hrel => ?_⟩
      rwa [Library.settle_status_of_not_mem List.not_mem_nil] at hrel
  | waitAll span =>
    obtain ⟨hspan, -, -, rfl⟩ := perform_waitAll h
    refine ⟨hw.execute (fun _ => Library.settle_status_released)
      (fun _ h => (Library.inFlight_of_settle h).1) fun r hr o ho => ?_,
      hw.dropsObserved_execute fun op hop => ?_⟩
    · by_cases hbeyond : r ∈ beyond span
      · rcases hobserves r hbeyond o ho.1 with hnil | hrel
        · exact .inl ⟨hnil, rfl⟩
        · exact .inr fun op hop => Library.settle_status_released (hrel op hop)
      · exact .inr (hw.released_of_mem ho _ (hspan.request_mem_passed hr hbeyond ho.1))
    · obtain ⟨r, hr, o, ho, hreq⟩ := hspan.mem_passed hop
      exact ⟨r, hr, o, live_of_used hused hr ho, hreq⟩
  | waitAny span pick =>
    obtain ⟨-, ⟨-, -, rfl⟩ | ⟨r, o, op, hr, ho, hop, -, -, -, rfl⟩⟩ := perform_waitAny h
    · exact hsame hw rfl
    · rw [← hop]
      exact hw.complete_one (live_of_used hused (List.mem_of_getElem? hr) ho) _ _
  | moveConstruct dst src =>
    obtain ⟨s, hd, hs, rfl⟩ := perform_moveConstruct h
    refine hsame (hw.moveTo hs rfl fun o op ho => ?_) rfl
    cases hd.symm.trans ho.1
  | moveAssign dst src =>
    obtain ⟨d, s, hd, hs, hcases⟩ := perform_moveAssign h
    have hdone : ∀ o, w.objs dst = some o → w.lib.done o.op = true :=
      hkeeps dst (by simp [Op.overwritten])
    rcases hcases with ⟨rfl, rfl⟩ | ⟨-, rfl⟩
    · exact hsame (Held.drop (w := w.abandon d) { hw with } (fun o ho => (by cases ho; rfl))
        hdone) rfl
    · refine hsame (Held.moveTo (w := w.abandon d) { hw with } hs rfl
        fun o op ho hop hfly => ?_) rfl
      have := hdone o ho.1
      rw [hop, Library.done_iff] at this
      exact absurd hfly this
  | destroy r =>
    obtain ⟨o, ho, rfl⟩ := perform_destroy h
    exact hsame (Held.drop (w := w.abandon o) { hw with } (by simp)
      (hkeeps r (by simp [Op.overwritten]))) rfl
  | complete op =>
    obtain ⟨-, hfly, rfl⟩ := perform_complete h
    refine ⟨hw.of_lib (fun op' hrel => ?_) (fun op' hfly' => ?_),
      .of_released fun op' => Library.released_of_finish⟩
    · rwa [Library.finish_status_of_ne (by rintro rfl; cases hfly.symm.trans hrel)]
    · by_cases heq : op' = op
      · rwa [heq]
      · rwa [Library.finish_status_of_ne heq] at hfly'
  | userAllocate =>
    obtain rfl := perform_userAllocate h
    exact hsame { hw with } rfl
  | userCopy a =>
    obtain rfl := perform_userCopy h
    exact hsame { hw with } rfl
  | userDrop a =>
    obtain rfl := perform_userDrop h
    exact hsame { hw with } rfl

end Preservation

/-- **Retention**: in every run in which no request is destroyed or assigned
over before its operation is complete, no moved-from request is used, and no
`wait_all` executes callbacks of an operation it has not asked about, every
view an operation accesses is referenced by its request until its
completion is observed, and no longer. -/
theorem retained_until_observed (n : Nat) (ops : List Op)
    (hok : Lts.AllSteps Program.step (fun w a _ =>
      UsesNoMovedFrom w a ∧ KeepsRequest w a ∧ WaitAllObserves w a) (start n) ops) :
    Lts.AllSteps Program.step RetainsUntilObserved (start n) ops :=
  Lts.allSteps_of_inv (fun _ _ _ hw h hok => (hw.step h hok.1 hok.2.1 hok.2.2).1)
    (fun _ _ _ hw h hok => (hw.step h hok.1 hok.2.1 hok.2.2).imp_left Held.retained)
    (held_start n) hok

/-- A strided column of the allocation 0: three elements, two apart. -/
def column : View := .line 0 0 3 2

/-- A packed receive, moved once, completed among others, with no
reference left to the user. -/
theorem retained_unpack :
    Lts.AllSteps Program.step RetainsUntilObserved (start 1)
      [.userAllocate, .launch 1 (.recvExecute column 0 0), .userDrop 0, .moveConstruct 2 1,
        .test 2, .complete 1, .waitAny [0, 2] 1, .complete 0, .waitAll [2, 0], .destroy 2] :=
  retained_until_observed 1 _ (by decide +kernel)

/-! ## §3 Requests MPI is not asked about

The state `sending n`: one contiguous element of the allocation 0 is being
sent, by the object `n`. -/

def oneElement : View := .line 0 0 1 1

def sendOneElement : AsyncCall := .isendImpl oneElement 0 0 .standard 0

/-- The object of the send. -/
def sender (n : Nat) : Object where
  req := { request_ := some n, callbacks_ := [⟨0, n, some n, .keepAlive oneElement⟩] }
  rid := n
  op := some n
  movedFrom := false

def sending (n : Nat) : Program :=
  { start n with
    objs := Function.update (start n).objs n (some (sender n))
    nextOp := n + 1
    nextAlloc := 1
    nextRid := n + 1
    userRefs := [0]
    buffers := [(n, oneElement)]
    registered := [⟨0, n, some n, .keepAlive oneElement⟩] }

theorem sending_objs_self (n : Nat) : (sending n).objs n = some (sender n) :=
  Function.update_self ..

theorem sending_objs_of_ne {n : Nat} {r : ObjId} (h : r ≠ n) :
    (sending n).objs r = (start n).objs r := Function.update_of_ne h ..

theorem exec_sending (n : Nat) :
    Lts.exec Program.step (start n) [.userAllocate, .launch n sendOneElement]
      = some (sending n) := by
  have hvalid : (0 : Int) ≤ CInt.ofSize 1 := by decide +kernel
  have hc : oneElement.isContiguous = true := by decide
  have hspan : spanCount oneElement = CInt.ofSize 1 := by
    rw [spanCount, View.isContiguous_iff.mp hc]
    rfl
  have hrun : ∀ h : Host, isendImpl oneElement 0 0 .standard 0 h = .returns
      ({ request_ := some h.nextOp, callbacks_ := [.keepAlive oneElement] },
        { h.log (.space (.fence "fence before isend")) with nextOp := h.nextOp + 1 }.log
          (.mpi h.nextOp
            { fn := .mpiIsend 0 0, sendbuf := some oneElement, sendcount := CInt.ofSize 1,
              recvbuf := none, recvcount := 0, comm := 0 })) := by
    intro h
    rw [isendImpl_contiguous hc, hspan, Routine.start,
      if_pos (by simp [MpiCall.validCounts, hvalid])]
    rfl
  have hallocate : (start n).step .userAllocate
      = some { start n with nextAlloc := 1, userRefs := [0] } := rfl
  have hlaunch : ({ start n with nextAlloc := 1, userRefs := [0] } : Program).step
      (.launch n sendOneElement) = some (sending n) := by
    have hfree : (start n).objs n = none := by simp [start]
    have hrefs : ∀ v ∈ sendOneElement.views, v.managed = true → v.alloc ∈ [0] := by decide
    simp only [step, perform, launch]
    rw [if_pos ⟨by simp [hfree], hrefs⟩]
    simp only [sendOneElement, AsyncCall.run, hrun, Outcome.returns_bind]
    rfl
  rw [Lts.exec_cons, hallocate, Option.bind_some, Lts.exec_cons, hlaunch]
  rfl

/-- With a span whose size converts to 0, `wait_all` asks MPI about no
request, and drops the reference to a buffer that is being sent. -/
theorem not_retained_of_zero_count {n : Nat} (hzero : CInt.ofSize (n + 1) = 0) :
    ¬ Lts.AllSteps Program.step RetainsUntilObserved (start n)
      ([.userAllocate, .launch n sendOneElement] ++ [.waitAll (List.range (n + 1))]) := by
  intro hrun
  have hrun := (Lts.allSteps_append.mp hrun).2 _ (exec_sending n)
  have hspan : (sending n).IsSpan (List.range (n + 1)) := by
    refine ⟨List.nodup_range, fun r hr => ?_⟩
    by_cases heq : r = n
    · rw [heq, sending_objs_self]
      rfl
    · have hlt : r < n := Nat.lt_of_le_of_ne (Nat.lt_succ_iff.mp (List.mem_range.mp hr)) heq
      simp [sending_objs_of_ne heq, start, hlt]
  obtain ⟨w', hw'⟩ := perform_waitAll_returns hspan (by rw [List.length_range, hzero])
    (by simp [passed, passedHandles, hspan.length_requests, hzero])
  obtain ⟨⟨hretained, -⟩, -⟩ := hrun w' (step_eq_some.mpr ⟨_, hw'⟩)
  obtain ⟨-, -, -, rfl⟩ := perform_waitAll hw'
  have hnone : (sending n).passed (List.range (n + 1)) = [] := by
    simp [passed, passedHandles, hspan.length_requests, hzero]
  rw [hnone, Library.settle_nil] at hretained
  obtain ⟨hholds, -⟩ := hretained (n, oneElement) (by simp [accessed, sending])
    (show OpStatus.inFlight ≠ OpStatus.released by decide)
  have hsender : ((sending n).execute (sending n).lib (List.range (n + 1)) false).Live n
      ((sender n).executed false) := by
    refine ⟨?_, rfl⟩
    rw [execute_objs_of_mem (by simp), sending_objs_self]
    rfl
  cases hholds n _ hsender rfl rfl

/-- 2^32 requests, the last of them a send. -/
theorem waitAll_drops_references :
    ¬ ∀ (n : Nat) (ops : List Op),
      Lts.AllSteps Program.step (fun w a _ => UsesNoMovedFrom w a ∧ KeepsRequest w a)
        (start n) ops →
      Lts.AllSteps Program.step RetainsUntilObserved (start n) ops := by
  intro h
  refine not_retained_of_zero_count (n := 4294967295) (by decide +kernel) (h _ _ ?_)
  refine Lts.allSteps_append.mpr ⟨fun _ _ => ⟨⟨nofun, nofun⟩, fun _ _ => ⟨⟨nofun, nofun⟩, trivial⟩⟩,
    fun w hw => ?_⟩
  obtain rfl : sending 4294967295 = w := Option.some.inj ((exec_sending _).symm.trans hw)
  refine fun _ _ => ⟨⟨fun r _ o ho => ?_, nofun⟩, trivial⟩
  by_cases hr : r = 4294967295
  · rw [hr, sending_objs_self] at ho
    cases ho
    rfl
  · rw [sending_objs_of_ne hr] at ho
    obtain ⟨-, rfl⟩ := start_objs_eq_some ho
    rfl

end KokkosComm.Mpi
