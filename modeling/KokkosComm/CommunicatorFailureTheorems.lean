/-
KokkosComm.CommunicatorFailureTheorems — when a failed split or duplication
is noticed.

The invariant is that every object that owns a handle has one of a
communicator that was created, and that nothing else has been freed. A call
that fails and leaves the null handle keeps it, because `nullopt` is
returned. One that leaves anything else returns an object that owns what
was left, so the promise is broken on the spot (and, when that object is
destroyed or assigned to, something is freed that nobody created).
-/
import KokkosComm.CommunicatorFailure
import KokkosComm.CommunicatorTheorems

namespace KokkosComm.Fallible

variable {space : CommSpace} {call : CreateCall} {outcome : Creation} {lib : NativeComms}

/-! ## The functions -/

/-- Where the call succeeds, this is the function of `Communicator`. -/
theorem createBy_ofYields (space : CommSpace) (call : CreateCall) (yields : Option CommShape)
    (lib : NativeComms) :
    createBy space call (ofYields yields) lib = Communicator.createBy space call yields lib := by
  cases yields <;> rfl

/-- The object around a handle, and the temporary, which frees nothing. -/
theorem wrap_eq {comm : CommHandle} (h : comm ≠ .null) (space : CommSpace) (lib : NativeComms) :
    Communicator.wrap space comm lib = (some (.new comm true lib), lib) := by
  unfold Communicator.wrap
  rw [if_neg h]
  cases space <;> rfl

/-- Every duplication is one creating call. -/
theorem duplicateFromRaw_eq (space : CommSpace) (comm : CommHandle) (userRank : Int)
    (outcome : Creation) (lib : NativeComms) :
    ∃ call, duplicateFromRaw space comm userRank outcome lib = createBy space call outcome lib := by
  cases space with
  | mpiSpace => exact ⟨_, rfl⟩
  | ncclSpace => exact ⟨_, rfl⟩

theorem duplicate_eq (c : Communicator) (space : CommSpace) (outcome : Creation)
    (lib : NativeComms) :
    ∃ call, duplicate c space outcome lib = createBy space call outcome lib := by
  cases space with
  | mpiSpace => exact ⟨_, rfl⟩
  | ncclSpace => exact ⟨_, rfl⟩

/-- What a failed call returns hangs on the variable. -/
theorem createBy_failed (space : CommSpace) (call : CreateCall) (left : CommHandle)
    (lib : NativeComms) :
    (createBy space call (.failed left) lib).1 =
      if left = .null then none
      else some (.new left true { lib with calls := lib.calls ++ [call] }) := by
  by_cases h : left = .null
  · subst h
    rfl
  · rw [if_neg h]
    exact congrArg Prod.fst (wrap_eq h space _)

theorem createBy_created (space : CommSpace) (call : CreateCall) (shape : CommShape)
    (lib : NativeComms) :
    createBy space call (.created shape) lib =
      (some (.new (.created lib.log.next) true (lib.create call (some shape)).2),
        (lib.create call (some shape)).2) :=
  wrap_eq (show CommHandle.created lib.log.next ≠ .null from nofun) space _

/-- Creating calls free nothing, and a created communicator stays so. -/
structure Extends (lib lib' : NativeComms) : Prop where
  released : lib'.released = lib.released
  next : lib.log.next ≤ lib'.log.next

theorem extends_createBy (space : CommSpace) (call : CreateCall) (outcome : Creation)
    (lib : NativeComms) : Extends lib (createBy space call outcome lib).2 := by
  cases outcome with
  | created shape =>
    rw [createBy_created]
    exact ⟨rfl, Nat.le_succ _⟩
  | excluded => exact ⟨rfl, Nat.le_refl _⟩
  | failed left =>
    by_cases h : left = .null
    · subst h
      exact ⟨rfl, Nat.le_refl _⟩
    · have heq : (createBy space call (.failed left) lib).2 =
          { lib with calls := lib.calls ++ [call] } := congrArg Prod.snd (wrap_eq h space _)
      rw [heq]
      exact ⟨rfl, Nat.le_refl _⟩

theorem Created.extend {lib' : NativeComms} (hext : lib.log.next ≤ lib'.log.next) {h : CommHandle}
    (hc : Created lib h) : Created lib' h := by
  obtain ⟨n, hn, rfl⟩ := hc
  exact ⟨n, Nat.lt_of_lt_of_le hn hext, rfl⟩

/-- What is promised holds unless the call fails and leaves something. -/
theorem returns_iff (space : CommSpace) (call : CreateCall) (outcome : Creation)
    (lib : NativeComms) :
    Returns outcome lib (createBy space call outcome lib).1 ↔
      ∀ left, outcome = .failed left → left = .null := by
  cases outcome with
  | created shape =>
    refine ⟨fun _ => nofun, fun _ => ⟨fun h => absurd rfl (h shape), fun c hc => ?_⟩⟩
    rw [createBy_created] at hc
    cases hc
    exact ⟨rfl, rfl⟩
  | excluded => exact ⟨fun _ => nofun, fun _ => ⟨fun _ => rfl, nofun⟩⟩
  | failed left =>
    rw [createBy_failed]
    constructor
    · rintro ⟨hnull, -⟩ _ ⟨⟩
      by_contra h
      simpa [h] using hnull nofun
    · intro h
      rw [if_pos (h left rfl)]
      exact ⟨fun _ => rfl, nofun⟩

/-- An object that is returned has a created communicator. -/
theorem created_of_createBy (hnull : ∀ left, outcome = .failed left → left = .null)
    {c : Communicator} (hc : (createBy space call outcome lib).1 = some c) :
    Created (createBy space call outcome lib).2 c.comm_ := by
  cases outcome with
  | created shape =>
    rw [createBy_created] at hc ⊢
    cases hc
    exact ⟨lib.log.next, Nat.lt_succ_self _, rfl⟩
  | excluded => cases hc
  | failed left =>
    rw [createBy_failed, if_pos (hnull left rfl)] at hc
    cases hc

/-! ## Steps -/

/-- Objects own created communicators, and only such were freed. -/
structure OwnsCreated (w : Communicators) : Prop where
  owned : ∀ r c, w.objs r = some c → c.owned_ = true → Created w.lib c.comm_
  released : ∀ h ∈ w.lib.released, Created w.lib h

theorem ownsCreated_start (given : CommHandle → CommShape) :
    OwnsCreated (Communicators.start given) where
  owned := nofun
  released := nofun

variable {w w' : Communicators}

theorem place_eq_some {dst : CommId} {result : NativeComms → Option Communicator × NativeComms}
    (h : place w dst result = some w') :
    w.objs dst = none ∧ w' = { w.set dst (result w.lib).1 with lib := (result w.lib).2 } := by
  unfold place at h
  split at h
  · rename_i hnone
    cases h
    exact ⟨hnone, rfl⟩
  · cases h

/-- A creating operation is a creating call whose result is stored. -/
theorem step_creation {op : Op} {dst : CommId} (hop : op.creation = some (dst, outcome))
    (h : step space w op = some w') :
    ∃ call, w' = { w.set dst (createBy space call outcome w.lib).1 with
      lib := (createBy space call outcome w.lib).2 } := by
  cases op with
  | splitFromRaw dst comm color key outcome =>
    cases hop
    exact ⟨_, (place_eq_some h).2⟩
  | split dst src color key outcome =>
    cases hop
    obtain ⟨c, -, h⟩ := Option.bind_eq_some_iff.mp h
    exact ⟨_, (place_eq_some h).2⟩
  | duplicateFromRaw dst comm userRank outcome =>
    cases hop
    obtain ⟨call, heq⟩ := duplicateFromRaw_eq space comm userRank outcome w.lib
    have hplaced := (place_eq_some h).2
    rw [heq] at hplaced
    exact ⟨call, hplaced⟩
  | duplicate dst src outcome =>
    cases hop
    obtain ⟨c, -, h⟩ := Option.bind_eq_some_iff.mp h
    obtain ⟨call, heq⟩ := duplicate_eq c space outcome w.lib
    have hplaced := (place_eq_some h).2
    rw [heq] at hplaced
    exact ⟨call, hplaced⟩
  | _ => cases hop

/-- An object is stored, and the others stay. -/
theorem owned_update {lib : NativeComms} {r : CommId} {v : Option Communicator}
    (hw : ∀ p c, w.objs p = some c → c.owned_ = true → Created lib c.comm_)
    (hv : ∀ c, v = some c → c.owned_ = true → Created lib c.comm_) :
    ∀ p c, (w.set r v).objs p = some c → c.owned_ = true → Created lib c.comm_ := by
  intro p c hc
  by_cases hp : p = r
  · subst hp
    simp only [Communicators.set, Function.update_self] at hc
    exact hv c hc
  · simp only [Communicators.set, Function.update_of_ne hp] at hc
    exact hw p c hc

theorem OwnsCreated.creation (hw : OwnsCreated w) {op : Op} {dst : CommId}
    (hop : op.creation = some (dst, outcome)) (hnull : op.LeavesNull)
    (h : step space w op = some w') : OwnsCreated w' := by
  obtain ⟨call, rfl⟩ := step_creation hop h
  have hext := extends_createBy space call outcome w.lib
  constructor
  · exact owned_update (fun p c hc ho => (hw.owned p c hc ho).extend hext.next) fun c hc _ =>
      created_of_createBy (fun left hleft => hnull dst left (hleft ▸ hop)) hc
  · intro h hh
    exact (hw.released h (hext.released ▸ hh)).extend hext.next

/-- The destructor of an object, and the first half of an assignment to it. -/
theorem OwnsCreated.destructor (hw : OwnsCreated w) {r : CommId} {c : Communicator}
    (hc : w.objs r = some c) (space : CommSpace) :
    OwnsCreated { w with lib := c.destructor space w.lib } := by
  unfold Communicator.destructor
  cases hfree : c.mustFree space with
  | false => exact hw
  | true =>
    have howned : c.owned_ = true := by
      cases ho : c.owned_ with
      | true => rfl
      | false => cases space <;> simp [Communicator.mustFree, ho] at hfree
    obtain ⟨n, hn, hcomm⟩ := hw.owned r c hc howned
    have hnext : (w.lib.free c.comm_).log.next = w.lib.log.next := by
      rw [hcomm]
      exact Ledger.free_next _ _
    rw [if_pos rfl]
    constructor
    · exact fun p c' hc' ho => (hw.owned p c' hc' ho).extend hnext.ge
    · intro h hh
      refine (show Created w.lib h from ?_).extend hnext.ge
      rw [hcomm] at hh
      rcases List.mem_append.mp hh with hh | hh
      · exact hw.released h hh
      · exact ⟨n, hn, List.mem_singleton.mp hh⟩

/-- A handle passes from one object to another, which had none or has freed
its own. -/
theorem OwnsCreated.move (hw : OwnsCreated w) {dst src : CommId} {other : Communicator}
    (hsrc : w.objs src = some other) :
    OwnsCreated ((w.set src (some .movedFrom)).set dst (some other)) where
  owned := by
    refine owned_update (w := w.set src (some .movedFrom)) ?_ fun c hc ho => ?_
    · refine owned_update hw.owned fun c hc ho => ?_
      cases hc
      cases ho
    · cases hc
      exact hw.owned src other hsrc ho
  released := hw.released

/-- Whatever the operation: a failed call has to leave the null handle. -/
theorem OwnsCreated.step (hw : OwnsCreated w) {op : Op} (hnull : op.LeavesNull)
    (h : step space w op = some w') : OwnsCreated w' := by
  cases op with
  | fromRaw dst comm =>
    obtain ⟨-, rfl⟩ := place_eq_some h
    constructor
    · refine owned_update hw.owned fun c hc ho => ?_
      cases hc
      cases ho
    · exact hw.released
  | splitFromRaw dst comm color key outcome => exact hw.creation rfl hnull h
  | split dst src color key outcome => exact hw.creation rfl hnull h
  | duplicateFromRaw dst comm userRank outcome => exact hw.creation rfl hnull h
  | duplicate dst src outcome => exact hw.creation rfl hnull h
  | moveConstruct dst src =>
    have hmove : w.step space (.moveConstruct dst src) = some w' := h
    obtain ⟨other, -, hsrc, rfl⟩ := Communicators.step_moveConstruct hmove
    exact hw.move hsrc
  | moveAssign dst src =>
    obtain ⟨this, other, hdst, hsrc, ⟨-, rfl⟩ | ⟨-, rfl⟩⟩ := Communicators.step_moveAssign h
    · exact hw
    · exact (hw.destructor hdst space).move hsrc
  | destroy r =>
    obtain ⟨c, hc, rfl⟩ := Communicators.step_destroy h
    have hfreed := hw.destructor hc space
    exact ⟨owned_update hfreed.owned nofun, hfreed.released⟩

/-- A failed call that leaves something breaks its promise at once. -/
theorem leavesNull_of_handled {op : Op} (h : step space w op = some w') (hop : Handled w op w') :
    op.LeavesNull := by
  intro dst left hcreation
  obtain ⟨call, rfl⟩ := step_creation hcreation h
  have hreturns := hop.1 dst _ hcreation
  rw [show (w.set dst (createBy space call (.failed left) w.lib).1).objs dst =
    (createBy space call (.failed left) w.lib).1 from Function.update_self ..] at hreturns
  exact (returns_iff space call _ w.lib).mp hreturns left rfl

theorem handled_of_leavesNull (hw : OwnsCreated w) {op : Op} (h : step space w op = some w')
    (hnull : op.LeavesNull) : Handled w op w' := by
  refine ⟨fun dst outcome hcreation => ?_, (hw.step hnull h).released⟩
  obtain ⟨call, rfl⟩ := step_creation hcreation h
  have hreturns := (returns_iff space call outcome w.lib).mpr fun left hleft =>
    hnull dst left (hleft ▸ hcreation)
  rwa [show (w.set dst (createBy space call outcome w.lib).1).objs dst =
    (createBy space call outcome w.lib).1 from Function.update_self ..]

/-! ## Runs -/

/-- **Failed splits and duplications yield `nullopt`, and no handle is freed
that was never created, exactly when** every call of the run that fails
leaves the null handle in the variable. -/
theorem failures_handled_iff (space : CommSpace) (given : CommHandle → CommShape)
    (ops : List Op) :
    Lts.AllSteps (step space) Handled (.start given) ops ↔
      Lts.AllSteps (step space) (fun _ op _ => op.LeavesNull) (.start given) ops :=
  Lts.allSteps_iff (fun s op s' hw (h : step space s op = some s') hnull => hw.step hnull h)
    (fun _ _ _ hw h hnull => handled_of_leavesNull hw h hnull)
    (fun _ _ _ h hop => leavesNull_of_handled h hop) (ownsCreated_start given)

/-- `MPI_Comm_dup` on a handle the user has created fails, and the variable
contains 7, which looks like another handle. -/
theorem failed_duplicate_returned :
    ¬ ∀ (space : CommSpace) (given : CommHandle → CommShape) (ops : List Op),
      Lts.AllSteps (step space) Handled (.start given) ops := by
  intro hall
  have hhandled := hall .mpiSpace (fun _ => ⟨1, 0⟩)
    [.duplicateFromRaw 0 (.raw 1) 0 (.failed (.raw 7))]
  have hnull := leavesNull_of_handled rfl (hhandled _ rfl).1
  exact absurd hnull (by decide)

/-! ## Programs without failures -/

/-- The object is placed alike where no handle is asked to be valid. -/
theorem place_of_place {dst : CommId} {comm : CommHandle}
    {result result' : NativeComms → Option Communicator × NativeComms}
    (heq : result' w.lib = result w.lib) (h : w.place dst comm result = some w') :
    place w dst result' = some w' := by
  obtain ⟨hnone, -, rfl⟩ := Communicators.place_eq_some h
  unfold place
  rw [hnone, heq]

/-- Every step of `Communicator` is one of this system. -/
theorem step_of_succeeds {op : CommunicatorOp} (h : w.step space op = some w') :
    step space w (ofSucceeding w.lib op) = some w' := by
  cases op with
  | fromRaw dst comm => exact place_of_place rfl h
  | splitFromRaw dst comm color key yields =>
    exact place_of_place (createBy_ofYields space _ yields w.lib) h
  | split dst src color key yields =>
    obtain ⟨c, hc, hplace⟩ := Communicators.step_split h
    simp only [ofSucceeding, step, hc]
    exact place_of_place (createBy_ofYields space _ yields w.lib) hplace
  | duplicateFromRaw dst comm yields =>
    refine place_of_place ?_ h
    cases space with
    | mpiSpace => exact createBy_ofYields .mpiSpace _ yields w.lib
    | ncclSpace => exact createBy_ofYields .ncclSpace _ yields w.lib
  | duplicate dst src yields =>
    obtain ⟨c, hc, hplace⟩ := Communicators.step_duplicate h
    simp only [ofSucceeding, step, hc]
    refine place_of_place ?_ hplace
    cases space with
    | mpiSpace => exact createBy_ofYields .mpiSpace _ yields w.lib
    | ncclSpace => exact createBy_ofYields .ncclSpace _ yields w.lib
  | moveConstruct dst src => exact h
  | moveAssign dst src => exact h
  | destroy r => exact h

end KokkosComm.Fallible
