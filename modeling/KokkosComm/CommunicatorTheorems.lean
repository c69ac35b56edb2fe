/-
KokkosComm.CommunicatorTheorems — who frees a communicator.

The two specialisations are treated at once. A program keeps the
communicators it created exactly as `CommunicatorOp.custody` says
(`KeepsComms`, a simulation): a split or duplication gives a fresh one to
the new object, moves carry it along, and the object that has it last
frees it. A borrowed handle is in nobody's custody and is never freed,
whichever object it is assigned to. The cached size and rank are those of
the handle in every object that has one (`communicators_owned`).
-/
import KokkosComm.Communicator

namespace KokkosComm

open Communicators

namespace Communicator

/-- The size and rank are those of the handle, or the object is in the
moved-from state. -/
def MatchesHandle (lib : NativeComms) (c : Communicator) : Prop :=
  (c.comm_ ≠ .null ∧ c.size_ = (lib.shape c.comm_).size ∧ c.rank_ = (lib.shape c.comm_).rank) ∨
    c = movedFrom

end Communicator

/-- The object `r` is alive and owns the `n`-th communicator created. -/
def OwnsComm (w : Communicators) (r : CommId) (n : Nat) : Prop :=
  ∃ c, w.objs r = some c ∧ c.owned_ = true ∧ c.comm_ = .created n

/-- What `Communicator` promises in a state that some operations have led
to. What is freed is what the custody releases: by the owner, and nothing
that was only borrowed. -/
structure CommunicatorsOwned (ops : List CommunicatorOp) (w : Communicators) : Prop where
  exclusive : w.lib.log.Exclusive (OwnsComm w)
  released : (∀ r, w.objs r = none) → ∀ n < w.lib.log.next, w.lib.log.freed.count n = 1
  byOwner : w.lib.released = (CommunicatorOp.custody ops).freed.map .created
  owner : ∀ r n, OwnsComm w r n ↔ n ∈ (CommunicatorOp.custody ops).of r
  handles : ∀ r c, w.objs r = some c → c.MatchesHandle w.lib

/-! ## The functions of `Communicator` -/

namespace Communicator

variable {c : Communicator} {lib lib' : NativeComms}

/-- The created communicators an object owns. -/
def owns (c : Communicator) : List Nat :=
  match c.owned_, c.comm_ with
  | true, .created n => [n]
  | _, _ => []

theorem mem_owns {n : Nat} : n ∈ c.owns ↔ c.owned_ = true ∧ c.comm_ = .created n := by
  unfold owns
  split
  · rename_i m ho hc
    simp [ho, hc, eq_comm]
  · rename_i hno
    simp only [List.not_mem_nil, false_iff]
    intro ⟨ho, hc⟩
    exact hno n ho hc

@[simp] theorem owns_movedFrom : movedFrom.owns = [] := rfl

/-- What every object keeps to: only created communicators are owned. -/
structure Sound (lib : NativeComms) (c : Communicator) : Prop where
  handle : c.MatchesHandle lib
  created : c.owned_ = true → ∃ n, c.comm_ = .created n
  known : ∀ n, c.comm_ = .created n → n < lib.shapes.length

theorem sound_movedFrom (lib : NativeComms) : movedFrom.Sound lib where
  handle := .inr rfl
  created := by simp [movedFrom]
  known := by simp [movedFrom]

/-- Communicators keep their shape when others are created or freed. -/
theorem Sound.extend (hc : c.Sound lib) (hgiven : lib'.given = lib.given)
    {new : List CommShape} (hshapes : lib'.shapes = lib.shapes ++ new) : c.Sound lib' := by
  have hshape : lib'.shape c.comm_ = lib.shape c.comm_ := by
    cases hcomm : c.comm_ with
    | created n =>
      have hlt := hc.known n hcomm
      simp [NativeComms.shape, hshapes, hgiven, List.getElem?_append_left hlt]
    | null => simp [NativeComms.shape, hgiven]
    | world => simp [NativeComms.shape, hgiven]
    | self => simp [NativeComms.shape, hgiven]
    | raw n => simp [NativeComms.shape, hgiven]
  constructor
  · unfold MatchesHandle
    rw [hshape]
    exact hc.handle
  · exact hc.created
  · intro n hcomm
    have := hc.known n hcomm
    rw [hshapes, List.length_append]
    omega

/-- The guard of the MPI destructor never holds an owned handle back. -/
theorem Sound.mustFree_eq (hc : c.Sound lib) (space : CommSpace) : c.mustFree space = c.owned_ := by
  cases ho : c.owned_ with
  | false => cases space <;> simp [mustFree, ho]
  | true =>
    obtain ⟨n, hn⟩ := hc.created ho
    cases space <;> simp [mustFree, ho, hn]

/-- The destructor frees what the object owns. -/
theorem Sound.destructor_eq (hc : c.Sound lib) (space : CommSpace) :
    c.destructor space lib =
      { lib with
        log      := lib.log.freeAll c.owns
        released := lib.released ++ c.owns.map .created } := by
  unfold destructor
  rw [hc.mustFree_eq space]
  cases ho : c.owned_ with
  | false => simp [owns, ho, Ledger.freeAll]
  | true =>
    obtain ⟨n, hn⟩ := hc.created ho
    simp [owns, ho, hn, Ledger.freeAll, NativeComms.free]

/-- Nothing is created: no object, and the handles stay as they were. -/
theorem createBy_none (space : CommSpace) (call : CreateCall) (lib : NativeComms) :
    createBy space call none lib = (none, { lib with calls := lib.calls ++ [call] }) := rfl

/-- The temporary the result is moved from frees nothing. -/
theorem createBy_some (space : CommSpace) (call : CreateCall) (shape : CommShape)
    (lib : NativeComms) :
    createBy space call (some shape) lib =
      (some { comm_ := .created lib.log.next
              size_ := ((lib.create call (some shape)).2.shape (.created lib.log.next)).size
              rank_ := ((lib.create call (some shape)).2.shape (.created lib.log.next)).rank
              owned_ := true },
        (lib.create call (some shape)).2) := by
  cases space <;> rfl

/-- Every duplication is one creating call. -/
theorem duplicateFromRaw_eq (space : CommSpace) (comm : CommHandle) (yields : Option CommShape)
    (lib : NativeComms) :
    ∃ call, duplicateFromRaw space comm yields lib = createBy space call yields lib := by
  cases space with
  | mpiSpace => exact ⟨_, rfl⟩
  | ncclSpace => exact ⟨_, rfl⟩

theorem duplicate_eq (c : Communicator) (space : CommSpace) (yields : Option CommShape)
    (lib : NativeComms) :
    ∃ call, c.duplicate space yields lib = createBy space call yields lib := by
  cases space with
  | mpiSpace => exact ⟨_, rfl⟩
  | ncclSpace => exact ⟨_, rfl⟩

end Communicator

/-! ## The simulation -/

/-- The program keeps the created communicators as the custody says. -/
structure KeepsComms (w : Communicators) (k : Custody CommId) : Prop where
  kept : k.WellKept
  log : w.lib.log = k.ledger
  shapes : w.lib.shapes.length = k.next
  released : w.lib.released = k.freed.map .created
  owned : Custody.Backs Communicator.owns id w.objs k
  sound : ∀ r c, w.objs r = some c → c.Sound w.lib

theorem keepsComms_start (given : CommHandle → CommShape) : KeepsComms (start given) .empty where
  kept := .empty
  log := rfl
  shapes := rfl
  released := rfl
  owned := fun _ => rfl
  sound := fun _ _ h => by cases h

variable {w w' : Communicators} {k : Custody CommId} {space : CommSpace}

theorem soundComm_update {lib : NativeComms} {r : CommId} {v : Option Communicator}
    (hw : ∀ p c, w.objs p = some c → c.Sound lib) (hv : ∀ c, v = some c → c.Sound lib) :
    ∀ p c, Function.update w.objs r v p = some c → c.Sound lib := by
  intro p c hc
  by_cases hp : p = r
  · subst hp
    rw [Function.update_self] at hc
    exact hv c hc
  · rw [Function.update_of_ne hp] at hc
    exact hw p c hc

theorem Communicators.place_eq_some {dst : CommId} {comm : CommHandle}
    {result : NativeComms → Option Communicator × NativeComms}
    (h : w.place dst comm result = some w') :
    w.objs dst = none ∧ w.lib.valid comm = true ∧
      w' = { w.set dst (result w.lib).1 with lib := (result w.lib).2 } := by
  unfold Communicators.place at h
  split at h
  · rename_i hnone
    split at h
    · rename_i hvalid
      cases h
      exact ⟨hnone, hvalid, rfl⟩
    · cases h
  · cases h

section Steps

variable {dst src : CommId}

theorem Communicators.step_split {color key : Int} {yields : Option CommShape}
    (h : w.step space (.split dst src color key yields) = some w') :
    ∃ c, w.objs src = some c ∧
      w.place dst c.comm_ (c.split space color key yields) = some w' := by
  simp only [Communicators.step] at h
  cases hc : w.objs src with
  | none => simp [hc] at h
  | some c => exact ⟨c, rfl, by simpa [hc] using h⟩

theorem Communicators.step_duplicate {yields : Option CommShape}
    (h : w.step space (.duplicate dst src yields) = some w') :
    ∃ c, w.objs src = some c ∧ w.place dst c.comm_ (c.duplicate space yields) = some w' := by
  simp only [Communicators.step] at h
  cases hc : w.objs src with
  | none => simp [hc] at h
  | some c => exact ⟨c, rfl, by simpa [hc] using h⟩

theorem Communicators.step_moveConstruct
    (h : w.step space (.moveConstruct dst src) = some w') :
    ∃ other, w.objs dst = none ∧ w.objs src = some other ∧
      w' = (w.set src (some .movedFrom)).set dst (some other) := by
  simp only [Communicators.step] at h
  cases hdst : w.objs dst with
  | some this => simp [hdst] at h
  | none =>
    cases hsrc : w.objs src with
    | none => simp [hdst, hsrc] at h
    | some other =>
      simp only [hdst, hsrc, Option.some.injEq] at h
      exact ⟨other, rfl, rfl, h.symm⟩

/-- An assignment to itself does nothing. -/
theorem Communicators.step_moveAssign (h : w.step space (.moveAssign dst src) = some w') :
    ∃ this other, w.objs dst = some this ∧ w.objs src = some other ∧
      (dst = src ∧ w' = w ∨ dst ≠ src ∧
        w' = { (w.set src (some .movedFrom)).set dst (some other) with
          lib := this.destructor space w.lib }) := by
  simp only [Communicators.step] at h
  cases hdst : w.objs dst with
  | none => simp [hdst] at h
  | some this =>
    cases hsrc : w.objs src with
    | none => simp [hdst, hsrc] at h
    | some other =>
      refine ⟨this, other, rfl, rfl, ?_⟩
      simp only [hdst, hsrc] at h
      by_cases heq : dst = src
      · rw [if_pos heq] at h
        exact .inl ⟨heq, (Option.some.inj h).symm⟩
      · rw [if_neg heq] at h
        exact .inr ⟨heq, (Option.some.inj h).symm⟩

theorem Communicators.step_destroy (h : w.step space (.destroy dst) = some w') :
    ∃ c, w.objs dst = some c ∧
      w' = { w.set dst none with lib := c.destructor space w.lib } := by
  simp only [Communicators.step] at h
  cases hc : w.objs dst with
  | none => simp [hc] at h
  | some c => exact ⟨c, rfl, by simpa [hc] using h.symm⟩

end Steps

/-- A valid handle that was created is known to the library. -/
theorem KeepsComms.known (hw : KeepsComms w k) {n : Nat}
    (hvalid : w.lib.valid (.created n) = true) : n < w.lib.shapes.length := by
  have hlt : n < w.lib.log.next := by
    simp only [NativeComms.valid, Bool.and_eq_true, decide_eq_true_eq] at hvalid
    exact hvalid.1
  rw [hw.shapes]
  simpa [hw.log] using hlt

/-- Borrowing a handle changes nobody's custody. -/
theorem KeepsComms.fromRaw (hw : KeepsComms w k) {dst : CommId} {comm : CommHandle}
    (h : w.place dst comm (fun lib => (some (.fromRaw comm lib), lib)) = some w') :
    KeepsComms w' k := by
  obtain ⟨hnone, hvalid, rfl⟩ := place_eq_some h
  have hnew : (Communicator.fromRaw comm w.lib).Sound w.lib := by
    constructor
    · refine .inl ⟨?_, rfl, rfl⟩
      intro hnull
      have hcomm : comm = .null := hnull
      rw [hcomm] at hvalid
      cases hvalid
    · intro ho
      cases ho
    · intro n hn
      have hcomm : comm = .created n := hn
      rw [hcomm] at hvalid
      exact hw.known hvalid
  have howns : (some (Communicator.fromRaw comm w.lib)).elim [] Communicator.owns
      = (k.of dst).map id := by
    rw [hw.owned.of_none hnone]
    rfl
  exact
    { hw with
      owned := hw.owned.replace howns
      sound := soundComm_update hw.sound fun c hc => by cases hc; exact hnew }

/-- A split or duplication gives what it yields to the new object. -/
theorem KeepsComms.create (hw : KeepsComms w k) {dst : CommId} {comm : CommHandle}
    {result : NativeComms → Option Communicator × NativeComms} {call : CreateCall}
    {yields : Option CommShape}
    (hresult : result w.lib = Communicator.createBy space call yields w.lib)
    (h : w.place dst comm result = some w') :
    KeepsComms w' (if yields.isSome then k.acquire dst else k) := by
  obtain ⟨hnone, _, rfl⟩ := place_eq_some h
  have hdst : k.of dst = [] := hw.owned.of_none hnone
  rw [hresult]
  cases yields with
  | none =>
    rw [Communicator.createBy_none]
    exact
      { hw with
        owned := hw.owned.replace (by simp [hdst])
        sound := soundComm_update
          (fun p c hc => (hw.sound p c hc).extend rfl (List.append_nil _).symm)
          fun c hc => by cases hc }
  | some shape =>
    rw [Communicator.createBy_some]
    have hnext : w.lib.log.next = k.next := by rw [hw.log, Custody.ledger_next]
    constructor
    · exact hw.kept.acquire dst
    · simp only [NativeComms.create, hw.log]
      exact (Custody.acquire_ledger dst).symm
    · simp [NativeComms.create, Custody.acquire, hw.shapes]
    · exact hw.released
    · refine hw.owned.acquire ?_
      simp [Communicator.owns, hdst, hnext]
    · refine soundComm_update (fun p c hc => (hw.sound p c hc).extend rfl rfl) ?_
      intro c hc
      cases hc
      constructor
      · exact .inl ⟨by simp, rfl, rfl⟩
      · exact fun _ => ⟨_, rfl⟩
      · intro n hn
        cases hn
        simp [NativeComms.create, hw.shapes, hnext]

/-- The library after `r` has freed what it owns. -/
theorem KeepsComms.freed (hw : KeepsComms w k) {r : CommId} {c : Communicator}
    (hc : w.objs r = some c) :
    c.destructor space w.lib =
      { w.lib with
        log      := (k.release r).ledger
        released := (k.release r).freed.map .created } := by
  have howns : c.owns = k.of r := by
    have := hw.owned.of_some hc
    simpa using this
  rw [(hw.sound r c hc).destructor_eq space, howns, hw.log, hw.kept.freeAll_eq, hw.released]
  simp

theorem KeepsComms.destroy (hw : KeepsComms w k) {r : CommId} {c : Communicator}
    (hc : w.objs r = some c) :
    KeepsComms { w.set r none with lib := c.destructor space w.lib } (k.release r) := by
  rw [hw.freed hc]
  exact
    { kept     := hw.kept.release r
      log      := rfl
      shapes   := hw.shapes
      released := rfl
      owned    := hw.owned.release rfl
      sound    := soundComm_update
        (fun p c hc => (hw.sound p c hc).extend rfl (List.append_nil _).symm)
        fun c hc => by cases hc }

/-- What `src` owns goes to `dst`, whose own communicator is released (an
object just being constructed has none). -/
theorem KeepsComms.move (hw : KeepsComms w k) {dst src : CommId} (hne : dst ≠ src)
    {other : Communicator} (hsrc : w.objs src = some other) {lib : NativeComms}
    (hlib : lib = { w.lib with
      log      := (k.release dst).ledger
      released := (k.release dst).freed.map .created }) :
    KeepsComms { (w.set src (some .movedFrom)).set dst (some other) with lib := lib }
      (k.transfer dst src) := by
  have hother : other.Sound lib := by
    subst hlib
    exact (hw.sound src other hsrc).extend rfl (List.append_nil _).symm
  have hsound : ∀ p c, w.objs p = some c → c.Sound lib := by
    subst hlib
    exact fun p c hc => (hw.sound p c hc).extend rfl (List.append_nil _).symm
  have hleft : ∀ p c, (w.set src (some .movedFrom)).objs p = some c → c.Sound lib := by
    refine soundComm_update hsound ?_
    intro c hc
    cases hc
    exact Communicator.sound_movedFrom lib
  constructor
  · exact hw.kept.transfer dst src
  · simp [hlib, Custody.transfer, hne]
  · simp [hlib, Custody.transfer, hne, hw.shapes]
  · simp [hlib, Custody.transfer, hne]
  · exact hw.owned.transfer hne (hw.owned.of_some hsrc) rfl
  · exact soundComm_update hleft fun c hc => by cases hc; exact hother

theorem KeepsComms.step {op : CommunicatorOp} (hw : KeepsComms w k)
    (h : w.step space op = some w') : KeepsComms w' (op.keep k) := by
  cases op with
  | fromRaw dst comm => exact hw.fromRaw h
  | splitFromRaw dst comm color key yields =>
    have hcall : Communicator.splitFromRaw space comm color key yields w.lib =
        Communicator.createBy space (.split comm color key) yields w.lib := rfl
    exact hw.create hcall h
  | split dst src color key yields =>
    obtain ⟨c, hc, hplace⟩ := step_split h
    have hcall : c.split space color key yields w.lib =
        Communicator.createBy space (.split c.comm_ color key) yields w.lib := rfl
    exact hw.create hcall hplace
  | duplicateFromRaw dst comm yields =>
    obtain ⟨call, hcall⟩ := Communicator.duplicateFromRaw_eq space comm yields w.lib
    exact hw.create hcall h
  | duplicate dst src yields =>
    obtain ⟨c, hc, hplace⟩ := step_duplicate h
    obtain ⟨call, hcall⟩ := c.duplicate_eq space yields w.lib
    exact hw.create hcall hplace
  | moveConstruct dst src =>
    obtain ⟨other, hnone, hsrc, rfl⟩ := step_moveConstruct h
    have hne : dst ≠ src := by
      intro heq
      simp [heq, hsrc] at hnone
    have hledger : (k.release dst).ledger = w.lib.log := by
      simp [Custody.ledger, Custody.release, hw.owned.of_none hnone, hw.log]
    have hfreed : (k.release dst).freed = k.freed := by simp [hw.owned.of_none hnone]
    refine hw.move hne hsrc ?_
    rw [hledger, hfreed, ← hw.released]
    rfl
  | moveAssign dst src =>
    obtain ⟨this, other, hdst, hsrc, ⟨heq, rfl⟩ | ⟨hne, rfl⟩⟩ := step_moveAssign h
    · simpa [CommunicatorOp.keep, heq] using hw
    · exact hw.move hne hsrc (hw.freed hdst)
  | destroy r =>
    obtain ⟨c, hc, rfl⟩ := step_destroy h
    exact hw.destroy hc

theorem keepsComms_of_exec {given : CommHandle → CommShape} {ops : List CommunicatorOp}
    (h : Lts.exec (step space) (start given) ops = some w) :
    KeepsComms w (CommunicatorOp.custody ops) :=
  Lts.exec_simulation (fun _ _ _ _ hw hs => hw.step hs) (keepsComms_start given) h

/-! ## Ownership -/

theorem KeepsComms.owner (hw : KeepsComms w k) (r : CommId) (n : Nat) :
    OwnsComm w r n ↔ n ∈ k.of r := by
  cases hc : w.objs r with
  | none => simp [OwnsComm, hc, hw.owned.of_none hc]
  | some c =>
    have howns : c.owns = k.of r := by
      have := hw.owned.of_some hc
      simpa using this
    simp [OwnsComm, hc, ← howns, Communicator.mem_owns]

theorem KeepsComms.exclusive (hw : KeepsComms w k) : w.lib.log.Exclusive (OwnsComm w) := by
  rw [hw.log]
  exact hw.kept.exclusive.congr hw.owner

/-- **Ownership of the native communicators**, for both specialisations:
whatever operations run, a created communicator has one owner until it is
freed, once; borrowed handles are never freed; and every object is in step
with its handle or moved-from. -/
theorem communicators_owned (space : CommSpace) (given : CommHandle → CommShape)
    (ops : List CommunicatorOp) (w : Communicators)
    (h : Lts.exec (step space) (start given) ops = some w) : CommunicatorsOwned ops w := by
  have hw := keepsComms_of_exec h
  refine ⟨hw.exclusive, fun hnone n hlt => ?_, hw.released, hw.owner,
    fun r c hc => (hw.sound r c hc).handle⟩
  refine hw.exclusive.count_freed ?_ hlt
  intro r n' ⟨c, hc, _⟩
  simp [hnone r] at hc

/-- A duplicate of the world, an object that borrows it, the one assigned
onto the other, a split in which this process takes no part, and the end. -/
def borrowAndAssign : List CommunicatorOp :=
  [.fromRaw 0 .world, .duplicate 1 0 (some ⟨4, 2⟩), .fromRaw 2 (.created 0),
    .splitFromRaw 3 .world 0 0 none, .duplicateFromRaw 3 .self (some ⟨1, 0⟩), .moveAssign 3 3,
    .moveAssign 3 1, .moveAssign 3 2, .moveConstruct 4 3, .destroy 0, .destroy 1, .destroy 2,
    .destroy 3, .destroy 4]

theorem communicators_owned_borrowAndAssign :
    ∃ w, Lts.exec (step .mpiSpace) (start fun _ => ⟨4, 2⟩) borrowAndAssign = some w ∧
      CommunicatorsOwned borrowAndAssign w := by
  have hsome : (Lts.exec (step .mpiSpace) (start fun _ => ⟨4, 2⟩) borrowAndAssign).isSome = true :=
    by decide
  obtain ⟨w, hw⟩ := Option.isSome_iff_exists.mp hsome
  exact ⟨w, hw, communicators_owned .mpiSpace _ borrowAndAssign w hw⟩

end KokkosComm
