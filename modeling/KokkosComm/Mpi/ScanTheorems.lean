/-
KokkosComm.Mpi.ScanTheorems — which regions a scan leaves open.

The postconditions of a scan are computed statement by statement. Where it
returns, every region it opened is closed again; where it throws, those
opened so far stay: one in the routine without a space, and with a space
one more if the exception comes from the nested call.
-/
import KokkosComm.Mpi.Scan

namespace KokkosComm.Mpi.Scan

open Throwing

/-! ## The routines -/

section Routines

variable {answer : Outcome Int} {fn : MpiOp → BlockingFn} {name : String} {sv rv : View}
  {op : MpiOp} {comm : MpiComm} {s : Profile}

/-- The MPI call of a scan. -/
def scanCall (fn : MpiOp → BlockingFn) (sv rv : View) (op : MpiOp) (comm : MpiComm) :
    BlockingCall :=
  { fn := fn op, sendbuf := some sv, sendcount := CInt.ofSize sv.size,
    recvbuf := some rv, recvcount := CInt.ofSize sv.size, comm := comm }

section Computed

variable {Q : Unit → Profile → Prop} {E : String → Profile → Prop}

theorem wp_mpi (call : BlockingCall) :
    (mpi answer call).wp s Q E ↔
      ∀ code, answer = .returns code → Q () { s with calls := s.calls ++ [call] } := by
  rw [mpi, wp_bind, wp_act, wp_bind, wp_call]
  simp only [wp_pure]

/-- Three places to throw from, all of them behind the push. -/
theorem wp_scanOn :
    (scanOn answer fn name sv rv op comm).wp s Q E ↔
      let opened := { s with regions := ("KokkosComm::mpi::" ++ name) :: s.regions }
      if !sv.isContiguous then E ("low-level " ++ name ++ " requires contiguous send view") opened
      else if !rv.isContiguous then
        E ("low-level " ++ name ++ " requires contiguous recv view") opened
      else if sv.size != rv.size then
        E (name ++ " requires send and receive views to have the same size") opened
      else ∀ code, answer = .returns code →
        Q () { s with calls := s.calls ++ [scanCall fn sv rv op comm] } := by
  simp only [scanOn, pushRegion, popRegion, wp_bind, wp_act, wp_throwIf, wp_mpi, List.tail_cons]
  rfl

/-- With a space, the nested call is made on contiguous views. -/
theorem wp_scan :
    (scan answer fn name sv rv op comm).wp s Q E ↔
      let opened := { s with regions := ("KokkosComm::mpi::" ++ name) :: s.regions }
      if !sv.isContiguous || !rv.isContiguous then
        E (name ++ " for non-contiguous views not implemented") opened
      else (scanOn answer fn name sv rv op comm).wp
        { opened with fences := s.fences ++ ["fence before " ++ name] }
        (fun _ s' => Q () { s' with regions := s'.regions.tail }) E := by
  simp only [scan, pushRegion, popRegion, fence, wp_bind, wp_act, wp_throwIf]

end Computed

/-- Where the routine without a space returns, it has closed its region;
where it throws, it has not. -/
theorem regions_scanOn (s : Profile) :
    (scanOn answer fn name sv rv op comm).wp s
      (fun _ s' => Accepts sv rv ∧ s'.regions = s.regions)
      (fun _ s' => ¬ Accepts sv rv ∧ s'.regions = ("KokkosComm::mpi::" ++ name) :: s.regions) := by
  rw [wp_scanOn]
  unfold Accepts
  cases hs : sv.isContiguous with
  | false => simp
  | true =>
    cases hr : rv.isContiguous with
    | false => simp
    | true =>
      by_cases hsize : sv.size = rv.size
      · simp [hsize]
      · simp [hsize]

/-- The regions that the routine on a space leaves open when it throws:
views of unequal sizes are found in the nested call only. -/
def leakedOnSpace (region : String) (sv rv : View) : List String :=
  if sv.isContiguous = true ∧ rv.isContiguous = true then [region, region] else [region]

theorem regions_scan (s : Profile) :
    (scan answer fn name sv rv op comm).wp s
      (fun _ s' => Accepts sv rv ∧ s'.regions = s.regions)
      (fun _ s' => ¬ Accepts sv rv ∧
        s'.regions = leakedOnSpace ("KokkosComm::mpi::" ++ name) sv rv ++ s.regions) := by
  rw [wp_scan]
  by_cases hc : sv.isContiguous = true ∧ rv.isContiguous = true
  · -- the nested call starts with one region more
    simp only [hc.1, hc.2, Bool.not_true, Bool.or_self, Bool.false_eq_true, if_false,
      leakedOnSpace, and_self, if_true]
    refine (regions_scanOn _).imp (fun _ s' h => ⟨h.1, ?_⟩) (fun _ s' h => ⟨h.1, h.2⟩)
    show s'.regions.tail = s.regions
    rw [h.2]
    rfl
  · have hreject : (!sv.isContiguous || !rv.isContiguous) = true := by
      rcases not_and_or.mp hc with hs | hr
      · simp [hs]
      · simp [hr]
    simp only [hreject, if_true, leakedOnSpace, hc, if_false]
    exact ⟨fun h => hc ⟨h.1, h.2.1⟩, rfl⟩

end Routines

/-! ## Runs -/

/-- The regions that a call leaves open. -/
def Call.leaked (c : Call) : List String :=
  if c.Accepted then []
  else if c.overload.onSpace then leakedOnSpace c.overload.region c.sv c.rv
  else [c.overload.region]

theorem leakedOnSpace_ne_nil (region : String) (sv rv : View) :
    leakedOnSpace region sv rv ≠ [] := by
  unfold leakedOnSpace
  split <;> simp

section Leaked

variable {c : Call}

theorem Call.leaked_of_accepted (h : c.Accepted) : c.leaked = [] := if_pos h

theorem Call.leaked_of_rejected (h : ¬ c.Accepted) :
    c.leaked =
      if c.overload.onSpace then leakedOnSpace c.overload.region c.sv c.rv
      else [c.overload.region] :=
  if_neg h

theorem Call.leaked_eq_nil : c.leaked = [] ↔ c.Accepted := by
  refine ⟨fun hnil => by_contra fun h => ?_, leaked_of_accepted⟩
  rw [leaked_of_rejected h] at hnil
  cases hspace : c.overload.onSpace with
  | false => simp [hspace] at hnil
  | true =>
    simp only [hspace, if_true] at hnil
    exact leakedOnSpace_ne_nil _ _ _ hnil

end Leaked

/-- A call ends with the open regions it found, below those it leaks. -/
theorem Call.regions (c : Call) (s : Profile) :
    c.run.wp s (fun _ s' => s'.regions = c.leaked ++ s.regions)
      (fun _ s' => s'.regions = c.leaked ++ s.regions) := by
  have hon : ∀ (fn : MpiOp → BlockingFn) (name : String), c.overload.onSpace = false →
      c.overload.region = "KokkosComm::mpi::" ++ name →
      (scanOn c.answer fn name c.sv c.rv c.op c.comm).wp s
        (fun _ s' => s'.regions = c.leaked ++ s.regions)
        (fun _ s' => s'.regions = c.leaked ++ s.regions) := by
    intro fn name hspace hregion
    refine (regions_scanOn s).imp (fun _ s' h => ?_) (fun _ s' h => ?_)
    · rw [Call.leaked_of_accepted h.1, h.2, List.nil_append]
    · rw [Call.leaked_of_rejected h.1, hspace, hregion, h.2]
      rfl
  have hspace : ∀ (fn : MpiOp → BlockingFn) (name : String), c.overload.onSpace = true →
      c.overload.region = "KokkosComm::mpi::" ++ name →
      (scan c.answer fn name c.sv c.rv c.op c.comm).wp s
        (fun _ s' => s'.regions = c.leaked ++ s.regions)
        (fun _ s' => s'.regions = c.leaked ++ s.regions) := by
    intro fn name hspace hregion
    refine (regions_scan s).imp (fun _ s' h => ?_) (fun _ s' h => ?_)
    · rw [Call.leaked_of_accepted h.1, h.2, List.nil_append]
    · rw [Call.leaked_of_rejected h.1, hspace, hregion, h.2]
      rfl
  unfold Call.run
  cases ho : c.overload with
  | inclusiveScanOn => exact hon _ _ (by rw [ho]; rfl) (by rw [ho]; rfl)
  | exclusiveScanOn => exact hon _ _ (by rw [ho]; rfl) (by rw [ho]; rfl)
  | inclusiveScan => exact hspace _ _ (by rw [ho]; rfl) (by rw [ho]; rfl)
  | exclusiveScan => exact hspace _ _ (by rw [ho]; rfl) (by rw [ho]; rfl)

theorem step_regions {s s' : Profile} {c : Call} (h : step s c = some s') :
    s'.regions = c.leaked ++ s.regions := by
  obtain ⟨⟨r, t⟩, hexit, hret⟩ := Option.bind_eq_some_iff.mp h
  cases hret
  exact (c.regions s).exit (Outcome.toOption_eq_some.mp hexit)

/-- The leaks add up: after a run, those of the last call are on top. -/
theorem exec_regions {s s' : Profile} {calls : List Call} (h : Lts.exec step s calls = some s') :
    s'.regions = calls.foldl (fun regions c => c.leaked ++ regions) s.regions :=
  Lts.exec_simulation (R := fun s regions => s.regions = regions)
    (fun s regions c s' hR hstep => by rw [step_regions hstep, hR]) rfl h

/-- **The regions stay balanced exactly when** every call of the run is made
on contiguous views of one size. -/
theorem balanced_iff (s : Profile) (calls : List Call) :
    Balanced s calls ↔ Lts.AllSteps step (fun _ c _ => c.Accepted) s calls := by
  refine Lts.allSteps_congr fun s c s' hstep => ?_
  rw [step_regions hstep, List.append_left_eq_self]
  exact Call.leaked_eq_nil

/-- `inclusive_scan` on a space, of two elements into three. -/
def unequalScan : Call where
  overload := .inclusiveScan
  sv := .line 0 0 2 1
  rv := .line 1 0 3 1
  op := 0
  comm := 0
  answer := .returns 0
  ranks := by decide

/-- The exception comes from the nested call, and both regions stay open. -/
theorem unequal_scan_leaks : ¬ ∀ (s : Profile) (calls : List Call), Balanced s calls := by
  intro hall
  have hbalanced := (hall { regions := [], fences := [], calls := [] } [unequalScan]) _ rfl
  exact absurd hbalanced.1 (by decide)

/-! ## The caller that does not catch -/

section Uncaught

variable {fn : MpiOp → BlockingFn} {name : String} {sv rv : View} {op : MpiOp} {comm : MpiComm}
  {host host' : Host} {after : List HostOp} {call : BlockingCall}

/-- `Blocking.scan` reaches its MPI call where the routine returns, and
makes the same one. -/
theorem scan_of_blocking (code : Int)
    (h : Blocking.scan fn name sv rv op comm host = .returns ((call, after), host'))
    (s : Profile) :
    (scan (.returns code) fn name sv rv op comm).exit s = .returns (.ok (),
      { s with fences := s.fences ++ ["fence before " ++ name], calls := s.calls ++ [call] }) := by
  unfold Blocking.scan Blocking.scanOn at h
  cases hs : sv.isContiguous with
  | false => simp [hs] at h
  | true =>
    cases hr : rv.isContiguous with
    | false => simp [hs, hr] at h
    | true =>
      by_cases hsize : sv.size = rv.size
      · have heq : (sv.size != rv.size) = false := by simpa using hsize
        simp [hs, hr, heq] at h
        obtain ⟨⟨rfl, -⟩, -⟩ := h
        simp only [scan, scanOn, hs, hr, heq]
        rfl
      · have hne : (sv.size != rv.size) = true := by simpa using hsize
        simp [hs, hr, hne] at h

end Uncaught

end KokkosComm.Mpi.Scan
