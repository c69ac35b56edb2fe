/-
KokkosComm.Nccl.JointTheorems — one operation of the network after the
other, with all streams empty in between.

§1 one process: what it does for a call up to the operation of NCCL, and
after it (`Takes`): it packs, it is ready, it waits, it unpacks. Each routine
is described by the call it makes and by two copies that it may need
(`Call.Makes`). §2 the parties of an operation come to it, it takes place,
and all go on (`Between.joint`); work of a process needs no other
(`Between.work`). By these two lemmas a list of operations that all
processes agree on can be gone through in its order.
-/
import KokkosComm.Choreography
import KokkosComm.Nccl.CompletionTheorems

namespace KokkosComm.Nccl

open Lts MultiIndex
open Mpi (Callback SpaceOp)

variable {α : Type} {n : Nat}

/-! ## §1 One process -/

/-- A copy, from the second view to the first, if there is one. -/
def copied : Option (View × View) → Heap α → Heap α
  | none, h => h
  | some (dst, src), h => h.deepCopy dst src

/-- The packing of a send view, … -/
def packs (a : AllocId) (sv : View) : Option (View × View) :=
  if sv.isContiguous then none else some (sv.contiguousView a, sv)

/-- … and the unpacking of a receive view. -/
def unpacks (a : AllocId) (rv : View) : Option (View × View) :=
  if rv.isContiguous then none else some (rv, rv.contiguousView a)

theorem copied_packs (a : AllocId) (sv : View) (h : Heap α) :
    copied (packs a sv) h = h.handed a sv := by
  unfold packs Heap.handed
  split <;> rfl

theorem copied_unpacks (a : AllocId) (rv : View) (h : Heap α) :
    copied (unpacks a rv) h = Heap.unpacked a rv h := by
  unfold unpacks Heap.unpacked
  split <;> rfl

/-- A call of a routine on the process `rank`, whose next allocation is `a`:
it packs, if it has to, makes `call`, and its request unpacks, if it has to. -/
def Call.Makes (α : Type) (c : Call) (size rank : Nat) (comm : NcclComm) (a : AllocId)
    (call : TransportCall) (pack back : Option (View × View)) : Prop :=
  ∀ h : Host, h.nextAlloc = a → h.trace = [] → ∃ req own host label,
    c.run size rank comm h = .returns ((req, own), host) ∧ (∃ e, req.request_ = some e) ∧
      req.bodies = back.toList.flatMap (fun x => [.deepCopy x.1 x.2, .fence label]) ∧
      a ≤ host.nextAlloc ∧
      (enqueued host.trace ++ own.toList.map fun call => .transport (.contiguous call) :
        List (StreamOp α)) =
        pack.toList.map (fun x => .copy x.1 x.2) ++ [.transport call]

section Makes

variable {size rank : Nat} {comm : NcclComm} {a : AllocId}

theorem makes_send (sv : View) (peer : Int) : (Call.send sv peer).Makes α size rank comm a
    (.nccl (.toPeer (sv.handed a) (sentCount sv) peer comm)) (packs a sv) none := by
  rintro h rfl ht
  obtain ⟨req, host, hrun, hevent, hbodies, hnext, hops⟩ := send_posts (α := α) peer comm sv ht
  refine ⟨req, none, host, "", by simp [Call.run, hrun], hevent, hbodies, hnext, ?_⟩
  rw [hops, packing, packs]
  split <;> simp

theorem makes_recv (rv : View) (peer : Int) : (Call.recv rv peer).Makes α size rank comm a
    (.nccl (.fromPeer (rv.handed a) (sentCount rv) peer comm)) none (unpacks a rv) := by
  rintro h rfl ht
  obtain ⟨req, host, hrun, hevent, hbodies, hnext, hops⟩ := recv_posts (α := α) peer comm rv ht
  refine ⟨req, none, host, "fence `pckd_rv` unpacking after NCCL call", by simp [Call.run, hrun],
    hevent, ?_, hnext, by simp [hops]⟩
  rw [hbodies, unpacking, unpacks]
  split <;> simp [Mpi.Packer.unpackInto]

/-- `nccl::reduce` receives into `rv` itself only if the process is not the
root and `rv` is contiguous. -/
theorem makes_reduce (sv rv : View) (op : NcclRedOp) (root : Int) :
    (Call.reduce sv rv op root).Makes α size rank comm a
      (.nccl (reduceCall (sv.handed a) (if receivesDirectly rank root rv then rv
        else rv.contiguousView (if sv.isContiguous then a else a + 1)) (sentCount sv) op root comm))
      (packs a sv) (if receivesDirectly rank root rv then none
        else some (rv, rv.contiguousView (if sv.isContiguous then a else a + 1))) := by
  rintro h rfl ht
  have hdirect : ((rank : Int) ≠ root ∧ rv.isContiguous = true) ↔
      receivesDirectly rank root rv = true := by simp [receivesDirectly]
  suffices hreduce : ∃ req host label, reduce sv rv op root rank comm h = .returns (req, host) ∧
      (∃ e, req.request_ = some e) ∧
      req.bodies = (if receivesDirectly rank root rv then none
        else some (rv, rv.contiguousView (if sv.isContiguous then h.nextAlloc
          else h.nextAlloc + 1))).toList.flatMap (fun x => [.deepCopy x.1 x.2, .fence label]) ∧
      h.nextAlloc ≤ host.nextAlloc ∧
      (enqueued host.trace : List (StreamOp α)) = (packs h.nextAlloc sv).toList.map
          (fun x => .copy x.1 x.2) ++
        [.transport (.nccl (reduceCall (sv.handed h.nextAlloc)
          (if receivesDirectly rank root rv then rv
            else rv.contiguousView (if sv.isContiguous then h.nextAlloc else h.nextAlloc + 1))
          (sentCount sv) op root comm))] by
    obtain ⟨req, host, label, hrun, hevent, hbodies, hnext, hops⟩ := hreduce
    exact ⟨req, none, host, label, by simp [Call.run, hrun], hevent, hbodies, hnext,
      by simp [hops]⟩
  unfold reduce packs
  cases hs : sv.isContiguous with
  | true =>
    have hsent : sentCount sv = sv.span := if_pos hs
    rw [View.handed_of_contiguous _ hs, hsent]
    by_cases hr : (rank : Int) ≠ root ∧ rv.isContiguous = true
    · simp only [if_pos hr, hdirect.mp hr, if_true]
      refine ⟨_, _, "", rfl, ?_, ?_, ?_, ?_⟩
      all_goals simp [Host.log, enqueued, ht]
    · simp only [if_neg hr, if_neg (mt hdirect.mpr hr), if_true]
      refine ⟨_, _, "fence `pckd_rv` unpacking after NCCL call", rfl, ?_, ?_, ?_, ?_⟩
      all_goals simp [Host.log, Host.allocated, enqueued, ht, Mpi.unpackCallback,
        Mpi.Packer.unpackInto]
  | false =>
    have hsent : sentCount sv = CInt.ofSize sv.size := sentCount_of_packed hs
    rw [View.handed_of_packed _ hs, hsent]
    by_cases hr : (rank : Int) ≠ root ∧ rv.isContiguous = true
    · simp only [if_pos hr, hdirect.mp hr, if_true]
      refine ⟨_, _, "", rfl, ?_, ?_, ?_, ?_⟩
      all_goals simp [Host.log, Host.allocated, enqueued, ht]
    · simp only [if_neg hr, if_neg (mt hdirect.mpr hr)]
      refine ⟨_, _, "fence `pckd_rv` unpacking after NCCL call", rfl, ?_, ?_, ?_, ?_⟩
      case refine_3 => exact Nat.le_add_right _ 2
      all_goals simp [Host.log, Host.allocated, enqueued, ht, Mpi.unpackCallback,
        Mpi.Packer.unpackInto]

theorem makes_alltoall {sv rv : View} (hs : sv.isContiguous = true) (hr : rv.isContiguous = true)
    (count : Int) : (Call.alltoall sv rv count).Makes α size rank comm a
      (.nccl ⟨.ncclAlltoAll, some (dataHandle sv), some (dataHandle rv), count, comm⟩)
      none none := by
  rintro h rfl ht
  suffices halltoall : ∃ req host, alltoall true sv rv count size comm h = .returns (req, host) ∧
      (∃ e, req.request_ = some e) ∧ req.bodies = [] ∧ h.nextAlloc ≤ host.nextAlloc ∧
      (enqueued host.trace : List (StreamOp α)) = [.transport
        (.nccl ⟨.ncclAlltoAll, some (dataHandle sv), some (dataHandle rv), count, comm⟩)] by
    obtain ⟨req, host, hrun, hevent, hbodies, hnext, hops⟩ := halltoall
    exact ⟨req, none, host, "", by simp [Call.run, hrun], hevent, hbodies, hnext, by simp [hops]⟩
  unfold alltoall
  simp only [hs, hr, and_self, if_true]
  refine ⟨_, _, rfl, ?_, ?_, ?_, ?_⟩
  all_goals simp [Host.log, enqueued, ht]

/-- The three routines for contiguous views. -/
theorem makes_contiguous {c : Call} (region : String) (views : List View) {call : ContiguousCall}
    (hviews : ∀ v ∈ views, v.isContiguous = true)
    (hrun : ∀ h, c.run size rank comm h = contiguousCollective region views call h >>= fun x =>
      .returns ((x.1.1, some x.1.2), x.2)) :
    c.Makes α size rank comm a (.contiguous call) none none := by
  rintro h rfl ht
  obtain ⟨req, host, hcall, hevent, hbodies, hhost⟩ :=
    contiguousCollective_returns region call h hviews
  refine ⟨req, some call, host, "", by rw [hrun, hcall]; rfl, ⟨_, hevent⟩, hbodies, ?_, ?_⟩
  · rw [hhost]
  · simp [hhost, enqueued, ht]

theorem makes_allgather {sv rv : View} (hs : sv.isContiguous = true)
    (hr : rv.isContiguous = true) : (Call.allgather sv rv).Makes α size rank comm a
      (.contiguous ⟨.ncclAllGather, dataHandle sv, dataHandle rv, sv.span, comm⟩) none none :=
  makes_contiguous "KokkosComm::Experimental::nccl::allgather" [sv, rv]
    (by simp [hs, hr]) fun _ => rfl

theorem makes_allreduce {sv rv : View} (hs : sv.isContiguous = true)
    (hr : rv.isContiguous = true) (op : NcclRedOp) :
    (Call.allreduce sv rv op).Makes α size rank comm a
      (.contiguous ⟨.ncclAllReduce op, dataHandle sv, dataHandle rv, sv.span, comm⟩) none none :=
  makes_contiguous "KokkosComm::Experimental::nccl::allreduce" [sv, rv]
    (by simp [hs, hr]) fun _ => rfl

theorem makes_broadcast {v : View} (hv : v.isContiguous = true) (root : Int) :
    (Call.broadcast v root).Makes α size rank comm a
      (.contiguous ⟨.ncclBcast root, dataHandle v, dataHandle v, v.span, comm⟩) none none :=
  makes_contiguous "KokkosComm::Experimental::nccl::broadcast" [v]
    (by simp [hv]) fun _ => rfl

end Makes

namespace Rank

variable {size rank : Nat} {comm : NcclComm} {R R' R'' : Rank α}

/-- Steps that only this process makes. -/
def Alone (size rank : Nat) (comm : NcclComm) : Rank α → Rank α → Prop :=
  Relation.ReflTransGen fun R R' => R.host size rank comm = .returns R' ∨ R.work = .returns R'

theorem Alone.host (h : R.host size rank comm = .returns R') : Alone size rank comm R R' :=
  .single (.inl h)

theorem Alone.work (h : R.work = .returns R') : Alone size rank comm R R' := .single (.inr h)

theorem Alone.trans (h : Alone size rank comm R R') (h' : Alone size rank comm R' R'') :
    Alone size rank comm R R'' := Relation.ReflTransGen.trans h h'

theorem work_of_effect {x : StreamOp α} {q : List (StreamOp α)} {f : Heap α → Heap α}
    (hq : R.queue = x :: q) (hf : x.effect = some f) : R.work = .returns (R.pop (f R.heap)) := by
  simp [Rank.work, hq, hf]

/-- A process with nothing on its stream, after `m` calls. -/
structure Idle (R : Rank α) (n m : Nat) : Prop where
  queue : R.queue = []
  requests : R.requests.length = m
  alloc : n ≤ R.nextAlloc

section Posted

variable (R : Rank α) (ops : List (StreamOp α)) (req : Request Callback) (host : Host)

@[simp] theorem posted_program : (R.posted ops req host).program = R.program := rfl
@[simp] theorem posted_heap : (R.posted ops req host).heap = R.heap := rfl
@[simp] theorem posted_queue : (R.posted ops req host).queue = R.queue ++ ops := rfl
@[simp] theorem posted_requests : (R.posted ops req host).requests = R.requests ++ [req] := rfl
@[simp] theorem posted_nextAlloc : (R.posted ops req host).nextAlloc = host.nextAlloc := rfl
@[simp] theorem posted_done : (R.posted ops req host).done = R.done := rfl

variable {R ops req host}

theorem posted_recorded_self {e : EventId} (he : req.request_ = some e) :
    (R.posted ops req host).recorded e = R.done + (R.queue.length + ops.length) := by
  simp [posted, he]

end Posted

/-- A view is packed before the call, if it has to be. -/
theorem packing_alone (size rank : Nat) (comm : NcclComm) {pack : Option (View × View)}
    {ops : List (StreamOp α)}
    (hq : R.queue = pack.toList.map (fun x => .copy x.1 x.2) ++ ops) :
    ∃ R', Alone size rank comm R R' ∧ R'.queue = ops ∧ R'.heap = copied pack R.heap ∧
      R'.program = R.program ∧ R'.requests = R.requests ∧ R'.nextAlloc = R.nextAlloc ∧
      R'.recorded = R.recorded ∧ R'.done + R'.queue.length = R.done + R.queue.length := by
  cases pack with
  | none => exact ⟨R, .refl, by simpa using hq, rfl, rfl, rfl, rfl, rfl, rfl⟩
  | some x =>
    have hq : R.queue = .copy x.1 x.2 :: ops := hq
    refine ⟨_, .work (work_of_effect hq rfl), ?_, rfl, rfl, rfl, rfl, rfl, ?_⟩
    · rw [pop_queue, hq]
      rfl
    · rw [pop_queue, hq]
      simp [pop]
      omega

/-- The callback of a request unpacks the view, if it was packed. -/
theorem unpacking_alone (size rank : Nat) (comm : NcclComm) {back : Option (View × View)}
    {label : String} {rest : List (Instr α)}
    (hprog : R.program =
      (back.toList.flatMap fun x => [.deepCopy x.1 x.2, .fence label]).map .space ++ rest)
    (hq : R.queue = []) :
    ∃ R', Alone size rank comm R R' ∧ R'.queue = [] ∧ R'.heap = copied back R.heap ∧
      R'.program = rest ∧ R'.requests = R.requests ∧ R'.nextAlloc = R.nextAlloc := by
  cases back with
  | none => exact ⟨R, .refl, hq, rfl, by simpa using hprog, rfl, rfl⟩
  | some x =>
    have hops : R.program = .space (.deepCopy x.1 x.2) :: .space (.fence label) :: rest := by
      rw [hprog]
      rfl
    -- the copy is enqueued and made, then the fence finds the stream empty
    have hcopy : R.host size rank comm = .returns (({ R with
        program := .space (.fence label) :: rest } : Rank α).enqueue [.copy x.1 x.2]) := by
      simp only [Rank.host, hops]
    have hmade := work_of_effect (R := ({ R with
        program := .space (.fence label) :: rest } : Rank α).enqueue [.copy x.1 x.2])
      (x := .copy x.1 x.2) (q := []) (by simp [enqueue, hq]) rfl
    refine ⟨{ R with
      program := rest
      heap    := R.heap.deepCopy x.1 x.2
      queue   := []
      done    := R.done + 1 }, ((Alone.host hcopy).trans (.work hmade)).trans (.host ?_), rfl,
      rfl, rfl, rfl, rfl⟩
    simp [Rank.host, enqueue, pop, hq]

/-- A process comes to the NCCL call `call`, whatever that leaves in its
memory goes on from it, and has then finished its `m`-th call. -/
def Takes (size rank : Nat) (comm : NcclComm) (n m : Nat) (R : Rank α) (call : TransportCall)
    (pack back : Option (View × View)) (rest : List (Instr α)) : Prop :=
  ∃ S, Alone size rank comm R S ∧ S.heap = copied pack R.heap ∧ S.head? = some call ∧
    ∀ heap, ∃ S', Alone size rank comm (S.pop heap) S' ∧ S'.Idle n (m + 1) ∧
      S'.program = rest ∧ S'.heap = copied back heap

/-- A routine is called, and its request waited for. -/
theorem takes_of_makes {m : Nat} {c : Call} {call : TransportCall}
    {pack back : Option (View × View)} {rest : List (Instr α)} (hR : R.Idle n m)
    (hprog : R.program = .call c :: .wait m :: rest)
    (hc : c.Makes α size rank comm R.nextAlloc call pack back) :
    Takes size rank comm n m R call pack back rest := by
  obtain ⟨req, own, host, label, hrun, ⟨e, he⟩, hbodies, hnext, hops⟩ :=
    hc { nextAlloc := R.nextAlloc, events := R.events, trace := [] } rfl rfl
  have hhost : R.host size rank comm = .returns
      (({ R with program := .wait m :: rest } : Rank α).posted
        (pack.toList.map (fun x => .copy x.1 x.2) ++ [.transport call]) req host) := by
    unfold Rank.host
    simp only [hprog]
    rw [post_of_returns (R := { R with program := .wait m :: rest }) hrun, hops]
  obtain ⟨S, halone, hqueue, hheap, hprogram, hrequests, halloc, hrecorded, hdone⟩ :=
    packing_alone size rank comm (R := ({ R with program := .wait m :: rest } : Rank α).posted
      (pack.toList.map (fun x => .copy x.1 x.2) ++ [.transport call]) req host)
      (by rw [posted_queue, hR.queue]; rfl)
  refine ⟨S, (Alone.host hhost).trans halone, hheap, by simp [head?, hqueue, StreamOp.call?],
    fun heap => ?_⟩
  have hreq : (S.pop heap).requests[m]? = some req := by
    show S.requests[m]? = some req
    rw [hrequests, posted_requests, ← hR.requests]
    simp
  have hempty : (S.pop heap).queue = [] := by
    rw [pop_queue, hqueue]
    rfl
  -- the event is behind the call
  have hdone : (S.pop heap).recorded e ≤ (S.pop heap).done := by
    show S.recorded e ≤ S.done + 1
    rw [hrecorded, posted_recorded_self he]
    rw [hqueue] at hdone
    simp only [posted_queue, List.length_append, List.length_singleton, posted_done] at hdone
    simp only [List.length_append, List.length_singleton]
    omega
  have hwait : (S.pop heap).host size rank comm = .returns { S.pop heap with
      program  := (back.toList.flatMap fun x => [.deepCopy x.1 x.2, .fence label]).map .space ++
        rest
      requests := S.requests.set m { req with callbacks_ := [] } } := by
    have hprog' : (S.pop heap).program = .wait m :: rest := hprogram
    unfold Rank.host
    simp only [hprog']
    rw [wait_of_done (R := { S.pop heap with program := rest }) hreq he hdone, ← hbodies]
    rfl
  obtain ⟨S', halone', hqueue', hheap', hprogram', hrequests', halloc'⟩ :=
    unpacking_alone size rank comm (R := { S.pop heap with
      program  := (back.toList.flatMap fun x => [.deepCopy x.1 x.2, .fence label]).map .space ++
        rest
      requests := S.requests.set m { req with callbacks_ := [] } }) rfl hempty
  refine ⟨S', (Alone.host hwait).trans halone', ⟨hqueue', ?_, ?_⟩, hprogram', hheap'⟩
  · rw [hrequests', List.length_set, hrequests]
    simp [hR.requests]
  · rw [halloc']
    show n ≤ S.nextAlloc
    rw [halloc, posted_nextAlloc]
    exact hR.alloc.trans hnext

end Rank

/-! ## §2 The network -/

namespace Ranks

variable {F : Fabric α} {w w' : Ranks α} {p : Nat}

/-- What a process can do alone, it can do in the network. -/
theorem exec_alone {R : Rank α} (h : Rank.Alone F.size p F.comm (w p) R) :
    ∃ as, exec (step F) w as = some (Function.update w p R) := by
  induction h with
  | refl => exact ⟨[], by simp⟩
  | @tail R R' _ hstep ih =>
    obtain ⟨as, has⟩ := ih
    have hone : ∃ x, step F (Function.update w p R) x = some (Function.update w p R') := by
      rcases hstep with hhost | hwork
      · exact ⟨.host p, step_host.mpr ⟨R', by rwa [Function.update_self], by simp⟩⟩
      · refine ⟨.work p, ?_⟩
        rw [step, Outcome.toOption_eq_some, perform, Function.update_self, hwork]
        simp
    obtain ⟨x, hx⟩ := hone
    exact ⟨as ++ [x], exec_append_eq_some.mpr ⟨_, has, exec_cons_eq_some.mpr ⟨_, hx, rfl⟩⟩⟩

/-- … and several can, one after the other. -/
theorem exec_all_alone {ps : List Nat} (hnd : ps.Nodup) {f : Nat → Rank α}
    (h : ∀ p ∈ ps, Rank.Alone F.size p F.comm (w p) (f p)) :
    ∃ as, exec (step F) w as = some fun p => if p ∈ ps then f p else w p := by
  induction ps generalizing w with
  | nil => exact ⟨[], by simp⟩
  | cons p ps ih =>
    obtain ⟨hp, hnd⟩ := List.nodup_cons.mp hnd
    obtain ⟨as, has⟩ := exec_alone (h p (by simp))
    obtain ⟨bs, hbs⟩ := ih (w := Function.update w p (f p)) hnd fun q hq => by
      have hne : q ≠ p := fun heq => hp (heq ▸ hq)
      rw [Function.update_of_ne hne]
      exact h q (by simp [hq])
    refine ⟨as ++ bs, exec_append_eq_some.mpr ⟨_, has, hbs.trans ?_⟩⟩
    congr 1
    funext q
    by_cases hq : q = p
    · subst hq
      simp [hp]
    · simp [hq]

theorem nodup_parties (t : Joint) (size : Nat) : (t.parties size).Nodup := by
  cases t with
  | transfer src dst count ne => simp [Joint.parties, ne]
  | collective fn count all => exact List.nodup_range

/-- The parties of an operation come to it, it takes place, and all go on. -/
theorem exec_joint (t : Joint) {m : Nat → Nat} {call : Nat → TransportCall}
    {pack back : Nat → Option (View × View)} {rest : Nat → List (Instr α)}
    (hw : ∀ p ∈ t.parties F.size,
      Rank.Takes F.size p F.comm n (m p) (w p) (call p) (pack p) (back p) (rest p))
    (hwire : ∀ p ∈ t.parties F.size, some (call p).wire = t.wire F.size p) :
    ∃ as w', exec (step F) w as = some w' ∧ (∀ p, p ∉ t.parties F.size → w' p = w p) ∧
      ∃ heaps : Nat → Heap α, (∀ p ∈ t.parties F.size, heaps p = copied (pack p) (w p).heap) ∧
        ∀ p ∈ t.parties F.size, (w' p).Idle n (m p + 1) ∧ (w' p).program = rest p ∧
          (w' p).heap = copied (back p)
            (F.after t ((t.parties F.size).map call) heaps p) := by
  have hw' : ∀ p, ∃ S, p ∈ t.parties F.size → Rank.Alone F.size p F.comm (w p) S ∧
      S.heap = copied (pack p) (w p).heap ∧ S.head? = some (call p) ∧
      ∀ heap, ∃ S', Rank.Alone F.size p F.comm (S.pop heap) S' ∧ S'.Idle n (m p + 1) ∧
        S'.program = rest p ∧ S'.heap = copied (back p) heap := by
    intro p
    by_cases hp : p ∈ t.parties F.size
    · obtain ⟨S, hS⟩ := hw p hp
      exact ⟨S, fun _ => hS⟩
    · exact ⟨w p, fun h => absurd h hp⟩
  choose f hf using hw'
  have hnd := nodup_parties t F.size
  obtain ⟨as, has⟩ := exec_all_alone hnd fun p hp => (hf p hp).1
  obtain ⟨u, hu⟩ : ∃ u : Ranks α, (fun p => if p ∈ t.parties F.size then f p else w p) = u :=
    ⟨_, rfl⟩
  rw [hu] at has
  have hmem : ∀ {p}, p ∈ t.parties F.size → u p = f p := fun hp => by
    rw [← hu]
    exact if_pos hp
  have hready : Ready F u t := fun p hp => by
    rw [hmem hp, (hf p hp).2.2.1, Option.map_some, hwire p hp]
  have hcalls : (t.parties F.size).filterMap (fun q => (u q).head?) =
      (t.parties F.size).map call := by
    rw [← List.filterMap_eq_map]
    exact List.filterMap_congr fun q hq => by
      rw [hmem hq, (hf q hq).2.2.1]
      rfl
  have hmeet : step F u (.meet t) = some (u.meet F t) := step_meet.mpr ⟨hready, rfl⟩
  have hafter : ∀ p, ∃ S, p ∈ t.parties F.size →
      Rank.Alone F.size p F.comm (u.meet F t p) S ∧ S.Idle n (m p + 1) ∧ S.program = rest p ∧
        S.heap = copied (back p)
          (F.after t ((t.parties F.size).map call) (fun q => (u q).heap) p) := by
    intro p
    by_cases hp : p ∈ t.parties F.size
    · obtain ⟨S, hS⟩ := (hf p hp).2.2.2 (u.heapAfter F t p)
      refine ⟨S, fun _ => ?_⟩
      rw [meet_of_mem hp, hmem hp]
      rw [heapAfter, hcalls] at hS
      rwa [heapAfter, hcalls]
    · exact ⟨w p, fun h => absurd h hp⟩
  choose g hg using hafter
  obtain ⟨bs, hbs⟩ := exec_all_alone (w := u.meet F t) hnd fun p hp => (hg p hp).1
  refine ⟨as ++ .meet t :: bs, _, exec_append_eq_some.mpr ⟨u, has,
    exec_cons_eq_some.mpr ⟨_, hmeet, hbs⟩⟩, fun p hp => ?_, fun q => (u q).heap,
    fun p hp => ?_, fun p hp => ?_⟩
  · simp only [hp, if_false]
    rw [meet_of_not_mem hp, ← hu]
    exact if_neg hp
  · simp only [hmem hp, (hf p hp).2.1]
  · simp only [hp, if_true]
    exact (hg p hp).2

/-- Nothing is on the streams; each process has the program that `prog` says
for the number of its calls, and what `heaps` says in the user's memory. -/
structure Between (n : Nat) (prog : Nat → Nat → List (Instr α)) (heaps : Nat → Heap α)
    (w : Ranks α) : Prop where
  idle : ∀ p, (w p).Idle n (w p).requests.length
  program : ∀ p, (w p).program = prog p (w p).requests.length
  heap : ∀ p (c : Cell), c.1 < n → (w p).heap c = heaps p c

namespace Between

variable {prog prog' : Nat → Nat → List (Instr α)} {heaps heaps' : Nat → Heap α}

/-- A process does some work. -/
theorem work {k : UserKernel α n} (h : Between n prog heaps w)
    (hprog : ∀ m, prog p m = .kernel k.run :: prog' p m)
    (hothers : ∀ q m, q ≠ p → prog q m = prog' q m) :
    ∃ as w', exec (step F) w as = some w' ∧
      Between n prog' (Function.update heaps p (k.run (heaps p))) w' := by
  obtain ⟨rest, hrest⟩ : ∃ rest, rest = prog' p (w p).requests.length := ⟨_, rfl⟩
  have hprogram : (w p).program = .kernel k.run :: rest := by rw [h.program p, hprog, hrest]
  have hhost : (w p).host F.size p F.comm =
      .returns (({ w p with program := rest } : Rank α).enqueue [.kernel k.run]) := by
    simp only [Rank.host, hprogram]
  have hwork := Rank.work_of_effect
    (R := ({ w p with program := rest } : Rank α).enqueue [.kernel k.run])
    (x := .kernel k.run) (q := []) (by simp [Rank.enqueue, (h.idle p).queue]) rfl
  obtain ⟨as, has⟩ := exec_alone ((Rank.Alone.host hhost).trans (.work hwork))
  refine ⟨as, _, has, fun q => ?_, fun q => ?_, fun q c hc => ?_⟩
  all_goals by_cases hqp : q = p
  · subst hqp
    rw [Function.update_self]
    exact ⟨by simp [Rank.enqueue, (h.idle q).queue], rfl, (h.idle q).alloc⟩
  · rw [Function.update_of_ne hqp]
    exact h.idle q
  · subst hqp
    rw [Function.update_self]
    exact hrest
  · rw [Function.update_of_ne hqp, h.program q, hothers _ _ hqp]
  · subst hqp
    rw [Function.update_self, Function.update_self]
    exact k.agree (h.heap q) hc
  · rw [Function.update_of_ne hqp, Function.update_of_ne hqp]
    exact h.heap q c hc

/-- An operation takes place, whose parties each call a routine for it and
wait. -/
theorem joint (h : Between n prog heaps w) (t : Joint) (c : Nat → Call)
    (call : Nat → AllocId → TransportCall) (pack back : Nat → AllocId → Option (View × View))
    (hprog : ∀ p ∈ t.parties F.size, ∀ m, prog p m = .call (c p) :: .wait m :: prog' p (m + 1))
    (hothers : ∀ p, p ∉ t.parties F.size → ∀ m, prog p m = prog' p m)
    (hmakes : ∀ p ∈ t.parties F.size, ∀ a,
      (c p).Makes α F.size p F.comm a (call p a) (pack p a) (back p a))
    (hwire : ∀ p ∈ t.parties F.size, ∀ a, some (call p a).wire = t.wire F.size p)
    (hheaps : ∀ p, p ∉ t.parties F.size → heaps' p = heaps p)
    (hafter : ∀ (a : Nat → AllocId) (hs fs : Nat → Heap α), (∀ p, n ≤ a p) →
      (∀ p (c : Cell), c.1 < n → hs p c = heaps p c) →
      (∀ p ∈ t.parties F.size, fs p = copied (pack p (a p)) (hs p)) →
      ∀ p ∈ t.parties F.size, ∀ c : Cell, c.1 < n →
        copied (back p (a p)) (F.after t ((t.parties F.size).map fun q => call q (a q)) fs p) c =
          heaps' p c) :
    ∃ as w', exec (step F) w as = some w' ∧ Between n prog' heaps' w' := by
  obtain ⟨as, w', has, hout, fs, hfs, hin⟩ := exec_joint (n := n) (F := F) t
    (fun p hp => Rank.takes_of_makes (h.idle p)
      ((h.program p).trans (hprog p hp _)) (hmakes p hp (w p).nextAlloc))
    fun p hp => hwire p hp _
  refine ⟨as, w', has, fun p => ?_, fun p => ?_, fun p cell hlt => ?_⟩
  all_goals by_cases hp : p ∈ t.parties F.size
  · rw [(hin p hp).1.requests]
    exact (hin p hp).1
  · rw [hout p hp]
    exact h.idle p
  · rw [(hin p hp).2.1, (hin p hp).1.requests]
  · rw [hout p hp, h.program p, hothers p hp]
  · rw [(hin p hp).2.2]
    exact hafter (fun q => (w q).nextAlloc) (fun q => (w q).heap) fs
      (fun q => (h.idle q).alloc) h.heap hfs p hp cell hlt
  · rw [hout p hp, hheaps p hp]
    exact h.heap p cell hlt

end Between

end Ranks

end KokkosComm.Nccl
