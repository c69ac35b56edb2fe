/-
KokkosComm.Mpi.MessagingTheorems — over MPI, programs that keep off their
pending views do what they say.

§1 is the relation of a process to its meaning. A send that MPI has not
read yet has its message in its buffer; a message that has arrived is in
the buffer of its receive; and on every other cell of the user the heaps
agree. §2 shows it after a call, §3 after something that MPI does, §4
after a wait. §5 is the network: MPI follows the meaning, and can do each
step of it, so that every run ends as the programs say.
-/
import KokkosComm.Mpi.DeliveryTheorems
import KokkosComm.Mpi.MeaningTheorems

namespace KokkosComm.Mpi.Messaging

open Lts

variable {α : Type}

/-! ## §1 A process and its meaning -/

/-- The cells an operation has to do with: those of its view, and those that
MPI reads or writes. -/
def touched (x : Operation α) : List Cell := x.view.elements ++ x.buf.buffer x.view.size

/-- What a process knows of the others: the `k`-th message from a process,
and whether the `k`-th send to a process may complete. -/
structure Knowledge (α : Type) where
  message : Int → Nat → List α → Prop
  matched : Int → Nat → Prop

/-- What process `p` knows when the processes have come to `s`. -/
def Knowledge.of (early : Bool) (s : Int → Meaning α) (p : Int) : Knowledge α where
  message src k m := ((s src).sent p)[k]? = some m
  matched dest k := early = true ∨ k < ((s dest).asked p).length

structure Knowledge.Le (K K' : Knowledge α) : Prop where
  message : ∀ src k m, K.message src k m → K'.message src k m
  matched : ∀ dest k, K.matched dest k → K'.matched dest k

theorem Knowledge.of_le {early : Bool} {s s' : Int → Meaning α} (h : ∀ q, (s q).Le (s' q))
    (p : Int) : (Knowledge.of early s p).Le (Knowledge.of early s' p) where
  message _ _ _ hm := (h _).sent hm
  matched dest _ hk := hk.imp_right fun hlt => Nat.lt_of_lt_of_le hlt ((h dest).length_asked p)

/-- A view of the user, and a buffer that is the view or in an allocation of
the library. -/
structure Placed (n : Nat) (P : Process α) (x : Operation α) : Prop where
  user : x.view.alloc < n
  within : ∀ c ∈ x.buf.buffer x.view.size,
    c ∈ x.view.elements ∨ n ≤ c.1 ∧ c.1 < P.nextAlloc

/-- The `i`-th call, the `k`-th send to `dest`, whose message is `m`. -/
structure SendOk (comm : MpiComm) (K : Knowledge α) (P : Process α) (k i : Nat)
    (x : Operation α) (dest : Int) (m : List α) : Prop where
  call : x.call.fn.sendEnvelope = some (dest, pointToPointTag) ∧
    x.call.fn.recvEnvelope = none ∧ x.call.comm = comm
  buffers : x.call.sendbuf = some x.buf ∧ x.call.recvbuf = none
  count : x.call.sendcount.toNat = x.view.size
  pending : x.completed = false → x.req.request_ = some i ∧ ∀ h : Heap α, x.req.complete h = h
  unread : x.moved = none → P.lib.status i = .inFlight ∧ x.completed = false ∧
    Memory.gather P.heap (x.buf.buffer x.view.size) = m
  read : ∀ m', x.moved = some m' → m' = m
  ended : P.lib.status i ≠ .inFlight → K.matched dest k

/-- The `i`-th call, the `k`-th receive from `src`, into `rv`. -/
structure RecvOk (comm : MpiComm) (K : Knowledge α) (P : Process α) (k i : Nat)
    (x : Operation α) (src : Int) (rv : View) : Prop where
  call : x.call.fn.recvEnvelope = some (src, pointToPointTag) ∧
    x.call.fn.sendEnvelope = none ∧ x.call.comm = comm
  buffers : x.call.recvbuf = some x.buf ∧ x.call.sendbuf = none
  count : x.call.recvcount.toNat = x.view.size
  view : x.view = rv
  distinct : rv.elements.Nodup
  pending : x.completed = false → x.req.request_ = some i ∧
    ∃ a, x.buf = rv.handed a ∧ ∀ h : Heap α, x.req.complete h = Heap.unpacked a rv h
  waiting : x.moved = none → P.lib.status i = .inFlight ∧ x.completed = false
  arrived : ∀ m, x.moved = some m → K.message src k m ∧ P.lib.status i ≠ .inFlight ∧
    (x.completed = false → Memory.gather P.heap (x.buf.buffer x.view.size) = m)

/-- An operation is what its call was. -/
def CallOk (comm : MpiComm) (K : Knowledge α) (P : Process α) (S : Meaning α) (i : Nat)
    (x : Operation α) : Post α → Prop
  | .send dest m => SendOk comm K P (S.sentBefore i dest) i x dest m
  | .recv src rv => RecvOk comm K P (S.askedBefore i src) i x src rv

/-- A process and its meaning. -/
structure Related (n : Nat) (comm : MpiComm) (K : Knowledge α) (P : Peer α) (S : Meaning α) :
    Prop where
  program : P.program = S.program
  length : P.proc.posted.length = S.posts.length
  calls : ∀ (i : Nat) (x : Operation α), P.proc.posted[i]? = some x →
    Placed n P.proc x ∧ ∃ y, S.posts[i]? = some y ∧ CallOk comm K P.proc S i x y
  fresh : ∀ i, P.proc.posted.length ≤ i → P.proc.lib.status i = .inFlight
  alloc : n ≤ P.proc.nextAlloc
  apart : ∀ (i j : Nat) (x y : Operation α), i ≠ j → P.proc.posted[i]? = some x →
    P.proc.posted[j]? = some y → x.completed = false → y.completed = false →
      x.isRecv = true → ∀ c ∈ touched x, c ∉ touched y
  heap : ∀ c : Cell, c.1 < n →
    (∀ x ∈ P.proc.posted, x.completed = false → x.isRecv = true → c ∉ x.view.elements) →
      P.proc.heap c = S.heap c
  rule : ∃ pending, KeepsOff n P.proc.posted.length pending P.program ∧
    ∀ z : Pending, z ∈ pending ↔ ∃ x, P.proc.posted[z.op]? = some x ∧ x.completed = false ∧
      z.isRecv = x.isRecv ∧ z.view = x.view

section Lemmas

variable {n : Nat} {comm : MpiComm} {K K' : Knowledge α} {P : Process α} {S : Meaning α}
  {i k : Nat} {x : Operation α} {y : Post α}

theorem SendOk.isRecv {dest : Int} {m : List α} (h : SendOk comm K P k i x dest m) :
    x.isRecv = false := by simp [Operation.isRecv, h.buffers.2]

theorem RecvOk.isRecv {src : Int} {rv : View} (h : RecvOk comm K P k i x src rv) :
    x.isRecv = true := by simp [Operation.isRecv, h.buffers.1]

theorem Knowledge.Le.refl (K : Knowledge α) : K.Le K := ⟨fun _ _ _ h => h, fun _ _ h => h⟩

theorem Placed.alloc_lt {c : Cell} (h : Placed n P x) (hn : n ≤ P.nextAlloc)
    (hc : c ∈ touched x) : c.1 < P.nextAlloc := by
  have hview : ∀ {c}, c ∈ x.view.elements → c.1 < P.nextAlloc := fun hm => by
    rw [View.fst_of_mem_elements hm]
    exact Nat.lt_of_lt_of_le h.user hn
  rcases List.mem_append.mp hc with hc | hc
  · exact hview hc
  · rcases h.within c hc with hm | ⟨_, hlt⟩
    · exact hview hm
    · exact hlt

/-- A cell of the user that an operation has to do with is an element of its
view. -/
theorem Placed.mem_elements {c : Cell} (h : Placed n P x) (hc : c ∈ touched x) (hlt : c.1 < n) :
    c ∈ x.view.elements := by
  rcases List.mem_append.mp hc with hm | hm
  · exact hm
  · exact (h.within c hm).resolve_right fun hle => Nat.lt_irrefl _ (Nat.lt_of_lt_of_le hlt hle.1)

theorem Placed.mono {P' : Process α} (h : Placed n P x) (hle : P.nextAlloc ≤ P'.nextAlloc) :
    Placed n P' x :=
  ⟨h.user, fun c hc => (h.within c hc).imp_right fun hlt => ⟨hlt.1, hlt.2.trans_le hle⟩⟩

/-- An operation is not concerned by what leaves its cells and its status,
and adds to what is known. -/
theorem CallOk.agree {P' : Process α} {S' : Meaning α} (h : CallOk comm K P S i x y)
    (hK : K.Le K') (hS : S.Le S') (hy : S.posts[i]? = some y)
    (hheap : x.completed = false → ∀ c ∈ touched x, P'.heap c = P.heap c)
    (hstatus : P'.lib.status i = .inFlight ↔ P.lib.status i = .inFlight) :
    CallOk comm K' P' S' i x y := by
  have hgather : x.completed = false → Memory.gather P'.heap (x.buf.buffer x.view.size) =
      Memory.gather P.heap (x.buf.buffer x.view.size) := fun hno =>
    gather_congr fun c hc => hheap hno c (List.mem_append_right _ hc)
  cases y with
  | send dest m =>
    have h : SendOk comm K P (S.sentBefore i dest) i x dest m := h
    show SendOk comm K' P' (S'.sentBefore i dest) i x dest m
    rw [hS.sentBefore hy]
    exact
      { h with
        unread := fun hm => by
          obtain ⟨hs, hno, hg⟩ := h.unread hm
          exact ⟨hstatus.mpr hs, hno, by rw [hgather hno, hg]⟩
        ended := fun hs => hK.matched _ _ (h.ended fun hin => hs (hstatus.mpr hin)) }
  | recv src rv =>
    have h : RecvOk comm K P (S.askedBefore i src) i x src rv := h
    show RecvOk comm K' P' (S'.askedBefore i src) i x src rv
    rw [hS.askedBefore hy]
    exact
      { h with
        waiting := fun hm => (h.waiting hm).imp_left hstatus.mpr
        arrived := fun m hm => by
          obtain ⟨hmessage, hs, hg⟩ := h.arrived m hm
          exact ⟨hK.message _ _ _ hmessage, fun hin => hs (hstatus.mp hin),
            fun hno => by rw [hgather hno, hg hno]⟩ }

end Lemmas

/-! ## §2 Calls -/

/-- A routine has returned: it has posted `x` for `v`, and has touched no
allocation that there was. -/
structure Called (P P' : Process α) (x : Operation α) (v : View) : Prop where
  posted : P'.posted = P.posted ++ [x]
  lib : P'.lib = P.lib
  nextAlloc : P.nextAlloc ≤ P'.nextAlloc
  heap : ∀ c : Cell, c.1 < P.nextAlloc → P'.heap c = P.heap c
  moved : x.moved = none
  uncompleted : x.completed = false
  view : x.view = v
  within : ∀ c ∈ x.buf.buffer x.view.size,
    c ∈ x.view.elements ∨ P.nextAlloc ≤ c.1 ∧ c.1 < P'.nextAlloc

section Calls

variable {n : Nat} {comm : MpiComm} {K : Knowledge α} {P P' : Process α} {v : View} {peer : Int}
  {mode : CommunicationMode}

/-- What is handed to MPI is the view, … -/
theorem mem_elements_of_buffer (hnd : v.elements.Nodup) (hcont : v.isContiguous = true) {c : Cell}
    (hc : c ∈ v.buffer v.size) : c ∈ v.elements := by
  have hbuf := View.buffer_handed (fun _ => hnd) 0
  rw [View.handed_of_contiguous 0 hcont] at hbuf
  rw [hbuf] at hc
  exact View.mem_traveling.mp hc

/-- … or a packed view in the next allocation. -/
theorem packed_within {c : Cell} (hc : c ∈ (v.contiguousView P.nextAlloc).buffer v.size) :
    c ∈ v.elements ∨ P.nextAlloc ≤ c.1 ∧ c.1 < P.nextAlloc + 1 := by
  have halloc : c.1 = P.nextAlloc := (View.mem_buffer.mp hc).1
  rw [halloc]
  exact .inr ⟨Nat.le_refl _, Nat.lt_succ_self _⟩

/-- A send has been posted, and what MPI will read is what the view held. -/
theorem post_send (mode : CommunicationMode) (comm : MpiComm) (K : Knowledge α) (peer : Int)
    (hv : Sendable n v) (hfresh : P.lib.status P.posted.length = .inFlight) :
    ∃ P' x, P.post v (Mpi.send mode v peer comm) = .returns P' ∧ Called P P' x v ∧
      ∀ k, SendOk comm K P' k P.posted.length x peer (v.values P.heap) := by
  have hread := Heap.gather_handed_values hv.distinct P.nextAlloc P.heap
  unfold Process.post Mpi.send
  cases hc : v.isContiguous with
  | true =>
    obtain ⟨hcount, hpos⟩ := toNat_spanCount hc hv.count
    rw [isendImpl_contiguous hc, Routine.start, if_pos (by simp [MpiCall.validCounts, hpos])]
    rw [Heap.handed_of_contiguous _ hc, View.handed_of_contiguous _ hc] at hread
    refine ⟨_, _, rfl, ⟨rfl, rfl, Nat.le_refl _, fun _ _ => rfl, rfl, rfl, rfl,
      fun c hm => .inl (mem_elements_of_buffer (hv.distinct hc) hc hm)⟩, fun k => ?_⟩
    exact
      { call    := ⟨sendEnvelope_mpiIsendFn .., by cases mode <;> rfl, rfl⟩
        buffers := ⟨rfl, rfl⟩
        count   := hcount
        pending := fun _ => ⟨by simp [Request.new, Host.start, Host.log], fun h => by simp⟩
        unread  := fun _ => ⟨hfresh, rfl, hread⟩
        read    := fun m hm => by cases hm
        ended   := fun hs => absurd hfresh hs }
  | false =>
    obtain ⟨hcount, hpos⟩ := toNat_ofSize_size hv.count
    rw [isendImpl_packed hc, Routine.start, if_pos (by simp [MpiCall.validCounts, hpos])]
    rw [Heap.handed_of_packed _ hc, View.handed_of_packed _ hc] at hread
    refine ⟨_, _, rfl, ⟨rfl, rfl, Nat.le_succ _, fun c hlt => heap_packed P v c (.inl hlt), rfl,
      rfl, rfl, fun c hm => packed_within hm⟩, fun k => ?_⟩
    exact
      { call    := ⟨sendEnvelope_mpiIsendFn .., by cases mode <;> rfl, rfl⟩
        buffers := ⟨rfl, rfl⟩
        count   := hcount
        pending := fun _ => ⟨by simp [Request.new, Host.start, Host.log, Host.allocated],
          fun h => by simp⟩
        unread  := fun _ => ⟨hfresh, rfl, hread⟩
        read    := fun m hm => by cases hm
        ended   := fun hs => absurd hfresh hs }

/-- A receive has been posted, and its callbacks will unpack what arrives. -/
theorem post_recv (comm : MpiComm) (K : Knowledge α) (peer : Int) (hv : Receivable n v)
    (hfresh : P.lib.status P.posted.length = .inFlight) :
    ∃ P' x, P.post v (Mpi.recv v peer comm) = .returns P' ∧ Called P P' x v ∧
      ∀ k, RecvOk comm K P' k P.posted.length x peer v := by
  unfold Process.post Mpi.recv
  cases hc : v.isContiguous with
  | true =>
    obtain ⟨hcount, hpos⟩ := toNat_spanCount hc hv.count
    rw [recvExecute_contiguous hc, Routine.start, if_pos (by simp [MpiCall.validCounts, hpos])]
    refine ⟨_, _, rfl, ⟨rfl, rfl, Nat.le_refl _, fun _ _ => rfl, rfl, rfl, rfl,
      fun c hm => .inl (mem_elements_of_buffer hv.distinct hc hm)⟩, fun k => ?_⟩
    exact
      { call     := ⟨rfl, rfl, rfl⟩
        buffers  := ⟨rfl, rfl⟩
        count    := hcount
        view     := rfl
        distinct := hv.distinct
        pending  := fun _ => ⟨by simp [Request.new, Host.start, Host.log], P.nextAlloc,
          (View.handed_of_contiguous _ hc).symm, fun h => by
            simp [Heap.unpacked_of_contiguous hc]⟩
        waiting  := fun _ => ⟨hfresh, rfl⟩
        arrived  := fun m hm => by cases hm }
  | false =>
    obtain ⟨hcount, hpos⟩ := toNat_ofSize_size hv.count
    rw [recvExecute_packed hc, Routine.start, if_pos (by simp [MpiCall.validCounts, hpos])]
    refine ⟨_, _, rfl, ⟨rfl, rfl, Nat.le_succ _, fun _ _ => rfl, rfl, rfl, rfl,
      fun c hm => packed_within hm⟩, fun k => ?_⟩
    exact
      { call     := ⟨rfl, rfl, rfl⟩
        buffers  := ⟨rfl, rfl⟩
        count    := hcount
        view     := rfl
        distinct := hv.distinct
        pending  := fun _ => ⟨rfl, P.nextAlloc, (View.handed_of_packed _ hc).symm, fun h => by
          rw [complete_addCallback, run_unpackCallback, Heap.unpacked_of_packed hc]
          rfl⟩
        waiting  := fun _ => ⟨hfresh, rfl⟩
        arrived  := fun m hm => by cases hm }

theorem getElem?_append_singleton {β : Type} {l : List β} {x y : β} {i : Nat}
    (h : (l ++ [x])[i]? = some y) : l[i]? = some y ∨ i = l.length ∧ y = x := by
  rw [List.getElem?_append] at h
  split at h
  · exact .inl h
  · rename_i hle
    obtain ⟨hlt, hget⟩ := List.getElem?_eq_some_iff.mp h
    simp only [List.length_singleton] at hlt
    exact .inr ⟨by omega, by simpa using hget.symm⟩

/-- After a call, of a send or a receive. -/
theorem Related.append {A : Peer α} {S : Meaning α} {rest : List (Instr α)} {y : Post α}
    {x : Operation α} (h : Related n comm K A S) (hcalled : Called A.proc P' x v)
    (huser : v.alloc < n)
    (hcall : CallOk comm K P' { S with program := rest, posts := S.posts ++ [y] }
      A.proc.posted.length x y)
    (hpending : ∀ pending : List Pending,
      KeepsOff n A.proc.posted.length pending A.program →
        KeepsOff n (A.proc.posted.length + 1)
          (pending ++ [⟨A.proc.posted.length, x.isRecv, v⟩]) rest ∧
        ∀ z ∈ pending, x.isRecv = true ∨ z.isRecv = true →
          ∀ c ∈ z.view.elements, c ∉ v.elements) :
    Related n comm K { program := rest, proc := P' }
      { S with program := rest, posts := S.posts ++ [y] } := by
  obtain ⟨pending, hrule, hmem⟩ := h.rule
  obtain ⟨hrule', hoff⟩ := hpending pending hrule
  have hlast : P'.posted[A.proc.posted.length]? = some x := by rw [hcalled.posted]; simp
  have hold : ∀ {i : Nat} {z : Operation α}, A.proc.posted[i]? = some z →
      P'.posted[i]? = some z := fun hz => by
    rw [hcalled.posted, List.getElem?_append_left (List.getElem?_eq_some_iff.mp hz).1]
    exact hz
  have hcases : ∀ {i : Nat} {z : Operation α}, P'.posted[i]? = some z →
      A.proc.posted[i]? = some z ∨ i = A.proc.posted.length ∧ z = x := fun hz => by
    rw [hcalled.posted] at hz
    exact getElem?_append_singleton hz
  have hplaced : Placed n P' x := by
    refine ⟨by rw [hcalled.view]; exact huser, fun c hc => ?_⟩
    exact (hcalled.within c hc).imp_right fun hle => ⟨h.alloc.trans hle.1, hle.2⟩
  -- the new operation shares no cell with a pending one, if one of them is a receive
  have hapart : ∀ {i : Nat} {z : Operation α}, A.proc.posted[i]? = some z →
      z.completed = false → x.isRecv = true ∨ z.isRecv = true →
        ∀ c ∈ touched z, c ∉ touched x := by
    intro i z hz hno hr c hc hcx
    have hzplaced := (h.calls i z hz).1
    by_cases hlt : c.1 < n
    · have hzview := hzplaced.mem_elements hc hlt
      have hxview := hplaced.mem_elements hcx hlt
      rw [hcalled.view] at hxview
      exact hoff ⟨i, z.isRecv, z.view⟩ ((hmem _).mpr ⟨z, hz, hno, rfl, rfl⟩) hr c hzview hxview
    · have hbefore := hzplaced.alloc_lt h.alloc hc
      rcases List.mem_append.mp hcx with hm | hm
      · rw [View.fst_of_mem_elements hm, hcalled.view] at hlt
        exact hlt huser
      · rcases hcalled.within c hm with hview | ⟨hle, _⟩
        · rw [View.fst_of_mem_elements hview, hcalled.view] at hlt
          exact hlt huser
        · exact Nat.lt_irrefl _ (Nat.lt_of_lt_of_le hbefore hle)
  refine ⟨rfl, ?_, fun i z hz => ?_, fun i hi => ?_, h.alloc.trans hcalled.nextAlloc, ?_, ?_, ?_⟩
  · rw [hcalled.posted, List.length_append, List.length_append, h.length]
    rfl
  · rcases hcases hz with hz | ⟨rfl, rfl⟩
    · obtain ⟨hp, y', hy', hcall'⟩ := h.calls i z hz
      have hle : S.Le { S with program := rest, posts := S.posts ++ [y] } :=
        List.prefix_append _ _
      refine ⟨hp.mono hcalled.nextAlloc, y', hle.getElem? hy', ?_⟩
      exact hcall'.agree (.refl K) hle hy'
        (fun _ c hc => hcalled.heap c (hp.alloc_lt h.alloc hc)) (by rw [hcalled.lib])
    · refine ⟨hplaced, y, ?_, hcall⟩
      show (S.posts ++ [y])[A.proc.posted.length]? = some y
      rw [h.length]
      simp
  · show P'.lib.status i = .inFlight
    rw [hcalled.lib]
    refine h.fresh i (Nat.le_trans ?_ hi)
    simp [hcalled.posted]
  · intro i j z z' hij hz hz' hno hno' hr c hc hc'
    rcases hcases hz with hz | ⟨rfl, rfl⟩
    · rcases hcases hz' with hz' | ⟨rfl, rfl⟩
      · exact h.apart i j z z' hij hz hz' hno hno' hr c hc hc'
      · exact hapart hz hno (.inr hr) c hc hc'
    · rcases hcases hz' with hz' | ⟨rfl, rfl⟩
      · exact hapart hz' hno' (.inl hr) c hc' hc
      · exact hij rfl
  · intro c hlt hout
    show P'.heap c = S.heap c
    rw [hcalled.heap c (Nat.lt_of_lt_of_le hlt h.alloc)]
    refine h.heap c hlt fun z hz hno hr => hout z ?_ hno hr
    rw [hcalled.posted]
    exact List.mem_append_left _ hz
  · refine ⟨pending ++ [⟨A.proc.posted.length, x.isRecv, v⟩], ?_, fun z => ?_⟩
    · show KeepsOff n P'.posted.length _ rest
      rw [hcalled.posted, List.length_append]
      exact hrule'
    · rw [List.mem_append, hmem, List.mem_singleton]
      constructor
      · rintro (⟨z', hz', hz⟩ | rfl)
        · exact ⟨z', hold hz', hz⟩
        · exact ⟨x, hlast, hcalled.uncompleted, rfl, hcalled.view.symm⟩
      · rintro ⟨z', hz', hno, hr, hview⟩
        rcases hcases hz' with hz' | ⟨hop, rfl⟩
        · exact .inl ⟨z', hz', hno, hr, hview⟩
        · rw [hcalled.view] at hview
          right
          cases z
          simp_all

variable {T : Transport} {A : Peer α} {S : Meaning α} {rest : List (Instr α)}

/-- The rule for the rest of a program, with what is pending. -/
theorem Related.exists_rule (h : Related n comm K A S) : ∃ pending : List Pending,
    KeepsOff n A.proc.posted.length pending S.program ∧
      ∀ x ∈ A.proc.posted, x.completed = false →
        ∃ z ∈ pending, z.isRecv = x.isRecv ∧ z.view = x.view := by
  obtain ⟨pending, hrule, hmem⟩ := h.rule
  refine ⟨pending, h.program ▸ hrule, fun x hx hno => ?_⟩
  obtain ⟨i, hi⟩ := List.mem_iff_getElem?.mp hx
  exact ⟨⟨i, x.isRecv, x.view⟩, (hmem _).mpr ⟨x, hi, hno, rfl, rfl⟩, rfl, rfl⟩

theorem Related.send (h : Related n T.comm K A S) {sv : View} {dest : Int}
    (hprog : S.program = .send sv dest :: rest) :
    ∃ A', A.host T = .returns A' ∧ Related n T.comm K A' { S with
      program := rest
      posts   := S.posts ++ [.send dest (sv.values S.heap)] } := by
  obtain ⟨pending, hrule, hpending⟩ := h.exists_rule
  rw [hprog] at hrule
  obtain ⟨hsendable, hoff, -⟩ := hrule
  obtain ⟨P', x, hpost, hcalled, hok⟩ := post_send T.mode T.comm K dest hsendable
    (h.fresh _ (Nat.le_refl _))
  refine ⟨{ program := rest, proc := P' }, ?_, ?_⟩
  · rw [Peer.host, h.program, hprog]
    simp [hpost]
  · have hvalues : sv.values A.proc.heap = sv.values S.heap := by
      refine View.values_congr fun c hc => h.heap c ?_ fun z hz hno hr hcz => ?_
      · rw [View.fst_of_mem_elements hc]
        exact hsendable.user
      · obtain ⟨z', hz', hr', hview⟩ := hpending z hz hno
        exact hoff z' hz' (by rw [hr', hr]) c (by rw [hview]; exact hcz) hc
    rw [← hvalues]
    refine h.append hcalled hsendable.user (hok _) fun pending' hrule' => ?_
    rw [h.program, hprog] at hrule'
    rw [(hok 0).isRecv]
    exact ⟨hrule'.2.2, fun z hz hr => hrule'.2.1 z hz (hr.resolve_left (by simp))⟩

theorem Related.recv (h : Related n T.comm K A S) {rv : View} {src : Int}
    (hprog : S.program = .recv rv src :: rest) :
    ∃ A', A.host T = .returns A' ∧ Related n T.comm K A' { S with
      program := rest
      posts   := S.posts ++ [.recv src rv] } := by
  obtain ⟨pending, hrule, -⟩ := h.exists_rule
  rw [hprog] at hrule
  obtain ⟨hreceivable, -, -⟩ := hrule
  obtain ⟨P', x, hpost, hcalled, hok⟩ := post_recv T.comm K src hreceivable
    (h.fresh _ (Nat.le_refl _))
  refine ⟨{ program := rest, proc := P' }, ?_, ?_⟩
  · rw [Peer.host, h.program, hprog]
    simp [hpost]
  · refine h.append hcalled hreceivable.user (hok _) fun pending' hrule' => ?_
    rw [h.program, hprog] at hrule'
    rw [(hok 0).isRecv]
    exact ⟨hrule'.2.2, fun z hz _ => hrule'.2.1 z hz⟩

/-- Work of the user. -/
theorem Related.kernel (h : Related n T.comm K A S) {k : Kernel α}
    (hprog : S.program = .kernel k :: rest) :
    ∃ A', A.host T = .returns A' ∧ Related n T.comm K A' { S with
      program := rest
      heap    := k.run S.heap } := by
  obtain ⟨pending, hrule, hmem⟩ := h.rule
  rw [h.program, hprog] at hrule
  obtain ⟨huser, hoff, hrule⟩ := hrule
  refine ⟨{ program := rest, proc := { A.proc with heap := k.run A.proc.heap } }, ?_, ?_⟩
  · rw [Peer.host, h.program, hprog]
  -- no kernel writes a cell of a pending operation, nor reads one of a pending receive
  have hkept : ∀ (i : Nat) (x : Operation α), A.proc.posted[i]? = some x → x.completed = false →
      ∀ c ∈ touched x, k.run A.proc.heap c = A.proc.heap c := by
    intro i x hx hno c hc
    refine k.frame _ c fun hw => ?_
    have hview := (h.calls i x hx).1.mem_elements hc (huser c (.inr hw))
    exact (hoff ⟨i, x.isRecv, x.view⟩ ((hmem _).mpr ⟨x, hx, hno, rfl, rfl⟩) c hview).1 hw
  have hreads : ∀ c, k.reads c → A.proc.heap c = S.heap c := by
    intro c hc
    refine h.heap c (huser c (.inl hc)) fun x hx hno hr hcx => ?_
    obtain ⟨i, hi⟩ := List.mem_iff_getElem?.mp hx
    exact (hoff ⟨i, x.isRecv, x.view⟩ ((hmem _).mpr ⟨x, hi, hno, rfl, rfl⟩) c hcx).2 hr hc
  exact
    { program := rfl
      length  := h.length
      calls   := fun i x hx => by
        obtain ⟨hp, y, hy, hcall⟩ := h.calls i x hx
        exact ⟨⟨hp.user, hp.within⟩, y, hy,
          hcall.agree (.refl K) List.prefix_rfl hy (fun hno c hc => hkept i x hx hno c hc) .rfl⟩
      fresh   := h.fresh
      alloc   := h.alloc
      apart   := h.apart
      heap    := fun c hlt hout => by
        show k.run A.proc.heap c = k.run S.heap c
        by_cases hw : k.writes c
        · exact k.locality _ _ hreads c hw
        · rw [k.frame _ c hw, k.frame _ c hw]
          exact h.heap c hlt hout
      rule    := ⟨pending, hrule, hmem⟩ }

end Calls

/-! ## §3 What MPI does -/

section Transport

variable {n : Nat} {comm : MpiComm} {K : Knowledge α} {A : Peer α} {S : Meaning α} {i k : Nat}
  {x : Operation α} {src dest : Int} {m : List α} {rv : View}

/-- Something has happened to one operation: to its status, to what has been
moved for it, and, for a receive that is pending, to its buffer. -/
theorem Related.change (h : Related n comm K A S) (hx : A.proc.posted[i]? = some x)
    (moved : Option (List α)) {heap : Heap α} {lib : Library}
    (hlib : ∀ j, j ≠ i → lib.status j = A.proc.lib.status j)
    (hheap : ∀ c, heap c ≠ A.proc.heap c →
      x.isRecv = true ∧ x.completed = false ∧ c ∈ x.buf.buffer x.view.size)
    (hcall : ∀ y, S.posts[i]? = some y → CallOk comm K A.proc S i x y →
      CallOk comm K { A.proc with heap := heap, lib := lib } S i { x with moved := moved } y) :
    Related n comm K { A with proc := { A.proc with
      heap   := heap
      lib    := lib
      posted := A.proc.posted.set i { x with moved := moved } } } S := by
  have hcases : ∀ {j : Nat} {z : Operation α},
      (A.proc.posted.set i { x with moved := moved })[j]? = some z →
        j = i ∧ z = { x with moved := moved } ∨ j ≠ i ∧ A.proc.posted[j]? = some z :=
    fun hz => (getElem?_set_posted hx).mp hz
  -- what an operation was before
  have hbefore : ∀ {j : Nat} {z : Operation α},
      (A.proc.posted.set i { x with moved := moved })[j]? = some z →
        ∃ z', A.proc.posted[j]? = some z' ∧ z'.view = z.view ∧ touched z' = touched z ∧
          z'.completed = z.completed ∧ z'.isRecv = z.isRecv := by
    intro j z hz
    rcases hcases hz with ⟨rfl, rfl⟩ | ⟨_, hz⟩
    · exact ⟨x, hx, rfl, rfl, rfl, rfl⟩
    · exact ⟨z, hz, rfl, rfl, rfl, rfl⟩
  obtain ⟨hp, y, hy, hcx⟩ := h.calls i x hx
  refine ⟨h.program, by simpa using h.length, fun j z hz => ?_, fun j hj => ?_, h.alloc, ?_, ?_, ?_⟩
  · rcases hcases hz with ⟨rfl, rfl⟩ | ⟨hne, hz⟩
    · refine ⟨⟨hp.user, hp.within⟩, y, hy, ?_⟩
      exact (hcall y hy hcx).agree (.refl K) List.prefix_rfl hy (fun _ _ _ => rfl) .rfl
    · obtain ⟨hpz, y', hy', hcz⟩ := h.calls j z hz
      refine ⟨⟨hpz.user, hpz.within⟩, y', hy',
        hcz.agree (.refl K) List.prefix_rfl hy' (fun hno c hc => ?_) (by rw [hlib j hne])⟩
      by_contra hdiff
      obtain ⟨hr, hno', hbuf⟩ := hheap c hdiff
      exact h.apart i j x z (Ne.symm hne) hx hz hno' hno hr c (List.mem_append_right _ hbuf) hc
  · have hlt := (List.getElem?_eq_some_iff.mp hx).1
    have hj' : A.proc.posted.length ≤ j := by simpa using hj
    show lib.status j = .inFlight
    rw [hlib j (by omega)]
    exact h.fresh j hj'
  · intro j j' z z' hjj hz hz' hno hno' hr c hc hc'
    obtain ⟨z₁, hz₁, _, ht, hc₁, hr₁⟩ := hbefore hz
    obtain ⟨z₂, hz₂, _, ht', hc₂, _⟩ := hbefore hz'
    exact h.apart j j' z₁ z₂ hjj hz₁ hz₂ (hc₁.trans hno) (hc₂.trans hno') (hr₁.trans hr) c
      (ht ▸ hc) (ht' ▸ hc')
  · intro c hlt hout
    show heap c = S.heap c
    have hout' : ∀ z ∈ A.proc.posted, z.completed = false → z.isRecv = true →
        c ∉ z.view.elements := by
      intro z hz hno hr
      obtain ⟨j, hj⟩ := List.mem_iff_getElem?.mp hz
      by_cases hji : j = i
      · subst hji
        obtain rfl := Option.some.inj (hx.symm.trans hj)
        exact hout { x with moved := moved } (List.mem_of_getElem?
          ((getElem?_set_posted hx).mpr (.inl ⟨rfl, rfl⟩))) hno hr
      · exact hout z (List.mem_of_getElem? ((getElem?_set_posted hx).mpr (.inr ⟨hji, hj⟩))) hno hr
    rw [← h.heap c hlt hout']
    by_contra hdiff
    obtain ⟨hr, hno, hbuf⟩ := hheap c hdiff
    exact hout' x (List.mem_of_getElem? hx) hno hr
      (hp.mem_elements (List.mem_append_right _ hbuf) hlt)
  · obtain ⟨pending, hrule, hmem⟩ := h.rule
    refine ⟨pending, by simpa using hrule, fun z => ?_⟩
    rw [hmem]
    constructor
    · rintro ⟨z', hz', hno, hr, hview⟩
      by_cases hop : z.op = i
      · rw [hop, hx] at hz'
        cases hz'
        exact ⟨{ x with moved := moved }, (getElem?_set_posted hx).mpr (.inl ⟨hop, rfl⟩), hno, hr,
          hview⟩
      · exact ⟨z', (getElem?_set_posted hx).mpr (.inr ⟨hop, hz'⟩), hno, hr, hview⟩
    · rintro ⟨z', hz', hno, hr, hview⟩
      obtain ⟨z₁, hz₁, hv, _, hc₁, hr₁⟩ := hbefore hz'
      exact ⟨z₁, hz₁, hc₁.trans hno, hr.trans hr₁.symm, hview.trans hv.symm⟩

/-- The call of an operation, by what was called. -/
theorem Related.sendOk (h : Related n comm K A S) (hx : A.proc.posted[i]? = some x)
    (hy : S.posts[i]? = some (.send dest m)) :
    SendOk comm K A.proc (S.sentBefore i dest) i x dest m := by
  obtain ⟨_, y, hy', hcall⟩ := h.calls i x hx
  rw [hy] at hy'
  cases hy'
  exact hcall

theorem Related.recvOk (h : Related n comm K A S) (hx : A.proc.posted[i]? = some x)
    (hy : S.posts[i]? = some (.recv src rv)) :
    RecvOk comm K A.proc (S.askedBefore i src) i x src rv := by
  obtain ⟨_, y, hy', hcall⟩ := h.calls i x hx
  rw [hy] at hy'
  cases hy'
  exact hcall

/-- MPI reads the buffer of a send. -/
theorem Related.capture (h : Related n comm K A S) (hx : A.proc.posted[i]? = some x)
    (hy : S.posts[i]? = some (.send dest m)) (hmoved : x.moved = none) :
    ∃ P', A.proc.capture i = .returns P' ∧ Related n comm K { A with proc := P' } S ∧
      P'.posted[i]? = some { x with moved := some m } := by
  have hs := h.sendOk hx hy
  have hmessage : x.call.message A.proc.heap = m := by
    rw [← (hs.unread hmoved).2.2]
    simp [MpiCall.message, hs.buffers.1, hs.count]
  refine ⟨{ A.proc with posted := A.proc.posted.set i { x with moved := some m } }, ?_, ?_, ?_⟩
  · simp [Process.capture, hx, hmoved, hs.buffers.1, hmessage]
  · refine h.change hx (some m) (fun _ _ => rfl) (fun c hc => absurd rfl hc)
      fun y hy' hcall => ?_
    rw [hy] at hy'
    cases hy'
    exact
      { hs with
        unread := fun hm => by cases hm
        read   := fun m' hm => by cases hm; rfl }
  · exact (getElem?_set_posted hx).mpr (.inl ⟨rfl, rfl⟩)

/-- A send completes, when it may. -/
theorem Related.finish (h : Related n comm K A S) (hx : A.proc.posted[i]? = some x)
    (hy : S.posts[i]? = some (.send dest m)) (hmoved : x.moved ≠ none)
    (hmay : K.matched dest (S.sentBefore i dest)) :
    Related n comm K { A with proc := { A.proc with lib := A.proc.lib.finish i } } S := by
  have hs := h.sendOk hx hy
  have hset : A.proc.posted = A.proc.posted.set i { x with moved := x.moved } := by
    obtain ⟨hlt, hget⟩ := List.getElem?_eq_some_iff.mp hx
    rw [← hget, List.set_getElem_self]
  have hother : ∀ j, j ≠ i → (A.proc.lib.finish i).status j = A.proc.lib.status j :=
    fun j hj => Library.finish_status_of_ne hj
  have hchange := h.change hx x.moved hother (fun c (hc : A.proc.heap c ≠ _) => absurd rfl hc)
    fun y hy' _ => by
      rw [hy] at hy'
      cases hy'
      exact
        { hs with
          unread := fun hm => absurd hm hmoved
          ended  := fun _ => hmay }
  rwa [← hset] at hchange

/-- A message arrives for a receive. -/
theorem Related.arrive (h : Related n comm K A S) (hx : A.proc.posted[i]? = some x)
    (hy : S.posts[i]? = some (.recv src rv)) (hmoved : x.moved = none)
    (hmessage : K.message src (S.askedBefore i src) m) (hlen : m.length = rv.size) :
    ∃ P', A.proc.arrive i m = .returns P' ∧ Related n comm K { A with proc := P' } S ∧
      P'.lib.status i ≠ .inFlight ∧
      ∀ j, A.proc.lib.status j ≠ .inFlight → P'.lib.status j ≠ .inFlight := by
  have hr := h.recvOk hx hy
  have hview : x.view.size = rv.size := by rw [hr.view]
  have hread : Memory.gather (Memory.scatter A.proc.heap (x.buf.buffer x.view.size) m)
      (x.buf.buffer x.view.size) = m :=
    Memory.gather_scatter (View.nodup_buffer _ _) (by simp [hlen, hview])
  refine ⟨{ A.proc with
    heap   := Memory.scatter A.proc.heap (x.buf.buffer x.view.size) m
    lib    := A.proc.lib.finish i
    posted := A.proc.posted.set i { x with moved := some m } }, ?_, ?_, ?_, fun j hj => ?_⟩
  · have hreceive : x.call.receive m A.proc.heap =
        .returns (Memory.scatter A.proc.heap (x.buf.buffer x.view.size) m) := by
      simp [MpiCall.receive, hr.buffers.1, hr.count, hlen, hview]
    simp [Process.arrive, hx, hmoved, hreceive]
  · refine h.change hx (some m) (fun j hj => Library.finish_status_of_ne hj)
      (fun c hc => ⟨hr.isRecv, (hr.waiting hmoved).2, ?_⟩) fun y hy' _ => ?_
    · by_contra hnot
      exact hc (Memory.scatter_of_not_mem fun hm => hnot (List.mem_of_mem_take hm))
    · rw [hy] at hy'
      cases hy'
      exact
        { hr with
          waiting := fun hm => by cases hm
          arrived := fun m' hm => by
            cases hm
            exact ⟨hmessage, by simp, fun _ => hread⟩ }
  · show (A.proc.lib.finish i).status i ≠ .inFlight
    simp
  · show (A.proc.lib.finish i).status j ≠ .inFlight
    by_cases hji : j = i
    · subst hji
      simp
    · rwa [Library.finish_status_of_ne hji]

end Transport

/-! ## §4 Waits -/

section Waits

variable {P P' : Process α} {span : List OpId} {op : OpId}

/-- The requests of a span can be waited for: each is there, and has the
handle of its operation. -/
def Waitable (P : Process α) (span : List OpId) : Prop :=
  span.Nodup ∧ ∀ op ∈ span, ∃ x, P.posted[op]? = some x ∧ x.completed = false ∧
    x.req.request_ = some op

/-- A wait has returned. -/
structure Waited (P P' : Process α) (span : List OpId) : Prop extends Completes P P' span where
  kept : ∀ op, P.lib.status op ≠ .inFlight → P'.lib.status op ≠ .inFlight

theorem Waitable.uncompleted (h : Waitable P span) : P.Uncompleted span :=
  ⟨h.1, fun op hop => by
    obtain ⟨x, hx, hno, _⟩ := h.2 op hop
    exact ⟨x, hx, hno⟩⟩

theorem Waitable.handles (h : Waitable P span) :
    (P.requests span).map Request.request_ = span.map some := by
  refine List.ext_getElem? fun i => ?_
  rw [List.getElem?_map, List.getElem?_map, requests_getElem? h.uncompleted]
  cases hi : span[i]? with
  | none => rfl
  | some op =>
    obtain ⟨x, hx, _, hhandle⟩ := h.2 op (List.mem_of_getElem? hi)
    simp [hx, hhandle]

/-- MPI waits for every request of the span, if their number is an `int`. -/
theorem Waitable.passed (h : Waitable P span) (hfit : span.length < 2147483648) :
    passedHandles (P.requests span) = span.map some := by
  rw [passedHandles, length_requests h.uncompleted, CInt.ofSize_of_lt hfit, h.handles,
    Int.toNat_natCast, List.take_of_length_le (by simp)]

theorem Waitable.waited (h : Waitable P span) (hfit : span.length < 2147483648)
    (hwait : P.waitAll span = .returns P') : Waited P P' span := by
  unfold Process.waitAll at hwait
  obtain ⟨⟨ran, reqs, lib⟩, hall, hout⟩ := Outcome.bind_eq_returns.mp hwait
  obtain ⟨_, hdone, heq⟩ := waitAll_eq_returns hall
  cases heq
  cases hout
  rw [h.passed hfit] at hdone ⊢
  have hended : ∀ op ∈ span, P.lib.status op ≠ .inFlight := by
    intro op hop
    have := List.all_eq_true.mp hdone (some op) (List.mem_map_of_mem hop)
    exact Library.done_iff.mp this
  refine ⟨completes_settle hended ?_ rfl ?_, fun op hop => Library.settle_status_ne_inFlight hop⟩
  · intro op hm
    exact hended op (by simpa using hm)
  · intro op hop x _
    rw [List.idxOf_eq_length hop, List.getElem?_eq_none (by simp [length_requests h.uncompleted])]
    rfl

theorem Waitable.exists_waitAll (h : Waitable P span) (hfit : span.length < 2147483648)
    (hdone : ∀ op ∈ span, P.lib.status op ≠ .inFlight) : ∃ P', P.waitAll span = .returns P' := by
  have hcount : 0 ≤ CInt.ofSize (P.requests span).length := by
    rw [length_requests h.uncompleted, CInt.ofSize_of_lt hfit]
    exact Int.natCast_nonneg _
  have hall : (passedHandles (P.requests span)).all P.lib.done = true := by
    rw [h.passed hfit, List.all_eq_true]
    intro r hr
    obtain ⟨op, hop, rfl⟩ := List.mem_map.mp hr
    exact Library.done_iff.mpr (hdone op hop)
  obtain ⟨⟨ran, reqs, lib⟩, hout⟩ := waitAll_returns hcount hall
  exact ⟨_, by rw [Process.waitAll, hout]; rfl⟩

theorem Waitable.waited_one (h : Waitable P [op]) (hwait : P.wait op = .returns P') :
    Waited P P' [op] := by
  obtain ⟨x, hx, _, hhandle⟩ := h.2 op (List.mem_singleton_self op)
  unfold Process.wait at hwait
  rw [hx] at hwait
  obtain ⟨⟨ran, req, lib⟩, hone, hout⟩ := Outcome.bind_eq_returns.mp hwait
  obtain ⟨hdone, heq⟩ := Request.wait_eq_returns hone
  cases heq
  cases hout
  rw [hhandle] at hdone ⊢
  have hended := Library.done_iff.mp hdone
  refine ⟨completes_settle ?_ ?_ ?_ ?_, fun op hop => Library.settle_status_ne_inFlight hop⟩
  · simpa using hended
  · simpa using hended
  · simp [Process.requests, hx]
  · intro j hj y _
    exact getD_singleton (by simpa using hj) _ _

theorem Waitable.exists_wait (h : Waitable P [op]) (hdone : P.lib.status op ≠ .inFlight) :
    ∃ P', P.wait op = .returns P' := by
  obtain ⟨x, hx, _, hhandle⟩ := h.2 op (List.mem_singleton_self op)
  have hreq : x.req.wait P.lib = .returns (x.req.callbacks_,
      { request_ := none, callbacks_ := [] }, P.lib.settle [some op] [some op]) := by
    have hdone' : P.lib.done (some op) = true := Library.done_iff.mpr hdone
    simp only [Request.wait, mpiWait, hhandle, if_pos hdone', Outcome.returns_bind,
      bne_self_eq_false, failIf_false]
    rfl
  exact ⟨_, by rw [Process.wait, hx]; simp only [hreq]; rfl⟩

variable {n : Nat} {comm : MpiComm} {early : Bool} {p : Int} {s : Int → Meaning α} {A : Peer α}

/-- What a process of the network knows. -/
abbrev RelatedIn (n : Nat) (comm : MpiComm) (early : Bool) (s : Int → Meaning α) (p : Int)
    (A : Peer α) : Prop := Related n comm (Knowledge.of early s p) A (s p)

/-- The heaps agree on the cells of the user, apart from the views of the
receives in `U`. -/
def Agreeing (n : Nat) (P : Process α) (U : OpId → Prop) (h g : Heap α) : Prop :=
  ∀ c : Cell, c.1 < n → (∀ j z, U j → P.posted[j]? = some z → z.isRecv = true →
    c ∉ z.view.elements) → h c = g c

/-- All but one. -/
theorem Agreeing.without {h g : Heap α} {U : OpId → Prop} {x : Operation α}
    (hagree : Agreeing n P U h g) (hx : P.posted[op]? = some x) {c : Cell} (hlt : c.1 < n)
    (hc : x.isRecv = true → c ∉ x.view.elements)
    (hout : ∀ j z, (U j ∧ j ≠ op) → P.posted[j]? = some z → z.isRecv = true →
      c ∉ z.view.elements) : h c = g c := by
  refine hagree c hlt fun j z hj hz hr => ?_
  by_cases hji : j = op
  · subst hji
    rw [hx] at hz
    cases hz
    exact hc hr
  · exact hout j z ⟨hj, hji⟩ hz hr

/-- A pending call whose operation is over can be passed by the meaning, to
the same effect. -/
theorem completed_of_ended (h : RelatedIn n comm early s p A) (hfits : Fits s) {x : Operation α}
    (hx : A.proc.posted[op]? = some x) (hdone : A.proc.lib.status op ≠ .inFlight)
    (hno : x.completed = false) : ∃ f, completed early p s op = some f ∧
      ∀ (U : OpId → Prop) (hm g : Heap α), Agreeing n A.proc U hm g →
        (∀ m, x.isRecv = true → x.moved = some m →
          Memory.gather hm (x.buf.buffer x.view.size) = m) →
        Agreeing n A.proc (fun j => U j ∧ j ≠ op) (x.req.complete hm) (f g) := by
  obtain ⟨_, y, hy, hcall⟩ := h.calls op x hx
  cases y with
  | send dest m =>
    have hs : SendOk comm _ A.proc _ op x dest m := hcall
    refine ⟨id, completed_eq_some.mpr (.inl ⟨dest, m, hy, hs.ended hdone, rfl⟩), ?_⟩
    intro U hm g hagree _ c hlt hout
    rw [(hs.pending hno).2]
    exact hagree.without hx hlt (by simp [hs.isRecv]) hout
  | recv src rv =>
    have hr : RecvOk comm _ A.proc _ op x src rv := hcall
    obtain ⟨m, hmoved⟩ : ∃ m, x.moved = some m := by
      refine Option.ne_none_iff_exists'.mp fun hnone => ?_
      exact hdone (hr.waiting hnone).1
    obtain ⟨hmessage, _, _⟩ := hr.arrived m hmoved
    have hlen := hfits p op src rv m hy hmessage
    refine ⟨rv.store m, completed_eq_some.mpr (.inr ⟨src, rv, m, hy, hmessage, hlen, rfl⟩), ?_⟩
    intro U hm g hagree hread c hlt hout
    obtain ⟨_, a, hbuf, hcomplete⟩ := hr.pending hno
    have hgather := hread m hr.isRecv hmoved
    rw [hbuf, hr.view] at hgather
    rw [hcomplete]
    refine Heap.unpacked_store hr.distinct hgather ?_
    by_cases hc : c ∈ rv.elements
    · exact .inl hc
    · exact .inr (hagree.without hx hlt (fun _ => by rwa [hr.view]) hout)

/-- The callbacks of a pending call write to the view of a receive, and
nowhere else. -/
theorem complete_frame (h : RelatedIn n comm early s p A) {x : Operation α}
    (hx : A.proc.posted[op]? = some x) (hno : x.completed = false) {hm : Heap α} {c : Cell}
    (hc : x.isRecv = true → c ∉ x.view.elements) : x.req.complete hm c = hm c := by
  obtain ⟨_, y, hy, hcall⟩ := h.calls op x hx
  cases y with
  | send dest m =>
    have hs : SendOk comm _ A.proc _ op x dest m := hcall
    rw [(hs.pending hno).2]
  | recv src rv =>
    have hr : RecvOk comm _ A.proc _ op x src rv := hcall
    obtain ⟨_, a, _, hcomplete⟩ := hr.pending hno
    have hout : c ∉ rv.elements := by
      rw [← hr.view]
      exact hc hr.isRecv
    rw [hcomplete, Heap.unpacked]
    split
    · rfl
    · exact Heap.deepCopy_of_not_mem hm hout

/-- … and so can several, one after the other. -/
theorem completedAll_of_ended (h : RelatedIn n comm early s p A) (hfits : Fits s)
    (hspan : A.proc.Uncompleted span) (hdone : ∀ op ∈ span, A.proc.lib.status op ≠ .inFlight) :
    ∃ f, completedAll early p s span = some f ∧
      ∀ (U : OpId → Prop) (hm g : Heap α), Agreeing n A.proc U hm g →
        (∀ op ∈ span, ∀ x m, A.proc.posted[op]? = some x → x.isRecv = true → x.moved = some m →
          Memory.gather hm (x.buf.buffer x.view.size) = m) →
        Agreeing n A.proc (fun j => U j ∧ j ∉ span)
          ((A.proc.requests span).foldl (fun h req => req.complete h) hm) (f g) := by
  induction span with
  | nil =>
    refine ⟨id, rfl, fun U hm g hagree _ => ?_⟩
    simpa [Process.requests] using hagree
  | cons op span ih =>
    obtain ⟨hnot, hnd⟩ := List.nodup_cons.mp hspan.1
    obtain ⟨x, hx, hno⟩ := hspan.2 op (by simp)
    obtain ⟨f, hf, hfirst⟩ := completed_of_ended h hfits hx (hdone op (by simp)) hno
    obtain ⟨g, hg, hrest⟩ := ih ⟨hnd, fun op' hop' => hspan.2 op' (by simp [hop'])⟩
      fun op' hop' => hdone op' (by simp [hop'])
    refine ⟨g ∘ f, by simp [completedAll, hf, hg], fun U hm h' hagree hread => ?_⟩
    have hreqs : A.proc.requests (op :: span) = x.req :: A.proc.requests span := by
      simp [Process.requests, hx]
    rw [hreqs, List.foldl_cons]
    have hone := hfirst U hm h' hagree fun m hr hmoved => hread op (by simp) x m hx hr hmoved
    have hall := hrest (fun j => U j ∧ j ≠ op) (x.req.complete hm) (f h') hone ?_
    · intro c hlt hout
      refine hall c hlt ?_
      rintro j z ⟨⟨hU, hne⟩, hj⟩ hz hr
      exact hout j z ⟨hU, by simp [hne, hj]⟩ hz hr
    · -- the first callbacks leave the buffers of the others alone
      intro op' hop' z m hz hzr hmoved
      obtain ⟨z', hz', hno'⟩ := hspan.2 op' (by simp [hop'])
      rw [hz] at hz'
      cases hz'
      have hne : op ≠ op' := fun heq => hnot (heq ▸ hop')
      rw [← hread op' (by simp [hop']) z m hz hzr hmoved]
      refine gather_congr fun c hc => complete_frame h hx hno fun hr hcx => ?_
      exact h.apart op op' x z hne hx hz hno hno' hr c (List.mem_append_left _ hcx)
        (List.mem_append_right _ hc)

/-- An operation after a wait. -/
theorem Waited.cases (h : Waited P P' span) (hspan : P.Uncompleted span) {j : Nat}
    {z : Operation α} (hz : P'.posted[j]? = some z) :
    (j ∉ span ∧ P.posted[j]? = some z) ∨ j ∈ span ∧ ∃ x req, P.posted[j]? = some x ∧
      x.completed = false ∧ z = { x with req := req, completed := true } := by
  by_cases hj : j ∈ span
  · obtain ⟨x, hx, hno⟩ := hspan.2 j hj
    obtain ⟨req, hreq⟩ := h.completed j hj x hx
    exact .inr ⟨hj, x, req, hx, hno, Option.some.inj (hz.symm.trans hreq)⟩
  · rw [h.others j hj] at hz
    exact .inl ⟨hj, hz⟩

/-- A completed operation is still what its call was. -/
theorem CallOk.complete {K : Knowledge α} {S S' : Meaning α} {i : Nat} {x : Operation α}
    {y : Post α} (h : CallOk comm K P S i x y) (hposts : S'.posts = S.posts)
    (hended : P.lib.status i ≠ .inFlight) (hended' : P'.lib.status i ≠ .inFlight)
    (req : Request Callback) :
    CallOk comm K P' S' i { x with req := req, completed := true } y := by
  have hmoved : ∀ {A : Prop}, (x.moved = none → P.lib.status i = .inFlight ∧ A) →
      x.moved ≠ none := fun hw hnone => hended (hw hnone).1
  cases y with
  | send dest m =>
    have h : SendOk comm K P (S.sentBefore i dest) i x dest m := h
    show SendOk comm K P' (S'.sentBefore i dest) i _ dest m
    rw [Meaning.sentBefore, hposts]
    exact
      { call    := h.call
        buffers := h.buffers
        count   := h.count
        pending := fun hno => by cases hno
        unread  := fun hm => absurd hm (hmoved h.unread)
        read    := h.read
        ended   := fun _ => h.ended hended }
  | recv src rv =>
    have h : RecvOk comm K P (S.askedBefore i src) i x src rv := h
    show RecvOk comm K P' (S'.askedBefore i src) i _ src rv
    rw [Meaning.askedBefore, hposts]
    exact
      { call     := h.call
        buffers  := h.buffers
        count    := h.count
        view     := h.view
        distinct := h.distinct
        pending  := fun hno => by cases hno
        waiting  := fun hm => absurd hm (hmoved h.waiting)
        arrived  := fun m hm => ⟨(h.arrived m hm).1, hended', fun hno => by cases hno⟩ }

/-- The callbacks of a span leave the cells of the other pending operations
alone. -/
theorem foldl_frame (h : RelatedIn n comm early s p A) (hspan : A.proc.Uncompleted span)
    {j : Nat} {z : Operation α} (hj : j ∉ span) (hz : A.proc.posted[j]? = some z)
    (hno : z.completed = false) {c : Cell} (hc : c ∈ touched z) (hm : Heap α) :
    (A.proc.requests span).foldl (fun h req => req.complete h) hm c = hm c := by
  induction span generalizing hm with
  | nil => simp [Process.requests]
  | cons op span ih =>
    obtain ⟨hnot, hnd⟩ := List.nodup_cons.mp hspan.1
    obtain ⟨x, hx, hxno⟩ := hspan.2 op (by simp)
    have hreqs : A.proc.requests (op :: span) = x.req :: A.proc.requests span := by
      simp [Process.requests, hx]
    rw [hreqs, List.foldl_cons, ih ⟨hnd, fun op' hop' => hspan.2 op' (by simp [hop'])⟩
      (fun hm => hj (List.mem_cons_of_mem _ hm))]
    refine complete_frame h hx hxno fun hr hcx => ?_
    have hne : op ≠ j := fun heq => hj (by simp [heq])
    exact h.apart op j x z hne hx hz hxno hno hr c (List.mem_append_left _ hcx) hc

variable {i : Instr α} {rest : List (Instr α)}

/-- What a wait is for is pending. -/
theorem Related.waitable (h : RelatedIn n comm early s p A)
    (hprog : (s p).program = i :: rest)
    (hi : i = .waitAll span ∨ ∃ op, i = .wait op ∧ span = [op]) :
    Waitable A.proc span ∧ span.length < 2147483648 := by
  obtain ⟨pending, hrule, hmem⟩ := h.rule
  rw [h.program, hprog] at hrule
  obtain ⟨hnd, hfit, hpending, -⟩ := keepsOff_wait hi hrule
  refine ⟨⟨hnd, fun op hop => ?_⟩, hfit⟩
  obtain ⟨z, hz, rfl⟩ := hpending op hop
  obtain ⟨x, hx, hno, -⟩ := (hmem z).mp hz
  refine ⟨x, hx, hno, ?_⟩
  obtain ⟨_, y, hy, hcall⟩ := h.calls z.op x hx
  cases y with
  | send dest m => exact (SendOk.pending hcall hno).1
  | recv src rv => exact (RecvOk.pending hcall hno).1

/-- After a wait: the meaning passes it too, and what was received is there. -/
theorem Related.settled (h : RelatedIn n comm early s p A) (hfits : Fits s)
    (hprog : (s p).program = i :: rest)
    (hi : i = .waitAll span ∨ ∃ op, i = .wait op ∧ span = [op])
    (hwaited : Waited A.proc P' span) :
    ∃ f, completedAll early p s span = some f ∧
      Related n comm (.of early s p) { program := rest, proc := P' }
        { s p with program := rest, heap := f (s p).heap } := by
  have hspan := (h.waitable hprog hi).1.uncompleted
  obtain ⟨f, hf, hheap⟩ := completedAll_of_ended h hfits hspan hwaited.ended
  obtain ⟨pending, hrule, hmem⟩ := h.rule
  rw [h.program, hprog] at hrule
  have hcases := fun {j z} => hwaited.cases hspan (j := j) (z := z)
  -- what is pending after the wait was pending before
  have hbefore : ∀ {j z}, P'.posted[j]? = some z → z.completed = false →
      j ∉ span ∧ A.proc.posted[j]? = some z := by
    intro j z hz hno
    rcases hcases hz with hbefore | ⟨-, x, req, -, -, rfl⟩
    · exact hbefore
    · cases hno
  refine ⟨f, hf, ?_⟩
  exact
    { program := rfl
      length  := hwaited.length.trans h.length
      calls   := fun j z hz => by
        rcases hcases hz with ⟨hj, hz⟩ | ⟨hj, x, req, hx, -, rfl⟩
        · obtain ⟨hp, y, hy, hcall⟩ := h.calls j z hz
          refine ⟨hp.mono (Nat.le_of_eq hwaited.nextAlloc.symm), y, hy,
            hcall.agree (.refl _) List.prefix_rfl hy (fun hno c hc => ?_)
              ⟨fun hin => ?_, hwaited.status j⟩⟩
          · rw [hwaited.heap]
            exact foldl_frame h hspan hj hz hno hc _
          · by_contra hnot
            exact hwaited.kept j hnot hin
        · obtain ⟨hp, y, hy, hcall⟩ := h.calls j x hx
          refine ⟨⟨hp.user, fun c hc => ?_⟩, y, hy, ?_⟩
          · rw [hwaited.nextAlloc]
            exact hp.within c hc
          · exact hcall.complete rfl (hwaited.ended j hj)
              (hwaited.kept j (hwaited.ended j hj)) req
      fresh   := fun j hj => hwaited.status j (h.fresh j (hwaited.length ▸ hj))
      alloc   := hwaited.nextAlloc.symm ▸ h.alloc
      apart   := fun j j' z z' hne hz hz' hno hno' =>
        h.apart j j' z z' hne (hbefore hz hno).2 (hbefore hz' hno').2 hno hno'
      heap    := fun c hlt hout => by
        show P'.heap c = f (s p).heap c
        rw [hwaited.heap]
        refine hheap (fun j => ∃ x, A.proc.posted[j]? = some x ∧ x.completed = false)
          A.proc.heap (s p).heap (fun c hlt hout => ?_) (fun op hop x m hx hr hm => ?_) c hlt ?_
        · refine h.heap c hlt fun x hx hno hr => ?_
          obtain ⟨j, hj⟩ := List.mem_iff_getElem?.mp hx
          exact hout j x ⟨x, hj, hno⟩ hj hr
        · obtain ⟨x', hx', hno⟩ := hspan.2 op hop
          obtain rfl := Option.some.inj (hx.symm.trans hx')
          obtain ⟨_, y, hy, hcall⟩ := h.calls op x hx
          cases y with
          | send dest m' => exact absurd (SendOk.isRecv hcall) (by simp [hr])
          | recv src rv => exact (RecvOk.arrived hcall m hm).2.2 hno
        · rintro j z ⟨⟨x, hx, hno⟩, hj⟩ hz hr
          obtain rfl := Option.some.inj (hx.symm.trans hz)
          refine hout x (List.mem_of_getElem? (i := j) ?_) hno hr
          rw [hwaited.others j hj]
          exact hx
      rule    := by
        refine ⟨without span pending, ?_, fun z => ?_⟩
        · show KeepsOff n P'.posted.length _ rest
          rw [hwaited.length]
          exact (keepsOff_wait hi hrule).2.2.2
        · rw [mem_without, hmem]
          constructor
          · rintro ⟨⟨x, hx, hno, hr, hv⟩, hz⟩
            exact ⟨x, (hwaited.others z.op hz).trans hx, hno, hr, hv⟩
          · rintro ⟨x, hx, hno, hr, hv⟩
            exact ⟨⟨x, (hbefore hx hno).2, hno, hr, hv⟩, (hbefore hx hno).1⟩ }

variable {T : Transport}

/-- The host passes a wait only if the meaning does, … -/
theorem Related.host_wait (h : RelatedIn n T.comm early s p A) (hfits : Fits s)
    (hprog : (s p).program = i :: rest)
    (hi : i = .waitAll span ∨ ∃ op, i = .wait op ∧ span = [op]) {A' : Peer α}
    (hhost : A.host T = .returns A') :
    ∃ f, completedAll early p s span = some f ∧ Related n T.comm (.of early s p) A'
      { s p with program := rest, heap := f (s p).heap } := by
  obtain ⟨hwaitable, hfit⟩ := h.waitable hprog hi
  rw [Peer.host, h.program, hprog] at hhost
  rcases hi with rfl | ⟨op, rfl, rfl⟩
  · obtain ⟨P', hP', hout⟩ := Outcome.bind_eq_returns.mp hhost
    cases hout
    exact h.settled hfits hprog (.inl rfl) (hwaitable.waited hfit hP')
  · obtain ⟨P', hP', hout⟩ := Outcome.bind_eq_returns.mp hhost
    cases hout
    exact h.settled hfits hprog (.inr ⟨op, rfl, rfl⟩) (hwaitable.waited_one hP')

/-- … and can when what it waits for is over. -/
theorem Related.exists_host_wait (h : RelatedIn n T.comm early s p A)
    (hprog : (s p).program = i :: rest)
    (hi : i = .waitAll span ∨ ∃ op, i = .wait op ∧ span = [op])
    (hdone : ∀ op ∈ span, A.proc.lib.status op ≠ .inFlight) : ∃ A', A.host T = .returns A' := by
  obtain ⟨hwaitable, hfit⟩ := h.waitable hprog hi
  rw [Peer.host, h.program, hprog]
  rcases hi with rfl | ⟨op, rfl, rfl⟩
  · obtain ⟨P', hP'⟩ := hwaitable.exists_waitAll hfit hdone
    exact ⟨_, by simp only [hP']; rfl⟩
  · obtain ⟨P', hP'⟩ := hwaitable.exists_wait (hdone op (by simp))
    exact ⟨_, by simp only [hP']; rfl⟩

end Waits

end KokkosComm.Mpi.Messaging
