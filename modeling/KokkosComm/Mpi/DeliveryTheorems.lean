/-
KokkosComm.Mpi.DeliveryTheorems — ordered delivery over whole runs.

§1 is the invariant of one process: what MPI sees of a posted view
(`Operation.buf`: the view itself, or a packed view nobody else knows), what a
send still has to send, what a receive has got and where, and that a
receive shares no cell with any other operation. §2 shows it for the
operation just posted, §3 for the other steps of one process, one lemma
each; a completing call is treated once for all four of them
(`Completes`). §4 is the network: the k-th send and the k-th receive keep
their places, and every message that has arrived is what its send held.
-/
import KokkosComm.Mpi.Delivery
import KokkosComm.Mpi.RequestTheorems
import KokkosComm.Mpi.TransferTheorems

namespace KokkosComm.Mpi

variable {α : Type}

/-! ## §1 The invariant of a process -/

namespace Operation

/-- The view whose memory MPI reads or writes. -/
def buf (x : Operation α) : View := (x.call.sendbuf <|> x.call.recvbuf).getD x.view

def isRecv (x : Operation α) : Bool := x.call.recvbuf.isSome

/-- All cells an operation has to do with. -/
def cells (x : Operation α) : List Cell := x.view.elements ++ x.buf.elements

end Operation

/-- What sends and receives have in common. A buffer that is not the view
itself is a packed view: no allocation of the user, and not a future one. -/
structure Slot (P : Process α) (op : OpId) (x : Operation α) : Prop where
  user : x.view.alloc ∈ P.users
  own : x.buf = x.view ∨ x.buf.alloc ∉ P.users ∧ x.buf.alloc < P.nextAlloc
  extents : x.buf.extents = x.view.extents
  dense : x.buf.buffer x.view.size = x.buf.elements
  handle : x.completed = false → x.req.request_ = some op

structure SendSlot (P : Process α) (op : OpId) (x : Operation α) : Prop extends Slot P op x where
  sends : x.call.sendbuf = some x.buf ∧ x.call.recvbuf = none
  notRecv : x.call.fn.recvEnvelope = none
  count : x.call.sendcount.toNat = x.view.size
  held : x.held.length = x.view.size
  silent : x.completed = false → ∀ h : Heap α, x.req.complete h = h
  unread : x.moved = none → P.lib.status op = .inFlight ∧ x.completed = false ∧
    Memory.gather P.heap x.buf.elements = x.held
  read : ∀ m, x.moved = some m → m = x.held

structure RecvSlot (P : Process α) (op : OpId) (x : Operation α) : Prop extends Slot P op x where
  recvs : x.call.recvbuf = some x.buf ∧ x.call.sendbuf = none
  notSend : x.call.fn.sendEnvelope = none
  count : x.call.recvcount.toNat = x.view.size
  distinct : x.view.elements.Nodup
  unpacks : x.completed = false → ∀ h : Heap α,
    Memory.gather (x.req.complete h) x.view.elements = Memory.gather h x.buf.elements
  within : x.completed = false → ∀ (h : Heap α) c, c ∉ x.view.elements → x.req.complete h c = h c
  pending : x.moved = none → P.lib.status op = .inFlight ∧ x.completed = false
  arrived : ∀ m, x.moved = some m → x.completed = false →
    Memory.gather P.heap x.buf.elements = m
  done : ∀ m, x.moved = some m → x.completed = true → Memory.gather P.heap x.view.elements = m

structure ProcessOk (P : Process α) : Prop where
  slots : ∀ op x, P.posted[op]? = some x → SendSlot P op x ∨ RecvSlot P op x
  fresh : ∀ op, P.posted.length ≤ op → P.lib.status op = .inFlight
  users : ∀ a ∈ P.users, a < P.nextAlloc
  apart : ∀ (i j : OpId) (x y : Operation α), i ≠ j → P.posted[i]? = some x →
    P.posted[j]? = some y → x.isRecv = true → ∀ c ∈ x.cells, c ∉ y.cells
  frame : ∀ c : Cell, (c.1 ∈ P.users ∨ P.nextAlloc ≤ c.1) →
    (∀ x ∈ P.posted, x.isRecv = true → c ∉ x.view.elements) → P.heap c = P.untouched c

theorem SendSlot.isRecv_eq {P : Process α} {op : OpId} {x : Operation α} (h : SendSlot P op x) :
    x.isRecv = false := by
  simp [Operation.isRecv, h.sends.2]

theorem RecvSlot.isRecv_eq {P : Process α} {op : OpId} {x : Operation α} (h : RecvSlot P op x) :
    x.isRecv = true := by
  simp [Operation.isRecv, h.recvs.1]

theorem ProcessOk.slot {P : Process α} (hP : ProcessOk P) {op : OpId} {x : Operation α}
    (hx : P.posted[op]? = some x) : Slot P op x := by
  rcases hP.slots op x hx with h | h
  · exact h.toSlot
  · exact h.toSlot

theorem ProcessOk.recvSlot {P : Process α} (hP : ProcessOk P) {op : OpId} {x : Operation α}
    (hx : P.posted[op]? = some x) (hr : x.isRecv = true) : RecvSlot P op x := by
  refine (hP.slots op x hx).resolve_left ?_
  intro hs
  rw [hs.isRecv_eq] at hr
  cases hr

theorem ProcessOk.sendSlot {P : Process α} (hP : ProcessOk P) {op : OpId} {x : Operation α}
    (hx : P.posted[op]? = some x) (hr : x.isRecv = false) : SendSlot P op x := by
  refine (hP.slots op x hx).resolve_right ?_
  intro hs
  rw [hs.isRecv_eq] at hr
  cases hr

/-- The cells of an operation lie in allocations there already were. -/
theorem ProcessOk.alloc_lt {P : Process α} (hP : ProcessOk P) {op : OpId} {x : Operation α}
    (hx : P.posted[op]? = some x) {c : Cell} (hc : c ∈ x.cells) : c.1 < P.nextAlloc := by
  have hslot := hP.slot hx
  have hview := hP.users _ hslot.user
  rcases List.mem_append.mp hc with hc | hc
  · rwa [View.fst_of_mem_elements hc]
  · rw [View.fst_of_mem_elements hc]
    rcases hslot.own with heq | ⟨_, hlt⟩
    · rwa [heq]
    · exact hlt

theorem processOk_start (heap : Heap α) (n : Nat) : ProcessOk (Process.start heap n) where
  slots := fun _ _ hx => by simp [Process.start] at hx
  fresh := fun _ _ => rfl
  users := fun a ha => by simpa [Process.start] using ha
  apart := fun _ _ _ _ _ hx => by simp [Process.start] at hx
  frame := fun _ _ _ => rfl

/-- Allocations the user owned stay the user's, and none that existed
becomes the user's. -/
structure Later (P P' : Process α) : Prop where
  users : ∀ a ∈ P.users, a ∈ P'.users
  kept : ∀ a < P.nextAlloc, a ∈ P'.users → a ∈ P.users
  nextAlloc : P.nextAlloc ≤ P'.nextAlloc

theorem Later.of_eq {P P' : Process α} (husers : P'.users = P.users)
    (hnext : P.nextAlloc ≤ P'.nextAlloc) : Later P P' where
  users := fun _ ha => husers ▸ ha
  kept := fun _ _ ha => husers ▸ ha
  nextAlloc := hnext

section Transport

variable {P P' : Process α} {op : OpId} {x : Operation α}

theorem Slot.later (hs : Slot P op x) (hl : Later P P') : Slot P' op x where
  user := hl.users _ hs.user
  own := by
    rcases hs.own with heq | ⟨hout, hlt⟩
    · exact .inl heq
    · exact .inr ⟨fun ha => hout (hl.kept _ hlt ha), Nat.lt_of_lt_of_le hlt hl.nextAlloc⟩
  extents := hs.extents
  dense := hs.dense
  handle := hs.handle

theorem gather_congr {h h' : Heap α} {cells : List Cell} (heq : ∀ c ∈ cells, h' c = h c) :
    Memory.gather h' cells = Memory.gather h cells := List.map_congr_left heq

/-- An operation whose cells are left alone, and which does not complete,
stays as it is. -/
theorem SendSlot.agree (hs : SendSlot P op x) (hl : Later P P')
    (hheap : ∀ c ∈ x.cells, P'.heap c = P.heap c)
    (hstat : P.lib.status op = .inFlight → P'.lib.status op = .inFlight) : SendSlot P' op x :=
  { hs with
    toSlot := hs.toSlot.later hl
    unread := by
      intro hm
      obtain ⟨hin, hno, hheld⟩ := hs.unread hm
      refine ⟨hstat hin, hno, ?_⟩
      rw [← hheld]
      exact gather_congr fun c hc => hheap c (List.mem_append_right _ hc) }

theorem RecvSlot.agree (hs : RecvSlot P op x) (hl : Later P P')
    (hheap : ∀ c ∈ x.cells, P'.heap c = P.heap c)
    (hstat : P.lib.status op = .inFlight → P'.lib.status op = .inFlight) : RecvSlot P' op x :=
  { hs with
    toSlot := hs.toSlot.later hl
    pending := fun hm => ⟨hstat (hs.pending hm).1, (hs.pending hm).2⟩
    arrived := by
      intro m hm hno
      rw [← hs.arrived m hm hno]
      exact gather_congr fun c hc => hheap c (List.mem_append_right _ hc)
    done := by
      intro m hm hyes
      rw [← hs.done m hm hyes]
      exact gather_congr fun c hc => hheap c (List.mem_append_left _ hc) }

theorem slots_agree (hs : SendSlot P op x ∨ RecvSlot P op x) (hl : Later P P')
    (hheap : ∀ c ∈ x.cells, P'.heap c = P.heap c)
    (hstat : P.lib.status op = .inFlight → P'.lib.status op = .inFlight) :
    SendSlot P' op x ∨ RecvSlot P' op x := by
  rcases hs with hs | hs
  · exact .inl (hs.agree hl hheap hstat)
  · exact .inr (hs.agree hl hheap hstat)

end Transport

/-- The same operation, later: the call, the view and what it held. -/
structure Evolves (x x' : Operation α) : Prop where
  call : x'.call = x.call
  view : x'.view = x.view
  held : x'.held = x.held

theorem Evolves.refl (x : Operation α) : Evolves x x := ⟨rfl, rfl, rfl⟩

theorem Evolves.buf {x x' : Operation α} (h : Evolves x x') : x'.buf = x.buf := by
  simp [Operation.buf, h.call, h.view]

theorem Evolves.cells {x x' : Operation α} (h : Evolves x x') : x'.cells = x.cells := by
  simp [Operation.cells, h.buf, h.view]

theorem Evolves.isRecv {x x' : Operation α} (h : Evolves x x') : x'.isRecv = x.isRecv := by
  simp [Operation.isRecv, h.call]

/-- A step that posts nothing, only changes what has been posted. -/
structure Kept (P P' : Process α) : Prop where
  length : P'.posted.length = P.posted.length
  posted : ∀ (op : OpId) (x' : Operation α), P'.posted[op]? = some x' →
    ∃ x, P.posted[op]? = some x ∧ Evolves x x'

theorem Kept.forward {P P' : Process α} (h : Kept P P') {op : OpId} {x : Operation α}
    (hx : P.posted[op]? = some x) : ∃ x', P'.posted[op]? = some x' ∧ Evolves x x' := by
  have hlt : op < P'.posted.length := by
    rw [h.length]
    exact (List.getElem?_eq_some_iff.mp hx).1
  obtain ⟨y, hy, hev⟩ := h.posted op _ (List.getElem?_eq_getElem hlt)
  rw [hx] at hy
  cases hy
  exact ⟨_, List.getElem?_eq_getElem hlt, hev⟩

theorem Kept.calls {P P' : Process α} (h : Kept P P') :
    P'.posted.map Operation.call = P.posted.map Operation.call := by
  refine List.ext_getElem? fun op => ?_
  rw [List.getElem?_map, List.getElem?_map]
  cases hx : P.posted[op]? with
  | some x =>
    obtain ⟨x', hx', hev⟩ := h.forward hx
    simp [hx', hev.call]
  | none =>
    have hle : P'.posted.length ≤ op := by
      rw [h.length]
      exact List.getElem?_eq_none_iff.mp hx
    simp [List.getElem?_eq_none hle]

theorem ProcessOk.change {P P' : Process α} (hP : ProcessOk P) (hkept : Kept P P')
    (hslots : ∀ op x', P'.posted[op]? = some x' → SendSlot P' op x' ∨ RecvSlot P' op x')
    (hfresh : ∀ op, P.posted.length ≤ op → P'.lib.status op = .inFlight)
    (husers : ∀ a ∈ P'.users, a < P'.nextAlloc)
    (hframe : ∀ c : Cell, (c.1 ∈ P'.users ∨ P'.nextAlloc ≤ c.1) →
      (∀ x ∈ P.posted, x.isRecv = true → c ∉ x.view.elements) → P'.heap c = P'.untouched c) :
    ProcessOk P' where
  slots := hslots
  fresh := fun op hop => hfresh op (hkept.length ▸ hop)
  users := husers
  apart := by
    intro i j x' y' hne hx' hy' hr c hc
    obtain ⟨x, hx, hxx⟩ := hkept.posted i x' hx'
    obtain ⟨y, hy, hyy⟩ := hkept.posted j y' hy'
    rw [hxx.cells] at hc
    rw [hyy.cells]
    exact hP.apart i j x y hne hx hy (hxx.isRecv ▸ hr) c hc
  frame := by
    intro c hc hout
    refine hframe c hc fun x hx hr => ?_
    obtain ⟨op, hop⟩ := List.mem_iff_getElem?.mp hx
    obtain ⟨x', hx', hev⟩ := hkept.forward hop
    have := hout x' (List.mem_of_getElem? hx') (hev.isRecv ▸ hr)
    rwa [hev.view] at this

/-! ## §2 Posting -/

/-- The process after `x` has been posted. Only a new allocation may have
been written. -/
structure Appends (P P' : Process α) (x : Operation α) : Prop where
  posted : P'.posted = P.posted ++ [x]
  lib : P'.lib = P.lib
  users : P'.users = P.users
  untouched : P'.untouched = P.untouched
  nextAlloc : P.nextAlloc ≤ P'.nextAlloc
  heap : ∀ c : Cell, c.1 < P.nextAlloc ∨ P'.nextAlloc ≤ c.1 → P'.heap c = P.heap c
  buf : x.buf = x.view ∨ x.buf.alloc = P.nextAlloc
  moved : x.moved = none
  held : x.held = Memory.gather P.heap x.view.elements

theorem Appends.later {P P' : Process α} {x : Operation α} (h : Appends P P' x) : Later P P' :=
  .of_eq h.users h.nextAlloc

theorem Appends.getElem? {P P' : Process α} {x y : Operation α} (h : Appends P P' x) {op : OpId} :
    P'.posted[op]? = some y ↔ P.posted[op]? = some y ∨ op = P.posted.length ∧ y = x := by
  rw [h.posted, List.getElem?_append]
  by_cases hlt : op < P.posted.length
  · have hne : op ≠ P.posted.length := Nat.ne_of_lt hlt
    simp [hlt, hne]
  · have hnone : P.posted[op]? = none := List.getElem?_eq_none (Nat.not_lt.mp hlt)
    rw [if_neg hlt, hnone]
    rcases Nat.eq_or_lt_of_le (Nat.not_lt.mp hlt) with heq | hgt
    · simp [← heq, eq_comm]
    · have hne : op ≠ P.posted.length := Nat.ne_of_gt hgt
      have hsub : op - P.posted.length ≠ 0 := Nat.sub_ne_zero_of_lt hgt
      simp [hne, hsub]

/-- A new operation shares no cell with an old one whose view is apart. -/
theorem Appends.disjoint {P P' : Process α} {x y : Operation α} (h : Appends P P' x)
    (hP : ProcessOk P) (huser : x.view.alloc ∈ P.users) {op : OpId} (hy : P.posted[op]? = some y)
    (hapart : ∀ c ∈ x.view.elements, c ∉ y.view.elements) : ∀ c ∈ x.cells, c ∉ y.cells := by
  intro c hcx hcy
  have hlt := hP.alloc_lt hy hcy
  have hxview : c ∈ x.view.elements := by
    rcases List.mem_append.mp hcx with hc | hc
    · exact hc
    · rcases h.buf with heq | heq
      · rwa [heq] at hc
      · -- a packed view is in a new allocation
        rw [View.fst_of_mem_elements hc, heq] at hlt
        exact absurd hlt (Nat.lt_irrefl _)
  have hyview : c ∈ y.view.elements := by
    rcases List.mem_append.mp hcy with hc | hc
    · exact hc
    · rcases (hP.slot hy).own with heq | ⟨hout, _⟩
      · rwa [heq] at hc
      · rw [← View.fst_of_mem_elements hc, View.fst_of_mem_elements hxview] at hout
        exact absurd huser hout
  exact hapart c hxview hyview

theorem ProcessOk.append {P P' : Process α} {x : Operation α} (hP : ProcessOk P)
    (h : Appends P P' x)
    (hx : SendSlot P' P.posted.length x ∨ RecvSlot P' P.posted.length x)
    (hapart : ∀ y ∈ P.posted, (x.isRecv = true ∨ y.isRecv = true) →
      ∀ c ∈ x.view.elements, c ∉ y.view.elements) : ProcessOk P' where
  slots := by
    intro op y hy
    rcases h.getElem?.mp hy with hy | ⟨rfl, rfl⟩
    · refine slots_agree (hP.slots op y hy) h.later (fun c hc => ?_) fun hin => by rwa [h.lib]
      exact h.heap c (.inl (hP.alloc_lt hy hc))
    · exact hx
  fresh := by
    intro op hop
    rw [h.posted, List.length_append, List.length_singleton] at hop
    rw [h.lib]
    exact hP.fresh op (by omega)
  users := by
    intro a ha
    exact Nat.lt_of_lt_of_le (hP.users a (h.users ▸ ha)) h.nextAlloc
  apart := by
    have huser : x.view.alloc ∈ P.users := by
      rw [← h.users]
      rcases hx with hx | hx
      · exact hx.user
      · exact hx.user
    intro i j y z hne hy hz hr c hcy hcz
    rcases h.getElem?.mp hy with hy | ⟨rfl, rfl⟩
    · rcases h.getElem?.mp hz with hz | ⟨rfl, rfl⟩
      · exact hP.apart i j y z hne hy hz hr c hcy hcz
      · exact h.disjoint hP huser hy (hapart y (List.mem_of_getElem? hy) (.inr hr)) c hcz hcy
    · rcases h.getElem?.mp hz with hz | ⟨rfl, rfl⟩
      · exact h.disjoint hP huser hz (hapart z (List.mem_of_getElem? hz) (.inl hr)) c hcy hcz
      · exact hne rfl
  frame := by
    intro c hc hout
    have hold : c.1 ∈ P.users ∨ P.nextAlloc ≤ c.1 := by
      rw [h.users] at hc
      exact hc.imp_right (Nat.le_trans h.nextAlloc)
    have hsame : P'.heap c = P.heap c := by
      refine h.heap c ?_
      rw [h.users] at hc
      exact hc.imp_left (hP.users c.1)
    rw [hsame, h.untouched]
    refine hP.frame c hold fun y hy hr => hout y ?_ hr
    rw [h.posted]
    exact List.mem_append_left _ hy

theorem toNat_spanCount {v : View} (hc : v.isContiguous = true) (hsize : v.size < 2147483648) :
    (spanCount v).toNat = v.size ∧ 0 ≤ spanCount v := by
  rw [spanCount_of_contiguous hc, wireCount, CInt.ofSize_of_lt hsize]
  exact ⟨Int.toNat_natCast _, Int.natCast_nonneg _⟩

theorem toNat_ofSize_size {v : View} (hsize : v.size < 2147483648) :
    (CInt.ofSize v.size).toNat = v.size ∧ 0 ≤ CInt.ofSize v.size := by
  rw [CInt.ofSize_of_lt hsize]
  exact ⟨Int.toNat_natCast _, Int.natCast_nonneg _⟩

section Post

variable {P P' : Process α} {v : View} {mode : CommunicationMode} {peer : Int} {comm : MpiComm}

theorem heap_packed (P : Process α) (v : View) (c : Cell)
    (hc : c.1 < P.nextAlloc ∨ P.nextAlloc + 1 ≤ c.1) :
    P.heap.deepCopy (v.contiguousView P.nextAlloc) v c = P.heap c := by
  refine Heap.deepCopy_of_not_mem _ fun hm => ?_
  rw [View.fst_of_mem_elements hm, View.contiguousView_alloc] at hc
  rcases hc with hc | hc
  · exact Nat.lt_irrefl _ hc
  · exact Nat.not_succ_le_self _ hc

theorem nodup_contiguousView (hown : P.Owns v) (a : AllocId) :
    (v.contiguousView a).elements.Nodup := by
  rw [← View.buffer_contiguousView hown.1]
  exact View.nodup_buffer _ _

theorem not_user_nextAlloc (hP : ProcessOk P) : P.nextAlloc ∉ P.users :=
  fun ha => Nat.lt_irrefl _ (hP.users _ ha)

/-- A send has been posted: nothing has been sent yet, and what MPI will
read is what the view held. -/
theorem post_send (hP : ProcessOk P) (hown : P.Owns v) (hsize : v.size < 2147483648)
    (h : P.post v (send mode v peer comm) = .returns P') :
    ∃ x, Appends P P' x ∧ SendSlot P' P.posted.length x ∧ x.view = v ∧
      x.call.fn.sendEnvelope = some (peer, pointToPointTag) ∧ x.call.comm = comm := by
  unfold Process.post send at h
  cases hc : v.isContiguous with
  | true =>
    obtain ⟨hcount, hpos⟩ := toNat_spanCount hc hsize
    rw [isendImpl_contiguous hc, Routine.start, if_pos (by simp [MpiCall.validCounts, hpos])] at h
    cases h
    refine ⟨_, ⟨rfl, rfl, rfl, rfl, Nat.le_refl _, fun _ _ => rfl, .inl rfl, rfl, rfl⟩, ?_, rfl,
      sendEnvelope_mpiIsendFn .., rfl⟩
    exact
      { user    := hown.2
        own     := .inl rfl
        extents := rfl
        dense   := View.buffer_eq_elements hown.1 hc
        handle  := fun _ => by simp [Request.new, Host.start, Host.log]
        sends   := ⟨rfl, rfl⟩
        notRecv := by cases mode <;> rfl
        count   := hcount
        held    := by simp
        silent  := fun _ h => by simp
        unread  := fun _ => ⟨hP.fresh _ (Nat.le_refl _), rfl, rfl⟩
        read    := fun m hm => by cases hm }
  | false =>
    obtain ⟨hcount, hpos⟩ := toNat_ofSize_size hsize
    rw [isendImpl_packed hc, Routine.start, if_pos (by simp [MpiCall.validCounts, hpos])] at h
    cases h
    refine ⟨_, ⟨rfl, rfl, rfl, rfl, Nat.le_succ _, fun c hc => heap_packed P v c hc, .inr rfl,
      rfl, rfl⟩, ?_, rfl, sendEnvelope_mpiIsendFn .., rfl⟩
    exact
      { user    := hown.2
        own     := .inr ⟨not_user_nextAlloc hP, Nat.lt_succ_self _⟩
        extents := rfl
        dense   := View.buffer_contiguousView hown.1 _
        handle  := fun _ => by simp [Request.new, Host.start, Host.log, Host.allocated]
        sends   := ⟨rfl, rfl⟩
        notRecv := by cases mode <;> rfl
        count   := hcount
        held    := by simp
        silent  := fun _ h => by simp
        unread  := fun _ => ⟨hP.fresh _ (Nat.le_refl _), rfl,
          Heap.gather_deepCopy P.heap rfl (nodup_contiguousView hown P.nextAlloc)⟩
        read    := fun m hm => by cases hm }

/-- A receive has been posted: nothing has arrived, and its callbacks will
copy what arrives into the view, and touch nothing else. -/
theorem post_recv (hP : ProcessOk P) (hown : P.Owns v) (hsize : v.size < 2147483648)
    (hnd : v.elements.Nodup) (h : P.post v (recv v peer comm) = .returns P') :
    ∃ x, Appends P P' x ∧ RecvSlot P' P.posted.length x ∧ x.view = v ∧
      x.call.fn.recvEnvelope = some (peer, pointToPointTag) ∧ x.call.comm = comm := by
  unfold Process.post recv at h
  cases hc : v.isContiguous with
  | true =>
    obtain ⟨hcount, hpos⟩ := toNat_spanCount hc hsize
    rw [recvExecute_contiguous hc, Routine.start,
      if_pos (by simp [MpiCall.validCounts, hpos])] at h
    cases h
    refine ⟨_, ⟨rfl, rfl, rfl, rfl, Nat.le_refl _, fun _ _ => rfl, .inl rfl, rfl, rfl⟩, ?_, rfl,
      rfl, rfl⟩
    exact
      { user     := hown.2
        own      := .inl rfl
        extents  := rfl
        dense    := View.buffer_eq_elements hown.1 hc
        handle   := fun _ => by simp [Request.new, Host.start, Host.log]
        recvs    := ⟨rfl, rfl⟩
        notSend  := rfl
        count    := hcount
        distinct := hnd
        unpacks  := fun _ h => by simp [Operation.buf]
        within   := fun _ h c _ => by simp
        pending  := fun _ => ⟨hP.fresh _ (Nat.le_refl _), rfl⟩
        arrived  := fun m hm => by cases hm
        done     := fun m hm => by cases hm }
  | false =>
    obtain ⟨hcount, hpos⟩ := toNat_ofSize_size hsize
    rw [recvExecute_packed hc, Routine.start,
      if_pos (by simp [MpiCall.validCounts, hpos])] at h
    cases h
    refine ⟨_, ⟨rfl, rfl, rfl, rfl, Nat.le_succ _, fun _ _ => rfl, .inr rfl, rfl, rfl⟩, ?_, rfl,
      rfl, rfl⟩
    exact
      { user     := hown.2
        own      := .inr ⟨not_user_nextAlloc hP, Nat.lt_succ_self _⟩
        extents  := rfl
        dense    := View.buffer_contiguousView hown.1 _
        handle   := fun _ => rfl
        recvs    := ⟨rfl, rfl⟩
        notSend  := rfl
        count    := hcount
        distinct := hnd
        unpacks  := fun _ h => by
          rw [complete_addCallback, run_unpackCallback]
          exact Heap.gather_deepCopy h rfl hnd
        within   := fun _ h c hcm => by
          rw [complete_addCallback, run_unpackCallback]
          exact Heap.deepCopy_of_not_mem _ hcm
        pending  := fun _ => ⟨hP.fresh _ (Nat.le_refl _), rfl⟩
        arrived  := fun m hm => by cases hm
        done     := fun m hm => by cases hm }

end Post

/-! ## §3 The other steps of a process -/

section Steps

variable {P P' : Process α} {op : OpId} {x x' : Operation α}

theorem getElem?_set_posted (hx : P.posted[op]? = some x) {j : OpId} {y : Operation α} :
    (P.posted.set op x')[j]? = some y ↔
      j = op ∧ y = x' ∨ j ≠ op ∧ P.posted[j]? = some y := by
  have hlt : op < P.posted.length := (List.getElem?_eq_some_iff.mp hx).1
  rw [List.getElem?_set]
  by_cases h : op = j
  · subst h
    simp [hlt, eq_comm]
  · have h' : ¬ j = op := fun heq => h heq.symm
    simp [h, h']

/-- One operation changes, and its cells at most. -/
theorem ProcessOk.set (hP : ProcessOk P) (hx : P.posted[op]? = some x)
    (hslot : SendSlot P' op x' ∨ RecvSlot P' op x') (hev : Evolves x x')
    (hposted : P'.posted = P.posted.set op x') (husers : P'.users = P.users)
    (hnext : P'.nextAlloc = P.nextAlloc) (hunt : P'.untouched = P.untouched)
    (hstat : ∀ j, j ≠ op → P'.lib.status j = P.lib.status j)
    (hheap : ∀ c, P'.heap c ≠ P.heap c → x.isRecv = true ∧ c ∈ x.buf.elements) :
    ProcessOk P' ∧ Kept P P' := by
  have hkept : Kept P P' := by
    constructor
    · rw [hposted, List.length_set]
    · intro j y hy
      rw [hposted] at hy
      rcases (getElem?_set_posted hx).mp hy with ⟨rfl, rfl⟩ | ⟨_, hy⟩
      · exact ⟨x, hx, hev⟩
      · exact ⟨y, hy, .refl y⟩
  refine ⟨hP.change hkept ?_ ?_ ?_ ?_, hkept⟩
  · intro j y hy
    rw [hposted] at hy
    rcases (getElem?_set_posted hx).mp hy with ⟨rfl, rfl⟩ | ⟨hne, hy⟩
    · exact hslot
    · refine slots_agree (hP.slots j y hy) (.of_eq husers (Nat.le_of_eq hnext.symm))
        (fun c hc => ?_) fun hin => by rwa [hstat j hne]
      by_contra hdiff
      obtain ⟨hr, hm⟩ := hheap c hdiff
      exact hP.apart op j x y hne.symm hx hy hr c (List.mem_append_right _ hm) hc
  · intro j hj
    have hne : j ≠ op := by
      intro heq
      have hlt := (List.getElem?_eq_some_iff.mp hx).1
      rw [← heq] at hlt
      exact Nat.not_lt.mpr hj hlt
    rw [hstat j hne]
    exact hP.fresh j hj
  · intro a ha
    rw [hnext]
    exact hP.users a (husers ▸ ha)
  · intro c hc hout
    rw [husers, hnext] at hc
    rw [hunt, ← hP.frame c hc hout]
    by_contra hdiff
    obtain ⟨hr, hm⟩ := hheap c hdiff
    rcases (hP.slot hx).own with heq | ⟨hnot, hlt⟩
    · exact hout x (List.mem_of_getElem? hx) hr (heq ▸ hm)
    · rw [← View.fst_of_mem_elements hm] at hnot hlt
      rcases hc with hc | hc
      · exact hnot hc
      · exact Nat.not_lt.mpr hc hlt

/-- MPI reads what the view of the send held. -/
theorem ProcessOk.capture (hP : ProcessOk P) (h : P.capture op = .returns P') :
    ProcessOk P' ∧ Kept P P' ∧ ∀ (j : OpId) (y' : Operation α), P'.posted[j]? = some y' →
      y'.isRecv = true → P.posted[j]? = some y' := by
  unfold Process.capture at h
  split at h
  · rename_i x hx
    split at h
    · rename_i hcond
      obtain ⟨hmoved, hsend⟩ := hcond
      cases h
      have hs : SendSlot P op x := by
        refine (hP.slots op x hx).resolve_right fun hr => ?_
        simp [hr.recvs.2] at hsend
      have hmessage : x.call.message P.heap = x.held := by
        rw [← (hs.unread (Option.isNone_iff_eq_none.mp hmoved)).2.2, ← hs.dense]
        simp [MpiCall.message, hs.sends.1, hs.count]
      have hev : Evolves x { x with moved := some (x.call.message P.heap) } := ⟨rfl, rfl, rfl⟩
      have hs' : SendSlot { P with
          posted := P.posted.set op { x with moved := some (x.call.message P.heap) } } op
          { x with moved := some (x.call.message P.heap) } :=
        { hs with
          unread := fun hm => by cases hm
          read   := fun m hm => by cases hm; exact hmessage }
      obtain ⟨hok, hkept⟩ := hP.set hx (.inl hs') hev rfl rfl rfl rfl (fun _ _ => rfl)
        fun c hc => absurd rfl hc
      refine ⟨hok, hkept, fun j y' hy' hr => ?_⟩
      rcases (getElem?_set_posted hx).mp hy' with ⟨rfl, rfl⟩ | ⟨_, hy⟩
      · have : x.isRecv = true := hr
        rw [hs.isRecv_eq] at this
        cases this
      · exact hy
    · cases h
  · cases h

theorem ProcessOk.finish (hP : ProcessOk P) (h : P.finish op = .returns P') :
    ProcessOk P' ∧ P'.posted = P.posted := by
  unfold Process.finish at h
  split at h
  · rename_i x hx
    split at h
    · rename_i hcond
      obtain ⟨hmoved, hsend, _⟩ := hcond
      cases h
      have hs : SendSlot P op x := by
        refine (hP.slots op x hx).resolve_right fun hr => ?_
        simp [hr.recvs.2] at hsend
      have hset : P.posted = P.posted.set op x := by
        obtain ⟨hlt, hget⟩ := List.getElem?_eq_some_iff.mp hx
        rw [← hget, List.set_getElem_self]
      have hs' : SendSlot { P with lib := P.lib.finish op } op x :=
        { hs with unread := fun hm => by simp [hm] at hmoved }
      exact ⟨(hP.set hx (.inl hs') (.refl x) hset rfl rfl rfl
        (fun j hj => Library.finish_status_of_ne hj) fun c hc => absurd rfl hc).1, rfl⟩
    · cases h
  · cases h

/-- A message as long as the view arrives in the buffer. -/
theorem ProcessOk.arrive (hP : ProcessOk P) (hx : P.posted[op]? = some x)
    (hr : x.isRecv = true) {message : List α} (hlen : message.length = x.view.size)
    (h : P.arrive op message = .returns P') :
    ProcessOk P' ∧ Kept P P' ∧ P'.posted = P.posted.set op { x with moved := some message } := by
  have hs : RecvSlot P op x := hP.recvSlot hx hr
  unfold Process.arrive at h
  rw [hx] at h
  dsimp only at h
  split at h
  · rename_i hmoved
    obtain ⟨heap, hreceive, h⟩ := Outcome.bind_eq_returns.mp h
    cases h
    have hheap : heap = Memory.scatter P.heap x.buf.elements message := by
      unfold MpiCall.receive at hreceive
      rw [hs.recvs.1, hs.count] at hreceive
      dsimp only at hreceive
      rw [if_pos (Nat.le_of_eq hlen), hs.dense] at hreceive
      cases hreceive
      rfl
    have hnd : x.buf.elements.Nodup := by
      rw [← hs.dense]
      exact View.nodup_buffer _ _
    have hsize : x.buf.size = x.view.size := by rw [View.size, View.size, hs.extents]
    have hget : Memory.gather heap x.buf.elements = message := by
      rw [hheap]
      exact Memory.gather_scatter hnd (by simp [hlen, hsize])
    have hno := (hs.pending (Option.isNone_iff_eq_none.mp hmoved)).2
    have hs' : RecvSlot { P with
        heap   := heap
        lib    := P.lib.finish op
        posted := P.posted.set op { x with moved := some message } } op
        { x with moved := some message } :=
      { hs with
        pending := fun hm => by cases hm
        arrived := fun m hm _ => by cases hm; exact hget
        done    := fun m _ hyes => by simp [hno] at hyes }
    obtain ⟨hok, hkept⟩ := hP.set hx (.inr hs') ⟨rfl, rfl, rfl⟩ rfl rfl rfl rfl
      (fun j hj => Library.finish_status_of_ne hj) fun c hc => by
        refine ⟨hr, ?_⟩
        by_contra hnot
        refine hc ?_
        change heap c = P.heap c
        rw [hheap]
        exact Memory.scatter_of_not_mem fun hm => hnot (List.mem_of_mem_take hm)
    exact ⟨hok, hkept, rfl⟩
  · cases h

end Steps

/-! ### Completing calls -/

/-- What the four completing calls have in common: the requests `done` were
complete, and their callbacks have run, one request after the other. -/
structure Completes (P P' : Process α) (done : List OpId) : Prop where
  ended : ∀ op ∈ done, P.lib.status op ≠ .inFlight
  status : ∀ op, P.lib.status op = .inFlight → P'.lib.status op = .inFlight
  heap : P'.heap = (P.requests done).foldl (fun h req => req.complete h) P.heap
  length : P'.posted.length = P.posted.length
  others : ∀ op, op ∉ done → P'.posted[op]? = P.posted[op]?
  completed : ∀ op ∈ done, ∀ x, P.posted[op]? = some x →
    ∃ req, P'.posted[op]? = some { x with req := req, completed := true }
  users : P'.users = P.users
  nextAlloc : P'.nextAlloc = P.nextAlloc
  untouched : P'.untouched = P.untouched

section Completes

variable {P P' : Process α}

/-- The heap after the callbacks of some requests: only receive views were
written, and each holds what its buffer held. -/
theorem complete_all (hP : ProcessOk P) {done : List OpId} (hdone : P.Uncompleted done)
    {h : Heap α} :
    (∀ c, (P.requests done).foldl (fun h req => req.complete h) h c ≠ h c →
      ∃ op ∈ done, ∃ x, P.posted[op]? = some x ∧ x.isRecv = true ∧ c ∈ x.view.elements) ∧
    ∀ op ∈ done, ∀ x, P.posted[op]? = some x → x.isRecv = true →
      Memory.gather ((P.requests done).foldl (fun h req => req.complete h) h) x.view.elements =
        Memory.gather h x.buf.elements := by
  induction done generalizing h with
  | nil => simp [Process.requests]
  | cons op done ih =>
    obtain ⟨x, hx, hno⟩ := hdone.2 op (List.mem_cons_self ..)
    obtain ⟨hnot, hnd⟩ := List.nodup_cons.mp hdone.1
    have hrest : P.Uncompleted done :=
      ⟨hnd, fun op' hop' => hdone.2 op' (List.mem_cons_of_mem _ hop')⟩
    have hreqs : P.requests (op :: done) = x.req :: P.requests done := by
      simp [Process.requests, hx]
    obtain ⟨hframe, hunpack⟩ := ih hrest (h := x.req.complete h)
    rw [hreqs, List.foldl_cons]
    -- what the first request writes
    have hfirst : ∀ c, x.req.complete h c ≠ h c → x.isRecv = true ∧ c ∈ x.view.elements := by
      intro c hc
      rcases hP.slots op x hx with hs | hs
      · exact absurd (congrFun (hs.silent hno h) c) hc
      · refine ⟨hs.isRecv_eq, ?_⟩
        by_contra hout
        exact hc (hs.within hno h c hout)
    constructor
    · intro c hc
      by_cases heq : x.req.complete h c = h c
      · rw [← heq] at hc
        obtain ⟨op', hop', hx'⟩ := hframe c hc
        exact ⟨op', List.mem_cons_of_mem _ hop', hx'⟩
      · exact ⟨op, List.mem_cons_self .., x, hx, hfirst c heq⟩
    · intro op' hop' y hy hyr
      rcases List.mem_cons.mp hop' with rfl | hop'
      · -- the later callbacks leave its view alone
        rw [hx] at hy
        cases hy
        have hs : RecvSlot P op' x := hP.recvSlot hx hyr
        rw [← hs.unpacks hno h]
        refine gather_congr fun c hc => ?_
        by_contra hdiff
        obtain ⟨j, hj, z, hz, _, hcz⟩ := hframe c hdiff
        have hne : op' ≠ j := fun heq => hnot (heq ▸ hj)
        exact hP.apart op' j x z hne hx hz hyr c (List.mem_append_left _ hc)
          (List.mem_append_left _ hcz)
      · -- the first callback leaves its buffer alone
        rw [hunpack op' hop' y hy hyr]
        refine gather_congr fun c hc => ?_
        by_contra hdiff
        have hne : op' ≠ op := fun heq => hnot (heq ▸ hop')
        exact hP.apart op' op y x hne hy hx hyr c (List.mem_append_right _ hc)
          (List.mem_append_left _ (hfirst c hdiff).2)

theorem ProcessOk.completes (hP : ProcessOk P) {done : List OpId} (hdone : P.Uncompleted done)
    (h : Completes P P' done) :
    ProcessOk P' ∧ Kept P P' ∧ ∀ (op : OpId) (x' : Operation α), P'.posted[op]? = some x' →
      ∃ x, P.posted[op]? = some x ∧ x'.moved = x.moved := by
  obtain ⟨hwrites, hunpack⟩ := complete_all hP hdone (h := P.heap)
  rw [← h.heap] at hwrites hunpack
  have hl : Later P P' := .of_eq h.users (Nat.le_of_eq h.nextAlloc.symm)
  have hcases : ∀ (op : OpId) (x' : Operation α), P'.posted[op]? = some x' →
      (op ∉ done ∧ P.posted[op]? = some x') ∨
      (op ∈ done ∧ ∃ x req, P.posted[op]? = some x ∧ x.completed = false ∧
        x' = { x with req := req, completed := true }) := by
    intro op x' hx'
    by_cases hop : op ∈ done
    · obtain ⟨x, hx, hno⟩ := hdone.2 op hop
      obtain ⟨req, hreq⟩ := h.completed op hop x hx
      rw [hx'] at hreq
      exact .inr ⟨hop, x, req, hx, hno, Option.some.inj hreq⟩
    · exact .inl ⟨hop, (h.others op hop).symm.trans hx'⟩
  have hkept : Kept P P' := by
    refine ⟨h.length, fun op x' hx' => ?_⟩
    rcases hcases op x' hx' with ⟨_, hx⟩ | ⟨_, x, req, hx, _, rfl⟩
    · exact ⟨x', hx, .refl x'⟩
    · exact ⟨x, hx, rfl, rfl, rfl⟩
  refine ⟨hP.change hkept ?_ ?_ ?_ ?_, hkept, ?_⟩
  · intro op x' hx'
    rcases hcases op x' hx' with ⟨hop, hx⟩ | ⟨hop, x, req, hx, hno, rfl⟩
    · -- not completed by this call
      refine slots_agree (hP.slots op x' hx) hl (fun c hc => ?_) (h.status op)
      by_contra hdiff
      obtain ⟨j, hj, y, hy, hyr, hcy⟩ := hwrites c hdiff
      have hne : j ≠ op := fun heq => hop (heq ▸ hj)
      exact hP.apart j op y x' hne hy hx hyr c (List.mem_append_left _ hcy) hc
    · have hended := h.ended op hop
      rcases hP.slots op x hx with hs | hs
      · have hslot := hs.toSlot.later hl
        exact .inl
          { hs with
            user   := hslot.user
            own    := hslot.own
            handle := fun hno => by cases hno
            silent := fun hno => by cases hno
            unread := fun hm => absurd (hs.unread hm).1 hended }
      · have hslot := hs.toSlot.later hl
        refine .inr
          { hs with
            user    := hslot.user
            own     := hslot.own
            handle  := fun hno => by cases hno
            unpacks := fun hno => by cases hno
            within  := fun hno => by cases hno
            pending := fun hm => absurd (hs.pending hm).1 hended
            arrived := fun m hm hno => by cases hno
            done    := fun m hm _ => ?_ }
        rw [← hs.arrived m hm hno]
        exact hunpack op hop x hx hs.isRecv_eq
  · exact fun op hop => h.status op (hP.fresh op hop)
  · intro a ha
    rw [h.nextAlloc]
    exact hP.users a (h.users ▸ ha)
  · intro c hc hout
    rw [h.users, h.nextAlloc] at hc
    rw [h.untouched, ← hP.frame c hc hout]
    by_contra hdiff
    obtain ⟨j, _, y, hy, hyr, hcy⟩ := hwrites c hdiff
    exact hout y (List.mem_of_getElem? hy) hyr hcy
  · intro op x' hx'
    rcases hcases op x' hx' with ⟨_, hx⟩ | ⟨_, x, req, hx, _, rfl⟩
    · exact ⟨x', hx, rfl⟩
    · exact ⟨x, hx, rfl⟩

/-- The requests of a span have the handles of their operations. -/
theorem requests_getElem? {span : List OpId} (hspan : P.Uncompleted span) (i : Nat) :
    (P.requests span)[i]? = span[i]?.bind fun op => P.posted[op]?.map Operation.req := by
  refine filterMap_getElem? (fun op hop => ?_) i
  obtain ⟨x, hx, _⟩ := hspan.2 op hop
  simp [hx]

theorem length_requests {span : List OpId} (hspan : P.Uncompleted span) :
    (P.requests span).length = span.length := by
  refine length_filterMap_of_isSome fun op hop => ?_
  obtain ⟨x, hx, _⟩ := hspan.2 op hop
  simp [hx]

theorem map_request_requests (hP : ProcessOk P) {span : List OpId} (hspan : P.Uncompleted span) :
    (P.requests span).map Request.request_ = span.map some := by
  refine List.ext_getElem? fun i => ?_
  rw [List.getElem?_map, List.getElem?_map, requests_getElem? hspan]
  cases hi : span[i]? with
  | none => rfl
  | some op =>
    obtain ⟨x, hx, hno⟩ := hspan.2 op (List.mem_of_getElem? hi)
    simp [hx, (hP.slot hx).handle hno]

/-- `settle` with what a completing call returned. -/
theorem completes_settle {span done : List OpId} {reqs : List (Request Callback)}
    {ran : List Callback} {passed reported : List MpiRequest}
    (hended : ∀ op ∈ done, P.lib.status op ≠ .inFlight)
    (hreported : ∀ op, some op ∈ reported → P.lib.status op ≠ .inFlight)
    (hran : ran = (P.requests done).flatMap Request.callbacks_)
    (hothers : ∀ op, op ∉ done → ∀ x, P.posted[op]? = some x →
      (reqs[span.idxOf op]?).getD x.req = x.req) :
    Completes P (P.settle span reqs ran (P.lib.settle passed reported) done) done where
  ended := hended
  status := by
    intro op hin
    by_cases hr : some op ∈ reported
    · exact absurd hin (hreported op hr)
    · simpa [Process.settle, Library.settle_status_of_not_mem hr] using hin
  heap := by
    simp only [Process.settle, hran, List.foldl_flatMap]
    rfl
  length := by simp [Process.settle]
  others := by
    intro op hop
    simp only [Process.settle, List.getElem?_mapIdx]
    cases hx : P.posted[op]? with
    | none => rfl
    | some x => simp [hothers op hop x hx, hop]
  completed := by
    intro op hop x hx
    refine ⟨(reqs[span.idxOf op]?).getD x.req, ?_⟩
    simp [Process.settle, hx, hop]
  users := rfl
  nextAlloc := rfl
  untouched := rfl

/-- A span of one request leaves all others as they are. -/
theorem getD_singleton {op j : OpId} (hne : j ≠ op) (req req' : Request Callback) :
    ([req][List.idxOf j [op]]?).getD req' = req' := by
  have hne' : ¬ op = j := fun h => hne h.symm
  simp [hne']

variable {op : OpId} {span : List OpId} {pick : Nat}

theorem ProcessOk.wait (hP : ProcessOk P) (hop : P.Uncompleted [op])
    (h : P.wait op = .returns P') : Completes P P' [op] := by
  obtain ⟨x, hx, hno⟩ := hop.2 op (List.mem_singleton_self op)
  have hhandle := (hP.slot hx).handle hno
  unfold Process.wait at h
  rw [hx] at h
  obtain ⟨⟨ran, req, lib⟩, hwait, h⟩ := Outcome.bind_eq_returns.mp h
  obtain ⟨hdone, hout⟩ := Request.wait_eq_returns hwait
  cases hout
  cases h
  rw [hhandle] at hdone ⊢
  have hended := Library.done_iff.mp hdone
  refine completes_settle ?_ ?_ ?_ ?_
  · simpa using hended
  · simpa using hended
  · simp [Process.requests, hx]
  · intro j hj y _
    exact getD_singleton (by simpa using hj) _ _

theorem ProcessOk.test (hP : ProcessOk P) (hop : P.Uncompleted [op])
    (h : P.test op = .returns P') : Completes P P' [op] ∨ Completes P P' [] := by
  obtain ⟨x, hx, hno⟩ := hop.2 op (List.mem_singleton_self op)
  have hhandle := (hP.slot hx).handle hno
  unfold Process.test at h
  rw [hx] at h
  obtain ⟨⟨completed, ran, req, lib⟩, htest, h⟩ := Outcome.bind_eq_returns.mp h
  rcases Request.test_eq_returns htest with ⟨hdone, hout⟩ | ⟨_, hout⟩
  · cases hout
    cases h
    rw [hhandle] at hdone ⊢
    have hended := Library.done_iff.mp hdone
    refine .inl (completes_settle ?_ ?_ ?_ ?_)
    · simpa using hended
    · simpa using hended
    · simp [Process.requests, hx]
    · intro j hj y _
      exact getD_singleton (by simpa using hj) _ _
  · cases hout
    cases h
    refine .inr (completes_settle ?_ ?_ ?_ ?_)
    · simp
    · simp
    · rfl
    · intro j _ y hy
      by_cases hj : j = op
      · subst hj
        rw [hx] at hy
        cases hy
        simp
      · exact getD_singleton hj _ _

theorem ProcessOk.waitAll (hP : ProcessOk P) (hspan : P.Uncompleted span)
    (hfit : span.length < 2147483648) (h : P.waitAll span = .returns P') :
    Completes P P' span := by
  unfold Process.waitAll at h
  obtain ⟨⟨ran, reqs, lib⟩, hwait, h⟩ := Outcome.bind_eq_returns.mp h
  obtain ⟨_, hall, hout⟩ := waitAll_eq_returns hwait
  cases hout
  cases h
  -- the count is exact, so MPI waits for every request of the span
  have hpassed : passedHandles (P.requests span) = span.map some := by
    rw [passedHandles, length_requests hspan, CInt.ofSize_of_lt hfit, map_request_requests hP hspan,
      Int.toNat_natCast, List.take_of_length_le (by simp)]
  rw [hpassed] at hall ⊢
  have hended : ∀ op ∈ span, P.lib.status op ≠ .inFlight := by
    intro op hop
    have := List.all_eq_true.mp hall (some op) (List.mem_map_of_mem hop)
    exact Library.done_iff.mp this
  refine completes_settle hended ?_ rfl ?_
  · intro op hm
    exact hended op (by simpa using hm)
  · intro op hop x _
    rw [List.idxOf_eq_length hop, List.getElem?_eq_none (by simp [length_requests hspan])]
    rfl

/-- A request of the span that the call left as it was is still the one of
its operation. -/
theorem getD_idxOf (hspan : P.Uncompleted span) {reqs : List (Request Callback)}
    (hlen : reqs.length = span.length) {j : OpId} {x : Operation α} (hx : P.posted[j]? = some x)
    (hsame : ∀ i : Nat, span[i]? = some j → reqs[i]? = (P.requests span)[i]?) :
    (reqs[span.idxOf j]?).getD x.req = x.req := by
  by_cases hmem : j ∈ span
  · have hidx : span[span.idxOf j]? = some j := by
      rw [List.getElem?_eq_getElem (List.idxOf_lt_length_iff.mpr hmem), List.getElem_idxOf]
    rw [hsame _ hidx, requests_getElem? hspan, hidx]
    simp [hx]
  · rw [List.idxOf_eq_length hmem, ← hlen, List.getElem?_eq_none (Nat.le_refl _)]
    rfl

theorem ProcessOk.waitAny (hP : ProcessOk P) (hspan : P.Uncompleted span)
    (h : P.waitAny span pick = .returns P') :
    ∃ done, P.Uncompleted done ∧ Completes P P' done := by
  unfold Process.waitAny at h
  obtain ⟨⟨i, ran, reqs, lib⟩, hwait, h⟩ := Outcome.bind_eq_returns.mp h
  rcases waitAny_eq_returns hwait with ⟨_, hout⟩ | ⟨op, req, hpick, hdone, hreq, hop, hout⟩
  · cases hout
    cases h
    refine ⟨[], ⟨List.nodup_nil, by simp⟩, ?_⟩
    have hset : Completes P (P.settle span (P.requests span) [] (P.lib.settle [] []) []) [] :=
      completes_settle (by simp) (by simp) rfl fun j _ x hx =>
        getD_idxOf hspan (length_requests hspan) hx fun _ _ => rfl
    rw [Library.settle_nil] at hset
    exact hset
  · cases hout
    cases h
    -- the operation completed is the one at `pick`
    have hat : span[pick]? = some op ∧ P.requests [op] = [req] := by
      rw [requests_getElem? hspan] at hreq
      obtain ⟨op', hop', hx'⟩ := Option.bind_eq_some_iff.mp hreq
      obtain ⟨x, hx, rfl⟩ := Option.map_eq_some_iff.mp hx'
      obtain ⟨y, hy, hno⟩ := hspan.2 op' (List.mem_of_getElem? hop')
      rw [hx] at hy
      cases hy
      rw [(hP.slot hx).handle hno] at hop
      obtain rfl := Option.some.inj hop
      exact ⟨hop', by simp [Process.requests, hx]⟩
    have hended := Library.done_iff.mp hdone
    have hone : P.Uncompleted [op] := by
      refine ⟨List.nodup_singleton op, ?_⟩
      intro j hj
      rw [List.mem_singleton.mp hj]
      exact hspan.2 op (List.mem_of_getElem? hat.1)
    refine ⟨[op], hone, ?_⟩
    have hdoneList : (Option.bind (some (pick : Int)) fun i => span[i.toNat]?).toList = [op] := by
      simp [hat.1]
    rw [hdoneList]
    refine completes_settle ?_ ?_ ?_ ?_
    · simpa using hended
    · simpa using hended
    · simp [hat.2]
    · intro j hj x hx
      refine getD_idxOf hspan (by simp [length_requests hspan]) hx fun i hi => ?_
      have hne : pick ≠ i := by
        rintro rfl
        rw [hat.1] at hi
        exact hj (by simp [Option.some.inj hi])
      rw [List.getElem?_set_ne hne]

end Completes

/-! ### Steps of the user -/

section User

variable {P : Process α}

theorem Kept.of_posted {P P' : Process α} (h : P'.posted = P.posted) : Kept P P' :=
  ⟨by rw [h], fun _ x' hx' => ⟨x', h ▸ hx', .refl x'⟩⟩

/-- The user writes to a cell that is not in use. -/
theorem ProcessOk.write (hP : ProcessOk P) {c : Cell} (hc : c.1 ∈ P.users)
    (hfree : ∀ x ∈ P.posted, (x.call.recvbuf.isSome = true ∨ x.completed = false) →
      c ∉ x.view.elements) (v : α) :
    ProcessOk { P with
      heap      := Function.update P.heap c v
      untouched := Function.update P.untouched c v } := by
  refine hP.change (Kept.of_posted rfl) ?_ (fun op hop => hP.fresh op hop) hP.users ?_
  · intro op x hx
    have hl : Later P { P with
        heap      := Function.update P.heap c v
        untouched := Function.update P.untouched c v } := .of_eq rfl (Nat.le_refl _)
    by_cases hidle : x.isRecv = false ∧ x.completed = true
    · -- a completed send has nothing more to send
      have hs := hP.sendSlot hx hidle.1
      exact .inl
        { hs with
          toSlot := hs.toSlot.later hl
          unread := fun hm => by simp [(hs.unread hm).2.1] at hidle }
    · have hnot : c ∉ x.view.elements := by
        refine hfree x (List.mem_of_getElem? hx) ?_
        rw [not_and_or, Bool.not_eq_false, Bool.not_eq_true] at hidle
        exact hidle
      refine slots_agree (hP.slots op x hx) hl (fun d hd => ?_) id
      refine Function.update_of_ne ?_ _ _
      rintro rfl
      rcases List.mem_append.mp hd with hd | hd
      · exact hnot hd
      · rcases (hP.slot hx).own with heq | ⟨hout, _⟩
        · exact hnot (heq ▸ hd)
        · exact hout (View.fst_of_mem_elements hd ▸ hc)
  · intro d hd hout
    by_cases hdc : d = c
    · subst hdc
      simp
    · simpa [Function.update_of_ne hdc] using hP.frame d hd hout

theorem ProcessOk.allocate (hP : ProcessOk P) :
    ProcessOk { P with
      nextAlloc := P.nextAlloc + 1
      users     := P.nextAlloc :: P.users } := by
  have hl : Later P { P with
      nextAlloc := P.nextAlloc + 1
      users     := P.nextAlloc :: P.users } := by
    refine ⟨fun a ha => List.mem_cons_of_mem _ ha, fun a hlt ha => ?_, Nat.le_succ _⟩
    exact (List.mem_cons.mp ha).resolve_left (Nat.ne_of_lt hlt)
  refine hP.change (Kept.of_posted rfl) ?_ (fun op hop => hP.fresh op hop) ?_ ?_
  · exact fun op x hx => slots_agree (hP.slots op x hx) hl (fun _ _ => rfl) id
  · intro a ha
    rcases List.mem_cons.mp ha with rfl | ha
    · exact Nat.lt_succ_self _
    · exact Nat.lt_succ_of_lt (hP.users a ha)
  · intro c hc hout
    refine hP.frame c ?_ hout
    rcases hc with hc | hc
    · rcases List.mem_cons.mp hc with heq | hc
      · exact .inr (Nat.le_of_eq heq.symm)
      · exact .inl hc
    · exact .inr (Nat.le_of_succ_le hc)

end User

/-- A step that posts nothing and brings no message. -/
structure Quiet (P P' : Process α) : Prop where
  ok : ProcessOk P'
  kept : Kept P P'
  moved : ∀ (op : OpId) (x' : Operation α), P'.posted[op]? = some x' → x'.isRecv = true →
    ∃ x, P.posted[op]? = some x ∧ x'.moved = x.moved

theorem Quiet.of_posted {P P' : Process α} (hok : ProcessOk P') (h : P'.posted = P.posted) :
    Quiet P P' where
  ok := hok
  kept := .of_posted h
  moved := fun _ x' hx' _ => ⟨x', h ▸ hx', rfl⟩

theorem Completes.quiet {P P' : Process α} {done : List OpId} (h : Completes P P' done)
    (hP : ProcessOk P) (hdone : P.Uncompleted done) : Quiet P P' := by
  obtain ⟨hok, hkept, hmoved⟩ := hP.completes hdone h
  exact ⟨hok, hkept, fun op x' hx' _ => hmoved op x' hx'⟩

/-! ## §4 The network -/

namespace Process

/-- `x` is the `k`-th operation of a kind, and has the handle `op`. -/
structure Nth (P : Process α) (kind : MpiCall → Bool) (k : Nat) (op : OpId) (x : Operation α) :
    Prop where
  place : (P.ops kind)[k]? = some op
  posted : P.posted[op]? = some x

section Nth

variable {P P' : Process α} {kind : MpiCall → Bool} {k k' : Nat} {op : OpId} {x x' : Operation α}

theorem lt_of_mem_ops (h : op ∈ P.ops kind) : op < P.posted.length := by
  simpa using (List.mem_findIdxs_iff_exists_getElem_pos.mp h).1

theorem Nth.kind_eq (h : P.Nth kind k op x) : kind x.call = true := by
  obtain ⟨hlt, hkind⟩ := List.mem_findIdxs_iff_exists_getElem_pos.mp (List.mem_of_getElem? h.place)
  have hget := List.getElem?_eq_getElem hlt
  rw [List.getElem?_map, h.posted] at hget
  rwa [← Option.some.inj hget] at hkind

/-- An operation has one place among those of its kind. -/
theorem Nth.inj (h : P.Nth kind k op x) (h' : P.Nth kind k' op x') : k = k' :=
  (List.getElem?_inj (List.getElem?_eq_some_iff.mp h.place).1 List.nodup_findIdxs).mp
    (h.place.trans h'.place.symm)

/-- The operations keep their places. -/
theorem Nth.kept (h : P'.Nth kind k op x') (hkept : Kept P P') :
    ∃ x, P.Nth kind k op x ∧ Evolves x x' := by
  obtain ⟨x, hx, hev⟩ := hkept.posted op x' h.posted
  refine ⟨x, ⟨?_, hx⟩, hev⟩
  have := h.place
  rwa [ops, hkept.calls] at this

theorem Nth.forward (h : P.Nth kind k op x) (hkept : Kept P P') :
    ∃ x', P'.Nth kind k op x' ∧ Evolves x x' := by
  obtain ⟨x', hx', hev⟩ := hkept.forward h.posted
  refine ⟨x', ⟨?_, hx'⟩, hev⟩
  rw [ops, hkept.calls]
  exact h.place

theorem ops_append (h : Appends P P' x) :
    P'.ops kind = P.ops kind ++ if kind x.call then [P.posted.length] else [] := by
  simp [ops, h.posted, List.findIdxs_append]

theorem Nth.append (hx : P.Nth kind k op x) {y : Operation α} (h : Appends P P' y) :
    P'.Nth kind k op x := by
  refine ⟨?_, h.getElem?.mpr (.inl hx.posted)⟩
  rw [ops_append h, List.getElem?_append_left (List.getElem?_eq_some_iff.mp hx.place).1]
  exact hx.place

/-- A new operation comes last. -/
theorem Nth.of_append {y : Operation α} (h : Appends P P' x) (hy : P'.Nth kind k op y) :
    P.Nth kind k op y ∨ kind x.call = true ∧ k = (P.ops kind).length ∧ y = x := by
  have hplace := hy.place
  rw [ops_append h] at hplace
  by_cases hk : k < (P.ops kind).length
  · rw [List.getElem?_append_left hk] at hplace
    have hlt := lt_of_mem_ops (List.mem_of_getElem? hplace)
    refine .inl ⟨hplace, (h.getElem?.mp hy.posted).resolve_right ?_⟩
    rintro ⟨rfl, _⟩
    exact Nat.lt_irrefl _ hlt
  · rw [List.getElem?_append_right (Nat.not_lt.mp hk)] at hplace
    have hkind : kind x.call = true := by
      by_contra hkind
      simp [hkind] at hplace
    simp only [hkind, if_true, List.getElem?_singleton] at hplace
    have hzero : k - (P.ops kind).length = 0 := by
      by_contra hzero
      simp [hzero] at hplace
    rw [if_pos hzero] at hplace
    obtain rfl := Option.some.inj hplace
    refine .inr ⟨hkind, by omega, ?_⟩
    rcases h.getElem?.mp hy.posted with hy | ⟨_, hy⟩
    · exact absurd (List.getElem?_eq_some_iff.mp hy).1 (Nat.lt_irrefl _)
    · exact hy

end Nth

end Process

section Network

variable {mode : CommunicationMode} {comm : MpiComm} {w w' : Network α}

/-- The k-th send and the k-th receive have equal extents, and a message
that has arrived is what the view of its send held. -/
structure NetworkOk (comm : MpiComm) (w : Network α) : Prop where
  procs : ∀ p, ProcessOk (w p)
  extents : ∀ {a b : Int} {k : Nat} {i j : OpId} {x y : Operation α},
    (w a).Nth (MpiCall.isSendTo comm b) k i x → (w b).Nth (MpiCall.isRecvFrom comm a) k j y →
      x.view.extents = y.view.extents
  messages : ∀ {a b : Int} {k : Nat} {j : OpId} {y : Operation α} {m : List α},
    (w b).Nth (MpiCall.isRecvFrom comm a) k j y → y.moved = some m →
      ∃ i x, (w a).Nth (MpiCall.isSendTo comm b) k i x ∧ x.held = m

theorem networkOk_start (heaps : Int → Heap α) (allocs : Int → Nat) :
    NetworkOk comm (Network.start heaps allocs) where
  procs := fun p => processOk_start _ _
  extents := fun h _ => by simp [Network.start, Process.start] at h; cases h.posted
  messages := fun h _ => by cases h.posted

theorem MpiCall.isSendTo_iff {b : Int} {call : MpiCall} :
    call.isSendTo comm b = true ↔
      call.fn.sendEnvelope = some (b, pointToPointTag) ∧ call.comm = comm := by
  simp [MpiCall.isSendTo]

theorem MpiCall.isRecvFrom_iff {a : Int} {call : MpiCall} :
    call.isRecvFrom comm a = true ↔
      call.fn.recvEnvelope = some (a, pointToPointTag) ∧ call.comm = comm := by
  simp [MpiCall.isRecvFrom]

section Kinds

variable {P : Process α} {a b : Int} {k : Nat} {op : OpId} {x : Operation α}

theorem ProcessOk.send_of_nth (hP : ProcessOk P) (h : P.Nth (MpiCall.isSendTo comm b) k op x) :
    SendSlot P op x := by
  refine (hP.slots op x h.posted).resolve_right fun hr => ?_
  have := (MpiCall.isSendTo_iff.mp h.kind_eq).1
  rw [hr.notSend] at this
  cases this

theorem ProcessOk.recv_of_nth (hP : ProcessOk P) (h : P.Nth (MpiCall.isRecvFrom comm a) k op x) :
    RecvSlot P op x := by
  refine (hP.slots op x h.posted).resolve_left fun hs => ?_
  have := (MpiCall.isRecvFrom_iff.mp h.kind_eq).1
  rw [hs.notRecv] at this
  cases this

end Kinds

/-- What a network in order has delivered. -/
theorem NetworkOk.delivers (hw : NetworkOk comm w) : w.Delivers comm := by
  constructor
  · intro a b k j y hk hy hyes
    have hnth : (w b).Nth (MpiCall.isRecvFrom comm a) k j y := ⟨hk, hy⟩
    have hs := (hw.procs b).recv_of_nth hnth
    cases hm : y.moved with
    | none =>
      rw [(hs.pending hm).2] at hyes
      cases hyes
    | some m =>
      obtain ⟨i, x, hx, rfl⟩ := hw.messages hnth hm
      exact ⟨i, x, hx.place, hx.posted, hs.done _ hm hyes⟩
  · intro p c hc hout
    exact (hw.procs p).frame c (.inl hc) hout

/-- A step in which no process posts: what arrives must be the message of
its place. -/
theorem NetworkOk.keep (hw : NetworkOk comm w) (hprocs : ∀ p, ProcessOk (w' p))
    (hkept : ∀ p, Kept (w p) (w' p))
    (hmoved : ∀ {a b : Int} {k : Nat} {j : OpId} {y' : Operation α} {m : List α},
      (w' b).Nth (MpiCall.isRecvFrom comm a) k j y' → y'.moved = some m →
        ∃ i x, (w a).Nth (MpiCall.isSendTo comm b) k i x ∧ x.held = m) : NetworkOk comm w' where
  procs := hprocs
  extents := by
    intro a b k i j x' y' hx' hy'
    obtain ⟨x, hx, hxx⟩ := hx'.kept (hkept a)
    obtain ⟨y, hy, hyy⟩ := hy'.kept (hkept b)
    rw [hxx.view, hyy.view]
    exact hw.extents hx hy
  messages := by
    intro a b k j y' m hy' hm
    obtain ⟨i, x, hx, rfl⟩ := hmoved hy' hm
    obtain ⟨x', hx', hev⟩ := hx.forward (hkept a)
    exact ⟨i, x', hx', hev.held⟩

theorem forall_update {P : Process α} {p : Int} {R : Process α → Process α → Prop}
    (hrefl : ∀ Q, R Q Q) (h : R (w p) P) (q : Int) : R (w q) (Function.update w p P q) := by
  by_cases hq : q = p
  · subst hq
    rwa [Function.update_self]
  · rw [Function.update_of_ne hq]
    exact hrefl _

theorem Kept.refl (P : Process α) : Kept P P := .of_posted rfl

theorem NetworkOk.procs_update (hw : NetworkOk comm w) {p : Int} {P : Process α}
    (hP : ProcessOk P) (q : Int) : ProcessOk (Function.update w p P q) :=
  forall_update (R := fun Q Q' => ProcessOk Q → ProcessOk Q') (fun _ h => h) (fun _ => hP) q
    (hw.procs q)

theorem NetworkOk.quiet (hw : NetworkOk comm w) {p : Int} {P : Process α}
    (h : Quiet (w p) P) : NetworkOk comm (Function.update w p P) := by
  refine hw.keep (hw.procs_update h.ok) (forall_update Kept.refl h.kept) ?_
  intro a b k j y' m hy' hm
  have hr : y'.isRecv = true :=
    ((hw.procs_update h.ok b).recv_of_nth hy').isRecv_eq
  -- what the receive has got, it had got before
  have hback : ∃ y, (w b).posted[j]? = some y ∧ y'.moved = y.moved :=
    forall_update (w := w) (P := P)
      (R := fun Q Q' => ∀ y' : Operation α, Q'.posted[j]? = some y' → y'.isRecv = true →
        ∃ y, Q.posted[j]? = some y ∧ y'.moved = y.moved)
      (fun Q y hy _ => ⟨y, hy, rfl⟩) (h.moved j) b y' hy'.posted hr
  obtain ⟨y, hy, hmoved⟩ := hback
  obtain ⟨z, hz, _⟩ := hy'.kept (forall_update Kept.refl h.kept b)
  obtain rfl : y = z := Option.some.inj (hy.symm.trans hz.posted)
  exact hw.messages hz (hmoved ▸ hm)

/-- The message of the k-th send arrives at the k-th receive. -/
theorem NetworkOk.deliver (hw : NetworkOk comm w) {a b : Int} {k : Nat} {i j : OpId}
    {message : List α} {P : Process α} (hi : (w.sends comm a b)[k]? = some i)
    (hj : (w.recvs comm a b)[k]? = some j)
    (hm : ((w a).posted[i]?).bind Operation.moved = some message)
    (h : (w b).arrive j message = .returns P) : NetworkOk comm (Function.update w b P) := by
  obtain ⟨x, hx, hmx⟩ := Option.bind_eq_some_iff.mp hm
  have hxn : (w a).Nth (MpiCall.isSendTo comm b) k i x := ⟨hi, hx⟩
  have hxs := (hw.procs a).send_of_nth hxn
  obtain rfl := hxs.read _ hmx
  obtain ⟨y, hy⟩ : ∃ y, (w b).posted[j]? = some y :=
    ⟨_, List.getElem?_eq_getElem (Process.lt_of_mem_ops (List.mem_of_getElem? hj))⟩
  have hyn : (w b).Nth (MpiCall.isRecvFrom comm a) k j y := ⟨hj, hy⟩
  have hys := (hw.procs b).recv_of_nth hyn
  have hlen : x.held.length = y.view.size := by
    rw [hxs.held, View.size, View.size, hw.extents hxn hyn]
  obtain ⟨hok, hkept, hposted⟩ := (hw.procs b).arrive hy hys.isRecv_eq hlen h
  refine hw.keep (hw.procs_update hok) (forall_update Kept.refl hkept) ?_
  intro a' b' k' j' z' m hz' hm'
  obtain ⟨z, hz, _⟩ := hz'.kept (forall_update Kept.refl hkept b')
  by_cases hb : b' = b
  · subst hb
    have hget := hz'.posted
    rw [Function.update_self, hposted] at hget
    rcases (getElem?_set_posted hy).mp hget with ⟨rfl, rfl⟩ | ⟨_, hget⟩
    · -- the receive that got it: one receive has one source and one place
      have hzk := (MpiCall.isRecvFrom_iff.mp hz.kind_eq).1
      obtain rfl : y = z := Option.some.inj (hy.symm.trans hz.posted)
      rw [(MpiCall.isRecvFrom_iff.mp hyn.kind_eq).1] at hzk
      obtain rfl : a = a' := (Prod.mk.inj (Option.some.inj hzk)).1
      obtain rfl := hz.inj hyn
      exact ⟨i, x, hxn, Option.some.inj hm'⟩
    · obtain rfl : z' = z := Option.some.inj (hget.symm.trans hz.posted)
      exact hw.messages hz hm'
  · have hget := hz'.posted
    rw [Function.update_of_ne hb] at hget
    obtain rfl : z' = z := Option.some.inj (hget.symm.trans hz.posted)
    exact hw.messages hz hm'

/-- A process posts an operation, whose partner, if there is one already,
has the same extents. -/
theorem NetworkOk.append (hw : NetworkOk comm w) {p : Int} {P : Process α} {x : Operation α}
    (hok : ProcessOk P) (h : Appends (w p) P x)
    (hsend : ∀ b, x.call.isSendTo comm b = true →
      Network.Agrees (w b) (w.recvs comm p b) (w.sends comm p b).length x.view.extents)
    (hrecv : ∀ a, x.call.isRecvFrom comm a = true →
      Network.Agrees (w a) (w.sends comm a p) (w.recvs comm a p).length x.view.extents) :
    NetworkOk comm (Function.update w p P) := by
  -- an operation of the new network is an old one, or the one just posted
  have hback : ∀ {q : Int} {kind : MpiCall → Bool} {k : Nat} {i : OpId} {y : Operation α},
      (Function.update w p P q).Nth kind k i y → (w q).Nth kind k i y ∨
        q = p ∧ kind x.call = true ∧ k = ((w p).ops kind).length ∧ y = x := by
    intro q kind k i y hy
    by_cases hq : q = p
    · subst hq
      rw [Function.update_self] at hy
      exact (hy.of_append h).imp_right fun hnew => ⟨rfl, hnew⟩
    · rw [Function.update_of_ne hq] at hy
      exact .inl hy
  constructor
  · exact hw.procs_update hok
  · intro a b k i j y z hy hz
    rcases hback hy with hold | ⟨rfl, hkind, rfl, rfl⟩
    · rcases hback hz with hz | ⟨rfl, hkind, rfl, rfl⟩
      · exact hw.extents hold hz
      · exact hrecv a hkind i y hold.place hold.posted
    · rcases hback hz with hold | ⟨rfl, _, _, rfl⟩
      · exact (hsend b hkind j z hold.place hold.posted).symm
      · rfl
  · intro a b k j y m hy hm
    rcases hback hy with hy | ⟨_, _, _, rfl⟩
    · obtain ⟨i, z, hz, rfl⟩ := hw.messages hy hm
      refine ⟨i, z, ?_, rfl⟩
      exact forall_update (w := w) (P := P) (R := fun Q Q' =>
        Q.Nth (MpiCall.isSendTo comm b) k i z → Q'.Nth (MpiCall.isSendTo comm b) k i z)
        (fun _ hz => hz) (fun hz => hz.append h) a hz
    · rw [h.moved] at hm
      cases hm

theorem Network.on_eq_returns {p : Int} {call : Process α → Outcome (Process α)} :
    w.on p call = .returns w' ↔ ∃ P, call (w p) = .returns P ∧ Function.update w p P = w' := by
  unfold Network.on
  rw [Outcome.bind_eq_returns]
  simp

/-- One step of an allowed run whose counts fit. -/
theorem NetworkOk.step (hw : NetworkOk comm w) {x : NetAct α}
    (h : w.step mode comm x = some w') (hallowed : w.Allowed comm x)
    (hfit : Network.CountsFit x) : NetworkOk comm w' := by
  replace h : w.perform mode comm x = .returns w' := Outcome.toOption_eq_some.mp h
  cases x with
  | send p sv dest =>
    simp only [Network.perform, Network.on_eq_returns] at h
    obtain ⟨P, hP, rfl⟩ := h
    obtain ⟨hown, hapart, hagree⟩ := hallowed
    obtain ⟨y, happ, hslot, rfl, henv, hcomm⟩ := post_send (hw.procs p) hown hfit hP
    refine hw.append ((hw.procs p).append happ (.inl hslot) ?_) happ ?_ ?_
    · intro z hz hr
      exact hapart z hz (hr.resolve_left (by simp [hslot.isRecv_eq]))
    · intro b hb
      have hb := (MpiCall.isSendTo_iff.mp hb).1
      rw [henv] at hb
      obtain rfl := (Prod.mk.inj (Option.some.inj hb)).1
      exact hagree
    · intro a ha
      have ha := (MpiCall.isRecvFrom_iff.mp ha).1
      rw [hslot.notRecv] at ha
      cases ha
  | recv p rv src =>
    simp only [Network.perform, Network.on_eq_returns] at h
    obtain ⟨P, hP, rfl⟩ := h
    obtain ⟨hown, hapart, hagree⟩ := hallowed
    obtain ⟨y, happ, hslot, rfl, henv, hcomm⟩ := post_recv (hw.procs p) hown hfit.1 hfit.2 hP
    refine hw.append ((hw.procs p).append happ (.inr hslot) ?_) happ ?_ ?_
    · intro z hz _
      exact hapart z hz rfl
    · intro b hb
      have hb := (MpiCall.isSendTo_iff.mp hb).1
      rw [hslot.notSend] at hb
      cases hb
    · intro a ha
      have ha := (MpiCall.isRecvFrom_iff.mp ha).1
      rw [henv] at ha
      obtain rfl := (Prod.mk.inj (Option.some.inj ha)).1
      exact hagree
  | capture p op =>
    simp only [Network.perform, Network.on_eq_returns] at h
    obtain ⟨P, hP, rfl⟩ := h
    obtain ⟨hok, hkept, hsame⟩ := (hw.procs p).capture hP
    exact hw.quiet ⟨hok, hkept, fun j y hy hr => ⟨y, hsame j y hy hr, rfl⟩⟩
  | finish p op =>
    simp only [Network.perform, Network.on_eq_returns] at h
    obtain ⟨P, hP, rfl⟩ := h
    obtain ⟨hok, hposted⟩ := (hw.procs p).finish hP
    exact hw.quiet (.of_posted hok hposted)
  | deliver a b k =>
    simp only [Network.perform] at h
    split at h
    · rename_i i j hi hj
      split at h
      · rename_i message hm
        obtain ⟨P, hP, rfl⟩ := Network.on_eq_returns.mp h
        exact hw.deliver hi hj hm hP
      · cases h
    · cases h
  | wait p op =>
    simp only [Network.perform, Network.on_eq_returns] at h
    obtain ⟨P, hP, rfl⟩ := h
    exact hw.quiet (((hw.procs p).wait hallowed hP).quiet (hw.procs p) hallowed)
  | test p op =>
    simp only [Network.perform, Network.on_eq_returns] at h
    obtain ⟨P, hP, rfl⟩ := h
    rcases (hw.procs p).test hallowed hP with hdone | hdone
    · exact hw.quiet (hdone.quiet (hw.procs p) hallowed)
    · exact hw.quiet (hdone.quiet (hw.procs p) ⟨List.nodup_nil, by simp⟩)
  | waitAll p span =>
    simp only [Network.perform, Network.on_eq_returns] at h
    obtain ⟨P, hP, rfl⟩ := h
    exact hw.quiet (((hw.procs p).waitAll hallowed hfit hP).quiet (hw.procs p) hallowed)
  | waitAny p span pick =>
    simp only [Network.perform, Network.on_eq_returns] at h
    obtain ⟨P, hP, rfl⟩ := h
    obtain ⟨done, hun, hdone⟩ := (hw.procs p).waitAny hallowed hP
    exact hw.quiet (hdone.quiet (hw.procs p) hun)
  | write p c v =>
    simp only [Network.perform, Network.on_eq_returns] at h
    obtain ⟨P, hP, rfl⟩ := h
    cases hP
    exact hw.quiet (.of_posted ((hw.procs p).write hallowed.1 hallowed.2 v) rfl)
  | allocate p =>
    simp only [Network.perform, Network.on_eq_returns] at h
    obtain ⟨P, hP, rfl⟩ := h
    cases hP
    exact hw.quiet (.of_posted (hw.procs p).allocate rfl)

/-- Over every run: as long as the user keeps the rules and the counts fit,
every completed receive holds what was sent to it, and nothing else of the
user has been touched. -/
theorem delivers_of_countsFit (mode : CommunicationMode) (comm : MpiComm)
    (heaps : Int → Heap α) (allocs : Int → Nat) (acts : List (NetAct α))
    (h : Lts.AllSteps (Network.step mode comm)
      (fun w x _ => w.Allowed comm x ∧ Network.CountsFit x) (Network.start heaps allocs) acts) :
    Lts.AllStates (Network.step mode comm) (Network.Delivers comm)
      (Network.start heaps allocs) acts :=
  Lts.allStates_of_inv (I := NetworkOk comm)
    (fun _ _ _ hw hs hok => hw.step hs hok.1 hok.2) (fun _ hw => hw.delivers)
    (networkOk_start heaps allocs) h

end Network

/-! ### Two runs -/

/-- Process 0 sends every third element of a row, then another row, to
process 1, which completes the two receives in the other order. -/
def rowsOfTwo : List (NetAct Nat) :=
  [.send 0 (.line 0 0 2 3) 1, .recv 1 (.line 0 0 2 1) 0, .recv 1 (.line 0 2 2 2) 0,
    .send 0 (.line 1 0 2 1) 1, .capture 0 1, .capture 0 0, .deliver 0 1 1, .deliver 0 1 0,
    .finish 0 1, .waitAny 1 [0, 1] 1, .finish 0 0, .waitAll 0 [0, 1], .write 0 (0, 0) 7, .test 1 0]

theorem delivers_rowsOfTwo :
    Lts.AllStates (Network.step .standard 0) (Network.Delivers 0)
      (Network.start (fun _ c => 10 * c.1 + c.2) fun _ => 2) rowsOfTwo :=
  delivers_of_countsFit .standard 0 _ _ _ (by decide +kernel)

section Wrap

/-- Process 0 sends `n` elements to itself. -/
def selfSend (n : Nat) : List (NetAct Bool) :=
  [.send 0 (.line 0 0 n 1) 0, .recv 0 (.line 1 0 n 1) 0, .capture 0 0, .deliver 0 0 0,
    .finish 0 0, .wait 0 0, .wait 0 1]

/-- The allocation that is sent holds `true` everywhere, no other one does. -/
def marked : Heap Bool := fun c => c.1 == 0

def markedStart : Network Bool := Network.start (fun _ => marked) fun _ => 2

/-- The send and the receive of `selfSend`, when both have a count of 0. -/
def emptySend (n : Nat) (moved : Option (List Bool)) (completed : Bool) : Operation Bool where
  call := { fn := .mpiIsend 0 pointToPointTag, sendbuf := some (.line 0 0 n 1), sendcount := 0,
            recvbuf := none, recvcount := 0, comm := 0 }
  view := .line 0 0 n 1
  held := Memory.gather marked (View.line 0 0 n 1).elements
  moved := moved
  req :=
    if completed then .new none else (Request.new (some 0)).extendViewLifetime (.line 0 0 n 1)
  completed := completed

def emptyRecv (n : Nat) (moved : Option (List Bool)) (completed : Bool) : Operation Bool where
  call := { fn := .mpiIrecv 0 pointToPointTag, sendbuf := none, sendcount := 0,
            recvbuf := some (.line 1 0 n 1), recvcount := 0, comm := 0 }
  view := .line 1 0 n 1
  held := Memory.gather marked (View.line 1 0 n 1).elements
  moved := moved
  req :=
    if completed then .new none else (Request.new (some 1)).extendViewLifetime (.line 1 0 n 1)
  completed := completed

/-- The states of the run: the heap stays as it was. -/
def emptyNetwork (lib : Library) (posted : List (Operation Bool)) : Network Bool :=
  Function.update markedStart 0 { Process.start marked 2 with lib := lib, posted := posted }

variable {n : Nat} {lib : Library} {posted : List (Operation Bool)}

theorem spanCount_line (h0 : CInt.ofSize n = 0) (a : AllocId) : spanCount (.line a 0 n 1) = 0 := by
  rw [spanCount_of_contiguous (View.isContiguous_line a 0 n)]
  simp [wireCount, View.size, View.line, h0]

/-- MPI before anything was started, and after both calls are over. -/
def idle : Library := { status := fun _ => .inFlight, stale := [] }

def bothOver : Library := ((idle.finish 1).finish 0)

theorem step_emptyNetwork {x : NetAct Bool} {f : Process Bool → Outcome (Process Bool)}
    (hx : (emptyNetwork lib posted).perform .standard 0 x = (emptyNetwork lib posted).on 0 f)
    {lib' : Library} {posted' : List (Operation Bool)}
    (h : f { Process.start marked 2 with lib := lib, posted := posted } =
      .returns { Process.start marked 2 with lib := lib', posted := posted' }) :
    (emptyNetwork lib posted).step .standard 0 x = some (emptyNetwork lib' posted') := by
  refine Outcome.toOption_eq_some.mpr ?_
  rw [hx]
  simp [Network.on, emptyNetwork, h]

theorem send_line (h0 : CInt.ofSize n = 0) :
    markedStart.step .standard 0 (.send 0 (.line 0 0 n 1) 0) =
      some (emptyNetwork idle [emptySend n none false]) := by
  refine Outcome.toOption_eq_some.mpr ?_
  simp [Network.perform, Network.on, Process.post, send, isendImpl_contiguous,
    View.isContiguous_line, Routine.start, MpiCall.validCounts, spanCount_line h0]
  rfl

theorem recv_line (h0 : CInt.ofSize n = 0) :
    (emptyNetwork idle [emptySend n none false]).step .standard 0 (.recv 0 (.line 1 0 n 1) 0) =
      some (emptyNetwork idle [emptySend n none false, emptyRecv n none false]) := by
  refine step_emptyNetwork (f := fun P => P.post _ (recv _ 0 0)) rfl ?_
  simp [Process.post, recv, recvExecute_contiguous, View.isContiguous_line, Routine.start,
    MpiCall.validCounts, spanCount_line h0]
  rfl

/-- The library accepts both calls, MPI carries them out. -/
theorem selfSend_run (h0 : CInt.ofSize n = 0) :
    Lts.AllSteps (Network.step .standard 0) (fun w x _ => w.Allowed 0 x) markedStart
      (selfSend n) ∧
    ∃ lib : Library, Lts.exec (Network.step .standard 0) markedStart (selfSend n) =
      some (emptyNetwork lib [emptySend n (some []) true, emptyRecv n (some []) true]) := by
  have hsend := send_line h0
  have hrecv := recv_line h0
  have hcapture : (emptyNetwork idle [emptySend n none false, emptyRecv n none false]).step
      .standard 0 (.capture 0 0) =
        some (emptyNetwork idle [emptySend n (some []) false, emptyRecv n none false]) :=
    step_emptyNetwork (f := fun P => P.capture 0) rfl rfl
  have hdeliver : (emptyNetwork idle [emptySend n (some []) false, emptyRecv n none false]).step
      .standard 0 (.deliver 0 0 0) =
        some (emptyNetwork (idle.finish 1)
          [emptySend n (some []) false, emptyRecv n (some []) false]) :=
    step_emptyNetwork (f := fun P => P.arrive 1 []) rfl rfl
  have hfinish : (emptyNetwork (idle.finish 1)
      [emptySend n (some []) false, emptyRecv n (some []) false]).step .standard 0 (.finish 0 0) =
        some (emptyNetwork bothOver [emptySend n (some []) false, emptyRecv n (some []) false]) :=
    step_emptyNetwork (f := fun P => P.finish 0) rfl rfl
  have hwait : (emptyNetwork bothOver
      [emptySend n (some []) false, emptyRecv n (some []) false]).step .standard 0 (.wait 0 0) =
        some (emptyNetwork (bothOver.settle [some 0] [some 0])
          [emptySend n (some []) true, emptyRecv n (some []) false]) :=
    step_emptyNetwork (f := fun P => P.wait 0) rfl rfl
  have hwait' : (emptyNetwork (bothOver.settle [some 0] [some 0])
      [emptySend n (some []) true, emptyRecv n (some []) false]).step .standard 0 (.wait 0 1) =
        some (emptyNetwork ((bothOver.settle [some 0] [some 0]).settle [some 1] [some 1])
          [emptySend n (some []) true, emptyRecv n (some []) true]) :=
    step_emptyNetwork (f := fun P => P.wait 1) rfl rfl
  constructor
  · unfold selfSend
    rw [Lts.allSteps_cons_of_eq hsend, Lts.allSteps_cons_of_eq hrecv,
      Lts.allSteps_cons_of_eq hcapture, Lts.allSteps_cons_of_eq hdeliver,
      Lts.allSteps_cons_of_eq hfinish, Lts.allSteps_cons_of_eq hwait,
      Lts.allSteps_cons_of_eq hwait']
    have husers : 0 ∈ List.range 2 ∧ 1 ∈ List.range 2 := by decide
    refine ⟨⟨⟨Nat.le_refl 1, husers.1⟩, ?_, ?_⟩, ⟨⟨Nat.le_refl 1, husers.2⟩, ?_, ?_⟩, trivial,
      trivial, trivial, ⟨by simp, ?_⟩, ⟨by simp, ?_⟩, trivial⟩
    · intro x hx
      cases hx
    · intro op x hop
      cases hop
    · intro x hx _ c hc hc'
      obtain rfl := List.mem_singleton.mp hx
      have h1 := View.fst_of_mem_elements hc
      rw [View.fst_of_mem_elements hc'] at h1
      cases h1
    · intro op x hop hx
      obtain rfl : 0 = op := Option.some.inj hop
      obtain rfl := Option.some.inj hx
      rfl
    · intro op hop
      obtain rfl := List.mem_singleton.mp hop
      exact ⟨_, rfl, rfl⟩
    · intro op hop
      obtain rfl := List.mem_singleton.mp hop
      exact ⟨_, rfl, rfl⟩
  · refine ⟨(bothOver.settle [some 0] [some 0]).settle [some 1] [some 1], ?_⟩
    simp only [selfSend, Lts.exec_cons, Lts.exec_nil, hsend, hrecv, hcapture, hdeliver, hfinish,
      hwait, hwait', Option.bind_some]

theorem gather_marked (a : AllocId) :
    Memory.gather marked (View.line a 0 n 1).elements = List.replicate n (a == 0) := by
  refine List.eq_replicate_iff.mpr ⟨by simp [View.size, View.line], fun x hx => ?_⟩
  obtain ⟨c, hc, rfl⟩ := List.mem_map.mp hx
  simp [marked, View.fst_of_mem_elements hc, View.line]

theorem selfSend_loses (h0 : CInt.ofSize n = 0) (hn : n ≠ 0) :
    ¬ Lts.AllStates (Network.step .standard 0) (Network.Delivers 0) markedStart
      (selfSend n) := by
  intro hall
  obtain ⟨_, lib, hexec⟩ := selfSend_run h0
  obtain ⟨i, x, hi, hx, hgather⟩ :=
    (hall.exec hexec).1 0 0 0 1 (emptyRecv n (some []) true) rfl rfl rfl
  obtain rfl : 0 = i := Option.some.inj hi
  obtain rfl := Option.some.inj hx
  have hsame : List.replicate n false = List.replicate n true := by
    have h0 := gather_marked (n := n) 0
    have h1 := gather_marked (n := n) 1
    exact (h1.symm.trans hgather).trans h0
  simp [hn] at hsame

/-- 2^32 elements are a count of 0. -/
theorem selfSend_wraps :
    Lts.AllSteps (Network.step .standard 0) (fun w x _ => w.Allowed 0 x) markedStart
      (selfSend 4294967296) ∧
    ¬ Lts.AllStates (Network.step .standard 0) (Network.Delivers 0) markedStart
      (selfSend 4294967296) :=
  have hzero : CInt.ofSize 4294967296 = 0 := by decide +kernel
  ⟨(selfSend_run hzero).1, selfSend_loses hzero (by decide)⟩

end Wrap

end KokkosComm.Mpi
