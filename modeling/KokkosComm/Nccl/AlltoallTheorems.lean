/-
KokkosComm.Nccl.AlltoallTheorems — when the sends and receives of
`nccl::alltoall` do what `ncclAlltoAll` does.

The loop computes the offset of block `r` as `r * count` on `int`. The
counts it passes on are the caller's, and the buffers may be larger than
an `int` can say, so the last offset decides.

§1 the loop: the calls it makes, or an overflow. §2 all ranks: the group
exchanges blocks, and that is the transposition `ncclAlltoAll` performs.
-/
import KokkosComm.Nccl.Collectives

namespace KokkosComm.Nccl

open BlockExchange Reduction Routine

variable {α : Type}

/-! ## §1 The loop -/

section Loop

variable (sv rv : View) (count : Int) (comm : NcclComm)

/-- The send of block `r`. -/
def sendCall (r : Nat) : NcclCall :=
  { fn := .ncclSend r, sendbuff := some { view := sv, offset := (r * count : Int).toNat },
    recvbuff := none, count := count, comm := comm }

/-- The receive of block `r`. -/
def recvCall (r : Nat) : NcclCall :=
  { fn := .ncclRecv r, sendbuff := none,
    recvbuff := some { view := rv, offset := (r * count : Int).toNat }, count := count,
    comm := comm }

/-- The calls for `k` ranks from `r` on. -/
def blockCalls (r k : Nat) : List NcclCall :=
  (List.range' r k).flatMap fun i => [sendCall sv count comm i, recvCall rv count comm i]

variable {count}

/-- No offset overflows. -/
theorem sendRecvLoop_returns (hcount : 0 ≤ count) {r k : Nat} {h : Host}
    (hfits : ∀ i, r ≤ i → i < r + k → i * count ≤ CInt.intMax) :
    sendRecvLoop sv rv count comm r k h = .returns ((),
      { h with trace := h.trace ++ (blockCalls sv rv count comm r k).map .nccl }) := by
  induction k generalizing r h with
  | zero => simp [sendRecvLoop, blockCalls]
  | succ k ih =>
    have hmul : CInt.mul r count = .returns (r * count) :=
      CInt.mul_of_le (Int.mul_nonneg (Int.natCast_nonneg r) hcount)
        (hfits r (Nat.le_refl r) (by omega))
    have hnext := ih (r := r + 1)
      (h := (h.log (.nccl (sendCall sv count comm r))).log (.nccl (recvCall rv count comm r)))
      fun i hle hlt => hfits i (by omega) (by omega)
    rw [sendRecvLoop]
    simp only [bind_apply, liftM_apply, hmul, Outcome.returns_bind, nccl, act_apply]
    refine hnext.trans ?_
    simp [blockCalls, List.range'_succ, Host.log]

/-- Some offset overflows. -/
theorem sendRecvLoop_undefined (hcount : 0 ≤ count) {r k i : Nat} {h : Host} (hr : r ≤ i)
    (hi : i < r + k) (hoverflow : CInt.intMax < i * count) :
    sendRecvLoop sv rv count comm r k h = .undefined := by
  induction k generalizing r h with
  | zero => omega
  | succ k ih =>
    rw [sendRecvLoop]
    by_cases hfits : r * count ≤ CInt.intMax
    · have hmul : CInt.mul r count = .returns (r * count) :=
        CInt.mul_of_le (Int.mul_nonneg (Int.natCast_nonneg r) hcount) hfits
      simp only [bind_apply, liftM_apply, hmul, Outcome.returns_bind, nccl, act_apply]
      refine ih (r := r + 1) ?_ (by omega)
      have hne : r ≠ i := by
        rintro rfl
        omega
      omega
    · simp only [bind_apply, liftM_apply, CInt.mul_of_lt (Int.not_le.mp hfits)]
      rfl

/-- The largest offset is the last one. -/
theorem mul_le_of_last (hcount : 0 ≤ count) {nPes i : Nat} (hi : i < nPes)
    (hlast : ((nPes : Int) - 1) * count ≤ CInt.intMax) : i * count ≤ CInt.intMax := by
  refine Int.le_trans (Int.mul_le_mul_of_nonneg_right ?_ hcount) hlast
  omega

end Loop

section Routines

variable {m : Member} {count : Int} {nPes : Nat} (comm : NcclComm)

@[simp] theorem ncclCalls_map (calls : List NcclCall) : ncclCalls (calls.map .nccl) = calls := by
  rw [ncclCalls, List.filterMap_map]
  exact List.filterMap_some

@[simp] theorem ncclCalls_append (t t' : List HostOp) :
    ncclCalls (t ++ t') = ncclCalls t ++ ncclCalls t' := List.filterMap_append

theorem runTrace_map (calls : List NcclCall) (trace : List HostOp) (memory : Heap α) :
    runTrace (calls.map .nccl ++ trace) memory = runTrace trace memory := by
  induction calls with
  | nil => rfl
  | cons call calls ih => exact ih

variable (α) in
/-- The fallback makes the calls of its loop. -/
theorem alltoall_returns (hs : m.sv.isContiguous = true) (hr : m.rv.isContiguous = true)
    (hcount : 0 ≤ count) (hlast : ((nPes : Int) - 1) * count ≤ CInt.intMax) (a : AllocId) :
    ∃ req host, alltoall false m.sv m.rv count nPes comm (Host.start a) = .returns (req, host) ∧
      ncclCalls host.trace = blockCalls m.sv m.rv count comm 0 nPes ∧
      ∀ memory : Heap α, runTrace host.trace memory = memory ∧
        runCallbacks req.callbacks_ memory = memory := by
  have hloop : ∀ h' : Host, sendRecvLoop m.sv m.rv count comm 0 nPes h' = .returns ((),
      { h' with trace := h'.trace ++ (blockCalls m.sv m.rv count comm 0 nPes).map .nccl }) :=
    fun h' => sendRecvLoop_returns m.sv m.rv comm hcount (r := 0) fun i _ hi =>
      mul_le_of_last hcount (by omega) hlast
  unfold alltoall
  simp only [hs, hr, and_self, if_true, Bool.false_eq_true, if_false, bind_apply, pushRegion,
    groupStart, groupEnd, popRegion, act_apply, Outcome.returns_bind, hloop]
  refine ⟨_, _, rfl, ?_, fun memory => ⟨?_, ?_⟩⟩
  · simp only [Host.log, Host.start, ncclCalls_append, ncclCalls_map]
    simp [ncclCalls]
  · simp only [Host.log, Host.start, List.append_assoc, List.nil_append, List.cons_append]
    exact runTrace_map _ _ memory
  · rw [runCallbacks_extendViewLifetime, runCallbacks_extendViewLifetime]
    rfl

/-- The fallback overflows. -/
theorem alltoall_undefined (hs : m.sv.isContiguous = true) (hr : m.rv.isContiguous = true)
    (hcount : 0 ≤ count) (hoverflow : CInt.intMax < ((nPes : Int) - 1) * count) (h : Host) :
    alltoall false m.sv m.rv count nPes comm h = .undefined := by
  have hpos : 0 < nPes := by
    rcases Nat.eq_zero_or_pos nPes with rfl | hpos
    · have hneg : ((0 : Nat) - 1 : Int) * count ≤ 0 := by
        rw [Int.natCast_zero, Int.zero_sub, Int.neg_one_mul]
        omega
      have hmax : (0 : Int) < CInt.intMax := by decide
      omega
    · exact hpos
  have hloop : ∀ h' : Host, sendRecvLoop m.sv m.rv count comm 0 nPes h' = .undefined :=
    fun h' => sendRecvLoop_undefined m.sv m.rv comm hcount (r := 0) (i := nPes - 1)
      (Nat.zero_le _) (by omega) (by rwa [Int.natCast_pred_of_pos hpos])
  unfold alltoall
  simp only [hs, hr, and_self, if_true, Bool.false_eq_true, if_false, bind_apply, pushRegion,
    groupStart, act_apply, Outcome.returns_bind, hloop]
  rfl

/-- What a member brings to the exchange: both buffers from their start. -/
def wholeBuffers (count nPes : Nat) (m : Member) (memory : Heap α) : Party Cell α where
  memory := memory
  sendbuf := m.sv.buffer (nPes * count)
  recvbuf := m.rv.buffer (nPes * count)
  complete := id

theorem alltoallParty_returns (hs : m.sv.isContiguous = true) (hr : m.rv.isContiguous = true)
    (hcount : 0 ≤ count) (memory : Heap α) :
    alltoallParty count nPes comm m memory = .returns (wholeBuffers count.toNat nPes m memory) := by
  obtain ⟨req, host, hrun, hcalls, htrace, hcomplete⟩ :
      ∃ req host, alltoall true m.sv m.rv count nPes comm (Host.start m.nextAlloc) =
          .returns (req, host) ∧
        ncclCalls host.trace = [{ fn := .ncclAlltoAll, sendbuff := some (dataHandle m.sv),
                                  recvbuff := some (dataHandle m.rv), count := count,
                                  comm := comm }] ∧
        runTrace host.trace memory = memory ∧
        ∀ h : Heap α, runCallbacks req.callbacks_ h = h := by
    unfold alltoall
    simp only [hs, hr, and_self, if_true, bind_apply, pushRegion, popRegion, act_apply, nccl,
      Outcome.returns_bind]
    refine ⟨_, _, rfl, rfl, rfl, fun h => ?_⟩
    rw [runCallbacks_extendViewLifetime, runCallbacks_extendViewLifetime]
    rfl
  have hid : runCallbacks req.callbacks_ = fun h : Heap α => h := funext hcomplete
  unfold alltoallParty
  simp only [hrun, Outcome.returns_bind, hcalls, if_neg (Int.not_lt.mpr hcount), htrace, hid]
  rfl

theorem buffer_of_offset (hcount : 0 ≤ count) (v : View) (r : Nat) :
    ({ view := v, offset := (r * count : Int).toNat } : Pointer).buffer count.toNat =
      v.block count.toNat r := by
  rw [Int.toNat_mul (Int.natCast_nonneg r) hcount, Int.toNat_natCast]
  simp [Pointer.buffer, View.block, Nat.add_assoc]

theorem block_buffer {v : View} {n c r : Nat} (hr : r < n) :
    BlockExchange.block c (v.buffer (n * c)) r = v.block c r := by
  have hle : (r + 1) * c ≤ n * c := Nat.mul_le_mul_right c hr
  rw [Nat.succ_mul] at hle
  rw [View.buffer, BlockExchange.block_map, BlockExchange.block, List.range_eq_range',
    List.drop_range', List.take_range'_of_length_ge (by omega), List.range'_eq_map_range,
    List.map_map, View.block]
  refine List.map_congr_left fun k _ => ?_
  simp

variable (sv rv : View) (r k : Nat)

theorem sends_blockCalls (hcount : 0 ≤ count) :
    (blockCalls sv rv count comm r k).filterMap NcclCall.send? =
      (List.range' r k).map fun i => (i, sv.block count.toNat i) := by
  induction k generalizing r with
  | zero => rfl
  | succ k ih =>
    have hsend : (sendCall sv count comm r).send? = some (r, sv.block count.toNat r) := by
      rw [← buffer_of_offset hcount]
      rfl
    have hrecv : (recvCall rv count comm r).send? = none := rfl
    have hnext := ih (r + 1)
    rw [blockCalls] at hnext ⊢
    simp [List.range'_succ, hsend, hrecv, hnext]

theorem recvs_blockCalls (hcount : 0 ≤ count) :
    (blockCalls sv rv count comm r k).filterMap NcclCall.recv? =
      (List.range' r k).map fun i => (i, rv.block count.toNat i) := by
  induction k generalizing r with
  | zero => rfl
  | succ k ih =>
    have hsend : (sendCall sv count comm r).recv? = none := rfl
    have hrecv : (recvCall rv count comm r).recv? = some (r, rv.block count.toNat r) := by
      rw [← buffer_of_offset hcount]
      rfl
    have hnext := ih (r + 1)
    rw [blockCalls] at hnext ⊢
    simp [List.range'_succ, hsend, hrecv, hnext]

theorem count_of_mem_blockCalls {call : NcclCall} (h : call ∈ blockCalls sv rv count comm r k) :
    call.count = count := by
  obtain ⟨i, _, hcall⟩ := List.mem_flatMap.mp h
  rcases (by simpa using hcall : call = sendCall sv count comm i ∨ call = recvCall rv count comm i)
    with rfl | rfl
  · rfl
  · rfl

/-- The fallback posts the blocks of the buffers one by one. -/
theorem alltoallPostings_returns (hs : m.sv.isContiguous = true) (hr : m.rv.isContiguous = true)
    (hcount : 0 ≤ count) (hlast : ((nPes : Int) - 1) * count ≤ CInt.intMax) (memory : Heap α) :
    alltoallPostings count nPes comm m memory =
      .returns (inBlocks nPes count.toNat (wholeBuffers count.toNat nPes m memory)) := by
  obtain ⟨req, host, hrun, hcalls, hmemory⟩ :=
    alltoall_returns α comm hs hr hcount hlast m.nextAlloc
  have hid : runCallbacks req.callbacks_ = fun h : Heap α => h := funext fun h => (hmemory h).2
  have hany : (blockCalls m.sv m.rv count comm 0 nPes).any (·.count < 0) = false := by
    refine List.any_eq_false.mpr fun call hcall => ?_
    have := count_of_mem_blockCalls comm m.sv m.rv 0 nPes hcall
    simp [this, hcount]
  have hblocks : ∀ v : View, (List.range nPes).map (fun r => (r, v.block count.toNat r)) =
      (List.range nPes).map fun r =>
        (r, BlockExchange.block count.toNat (v.buffer (nPes * count.toNat)) r) := fun v =>
    List.map_congr_left fun r hr => by rw [block_buffer (List.mem_range.mp hr)]
  unfold alltoallPostings
  simp only [hrun, Outcome.returns_bind, hcalls, hany, (hmemory memory).1, hid,
    sends_blockCalls comm _ _ _ _ hcount, recvs_blockCalls comm _ _ _ _ hcount,
    ← List.range_eq_range', hblocks]
  rfl

end Routines

/-! ## §2 All ranks -/

section Ranks

variable {count : Int} (comm : NcclComm) {members : List Member}

/-- Contiguous views that span a block for every rank. -/
structure Spans (count : Int) (nPes : Nat) (v : View) : Prop where
  contiguous : v.isContiguous = true
  span : nPes * count ≤ v.span

/-- The buffers of all members. -/
def wholeParties (count : Nat) (members : List Member) (memory : Nat → Heap α) :
    List (Party Cell α) :=
  members.mapIdx fun r m => wholeBuffers count members.length m (memory r)

theorem sized_wholeParties (c : Nat) (members : List Member) (memory : Nat → Heap α) :
    Sized c (wholeParties c members memory) := by
  have hparty : ∀ p ∈ wholeParties c members memory, ∃ m, ∃ h : Heap α,
      p = wholeBuffers c members.length m h := by
    intro p hp
    obtain ⟨r, hr, rfl⟩ := List.mem_mapIdx.mp hp
    exact ⟨_, _, rfl⟩
  have hlen : (wholeParties c members memory).length = members.length := List.length_mapIdx
  constructor
  · intro p hp
    obtain ⟨m, h, rfl⟩ := hparty p hp
    rw [hlen, wholeBuffers, View.length_buffer]
  · intro p hp
    obtain ⟨m, h, rfl⟩ := hparty p hp
    rw [hlen, wholeBuffers, View.length_buffer]
  · intro p hp
    obtain ⟨m, h, rfl⟩ := hparty p hp
    exact View.nodup_buffer _ _

/-- `ncclAlltoAll` transposes the blocks. -/
theorem runNative_eq (hcount : 0 ≤ count)
    (hviews : ∀ m ∈ members, m.sv.isContiguous = true ∧ m.rv.isContiguous = true)
    (memory : Nat → Heap α) :
    runNative count comm members memory =
      .returns (transpose count.toNat (wholeParties count.toNat members memory)) := by
  have hall : Outcome.all (members.mapIdx fun r m =>
      alltoallParty count members.length comm m (memory r)) =
        .returns (wholeParties count.toNat members memory) :=
    Outcome.all_mapIdx fun r m hm => by
      obtain ⟨hs, hr⟩ := hviews m (List.mem_of_getElem? hm)
      exact alltoallParty_returns comm hs hr hcount (memory r)
  rw [runNative, hall, Outcome.returns_bind, runTranspose,
    if_pos (sized_wholeParties _ members memory).send]

/-- And so do the sends and receives, if no offset overflows. -/
theorem runFallback_eq (hcount : 0 ≤ count)
    (hlast : ((members.length : Int) - 1) * count ≤ CInt.intMax)
    (hviews : ∀ m ∈ members, m.sv.isContiguous = true ∧ m.rv.isContiguous = true)
    (memory : Nat → Heap α) :
    runFallback count comm members memory =
      .returns (transpose count.toNat (wholeParties count.toNat members memory)) := by
  have hlen : (wholeParties count.toNat members memory).length = members.length :=
    List.length_mapIdx
  have hall : Outcome.all (members.mapIdx fun r m =>
      alltoallPostings count members.length comm m (memory r)) =
        .returns (members.mapIdx fun r m => inBlocks members.length count.toNat
          (wholeBuffers count.toNat members.length m (memory r))) :=
    Outcome.all_mapIdx fun r m hm => by
      obtain ⟨hs, hr⟩ := hviews m (List.mem_of_getElem? hm)
      exact alltoallPostings_returns comm hs hr hcount hlast (memory r)
  have hgroup := runGroup_inBlocks (sized_wholeParties count.toNat members memory)
  rw [hlen] at hgroup
  rw [runFallback, hall, Outcome.returns_bind, ← hgroup, wholeParties]
  refine congrArg runGroup (List.ext_getElem? fun r => ?_)
  rw [List.getElem?_map, List.getElem?_mapIdx, List.getElem?_mapIdx, Option.map_map]
  rfl

/-- Block `j` of the receive view of rank `i` is block `i` of the send view
of rank `j`, element by element, and nothing else has changed. -/
def ExchangesBlocks (count : Nat) (members : List Member) (memory : Nat → Heap α)
    (heaps : List (Heap α)) : Prop :=
  ∀ i m, members[i]? = some m → ∃ h, heaps[i]? = some h ∧
    (∀ j m', members[j]? = some m' → Memory.gather h (m.rv.block count j) =
      Memory.gather (memory j) (m'.sv.block count i)) ∧
    ∀ c, c ∉ m.rv.buffer (members.length * count) → h c = memory i c

theorem exchangesBlocks_transpose (c : Nat) (members : List Member) (memory : Nat → Heap α) :
    ExchangesBlocks c members memory (transpose c (wholeParties c members memory)) := by
  intro i m hm
  have hget : ∀ {j m}, members[j]? = some m → (wholeParties c members memory)[j]? =
      some (wholeBuffers c members.length m (memory j)) := fun hm => by
    rw [wholeParties, List.getElem?_mapIdx, hm]
    rfl
  have hi := (List.getElem?_eq_some_iff.mp hm).1
  refine ⟨_, by rw [transpose, List.getElem?_mapIdx, hget hm]; rfl, fun j m' hm' => ?_, ?_⟩
  · have hj := (List.getElem?_eq_some_iff.mp hm').1
    have hgather := gather_transposed (sized_wholeParties c members memory) (hget hm) (hget hm')
    have hsent : BlockExchange.block c (wholeBuffers c members.length m' (memory j)).message i =
        Memory.gather (memory j) (m'.sv.block c i) := by
      rw [Party.message, Memory.gather, BlockExchange.block_map, wholeBuffers, block_buffer hi]
      rfl
    rw [hsent, wholeBuffers, block_buffer hj] at hgather
    exact hgather
  · intro cell hcell
    exact Memory.scatter_of_not_mem fun hmem => hcell (List.mem_of_mem_take hmem)

/-- The fallback equals `ncclAlltoAll`: every rank sends block `r` of its
send view to rank `r` and receives block `r` of its receive view from it,
all blocks lie in the views, and after completion the memories are those
that `ncclAlltoAll` leaves, with all blocks exchanged. -/
structure FallbackIsNative (α : Type) (count : Int) (comm : NcclComm) (members : List Member) :
    Prop where
  calls : ∀ m ∈ members, ∃ req host,
    alltoall false m.sv m.rv count members.length comm (Host.start m.nextAlloc) =
        .returns (req, host) ∧
      (ncclCalls host.trace).filterMap NcclCall.send? =
        (List.range members.length).map (fun r => (r, m.sv.block count.toNat r)) ∧
      (ncclCalls host.trace).filterMap NcclCall.recv? =
        (List.range members.length).map fun r => (r, m.rv.block count.toNat r)
  inside : ∀ m ∈ members, ∀ r < members.length,
    (∀ c ∈ m.sv.block count.toNat r, c ∈ m.sv.buffer m.sv.span) ∧
      ∀ c ∈ m.rv.block count.toNat r, c ∈ m.rv.buffer m.rv.span
  exchange : ∀ memory : Nat → Heap α, ∃ heaps,
    runFallback count comm members memory = .returns heaps ∧
      runNative count comm members memory = .returns heaps ∧
      ExchangesBlocks count.toNat members memory heaps

/-- The offset of the last block overflows. -/
theorem not_isNative_of_overflow (hne : members ≠ []) (hcount : 0 ≤ count)
    (hviews : ∀ m ∈ members, Spans count members.length m.sv ∧ Spans count members.length m.rv)
    (hoverflow : CInt.intMax < ((members.length : Int) - 1) * count) :
    ¬ FallbackIsNative α count comm members := by
  intro hnative
  obtain ⟨m, hm⟩ := List.exists_mem_of_ne_nil members hne
  obtain ⟨req, host, hrun, _⟩ := hnative.calls m hm
  obtain ⟨hs, hr⟩ := hviews m hm
  rw [alltoall_undefined comm hs.contiguous hr.contiguous hcount hoverflow] at hrun
  cases hrun

/-- For members whose views span a block for every rank, it does exactly
when the last offset is an `int`. -/
theorem fallback_isNative_iff (hne : members ≠ []) (hcount : 0 ≤ count)
    (hviews : ∀ m ∈ members, Spans count members.length m.sv ∧ Spans count members.length m.rv) :
    FallbackIsNative α count comm members ↔
      ((members.length : Int) - 1) * count ≤ CInt.intMax := by
  have hcontiguous : ∀ m ∈ members, m.sv.isContiguous = true ∧ m.rv.isContiguous = true :=
    fun m hm => ⟨(hviews m hm).1.contiguous, (hviews m hm).2.contiguous⟩
  constructor
  · intro hnative
    by_contra hoverflow
    exact not_isNative_of_overflow comm hne hcount hviews (Int.not_le.mp hoverflow) hnative
  · intro hlast
    refine ⟨fun m hm => ?_, fun m hm r hr => ?_, fun memory => ?_⟩
    · obtain ⟨hs, hr⟩ := hcontiguous m hm
      obtain ⟨req, host, hrun, hcalls, _⟩ :=
        alltoall_returns α comm hs hr hcount hlast m.nextAlloc
      refine ⟨req, host, hrun, ?_, ?_⟩
      · rw [hcalls, sends_blockCalls comm _ _ _ _ hcount, List.range_eq_range']
      · rw [hcalls, recvs_blockCalls comm _ _ _ _ hcount, List.range_eq_range']
    · have hfits : ∀ v, Spans count members.length v → members.length * count.toNat ≤ v.span :=
        fun v hv => by
          have hspan := hv.span
          rw [← Int.toNat_of_nonneg hcount] at hspan
          exact_mod_cast hspan
      exact ⟨fun c hc => View.block_subset_buffer (hfits _ (hviews m hm).1) hr hc,
        fun c hc => View.block_subset_buffer (hfits _ (hviews m hm).2) hr hc⟩
    · exact ⟨_, runFallback_eq comm hcount hlast hcontiguous memory,
        runNative_eq comm hcount hcontiguous memory, exchangesBlocks_transpose _ members memory⟩

end Ranks

/-- A rank with two contiguous views of `n` elements. -/
def lineMember (n : Nat) : Member where
  sv := .line 0 0 n 1
  rv := .line 1 0 n 1
  nextAlloc := 2

theorem spans_lineMember (count : Int) (nPes n : Nat) (h : nPes * count ≤ n) :
    ∀ m ∈ List.replicate nPes (lineMember n),
      Spans count (List.replicate nPes (lineMember n)).length m.sv ∧
        Spans count (List.replicate nPes (lineMember n)).length m.rv := by
  have hline : ∀ alloc, Spans count nPes (.line alloc 0 n 1) := fun alloc => by
    have hcontiguous := View.isContiguous_line alloc 0 n
    refine ⟨hcontiguous, ?_⟩
    rw [View.isContiguous_iff.mp hcontiguous]
    simpa [View.size, View.line] using h
  intro m hm
  obtain rfl := List.eq_of_mem_replicate hm
  rw [List.length_replicate]
  exact ⟨hline 0, hline 1⟩

/-- Two ranks that exchange blocks of two elements. -/
theorem fallback_isNative_pair :
    FallbackIsNative Nat 2 0 (List.replicate 2 (lineMember 4)) :=
  (fallback_isNative_iff 0 (by decide) (by decide) (spans_lineMember 2 2 4 (by decide))).mpr
    (by decide)

/-- Three ranks with blocks of 2^30 elements: the offset of the third block
is 2^31. -/
theorem fallback_overflows :
    ¬ ∀ (count : Int) (comm : NcclComm) (members : List Member), members ≠ [] → 0 ≤ count →
      (∀ m ∈ members, Spans count members.length m.sv ∧ Spans count members.length m.rv) →
      FallbackIsNative Nat count comm members := by
  intro hall
  have hne : List.replicate 3 (lineMember 3221225472) ≠ [] := List.cons_ne_nil _ _
  have hviews := spans_lineMember 1073741824 3 3221225472 (by decide)
  have hoverflow : CInt.intMax <
      (((List.replicate 3 (lineMember 3221225472)).length : Int) - 1) * 1073741824 := by
    rw [List.length_replicate]
    decide
  exact not_isNative_of_overflow 0 hne (by decide) hviews hoverflow
    (hall 1073741824 0 _ hne (by decide) hviews)

end KokkosComm.Nccl
