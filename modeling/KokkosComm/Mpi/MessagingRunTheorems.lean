/-
KokkosComm.Mpi.MessagingRunTheorems — every run of programs over MPI ends as
the programs say.

§1 is the relation of all processes to their meanings, and the k-th message
between two of them. §2 follows a run: a host makes a move of its meaning,
and what MPI does makes none. §3 carries a move out: MPI completes what a
wait is for, and then the host goes on. So MPI carries out the meaning (§4),
in the sense of `Foundation.Monotone`.
-/
import KokkosComm.Mpi.MessagingTheorems

namespace KokkosComm.Mpi.Messaging

open Lts

variable {α : Type} {n : Nat} {T : Transport} {w w' : Peers α} {s s' : Int → Meaning α}

/-! ## §1 All processes -/

/-- The processes and their meanings. -/
def AllRelated (n : Nat) (T : Transport) (w : Peers α) (s : Int → Meaning α) : Prop :=
  ∀ p, RelatedIn n T.comm T.early s p (w p)

theorem Related.know {K K' : Knowledge α} {comm : MpiComm} {A : Peer α} {S : Meaning α}
    (h : Related n comm K A S) (hK : K.Le K') : Related n comm K' A S :=
  { h with
    calls := fun i x hx => by
      obtain ⟨hp, y, hy, hcall⟩ := h.calls i x hx
      exact ⟨hp, y, hy, hcall.agree hK List.prefix_rfl hy (fun _ _ _ => rfl) .rfl⟩ }

theorem allRelated_start {programs : Int → List (Instr α)}
    (hkeeps : ∀ p, KeepsOff n 0 [] (programs p)) (heaps : Int → Heap α) :
    AllRelated n T (.start programs heaps n) (.start programs heaps) := fun p =>
  { program := rfl
    length  := rfl
    calls   := fun i x hx => by simp [Peers.start, Process.start] at hx
    fresh   := fun _ _ => rfl
    alloc   := Nat.le_refl _
    apart   := fun i j x y _ hx => by simp [Peers.start, Process.start] at hx
    heap    := fun _ _ _ => rfl
    rule    := ⟨[], hkeeps p, fun z => by simp [Peers.start, Process.start]⟩ }

/-- A process has made a move, and its meaning too. -/
theorem AllRelated.update_both (h : AllRelated n T w s) {p : Int} {A : Peer α} {S : Meaning α}
    (hS : move T.early p s = some S) (hA : Related n T.comm (.of T.early s p) A S) :
    AllRelated n T (Function.update w p A) (Function.update s p S) := by
  have hle := (monotone_move T.early).le_update hS
  intro q
  have hknow : (Knowledge.of T.early s q).Le (.of T.early (Function.update s p S) q) :=
    Knowledge.of_le hle q
  unfold RelatedIn
  by_cases hqp : q = p
  · subst hqp
    rw [Function.update_self]
    simpa using hA.know hknow
  · rw [Function.update_of_ne hqp]
    simpa [Function.update_of_ne hqp] using (h q).know hknow

/-- Something has happened in a process that its meaning does not see. -/
theorem AllRelated.update_one (h : AllRelated n T w s) {p : Int} {P' : Process α}
    (hP' : RelatedIn n T.comm T.early s p { w p with proc := P' }) :
    AllRelated n T (Function.update w p { w p with proc := P' }) s := by
  intro q
  by_cases hqp : q = p
  · subst hqp
    rw [Function.update_self]
    exact hP'
  · rw [Function.update_of_ne hqp]
    exact h q

section Places

variable {comm : MpiComm} {K : Knowledge α} {A : Peer α} {S : Meaning α} {k i : Nat}

/-- The calls of a process and of its meaning are of the same kinds. -/
theorem Related.forall₂ (h : Related n comm K A S) {β : Type} {kind : MpiCall → Bool}
    {f : Post α → Option β}
    (hkind : ∀ i x y, CallOk comm K A.proc S i x y → kind x.call = (f y).isSome) :
    List.Forall₂ (fun call y => kind call = (f y).isSome)
      (A.proc.posted.map Operation.call) S.posts := by
  rw [List.forall₂_iff_get]
  refine ⟨by simpa using h.length, fun i hi hi' => ?_⟩
  have hlt : i < A.proc.posted.length := by simpa using hi
  obtain ⟨_, y, hy, hcall⟩ := h.calls i _ (List.getElem?_eq_getElem hlt)
  rw [List.getElem?_eq_getElem hi', Option.some.injEq] at hy
  rw [List.get_eq_getElem, List.get_eq_getElem, List.getElem_map, hy]
  exact hkind i _ y hcall

theorem CallOk.isSendTo {P : Process α} {x : Operation α} {y : Post α} (b : Int)
    (h : CallOk comm K P S i x y) : x.call.isSendTo comm b = (y.toPeer b).isSome := by
  cases y with
  | send dest m =>
    obtain ⟨hsend, -, hcomm⟩ := SendOk.call h
    by_cases hb : dest = b <;> simp [MpiCall.isSendTo, hsend, hcomm, Post.toPeer, hb]
  | recv src rv =>
    obtain ⟨-, hsend, -⟩ := RecvOk.call h
    simp [MpiCall.isSendTo, hsend, Post.toPeer]

theorem CallOk.isRecvFrom {P : Process α} {x : Operation α} {y : Post α} (a : Int)
    (h : CallOk comm K P S i x y) : x.call.isRecvFrom comm a = (y.fromPeer a).isSome := by
  cases y with
  | send dest m =>
    obtain ⟨-, hrecv, -⟩ := SendOk.call h
    simp [MpiCall.isRecvFrom, hrecv, Post.fromPeer]
  | recv src rv =>
    obtain ⟨hrecv, -, hcomm⟩ := RecvOk.call h
    by_cases ha : src = a <;> simp [MpiCall.isRecvFrom, hrecv, hcomm, Post.fromPeer, ha]

/-- Where the `k`-th send to `b` is. -/
theorem Related.nth_send (h : Related n comm K A S) {b : Int} :
    (A.proc.ops (MpiCall.isSendTo comm b))[k]? = some i ↔
      ∃ m, S.posts[i]? = some (.send b m) ∧ S.sentBefore i b = k := by
  rw [Process.ops, Occurrences.getElem?_findIdxs_of_forall₂
    (h.forall₂ fun i x y hcall => hcall.isSendTo b)]
  constructor
  · rintro ⟨y, m, hy, hm, hk⟩
    cases y with
    | send dest m' =>
      by_cases hb : dest = b
      · subst hb
        exact ⟨m', hy, hk⟩
      · simp [Post.toPeer, hb] at hm
    | recv src rv => simp [Post.toPeer] at hm
  · rintro ⟨m, hy, hk⟩
    exact ⟨_, m, hy, by simp [Post.toPeer], hk⟩

/-- Where the `k`-th receive from `a` is. -/
theorem Related.nth_recv (h : Related n comm K A S) {a : Int} :
    (A.proc.ops (MpiCall.isRecvFrom comm a))[k]? = some i ↔
      ∃ rv, S.posts[i]? = some (.recv a rv) ∧ S.askedBefore i a = k := by
  rw [Process.ops, Occurrences.getElem?_findIdxs_of_forall₂
    (h.forall₂ fun i x y hcall => hcall.isRecvFrom a)]
  constructor
  · rintro ⟨y, rv, hy, hrv, hk⟩
    cases y with
    | send dest m => simp [Post.fromPeer] at hrv
    | recv src rv' =>
      by_cases ha : src = a
      · subst ha
        exact ⟨rv', hy, hk⟩
      · simp [Post.fromPeer, ha] at hrv
  · rintro ⟨rv, hy, hk⟩
    exact ⟨_, rv, hy, by simp [Post.fromPeer], hk⟩

theorem Related.length_recvs (h : Related n comm K A S) (a : Int) :
    (A.proc.ops (MpiCall.isRecvFrom comm a)).length = (S.asked a).length :=
  Occurrences.length_findIdxs_of_forall₂ (h.forall₂ fun _ _ _ hcall => hcall.isRecvFrom a)

/-- Each call has an operation. -/
theorem Related.exists_posted (h : Related n comm K A S) {y : Post α}
    (hy : S.posts[i]? = some y) : ∃ x, A.proc.posted[i]? = some x := by
  have hlt := (List.getElem?_eq_some_iff.mp hy).1
  rw [← h.length] at hlt
  exact ⟨_, List.getElem?_eq_getElem hlt⟩

/-- The `k`-th message to `b` is that of a send. -/
theorem Meaning.exists_send {b : Int} {m : List α} (h : (S.sent b)[k]? = some m) :
    ∃ i, S.posts[i]? = some (.send b m) ∧ S.sentBefore i b = k := by
  obtain ⟨i, y, hy, hm, hk⟩ := Occurrences.getElem?_filterMap.mp h
  cases y with
  | send dest m' =>
    by_cases hb : dest = b
    · subst hb
      simp only [Post.toPeer, if_true, Option.some.injEq] at hm
      exact ⟨i, hm ▸ hy, hk⟩
    · simp [Post.toPeer, hb] at hm
  | recv src rv => simp [Post.toPeer] at hm

theorem Meaning.sent_of_send {b : Int} {m : List α} (h : S.posts[i]? = some (.send b m)) :
    (S.sent b)[S.sentBefore i b]? = some m :=
  Occurrences.getElem?_filterMap_of_getElem? h (by simp [Post.toPeer])

end Places

/-! ## §2 Following a run -/

section Following

variable {p a b : Int} {k i j : Nat} {x : Operation α}

theorem Peers.step_eq_some {act : Act} :
    w.step T act = some w' ↔ w.perform T act = .returns w' := by simp [Peers.step]

theorem Peers.on_eq_returns {call : Process α → Outcome (Process α)} :
    w.on p call = .returns w' ↔
      ∃ P', call (w p).proc = .returns P' ∧ w' = Function.update w p { w p with proc := P' } := by
  rw [Peers.on, Outcome.bind_eq_returns]
  simp [eq_comm]

/-- What a step of a host does. -/
theorem AllRelated.host (h : AllRelated n T w s) (hfits : Fits s)
    (hstep : w.step T (.host p) = some w') :
    ∃ s', network (move T.early) s p = some s' ∧ AllRelated n T w' s' := by
  obtain ⟨A, hA, hw'⟩ := Outcome.bind_eq_returns.mp (Peers.step_eq_some.mp hstep)
  cases hw'
  suffices hmove : ∃ S, move T.early p s = some S ∧ Related n T.comm (.of T.early s p) A S by
    obtain ⟨S, hS, hrel⟩ := hmove
    exact ⟨_, network_eq_some.mpr ⟨S, hS, rfl⟩, h.update_both hS hrel⟩
  cases hprog : (s p).program with
  | nil =>
    rw [Peer.host, (h p).program, hprog] at hA
    cases hA
  | cons i rest =>
    cases i with
    | send sv dest =>
      obtain ⟨A', hA', hrel⟩ := (h p).send hprog
      rw [hA] at hA'
      cases hA'
      exact ⟨_, by simp [move, hprog], hrel⟩
    | recv rv src =>
      obtain ⟨A', hA', hrel⟩ := (h p).recv hprog
      rw [hA] at hA'
      cases hA'
      exact ⟨_, by simp [move, hprog], hrel⟩
    | kernel k =>
      obtain ⟨A', hA', hrel⟩ := (h p).kernel hprog
      rw [hA] at hA'
      cases hA'
      exact ⟨_, by simp [move, hprog], hrel⟩
    | wait op =>
      obtain ⟨f, hf, hrel⟩ := (h p).host_wait hfits hprog (.inr ⟨op, rfl, rfl⟩) hA
      exact ⟨_, by simp [move, hprog, hf], hrel⟩
    | waitAll span =>
      obtain ⟨f, hf, hrel⟩ := (h p).host_wait hfits hprog (.inl rfl) hA
      exact ⟨_, by simp [move, hprog, hf], hrel⟩

/-- MPI reads a message. -/
theorem AllRelated.capture (h : AllRelated n T w s)
    (hstep : w.step T (.capture a b k) = some w') : AllRelated n T w' s := by
  have hp := Peers.step_eq_some.mp hstep
  simp only [Peers.perform] at hp
  split at hp
  · rename_i i hi
    obtain ⟨P', hP', rfl⟩ := Peers.on_eq_returns.mp hp
    obtain ⟨m, hy, -⟩ := (h a).nth_send.mp hi
    obtain ⟨x, hx⟩ := (h a).exists_posted hy
    have hmoved : x.moved = none := by
      simp only [Process.capture, hx] at hP'
      split at hP'
      · rename_i hcond
        simpa using hcond.1
      · cases hP'
    obtain ⟨P'', hP'', hrel, -⟩ := (h a).capture hx hy hmoved
    rw [hP'] at hP''
    cases hP''
    exact h.update_one hrel
  · cases hp

/-- A send completes. -/
theorem AllRelated.finish (h : AllRelated n T w s)
    (hstep : w.step T (.finish a b k) = some w') : AllRelated n T w' s := by
  have hp := Peers.step_eq_some.mp hstep
  simp only [Peers.perform] at hp
  split at hp
  · rename_i i hi
    split at hp
    · rename_i hmay
      obtain ⟨P', hP', rfl⟩ := Peers.on_eq_returns.mp hp
      obtain ⟨m, hy, rfl⟩ := (h a).nth_send.mp hi
      obtain ⟨x, hx⟩ := (h a).exists_posted hy
      simp only [Process.finish, hx] at hP'
      split at hP'
      · rename_i hcond
        cases hP'
        refine h.update_one ((h a).finish hx hy ?_ ?_)
        · exact Option.isSome_iff_ne_none.mp hcond.1
        · exact hmay.imp_right fun hlt => Nat.lt_of_lt_of_eq hlt ((h b).length_recvs a)
      · cases hP'
    · cases hp
  · cases hp

/-- A message arrives. -/
theorem AllRelated.deliver (h : AllRelated n T w s) (hfits : Fits s)
    (hstep : w.step T (.deliver a b k) = some w') : AllRelated n T w' s := by
  have hp := Peers.step_eq_some.mp hstep
  simp only [Peers.perform] at hp
  split at hp
  · rename_i i j hi hj
    split at hp
    · rename_i message hmessage
      obtain ⟨P', hP', rfl⟩ := Peers.on_eq_returns.mp hp
      obtain ⟨m, hy, hk⟩ := (h a).nth_send.mp hi
      obtain ⟨rv, hz, hk'⟩ := (h b).nth_recv.mp hj
      obtain ⟨x, hx⟩ := (h a).exists_posted hy
      obtain ⟨z, hzp⟩ := (h b).exists_posted hz
      -- what has been read is what was sent
      obtain rfl : message = m := by
        rw [hx] at hmessage
        exact ((h a).sendOk hx hy).read message hmessage
      have hsent : ((s a).sent b)[(s b).askedBefore j a]? = some message := by
        rw [hk', ← hk]
        exact Meaning.sent_of_send hy
      have hmoved : z.moved = none := by
        simp only [Process.arrive, hzp] at hP'
        split at hP'
        · rename_i hcond
          simpa using hcond
        · cases hP'
      obtain ⟨P'', hP'', hrel, -⟩ :=
        (h b).arrive hzp hz hmoved hsent (hfits b j a rv message hz hsent)
      rw [hP'] at hP''
      cases hP''
      exact h.update_one hrel
    · cases hp
  · cases hp

end Following

/-! ## §3 Carrying out a move -/

section Carrying

variable {p a b : Int} {i j op : OpId} {x z : Operation α} {m : List α} {rv : View}
  {span : List OpId} {f : Heap α → Heap α}

/-- What MPI has completed stays completed. -/
def Onward (w w' : Peers α) : Prop :=
  ∀ q j, (w q).proc.lib.status j ≠ .inFlight → (w' q).proc.lib.status j ≠ .inFlight

theorem Onward.refl (w : Peers α) : Onward w w := fun _ _ h => h

theorem Onward.trans {w'' : Peers α} (h : Onward w w') (h' : Onward w' w'') : Onward w w'' :=
  fun q j hj => h' q j (h q j hj)

theorem onward_update {P' : Process α}
    (h : ∀ j, (w p).proc.lib.status j ≠ .inFlight → P'.lib.status j ≠ .inFlight) :
    Onward w (Function.update w p { w p with proc := P' }) := by
  intro q j hj
  by_cases hqp : q = p
  · subst hqp
    rw [Function.update_self]
    exact h j hj
  · rwa [Function.update_of_ne hqp]

theorem capture_lib {P P' : Process α} (h : P.capture i = .returns P') : P'.lib = P.lib := by
  unfold Process.capture at h
  split at h
  · split at h
    · cases h
      rfl
    · cases h
  · cases h

/-- A message that has not been read can be read. -/
theorem AllRelated.exists_read (h : AllRelated n T w s)
    (hy : (s a).posts[i]? = some (.send b m)) :
    ∃ acts w' x, exec (Peers.step T) w acts = some w' ∧ AllRelated n T w' s ∧ Onward w w' ∧
      (w' a).proc.posted[i]? = some x ∧ x.moved = some m := by
  obtain ⟨x, hx⟩ := (h a).exists_posted hy
  cases hm : x.moved with
  | some m' =>
    obtain rfl := ((h a).sendOk hx hy).read m' hm
    exact ⟨[], w, x, rfl, h, .refl w, hx, hm⟩
  | none =>
    obtain ⟨P', hP', hrel, hx'⟩ := (h a).capture hx hy hm
    have hstep : w.step T (.capture a b ((s a).sentBefore i b)) =
        some (Function.update w a { w a with proc := P' }) := by
      have hi : (w.sends T.comm a b)[(s a).sentBefore i b]? = some i :=
        (h a).nth_send.mpr ⟨m, hy, rfl⟩
      rw [Peers.step_eq_some]
      simp only [Peers.perform, hi]
      exact Peers.on_eq_returns.mpr ⟨P', hP', rfl⟩
    refine ⟨[_], _, { x with moved := some m }, exec_singleton hstep, h.update_one hrel,
      onward_update fun j hj => ?_, ?_, rfl⟩
    · rwa [capture_lib hP']
    · rw [Function.update_self]
      exact hx'

/-- A send that may complete can be completed. -/
theorem AllRelated.exists_finished (h : AllRelated n T w s)
    (hy : (s a).posts[i]? = some (.send b m))
    (hmay : T.early = true ∨ (s a).sentBefore i b < ((s b).asked a).length) :
    ∃ acts w', exec (Peers.step T) w acts = some w' ∧ AllRelated n T w' s ∧ Onward w w' ∧
      (w' a).proc.lib.status i ≠ .inFlight := by
  obtain ⟨acts, v, x, hacts, hv, honward, hx, hm⟩ := h.exists_read hy
  by_cases hdone : (v a).proc.lib.status i = .inFlight
  · have hstep : v.step T (.finish a b ((s a).sentBefore i b)) = some (Function.update v a
        { v a with proc := { (v a).proc with lib := (v a).proc.lib.finish i } }) := by
      have hi : (v.sends T.comm a b)[(s a).sentBefore i b]? = some i :=
        (hv a).nth_send.mpr ⟨m, hy, rfl⟩
      have hlen : (v.recvs T.comm a b).length = ((s b).asked a).length := (hv b).length_recvs a
      rw [Peers.step_eq_some]
      simp only [Peers.perform, hi, hlen, if_pos hmay]
      refine Peers.on_eq_returns.mpr ⟨_, ?_, rfl⟩
      have hbuf := ((hv a).sendOk hx hy).buffers.1
      simp [Process.finish, hx, hm, hbuf, hdone]
    refine ⟨acts ++ [_], _, exec_append_eq_some.mpr ⟨v, hacts, exec_singleton hstep⟩,
      hv.update_one ((hv a).finish hx hy (by simp [hm]) hmay),
      honward.trans (onward_update fun j hj => ?_), ?_⟩
    · by_cases hji : j = i
      · subst hji
        simp
      · rwa [Library.finish_status_of_ne hji]
    · rw [Function.update_self]
      simp
  · exact ⟨acts, v, hacts, hv, honward, hdone⟩

/-- A message that is there can arrive. -/
theorem AllRelated.exists_arrived (h : AllRelated n T w s) (hfits : Fits s)
    (hz : (s b).posts[j]? = some (.recv a rv))
    (hm : ((s a).sent b)[(s b).askedBefore j a]? = some m) :
    ∃ acts w', exec (Peers.step T) w acts = some w' ∧ AllRelated n T w' s ∧ Onward w w' ∧
      (w' b).proc.lib.status j ≠ .inFlight := by
  obtain ⟨i, hy, hk⟩ := Meaning.exists_send hm
  obtain ⟨acts, v, x, hacts, hv, honward, hx, hread⟩ := h.exists_read hy
  obtain ⟨z, hzp⟩ := (hv b).exists_posted hz
  have hrecv := (hv b).recvOk hzp hz
  cases hmoved : z.moved with
  | some m' => exact ⟨acts, v, hacts, hv, honward, (hrecv.arrived m' hmoved).2.1⟩
  | none =>
    obtain ⟨P', hP', hrel, hended, hkept⟩ :=
      (hv b).arrive hzp hz hmoved hm (hfits b j a rv m hz hm)
    have hstep : v.step T (.deliver a b ((s b).askedBefore j a)) =
        some (Function.update v b { v b with proc := P' }) := by
      have hi : (v.sends T.comm a b)[(s b).askedBefore j a]? = some i :=
        (hv a).nth_send.mpr ⟨m, hy, hk⟩
      have hj : (v.recvs T.comm a b)[(s b).askedBefore j a]? = some j :=
        (hv b).nth_recv.mpr ⟨rv, hz, rfl⟩
      rw [Peers.step_eq_some]
      simp only [Peers.perform, hi, hj, hx, Option.bind_some, hread]
      exact Peers.on_eq_returns.mpr ⟨P', hP', rfl⟩
    refine ⟨acts ++ [_], _, exec_append_eq_some.mpr ⟨v, hacts, exec_singleton hstep⟩,
      hv.update_one hrel, honward.trans (onward_update hkept), ?_⟩
    rw [Function.update_self]
    exact hended

/-- What the meaning can pass, MPI can complete; … -/
theorem AllRelated.exists_ended (h : AllRelated n T w s) (hfits : Fits s)
    (hf : completed T.early p s op = some f) :
    ∃ acts w', exec (Peers.step T) w acts = some w' ∧ AllRelated n T w' s ∧ Onward w w' ∧
      (w' p).proc.lib.status op ≠ .inFlight := by
  rcases completed_eq_some.mp hf with ⟨dest, m, hy, hmay, -⟩ | ⟨src, rv, m, hy, hm, -, -⟩
  · exact h.exists_finished hy hmay
  · exact h.exists_arrived hfits hy hm

/-- … one after the other. -/
theorem AllRelated.exists_all_ended (h : AllRelated n T w s) (hfits : Fits s)
    (hf : ∀ op ∈ span, ∃ f, completed T.early p s op = some f) :
    ∃ acts w', exec (Peers.step T) w acts = some w' ∧ AllRelated n T w' s ∧
      ∀ op ∈ span, (w' p).proc.lib.status op ≠ .inFlight := by
  induction span with
  | nil => exact ⟨[], w, rfl, h, by simp⟩
  | cons op span ih =>
    obtain ⟨acts, v, hacts, hv, hended⟩ := ih fun op' hop' => hf op' (by simp [hop'])
    obtain ⟨f, hop⟩ := hf op (by simp)
    obtain ⟨acts', w', hacts', hw', honward, hdone⟩ := hv.exists_ended hfits hop
    refine ⟨acts ++ acts', w', exec_append_eq_some.mpr ⟨v, hacts, hacts'⟩, hw', ?_⟩
    intro op' hop'
    rcases List.mem_cons.mp hop' with rfl | hop'
    · exact hdone
    · exact honward p op' (hended op' hop')

/-- A host that can go on makes the move of its meaning. -/
theorem AllRelated.exists_host (h : AllRelated n T w s) {A : Peer α} {S : Meaning α}
    (hA : (w p).host T = .returns A) (hS : move T.early p s = some S)
    (hrel : Related n T.comm (.of T.early s p) A S) :
    ∃ w', w.step T (.host p) = some w' ∧ AllRelated n T w' (Function.update s p S) := by
  refine ⟨Function.update w p A, ?_, h.update_both hS hrel⟩
  rw [Peers.step_eq_some]
  simp [Peers.perform, hA]

/-- Every move of the meaning can be carried out. -/
theorem AllRelated.exists_move (h : AllRelated n T w s) (hfits : Fits s)
    (hmove : network (move T.early) s p = some s') :
    ∃ acts w', exec (Peers.step T) w acts = some w' ∧ AllRelated n T w' s' := by
  obtain ⟨S, hS, rfl⟩ := network_eq_some.mp hmove
  -- a call or work of the user is one step
  have hone : ∀ {A}, (w p).host T = .returns A → Related n T.comm (.of T.early s p) A S →
      ∃ acts w', exec (Peers.step T) w acts = some w' ∧
        AllRelated n T w' (Function.update s p S) := fun hA hrel => by
    obtain ⟨w', hw', hrel'⟩ := h.exists_host hA hS hrel
    exact ⟨[.host p], w', exec_singleton hw', hrel'⟩
  obtain ⟨i, rest, hprog, ⟨sv, dest, rfl, hS'⟩ | ⟨rv, src, rfl, hS'⟩ | ⟨k, rfl, hS'⟩ |
    ⟨span, f, hi, hf, hS'⟩⟩ := move_cases hS
  · obtain ⟨A, hA, hrel⟩ := (h p).send hprog
    exact hone hA (hS' ▸ hrel)
  · obtain ⟨A, hA, hrel⟩ := (h p).recv hprog
    exact hone hA (hS' ▸ hrel)
  · obtain ⟨A, hA, hrel⟩ := (h p).kernel hprog
    exact hone hA (hS' ▸ hrel)
  · -- before a wait, MPI completes what it is for
    obtain ⟨acts, v, hacts, hv, hended⟩ :=
      h.exists_all_ended hfits fun op hop => completed_of_mem hf hop
    obtain ⟨A, hA⟩ := (hv p).exists_host_wait hprog hi hended
    obtain ⟨f', hf', hrel⟩ := (hv p).host_wait hfits hprog hi hA
    obtain rfl : f = f' := Option.some.inj (hf.symm.trans hf')
    obtain ⟨w', hw', hrel'⟩ := hv.exists_host hA hS (hS' ▸ hrel)
    exact ⟨acts ++ [.host p], w', exec_append_eq_some.mpr ⟨v, hacts, exec_singleton hw'⟩, hrel'⟩

end Carrying

/-! ## §4 What the programs say -/

section Runs

variable {programs : Int → List (Instr α)} {heaps heaps' : Int → Heap α} {t : Int → Meaning α}
  {acts : List Act} {early : Bool}

/-- On the way to an end, messages fit. -/
theorem fits_of_leads (hkeeping : ∀ p, Keeping n early s p) (hend : Ended t)
    (hleads : Leads (network (move early)) s t) : Fits s := by
  obtain ⟨turns, hturns⟩ := hleads
  exact (fits_of_ended (keeping_exec hkeeping hturns) hend).of_le (le_of_exec hturns)

/-- What MPI does, the programs say, in one move or none. -/
theorem AllRelated.step (h : AllRelated n T w s) (hfits : Fits s) {act : Act}
    (hstep : w.step T act = some w') :
    ∃ turns s', exec (network (move T.early)) s turns = some s' ∧ AllRelated n T w' s' ∧
      (s' = s ∨ ∃ p, network (move T.early) s p = some s') := by
  cases act with
  | host p =>
    obtain ⟨s', hs', hrel'⟩ := h.host hfits hstep
    exact ⟨[p], s', exec_singleton hs', hrel', .inr ⟨p, hs'⟩⟩
  | capture a b k => exact ⟨[], s, rfl, h.capture hstep, .inl rfl⟩
  | finish a b k => exact ⟨[], s, rfl, h.finish hstep, .inl rfl⟩
  | deliver a b k => exact ⟨[], s, rfl, h.deliver hfits hstep, .inl rfl⟩

/-- Processes that have come somewhere in their programs. -/
def Underway (n : Nat) (T : Transport) (w : Peers α) (s : Int → Meaning α) : Prop :=
  AllRelated n T w s ∧ ∀ p, Keeping n T.early s p

/-- **MPI carries out what the programs say.** -/
theorem carriesOut (hend : Ended t) :
    CarriesOut (Peers.step T) (network (move T.early)) (Underway (α := α) n T) t where
  follows := by
    rintro w s act w' ⟨hrel, hkeeping⟩ hleads hstep
    obtain ⟨turns, s', hturns, hrel', -⟩ := hrel.step (fits_of_leads hkeeping hend hleads) hstep
    exact ⟨turns, s', hturns, hrel', keeping_exec hkeeping hturns⟩
  can := by
    rintro w s p s' ⟨hrel, hkeeping⟩ hleads hmove
    obtain ⟨acts, w', hacts, hrel'⟩ := hrel.exists_move (fits_of_leads hkeeping hend hleads) hmove
    exact ⟨acts, w', hacts, hrel', keeping_step hkeeping hmove⟩

/-- When all programs have been run, so have the meanings, and the heaps
agree. -/
theorem AllRelated.finished (h : AllRelated n T w s) :
    w.Finished ↔ Ended s := forall_congr' fun p => by rw [(h p).program]

theorem Related.heap_of_finished {comm : MpiComm} {K : Knowledge α} {A : Peer α} {S : Meaning α}
    (h : Related n comm K A S) (hprog : A.program = []) {c : Cell} (hc : c.1 < n) :
    A.proc.heap c = S.heap c := by
  obtain ⟨pending, hrule, hmem⟩ := h.rule
  rw [hprog] at hrule
  obtain rfl : pending = [] := hrule
  refine h.heap c hc fun x hx hno _ => ?_
  obtain ⟨i, hi⟩ := List.mem_iff_getElem?.mp hx
  have := (hmem ⟨i, x.isRecv, x.view⟩).mpr ⟨x, hi, hno, rfl, rfl⟩
  simp at this

/-- A run of programs that keep the rule is on the way to what they say. -/
theorem Says.carried (hkeeps : ∀ p, KeepsOff n 0 [] (programs p))
    (hearly : early = true → T.early = true) (hmeans : Says early programs heaps heaps')
    (hacts : exec (Peers.step T) (.start programs heaps n) acts = some w) :
    (∃ acts' w', exec (Peers.step T) w acts' = some w' ∧ w'.Finished) ∧
      (w.Finished → ∀ (p : Int) (c : Cell), c.1 < n → (w p).proc.heap c = heaps' p c) := by
  obtain ⟨turns, t, hturns, ht⟩ := hmeans
  have hend : Ended t := fun p => (ht p).1
  have hstart : Underway n T (.start programs heaps n) (Meaning.start programs heaps) :=
    ⟨allRelated_start hkeeps heaps, keeping_start hkeeps heaps⟩
  obtain ⟨s, acts', w', ⟨hrel, -⟩, ⟨bs, hbs⟩, hacts', hrel', -⟩ :=
    (carriesOut hend).carried_to_end (commutes_move T.early) hend.stuck hstart
      ⟨turns, exec_early hearly hturns⟩ hacts
  refine ⟨⟨acts', w', hacts', hrel'.finished.mpr hend⟩, fun hfinished p c hc => ?_⟩
  -- the meaning of a finished run is at the end
  obtain ⟨-, hst⟩ := (hrel.finished.mp hfinished).stuck.eq_nil hbs
  rw [(hrel p).heap_of_finished (hfinished p) hc, ← hst, (ht p).2]

/-- What a finished run has done is what the programs say. -/
theorem means_of_finished (hkeeps : ∀ p, KeepsOff n 0 [] (programs p)) (hmatched : Matched programs)
    (hacts : exec (Peers.step T) (.start programs heaps n) acts = some w) (hw : w.Finished) :
    ∃ heaps', Says T.early programs heaps heaps' ∧
      ∀ (p : Int) (c : Cell), c.1 < n → (w p).proc.heap c = heaps' p c := by
  obtain ⟨turns, s, hturns, hrel, -⟩ := exec_followed
    (Q := fun w s => AllRelated n T w s ∧ ∀ p, Along (programs p) (s p))
    (fun w s act w' ⟨hrel, halong⟩ hstep => by
      obtain ⟨turns, s', hturns, hrel', rfl | ⟨p, hp⟩⟩ := hrel.step (hmatched.fits halong) hstep
      · exact ⟨turns, _, hturns, hrel', halong⟩
      · exact ⟨turns, s', hturns, hrel', along_step halong hp⟩)
    ⟨allRelated_start hkeeps heaps, fun p => ⟨fun _ => rfl, fun _ => rfl⟩⟩ hacts
  refine ⟨fun p => (s p).heap, ⟨turns, s, hturns, fun p => ⟨hrel.finished.mp hw p, rfl⟩⟩, ?_⟩
  exact fun p c hc => (hrel p).heap_of_finished (hw p) hc

/-- **Programs that come to their end once always do, with the same result.**
If one run has finished, every other run can be finished, and has the same
user memory when it is: also in another mode, and with or without buffers,
as long as sends may complete there as early. Two processes that both send
and wait first, for instance, come to their end with buffers only. -/
theorem finish_everywhere (hkeeps : ∀ p, KeepsOff n 0 [] (programs p))
    (hmatched : Matched programs)
    (hacts : exec (Peers.step T) (.start programs heaps n) acts = some w) (hw : w.Finished)
    {T' : Transport} (hearly : T.early = true → T'.early = true) {acts' : List Act} {u : Peers α}
    (hacts' : exec (Peers.step T') (.start programs heaps n) acts' = some u) :
    (∃ acts'' u', exec (Peers.step T') u acts'' = some u' ∧ u'.Finished) ∧
      (u.Finished → ∀ (p : Int) (c : Cell), c.1 < n → (u p).proc.heap c = (w p).proc.heap c) := by
  obtain ⟨heaps', hmeans, hheaps⟩ := means_of_finished hkeeps hmatched hacts hw
  obtain ⟨hcan, hfinished⟩ := hmeans.carried hkeeps hearly hacts'
  exact ⟨hcan, fun hu p c hc => (hfinished hu p c hc).trans (hheaps p c hc).symm⟩

end Runs

/-! Process 0 hands two elements to process 1. -/

def handover (p : Int) : List (Instr Nat) :=
  if p = 0 then [.send (.line 0 0 2 3) 1, .wait 0]
  else if p = 1 then [.recv (.line 0 2 2 1) 0, .waitAll [0]]
  else []

def synchronous : Transport where
  mode := .synchronous
  notReady := by decide
  comm := 0
  buffers := false

def buffered : Transport where
  mode := .standard
  notReady := by decide
  comm := 0
  buffers := true

theorem keepsOff_handover (p : Int) : KeepsOff 1 0 [] (handover p) := by
  unfold handover
  split
  · exact ⟨⟨by decide, by decide, by decide⟩, by simp,
      ⟨⟨0, false, .line 0 0 2 3⟩, by simp, rfl⟩, rfl⟩
  · split
    · exact ⟨⟨by decide, by decide, by decide⟩, by simp, by simp, by simp, by simp, rfl⟩
    · rfl

theorem matched_handover : Matched handover := by
  intro a b k sv rv hsv hrv
  unfold handover at hsv hrv
  split at hsv
  · split at hrv
    · simp [List.filterMap_cons, Instr.recvsFrom] at hrv
    · split at hrv
      · rename_i ha _ hb
        subst ha hb
        have hk : k = 0 := by
          have := (List.getElem?_eq_some_iff.mp hsv).1
          simpa [List.filterMap_cons, Instr.sendsTo] using this
        subst hk
        cases hsv
        cases hrv
        rfl
      · simp at hrv
  · split at hsv
    · simp [List.filterMap_cons, Instr.sendsTo] at hsv
    · simp at hsv

theorem handover_means (heaps : Int → Heap Nat) : ∃ heaps', Says false handover heaps heaps' := by
  refine ⟨_, [0, 1, 0, 1], _, rfl, fun p => ⟨?_, rfl⟩⟩
  by_cases h0 : p = 0
  · subst h0
    rfl
  · by_cases h1 : p = 1
    · subst h1
      rfl
    · simp [Meaning.start, handover, h0, h1]

theorem finish_everywhere_handover : ∃ acts u,
    exec (Peers.step buffered) (.start handover (fun _ c => c.2) 1) acts = some u ∧
      u.Finished := by
  obtain ⟨_, hmeans⟩ := handover_means fun _ c => c.2
  have hstart : ∀ T, exec (Peers.step T) (.start handover (fun _ c => c.2) 1) [] = some _ :=
    fun _ => rfl
  obtain ⟨⟨acts, w, hacts, hw⟩, -⟩ :=
    hmeans.carried keepsOff_handover (by decide) (hstart synchronous)
  exact (finish_everywhere keepsOff_handover matched_handover hacts hw (by decide)
    (hstart buffered)).1

end KokkosComm.Mpi.Messaging
