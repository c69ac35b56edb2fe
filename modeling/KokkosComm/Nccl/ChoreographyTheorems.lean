/-
KokkosComm.Nccl.ChoreographyTheorems — the programs that a choreography is
projected to do what it says, under every schedule.

§1 the elements of a transfer arrive at their indices. §2 one event after
the other, with all streams empty in between, is one of the schedules, and
leaves what the choreography says. All others end alike.
-/
import KokkosComm.Nccl.Choreography
import KokkosComm.Nccl.JointTheorems

namespace KokkosComm.Nccl

open Lts MultiIndex

variable {α : Type} {n : Nat}

/-! ## §1 The elements arrive -/

section Arrival

variable {sv rv : View} {a b : AllocId}

/-- A count that reaches NCCL. -/
theorem sentCount_of_lt {v : View} (h : v.size < 2147483648 ∨ v.isContiguous = true) :
    sentCount v = v.size := by
  rcases h with h | hc
  · cases hc : v.isContiguous with
    | true => exact sentCount_of_contiguous hc
    | false => rw [sentCount_of_packed hc, CInt.ofSize_of_lt h]
  · exact sentCount_of_contiguous hc

/-- The two counts of a transfer. -/
theorem sentCount_send (hc : Carries n sv rv) : sentCount sv = sv.size :=
  sentCount_of_lt (hc.size.imp_right And.left)

theorem sentCount_recv (hc : Carries n sv rv) : sentCount rv = sv.size := by
  rw [hc.size_eq]
  exact sentCount_of_lt (hc.size_eq ▸ hc.size.imp_right And.right)

/-- The memory of the receiver after a transfer, on the allocations of the
user: element `i` has become element `i`. -/
theorem unpacked_transferred (hc : Carries n sv rv) (ha : n ≤ a) {hs hd ms md : Heap α}
    (hsrc : ∀ c : Cell, c.1 < n → hs c = ms c) {c : Cell} (hlt : c.1 < n) (hdst : hd c = md c) :
    Heap.unpacked a rv (Memory.scatter hd ((rv.handed a).buffer sv.size)
        (Memory.gather (hs.handed b sv) ((sv.handed b).buffer sv.size))) c =
      Memory.scatter md rv.elements (Memory.gather ms sv.elements) c := by
  have hsame : sv.values hs = sv.values ms := View.values_congr fun c hm => hsrc c (by
    rw [View.fst_of_mem_elements hm]
    exact hc.sends)
  rw [Heap.gather_handed_values hc.sent, hsame, hc.size_eq, ← hc.store_values]
  refine Heap.unpacked_store hc.distinct ?_ ?_
  · exact Memory.gather_scatter (View.nodup_buffer _ _) (by simp [hc.size_eq])
  · by_cases hm : c ∈ rv.elements
    · exact .inl hm
    · refine .inr ((Memory.scatter_of_not_mem fun hbuf => ?_).trans hdst)
      have hbuf := List.mem_of_mem_take hbuf
      cases hcont : rv.isContiguous with
      | true =>
        rw [View.buffer_handed fun _ => hc.distinct, View.handed_of_contiguous a hcont] at hbuf
        exact hm (View.mem_traveling.mp hbuf)
      | false =>
        rw [View.handed_of_packed a hcont] at hbuf
        have halloc : c.1 = a := (View.mem_buffer.mp hbuf).1
        rw [halloc] at hlt
        exact Nat.lt_irrefl _ (Nat.lt_of_lt_of_le hlt ha)

end Arrival

/-! ## §2 Event after event -/

namespace Ranks

variable {F : Fabric α} {w : Ranks α} {N : Nat}

/-- The program of process `p` after `m` calls, when these events are to come. -/
def eventProgram (es : List (Event α n)) (p m : Nat) : List (Instr α) :=
  (Event.project p m es).map instr

variable {es : List (Event α n)} {heaps : Nat → Heap α}

/-- A transfer takes place. -/
theorem Between.transfer {prog prog' : Nat → Nat → List (Instr α)} {src dst : Nat} {sv rv : View}
    (hne : src ≠ dst) (hc : Carries n sv rv) (h : Between n prog heaps w)
    (hsend : ∀ m, prog src m = .call (.send sv dst) :: .wait m :: prog' src (m + 1))
    (hrecv : ∀ m, prog dst m = .call (.recv rv src) :: .wait m :: prog' dst (m + 1))
    (hothers : ∀ p m, p ≠ src → p ≠ dst → prog p m = prog' p m) :
    ∃ as w', exec (step F) w as = some w' ∧
      Between n prog' (Event.apply heaps (.transfer src dst sv rv : Event α n)) w' := by
  have hparties : ∀ {p}, p ∈ (Joint.transfer src dst sv.size hne).parties F.size ↔
      p = src ∨ p = dst := by simp [Joint.parties]
  refine h.joint (.transfer src dst sv.size hne)
    (fun p => if p = src then .send sv dst else .recv rv src)
    (fun p a => if p = src then .nccl (.toPeer (sv.handed a) (sentCount sv) dst F.comm)
      else .nccl (.fromPeer (rv.handed a) (sentCount rv) src F.comm))
    (fun p a => if p = src then packs a sv else none)
    (fun p a => if p = src then none else unpacks a rv)
    (fun p hp m => ?_) (fun p hp m => ?_) (fun p hp a => ?_) (fun p hp a => ?_) (fun p hp => ?_)
    fun a hs fs ha hheap hfs p hp c hlt => ?_
  · rcases hparties.mp hp with rfl | rfl
    · rw [hsend, if_pos rfl]
    · rw [hrecv, if_neg hne.symm]
  · rw [hparties, not_or] at hp
    exact hothers p m hp.1 hp.2
  · rcases hparties.mp hp with rfl | rfl
    · simp only [if_true]
      exact makes_send sv dst
    · simp only [hne.symm, if_false]
      exact makes_recv rv src
  · rcases hparties.mp hp with rfl | rfl
    · simp [TransportCall.wire, NcclCall.toPeer, sentCount_send hc, Joint.wire]
    · simp [TransportCall.wire, NcclCall.fromPeer, sentCount_recv hc, Joint.wire, hne.symm]
  · rw [hparties, not_or] at hp
    rw [Event.apply, Function.update_of_ne hp.2]
  · have hsrc : fs src = (hs src).handed (a src) sv := by
      rw [hfs src (hparties.mpr (.inl rfl)), if_pos rfl, copied_packs]
    have hdst : fs dst = hs dst := by
      rw [hfs dst (hparties.mpr (.inr rfl)), if_neg hne.symm]
      rfl
    rcases hparties.mp hp with rfl | rfl
    · -- the sender keeps its memory
      rw [Event.apply, Function.update_of_ne hne]
      simp only [if_true, Fabric.after, Joint.parties, List.map_cons, List.map_nil, hne, if_false]
      rw [copied, hsrc, Heap.handed_of_ne sv _ (Nat.ne_of_lt (Nat.lt_of_lt_of_le hlt (ha p)))]
      exact hheap p c hlt
    · rw [Event.apply, Function.update_self]
      simp only [hne.symm, if_true, if_false, Fabric.after, Joint.parties, List.map_cons,
        List.map_nil, copied_unpacks, hsrc, hdst]
      simpa [TransportCall.received, TransportCall.sent, NcclCall.fromPeer, NcclCall.toPeer]
        using unpacked_transferred hc (ha p) (hheap src) hlt (hheap p c hlt)

/-- Event after event, to the end. -/
theorem Between.exists_finished (h : Between n (eventProgram es) heaps w)
    (hes : ∀ e ∈ es, e.Proper N) :
    ∃ as t, exec (step F) w as = some t ∧ Finished t ∧
      ∀ p (c : Cell), c.1 < n → (t p).heap c = Event.run heaps es p c := by
  induction es generalizing w heaps with
  | nil => exact ⟨[], w, rfl, fun p => ⟨h.program p, (h.idle p).queue⟩, h.heap⟩
  | cons e es ih =>
    obtain ⟨as, u, has, hu⟩ : ∃ as u, exec (step F) w as = some u ∧
        Between n (eventProgram es) (Event.apply heaps e) u := by
      have he := hes e (by simp)
      cases e with
      | work p k =>
        exact h.work (fun m => by simp [eventProgram, Event.project, instr]) fun q m hq => by
          simp [eventProgram, Event.project, Ne.symm hq]
      | transfer src dst sv rv =>
        obtain ⟨-, -, hne, hc⟩ := he
        exact h.transfer hne hc (fun m => by simp [eventProgram, Event.project, instr])
          (fun m => by simp [eventProgram, Event.project, instr, hne]) fun q m hs hd => by
            simp [eventProgram, Event.project, Ne.symm hs, Ne.symm hd]
    obtain ⟨bs, t, hbs, hend, hheap⟩ := ih hu fun e he => hes e (by simp [he])
    exact ⟨as ++ bs, t, exec_append_eq_some.mpr ⟨u, has, hbs⟩, hend, hheap⟩

theorem between_programs (hes : ∀ e ∈ es, e.Proper N) (heaps : Nat → Heap α) :
    Between n (eventProgram es) heaps (start (programs N es) heaps n) := by
  refine ⟨fun p => ⟨rfl, rfl, Nat.le_refl n⟩, fun p => ?_, fun p c _ => rfl⟩
  show (programs N es)[p]?.getD [] = (Event.project p 0 es).map instr
  unfold programs
  by_cases hp : p < N
  · simp [hp]
  · rw [Event.project_of_le hes (Nat.not_lt.mp hp)]
    simp [hp]

/-- Every run can be finished, and however it is, the memories are those of
the choreography. -/
theorem finished_choreography (hes : ∀ e ∈ es, e.Proper N) {as : List Act} {u : Ranks α}
    (hrun : exec (step F) (start (programs N es) heaps n) as = some u) :
    (∃ bs t, exec (step F) u bs = some t ∧ Finished t) ∧
      (Finished u → ∀ p (c : Cell), c.1 < n → (u p).heap c = Event.run heaps es p c) := by
  obtain ⟨cs, t, hcs, hend, hheap⟩ := (between_programs hes heaps).exists_finished (F := F) hes
  obtain ⟨⟨bs, hbs⟩, hlike⟩ := finished_like hcs hend hrun
  refine ⟨⟨bs, t, hbs, hend⟩, fun hu => ?_⟩
  rw [hlike hu]
  exact hheap

/-- **Programs projected from a choreography do what it says.** Whatever the
schedule has done so far, all processes can still be finished, and however
that is done, element `i` of each receive view is what element `i` of its
send view was at that point of the choreography. -/
theorem choreography_carried_out (F : Fabric α) {es : List (Event α n)}
    (hes : ∀ e ∈ es, e.Proper N) (heaps : Nat → Heap α) {as : List Act} {u : Ranks α}
    (hrun : exec (step F) (start (programs N es) heaps n) as = some u) :
    (∃ bs t, exec (step F) u bs = some t ∧ Finished t) ∧
      ∀ bs t, exec (step F) u bs = some t → Finished t →
        ∀ p (c : Cell), c.1 < n → (t p).heap c = Event.run heaps es p c :=
  ⟨(finished_choreography hes hrun).1, fun _ _ hbs hend =>
    (finished_choreography hes (exec_append_eq_some.mpr ⟨u, hrun, hbs⟩)).2 hend⟩

/-- Three processes that hand a strided view on. -/
def relay : List (Event Nat 1) :=
  [.transfer 0 1 (.line 0 0 3 2) (.line 0 4 3 2), .transfer 1 2 (.line 0 4 3 2) (.line 0 0 3 2)]

theorem proper_relay : ∀ e ∈ relay, e.Proper 3 := by
  intro e he
  simp only [relay, List.mem_cons, List.not_mem_nil, or_false] at he
  rcases he with rfl | rfl
  all_goals
    exact ⟨by decide, by decide, by decide, by decide, by decide, by decide, by decide,
      .inl (by decide), by decide, by decide⟩

theorem relay_carried_out : ∃ bs t,
    exec (step (keeping 3 (by decide)))
      (start (programs 3 relay) (fun p c => 100 * p + c.2) 1) bs = some t ∧ Finished t ∧
        (t 2).heap (0, 2) = 2 := by
  have hstart : exec (step (keeping 3 (by decide)))
    (start (programs 3 relay) (fun p c => 100 * p + c.2) 1) [] = some _ := rfl
  obtain ⟨⟨bs, t, hbs, hend⟩, hall⟩ := choreography_carried_out _ proper_relay _ hstart
  exact ⟨bs, t, hbs, hend, (hall bs t hbs hend 2 (0, 2) (by decide)).trans (by decide)⟩

end Ranks

end KokkosComm.Nccl
