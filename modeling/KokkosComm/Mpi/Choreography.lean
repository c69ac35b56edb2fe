/-
KokkosComm.Mpi.Choreography — programs against `point_to_point.hpp` with the
MPI backend, and that they do the same as with the other one.

§1 the programs. §2 they keep the rule, and can be run event after event:
sender and receiver make their calls, each alone, and then pass their waits.
§3 is every run, over MPI and over NCCL.
-/
import KokkosComm.Mpi.SuperstepsTheorems
import KokkosComm.Nccl.ChoreographyTheorems

namespace KokkosComm.Mpi.Messaging

open Lts

variable {α : Type} {n N : Nat}

/-! ## §1 Programs -/

/-- What an instruction is on this backend. -/
def instr : Command α n → Instr α
  | .send sv peer => .send sv peer
  | .recv rv peer => .recv rv peer
  | .wait op => .wait op
  | .work k => .kernel k.toKernel

/-- The program of a process, after `m` calls. -/
def eventProgram (p : Int) (m : Nat) (es : List (Event α n)) : List (Instr α) :=
  if 0 ≤ p then (Event.project p.toNat m es).map instr else []

/-- The programs of the processes. -/
def eventPrograms (es : List (Event α n)) (p : Int) : List (Instr α) := eventProgram p 0 es

/-- The counts fit an `int`, on both sides. -/
def CountFits : Event α n → Prop
  | .work _ _ => True
  | .transfer _ _ sv _ => sv.size < 2147483648

/-! ## §2 Event after event -/

section Events

variable {es : List (Event α n)} {m : Nat} {p : Int} {src dst : Nat} {sv rv : View}
  {k : UserKernel α n}

theorem eventProgram_nat (p m : Nat) (es : List (Event α n)) :
    eventProgram p m es = (Event.project p m es).map instr := by simp [eventProgram]

theorem eventProgram_work_self (q : Nat) : eventProgram q m (.work q k :: es) =
    .kernel k.toKernel :: eventProgram q m es := by
  rw [eventProgram_nat, eventProgram_nat, Event.project, if_pos rfl]
  rfl

theorem eventProgram_work_of_ne {q : Nat} (h : p ≠ q) :
    eventProgram p m (.work q k :: es) = eventProgram p m es := by
  unfold eventProgram
  split
  · rw [Event.project, if_neg (by omega)]
  · rfl

theorem eventProgram_src :
    eventProgram src m (.transfer src dst sv rv :: es) =
      .send sv dst :: .wait m :: eventProgram src (m + 1) es := by
  rw [eventProgram_nat, eventProgram_nat, Event.project, if_pos rfl]
  rfl

theorem eventProgram_dst (hne : src ≠ dst) :
    eventProgram dst m (.transfer src dst sv rv :: es) =
      .recv rv src :: .wait m :: eventProgram dst (m + 1) es := by
  rw [eventProgram_nat, eventProgram_nat, Event.project, if_neg hne, if_pos rfl]
  rfl

theorem eventProgram_of_ne (hsrc : p ≠ src) (hdst : p ≠ dst) :
    eventProgram p m (.transfer src dst sv rv :: es) = eventProgram p m es := by
  unfold eventProgram
  split
  · rw [Event.project, if_neg (by omega), if_neg (by omega)]
  · rfl

theorem sendable_of_carries (hc : Carries n sv rv) (hfits : sv.size < 2147483648) :
    Sendable n sv := ⟨hc.sends, hfits, hc.sent⟩

theorem receivable_of_carries (hc : Carries n sv rv) (hfits : sv.size < 2147483648) :
    Receivable n rv := ⟨hc.receives, hc.size_eq ▸ hfits, hc.distinct⟩

/-- The programs keep the rule. -/
theorem keepsOff_eventProgram (hes : ∀ e ∈ es, e.Proper N) (hfits : ∀ e ∈ es, CountFits e)
    (p : Int) (m : Nat) : KeepsOff n m [] (eventProgram p m es) := by
  induction es generalizing m with
  | nil =>
    unfold eventProgram
    split <;> rfl
  | cons e es ih =>
    have hrest := ih (fun e he => hes e (by simp [he])) fun e he => hfits e (by simp [he])
    have he := hes e (by simp)
    have hfit := hfits e (by simp)
    cases e with
    | work q k =>
      by_cases hpq : p = q
      · subst hpq
        rw [eventProgram_work_self]
        exact ⟨k.user, by simp, hrest m⟩
      · rw [eventProgram_work_of_ne hpq]
        exact hrest m
    | transfer src dst sv rv =>
      obtain ⟨-, -, hne, hc⟩ := he
      have hnone : ∀ (isRecv : Bool) (v : View), without [m] ([] ++ [⟨m, isRecv, v⟩]) = [] := by
        intro isRecv v
        simp [without]
      by_cases hsrc : p = src
      · subst hsrc
        rw [eventProgram_src]
        refine ⟨sendable_of_carries hc hfit, by simp, ⟨⟨m, false, sv⟩, by simp, rfl⟩, ?_⟩
        rw [hnone]
        exact hrest (m + 1)
      · by_cases hdst : p = dst
        · subst hdst
          rw [eventProgram_dst hne]
          refine ⟨receivable_of_carries hc hfit, by simp, ⟨⟨m, true, rv⟩, by simp, rfl⟩, ?_⟩
          rw [hnone]
          exact hrest (m + 1)
        · rw [eventProgram_of_ne hsrc hdst]
          exact hrest m

/-- Between two events. -/
def amid (es : List (Event α n)) (heaps : Int → Heap α) (posts : Int → List (Post α)) (p : Int) :
    Meaning α where
  program := eventProgram p (posts p).length es
  heap := heaps p
  posts := posts p

variable {early : Bool} {heaps : Int → Heap α} {posts : Int → List (Post α)}

theorem exec_work {q : Nat} (es : List (Event α n)) :
    exec (network (move early)) (amid (.work q k :: es) heaps posts) [(q : Int)] =
      some (amid es (Function.update heaps q (k.run (heaps q))) posts) := by
  have hmove : move early q (amid (.work q k :: es) heaps posts) =
      some (amid es (Function.update heaps q (k.run (heaps q))) posts q) := by
    simp [move, amid, eventProgram_work_self]
  refine exec_singleton (network_eq_some.mpr ⟨_, hmove, ?_⟩)
  funext p
  by_cases hp : p = q
  · subst hp
    simp
  · rw [Function.update_of_ne hp, amid, amid, Function.update_of_ne hp,
      eventProgram_work_of_ne hp]

/-- The calls of a transfer. -/
def transferred (src dst : Nat) (sv rv : View) (heaps : Int → Heap α)
    (posts : Int → List (Post α)) : Int → List (Post α) :=
  Function.update (Function.update posts src
    (posts src ++ [.send dst (sv.values (heaps src))])) dst (posts dst ++ [.recv src rv])

theorem transferred_src (hne : src ≠ dst) : transferred src dst sv rv heaps posts src =
    posts src ++ [.send dst (sv.values (heaps src))] := by
  have hne' : (src : Int) ≠ dst := by omega
  rw [transferred, Function.update_of_ne hne', Function.update_self]

theorem transferred_dst : transferred src dst sv rv heaps posts dst =
    posts dst ++ [.recv src rv] := Function.update_self _ _ _

theorem transferred_of_ne (hsrc : p ≠ src) (hdst : p ≠ dst) :
    transferred src dst sv rv heaps posts p = posts p := by
  rw [transferred, Function.update_of_ne hdst, Function.update_of_ne hsrc]

theorem Balanced.transferred (hne : src ≠ dst) (h : Balanced posts) :
    Balanced (transferred src dst sv rv heaps posts) := by
  intro a b
  have hsent : ((Messaging.transferred src dst sv rv heaps posts a).filterMap
      (Post.toPeer b)).length = ((posts a).filterMap (Post.toPeer b)).length +
        if a = src ∧ b = dst then 1 else 0 := by
    by_cases ha : a = src
    · subst ha
      rw [transferred_src hne, List.filterMap_append, List.length_append]
      by_cases hb : b = dst <;> simp [Post.toPeer, hb, eq_comm]
    · by_cases ha' : a = dst
      · subst ha'
        rw [transferred_dst, List.filterMap_append, List.length_append]
        simp [Post.toPeer, ha]
      · rw [transferred_of_ne ha ha']
        simp [ha]
  have hasked : ((Messaging.transferred src dst sv rv heaps posts b).filterMap
      (Post.fromPeer a)).length = ((posts b).filterMap (Post.fromPeer a)).length +
        if a = src ∧ b = dst then 1 else 0 := by
    by_cases hb : b = dst
    · subst hb
      rw [transferred_dst, List.filterMap_append, List.length_append]
      by_cases ha : a = src <;> simp [Post.fromPeer, ha, eq_comm]
    · by_cases hb' : b = src
      · subst hb'
        rw [transferred_src hne, List.filterMap_append, List.length_append]
        simp [Post.fromPeer, hb]
      · rw [transferred_of_ne hb' hb]
        simp [hb]
  rw [hsent, hasked, h a b]

/-- What the two waits of a transfer find. -/
theorem completed_transfer (early : Bool) (hne : src ≠ dst) (hbal : Balanced posts)
    (hsize : sv.size = rv.size) {w : Int → Meaning α}
    (hw : ∀ q, (w q).posts = transferred src dst sv rv heaps posts q) :
    completed early src w (posts src).length = some id ∧
      completed early dst w (posts dst).length = some (rv.store (sv.values (heaps src))) := by
  have hsrc : (w src).posts = posts src ++ [.send dst (sv.values (heaps src))] := by
    rw [hw, transferred_src hne]
  have hdst : (w dst).posts = posts dst ++ [.recv src rv] := by rw [hw, transferred_dst]
  refine ⟨completed_eq_some.mpr (.inl ⟨dst, sv.values (heaps src), ?_, .inr ?_, rfl⟩),
    completed_eq_some.mpr (.inr ⟨src, rv, sv.values (heaps src), ?_, ?_, ?_, rfl⟩)⟩
  · simp [hsrc]
  · rw [Meaning.sentBefore, Meaning.asked, hsrc, hdst, List.take_left' rfl, List.filterMap_append,
      List.length_append, hbal src dst]
    simp [Post.fromPeer]
  · simp [hdst]
  · rw [Meaning.askedBefore, Meaning.sent, hsrc, hdst, List.take_left' rfl, List.filterMap_append,
      ← hbal src dst, List.getElem?_append_right (Nat.le_refl _), Nat.sub_self]
    simp [Post.toPeer]
  · rw [View.length_values, hsize]

theorem exec_transfer (early : Bool) (hne : src ≠ dst) (hbal : Balanced posts)
    (hsize : sv.size = rv.size) (es : List (Event α n)) :
    ∃ turns, exec (network (move early)) (amid (.transfer src dst sv rv :: es) heaps posts)
      turns = some (amid es
        (Function.update heaps dst (rv.store (sv.values (heaps src)) (heaps dst)))
        (transferred src dst sv rv heaps posts)) := by
  have hmonotone := monotone_move early (α := α)
  have hne' : (src : Int) ≠ dst := by omega
  have hranks : [(src : Int), (dst : Int)].Nodup := by simp [hne']
  -- both make their calls
  obtain ⟨turns, hturns⟩ := hmonotone.each (w := amid (.transfer src dst sv rv :: es) heaps posts)
    (f := fun p => {
      program := .wait (posts p).length :: eventProgram p ((posts p).length + 1) es
      heap    := heaps p
      posts   := transferred src dst sv rv heaps posts p }) hranks fun p hp => by
    refine ⟨1, exec_singleton (network_eq_some.mpr ⟨_, ?_, rfl⟩)⟩
    rcases List.mem_pair.mp hp with rfl | rfl
    · simp [move, amid, eventProgram_src, transferred_src hne]
    · simp [move, amid, eventProgram_dst hne, transferred_dst]
  generalize hv : (fun q => if q ∈ [(src : Int), (dst : Int)] then _ else _) = v at hturns
  have hposts : ∀ q, (v q).posts = transferred src dst sv rv heaps posts q := by
    intro q
    rw [← hv]
    by_cases hq : q ∈ [(src : Int), (dst : Int)]
    · simp only [hq, if_true]
    · simp only [hq, if_false]
      rw [List.mem_pair, not_or] at hq
      rw [transferred_of_ne hq.1 hq.2, amid]
  obtain ⟨hsend, hrecv⟩ := completed_transfer early hne hbal hsize hposts
  -- both pass their waits
  obtain ⟨turns', hturns'⟩ := hmonotone.each (w := v)
    (f := amid es (Function.update heaps dst (rv.store (sv.values (heaps src)) (heaps dst)))
      (transferred src dst sv rv heaps posts)) hranks fun p hp => by
    refine ⟨1, exec_singleton (network_eq_some.mpr ⟨_, ?_, rfl⟩)⟩
    have hvp : v p = {
        program := .wait (posts p).length :: eventProgram p ((posts p).length + 1) es
        heap    := heaps p
        posts   := transferred src dst sv rv heaps posts p } := by
      rw [← hv]
      exact if_pos hp
    rcases List.mem_pair.mp hp with rfl | rfl
    · simp [move, hvp, completedAll, hsend, amid, transferred_src hne, Function.update_of_ne hne']
    · simp [move, hvp, completedAll, hrecv, amid, transferred_dst]
  refine ⟨turns ++ turns', exec_append_eq_some.mpr ⟨v, hturns, hturns'.trans ?_⟩⟩
  congr 1
  funext q
  by_cases hq : q ∈ [(src : Int), (dst : Int)]
  · simp only [hq, if_true]
  · simp only [hq, if_false]
    rw [← hv]
    simp only [hq, if_false]
    rw [List.mem_pair, not_or] at hq
    rw [amid, amid, Function.update_of_ne hq.2, transferred_of_ne hq.1 hq.2,
      eventProgram_of_ne hq.1 hq.2]

/-- Programs of a choreography say what it says. -/
theorem eventPrograms_mean (hes : ∀ e ∈ es, e.Proper N) (heaps : Int → Heap α)
    {memory : Nat → Heap α} (hmemory : ∀ q : Nat, heaps q = memory q) :
    ∃ heaps', Says early (eventPrograms es) heaps heaps' ∧
      ∀ q : Nat, heaps' q = Event.run memory es q := by
  suffices hall : ∀ (es : List (Event α n)), (∀ e ∈ es, e.Proper N) →
      ∀ (heaps : Int → Heap α) (posts : Int → List (Post α)) (memory : Nat → Heap α),
      Balanced posts → (∀ q : Nat, heaps q = memory q) →
      ∃ turns heaps' posts', exec (network (move early)) (amid es heaps posts) turns =
        some (amid [] heaps' posts') ∧ ∀ q : Nat, heaps' q = Event.run memory es q by
    obtain ⟨turns, heaps', posts', hturns, hheaps'⟩ :=
      hall es hes heaps (fun _ => []) memory (fun _ _ => rfl) hmemory
    refine ⟨heaps', ⟨turns, _, hturns, fun p => ⟨?_, rfl⟩⟩, hheaps'⟩
    show eventProgram p (posts' p).length ([] : List (Event α n)) = []
    simp [eventProgram, Event.project]
  intro es
  induction es with
  | nil => exact fun _ heaps posts memory _ hmemory => ⟨[], heaps, posts, rfl, hmemory⟩
  | cons e es ih =>
    intro hes heaps posts memory hbal hmemory
    obtain ⟨turns, heaps', posts', hturns, hbal', hheaps'⟩ : ∃ turns heaps' posts',
        exec (network (move early)) (amid (e :: es) heaps posts) turns =
          some (amid es heaps' posts') ∧ Balanced posts' ∧
        ∀ q : Nat, heaps' q = Event.apply memory e q := by
      cases e with
      | work p k =>
        refine ⟨_, _, _, exec_work es, hbal, fun q => ?_⟩
        by_cases hq : q = p
        · subst hq
          rw [Event.apply, Function.update_self, Function.update_self, hmemory]
        · rw [Event.apply, Function.update_of_ne hq, Function.update_of_ne (by omega), hmemory]
      | transfer src dst sv rv =>
        obtain ⟨-, -, hne, hc⟩ := hes (.transfer src dst sv rv) (by simp)
        obtain ⟨turns, hturns⟩ := exec_transfer early hne hbal hc.size_eq es
        refine ⟨turns, _, _, hturns, hbal.transferred hne, fun q => ?_⟩
        by_cases hq : q = dst
        · subst hq
          rw [Event.apply, Function.update_self, Function.update_self, hc.store_values, hmemory,
            hmemory]
        · rw [Event.apply, Function.update_of_ne hq, Function.update_of_ne (by omega), hmemory]
    obtain ⟨turns', heaps'', posts'', hturns', hheaps''⟩ :=
      ih (fun e he => hes e (by simp [he])) heaps' posts' _ hbal' hheaps'
    exact ⟨turns ++ turns', heaps'', posts'', exec_append_eq_some.mpr ⟨_, hturns, hturns'⟩,
      hheaps''⟩

end Events

/-! ## §3 Both backends -/

/-- **The backends agree.** The programs of a choreography can be finished over
MPI, with standard or synchronous sends, whatever it has done so far, as over
NCCL; and when they are, they leave the same in the user's memory on both. -/
theorem backends_agree (T : Transport) (F : Nccl.Fabric α) {es : List (Event α n)}
    (hes : ∀ e ∈ es, e.Proper N) (hfits : ∀ e ∈ es, CountFits e) (memory : Nat → Heap α)
    {acts : List Act} {w : Peers α}
    (hmpi : exec (Peers.step T)
      (.start (eventPrograms es) (fun p => memory p.toNat) n) acts = some w)
    {as : List Nccl.Act} {u : Nccl.Ranks α}
    (hnccl : exec (Nccl.Ranks.step F) (.start (Nccl.programs N es) memory n) as = some u) :
    (∃ acts' w', exec (Peers.step T) w acts' = some w' ∧ w'.Finished) ∧
      (∃ as' u', exec (Nccl.Ranks.step F) u as' = some u' ∧ u'.Finished) ∧
      (w.Finished → u.Finished → ∀ (p : Nat) (c : Cell), c.1 < n →
        (w p).proc.heap c = (u p).heap c) := by
  obtain ⟨heaps', hmeans, hheaps'⟩ : ∃ heaps', Says false (eventPrograms es)
      (fun p => memory p.toNat) heaps' ∧ ∀ q : Nat, heaps' q = Event.run memory es q :=
    eventPrograms_mean hes _ fun q => by simp
  obtain ⟨hcan, hfinished⟩ := hmeans.carried
    (fun p => keepsOff_eventProgram hes hfits p 0) Bool.noConfusion hmpi
  obtain ⟨hcan', hfinished'⟩ := Nccl.Ranks.finished_choreography hes hnccl
  refine ⟨hcan, hcan', fun hw hu p c hc => ?_⟩
  rw [hfinished hw p c hc, hheaps' p, hfinished' hu p c hc]

theorem countFits_relay : ∀ e ∈ Nccl.Ranks.relay, CountFits e := by
  intro e he
  simp only [Nccl.Ranks.relay, List.mem_cons, List.not_mem_nil, or_false] at he
  rcases he with rfl | rfl
  · exact (by decide : View.size (.line 0 0 3 2) < 2147483648)
  · exact (by decide : View.size (.line 0 4 3 2) < 2147483648)

theorem backends_agree_relay : ∃ acts w as u,
    exec (Peers.step buffered)
      (.start (eventPrograms Nccl.Ranks.relay) (fun p c => 100 * p.toNat + c.2) 1) acts = some w ∧
    w.Finished ∧ exec (Nccl.Ranks.step (Nccl.Ranks.keeping 3 (by decide)))
      (.start (Nccl.programs 3 Nccl.Ranks.relay) (fun p c => 100 * p + c.2) 1) as = some u ∧
    u.Finished ∧ (w 2).proc.heap (0, 2) = (u 2).heap (0, 2) := by
  have hmpi : exec (Peers.step buffered) (.start (eventPrograms Nccl.Ranks.relay)
    (fun p c => 100 * p.toNat + c.2) 1) [] = some _ := rfl
  have hnccl : exec (Nccl.Ranks.step (Nccl.Ranks.keeping 3 (by decide)))
    (.start (Nccl.programs 3 Nccl.Ranks.relay) (fun p c => 100 * p + c.2) 1) [] = some _ := rfl
  obtain ⟨⟨acts, w, hacts, hw⟩, ⟨as, u, has, hu⟩, -⟩ := backends_agree buffered _
    Nccl.Ranks.proper_relay countFits_relay (fun p c => 100 * p + c.2) hmpi hnccl
  obtain ⟨-, -, hagree⟩ := backends_agree buffered _
    Nccl.Ranks.proper_relay countFits_relay (fun p c => 100 * p + c.2) hacts has
  exact ⟨acts, w, as, u, hacts, hw, has, hu, hagree hw hu 2 (0, 2) (by decide)⟩

end KokkosComm.Mpi.Messaging
