/-
KokkosComm.ReceptionTheorems — when a receive never corrupts its view, on
either backend.

Neither backend looks at the result of the initiation call, so a failed
receive is reported complete like any other, and its callback copies the
packed view, which nobody has written, over the receive view.
-/
import KokkosComm.Mpi.ReceptionTheorems
import KokkosComm.Nccl.ReceptionTheorems

namespace KokkosComm

/-- **A receive never corrupts its view exactly when** the completion calls
of the run are made on a receive that was initiated, and every `wait_all`
waits for it. -/
theorem recv_never_corrupts_iff (α : Type) :
    (∀ r : Mpi.ReceiveRun α, r.NeverCorrupts ↔ r.Safe) ∧
      ∀ r : Nccl.ReceiveRun α, r.NeverCorrupts ↔ r.Safe :=
  ⟨fun r => r.neverCorrupts_iff_safe, fun r => r.neverCorrupts_iff_safe⟩

/-- `MPI_Irecv` fails with code 6 (`MPI_ERR_RANK`, say) for a view of two
elements, every second cell; then `wait`. The packed view, in allocation 1,
happens to contain `true`. -/
def failedReceive : Mpi.ReceiveRun Bool where
  code := 6
  rv := .line 0 0 2 2
  src := 7
  comm := 0
  nextOp := 0
  nextAlloc := 1
  memory c := c.1 == 1
  call :=
    { fn := .mpiIrecv 7 Mpi.pointToPointTag, sendbuf := none, sendcount := 0,
      recvbuf := some ((View.line 0 0 2 2).contiguousView 1), recvcount := CInt.ofSize 2,
      comm := 0 }
  req :=
    { request_ := none,
      callbacks_ := [Mpi.unpackCallback (.line 0 0 2 2) ((View.line 0 0 2 2).contiguousView 1)
        "fence `args` unpacking after MPI call"] }
  host := ((Mpi.Host.start 0 1).allocated "TODO" (.line 0 0 2 2)).log
    (.space (.fence "fence before irecv"))
  actions := [.wait]
  fresh := by decide
  returns := rfl
  allowed := fun _ _ => ⟨trivial, trivial⟩

/-- The `wait` returns, and the view is overwritten. -/
theorem failed_receive_corrupts : ¬ ∀ r : Mpi.ReceiveRun Bool, r.NeverCorrupts := by
  intro hall
  have hfailed : ¬ failedReceive.initiated := fun h => absurd h.1 (by decide)
  have hsame := ((hall failedReceive).2 _ rfl).1.untouched hfailed (0, 0)
    ⟨[0], .cons (by decide) .nil, rfl⟩
  revert hsame
  decide

end KokkosComm
