/-
KokkosComm.Nccl.PointToPointTheorems — what `nccl::send` and `nccl::recv`
do: one NCCL call, for the view or for a packed one.
-/
import KokkosComm.Nccl.PointToPoint
import KokkosComm.Nccl.ReduceTheorems

namespace KokkosComm.Nccl

open Routine

variable {h : Host} (peer : Int) (comm : NcclComm)

theorem send_spec (sv : View) : ∃ req host, send sv peer comm h = .returns (req, host) ∧
    ncclCalls host.trace =
      ncclCalls h.trace ++ [.toPeer (sv.handed h.nextAlloc) (sentCount sv) peer comm] := by
  unfold send
  cases hc : sv.isContiguous with
  | true =>
    have hsent : sentCount sv = sv.span := if_pos hc
    rw [View.handed_of_contiguous _ hc, hsent]
    exact ⟨_, _, rfl, by simp [Host.log, ncclCalls]⟩
  | false =>
    rw [View.handed_of_packed _ hc, sentCount_of_packed hc,
      ← View.contiguousView_span h.nextAlloc sv]
    exact ⟨_, _, rfl, by simp [Host.log, Host.allocated, ncclCalls]⟩

theorem recv_spec (rv : View) : ∃ req host, recv rv peer comm h = .returns (req, host) ∧
    ncclCalls host.trace =
      ncclCalls h.trace ++ [.fromPeer (rv.handed h.nextAlloc) (sentCount rv) peer comm] := by
  unfold recv
  cases hc : rv.isContiguous with
  | true =>
    have hsent : sentCount rv = rv.span := if_pos hc
    rw [View.handed_of_contiguous _ hc, hsent]
    exact ⟨_, _, rfl, by simp [Host.log, ncclCalls]⟩
  | false =>
    rw [View.handed_of_packed _ hc, sentCount_of_packed hc,
      ← View.contiguousView_span h.nextAlloc rv]
    exact ⟨_, _, rfl, by simp [Host.log, Host.allocated, ncclCalls]⟩

end KokkosComm.Nccl
