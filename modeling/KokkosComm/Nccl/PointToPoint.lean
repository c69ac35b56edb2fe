/-
KokkosComm.Nccl.PointToPoint — `nccl::send` and `nccl::recv`
(`nccl/send.hpp`, `nccl/recv.hpp`).

A contiguous view is handed to NCCL as it is, with its span as a `size_t`;
any other one is packed, and the count of the packed view is an `int`. The
results of the NCCL calls are printed and otherwise not looked at, so the
trace is the same whether a call succeeds or not.
-/
import KokkosComm.Nccl.Calls

namespace KokkosComm.Nccl

open Mpi (Callback unpackCallback)
open Routine

/-- The call of `ncclSend` in `send`. -/
def NcclCall.toPeer (sendbuff : View) (count peer : Int) (comm : NcclComm) : NcclCall :=
  { fn := .ncclSend peer, sendbuff := some (dataHandle sendbuff), recvbuff := none,
    count := count, comm := comm }

/-- The call of `ncclRecv` in `recv`. -/
def NcclCall.fromPeer (recvbuff : View) (count peer : Int) (comm : NcclComm) : NcclCall :=
  { fn := .ncclRecv peer, sendbuff := none, recvbuff := some (dataHandle recvbuff),
    count := count, comm := comm }

/-- `nccl::send`. -/
def send (sv : View) (peer : Int) (comm : NcclComm) : Routine (Request Callback) := do
  pushRegion "KokkosComm::Impl::send"
  let req ←
    if sv.isContiguous then do
      nccl (.toPeer sv sv.span peer comm)
      pure Request.new
    else do
      let pckdSv ← Packer.pack "pckd_sv" sv
      nccl (.toPeer pckdSv.view pckdSv.count peer comm)
      pure (Request.new.extendViewLifetime pckdSv.view)
  let req ← captureStreamState req
  let req := req.extendViewLifetime sv
  popRegion
  return req

/-- `nccl::recv`. -/
def recv (rv : View) (peer : Int) (comm : NcclComm) : Routine (Request Callback) := do
  pushRegion "KokkosComm::Impl::recv"
  let req ←
    if rv.isContiguous then do
      nccl (.fromPeer rv rv.span peer comm)
      pure Request.new
    else do
      let pckdRv ← Packer.allocatePackedFor "pckd_rv" rv
      nccl (.fromPeer pckdRv.view pckdRv.count peer comm)
      pure (Request.new.addCallback
        (unpackCallback rv pckdRv.view "fence `pckd_rv` unpacking after NCCL call"))
  let req ← captureStreamState req
  let req := req.extendViewLifetime rv
  popRegion
  return req

end KokkosComm.Nccl
