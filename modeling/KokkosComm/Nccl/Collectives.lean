/-
KokkosComm.Nccl.Collectives — `nccl::reduce` and `nccl::alltoall`
(`nccl/reduce.hpp`, `nccl/alltoall.hpp`), and the collectives they are
part of.

`alltoall` has two variants, chosen by the version of NCCL the library is
compiled with: one call of `ncclAlltoAll`, or one send and one receive for
each rank, grouped. The offsets of the blocks are computed on `int`.
-/
import KokkosComm.Elementwise
import KokkosComm.Foundation.BlockExchange
import KokkosComm.Nccl.Calls

namespace KokkosComm.Nccl

open Mpi (Callback unpackCallback)
open Routine

/-! ## `nccl::reduce` -/

/-- The call of `ncclReduce` in `reduce`. -/
def reduceCall (sendbuff recvbuff : View) (count : Int) (op : NcclRedOp) (root : Int)
    (comm : NcclComm) : NcclCall :=
  { fn := .ncclReduce op root, sendbuff := some (dataHandle sendbuff),
    recvbuff := some (dataHandle recvbuff), count := count, comm := comm }

/-- `nccl::reduce`, on the process `rank`. -/
def reduce (sv rv : View) (op : NcclRedOp) (root rank : Int) (comm : NcclComm) :
    Routine (Request Callback) := do
  pushRegion "KokkosComm::Experimental::nccl::reduce"
  let req ←
    if sv.isContiguous then do
      if rank ≠ root ∧ rv.isContiguous = true then do
        nccl (reduceCall sv rv sv.span op root comm)
        captureStreamState Request.new
      else do
        let pckdRv ← Packer.allocatePackedFor "pckd_rv" rv
        nccl (reduceCall sv pckdRv.view sv.span op root comm)
        let req ← captureStreamState Request.new
        pure (req.addCallback
          (unpackCallback rv pckdRv.view "fence `pckd_rv` unpacking after NCCL call"))
    else do
      let pckdSv ← Packer.pack "pckd_sv" sv
      let req ←
        if rank ≠ root ∧ rv.isContiguous = true then do
          nccl (reduceCall pckdSv.view rv pckdSv.count op root comm)
          captureStreamState Request.new
        else do
          let pckdRv ← Packer.allocatePackedFor "pckd_rv" rv
          nccl (reduceCall pckdSv.view pckdRv.view pckdSv.count op root comm)
          let req ← captureStreamState Request.new
          pure (req.addCallback
            (unpackCallback rv pckdRv.view "fence `pckd_rv` unpacking after NCCL call"))
      pure (req.extendViewLifetime pckdSv.view)
  let req := (req.extendViewLifetime sv).extendViewLifetime rv
  popRegion
  return req

section Collective

variable {α : Type}

/-- Member `rank` of the collective, as `Experimental::reduce` calls
`nccl::reduce`. A count that is negative is beyond every allocation. -/
def reduceParty (op : NcclRedOp) (root : Nat) (comm : NcclComm) (rank : Nat) (m : Member)
    (memory : Heap α) : Outcome (Reduction.Party Cell α) := do
  let (req, host) ← reduce m.sv m.rv op root rank comm (Host.start m.nextAlloc)
  match callsOf host.trace memory with
  | [(call, found)] =>
    match call.sendbuff, call.recvbuff with
    | some send, some recv =>
      if call.count < 0 then .undefined
      else
        .returns {
          memory   := found
          sendbuf  := send.buffer call.count.toNat
          recvbuf  := recv.buffer call.count.toNat
          complete := runCallbacks req.callbacks_ }
    | _, _ => .undefined
  | _ => .undefined

end Collective

/-! ## `nccl::alltoall` -/

/-- The loop over the ranks from `r` on, `k` of them. -/
def sendRecvLoop (sv rv : View) (count : Int) (comm : NcclComm) : Int → Nat → Routine Unit
  | _, 0 => pure ()
  | r, k + 1 => do
    let sendOffset ← CInt.mul r count
    nccl { fn := .ncclSend r, sendbuff := some { view := sv, offset := sendOffset.toNat },
           recvbuff := none, count := count, comm := comm }
    let recvOffset ← CInt.mul r count
    nccl { fn := .ncclRecv r, sendbuff := none,
           recvbuff := some { view := rv, offset := recvOffset.toNat }, count := count,
           comm := comm }
    sendRecvLoop sv rv count comm (r + 1) k

/-- `nccl::alltoall` on a communicator of `nPes` ranks; `native` is
`NCCL_VERSION_CODE >= NCCL_VERSION(2, 28, 0)`. -/
def alltoall (native : Bool) (sv rv : View) (count : Int) (nPes : Nat) (comm : NcclComm) :
    Routine (Request Callback) := do
  pushRegion "KokkosComm::Experimental::nccl::alltoall"
  let req ←
    if sv.isContiguous = true ∧ rv.isContiguous = true then do
      if native then
        nccl { fn := .ncclAlltoAll, sendbuff := some (dataHandle sv),
               recvbuff := some (dataHandle rv), count := count, comm := comm }
      else
        groupStart
        sendRecvLoop sv rv count comm 0 nPes
        groupEnd
      captureStreamState Request.new
    else (Outcome.aborts : Outcome (Request Callback))
  let req := (req.extendViewLifetime sv).extendViewLifetime rv
  popRegion
  return req

/-- The NCCL calls of a trace. -/
def ncclCalls (trace : List HostOp) : List NcclCall :=
  trace.filterMap fun a => match a with
    | .nccl call => some call
    | _ => none

/-- The peer and the cells of a send. -/
def NcclCall.send? (call : NcclCall) : Option (Nat × List Cell) :=
  match call.fn, call.sendbuff with
  | .ncclSend peer, some p => some (peer.toNat, p.buffer call.count.toNat)
  | _, _ => none

/-- The peer and the cells of a receive. -/
def NcclCall.recv? (call : NcclCall) : Option (Nat × List Cell) :=
  match call.fn, call.recvbuff with
  | .ncclRecv peer, some p => some (peer.toNat, p.buffer call.count.toNat)
  | _, _ => none

section Collective

variable {α : Type} (count : Int) (nPes : Nat) (comm : NcclComm)

/-- What a member posts in its group. -/
def alltoallPostings (m : Member) (memory : Heap α) : Outcome (BlockExchange.Postings Cell α) := do
  let (req, host) ← alltoall false m.sv m.rv count nPes comm (Host.start m.nextAlloc)
  let calls := ncclCalls host.trace
  if calls.any (·.count < 0) then .undefined
  else
    .returns {
      memory   := runTrace host.trace memory
      sends    := calls.filterMap NcclCall.send?
      recvs    := calls.filterMap NcclCall.recv?
      complete := runCallbacks req.callbacks_ }

/-- What a member brings to `ncclAlltoAll`, which finds block `r` of either
buffer `r * count` elements behind its start. -/
def alltoallParty (m : Member) (memory : Heap α) : Outcome (Reduction.Party Cell α) := do
  let (req, host) ← alltoall true m.sv m.rv count nPes comm (Host.start m.nextAlloc)
  match ncclCalls host.trace with
  | [call] =>
    match call.sendbuff, call.recvbuff with
    | some send, some recv =>
      if call.count < 0 then .undefined
      else
        .returns {
          memory   := runTrace host.trace memory
          sendbuf  := send.buffer (nPes * call.count.toNat)
          recvbuf  := recv.buffer (nPes * call.count.toNat)
          complete := runCallbacks req.callbacks_ }
    | _, _ => .undefined
  | _ => .undefined

end Collective

section Runs

variable {α : Type} (count : Int) (comm : NcclComm) (members : List Member)
  (memory : Nat → Heap α)

/-- All members, with sends and receives. -/
def runFallback : Outcome (List (Heap α)) := do
  let postings ← Outcome.all (members.mapIdx fun r m =>
    alltoallPostings count members.length comm m (memory r))
  BlockExchange.runGroup postings

/-- All members, with `ncclAlltoAll`. -/
def runNative : Outcome (List (Heap α)) := do
  let parties ← Outcome.all (members.mapIdx fun r m =>
    alltoallParty count members.length comm m (memory r))
  BlockExchange.runTranspose count.toNat parties

end Runs

end KokkosComm.Nccl
