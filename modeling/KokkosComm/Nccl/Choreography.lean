/-
KokkosComm.Nccl.Choreography — programs against `point_to_point.hpp` with the
NCCL backend.
-/
import KokkosComm.Choreography
import KokkosComm.Nccl.Streams

namespace KokkosComm.Nccl

variable {α : Type} {n : Nat}

/-- What an instruction is on this backend. -/
def instr : Command α n → Instr α
  | .send sv peer => .call (.send sv peer)
  | .recv rv peer => .call (.recv rv peer)
  | .wait op => .wait op
  | .work k => .kernel k.run

/-- The programs of the first `N` processes. -/
def programs (N : Nat) (es : List (Event α n)) : List (List (Instr α)) :=
  (List.range N).map fun p => (Event.project p 0 es).map instr

end KokkosComm.Nccl
