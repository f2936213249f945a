import Bullshark.Crypto.Primitives
import Bullshark.Machinery.Collections
import Mathlib.Data.UInt

/-!
# Config/Committee — authorities, stake and thresholds

The `config` crate's committee.  Stake is a `u32` and its sums wrap, as in a release build; the
thresholds are computed from the wrapped total.
-/

namespace Bullshark

/-- The stake of an authority. -/
abbrev Stake := UInt32

/-- The id of a worker. -/
abbrev WorkerId := UInt32

/-- An IP address. -/
inductive IpAddr
  | v4 (addr : BitVec 32)
  | v6 (addr : BitVec 128)
  deriving DecidableEq

structure SocketAddr where
  ip : IpAddr
  port : UInt16
  deriving DecidableEq

structure PrimaryAddresses where
  /-- Address to receive messages from other primaries (WAN). -/
  primaryToPrimary : SocketAddr
  /-- Address to receive messages from our workers (LAN). -/
  workerToPrimary : SocketAddr
  deriving DecidableEq

structure WorkerAddresses where
  /-- Address to receive client transactions (WAN). -/
  transactions : SocketAddr
  /-- Address to receive messages from other workers (WAN). -/
  workerToWorker : SocketAddr
  /-- Address to receive messages from our primary (LAN). -/
  primaryToWorker : SocketAddr
  deriving DecidableEq

structure Authority where
  /-- The voting power of this authority. -/
  stake : Stake
  /-- The network addresses of the primary. -/
  primary : PrimaryAddresses
  /-- Map of workers' id and their network addresses. -/
  workers : HashMap WorkerId WorkerAddresses

/-- `ConfigError::NotInCommittee`. -/
inductive ConfigError
  | notInCommittee (name : PublicKey)
  deriving DecidableEq

structure Committee where
  authorities : BTreeMap PublicKey Authority

namespace Committee

variable (committee : Committee)

/-- The number of authorities. -/
def size : ℕ := committee.authorities.entries.length

/-- The stake of a specific authority. -/
def stake (name : PublicKey) : Stake := ((committee.authorities.get name).map Authority.stake).getD 0

/-- The sum of all stakes, as the `u32` the thresholds are computed from. -/
def totalVotes : Stake := (committee.authorities.values.map Authority.stake).sum

/-- The stake required to reach a quorum (2f+1). -/
def quorumThreshold : Stake := 2 * committee.totalVotes / 3 + 1

/-- The stake required to reach availability (f+1). -/
def validityThreshold : Stake := (committee.totalVotes + 2) / 3

/-- A leader node in a round-robin fashion; `none` is the division by zero of an empty
committee. -/
def leader (seed : ℕ) : Option PublicKey := committee.authorities.keys[seed % committee.size]?

/-- The primary addresses of the target primary. -/
def primary (target : PublicKey) : Except ConfigError PrimaryAddresses :=
  match committee.authorities.get target with
  | some authority => .ok authority.primary
  | none => .error (.notInCommittee target)

/-- The addresses of all primaries except `myself`. -/
def othersPrimaries (myself : PublicKey) : List (PublicKey × PrimaryAddresses) :=
  (committee.authorities.entries.filter fun e => decide (e.1 ≠ myself)).map
    fun e => (e.1, e.2.primary)

/-- The addresses of a specific worker (`id`) of a specific authority (`target`). -/
def worker (target : PublicKey) (id : WorkerId) : Except ConfigError WorkerAddresses :=
  match committee.authorities.get target with
  | none => .error (.notInCommittee target)
  | some authority =>
    match authority.workers.lookup id with
    | none => .error (.notInCommittee target)
    | some addresses => .ok addresses

/-- The addresses of the workers of `myself`. -/
def ourWorkers (myself : PublicKey) : Except ConfigError (List WorkerAddresses) :=
  match committee.authorities.get myself with
  | none => .error (.notInCommittee myself)
  | some authority => .ok authority.workers.values

/-- The addresses of all workers with a specific id, except the one of `myself`. -/
def othersWorkers (myself : PublicKey) (id : WorkerId) : List (PublicKey × WorkerAddresses) :=
  (committee.authorities.entries.filter fun e => decide (e.1 ≠ myself)).filterMap
    fun e => (e.2.workers.lookup id).map fun addresses => (e.1, addresses)

/-- A committee with an authority has a leader. -/
theorem isSome_leader {name : PublicKey} (h : name ∈ committee.authorities.keys) (seed : ℕ) :
    (committee.leader seed).isSome := by
  have hpos : 0 < committee.size := by
    rw [size, List.length_pos_iff]
    rintro hnil
    rw [BTreeMap.keys, hnil] at h
    cases h
  have hlt : seed % committee.size < committee.authorities.keys.length := by
    rw [BTreeMap.keys, List.length_map]
    exact Nat.mod_lt _ hpos
  rw [leader, List.getElem?_eq_getElem hlt]
  rfl

end Committee

end Bullshark
