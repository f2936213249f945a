import Bullshark.Primary.Messages
import Bullshark.Primary.Adversary
import Bullshark.Machinery.Mealy

/-!
# Primary/Proposer — the main loop that makes our own headers

`Proposer` of `proposer.rs`.  One step of the machine is one turn of the loop: first the check
whether a header can be proposed, which reads the timer, then one branch of the `select!`.  The
timer is not modelled: whether it has elapsed at the check is part of the input.
-/

namespace Bullshark

/-- The immutable part of a `Proposer` instance. -/
structure Proposer where
  /-- The public key of this primary. -/
  name : PublicKey
  committee : Committee
  /-- `expect("Our public key or worker id is not in the committee")`. -/
  member : name ∈ committee.authorities.keys
  /-- Number of dynamically silent authorities in each round. -/
  adversaryFaults : ℕ
  /-- Makes the random adversary schedule reproducible. -/
  adversarySeed : UInt64
  /-- Whether a silent authority also pauses local batch production. -/
  pauseBatchesDuringSilence : Bool
  /-- The signature service. -/
  requestSignature : Digest → Signature
  /-- The size of the headers' payload. -/
  headerSize : ℕ

namespace Proposer

/-- What the `Proposer` sends. -/
inductive Emission
  /-- A new header, to the `Core`. -/
  | header (header : Header)
  /-- `PrimaryWorkerMessage::BatchSilent`, to our workers. -/
  | batchSilent (addresses : List SocketAddr) (round : UInt64) (pause : Bool)

structure State where
  /-- The current round of the dag. -/
  round : UInt64
  /-- Round for which `silent` was computed. -/
  silenceRound : UInt64
  /-- Cached decision for `silenceRound`. -/
  silent : Bool
  /-- Holds the certificates' ids waiting to be included in the next header. -/
  lastParents : List Certificate
  /-- Holds the certificate of the last leader (if any). -/
  lastLeader : Option Certificate
  /-- Holds the batches' digests waiting to be included in the next header. -/
  digests : List (Digest × WorkerId)
  /-- Keeps track of the size (in bytes) of batches' digests that we received so far. -/
  payloadSize : ℕ
  /-- Whether we are on the happy path. -/
  advance : Bool

/-- The branches of the `select!`. -/
inductive Branch
  /-- The `Core` sends certificates of a round. -/
  | parents (parents : List Certificate) (round : UInt64)
  /-- One of our workers sends the digest of a batch. -/
  | digest (digest : Digest) (workerId : WorkerId)
  /-- The timer fires. -/
  | timer

/-- One turn of the loop: whether the timer has elapsed at the check, then the branch taken. -/
structure Input where
  elapsed : Bool
  branch : Branch

variable (proposer : Proposer)

/-- Local workers that must pause batch production with this proposer. -/
def workerAddresses : List SocketAddr :=
  match proposer.committee.ourWorkers proposer.name with
  | .ok workers => workers.map fun worker => worker.primaryToWorker
  -- excluded by `member`
  | .error _ => []

/-- The leader of a round. -/
def leader (round : UInt64) : PublicKey :=
  (proposer.committee.leader round.toNat).get
    (proposer.committee.isSome_leader proposer.member round.toNat)

/-- `Proposer::update_leader`. -/
def updateLeader (state : State) : State × Bool :=
  let lastLeader := state.lastParents.find? fun x => decide (x.origin = proposer.leader state.round)
  ({ state with lastLeader }, lastLeader.isSome)

/-- Check if we can propose a new header: we have a quorum of parents, and the timer expired or we
have enough digests and are on the happy path. -/
def ready (elapsed : Bool) (state : State) : Bool :=
  let enoughParents := !state.lastParents.isEmpty
  let enoughDigests := decide (state.payloadSize ≥ proposer.headerSize)
  (elapsed || (enoughDigests && state.advance)) && enoughParents

variable [Crypto]

/-- `Proposer::compute_silence`. -/
def computeSilence (round : UInt64) : Bool :=
  Adversary.selected proposer.name proposer.committee.authorities.keys round
    proposer.adversaryFaults proposer.adversarySeed (proposer.leader round)

/-- `Proposer::prepare_round`. -/
def prepareRound (round : UInt64) (state : State) : State × List Emission :=
  let silent := proposer.computeSilence round
  let state := { state with silenceRound := round, silent }
  if proposer.adversaryFaults = 0 then (state, [])
  else
    let pauseBatches := silent && proposer.pauseBatchesDuringSilence
    (state, [.batchSilent proposer.workerAddresses round pauseBatches])

/-- `Proposer::make_header`. -/
def makeHeader (state : State) : State × List Emission :=
  let header := Header.new proposer.name state.round (BTreeMap.collect state.digests)
    (BTreeSet.collect (state.lastParents.map Certificate.digest)) proposer.requestSignature
  ({ state with digests := [], lastParents := [] }, [.header header])

/-- `Proposer::enough_votes`. -/
def enoughVotes (state : State) : Bool :=
  match state.lastLeader with
  | none => true
  | some leader =>
    let stakeOf (votes : Bool) : Stake :=
      ((state.lastParents.filter fun x =>
        decide (leader.digest ∈ x.header.parents) == votes).map fun x =>
          proposer.committee.stake x.origin).sum
    decide (stakeOf true ≥ proposer.committee.quorumThreshold)
      || decide (stakeOf false ≥ proposer.committee.validityThreshold)

/-- Advance to the next round. -/
def advanceRound (state : State) : State × List Emission :=
  let state := { state with round := state.round + 1 }
  if state.silenceRound ≠ state.round then proposer.prepareRound state.round state
  else (state, [])

/-- Enter the next round: silently, or with a new header. -/
def propose (state : State) : State × List Emission :=
  let (state, sent) := proposer.advanceRound state
  if state.silent then ({ state with lastParents := [], lastLeader := none }, sent)
  else
    let (state, made) := proposer.makeHeader state
    ({ state with payloadSize := 0 }, sent ++ made)

/-- The check at the top of the loop. -/
def check (elapsed : Bool) (state : State) : State × List Emission :=
  if proposer.ready elapsed state then proposer.propose state else (state, [])

/-- The parents' round number is compared with our current round. -/
def takeParents (parents : List Certificate) (round : UInt64) (state : State) :
    State × List Emission :=
  if round > state.round then
    -- Jump ahead in case we were late (or just joined the network).
    proposer.prepareRound round { state with round, lastParents := parents }
  else if round < state.round then (state, [])
  else ({ state with lastParents := state.lastParents ++ parents }, [])

/-- Check whether we can advance to the next round. -/
def canAdvance (state : State) : State :=
  if state.round % 2 = 0 then
    let (state, advance) := proposer.updateLeader state
    { state with advance }
  else { state with advance := proposer.enoughVotes state }

/-- The `select!`. -/
def select (state : State) : Branch → State × List Emission
  | .parents parents round =>
    let (state, sent) := proposer.takeParents parents round state
    (proposer.canAdvance state, sent)
  | .digest digest workerId =>
    ({ state with
      payloadSize := state.payloadSize + digest.toBytes.length
      digests := state.digests ++ [(digest, workerId)] }, [])
  | .timer => (state, [])

/-- One turn of the loop. -/
def step (state : State) (input : Input) : State × List Emission :=
  let (state, made) := proposer.check input.elapsed state
  let (state, sent) := proposer.select state input.branch
  (state, made ++ sent)

/-- The state `Proposer::spawn` makes. -/
def spawned : State where
  round := 0
  silenceRound := 0
  silent := false
  lastParents := Certificate.genesis proposer.committee
  lastLeader := none
  digests := []
  payloadSize := 0
  advance := true

/-- `Proposer::run`, from the loop on; the first round is prepared before it, and what that sends the
workers is not part of the run. -/
def machine : Mealy State Input Emission where
  init := (proposer.prepareRound (proposer.spawned.round + 1) proposer.spawned).1
  step := proposer.step

end Proposer

end Bullshark
