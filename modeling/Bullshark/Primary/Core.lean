import Bullshark.Primary.Aggregators
import Bullshark.Primary.Synchronizer
import Bullshark.Machinery.Handler
import Bullshark.Machinery.Mealy

/-!
# Primary/Core — the handlers of headers, votes and certificates, and the main loop

`Core` of `core.rs`.  The three handlers call each other: `process_header` votes, a vote of our own
goes to `process_vote`, which may complete a certificate, which goes to `process_certificate`, which
processes the header embedded in it.  `processHeaderWith recur` is the body of `process_header`
where `recur` stands for the innermost call; two rounds of it are all the code ever makes
(`Core.processHeader_eq`, in `Primary/Handlers`).

The store and the consensus round are shared with other tasks: `Event.batch` is a write of the
`PayloadReceiver`, `Event.committed` an update by the `GarbageCollector`.  The store does not fail.
-/

namespace Bullshark

/-- The immutable part of a `Core` instance. -/
structure Core where
  /-- The public key of this primary. -/
  name : PublicKey
  committee : Committee
  /-- The depth of the garbage collector. -/
  gcDepth : ℕ
  /-- The signature service. -/
  requestSignature : Digest → Signature

namespace Core

/-- The ways the core task can die. -/
inductive Panic
  /-- `expect("Failed to process our own vote")`. -/
  | ownVote
  /-- `expect("Failed to process valid certificate")`. -/
  | validCertificate
  /-- `expect("Author of valid header is not in the committee")`. -/
  | authorNotInCommittee
  /-- `panic!("Storage failure: killing node.")`. -/
  | storageFailure
  deriving DecidableEq

/-- How a handler stops early. -/
inductive Fault
  | error (e : DagError)
  | panic (p : Panic)
  deriving DecidableEq

/-- What the core sends to other tasks and to the network. -/
inductive Emission
  /-- `WaiterMessage::SyncParents`, to the `HeaderWaiter`. -/
  | syncParents (missing : List Digest) (header : Header)
  /-- `WaiterMessage::SyncBatches`, to the `HeaderWaiter`. -/
  | syncBatches (missing : List (Digest × WorkerId)) (header : Header)
  /-- To the `CertificateWaiter`. -/
  | syncCertificate (certificate : Certificate)
  /-- A vote is created, be it our own or for another primary. -/
  | created (vote : Vote)
  /-- The vote is sent to the header's creator. -/
  | send (address : SocketAddr) (vote : Vote)
  /-- The header is broadcast to the other primaries. -/
  | broadcastHeader (addresses : List SocketAddr) (header : Header)
  /-- A certificate is assembled and broadcast to the other primaries. -/
  | assembled (addresses : List SocketAddr) (certificate : Certificate)
  /-- A quorum of parents, to the `Proposer`. -/
  | parents (certificates : List Certificate) (round : ℕ)
  /-- To the consensus layer. -/
  | consensus (certificate : Certificate)
  deriving DecidableEq

/-- The state of the core, with the two objects it shares. -/
structure State where
  /-- The persistent storage, shared. -/
  store : Store
  /-- The current consensus round, shared (used for cleanup). -/
  consensusRound : ℕ
  /-- The last garbage collected round. -/
  gcRound : ℕ
  /-- The authors of the last voted headers. -/
  lastVoted : HashMap ℕ (Finset PublicKey)
  /-- The set of headers we are currently processing. -/
  processing : HashMap ℕ (Finset Digest)
  /-- The last header we proposed (for which we are waiting votes). -/
  currentHeader : Header
  /-- Aggregates votes into a certificate. -/
  votesAggregator : VotesAggregator
  /-- Aggregates certificates to use as parents for new headers. -/
  certificatesAggregators : HashMap ℕ CertificatesAggregator

namespace State

/-- The state in which `Core::spawn` starts, with an empty store. -/
def new : State where
  store := ∅
  consensusRound := 0
  gcRound := 0
  lastVoted := ∅
  processing := ∅
  currentHeader := default
  votesAggregator := .new
  certificatesAggregators := ∅

/-- The authors voted for at a round. -/
def votedAt (state : State) (round : ℕ) : Finset PublicKey := (state.lastVoted.lookup round).getD ∅

/-- The headers being processed at a round. -/
def processingAt (state : State) (round : ℕ) : Finset Digest :=
  (state.processing.lookup round).getD ∅

/-- The aggregator of a round. -/
def aggregatorAt (state : State) (round : ℕ) : CertificatesAggregator :=
  (state.certificatesAggregators.lookup round).getD .new

/-- `self.processing.entry(header.round).or_insert_with(HashSet::new).insert(header.id)`. -/
def markProcessing (state : State) (header : Header) : State :=
  { state with
    processing := state.processing.insert header.round
      (insert header.id (state.processingAt header.round)) }

/-- `self.last_voted.entry(header.round).or_insert_with(HashSet::new).insert(header.author)`. -/
def markVoted (state : State) (header : Header) : State :=
  { state with
    lastVoted := state.lastVoted.insert header.round
      (insert header.author (state.votedAt header.round)) }

/-- `Store::write`. -/
def write (state : State) (key : StoreKey) (value : StoreValue) : State :=
  { state with store := state.store.insert key value }

/-- A new content of the votes' aggregator. -/
def setVotesAggregator (state : State) (aggregator : VotesAggregator) : State :=
  { state with votesAggregator := aggregator }

/-- A new content of the aggregator of a round. -/
def setAggregator (state : State) (round : ℕ) (aggregator : CertificatesAggregator) : State :=
  { state with
    certificatesAggregators := state.certificatesAggregators.insert round aggregator }

/-- `retain(|k, _| k >= &gc_round)`. -/
def retainFrom {V : Type} (gcRound : ℕ) (m : HashMap ℕ V) : HashMap ℕ V :=
  m.retain fun k v => if k ≥ gcRound then some v else none

/-- The clean-up at the end of each turn of the main loop. -/
def cleanUp (state : State) (gcDepth : ℕ) : State :=
  if state.consensusRound > gcDepth then
    let gcRound := state.consensusRound - gcDepth
    { state with
      lastVoted := retainFrom gcRound state.lastVoted
      processing := retainFrom gcRound state.processing
      certificatesAggregators := retainFrom gcRound state.certificatesAggregators
      gcRound }
  else state

end State

/-- A handler of the core. -/
abbrev CoreM := Handler State Emission Fault

open Handler

/-- `?` on a `DagResult`. -/
def check {α : Type} (r : Except DagError α) : CoreM α := ofExcept Fault.error r

/-- `Result::expect`: an error kills the task; a panic goes through. -/
def expect (p : Panic) (x : CoreM Unit) : CoreM Unit :=
  mapError (fun | .error _ => .panic p | .panic q => .panic q) x

variable [Crypto] (core : Core)

/-- `Synchronizer::get_parents`. -/
def getParents (header : Header) : CoreM (List Certificate) := do
  let state ← get
  let (missing, parents) ← check (Synchronizer.findParents core.committee state.store header)
  if missing = [] then return parents
  emit (.syncParents missing header)
  return []

/-- `Synchronizer::missing_payload`. -/
def missingPayload (header : Header) : CoreM Bool := do
  let state ← get
  let missing := Synchronizer.missingBatches core.name state.store header
  if missing = [] then return false
  emit (.syncBatches missing header)
  return true

/-- `Synchronizer::deliver_certificate`. -/
def deliverCertificate (certificate : Certificate) : CoreM Bool := do
  let state ← get
  if Synchronizer.hasAncestors core.committee state.store certificate then return true
  emit (.syncCertificate certificate)
  return false

/-- One turn of the loop over the parents: `x` is from the previous round; add its stake. -/
def countParent (header : Header) (stake : Stake) (x : Certificate) : Except DagError Stake := do
  ensure (x.header.rawRound + 1 = header.rawRound) (.malformedHeader header.id)
  return stake + core.committee.stake x.origin

/-- The parents form a quorum and are all from the previous round. -/
def checkParents (header : Header) (parents : List Certificate) : Except DagError Unit := do
  let stake ← parents.foldlM (core.countParent header) 0
  ensure (stake ≥ core.committee.quorumThreshold) (.headerRequiresQuorum header.id)

/-- The addresses of the other primaries. -/
def othersAddresses : List SocketAddr :=
  (core.committee.othersPrimaries core.name).map fun x => x.2.primaryToPrimary

/-- Process the header embedded in the certificate if we haven't already. -/
def processEmbeddedWith (recur : Header → CoreM Unit) (certificate : Certificate) : CoreM Unit := do
  let state ← get
  if certificate.header.id ∉ state.processingAt certificate.header.round then
    recur certificate.header

/-- Store the certificate, hand out parents if there are enough, and send it to the consensus
layer. -/
def acceptCertificate (certificate : Certificate) : CoreM Unit := do
  modify (·.write (.digest certificate.digest) (.certificate certificate))
  let state ← get
  let (aggregator, parents) :=
    (state.aggregatorAt certificate.round).append certificate core.committee
  modify (·.setAggregator certificate.round aggregator)
  if let some parents := parents then emit (.parents parents certificate.round)
  emit (.consensus certificate)

/-- `Core::process_certificate`. -/
def processCertificateWith (recur : Header → CoreM Unit) (certificate : Certificate) :
    CoreM Unit := do
  processEmbeddedWith recur certificate
  -- Ensure we have all the ancestors of this certificate yet.
  if ← core.deliverCertificate certificate then core.acceptCertificate certificate

/-- `Core::process_vote`. -/
def processVoteWith (recur : Header → CoreM Unit) (vote : Vote) : CoreM Unit := do
  -- Add it to the votes' aggregator and try to make a new certificate.
  let state ← get
  let (aggregator, certificate) ←
    check (state.votesAggregator.append vote core.committee state.currentHeader)
  modify (·.setVotesAggregator aggregator)
  if let some certificate := certificate then
    -- Broadcast the certificate.
    emit (.assembled core.othersAddresses certificate)
    -- Process the new certificate.
    expect .validCertificate (core.processCertificateWith recur certificate)

/-- The part of `process_header` up to the vote: may we vote for this header? -/
def admitHeader (header : Header) : CoreM Bool := do
  -- Indicate that we are processing this header.
  modify (·.markProcessing header)
  -- Ensure we have the parents.
  let parents ← core.getParents header
  if parents = [] then return false
  -- Check the parent certificates.
  check (core.checkParents header parents)
  -- Ensure we have the payload.
  if ← core.missingPayload header then return false
  -- Store the header.
  modify (·.write (.digest header.id) (.header header))
  -- Check if we can vote for this header.
  let state ← get
  if header.author ∈ state.votedAt header.round then return false
  modify (·.markVoted header)
  return true

/-- A vote for a header of our own is processed at once, any other is sent to the header's
creator. -/
def dispatchVoteWith (recur : Header → CoreM Unit) (header : Header) (vote : Vote) : CoreM Unit :=
  if vote.origin = core.name then expect .ownVote (core.processVoteWith recur vote)
  else
    match core.committee.primary header.author with
    | .ok addresses => emit (.send addresses.primaryToPrimary vote)
    | .error _ => throw (.panic .authorNotInCommittee)

/-- `Core::process_header`. -/
def processHeaderWith (recur : Header → CoreM Unit) (header : Header) : CoreM Unit := do
  if ← core.admitHeader header then
    -- Make a vote and send it to the header's creator.
    let vote := Vote.new header core.name core.requestSignature
    emit (.created vote)
    core.dispatchVoteWith recur header vote

/-- `Core::process_header`: the call it may lead to, through a vote and a certificate of our own,
leads to no further one. -/
def processHeader : Header → CoreM Unit :=
  core.processHeaderWith (core.processHeaderWith fun _ => pure ())

def processVote : Vote → CoreM Unit := core.processVoteWith core.processHeader

def processCertificate : Certificate → CoreM Unit :=
  core.processCertificateWith core.processHeader

/-- `Core::process_own_header`. -/
def processOwnHeader (header : Header) : CoreM Unit := do
  -- Reset the votes aggregator.
  modify fun state => { state with currentHeader := header, votesAggregator := .new }
  -- Broadcast the new header in a reliable manner.
  emit (.broadcastHeader core.othersAddresses header)
  -- Process the header.
  core.processHeader header

/-- `Core::sanitize_header`. -/
def sanitizeHeader (state : State) (header : Header) : Except DagError Unit := do
  ensure (state.gcRound ≤ header.round) (.tooOld header.id header.round)
  -- Verify the header's signature.
  header.verify core.committee

/-- `Core::sanitize_vote`. -/
def sanitizeVote (state : State) (vote : Vote) : Except DagError Unit := do
  ensure (state.currentHeader.round ≤ vote.round) (.tooOld vote.digest vote.round)
  -- Ensure we receive a vote on the expected header.
  ensure (vote.id = state.currentHeader.id ∧ vote.origin = state.currentHeader.author ∧
    vote.round = state.currentHeader.round) (.unexpectedVote vote.id)
  -- Verify the vote.
  vote.verify core.committee

/-- `Core::sanitize_certificate`. -/
def sanitizeCertificate (state : State) (certificate : Certificate) : Except DagError Unit := do
  ensure (state.gcRound ≤ certificate.round) (.tooOld certificate.digest certificate.round)
  -- Verify the certificate (and the embedded header).
  certificate.verify core.committee

/-- What the core and the tasks it shares objects with receive. -/
inductive Event
  /-- `PrimaryMessage::Header`. -/
  | header (header : Header)
  /-- `PrimaryMessage::Vote`. -/
  | vote (vote : Vote)
  /-- `PrimaryMessage::Certificate`. -/
  | certificate (certificate : Certificate)
  /-- A header looped back by the `HeaderWaiter`. -/
  | headerLoopback (header : Header)
  /-- A certificate looped back by the `CertificateWaiter`. -/
  | certificateLoopback (certificate : Certificate)
  /-- A new header created by the `Proposer`. -/
  | ownHeader (header : Header)
  /-- The `PayloadReceiver` gets a batch's digest. -/
  | batch (digest : Digest) (workerId : WorkerId)
  /-- The `GarbageCollector` gets a certificate ordered by consensus. -/
  | committed (certificate : Certificate)
  deriving DecidableEq

/-- The branches of the main loop. -/
def handle : Event → CoreM Unit
  | .header header => do
    check (core.sanitizeHeader (← get) header)
    core.processHeader header
  | .vote vote => do
    check (core.sanitizeVote (← get) vote)
    core.processVote vote
  | .certificate certificate => do
    check (core.sanitizeCertificate (← get) certificate)
    core.processCertificate certificate
  | .headerLoopback header => core.processHeader header
  | .certificateLoopback certificate => core.processCertificate certificate
  | .ownHeader header => core.processOwnHeader header
  | .batch _ _ => pure ()
  | .committed _ => pure ()

omit [Crypto] in
/-- The end of a turn of the main loop: a panic or a failure of the store kills the task, any other
error is logged; then the clean-up. -/
def conclude (o : Outcome State Emission Fault Unit) : Except Panic State × List Emission :=
  match o.result with
  | .error (.panic p) => (.error p, o.emitted)
  | .error (.error .storeError) => (.error .storageFailure, o.emitted)
  | _ => (.ok (o.state.cleanUp core.gcDepth), o.emitted)

/-- One event: the two that reach another task change a shared object, any other is a turn of the
main loop. -/
def step (state : State) : Event → Except Panic State × List Emission
  | .batch digest workerId => (.ok (state.write (.batch digest workerId) .empty), [])
  | .committed certificate =>
    (.ok { state with consensusRound := max state.consensusRound certificate.round }, [])
  | event => core.conclude ((core.handle event).run state)

/-- `Core::run`, with the tasks around it. -/
def machine : Mealy (Except Panic State) Event Emission where
  init := .ok .new
  step
    | .error p, _ => (.error p, [])
    | .ok state, event => core.step state event

end Core

end Bullshark
