import Bullshark.Consensus.Run
import Bullshark.Primary.Chain
import Bullshark.Primary.Frames
import Bullshark.Worker.ContentAddressed

/-!
# Node/Validator — the tasks of one authority, joined by their channels

The primary's core, its `Proposer` and its `PayloadReceiver`, the consensus task, the
`GarbageCollector` and all the workers of the authority, each as its own module has it.  A step is
a turn of one task, on what it takes from a channel or, from outside, on a frame; the tasks
interleave at will.  On the way from a worker to its primary frames may be lost, and those of an
old connection arrive after those of a new one.  A waiter may loop back whatever it was sent,
whenever it likes.

What each task has taken is the output of the machine, so that what is known of the task alone
applies (`wired`).  In particular the core receives of the `Proposer` what its own
theorems and those on the network ask for (`supplied`).
-/

namespace Bullshark

/-- The certificates sent to the `CertificateWaiter`. -/
def Core.suspendedCertificates (log : List Core.Emission) : List Certificate :=
  log.filterMap fun
    | .syncCertificate certificate => some certificate
    | _ => none

theorem Core.mem_suspendedCertificates {log : List Core.Emission} {c : Certificate} :
    c ∈ Core.suspendedCertificates log ↔ .syncCertificate c ∈ log :=
  List.mem_filterMap_iff_mem fun e _ => by cases e <;> simp

/-- The frames that the `PrimaryConnector` of a worker sends. -/
def Worker.reports (actions : List Worker.Action) : List (List UInt8) :=
  actions.filterMap fun
    | .toPrimary message => some message.serialize
    | _ => none

theorem Worker.exists_of_mem_reports {actions : List Worker.Action} {frame : List UInt8}
    (h : frame ∈ Worker.reports actions) :
    ∃ m, .toPrimary m ∈ actions ∧ frame = Worker.WorkerPrimaryMessage.serialize m := by
  obtain ⟨action, haction, heq⟩ := List.mem_filterMap.mp h
  cases action <;> cases heq
  exact ⟨_, haction, rfl⟩

/-- A validator: its core, and what its other tasks are given. -/
structure Validator where
  core : Core
  /-- `expect("Our public key or worker id is not in the committee")`. -/
  member : core.name ∈ core.committee.authorities.keys
  /-- Whether the consensus task runs in dynamic mode. -/
  dynamic : Bool
  adversaryFaults : ℕ
  adversarySeed : UInt64
  pauseBatchesDuringSilence : Bool
  headerSize : ℕ
  batchSize : ℕ

namespace Validator

/-- The `Proposer` that `Primary::spawn` makes. -/
def proposer (v : Validator) : Proposer where
  name := v.core.name
  committee := v.core.committee
  member := v.member
  adversaryFaults := v.adversaryFaults
  adversarySeed := v.adversarySeed
  pauseBatchesDuringSilence := v.pauseBatchesDuringSilence
  requestSignature := v.core.requestSignature
  headerSize := v.headerSize

def consensus (v : Validator) : Consensus := ⟨v.core.committee, v.core.gcDepth, v.dynamic⟩

def worker (v : Validator) (id : WorkerId) : Worker := ⟨v.core.name, id, v.core.committee, v.batchSize⟩

/-- The states of the tasks, and what is on its way between them. -/
structure State where
  core : Except Core.Panic Core.State
  proposer : Proposer.State
  consensus : Except Consensus.Panic Bullshark.State
  workers : WorkerId → Worker.State
  /-- The frames on their way from each worker to the primary. -/
  links : WorkerId → List (List UInt8)
  txOurDigests : List (Digest × WorkerId)
  txOthersDigests : List (Digest × WorkerId)
  txParents : List (List Certificate × ℕ)
  txHeaders : List Header
  txConsensus : List Certificate
  /-- What consensus ordered, on its way to the `GarbageCollector`. -/
  txOrdered : List Certificate
  /-- What the waiters were sent so far. -/
  headerWaiter : List Header
  certificateWaiter : List Certificate

/-- The branches of the `Proposer`. -/
inductive Branch
  | parents
  | digest
  | timer
  deriving DecidableEq

inductive Event
  /-- A worker does something. -/
  | worker (id : WorkerId) (event : Worker.Event)
  /-- `WorkerReceiverHandler::dispatch` of the primary, of a frame on its way from a worker. -/
  | workerFrame (id : WorkerId) (n : ℕ)
  /-- A frame on its way from a worker is lost. -/
  | workerFrameLost (id : WorkerId) (n : ℕ)
  /-- `PrimaryReceiverHandler::dispatch`. -/
  | primaryFrame (serialized : List UInt8)
  /-- The `PayloadReceiver` receives a digest. -/
  | payload
  /-- The `Proposer` takes a turn: whether its timer has elapsed, and the branch taken. -/
  | propose (elapsed : Bool) (branch : Branch)
  /-- The core receives a header of the `Proposer`. -/
  | ownHeader
  | headerLoopback (header : Header)
  | certificateLoopback (certificate : Certificate)
  /-- Consensus receives a certificate. -/
  | order
  /-- The `GarbageCollector` receives an ordered certificate. -/
  | collect

/-- What one task takes. -/
inductive Turn
  | core (event : Core.Event)
  | proposer (input : Proposer.Input)
  | consensus (certificate : Certificate)
  | worker (id : WorkerId) (event : Worker.Event)

variable [Crypto] (v : Validator)

/-- The core takes a turn. -/
def coreTurn (s : State) (event : Core.Event) : State × List Turn :=
  let turn := v.core.machine.step s.core event
  ({ s with
      core := turn.1
      txParents := s.txParents ++ Core.txProposer turn.2
      txConsensus := s.txConsensus ++ Core.txConsensus turn.2
      headerWaiter := s.headerWaiter ++ Core.suspendedHeaders turn.2
      certificateWaiter := s.certificateWaiter ++ Core.suspendedCertificates turn.2 },
    [.core event])

/-- The `Proposer` takes a turn. -/
def proposerTurn (s : State) (input : Proposer.Input) : State × List Turn :=
  let turn := v.proposer.step s.proposer input
  ({ s with proposer := turn.1, txHeaders := s.txHeaders ++ Proposer.headers turn.2 },
    [.proposer input])

/-- Consensus takes a turn. -/
def consensusTurn (s : State) (certificate : Certificate) : State × List Turn :=
  let turn := v.consensus.machine.step s.consensus certificate
  ({ s with
      consensus := turn.1
      txOrdered := s.txOrdered ++ Consensus.txOutput turn.2 }, [.consensus certificate])

/-- `WorkerReceiverHandler::dispatch` of the primary. -/
def receiveWorkerFrame (s : State) (serialized : List UInt8) : State :=
  match Worker.WorkerPrimaryMessage.deserialize serialized with
  | some (.ourBatch digest workerId) =>
    { s with txOurDigests := s.txOurDigests ++ [(digest, workerId)] }
  | some (.othersBatch digest workerId) =>
    { s with txOthersDigests := s.txOthersDigests ++ [(digest, workerId)] }
  | none => s

variable [Base64]

/-- A worker takes a turn. -/
def workerTurn (s : State) (id : WorkerId) (event : Worker.Event) : State × List Turn :=
  let turn := (v.worker id).step (s.workers id) event
  ({ s with
      workers := Function.update s.workers id turn.1
      links := Function.update s.links id (s.links id ++ Worker.reports turn.2) },
    [.worker id event])

@[simp] theorem workers_workerTurn (s : State) (id : WorkerId) (event : Worker.Event) :
    (v.workerTurn s id event).1.workers
      = Function.update s.workers id ((v.worker id).step (s.workers id) event).1 := rfl

@[simp] theorem links_workerTurn (s : State) (id : WorkerId) (event : Worker.Event) :
    (v.workerTurn s id event).1.links = Function.update s.links id
      (s.links id ++ Worker.reports ((v.worker id).step (s.workers id) event).2) := rfl

/-- One turn of one task. -/
def step (s : State) : Event → State × List Turn
  | .worker id event => v.workerTurn s id event
  | .workerFrame id n =>
    match (s.links id)[n]? with
    | none => (s, [])
    | some frame => (receiveWorkerFrame
        { s with links := Function.update s.links id ((s.links id).eraseIdx n) } frame, [])
  | .workerFrameLost id n =>
    ({ s with links := Function.update s.links id ((s.links id).eraseIdx n) }, [])
  | .primaryFrame serialized =>
    match (PrimaryMessage.deserialize serialized).bind PrimaryMessage.toCore with
    | none => (s, [])
    | some event => v.coreTurn s event
  | .payload =>
    match s.txOthersDigests with
    | [] => (s, [])
    | (digest, workerId) :: rest =>
      v.coreTurn { s with txOthersDigests := rest } (.batch digest workerId)
  | .propose elapsed .parents =>
    match s.txParents with
    | [] => (s, [])
    | (parents, round) :: rest =>
      v.proposerTurn { s with txParents := rest } ⟨elapsed, .parents parents (UInt64.ofNat round)⟩
  | .propose elapsed .digest =>
    match s.txOurDigests with
    | [] => (s, [])
    | (digest, workerId) :: rest =>
      v.proposerTurn { s with txOurDigests := rest } ⟨elapsed, .digest digest workerId⟩
  | .propose elapsed .timer => v.proposerTurn s ⟨elapsed, .timer⟩
  | .ownHeader =>
    match s.txHeaders with
    | [] => (s, [])
    | header :: rest => v.coreTurn { s with txHeaders := rest } (.ownHeader header)
  | .headerLoopback header =>
    if header ∈ s.headerWaiter then v.coreTurn s (.headerLoopback header) else (s, [])
  | .certificateLoopback certificate =>
    if certificate ∈ s.certificateWaiter then v.coreTurn s (.certificateLoopback certificate)
    else (s, [])
  | .order =>
    match s.txConsensus with
    | [] => (s, [])
    | certificate :: rest => v.consensusTurn { s with txConsensus := rest } certificate
  | .collect =>
    match s.txOrdered with
    | [] => (s, [])
    | certificate :: rest => v.coreTurn { s with txOrdered := rest } (.committed certificate)

/-! ## What a step is -/

/-- The certificates that consensus ordered, as the `GarbageCollector` passes them on. -/
def collected (is : List Core.Event) : List Certificate :=
  is.filterMap fun
    | .committed certificate => some certificate
    | _ => none

/-- The digests the `PayloadReceiver` got. -/
def announced (is : List Core.Event) : List (Digest × WorkerId) :=
  is.filterMap fun
    | .batch digest workerId => some (digest, workerId)
    | _ => none

omit [Crypto] [Base64] in
/-- What a waiter loops back, it was sent. -/
def Waits (s : State) : Core.Event → Prop
  | .headerLoopback header => header ∈ s.headerWaiter
  | .certificateLoopback certificate => certificate ∈ s.certificateWaiter
  | _ => True

/-- **What a step does**: nothing, or something to a connection, or one task takes what its channels
have for it. -/
inductive Transition (s : State) : State → List Turn → Prop
  | idle : Transition s s []
  | frame {id : WorkerId} {n : ℕ} {frame : List UInt8} (hlink : (s.links id)[n]? = some frame) :
      Transition s (receiveWorkerFrame
        { s with links := Function.update s.links id ((s.links id).eraseIdx n) } frame) []
  | lost (id : WorkerId) (n : ℕ) : Transition s
      { s with links := Function.update s.links id ((s.links id).eraseIdx n) } []
  | worker (id : WorkerId) (event : Worker.Event) :
      Transition s (v.workerTurn s id event).1 [.worker id event]
  | core {event : Core.Event} {headers : List Header} {ordered : List Certificate}
      {digests : List (Digest × WorkerId)}
      (hheaders : Core.ownHeaders [event] ++ headers = s.txHeaders)
      (hordered : collected [event] ++ ordered = s.txOrdered)
      (hdigests : announced [event] ++ digests = s.txOthersDigests) (hwaits : Waits s event) :
      Transition s (v.coreTurn
        { s with txHeaders := headers, txOrdered := ordered, txOthersDigests := digests }
          event).1 [.core event]
  | parents {elapsed : Bool} {parents : List Certificate} {round : ℕ}
      {rest : List (List Certificate × ℕ)} (hparents : s.txParents = (parents, round) :: rest) :
      Transition s (v.proposerTurn { s with txParents := rest }
        ⟨elapsed, .parents parents (UInt64.ofNat round)⟩).1
          [.proposer ⟨elapsed, .parents parents (UInt64.ofNat round)⟩]
  | digest {elapsed : Bool} {x : Digest × WorkerId} {rest : List (Digest × WorkerId)}
      (hdigests : s.txOurDigests = x :: rest) :
      Transition s (v.proposerTurn { s with txOurDigests := rest } ⟨elapsed, .digest x.1 x.2⟩).1
        [.proposer ⟨elapsed, .digest x.1 x.2⟩]
  | timer {elapsed : Bool} :
      Transition s (v.proposerTurn s ⟨elapsed, .timer⟩).1 [.proposer ⟨elapsed, .timer⟩]
  | consensus {certificate : Certificate} {certificates : List Certificate}
      (hcertificates : s.txConsensus = certificate :: certificates) :
      Transition s (v.consensusTurn { s with txConsensus := certificates } certificate).1
        [.consensus certificate]

/-- **Every step is one of these.** -/
theorem transition_step (s : State) (e : Event) : v.Transition s (v.step s e).1 (v.step s e).2 := by
  cases e with
  | worker id event => exact .worker id event
  | workerFrame id n =>
    rw [step]
    split
    · exact .idle
    · next hlink => exact .frame hlink
  | workerFrameLost id n => exact .lost id n
  | primaryFrame serialized =>
    rw [step]
    split
    · exact .idle
    · next event hevent =>
      obtain ⟨m, -, hm⟩ := Option.bind_eq_some_iff.mp hevent
      cases m with
      | certificatesRequest missing requestor => cases hm
      | _ =>
        cases hm
        exact .core rfl rfl rfl trivial
  | payload =>
    rw [step]
    split
    · exact .idle
    · next hrest => exact .core rfl rfl hrest.symm trivial
  | propose elapsed branch =>
    cases branch with
    | parents =>
      rw [step]
      split
      · exact .idle
      · next hrest => exact .parents hrest
    | digest =>
      rw [step]
      split
      · exact .idle
      · next hrest => exact .digest hrest
    | timer => exact .timer
  | ownHeader =>
    rw [step]
    split
    · exact .idle
    · next hrest => exact .core hrest.symm rfl rfl trivial
  | headerLoopback header =>
    rw [step]
    split
    · next hmem => exact .core rfl rfl rfl hmem
    · exact .idle
  | certificateLoopback certificate =>
    rw [step]
    split
    · next hmem => exact .core rfl rfl rfl hmem
    · exact .idle
  | order =>
    rw [step]
    split
    · exact .idle
    · next hrest => exact .consensus hrest
  | collect =>
    rw [step]
    split
    · exact .idle
    · next hrest => exact .core rfl hrest.symm rfl trivial

/-- A validator, whose workers start on these stores. -/
def machine (stores : WorkerId → Worker.Store) : Mealy State Event Turn where
  init :=
    { core := v.core.machine.init
      proposer := v.proposer.machine.init
      consensus := v.consensus.machine.init
      workers := fun id => .new (stores id)
      links := fun _ => []
      txOurDigests := []
      txOthersDigests := []
      txParents := []
      txHeaders := []
      txConsensus := []
      txOrdered := []
      headerWaiter := []
      certificateWaiter := [] }
  step := v.step

end Validator

/-! ## A validator that needs no other -/

namespace Validator.Alone

open Sample

def validator : Validator where
  core := ⟨key 1, committee2, 50, fun digest => sign digest (key 1)⟩
  member := by decide
  dynamic := false
  adversaryFaults := 0
  adversarySeed := 0
  pauseBatchesDuringSilence := false
  headerSize := 1000
  batchSize := 1

/-- The worker seals a batch and reports it, and the `Proposer` is told of it. -/
def sealing : List Event :=
  Worker.Requested.sealing.map (.worker 0) ++ [.workerFrame 0 0, .propose false .digest]

/-- A header is made, the core certifies it and hands it out. -/
def proposing : List Event := [.propose true .timer, .ownHeader, .propose false .parents]

/-- Three rounds, of which consensus orders what it can. -/
def events : List Event :=
  sealing ++ (List.replicate 3 proposing).flatten ++ List.replicate 3 .order ++ [.collect]

end Validator.Alone

end Bullshark
