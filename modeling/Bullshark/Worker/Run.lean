import Bullshark.Machinery.Mealy
import Bullshark.Worker.Tasks

/-!
# Worker/Run — a worker, from its frames to its store

The tasks of `Worker::spawn` on one store, joined by their channels.  An event is a frame that the
network delivers, or one task taking a turn; the tasks interleave at will.  Whatever a store holds
when a worker is stopped, the next one starts on (`Opened`).

The `Synchronizer` only reads the store: its commands leave the model as they are handed to it.
-/

namespace Bullshark

namespace Worker

/-- What a worker does. -/
inductive Action
  /-- The ACK of a frame. -/
  | ack
  /-- `ReliableSender::broadcast` of a batch, one address at a time. -/
  | broadcast (address : SocketAddr) (bytes : SerializedBatchMessage)
  /-- `SimpleSender::send`, of the helper. -/
  | reply (address : SocketAddr) (bytes : SerializedBatchMessage)
  /-- A message on `tx_primary`, for the `PrimaryConnector`. -/
  | toPrimary (message : WorkerPrimaryMessage)
  /-- A command on `tx_synchronizer`. -/
  | toSynchronizer (message : PrimaryWorkerMessage)
  deriving DecidableEq

/-- What happens to a worker. -/
inductive Event
  /-- `TxReceiverHandler::dispatch`. -/
  | transaction (message : Transaction)
  /-- `WorkerReceiverHandler::dispatch`. -/
  | workerMessage (serialized : List UInt8)
  /-- `PrimaryReceiverHandler::dispatch`, of a message that deserializes. -/
  | primaryMessage (message : PrimaryWorkerMessage)
  /-- The batch maker receives a transaction. -/
  | makeBatch
  /-- The timer of the batch maker. -/
  | batchTimer
  /-- The quorum waiter, idle, receives a message. -/
  | awaitQuorum
  /-- A cancel handler is resolved. -/
  | resolve (handler : ℕ)
  | processOwn
  | processOthers
  /-- The helper receives a request. -/
  | help
  deriving DecidableEq

/-- The variables of the tasks, and what waits in their channels. -/
structure State where
  store : Store
  /-- The round and the flag that the primary sent last. -/
  batchSilent : UInt64 × Bool
  rxBatchMaker : List Transaction
  batchMaker : BatchMaker
  /-- The number of cancel handlers made. -/
  handlers : ℕ
  rxQuorumWaiter : List QuorumWaiterMessage
  quorumWaiter : Option QuorumWaiter
  rxOwn : List SerializedBatchMessage
  rxOthers : List SerializedBatchMessage
  rxHelper : List (List Digest × PublicKey)

/-- `Worker::spawn`, on a store. -/
def State.new (store : Store) : State where
  store := store
  batchSilent := (0, false)
  rxBatchMaker := []
  batchMaker := .new
  handlers := 0
  rxQuorumWaiter := []
  quorumWaiter := none
  rxOwn := []
  rxOthers := []
  rxHelper := []

end Worker

structure Worker where
  /-- The public key of this authority. -/
  name : PublicKey
  /-- The id of this worker. -/
  id : WorkerId
  /-- The committee information. -/
  committee : Committee
  /-- `parameters.batch_size`. -/
  batchSize : ℕ

namespace Worker

section

variable [Crypto] [Base64] (worker : Worker)

/-- The second half of `BatchMaker::seal`: broadcast the batch, and send it on with its handlers. -/
def deliver (s : State) : Option Batch → State × List Action
  | none => (s, [])
  | some txs =>
    match (WorkerMessage.batch txs).serialize with
    | none => (s, [])
    | some serialized =>
      let workersAddresses := worker.committee.othersWorkers worker.name worker.id
      let handlers := workersAddresses.zipIdx s.handlers |>.map fun a => (a.1.1, a.2)
      ({ s with
          handlers := s.handlers + workersAddresses.length
          rxQuorumWaiter := s.rxQuorumWaiter ++ [⟨serialized, handlers⟩] },
        workersAddresses.map fun a => .broadcast a.2.workerToWorker serialized)

omit [Crypto] in
/-- Delivering a batch touches the channel to the quorum waiter alone. -/
theorem deliver_frame (s : State) (txs : Option Batch) :
    ∃ n l, (worker.deliver s txs).1 = { s with handlers := n, rxQuorumWaiter := l } := by
  cases txs with
  | none => exact ⟨_, _, rfl⟩
  | some txs =>
    rw [Worker.deliver]
    split
    · exact ⟨_, _, rfl⟩
    · exact ⟨_, _, rfl⟩

/-- `WorkerReceiverHandler::dispatch`. -/
def receiveWorkerMessage (s : State) (serialized : List UInt8) : State :=
  match WorkerMessage.deserialize serialized with
  | some (.batch _) => { s with rxOthers := s.rxOthers ++ [serialized] }
  | some (.batchRequest missing requestor) =>
    { s with rxHelper := s.rxHelper ++ [(missing, requestor)] }
  | none => s

/-- `PrimaryReceiverHandler::dispatch`. -/
def receivePrimaryMessage (s : State) : PrimaryWorkerMessage → State × List Action
  | .batchSilent round silent =>
    (if round ≥ s.batchSilent.1 then { s with batchSilent := (round, silent) } else s, [.ack])
  | message => (s, [.ack, .toSynchronizer message])

/-- One event. -/
def step (s : State) : Event → State × List Action
  | .transaction message => ({ s with rxBatchMaker := s.rxBatchMaker ++ [message] }, [])
  | .workerMessage serialized => (receiveWorkerMessage s serialized, [.ack])
  | .primaryMessage message => receivePrimaryMessage s message
  | .makeBatch =>
    match s.batchSilent.2, s.rxBatchMaker with
    | false, transaction :: rest =>
      let made := s.batchMaker.receive worker.batchSize transaction
      worker.deliver { s with rxBatchMaker := rest, batchMaker := made.1 } made.2
    | _, _ => (s, [])
  | .batchTimer =>
    match s.batchSilent.2 with
    | false =>
      let made := s.batchMaker.timer
      worker.deliver { s with batchMaker := made.1 } made.2
    | true => (s, [])
  | .awaitQuorum =>
    match s.quorumWaiter, s.rxQuorumWaiter with
    | none, message :: rest =>
      ({ s with
          rxQuorumWaiter := rest
          quorumWaiter :=
            QuorumWaiter.receive worker.committee (worker.committee.stake worker.name) message },
        [])
    | _, _ => (s, [])
  | .resolve handler =>
    match s.quorumWaiter with
    | none => (s, [])
    | some waiter =>
      let resolved := waiter.resolve worker.committee handler
      ({ s with quorumWaiter := resolved.1, rxOwn := s.rxOwn ++ resolved.2.toList }, [])
  | .processOwn =>
    match s.rxOwn with
    | [] => (s, [])
    | batch :: rest =>
      let processed := Processor.process worker.id true s.store batch
      ({ s with rxOwn := rest, store := processed.1 }, [.toPrimary processed.2])
  | .processOthers =>
    match s.rxOthers with
    | [] => (s, [])
    | batch :: rest =>
      let processed := Processor.process worker.id false s.store batch
      ({ s with rxOthers := rest, store := processed.1 }, [.toPrimary processed.2])
  | .help =>
    match s.rxHelper with
    | [] => (s, [])
    | request :: rest =>
      ({ s with rxHelper := rest },
        (Helper.answer worker.committee worker.id s.store request).map fun r => .reply r.1 r.2)

/-- A worker, on the store it was given. -/
def machine (store : Store) : Mealy State Event Action := ⟨.new store, worker.step⟩

/-- The stores a worker can be started on: the empty one, and what a run of a worker left. -/
inductive Opened : Store → Prop
  | empty : Opened ∅
  | reopen (worker : Worker) {store : Store} (h : Opened store) (is : List Event) :
    Opened ((worker.machine store).state is).store

end

end Worker

end Bullshark
