import Bullshark.Store.Commands
import Bullshark.Worker.Messages

/-!
# Worker/Tasks — the tasks of a worker, turn by turn

The `BatchMaker` assembles transactions into batches, the `QuorumWaiter` holds a batch back until
enough authorities have it, the `Processor` hashes and stores it, and the `Helper` answers requests
from the store.  Each task is a state and its turns; `Worker/Run` connects them by their channels.
-/

namespace Bullshark

namespace Worker

/-- The database of the store, between two commands. -/
abbrev Store := HashMap Bullshark.Store.Key Bullshark.Store.Value

/-! ## BatchMaker -/

/-- Assemble clients transactions into batches. -/
structure BatchMaker where
  /-- Holds the current batch. -/
  currentBatch : Batch
  /-- Holds the size of the current batch (in bytes). -/
  currentBatchSize : ℕ
  deriving DecidableEq

namespace BatchMaker

def new : BatchMaker := ⟨[], 0⟩

/-- The first half of `BatchMaker::seal`: drain the current batch. -/
def sealBatch (maker : BatchMaker) : BatchMaker × Option Batch := (⟨[], 0⟩, some maker.currentBatch)

/-- Assemble client transactions into batches of preset size. -/
def receive (batchSize : ℕ) (maker : BatchMaker) (transaction : Transaction) :
    BatchMaker × Option Batch :=
  let maker : BatchMaker :=
    ⟨maker.currentBatch ++ [transaction], maker.currentBatchSize + transaction.length⟩
  if maker.currentBatchSize ≥ batchSize then maker.sealBatch else (maker, none)

/-- If the timer triggers, seal the batch even if it contains few transactions. -/
def timer (maker : BatchMaker) : BatchMaker × Option Batch :=
  if maker.currentBatch ≠ [] then maker.sealBatch else (maker, none)

end BatchMaker

/-! ## QuorumWaiter -/

structure QuorumWaiterMessage where
  /-- A serialized `WorkerMessage::Batch` message. -/
  batch : SerializedBatchMessage
  /-- The cancel handlers to receive the acknowledgements of our broadcast, by number. -/
  handlers : List (PublicKey × ℕ)
  deriving DecidableEq

/-- The `QuorumWaiter`, waiting for a quorum. -/
structure QuorumWaiter where
  batch : SerializedBatchMessage
  /-- The handlers not resolved yet, with the stake each delivers. -/
  waitForQuorum : List (ℕ × Stake)
  totalStake : Stake
  deriving DecidableEq

namespace QuorumWaiter

/-- There is no more to wait for once all futures completed. -/
def next (waiter : QuorumWaiter) : Option QuorumWaiter :=
  if waiter.waitForQuorum = [] then none else some waiter

/-- A message from the batch maker. -/
def receive (committee : Committee) (stake : Stake) (message : QuorumWaiterMessage) :
    Option QuorumWaiter :=
  next
    { batch := message.batch
      waitForQuorum := message.handlers.map fun h => (h.2, committee.stake h.1)
      totalStake := stake }

/-- A handler is resolved; with enough stake, the batch is considered delivered. -/
def resolve (committee : Committee) (waiter : QuorumWaiter) (handler : ℕ) :
    Option QuorumWaiter × Option SerializedBatchMessage :=
  match waiter.waitForQuorum.lookup handler with
  | none => (some waiter, none)
  | some stake =>
    let totalStake := waiter.totalStake + stake
    if totalStake ≥ committee.quorumThreshold then (none, some waiter.batch)
    else
      (next
        { waiter with
          waitForQuorum := waiter.waitForQuorum.eraseP fun h => h.1 = handler
          totalStake := totalStake }, none)

theorem batch_of_next {waiter waiter' : QuorumWaiter} (h : waiter.next = some waiter') :
    waiter'.batch = waiter.batch := by
  rw [next, Option.ite_none_left_eq_some] at h
  rw [Option.some.inj h.2]

/-- The quorum waiter holds on to its batch, or forwards it. -/
theorem batch_of_resolve (committee : Committee) (waiter : QuorumWaiter) (handler : ℕ) :
    (∀ waiter', (waiter.resolve committee handler).1 = some waiter' →
      waiter'.batch = waiter.batch) ∧
    ∀ batch, (waiter.resolve committee handler).2 = some batch → batch = waiter.batch := by
  rw [resolve]
  split
  · refine ⟨fun waiter' h => ?_, fun batch h => (by cases h)⟩
    cases h
    rfl
  · dsimp only
    split
    · refine ⟨fun waiter' h => (by cases h), fun batch h => ?_⟩
      cases h
      rfl
    · exact ⟨fun waiter' h => (batch_of_next h : _), fun batch h => (by cases h)⟩

end QuorumWaiter

/-! ## Processor -/

/-- Hashes and stores a batch; what it outputs is sent to the primary. -/
def Processor.process [Crypto] (id : WorkerId) (ownDigest : Bool) (store : Store)
    (batch : SerializedBatchMessage) : Store × WorkerPrimaryMessage :=
  let digest := Digest.hash batch
  (store.insert digest.toBytes batch,
    if ownDigest then .ourBatch digest id else .othersBatch digest id)

/-! ## Helper -/

/-- Reply to a request (the best we can). -/
def Helper.answer (committee : Committee) (id : WorkerId) (store : Store)
    (request : List Digest × PublicKey) : List (SocketAddr × SerializedBatchMessage) :=
  -- Get the requestors address.
  match committee.worker request.2 id with
  | .error _ => []
  | .ok x => request.1.filterMap fun digest =>
      (store.lookup digest.toBytes).map fun data => (x.workerToWorker, data)

end Worker

end Bullshark
