import Bullshark.Worker.Run

/-!
# Worker/Reported — what a worker reports of its own

A transaction goes from the client to the batch maker, in a batch to the quorum waiter and to the
processor, which reports the batch.  On the way a batch may be dropped, where no quorum is found for
it, but none is made up, repeated or overtaken: what is reported is, in order, among what was
sealed, and what was sealed is, in order, what the clients sent (`accounted`).
-/

namespace Bullshark

namespace Worker

/-- What the clients sent. -/
def transactions (is : List Event) : List Transaction :=
  is.filterMap fun
    | .transaction message => some message
    | _ => none

/-- The batches that are reported as our own, each with the worker. -/
def ownReports (actions : List Action) : List (Digest × WorkerId) :=
  actions.filterMap fun
    | .toPrimary (.ourBatch digest id) => some (digest, id)
    | _ => none

/-- The batches between the batch maker and the processor, the oldest first. -/
def State.underway (s : State) : List SerializedBatchMessage :=
  s.rxOwn ++ (s.quorumWaiter.map QuorumWaiter.batch).toList ++
    s.rxQuorumWaiter.map QuorumWaiterMessage.batch

theorem transactions_append (is js : List Event) :
    transactions (is ++ js) = transactions is ++ transactions js := List.filterMap_append

theorem ownReports_append (log w : List Action) :
    ownReports (log ++ w) = ownReports log ++ ownReports w := List.filterMap_append

variable [Crypto] [Base64] {worker : Worker}

/-- The digest that a batch is reported under. -/
def batchDigest (txs : Batch) : Option Digest :=
  (WorkerMessage.batch txs).serialize.map Digest.hash

/-- The reports of these batches. -/
def reportsOf (id : WorkerId) (batches : List SerializedBatchMessage) : List (Digest × WorkerId) :=
  batches.map fun batch => (Digest.hash batch, id)

/-- The reports of these batches, of those that serialize. -/
def reportsOfSealed (id : WorkerId) (batches : List Batch) : List (Digest × WorkerId) :=
  batches.filterMap fun txs => (batchDigest txs).map fun digest => (digest, id)

theorem reportsOfSealed_append (id : WorkerId) (batches batches' : List Batch) :
    reportsOfSealed id (batches ++ batches')
      = reportsOfSealed id batches ++ reportsOfSealed id batches' := List.filterMap_append

/-- What a step does with transactions and batches: it seals these, and reports some of those
underway. -/
structure Conveys (worker : Worker) (s : State) (e : Event) (s' : State) (w : List Action)
    (batches : List Batch) : Prop where
  transactions : batches.flatten ++ s'.batchMaker.currentBatch ++ s'.rxBatchMaker
    = s.batchMaker.currentBatch ++ s.rxBatchMaker ++ Worker.transactions [e]
  reports : (ownReports w ++ reportsOf worker.id s'.underway).Sublist
    (reportsOf worker.id s.underway ++ reportsOfSealed worker.id batches)

/-- A step that only takes batches off their way. -/
theorem Conveys.of_sublist {s s' : State} {e : Event} {w : List Action}
    (hmaker : s'.batchMaker = s.batchMaker)
    (hrx : s'.rxBatchMaker = s.rxBatchMaker ++ Worker.transactions [e])
    (hreports : (ownReports w ++ reportsOf worker.id s'.underway).Sublist
      (reportsOf worker.id s.underway)) : Conveys worker s e s' w [] where
  transactions := by simp [hmaker, hrx]
  reports := by simpa [reportsOfSealed] using hreports

/-- A step that leaves the batches alone. -/
theorem Conveys.idle {s s' : State} {e : Event} {w : List Action}
    (hmaker : s'.batchMaker = s.batchMaker)
    (hrx : s'.rxBatchMaker = s.rxBatchMaker ++ Worker.transactions [e])
    (hunderway : s'.underway = s.underway) (hw : ownReports w = []) :
    Conveys worker s e s' w [] := by
  refine .of_sublist hmaker hrx ?_
  rw [hw, hunderway]
  exact List.Sublist.refl _

/-- **A seal sends the batch on its way.** -/
theorem Conveys.deliver {s : State} {e : Event} {txs : Option Batch} {maker : BatchMaker}
    (rest : List Transaction)
    (htransactions : txs.toList.flatten ++ maker.currentBatch ++ rest
      = s.batchMaker.currentBatch ++ s.rxBatchMaker ++ Worker.transactions [e]) :
    Conveys worker s e
      (worker.deliver { s with rxBatchMaker := rest, batchMaker := maker } txs).1
      (worker.deliver { s with rxBatchMaker := rest, batchMaker := maker } txs).2 txs.toList := by
  have hbroadcasts : ∀ (l : List (PublicKey × WorkerAddresses)) (bytes : List UInt8),
      ownReports (l.map fun a => Action.broadcast a.2.workerToWorker bytes) = [] := by
    intro l bytes
    exact List.filterMap_eq_nil_iff.mpr fun a ha => by
      obtain ⟨x, -, rfl⟩ := List.mem_map.mp ha
      rfl
  cases txs with
  | none => exact ⟨htransactions, by simp [Worker.deliver, ownReports, reportsOfSealed, State.underway]⟩
  | some txs =>
    rw [Worker.deliver]
    split
    · next hnone =>
      refine ⟨htransactions, ?_⟩
      simp [ownReports, reportsOfSealed, State.underway]
    · next serialized hsome =>
      refine ⟨htransactions, ?_⟩
      rw [hbroadcasts]
      simp [reportsOf, reportsOfSealed, State.underway, batchDigest, hsome]

/-- The account of a run that sealed these batches. -/
structure Account (worker : Worker) (is : List Event) (s : State) (log : List Action)
    (batches : List Batch) : Prop where
  transactions : batches.flatten ++ s.batchMaker.currentBatch ++ s.rxBatchMaker
    = Worker.transactions is
  reports : (ownReports log ++ reportsOf worker.id s.underway).Sublist
    (reportsOfSealed worker.id batches)

theorem Account.step {is : List Event} {e : Event} {s s' : State} {log w : List Action}
    {batches batches' : List Batch} (h : Account worker is s log batches)
    (hstep : Conveys worker s e s' w batches') :
    Account worker (is ++ [e]) s' (log ++ w) (batches ++ batches') where
  transactions := by
    rw [List.flatten_append, List.append_assoc, List.append_assoc, ← List.append_assoc batches'.flatten,
      hstep.transactions, transactions_append, ← h.transactions]
    simp only [List.append_assoc]
  reports := by
    rw [ownReports_append, reportsOfSealed_append, List.append_assoc]
    refine (hstep.reports.append_left _).trans ?_
    rw [← List.append_assoc]
    exact h.reports.append_right _

end Worker

end Bullshark
