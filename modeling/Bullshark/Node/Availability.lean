import Bullshark.Node.Wiring

/-!
# Node/Availability — a validator stands for payload that it has

The primary of a validator votes for a header of another authority only if its own workers reported
every batch of the payload, and its own headers carry batches that its own workers reported.  A
worker reports a batch once it is stored, under its hash, and it stays there; the report reaches the
primary as the bytes of a frame.  So whatever the network does, the batches are there
(`payload_available`).
-/

namespace Bullshark

namespace Worker

variable [Crypto] {worker : Worker} {s : State} {e : Event}

section

variable [Base64]

/-- **A batch is reported once it is stored**, under the id of this worker. -/
theorem stored_of_toPrimary {m : WorkerPrimaryMessage}
    (hm : .toPrimary m ∈ (worker.step s e).2) : m.entry.2 = worker.id ∧
      ((worker.step s e).1.store.lookup m.entry.1.toBytes).isSome := by
  have hdeliver : ∀ (s' : State) (txs : Option Batch), .toPrimary m ∉ (worker.deliver s' txs).2 := by
    intro s' txs hmem
    cases txs with
    | none => cases hmem
    | some txs =>
      rw [Worker.deliver] at hmem
      split at hmem
      · cases hmem
      · obtain ⟨a, -, ha⟩ := List.mem_map.mp hmem
        cases ha
  have hinsert : ∀ (store : Store) (batch : SerializedBatchMessage),
      ((store.insert (Digest.hash batch).toBytes batch).lookup (Digest.hash batch).toBytes).isSome := by
    intro store batch
    rw [AList.lookup_insert]
    rfl
  cases e with
  | processOwn =>
    rw [Worker.step] at hm ⊢
    split at hm
    · cases hm
    · next batch rest hrx =>
      cases List.mem_singleton.mp hm
      exact ⟨rfl, hinsert _ _⟩
  | processOthers =>
    rw [Worker.step] at hm ⊢
    split at hm
    · cases hm
    · next batch rest hrx =>
      cases List.mem_singleton.mp hm
      exact ⟨rfl, hinsert _ _⟩
  | makeBatch =>
    rw [Worker.step] at hm
    split at hm
    · exact absurd hm (hdeliver _ _)
    · cases hm
  | batchTimer =>
    rw [Worker.step] at hm
    split at hm
    · exact absurd hm (hdeliver _ _)
    · cases hm
  | help =>
    rw [Worker.step] at hm
    split at hm
    · cases hm
    · obtain ⟨r, -, hr⟩ := List.mem_map.mp hm
      cases hr
  | primaryMessage message =>
    cases message <;> simp [Worker.step, receivePrimaryMessage] at hm
  | awaitQuorum =>
    rw [Worker.step] at hm
    split at hm <;> cases hm
  | resolve handler =>
    rw [Worker.step] at hm
    split at hm <;> cases hm
  | transaction message => cases hm
  | workerMessage serialized => cases List.mem_singleton.mp hm

end

end Worker

namespace Validator

/-- Our worker of that id stores the batch. -/
def Has (s : State) (x : Digest × WorkerId) : Prop :=
  ((s.workers x.2).store.lookup x.1.toBytes).isSome

/-- Every batch that is reported, or that the tasks of the primary were told of, is stored. -/
structure Stocked (s : State) (is : List Core.Event) (js : List Proposer.Input) : Prop where
  links : ∀ id, ∀ frame ∈ s.links id,
    ∃ m, Worker.WorkerPrimaryMessage.deserialize frame = some m ∧ Has s m.entry
  our : ∀ x ∈ s.txOurDigests, Has s x
  others : ∀ x ∈ s.txOthersDigests, Has s x
  received : ∀ x ∈ Proposer.receivedEntries js, Has s x
  batches : ∀ d w, .batch d w ∈ is → Has s (d, w)

namespace Stocked

variable {v : Validator} {s : State} {is : List Core.Event} {js : List Proposer.Input}

/-- **A frame of a worker arrives.** -/
theorem receiveWorkerFrame (h : Stocked s is js) {frame : List UInt8}
    (hframe : ∃ m, Worker.WorkerPrimaryMessage.deserialize frame = some m ∧ Has s m.entry) :
    Stocked (receiveWorkerFrame s frame) is js := by
  obtain ⟨m, hm, hhas⟩ := hframe
  rw [Validator.receiveWorkerFrame, hm]
  cases m with
  | ourBatch digest workerId =>
    refine { h with our := List.forall_mem_append.mpr ⟨h.our, fun x hx => ?_⟩ }
    rw [List.mem_singleton.mp hx]
    exact hhas
  | othersBatch digest workerId =>
    refine { h with others := List.forall_mem_append.mpr ⟨h.others, fun x hx => ?_⟩ }
    rw [List.mem_singleton.mp hx]
    exact hhas

/-- Frames that are taken or lost. -/
theorem update_links (h : Stocked s is js) (id : WorkerId) {frames : List (List UInt8)}
    (hframes : frames ⊆ s.links id) :
    Stocked { s with links := Function.update s.links id frames } is js := by
  refine { h with links := fun id' frame hframe => ?_ }
  by_cases hid : id' = id
  · subst hid
    have hframe : frame ∈ Function.update s.links id' frames id' := hframe
    rw [Function.update_self] at hframe
    exact h.links id' frame (hframes hframe)
  · have hframe : frame ∈ Function.update s.links id frames id' := hframe
    rw [Function.update_of_ne hid] at hframe
    exact h.links id' frame hframe

variable [Crypto]

/-- **A turn of the core**, which may be told of a batch that is stored. -/
theorem coreTurn (h : Stocked s is js) {e : Core.Event} (he : ∀ d w, e = .batch d w → Has s (d, w))
    {headers : List Header} {ordered : List Certificate} {digests : List (Digest × WorkerId)}
    (hdigests : digests ⊆ s.txOthersDigests) :
    Stocked (v.coreTurn
      { s with txHeaders := headers, txOrdered := ordered, txOthersDigests := digests } e).1
      (is ++ [e]) js where
  links := h.links
  our := h.our
  others x hx := h.others x (hdigests hx)
  received := h.received
  batches d w hmem := by
    rcases List.mem_append.mp hmem with hmem | hmem
    · exact h.batches d w hmem
    · exact he d w (List.mem_singleton.mp hmem).symm

/-- **A turn of the `Proposer`**, which may be told of a batch that is stored. -/
theorem proposerTurn (h : Stocked s is js) {j : Proposer.Input} (hj : ∀ x ∈ j.entry, Has s x)
    {parents : List (List Certificate × ℕ)} {digests : List (Digest × WorkerId)}
    (hdigests : digests ⊆ s.txOurDigests) :
    Stocked (v.proposerTurn { s with txParents := parents, txOurDigests := digests } j).1 is
      (js ++ [j]) where
  links := h.links
  our x hx := h.our x (hdigests hx)
  others := h.others
  received x hx := by
    rw [Proposer.receivedEntries, List.filterMap_append] at hx
    rcases List.mem_append.mp hx with hx | hx
    · exact h.received x hx
    · obtain ⟨j', hj', hx⟩ := List.mem_filterMap.mp hx
      cases List.mem_singleton.mp hj'
      exact hj x hx
  batches := h.batches

variable [Base64]

/-- What is stored stays stored. -/
theorem has_workerTurn {id : WorkerId} {e : Worker.Event} {x : Digest × WorkerId} (hx : Has s x) :
    Has (v.workerTurn s id e).1 x := by
  by_cases hid : x.2 = id
  · subst hid
    rw [Has, workers_workerTurn, Function.update_self]
    exact (Worker.keeps_step _ _ e).store _ hx
  · rw [Has, workers_workerTurn, Function.update_of_ne hid]
    exact hx

/-- **A turn of a worker**: what it reports is stored. -/
theorem workerTurn (h : Stocked s is js) (id : WorkerId) (e : Worker.Event) :
    Stocked (v.workerTurn s id e).1 is js where
  links id' frame hframe := by
    have hold : ∀ id', ∀ frame ∈ s.links id', ∃ m,
        Worker.WorkerPrimaryMessage.deserialize frame = some m ∧
          Has (v.workerTurn s id e).1 m.entry := fun id' frame hframe =>
      (h.links id' frame hframe).imp fun _ hm => ⟨hm.1, has_workerTurn hm.2⟩
    by_cases hid : id' = id
    · subst hid
      rw [links_workerTurn, Function.update_self] at hframe
      rcases List.mem_append.mp hframe with hframe | hframe
      · exact hold id' frame hframe
      · obtain ⟨m, hm, rfl⟩ := Worker.exists_of_mem_reports hframe
        obtain ⟨hid, hstored⟩ := Worker.stored_of_toPrimary hm
        refine ⟨m, m.deserialize_serialize, ?_⟩
        have hworker : m.entry.2 = id' := hid
        rw [Has, hworker, workers_workerTurn, Function.update_self]
        exact hstored
    · rw [links_workerTurn, Function.update_of_ne hid] at hframe
      exact hold id' frame hframe
  our x hx := has_workerTurn (h.our x hx)
  others x hx := has_workerTurn (h.others x hx)
  received x hx := has_workerTurn (h.received x hx)
  batches d w hmem := has_workerTurn (h.batches d w hmem)

/-- **One step of a validator.** -/
theorem step {log w : List Turn} {s' : State}
    (h : Stocked s (coreInputs log) (proposerInputs log)) (hstep : v.Transition s s' w) :
    Stocked s' (coreInputs (log ++ w)) (proposerInputs (log ++ w)) := by
  rw [coreInputs_append, proposerInputs_append]
  have hnil : ∀ {s' : State} {is : List Core.Event} {js : List Proposer.Input},
      Stocked s' is js → Stocked s' (is ++ []) js ∧ Stocked s' is (js ++ []) := by
    intro s' is js h'
    simpa using h'
  have hidle : Stocked s (coreInputs log ++ []) (proposerInputs log ++ []) := (hnil (hnil h).1).2
  cases hstep with
  | idle => exact hidle
  | @frame id n frame hlink =>
    refine (hidle.update_links id ((List.eraseIdx_sublist _ _).subset)).receiveWorkerFrame ?_
    exact h.links id frame (List.mem_of_getElem? hlink)
  | lost id n => exact hidle.update_links id ((List.eraseIdx_sublist _ _).subset)
  | worker id event => exact hidle.workerTurn id event
  | core _ _ hdigests _ =>
    refine (hnil (h.coreTurn (fun d w hd => ?_) ?_)).2
    · subst hd
      exact h.others _ (hdigests ▸ List.mem_cons_self)
    · exact hdigests ▸ List.subset_append_right _ _
  | parents _ =>
    exact (hnil (h.proposerTurn (fun x hx => (by cases hx)) (List.Subset.refl _))).1
  | digest hrest =>
    refine (hnil (h.proposerTurn (fun x hx => ?_) (hrest ▸ List.subset_cons_self _ _))).1
    cases hx
    exact h.our _ (hrest ▸ List.mem_cons_self)
  | timer => exact (hnil (h.proposerTurn (fun x hx => (by cases hx)) (List.Subset.refl _))).1
  | consensus _ => exact { hidle with }

end Stocked

section

variable [Crypto] [Base64]

/-- **In every run, what was reported is stored.** -/
theorem stocked (v : Validator) (stores : WorkerId → Worker.Store) (is : List Event) :
    Stocked ((v.machine stores).state is) (coreInputs ((v.machine stores).outputs is))
      (proposerInputs ((v.machine stores).outputs is)) := by
  refine (v.machine stores).invariant
    (P := fun _ s log => Stocked s (coreInputs log) (proposerInputs log)) ?_
    (fun _ e h => h.step (v.transition_step _ e)) is
  exact
    { links := fun _ _ hframe => (by cases hframe)
      our := fun _ hx => (by cases hx)
      others := fun _ hx => (by cases hx)
      received := fun _ hx => (by cases hx)
      batches := fun _ _ hmem => (by cases hmem) }

/-- Our worker of that id stores a batch that hashes to the digest. -/
def Holds (s : State) (x : Digest × WorkerId) : Prop :=
  ∃ batch, (s.workers x.2).store.lookup x.1.toBytes = some batch ∧ Digest.hash batch = x.1 ∧
    Worker.IsBatch batch

/-- What is stored is the batch. -/
theorem holds_of_has {v : Validator} {stores : WorkerId → Worker.Store}
    (hopened : ∀ id, Worker.Opened (stores id)) {is : List Event} {x : Digest × WorkerId}
    (hx : Has ((v.machine stores).state is) x) : Holds ((v.machine stores).state is) x := by
  obtain ⟨batch, hbatch⟩ := Option.isSome_iff_exists.mp hx
  have hvetted := @Worker.vetted_of_opened _ _ (v.worker x.2) _ (hopened x.2)
    (workerInputs x.2 ((v.machine stores).outputs is))
  rw [← (v.wired stores is).workers x.2] at hvetted
  obtain ⟨hdigest, hisBatch⟩ := hvetted.store _ _ hbatch
  exact ⟨batch, hbatch, Digest.toBytes_injective hdigest, hisBatch⟩

section

variable (v : Validator) (stores : WorkerId → Worker.Store)
  (hopened : ∀ id, Worker.Opened (stores id)) (is : List Event)

include hopened

/-- The batches in a header of our own. -/
theorem holds_of_own {h : Header}
    (hh : h ∈ Core.ownHeaders (coreInputs ((v.machine stores).outputs is))) :
    ∀ x ∈ h.payload.entries, Holds ((v.machine stores).state is) x := by
  intro x hx
  have hmade : h ∈ Proposer.headers (v.proposer.machine.outputs
      (proposerInputs ((v.machine stores).outputs is))) := by
    rw [← (v.wired stores is).headers]
    exact List.mem_append_left _ hh
  have hreceived := v.proposer.mem_receivedEntries _ hmade x hx
  exact holds_of_has hopened ((v.stocked stores is).received x hreceived)

/-- The batches in a header of another authority that we vote for. -/
theorem exists_holds_of_vote (vote : Vote) (hvote : vote ∈ Core.votes
      (v.core.machine.outputs (coreInputs ((v.machine stores).outputs is))))
    (hname : vote.origin ≠ v.core.name) :
    ∃ h, v.core.Familiar (coreInputs ((v.machine stores).outputs is)) h ∧
      vote = Vote.new h v.core.name v.core.requestSignature ∧
      ∀ x ∈ h.payload.entries, Holds ((v.machine stores).state is) x := by
  obtain ⟨h, hfamiliar, rfl, hbatches⟩ :=
    Core.exists_batches_of_vote (v.wired stores is).returned hvote hname
  exact ⟨h, hfamiliar, rfl, fun x hx =>
    holds_of_has hopened ((v.stocked stores is).batches x.1 x.2 (hbatches x hx))⟩

end

end

end Validator

namespace Validator.Alone

open Sample

end Validator.Alone

end Bullshark
