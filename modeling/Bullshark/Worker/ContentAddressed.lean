import Bullshark.Primary.Sample
import Bullshark.Worker.Run

/-!
# Worker/ContentAddressed — a batch is stored under its hash, wherever it comes from

Two tasks write to the store of a worker: the processor of its own batches and that of the batches
of others.  Both hash the very bytes they store.  What reaches them was serialized as a batch here,
or was deserialized as one when it arrived, and is passed on as bytes (`Vetted`).  A reply to a
request is such bytes, so it is stored at the requester under the digest it was asked for by.
-/

namespace Bullshark

namespace Worker

section

variable [Base64]

/-- These bytes deserialize as a batch. -/
def IsBatch (bytes : List UInt8) : Prop :=
  ∃ txs, WorkerMessage.deserialize bytes = some (.batch txs)

variable [Crypto]

/-- Every key is the digest of what is stored under it, which is a batch. -/
def Addressed (store : Store) : Prop :=
  ∀ key value, store.lookup key = some value →
    (Digest.hash value).toBytes = key ∧ IsBatch value

/-- The store is addressed by content, and only batches are on their way to it. -/
structure Vetted (s : State) : Prop where
  store : Addressed s.store
  waiting : ∀ m ∈ s.rxQuorumWaiter, IsBatch m.batch
  held : ∀ waiter, s.quorumWaiter = some waiter → IsBatch waiter.batch
  own : ∀ batch ∈ s.rxOwn, IsBatch batch
  others : ∀ batch ∈ s.rxOthers, IsBatch batch

/-! ## The tasks keep it -/

/-- **The processor stores a batch under its hash.** -/
theorem Addressed.process {store : Store} {batch : SerializedBatchMessage} (h : Addressed store)
    (hbatch : IsBatch batch) (id : WorkerId) (own : Bool) :
    Addressed (Processor.process id own store batch).1 := by
  intro key value hvalue
  rw [Processor.process, AList.lookup_insert_eq] at hvalue
  split at hvalue
  · next hkey =>
    cases hvalue
    exact ⟨hkey.symm, hbatch⟩
  · exact h key value hvalue

variable {worker : Worker} {s : State}

/-- **A batch that is sealed here is sent on as the bytes of a batch.** -/
theorem Vetted.deliver (h : Vetted s) (txs : Option Batch) : Vetted (worker.deliver s txs).1 := by
  cases txs with
  | none => exact h
  | some txs =>
    rw [Worker.deliver]
    split
    · exact h
    · next serialized hserialized =>
      refine { h with waiting := fun m hm => ?_ }
      rcases List.mem_append.mp hm with hm | hm
      · exact h.waiting m hm
      · rw [List.mem_singleton.mp hm]
        exact ⟨txs, WorkerMessage.deserialize_serialize hserialized⟩

/-- **What another worker sends is passed on as it arrived**, if it is a batch. -/
theorem Vetted.receiveWorkerMessage (h : Vetted s) (serialized : List UInt8) :
    Vetted (receiveWorkerMessage s serialized) := by
  rw [Worker.receiveWorkerMessage]
  split
  · next txs htxs =>
    refine { h with others := fun batch hbatch => ?_ }
    rcases List.mem_append.mp hbatch with hbatch | hbatch
    · exact h.others batch hbatch
    · rw [List.mem_singleton.mp hbatch]
      exact ⟨txs, htxs⟩
  · exact { h with }
  · exact h

theorem Vetted.primaryMessage (h : Vetted s) (message : PrimaryWorkerMessage) :
    Vetted (receivePrimaryMessage s message).1 := by
  cases message with
  | batchSilent round silent =>
    rw [receivePrimaryMessage]
    split
    · exact { h with }
    · exact h
  | synchronize digests target => exact h
  | cleanup round => exact h

/-- The quorum waiter takes a message from its channel. -/
theorem Vetted.awaitQuorum (h : Vetted s) : Vetted (worker.step s .awaitQuorum).1 := by
  rw [Worker.step]
  split
  · next message rest hidle hrx =>
    refine { h with waiting := fun m hm => ?_, held := fun waiter hwaiter => ?_ }
    · exact h.waiting m (hrx ▸ List.mem_cons_of_mem _ hm)
    · rw [QuorumWaiter.batch_of_next hwaiter]
      exact h.waiting message (hrx ▸ List.mem_cons_self)
  · exact h

/-- The quorum waiter forwards the batch it holds, and no other. -/
theorem Vetted.resolve (h : Vetted s) (handler : ℕ) :
    Vetted (worker.step s (.resolve handler)).1 := by
  rw [Worker.step]
  split
  · exact h
  · next waiter hwaiter =>
    obtain ⟨hkept, hforwarded⟩ := waiter.batch_of_resolve worker.committee handler
    refine { h with held := fun waiter' hwaiter' => ?_, own := fun batch hbatch => ?_ }
    · rw [hkept waiter' hwaiter']
      exact h.held waiter hwaiter
    · rcases List.mem_append.mp hbatch with hbatch | hbatch
      · exact h.own batch hbatch
      · rw [hforwarded batch (Option.mem_toList.mp hbatch)]
        exact h.held waiter hwaiter

theorem Vetted.processOwn (h : Vetted s) : Vetted (worker.step s .processOwn).1 := by
  rw [Worker.step]
  split
  · exact h
  · next batch rest hrx =>
    refine { h with store := ?_, own := fun b hb => ?_ }
    · exact h.store.process (h.own batch (hrx ▸ List.mem_cons_self)) worker.id true
    · exact h.own b (hrx ▸ List.mem_cons_of_mem _ hb)

theorem Vetted.processOthers (h : Vetted s) : Vetted (worker.step s .processOthers).1 := by
  rw [Worker.step]
  split
  · exact h
  · next batch rest hrx =>
    refine { h with store := ?_, others := fun b hb => ?_ }
    · exact h.store.process (h.others batch (hrx ▸ List.mem_cons_self)) worker.id false
    · exact h.others b (hrx ▸ List.mem_cons_of_mem _ hb)

theorem Vetted.step (h : Vetted s) (e : Event) : Vetted (worker.step s e).1 := by
  cases e with
  | transaction message => exact { h with }
  | workerMessage serialized => exact h.receiveWorkerMessage serialized
  | primaryMessage message => exact h.primaryMessage message
  | makeBatch =>
    rw [Worker.step]
    split
    · refine Vetted.deliver ?_ _
      exact { h with }
    · exact h
  | batchTimer =>
    rw [Worker.step]
    split
    · refine Vetted.deliver ?_ _
      exact { h with }
    · exact h
  | awaitQuorum => exact h.awaitQuorum
  | resolve handler => exact h.resolve handler
  | processOwn => exact h.processOwn
  | processOthers => exact h.processOthers
  | help =>
    rw [Worker.step]
    split
    · exact h
    · exact { h with }

/-- A run on a store that is addressed by content. -/
theorem vetted_of_addressed {store : Store} (h : Addressed store) (is : List Event) :
    Vetted ((worker.machine store).state is) := by
  refine (worker.machine store).invariant (P := fun _ s _ => Vetted s) ?_
    (fun _ e h => Vetted.step h e) is
  exact
    { store := h
      waiting := fun m hm => absurd hm List.not_mem_nil
      held := fun waiter hwaiter => (by cases hwaiter)
      own := fun batch hbatch => absurd hbatch List.not_mem_nil
      others := fun batch hbatch => absurd hbatch List.not_mem_nil }

/-- **In every run, the store is addressed by content**, whatever stores were opened before. -/
theorem vetted_of_opened {store : Store} (h : Opened store) (is : List Event) :
    Vetted ((worker.machine store).state is) := by
  refine vetted_of_addressed ?_ is
  induction h with
  | empty => exact fun key value hvalue => (by cases hvalue)
  | reopen worker _ is ih => exact (vetted_of_addressed ih is).store

/-! ## A request and its reply -/

omit [Base64] in
theorem isSome_lookup_process {store : Store} {key : List UInt8} (h : (store.lookup key).isSome)
    (id : WorkerId) (own : Bool) (batch : SerializedBatchMessage) :
    ((Processor.process id own store batch).1.lookup key).isSome := by
  rw [Processor.process, AList.lookup_insert_eq]
  split
  · rfl
  · exact h

/-- What a step keeps: a channel that it does not read, and the keys of the store. -/
structure Keeps (s : State) (e : Event) (s' : State) : Prop where
  rxHelper : e ≠ .help → s.rxHelper <+: s'.rxHelper
  rxOthers : e ≠ .processOthers → s.rxOthers <+: s'.rxOthers
  store : ∀ key, (s.store.lookup key).isSome → (s'.store.lookup key).isSome

omit [Base64] [Crypto] in
theorem Keeps.of_eq {s s' : State} {e : Event} (hh : s'.rxHelper = s.rxHelper)
    (ho : s'.rxOthers = s.rxOthers) (hs : s'.store = s.store) : Keeps s e s' where
  rxHelper _ := hh ▸ List.prefix_rfl
  rxOthers _ := ho ▸ List.prefix_rfl
  store _ h := hs ▸ h

theorem keeps_step (worker : Worker) (s : State) (e : Event) : Keeps s e (worker.step s e).1 := by
  cases e with
  | transaction message => exact .of_eq rfl rfl rfl
  | workerMessage serialized =>
    rw [Worker.step, Worker.receiveWorkerMessage]
    split
    · exact { Keeps.of_eq rfl rfl rfl with rxOthers := fun _ => List.prefix_append _ _ }
    · exact { Keeps.of_eq rfl rfl rfl with rxHelper := fun _ => List.prefix_append _ _ }
    · exact .of_eq rfl rfl rfl
  | primaryMessage message =>
    cases message with
    | batchSilent round silent =>
      rw [Worker.step, receivePrimaryMessage]
      split
      · exact .of_eq rfl rfl rfl
      · exact .of_eq rfl rfl rfl
    | synchronize digests target => exact .of_eq rfl rfl rfl
    | cleanup round => exact .of_eq rfl rfl rfl
  | makeBatch =>
    rw [Worker.step]
    split
    · next transaction rest hsilent hrx =>
      obtain ⟨n, l, heq⟩ := worker.deliver_frame _ _
      rw [heq]
      exact .of_eq rfl rfl rfl
    · exact .of_eq rfl rfl rfl
  | batchTimer =>
    rw [Worker.step]
    split
    · obtain ⟨n, l, heq⟩ := worker.deliver_frame _ _
      rw [heq]
      exact .of_eq rfl rfl rfl
    · exact .of_eq rfl rfl rfl
  | awaitQuorum =>
    rw [Worker.step]
    split
    · exact .of_eq rfl rfl rfl
    · exact .of_eq rfl rfl rfl
  | resolve handler =>
    rw [Worker.step]
    split
    · exact .of_eq rfl rfl rfl
    · exact .of_eq rfl rfl rfl
  | processOwn =>
    rw [Worker.step]
    split
    · exact .of_eq rfl rfl rfl
    · exact
        { Keeps.of_eq rfl rfl rfl with
          store := fun _ h => isSome_lookup_process h worker.id true _ }
  | processOthers =>
    rw [Worker.step]
    split
    · exact .of_eq rfl rfl rfl
    · exact
        { rxHelper := fun _ => List.prefix_rfl
          rxOthers := fun h => absurd rfl h
          store := fun _ h => isSome_lookup_process h worker.id false _ }
  | help =>
    rw [Worker.step]
    split
    · exact .of_eq rfl rfl rfl
    · exact { Keeps.of_eq rfl rfl rfl with rxHelper := fun h => absurd rfl h }

/-- What is stored stays stored. -/
theorem isSome_lookup_state {store : Store} {is : List Event} {key : List UInt8}
    (h : (((worker.machine store).state is).store.lookup key).isSome) (js : List Event) :
    (((worker.machine store).state (is ++ js)).store.lookup key).isSome := by
  induction js using List.reverseRecOn with
  | nil => rwa [List.append_nil]
  | append_singleton js e ih =>
    rw [← List.append_assoc, Mealy.state_snoc]
    exact (keeps_step worker _ e).store key ih

theorem rxOthers_processOthers (s : State) :
    (worker.step s .processOthers).1.rxOthers = s.rxOthers.tail := by
  rw [Worker.step]
  split
  · next hrx => rw [hrx]; rfl
  · next hrx => rw [hrx]; rfl

theorem rxHelper_help (s : State) : (worker.step s .help).1.rxHelper = s.rxHelper.tail := by
  rw [Worker.step]
  split
  · next hrx => rw [hrx]; rfl
  · next hrx => rw [hrx]; rfl

/-- The turn of a batch. -/
theorem step_processOthers {bytes : List UInt8} (h : s.rxOthers.head? = some bytes) :
    (worker.step s .processOthers).1.store
      = s.store.insert (Digest.hash bytes).toBytes bytes ∧
    (worker.step s .processOthers).2
      = [.toPrimary (.othersBatch (Digest.hash bytes) worker.id)] := by
  obtain ⟨rest, hrx⟩ := List.head?_eq_some_iff.mp h
  rw [Worker.step, hrx]
  exact ⟨rfl, rfl⟩

/-- The turn of a request: what is stored is sent to the worker that asks. -/
theorem reply_mem_step_help {digests : List Digest} {origin : PublicKey} {d : Digest}
    {batch : SerializedBatchMessage} {addresses : WorkerAddresses}
    (h : s.rxHelper.head? = some (digests, origin)) (hd : d ∈ digests)
    (haddresses : worker.committee.worker origin worker.id = .ok addresses)
    (hbatch : s.store.lookup d.toBytes = some batch) :
    .reply addresses.workerToWorker batch ∈ (worker.step s .help).2 := by
  obtain ⟨rest, hrx⟩ := List.head?_eq_some_iff.mp h
  rw [Worker.step, hrx]
  refine List.mem_map.mpr ⟨(addresses.workerToWorker, batch), ?_, rfl⟩
  rw [Helper.answer, haddresses]
  refine List.mem_filterMap.mpr ⟨d, hd, ?_⟩
  rw [hbatch]
  rfl

/-- **What a frame adds to a channel is read in its turn**: after more turns of the reader than
messages were waiting, the turn of this one has come. -/
theorem exists_turn {α : Type} (q : State → List α) (reader : Event)
    (hadd : ∀ s e, e ≠ reader → q s <+: q (worker.step s e).1)
    (hread : ∀ s, q (worker.step s reader).1 = (q s).tail) {bytes : List UInt8} {a : α}
    (harrives : ∀ s, q (receiveWorkerMessage s bytes) = q s ++ [a]) {store : Store}
    {is js : List Event}
    (hjs : (q ((worker.machine store).state is)).length < js.count reader) :
    ∃ js', js' ++ [reader] <+: js ∧
      (q ((worker.machine store).state (is ++ .workerMessage bytes :: js'))).head? = some a := by
  have harrived : q ((worker.machine store).state (is ++ [.workerMessage bytes]))
      = q ((worker.machine store).state is) ++ [a] := by
    rw [Mealy.state_snoc]
    exact harrives _
  obtain ⟨js', e, hpre, he, hhead⟩ := (worker.machine store).exists_head (q := q)
    (p := (· == reader)) (a := a) (fun s e he => hadd s e (by simpa using he))
    (fun s e he => eq_of_beq he ▸ hread s) js
    (by rw [harrived]; exact List.getElem?_concat_length) hjs
  obtain rfl := eq_of_beq he
  exact ⟨js', hpre, by rwa [List.append_assoc] at hhead⟩

/-- A frame of a batch is processed in its turn. -/
theorem exists_processOthers {store : Store} {is js : List Event} {bytes : List UInt8}
    (hbatch : IsBatch bytes)
    (hjs : ((worker.machine store).state is).rxOthers.length < js.count .processOthers) :
    ∃ js', js' ++ [.processOthers] <+: js ∧
      ((worker.machine store).state (is ++ .workerMessage bytes :: js')).rxOthers.head?
        = some bytes := by
  obtain ⟨txs, htxs⟩ := hbatch
  exact exists_turn State.rxOthers .processOthers (fun s e => (keeps_step worker s e).rxOthers)
    rxOthers_processOthers (fun s => by rw [receiveWorkerMessage, htxs]) hjs

/-- A request is handled in its turn. -/
theorem exists_help {store : Store} {is js : List Event} {bytes : List UInt8}
    {missing : List Digest} {origin : PublicKey}
    (hrequest : WorkerMessage.deserialize bytes = some (.batchRequest missing origin))
    (hjs : ((worker.machine store).state is).rxHelper.length < js.count .help) :
    ∃ js', js' ++ [.help] <+: js ∧
      ((worker.machine store).state (is ++ .workerMessage bytes :: js')).rxHelper.head?
        = some (missing, origin) :=
  exists_turn State.rxHelper .help (fun s e => (keeps_step worker s e).rxHelper) rxHelper_help
    (fun s => by rw [receiveWorkerMessage, hrequest]) hjs

/-- **Batches are content-addressed end to end.**  In every run the store maps digests to the
batches they are digests of; a request for a digest that is stored is answered with such a batch,
and the worker that the answer reaches stores the same bytes under the same digest and reports
it. -/
theorem content_addressed (worker : Worker) {store : Store} (hopened : Opened store) :
    (∀ is, Addressed ((worker.machine store).state is).store) ∧
    ∀ is bytes digests origin addresses, ∀ d ∈ digests,
      WorkerMessage.deserialize bytes = some (.batchRequest digests origin) →
      worker.committee.worker origin worker.id = .ok addresses →
      (((worker.machine store).state is).store.lookup d.toBytes).isSome →
      ∀ js, ((worker.machine store).state is).rxHelper.length < js.count .help →
        ∃ js' batch, js' ++ [.help] <+: js ∧
          let s := (worker.machine store).state (is ++ .workerMessage bytes :: js')
          s.store.lookup d.toBytes = some batch ∧
          .reply addresses.workerToWorker batch ∈ (worker.step s .help).2 ∧
          ∀ (requester : Worker) store' is' ks,
            ((requester.machine store').state is').rxOthers.length < ks.count .processOthers →
            ∃ ks', ks' ++ [.processOthers] <+: ks ∧
              let s' := (requester.machine store').state (is' ++ .workerMessage batch :: ks')
              (requester.step s' .processOthers).1.store = s'.store.insert d.toBytes batch ∧
              (requester.step s' .processOthers).2
                = [.toPrimary (.othersBatch d requester.id)] := by
  refine ⟨fun is => (vetted_of_opened hopened is).store, ?_⟩
  intro is bytes digests origin addresses d hd hrequest haddresses hstored js hjs
  obtain ⟨js', hpre, hhead⟩ := exists_help hrequest hjs
  obtain ⟨batch, hbatch⟩ := Option.isSome_iff_exists.mp
    (isSome_lookup_state hstored (.workerMessage bytes :: js'))
  refine ⟨js', batch, hpre, hbatch, reply_mem_step_help hhead hd haddresses hbatch, ?_⟩
  intro requester store' is' ks hks
  -- The reply is a batch, and `d` is its digest.
  obtain ⟨hdigest, hbatch'⟩ := (vetted_of_opened hopened _).store _ _ hbatch
  obtain rfl := Digest.toBytes_injective hdigest
  obtain ⟨ks', hpre', hhead'⟩ := exists_processOthers hbatch' hks
  exact ⟨ks', hpre', step_processOthers hhead'⟩

end

namespace Requested

open Sample

/-- The addresses of the worker of an authority. -/
def addresses (n : ℕ) : WorkerAddresses :=
  ⟨⟨.v4 0, 0⟩, ⟨.v4 (BitVec.ofNat 32 n), 4000⟩, ⟨.v4 0, 1⟩⟩

def member (n : ℕ) : Authority := { authority 1 with workers := AList.singleton 0 (addresses n) }

/-- Two authorities with a worker each. -/
def committee : Committee :=
  ⟨⟨[(key 1, member 1), (key 2, member 2)], by simp only [List.map]; decide⟩⟩

def holder : Worker := ⟨key 1, 0, committee, 1⟩

def requester : Worker := ⟨key 2, 0, committee, 1⟩

/-- The holder seals a batch, the other worker acknowledges it. -/
def sealing : List Event := [.transaction [7], .makeBatch, .awaitQuorum, .resolve 0, .processOwn]

def digest : Digest := Digest.hash (WorkerMessage.codec.encode (.batch [[7]]))

def request : List UInt8 := WorkerMessage.codec.encode (.batchRequest [digest] (key 2))

theorem deserialize_request :
    WorkerMessage.deserialize request = some (.batchRequest [digest] (key 2)) :=
  WorkerMessage.deserialize_serialize (if_pos (by decide))

set_option maxRecDepth 100000 in
theorem isSome_lookup_sealing :
    (((holder.machine ∅).state sealing).store.lookup digest.toBytes).isSome := by
  decide +kernel

theorem requested : ∃ js' batch, js' ++ [.help] <+: [.help] ∧
    .reply (addresses 2).workerToWorker batch ∈ (holder.step
      ((holder.machine ∅).state (sealing ++ .workerMessage request :: js')) .help).2 ∧
    ∃ ks', ks' ++ [.processOthers] <+: [.processOthers] ∧
      (requester.step ((requester.machine ∅).state ([] ++ .workerMessage batch :: ks'))
        .processOthers).2 = [.toPrimary (.othersBatch digest 0)] := by
  obtain ⟨js', batch, hpre, -, hreply, hrequester⟩ := (content_addressed holder .empty).2 sealing
    request [digest] (key 2) (addresses 2) digest List.mem_cons_self deserialize_request rfl
    isSome_lookup_sealing [.help] (by decide)
  obtain ⟨ks', hpre', -, hreported⟩ := hrequester requester ∅ [] [.processOthers] (by decide)
  exact ⟨js', batch, hpre, hreply, ks', hpre', hreported⟩

end Requested

end Worker

end Bullshark
