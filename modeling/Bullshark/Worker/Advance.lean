import Bullshark.Worker.ContentAddressed
import Bullshark.Worker.QuorumWaiter
import Bullshark.Worker.Reported

/-!
# Worker/Advance — a batch of our own, step by step

What a step of a worker can do to the batches between its batch maker and its processor: it seals
one and broadcasts it, the quorum waiter takes one up, or the processor stores and reports one
(`advance_step`).  The quorum waiter counts the stake of authorities that hold its batch, each once,
as long as the handlers are resolved for those that do (`Waits.resolve`).
-/

namespace Bullshark

namespace Worker

/-- What is broadcast, one message for each address. -/
def broadcasts (actions : List Action) : List SerializedBatchMessage :=
  actions.filterMap fun
    | .broadcast _ bytes => some bytes
    | _ => none

/-- The workers that a batch is broadcast to, in order. -/
def peers (worker : Worker) : List (PublicKey × WorkerAddresses) :=
  worker.committee.othersWorkers worker.name worker.id

/-- The handlers of a broadcast, one for each peer, numbered from here. -/
def handlersFrom (worker : Worker) (k : ℕ) : List (PublicKey × ℕ) :=
  (worker.peers.zipIdx k).map fun a => (a.1.1, a.2)

theorem mem_handlersFrom {worker : Worker} {k : ℕ} {x : PublicKey × ℕ}
    (hx : x ∈ worker.handlersFrom k) :
    ∃ j p, worker.peers[j]? = some p ∧ x = (p.1, k + j) := by
  obtain ⟨⟨p, i⟩, hmem, rfl⟩ := List.mem_map.mp hx
  obtain ⟨hle, hlt, hp⟩ := List.mem_zipIdx hmem
  refine ⟨i - k, p, ?_, by simp; omega⟩
  rw [hp]
  exact List.getElem?_eq_getElem _

theorem nodup_handlersFrom (worker : Worker) (k : ℕ) :
    ((worker.handlersFrom k).map Prod.snd).Nodup := by
  rw [handlersFrom, List.map_map]
  exact (List.zipIdx_map_snd k worker.peers).symm ▸ List.nodup_range'

/-- No two peers are of one authority. -/
theorem nodup_peers (worker : Worker) : (worker.peers.map Prod.fst).Nodup := by
  have hsub : ∀ entries : List (PublicKey × Authority),
      ((entries.filterMap fun e => (e.2.workers.lookup worker.id).map fun addresses =>
        (e.1, addresses)).map Prod.fst).Sublist (entries.map Prod.fst) := by
    intro entries
    induction entries with
    | nil => exact List.Sublist.refl _
    | cons e entries ih =>
      cases h : e.2.workers.lookup worker.id with
      | none => simpa [h] using ih.cons e.1
      | some addresses => simpa [h] using ih
  refine worker.committee.authorities.nodup_keys.sublist ?_
  exact (hsub _).trans (List.filter_sublist.map Prod.fst)

theorem fst_ne_of_mem_peers {worker : Worker} {p : PublicKey × WorkerAddresses}
    (hp : p ∈ worker.peers) : p.1 ≠ worker.name := by
  obtain ⟨e, he, hpe⟩ := List.mem_filterMap.mp hp
  obtain ⟨addresses, -, rfl⟩ := Option.map_eq_some_iff.mp hpe
  exact of_decide_eq_true (List.mem_filter.mp he).2

variable [Crypto] [Base64] {worker : Worker} {s : State}

/-! ## What is received -/

/-- The worker has the bytes of a batch: they wait for the processor, or are stored. -/
def State.Received (s : State) (bytes : List UInt8) : Prop :=
  bytes ∈ s.rxOthers ∨ (s.store.lookup (Digest.hash bytes).toBytes).isSome

/-- **What a worker received it keeps.** -/
theorem State.Received.step {bytes : List UInt8} (h : s.Received bytes) (e : Event) :
    (worker.step s e).1.Received bytes := by
  have hkeeps := keeps_step worker s e
  rcases h with hmem | hstored
  · by_cases he : e = .processOthers
    · subst he
      rw [Worker.step]
      split
      · exact Or.inl hmem
      · next batch rest hrx =>
        rw [hrx] at hmem
        rcases List.mem_cons.mp hmem with rfl | hmem
        · refine Or.inr ?_
          show ((s.store.insert _ _).lookup _).isSome
          rw [AList.lookup_insert]
          rfl
        · exact Or.inl hmem
    · exact Or.inl ((hkeeps.rxOthers he).subset hmem)
  · exact Or.inr (hkeeps.store _ hstored)

/-- A batch that arrives is received. -/
theorem received_workerMessage {bytes : List UInt8} (h : IsBatch bytes) :
    (worker.step s (.workerMessage bytes)).1.Received bytes := by
  obtain ⟨txs, htxs⟩ := h
  rw [Worker.step, receiveWorkerMessage, htxs]
  exact Or.inl (List.mem_append_right _ (List.mem_singleton_self _))

/-! ## What a step does -/

/-- A step leaves the batches before the processor where they are. -/
structure Rests (s s' : State) : Prop where
  handlers : s'.handlers = s.handlers
  rxQuorumWaiter : s'.rxQuorumWaiter = s.rxQuorumWaiter
  quorumWaiter : s'.quorumWaiter = s.quorumWaiter

/-- **What a step does to the batches of our own.** -/
inductive Advance (worker : Worker) (s s' : State) (w : List Action) : Prop
  /-- Nothing. -/
  | rest (hrests : Rests s s') (hown : s'.rxOwn = s.rxOwn) (hsent : broadcasts w = [])
      (hreports : ownReports w = [])
  /-- A batch is sealed and broadcast. -/
  | broadcast (bytes : SerializedBatchMessage) (hbatch : IsBatch bytes)
      (hhandlers : s'.handlers = s.handlers + worker.peers.length)
      (hrx : s'.rxQuorumWaiter = s.rxQuorumWaiter ++ [⟨bytes, worker.handlersFrom s.handlers⟩])
      (hwaiter : s'.quorumWaiter = s.quorumWaiter) (hown : s'.rxOwn = s.rxOwn)
      (hsent : broadcasts w = List.replicate worker.peers.length bytes)
      (hreports : ownReports w = [])
  /-- The quorum waiter takes up a batch. -/
  | await (message : QuorumWaiterMessage) (hhandlers : s'.handlers = s.handlers)
      (hrx : s.rxQuorumWaiter = message :: s'.rxQuorumWaiter)
      (hwaiter : s'.quorumWaiter = QuorumWaiter.receive worker.committee
        (worker.committee.stake worker.name) message)
      (hown : s'.rxOwn = s.rxOwn) (hsent : broadcasts w = []) (hreports : ownReports w = [])
  /-- The processor stores a batch and reports it. -/
  | report (bytes : SerializedBatchMessage) (hrests : Rests s s') (hown : s.rxOwn = bytes :: s'.rxOwn)
      (hsent : broadcasts w = []) (hreports : ownReports w = [(Digest.hash bytes, worker.id)])
      (hstored : (s'.store.lookup (Digest.hash bytes).toBytes).isSome)

theorem advance_deliver {maker : BatchMaker} (rest : List Transaction) (txs : Option Batch) :
    Advance worker s (worker.deliver { s with rxBatchMaker := rest, batchMaker := maker } txs).1
      (worker.deliver { s with rxBatchMaker := rest, batchMaker := maker } txs).2 := by
  cases txs with
  | none => exact .rest ⟨rfl, rfl, rfl⟩ rfl rfl rfl
  | some txs =>
    rw [Worker.deliver]
    split
    · exact .rest ⟨rfl, rfl, rfl⟩ rfl rfl rfl
    · next serialized hserialized =>
      refine .broadcast serialized ⟨txs, WorkerMessage.deserialize_serialize hserialized⟩ rfl rfl rfl rfl
        ?_ ?_
      · rw [broadcasts, List.filterMap_map]
        exact List.filterMap_eq_map ▸ List.map_const'
      · exact List.filterMap_eq_nil_iff.mpr fun a ha => by
          obtain ⟨x, -, rfl⟩ := List.mem_map.mp ha
          rfl

/-- **Every step but one that resolves a handler is one of these.** -/
theorem advance_step (e : Event) (he : ∀ handler, e ≠ .resolve handler) :
    Advance worker s (worker.step s e).1 (worker.step s e).2 := by
  cases e with
  | transaction message => exact .rest ⟨rfl, rfl, rfl⟩ rfl rfl rfl
  | workerMessage serialized =>
    rw [Worker.step, receiveWorkerMessage]
    split
    · exact .rest ⟨rfl, rfl, rfl⟩ rfl rfl rfl
    · exact .rest ⟨rfl, rfl, rfl⟩ rfl rfl rfl
    · exact .rest ⟨rfl, rfl, rfl⟩ rfl rfl rfl
  | primaryMessage message =>
    cases message with
    | batchSilent round silent =>
      rw [Worker.step, receivePrimaryMessage]
      split
      · exact .rest ⟨rfl, rfl, rfl⟩ rfl rfl rfl
      · exact .rest ⟨rfl, rfl, rfl⟩ rfl rfl rfl
    | synchronize digests target => exact .rest ⟨rfl, rfl, rfl⟩ rfl rfl rfl
    | cleanup round => exact .rest ⟨rfl, rfl, rfl⟩ rfl rfl rfl
  | makeBatch =>
    rw [Worker.step]
    split
    · exact advance_deliver _ _
    · exact .rest ⟨rfl, rfl, rfl⟩ rfl rfl rfl
  | batchTimer =>
    rw [Worker.step]
    split
    · exact advance_deliver s.rxBatchMaker _
    · exact .rest ⟨rfl, rfl, rfl⟩ rfl rfl rfl
  | awaitQuorum =>
    rw [Worker.step]
    split
    · next message rest hidle hrx => exact .await message rfl hrx rfl rfl rfl rfl
    · exact .rest ⟨rfl, rfl, rfl⟩ rfl rfl rfl
  | resolve handler => exact absurd rfl (he handler)
  | processOwn =>
    rw [Worker.step]
    split
    · exact .rest ⟨rfl, rfl, rfl⟩ rfl rfl rfl
    · next batch rest hrx =>
      refine .report batch ⟨rfl, rfl, rfl⟩ hrx rfl rfl ?_
      show ((s.store.insert _ _).lookup _).isSome
      rw [AList.lookup_insert]
      rfl
  | processOthers =>
    rw [Worker.step]
    split
    · exact .rest ⟨rfl, rfl, rfl⟩ rfl rfl rfl
    · exact .rest ⟨rfl, rfl, rfl⟩ rfl rfl rfl
  | help =>
    rw [Worker.step]
    split
    · exact .rest ⟨rfl, rfl, rfl⟩ rfl rfl rfl
    · next request rest hrx =>
      have hreplies : ∀ a ∈ (Helper.answer worker.committee worker.id s.store request).map
          fun r => Action.reply r.1 r.2, ∃ address bytes, a = .reply address bytes := by
        intro a ha
        obtain ⟨x, -, rfl⟩ := List.mem_map.mp ha
        exact ⟨_, _, rfl⟩
      refine .rest ⟨rfl, rfl, rfl⟩ rfl ?_ ?_
      · refine List.filterMap_eq_nil_iff.mpr fun a ha => ?_
        obtain ⟨address, bytes, rfl⟩ := hreplies a ha
        rfl
      · refine List.filterMap_eq_nil_iff.mpr fun a ha => ?_
        obtain ⟨address, bytes, rfl⟩ := hreplies a ha
        rfl

/-! ## What the quorum waiter counts -/

/-- A quorum holds the batch; that we hold it ourselves is not asked. -/
def Quorate (worker : Worker) (held : PublicKey → SerializedBatchMessage → Prop)
    (batch : SerializedBatchMessage) : Prop :=
  ∃ S : Finset PublicKey, worker.committee.quorumThreshold.toNat ≤ worker.committee.stakeOf S ∧
    ∀ b ∈ S, b = worker.name ∨ held b batch

/-- The waiter has counted the stake of `S`, which holds its batch, and waits for others; the
handlers of its batch are numbered from `k`. -/
structure Waits (worker : Worker) (held : PublicKey → SerializedBatchMessage → Prop) (k : ℕ)
    (waiter : QuorumWaiter) (S : Finset PublicKey) : Prop where
  stake : waiter.totalStake.toNat ≤ worker.committee.stakeOf S
  held : ∀ b ∈ S, b = worker.name ∨ held b waiter.batch
  slots : ∀ x ∈ waiter.waitForQuorum, ∃ j p, worker.peers[j]? = some p ∧
    x = (k + j, worker.committee.stake p.1) ∧ p.1 ∉ S
  nodup : (waiter.waitForQuorum.map Prod.fst).Nodup

section

variable {held held' : PublicKey → SerializedBatchMessage → Prop} {k : ℕ} {waiter : QuorumWaiter}
  {S : Finset PublicKey} {batch : SerializedBatchMessage}

omit [Crypto] [Base64]

theorem Quorate.mono (h : Quorate worker held batch) (hheld : ∀ b bytes, held b bytes → held' b bytes) :
    Quorate worker held' batch := by
  obtain ⟨S, hS, hmem⟩ := h
  exact ⟨S, hS, fun b hb => (hmem b hb).imp_right (hheld b _)⟩

theorem Waits.mono (h : Waits worker held k waiter S)
    (hheld : ∀ b bytes, held b bytes → held' b bytes) : Waits worker held' k waiter S :=
  { h with held := fun b hb => (h.held b hb).imp_right (hheld b _) }

theorem eq_of_next {w w' : QuorumWaiter} (h : w.next = some w') : w' = w := by
  rw [QuorumWaiter.next, Option.ite_none_left_eq_some] at h
  exact (Option.some.inj h.2).symm

/-- It starts with our own stake. -/
theorem waits_receive (held : PublicKey → SerializedBatchMessage → Prop) {k : ℕ}
    (h : QuorumWaiter.receive worker.committee (worker.committee.stake worker.name)
      ⟨batch, worker.handlersFrom k⟩ = some waiter) :
    waiter.batch = batch ∧ Waits worker held k waiter {worker.name} := by
  obtain rfl := eq_of_next h
  refine ⟨rfl, ?_⟩
  exact
    { stake := by rw [Committee.stakeOf, Finset.sum_singleton]; exact le_rfl
      held := fun b hb => Or.inl (Finset.mem_singleton.mp hb)
      slots := fun x hx => by
        obtain ⟨y, hy, rfl⟩ := List.mem_map.mp hx
        obtain ⟨j, p, hp, rfl⟩ := mem_handlersFrom hy
        exact ⟨j, p, hp, rfl, fun hname =>
          fst_ne_of_mem_peers (List.mem_of_getElem? hp) (Finset.mem_singleton.mp hname)⟩
      nodup := by
        rw [List.map_map]
        exact worker.nodup_handlersFrom k }

/-- The authority of a peer is that of no other. -/
theorem eq_of_fst_eq {i j : ℕ} {p q : PublicKey × WorkerAddresses} (hp : worker.peers[i]? = some p)
    (hq : worker.peers[j]? = some q) (h : p.1 = q.1) : i = j := by
  have hi : (worker.peers.map Prod.fst)[i]? = some p.1 := by rw [List.getElem?_map, hp]; rfl
  have hj : (worker.peers.map Prod.fst)[j]? = some p.1 := by rw [List.getElem?_map, hq, h]; rfl
  obtain ⟨hlt, -⟩ := List.getElem?_eq_some_iff.mp hi
  exact (List.getElem?_inj hlt worker.nodup_peers).mp (hi.trans hj.symm)

/-- What is left after the handler is taken out is of other handlers. -/
theorem ne_of_mem_eraseP {l : List (ℕ × Stake)} (hnodup : (l.map Prod.fst).Nodup) {n : ℕ}
    {x : ℕ × Stake} (hx : x ∈ l.eraseP fun h => h.1 = n) : x.1 ≠ n := by
  induction l with
  | nil => cases hx
  | cons y l ih =>
    obtain ⟨hnew, hnodup'⟩ := List.nodup_cons.mp hnodup
    by_cases hy : y.1 = n
    · rw [List.eraseP_cons_of_pos (by simpa using hy)] at hx
      exact fun heq => hnew (List.mem_map.mpr ⟨x, hx, heq.trans hy.symm⟩)
    · rw [List.eraseP_cons_of_neg (by simpa using hy)] at hx
      rcases List.mem_cons.mp hx with rfl | hx
      · exact hy
      · exact ih hnodup' hx

/-- **A handler is resolved for a peer that holds the batch**: the waiter counts its stake, and with
a quorum the batch is forwarded. -/
theorem Waits.resolve (h : Waits worker held k waiter S) {j : ℕ} {p : PublicKey × WorkerAddresses}
    (hp : worker.peers[j]? = some p) (hheld : held p.1 waiter.batch) :
    (∀ waiter', (waiter.resolve worker.committee (k + j)).1 = some waiter' →
      ∃ S', Waits worker held k waiter' S') ∧
    ∀ batch, (waiter.resolve worker.committee (k + j)).2 = some batch →
      Quorate worker held batch := by
  rw [QuorumWaiter.resolve]
  split
  · refine ⟨fun waiter' h' => ⟨S, ?_⟩, fun batch h' => (by cases h')⟩
    cases h'
    exact h
  · next stake hlookup =>
    obtain ⟨l₁, l₂, hsplit, -⟩ := List.lookup_eq_some_iff.mp hlookup
    obtain ⟨j', p', hp', hslot, hnew⟩ := h.slots (k + j, stake) (hsplit ▸ by simp)
    obtain ⟨hj, rfl⟩ := Prod.mk.inj hslot
    obtain rfl : j = j' := by omega
    obtain rfl : p = p' := Option.some.inj (hp.symm.trans hp')
    have hstake : (waiter.totalStake + worker.committee.stake p.1).toNat
        ≤ worker.committee.stakeOf (insert p.1 S) := by
      have hold := h.stake
      rw [UInt32.toNat_add, Committee.stakeOf, Finset.sum_insert hnew]
      refine (Nat.mod_le _ _).trans ?_
      rw [Committee.stakeOf] at hold
      rw [Committee.weight]
      omega
    have hholds : ∀ b ∈ insert p.1 S, b = worker.name ∨ held b waiter.batch := by
      intro b hb
      rcases Finset.mem_insert.mp hb with rfl | hb
      · exact Or.inr hheld
      · exact h.held b hb
    dsimp only
    split
    · next hquorum =>
      refine ⟨fun waiter' h' => (by cases h'), fun batch h' => ?_⟩
      cases h'
      exact ⟨insert p.1 S, (UInt32.le_iff_toNat_le.mp hquorum).trans hstake, hholds⟩
    · refine ⟨fun waiter' h' => ?_, fun batch h' => (by cases h')⟩
      obtain rfl := eq_of_next h'
      refine ⟨insert p.1 S, hstake, hholds, fun x hx => ?_, ?_⟩
      · obtain ⟨i, q, hq, rfl, hS⟩ := h.slots x (List.mem_of_mem_eraseP hx)
        refine ⟨i, q, hq, rfl, fun hmem => ?_⟩
        rcases Finset.mem_insert.mp hmem with heq | hmem
        · have hne : k + i ≠ k + j := ne_of_mem_eraseP h.nodup hx
          exact hne (congrArg (k + ·) (eq_of_fst_eq hq hp heq))
        · exact hS hmem
      · exact h.nodup.sublist (List.eraseP_sublist.map Prod.fst)

end

end Worker

end Bullshark
