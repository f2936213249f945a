import Bullshark.Machinery.Interleaving
import Bullshark.Network.Link
import Bullshark.Worker.Advance

/-!
# Worker/Dissemination — the workers of a committee, and the links between them

The workers with one id, one for each authority, in any interleaving.  A worker broadcasts a batch
over its links, one for each peer; the peer acknowledges a frame and only then passes it on to its
processor.  The peers that are not honest acknowledge what they please, and send anything to anybody.

A batch that a worker reports as its own is then held by a quorum: those of the quorum that are
honest have it on its way to their processor, or stored (`reported_held`).
-/

namespace Bullshark

open Interleaving
open Network (Link)
open Worker (SerializedBatchMessage)

/-- The workers of a committee with this id. -/
structure Workers where
  committee : Committee
  id : WorkerId
  /-- `parameters.batch_size`, of each. -/
  batchSize : PublicKey → ℕ
  honest : List PublicKey

namespace Workers

structure State where
  workers : PublicKey → Worker.State
  /-- The links from a worker to its peers, by number. -/
  links : PublicKey → ℕ → Link
  /-- The frames that `WorkerReceiverHandler::dispatch` acknowledged and did not pass on yet. -/
  dispatching : PublicKey → List (List UInt8)
  /-- The cancel handlers that were notified: of which link, and with which number. -/
  notified : PublicKey → List (ℕ × ℕ)

inductive Event
  /-- A worker takes a turn, or receives a frame from anywhere. -/
  | worker (a : PublicKey) (event : Worker.Event)
  /-- Something happens on the link of a worker to its `j`-th peer. -/
  | link (a : PublicKey) (j : ℕ) (event : Link.Event)
  /-- The `n`-th of the frames being dispatched is passed on. -/
  | passOn (b : PublicKey) (n : ℕ)
  /-- A peer that is not honest acknowledges a message. -/
  | claim (a : PublicKey) (j n : ℕ)
  /-- The quorum waiter finds the handler of the `n`-th message to the `j`-th peer resolved. -/
  | resolve (a : PublicKey) (j n : ℕ)

/-- The messages are submitted, one on each link. -/
def submitAll (links : ℕ → Link) (messages : List SerializedBatchMessage) (j : ℕ) : Link :=
  match messages[j]? with
  | none => links j
  | some data => ((links j).step (.connection (.submit data))).1

def init (stores : PublicKey → Worker.Store) : State where
  workers a := .new (stores a)
  links _ _ := ⟨.new, []⟩
  dispatching _ := []
  notified _ := []

variable [Crypto] [Base64] (net : Workers)

omit [Crypto] [Base64] in
/-- The worker of an authority. -/
def worker (a : PublicKey) : Worker := ⟨a, net.id, net.committee, net.batchSize a⟩

/-- A turn of a worker; what it broadcasts goes to its links. -/
def turn (s : State) (a : PublicKey) (e : Worker.Event) : State × List (PublicKey × Worker.Event) :=
  let turn := (net.worker a).step (s.workers a) e
  ({ s with
      workers := Function.update s.workers a turn.1
      links := Function.update s.links a (submitAll (s.links a) (Worker.broadcasts turn.2)) },
    [(a, e)])

omit [Crypto] [Base64] in
/-- An event on the `j`-th link of `a`, the one to `b`. -/
def linkTurn (s : State) (a : PublicKey) (j : ℕ) (b : PublicKey) (e : Link.Event) : State :=
  let turn := (s.links a j).step e
  { s with
    links := Function.update s.links a (Function.update (s.links a) j turn.1)
    dispatching := Function.update s.dispatching b
      (s.dispatching b ++ (Link.dispatched turn.2).map Network.InnerMessage.data)
    notified := Function.update s.notified a
      (s.notified a ++ ((s.links a j).notifies e).map fun n => (j, n)) }

/-- One event; which worker takes a turn on what is the output. -/
def step (s : State) : Event → State × List (PublicKey × Worker.Event)
  | .worker a e =>
    match e with
    | .resolve _ => (s, [])
    | e => net.turn s a e
  | .link a j e =>
    match (net.worker a).peers[j]?, e.data? with
    | some p, none => (linkTurn s a j p.1 e, [])
    | _, _ => (s, [])
  | .passOn b n =>
    match (s.dispatching b)[n]? with
    | none => (s, [])
    | some serialized =>
      let turn := net.turn s b (.workerMessage serialized)
      ({ turn.1 with
          dispatching := Function.update s.dispatching b ((s.dispatching b).eraseIdx n) }, turn.2)
  | .claim a j n =>
    match (net.worker a).peers[j]? with
    | none => (s, [])
    | some p =>
      if p.1 ∈ net.honest then (s, [])
      else ({ s with notified := Function.update s.notified a (s.notified a ++ [(j, n)]) }, [])
  | .resolve a j n =>
    if (j, n) ∈ s.notified a then net.turn s a (.resolve (n * (net.worker a).peers.length + j))
    else (s, [])

def machine (stores : PublicKey → Worker.Store) :
    Mealy State Event (PublicKey × Worker.Event) := ⟨init stores, net.step⟩

/-- What a worker does in its turns. -/
def actions (stores : PublicKey → Worker.Store) (a : PublicKey)
    (log : List (PublicKey × Worker.Event)) : List Worker.Action :=
  ((net.worker a).machine (stores a)).outputs (inputsOf a log)

/-! ## Who holds a batch -/

/-- The worker has this batch: it is being dispatched, it waits for the processor, or is stored. -/
def State.Held (s : State) (b : PublicKey) (batch : SerializedBatchMessage) : Prop :=
  Worker.IsBatch batch ∧ (batch ∈ s.dispatching b ∨ (s.workers b).Received batch)

/-- It has, if it is honest. -/
def Held (s : State) (b : PublicKey) (batch : SerializedBatchMessage) : Prop :=
  b ∈ net.honest → s.Held b batch

/-- The link carries these batches, and its peer holds what was dispatched. -/
def Carries (link : Link) (sealed : List SerializedBatchMessage)
    (held : SerializedBatchMessage → Prop) : Prop :=
  ∃ messages, link.Carries sealed messages ∧ ∀ m ∈ messages, held m.data

/-- What a worker has sealed, and what became of it. -/
structure Tracked (worker : Worker) (s : Worker.State) (links : ℕ → Link)
    (notified : List (ℕ × ℕ)) (held : PublicKey → SerializedBatchMessage → Prop)
    (sealed : List SerializedBatchMessage) : Prop where
  batches : ∀ batch ∈ sealed, Worker.IsBatch batch
  handlers : s.handlers = sealed.length * worker.peers.length
  links : ∀ j p, worker.peers[j]? = some p → Carries (links j) sealed (held p.1)
  notified : ∀ j n, (j, n) ∈ notified → ∃ p, worker.peers[j]? = some p ∧
    ((∀ batch, held p.1 batch) ∨ ∃ batch, sealed[n]? = some batch ∧ held p.1 batch)
  waiting : ∀ m ∈ s.rxQuorumWaiter, ∃ n, sealed[n]? = some m.batch ∧
    m.handlers = worker.handlersFrom (n * worker.peers.length)
  waiter : ∀ waiter, s.quorumWaiter = some waiter → ∃ n S, sealed[n]? = some waiter.batch ∧
    Worker.Waits worker held (n * worker.peers.length) waiter S
  own : ∀ batch ∈ s.rxOwn, Worker.Quorate worker held batch

variable {net} {s : State} {a b : PublicKey} {batch : SerializedBatchMessage} {worker : Worker}
  {w w' : Worker.State} {links : ℕ → Link} {notified : List (ℕ × ℕ)}
  {held held' : PublicKey → SerializedBatchMessage → Prop} {sealed : List SerializedBatchMessage}

/-! ## The links -/

omit [Crypto] [Base64] in
theorem Carries.mono {link : Link} {held held' : SerializedBatchMessage → Prop}
    (h : Carries link sealed held) (hheld : ∀ batch, held batch → held' batch) :
    Carries link sealed held' := by
  obtain ⟨messages, hcarries, hdispatched⟩ := h
  exact ⟨messages, hcarries, fun m hm => hheld _ (hdispatched m hm)⟩

omit [Crypto] [Base64] in
/-- A batch is submitted. -/
theorem Carries.submit {link : Link} {held : SerializedBatchMessage → Prop}
    (h : Carries link sealed held) (batch : SerializedBatchMessage) :
    Carries (link.step (.connection (.submit batch))).1 (sealed ++ [batch]) held := by
  obtain ⟨messages, hcarries, hdispatched⟩ := h
  exact ⟨messages, hcarries.submit batch, hdispatched⟩

omit [Crypto] [Base64] in
/-- **Another event on the link**: what it dispatches was sealed, and so was the message of a
handler that it notifies, which is held. -/
theorem Carries.step {link : Link} {held held' : SerializedBatchMessage → Prop}
    (h : Carries link sealed held) {e : Link.Event} (he : e.data? = none)
    (hheld : ∀ batch, held batch → held' batch)
    (hnew : ∀ batch ∈ (Link.dispatched (link.step e).2).map Network.InnerMessage.data,
      batch ∈ sealed → held' batch) :
    Carries (link.step e).1 sealed held' ∧
      ∀ n ∈ link.notifies e, ∃ batch, sealed[n]? = some batch ∧ held batch := by
  obtain ⟨messages, hcarries, hdispatched⟩ := h
  have hnext := hcarries.step e
  rw [he, Option.toList_none, List.append_nil] at hnext
  refine ⟨⟨_, hnext, fun m hm => ?_⟩, fun n hn => ?_⟩
  · have hmem : m.data ∈ sealed := List.mem_of_getElem? (hnext.getElem?_handler hm)
    rcases List.mem_append.mp hm with hm | hm
    · exact hheld _ (hdispatched m hm)
    · exact hnew _ (List.mem_map_of_mem hm) hmem
  · obtain ⟨m, hm, rfl⟩ := hcarries.exists_of_notifies hn
    exact ⟨m.data, hcarries.getElem?_handler hm, hdispatched m hm⟩

/-! ## One worker -/

omit [Crypto] in
theorem Tracked.mono (h : Tracked worker w links notified held sealed)
    (hheld : ∀ b batch, held b batch → held' b batch) :
    Tracked worker w links notified held' sealed where
  batches := h.batches
  handlers := h.handlers
  links j p hp := (h.links j p hp).mono (hheld _)
  notified j n hn := by
    obtain ⟨p, hp, hall | ⟨batch, hbatch, hholds⟩⟩ := h.notified j n hn
    · exact ⟨p, hp, Or.inl fun batch => hheld _ _ (hall batch)⟩
    · exact ⟨p, hp, Or.inr ⟨batch, hbatch, hheld _ _ hholds⟩⟩
  waiting := h.waiting
  waiter waiter hwaiter := by
    obtain ⟨n, S, hn, hwaits⟩ := h.waiter waiter hwaiter
    exact ⟨n, S, hn, hwaits.mono hheld⟩
  own batch hbatch := (h.own batch hbatch).mono hheld

omit [Crypto] [Base64] in
theorem submitAll_nil (links : ℕ → Link) : submitAll links [] = links := rfl

omit [Crypto] [Base64] in
/-- Each peer has its link. -/
theorem submitAll_replicate (links : ℕ → Link) {n j : ℕ} (hj : j < n) :
    submitAll links (List.replicate n batch) j
      = ((links j).step (.connection (.submit batch))).1 := by
  rw [submitAll, List.getElem?_replicate, if_pos hj]

/-- **A turn of the worker**, but for one that resolves a handler. -/
theorem Tracked.advance (h : Tracked worker w links notified held sealed)
    {actions : List Worker.Action} (hadvance : Worker.Advance worker w w' actions) :
    ∃ sealed', Tracked worker w' (submitAll links (Worker.broadcasts actions)) notified held
      sealed' := by
  cases hadvance with
  | rest hrests hown hsent hreports =>
    refine ⟨sealed, ?_⟩
    rw [hsent, submitAll_nil]
    exact
      { h with
        handlers := hrests.handlers ▸ h.handlers
        waiting := hrests.rxQuorumWaiter ▸ h.waiting
        waiter := hrests.quorumWaiter ▸ h.waiter
        own := hown ▸ h.own }
  | broadcast batch hbatch hhandlers hrx hwaiter hown hsent hreports =>
    refine ⟨sealed ++ [batch], ?_⟩
    rw [hsent]
    refine
      { batches := fun x hx => ?_
        handlers := by
          rw [hhandlers, h.handlers, List.length_append, List.length_singleton, add_mul, one_mul]
        links := fun j p hp => ?_
        notified := fun j n hn => ?_
        waiting := fun m hm => ?_
        waiter := fun waiter hw => ?_
        own := hown ▸ h.own }
    · rcases List.mem_append.mp hx with hx | hx
      · exact h.batches x hx
      · exact List.mem_singleton.mp hx ▸ hbatch
    · rw [submitAll_replicate _ (List.getElem?_eq_some_iff.mp hp).1]
      exact (h.links j p hp).submit batch
    · obtain ⟨p, hp, hall | ⟨x, hx, hholds⟩⟩ := h.notified j n hn
      · exact ⟨p, hp, Or.inl hall⟩
      · exact ⟨p, hp, Or.inr ⟨x, List.getElem?_append_of_some hx, hholds⟩⟩
    · rw [hrx] at hm
      rcases List.mem_append.mp hm with hm | hm
      · obtain ⟨n, hn, heq⟩ := h.waiting m hm
        exact ⟨n, List.getElem?_append_of_some hn, heq⟩
      · rw [List.mem_singleton.mp hm]
        exact ⟨sealed.length, List.getElem?_concat_length, by rw [h.handlers]⟩
    · obtain ⟨n, S, hn, hwaits⟩ := h.waiter waiter (hwaiter ▸ hw)
      exact ⟨n, S, List.getElem?_append_of_some hn, hwaits⟩
  | await message hhandlers hrx hwaiter hown hsent hreports =>
    refine ⟨sealed, ?_⟩
    rw [hsent, submitAll_nil]
    refine
      { h with
        handlers := hhandlers ▸ h.handlers
        waiting := fun m hm => h.waiting m (hrx ▸ List.mem_cons_of_mem _ hm)
        waiter := fun waiter hw => ?_
        own := hown ▸ h.own }
    obtain ⟨n, hn, hhandlers'⟩ := h.waiting message (hrx ▸ List.mem_cons_self)
    obtain ⟨bytes, handlers⟩ := message
    obtain rfl : handlers = worker.handlersFrom (n * worker.peers.length) := hhandlers'
    obtain ⟨hbatch, hwaits⟩ := Worker.waits_receive held (hwaiter ▸ hw)
    exact ⟨n, _, hbatch ▸ hn, hwaits⟩
  | report batch hrests hown hsent hreports hstored =>
    refine ⟨sealed, ?_⟩
    rw [hsent, submitAll_nil]
    exact
      { h with
        handlers := hrests.handlers ▸ h.handlers
        waiting := hrests.rxQuorumWaiter ▸ h.waiting
        waiter := hrests.quorumWaiter ▸ h.waiter
        own := fun x hx => h.own x (hown ▸ List.mem_cons_of_mem _ hx) }

omit [Crypto] [Base64] in
/-- The number of a handler tells the message and the peer. -/
theorem eq_of_handler_eq {n n' j j' N : ℕ} (hj : j < N) (hj' : j' < N) (h : n * N + j = n' * N + j') :
    n = n' ∧ j = j' := by
  have hlt : ∀ {n n' j j' : ℕ}, j < N → n * N + j = n' * N + j' → ¬ n < n' := by
    intro n n' j j' hj h hlt
    have hmul : (n + 1) * N ≤ n' * N := Nat.mul_le_mul_right N hlt
    rw [add_mul, one_mul] at hmul
    omega
  obtain rfl : n = n' := le_antisymm (not_lt.mp (hlt hj' h.symm)) (not_lt.mp (hlt hj h))
  exact ⟨rfl, by omega⟩

/-- **A handler that was notified is found resolved.** -/
theorem Tracked.resolve (h : Tracked worker w links notified held sealed)
    {j n : ℕ} (hn : (j, n) ∈ notified) :
    Tracked worker (worker.step w (.resolve (n * worker.peers.length + j))).1 links notified held
      sealed := by
  obtain ⟨p, hp, hholds⟩ := h.notified j n hn
  rw [Worker.step]
  split
  · exact h
  · next waiter hwaiter =>
    obtain ⟨n', S, hn', hwaits⟩ := h.waiter waiter hwaiter
    by_cases hsame : n = n'
    · subst hsame
      have hheld : held p.1 waiter.batch := by
        rcases hholds with hall | ⟨batch, hbatch, hheld⟩
        · exact hall _
        · exact Option.some.inj (hbatch.symm.trans hn') ▸ hheld
      obtain ⟨hkept, hforwarded⟩ := hwaits.resolve hp hheld
      have hbatches := waiter.batch_of_resolve worker.committee (n * worker.peers.length + j)
      refine { h with waiter := fun waiter' hw => ?_, own := fun batch hbatch => ?_ }
      · obtain ⟨S', hwaits'⟩ := hkept waiter' hw
        exact ⟨n, S', (hbatches.1 waiter' hw).symm ▸ hn', hwaits'⟩
      · rcases List.mem_append.mp hbatch with hbatch | hbatch
        · exact h.own batch hbatch
        · exact hforwarded batch (Option.mem_toList.mp hbatch)
    · -- the handler is of another message, which the waiter does not wait for
      have hnone : waiter.waitForQuorum.lookup (n * worker.peers.length + j) = none := by
        by_contra hsome
        obtain ⟨stake, hlookup⟩ := Option.ne_none_iff_exists'.mp hsome
        obtain ⟨l₁, l₂, hsplit, -⟩ := List.lookup_eq_some_iff.mp hlookup
        have hmem : (n * worker.peers.length + j, stake) ∈ waiter.waitForQuorum :=
          hsplit ▸ List.mem_append_right _ List.mem_cons_self
        obtain ⟨j', p', hp', hslot, -⟩ := hwaits.slots _ hmem
        exact hsame (eq_of_handler_eq (List.getElem?_eq_some_iff.mp hp).1
          (List.getElem?_eq_some_iff.mp hp').1 (Prod.mk.inj hslot).1).1
      rw [Worker.QuorumWaiter.resolve, hnone]
      refine { h with waiter := hwaiter ▸ h.waiter, own := fun batch hbatch => h.own batch ?_ }
      exact (List.mem_append.mp hbatch).resolve_right fun hmem => (by cases hmem)

omit [Crypto] in
/-- Another event on a link of the worker. -/
theorem Tracked.link (h : Tracked worker w links notified held sealed) {j : ℕ}
    {p : PublicKey × WorkerAddresses} (hp : worker.peers[j]? = some p) {e : Link.Event}
    (he : e.data? = none) (hheld : ∀ b batch, held b batch → held' b batch)
    (hnew : ∀ batch ∈ (Link.dispatched ((links j).step e).2).map Network.InnerMessage.data,
      Worker.IsBatch batch → held' p.1 batch) :
    Tracked worker w (Function.update links j ((links j).step e).1)
      (notified ++ ((links j).notifies e).map fun n => (j, n)) held' sealed := by
  obtain ⟨hcarries, hnotifies⟩ := (h.links j p hp).step he (hheld p.1) fun batch hbatch hsealed =>
    hnew batch hbatch (h.batches batch hsealed)
  refine
    { h.mono hheld with
      links := fun i q hq => ?_
      notified := fun i n hn => ?_ }
  · rcases eq_or_ne i j with rfl | hne
    · rw [Function.update_self, Option.some.inj (hq.symm.trans hp)]
      exact hcarries
    · rw [Function.update_of_ne hne]
      exact (h.mono hheld).links i q hq
  · rcases List.mem_append.mp hn with hn | hn
    · exact (h.mono hheld).notified i n hn
    · obtain ⟨n, hn, heq⟩ := List.mem_map.mp hn
      cases heq
      obtain ⟨batch, hbatch, hholds⟩ := hnotifies n hn
      exact ⟨p, hp, Or.inr ⟨batch, hbatch, hheld _ _ hholds⟩⟩

/-! ## All workers -/

/-- What holds of every run. -/
structure Inv (net : Workers) (stores : PublicKey → Worker.Store) (s : State)
    (log : List (PublicKey × Worker.Event)) : Prop where
  workers : ∀ a, s.workers a = ((net.worker a).machine (stores a)).state (inputsOf a log)
  tracked : ∀ a, ∃ sealed, Tracked (net.worker a) (s.workers a) (s.links a) (s.notified a)
    (net.Held s) sealed
  reported : ∀ a, ∀ x ∈ Worker.ownReports (net.actions stores a log),
    ((s.workers a).store.lookup x.1.toBytes).isSome ∧
      ∃ batch, Digest.hash batch = x.1 ∧ Worker.Quorate (net.worker a) (net.Held s) batch

variable {stores : PublicKey → Worker.Store} {s' : State} {log : List (PublicKey × Worker.Event)}

/-- A step that no worker takes, after which all hold what they held. -/
theorem Inv.of_held (h : Inv net stores s log) (hworkers : s'.workers = s.workers)
    (hheld : ∀ b batch, net.Held s b batch → net.Held s' b batch)
    (htracked : ∀ a, ∃ sealed, Tracked (net.worker a) (s'.workers a) (s'.links a) (s'.notified a)
      (net.Held s') sealed) : Inv net stores s' (log ++ []) where
  workers a := by rw [hworkers, List.append_nil, h.workers a]
  tracked := htracked
  reported a x hx := by
    rw [List.append_nil] at hx
    obtain ⟨hstored, batch, hdigest, hquorate⟩ := h.reported a x hx
    exact ⟨hworkers ▸ hstored, batch, hdigest, hquorate.mono hheld⟩

theorem workers_turn (net : Workers) (s : State) (a b : PublicKey) (e : Worker.Event) :
    (net.turn s a e).1.workers b
      = if b = a then ((net.worker b).step (s.workers b) e).1 else s.workers b := by
  rw [turn]
  rcases eq_or_ne b a with rfl | hne
  · rw [if_pos rfl]
    exact Function.update_self b _ _
  · rw [if_neg hne]
    exact Function.update_of_ne hne _ _

/-- **A turn of a worker**: what it did to its batches, the others need not know. -/
theorem Inv.turn (h : Inv net stores s log) (a : PublicKey) (e : Worker.Event)
    (htracked : ∃ sealed, Tracked (net.worker a) ((net.worker a).step (s.workers a) e).1
      (submitAll (s.links a) (Worker.broadcasts ((net.worker a).step (s.workers a) e).2))
      (s.notified a) (net.Held s) sealed)
    (hreports : ∀ x ∈ Worker.ownReports ((net.worker a).step (s.workers a) e).2,
      (((net.worker a).step (s.workers a) e).1.store.lookup x.1.toBytes).isSome ∧
        ∃ batch, Digest.hash batch = x.1 ∧ Worker.Quorate (net.worker a) (net.Held s) batch) :
    Inv net stores (net.turn s a e).1 (log ++ (net.turn s a e).2) := by
  have hheld : ∀ b batch, net.Held s b batch → net.Held (net.turn s a e).1 b batch := by
    intro b batch hb hhonest
    obtain ⟨hbatch, hb⟩ := hb hhonest
    refine ⟨hbatch, hb.imp_right fun hreceived => ?_⟩
    rw [workers_turn]
    split
    · exact hreceived.step e
    · exact hreceived
  have hlog : (net.turn s a e).2 = [(a, e)] := rfl
  rw [hlog]
  refine ⟨fun b => ?_, fun b => ?_, fun b x hx => ?_⟩
  · rw [workers_turn]
    rcases eq_or_ne b a with rfl | hne
    · rw [if_pos rfl, inputsOf_snoc_self, Mealy.state_snoc, ← h.workers b]
      rfl
    · rw [if_neg hne, inputsOf_snoc_of_ne hne.symm, h.workers b]
  · rcases eq_or_ne b a with rfl | hne
    · obtain ⟨sealed, hsealed⟩ := htracked
      refine ⟨sealed, ?_⟩
      rw [workers_turn, if_pos rfl, Workers.turn]
      dsimp only
      rw [Function.update_self]
      exact hsealed.mono hheld
    · obtain ⟨sealed, hsealed⟩ := h.tracked b
      refine ⟨sealed, ?_⟩
      rw [workers_turn, if_neg hne, Workers.turn]
      dsimp only
      rw [Function.update_of_ne hne]
      exact hsealed.mono hheld
  · rw [workers_turn]
    rcases eq_or_ne b a with rfl | hne
    · rw [if_pos rfl]
      rw [actions, inputsOf_snoc_self, Mealy.outputs_snoc, Worker.ownReports_append,
        ← h.workers b] at hx
      rcases List.mem_append.mp hx with hx | hx
      · obtain ⟨hstored, batch, hdigest, hquorate⟩ := h.reported b x hx
        exact ⟨(Worker.keeps_step (net.worker b) (s.workers b) e).store _ hstored, batch, hdigest,
          hquorate.mono hheld⟩
      · obtain ⟨hstored, batch, hdigest, hquorate⟩ := hreports x hx
        exact ⟨hstored, batch, hdigest, hquorate.mono hheld⟩
    · rw [if_neg hne]
      rw [actions, inputsOf_snoc_of_ne hne.symm] at hx
      obtain ⟨hstored, batch, hdigest, hquorate⟩ := h.reported b x hx
      exact ⟨hstored, batch, hdigest, hquorate.mono hheld⟩

/-- A turn that resolves no handler. -/
theorem Inv.advance (h : Inv net stores s log) (a : PublicKey) {e : Worker.Event}
    (he : ∀ handler, e ≠ .resolve handler) :
    Inv net stores (net.turn s a e).1 (log ++ (net.turn s a e).2) := by
  obtain ⟨sealed, hsealed⟩ := h.tracked a
  have hadvance : Worker.Advance (net.worker a) (s.workers a)
      ((net.worker a).step (s.workers a) e).1 ((net.worker a).step (s.workers a) e).2 :=
    Worker.advance_step e he
  refine h.turn a e (hsealed.advance hadvance) fun x hx => ?_
  cases hadvance with
  | report batch hrests hown hsent hreports hstored =>
    rw [hreports] at hx
    cases List.mem_singleton.mp hx
    exact ⟨hstored, batch, rfl, hsealed.own batch (hown ▸ List.mem_cons_self)⟩
  | rest hrests hown hsent hreports => exact absurd (hreports ▸ hx) List.not_mem_nil
  | broadcast batch hbatch hhandlers hrx hwaiter hown hsent hreports =>
    exact absurd (hreports ▸ hx) List.not_mem_nil
  | await message hhandlers hrx hwaiter hown hsent hreports =>
    exact absurd (hreports ▸ hx) List.not_mem_nil

/-- A handler that was notified is found resolved. -/
theorem Inv.resolve (h : Inv net stores s log) {j n : ℕ} (hn : (j, n) ∈ s.notified a) :
    Inv net stores (net.turn s a (.resolve (n * (net.worker a).peers.length + j))).1
      (log ++ (net.turn s a (.resolve (n * (net.worker a).peers.length + j))).2) := by
  obtain ⟨sealed, hsealed⟩ := h.tracked a
  have hquiet : ((net.worker a).step (s.workers a)
      (.resolve (n * (net.worker a).peers.length + j))).2 = [] := by
    rw [Worker.step]
    split
    · rfl
    · rfl
  refine h.turn a _ ⟨sealed, ?_⟩ fun x hx => ?_
  · rw [hquiet]
    exact hsealed.resolve hn
  · rw [hquiet] at hx
    cases hx

/-- What is being dispatched is passed on. -/
theorem Inv.passOn (h : Inv net stores s log) {n : ℕ} {bytes : List UInt8}
    (hn : (s.dispatching b)[n]? = some bytes) :
    Inv net stores
      { (net.turn s b (.workerMessage bytes)).1 with
        dispatching := Function.update s.dispatching b ((s.dispatching b).eraseIdx n) }
      (log ++ (net.turn s b (.workerMessage bytes)).2) := by
  have hturn := h.advance b (e := .workerMessage bytes) fun handler heq => (by cases heq)
  rw [← List.append_nil (log ++ _)]
  have hheld : ∀ c batch, net.Held (net.turn s b (.workerMessage bytes)).1 c batch →
      net.Held { (net.turn s b (.workerMessage bytes)).1 with
        dispatching := Function.update s.dispatching b ((s.dispatching b).eraseIdx n) } c batch := by
    intro c batch hc hhonest
    obtain ⟨hbatch, hmem | hreceived⟩ := hc hhonest
    · refine ⟨hbatch, ?_⟩
      have hmem : batch ∈ s.dispatching c := hmem
      rcases eq_or_ne c b with rfl | hne
      · dsimp only
        rw [Function.update_self]
        rcases eq_or_ne batch bytes with rfl | hother
        · refine Or.inr ?_
          rw [workers_turn, if_pos rfl]
          exact Worker.received_workerMessage hbatch
        · refine Or.inl (List.mem_eraseIdx_iff_getElem?.mpr ?_)
          obtain ⟨i, hi⟩ := List.getElem?_of_mem hmem
          refine ⟨i, fun heq => hother ?_, hi⟩
          exact Option.some.inj (hi.symm.trans (heq ▸ hn))
      · dsimp only
        rw [Function.update_of_ne hne]
        exact Or.inl hmem
    · exact ⟨hbatch, Or.inr hreceived⟩
  refine hturn.of_held rfl hheld fun c => ?_
  obtain ⟨sealed, hsealed⟩ := hturn.tracked c
  exact ⟨sealed, hsealed.mono hheld⟩

/-- An event on a link. -/
theorem Inv.link (h : Inv net stores s log) {j : ℕ} {p : PublicKey × WorkerAddresses}
    (hp : (net.worker a).peers[j]? = some p) {e : Link.Event} (he : e.data? = none) :
    Inv net stores (linkTurn s a j p.1 e) (log ++ []) := by
  have hheld : ∀ b batch, net.Held s b batch → net.Held (linkTurn s a j p.1 e) b batch := by
    intro b batch hb hhonest
    obtain ⟨hbatch, hb⟩ := hb hhonest
    refine ⟨hbatch, hb.imp_left fun hmem => ?_⟩
    rw [linkTurn]
    rcases eq_or_ne b p.1 with rfl | hne
    · dsimp only
      rw [Function.update_self]
      exact List.mem_append_left _ hmem
    · dsimp only
      rw [Function.update_of_ne hne]
      exact hmem
  refine h.of_held rfl hheld fun b => ?_
  obtain ⟨sealed, hsealed⟩ := h.tracked b
  refine ⟨sealed, ?_⟩
  rcases eq_or_ne b a with rfl | hne
  · have htracked := hsealed.link hp he hheld fun batch hmem hbatch _ => by
      refine ⟨hbatch, Or.inl ?_⟩
      rw [linkTurn]
      dsimp only
      rw [Function.update_self]
      exact List.mem_append_right _ hmem
    rw [linkTurn] at htracked ⊢
    dsimp only at htracked ⊢
    rw [Function.update_self, Function.update_self]
    exact htracked
  · rw [linkTurn]
    dsimp only
    rw [Function.update_of_ne hne, Function.update_of_ne hne]
    exact hsealed.mono hheld

/-- A peer that is not honest acknowledges a message. -/
theorem Inv.claim (h : Inv net stores s log) {j : ℕ} (n : ℕ) {p : PublicKey × WorkerAddresses}
    (hp : (net.worker a).peers[j]? = some p) (hfaulty : p.1 ∉ net.honest) :
    Inv net stores { s with notified := Function.update s.notified a (s.notified a ++ [(j, n)]) }
      (log ++ []) := by
  refine h.of_held rfl (fun _ _ h => h) fun b => ?_
  obtain ⟨sealed, hsealed⟩ := h.tracked b
  refine ⟨sealed, ?_⟩
  rcases eq_or_ne b a with rfl | hne
  · dsimp only
    rw [Function.update_self]
    refine { hsealed with notified := fun i m hm => ?_ }
    rcases List.mem_append.mp hm with hm | hm
    · exact hsealed.notified i m hm
    · cases List.mem_singleton.mp hm
      exact ⟨p, hp, Or.inl fun batch hhonest => absurd hhonest hfaulty⟩
  · dsimp only
    rw [Function.update_of_ne hne]
    exact hsealed

/-- **One event of the system.** -/
theorem Inv.step (h : Inv net stores s log) (e : Event) :
    Inv net stores (net.step s e).1 (log ++ (net.step s e).2) := by
  have hidle : Inv net stores s (log ++ []) := (List.append_nil log).symm ▸ h
  cases e with
  | worker a e =>
    cases e with
    | resolve handler => exact hidle
    | _ => exact h.advance a fun handler heq => (by cases heq)
  | link a j e =>
    rw [Workers.step]
    split
    · next hp he => exact h.link hp he
    · exact hidle
  | passOn b n =>
    rw [Workers.step]
    split
    · exact hidle
    · next hn => exact h.passOn hn
  | claim a j n =>
    rw [Workers.step]
    split
    · exact hidle
    · next hp =>
      split
      · exact hidle
      · next hfaulty => exact h.claim n hp hfaulty
  | resolve a j n =>
    rw [Workers.step]
    split
    · next hn => exact h.resolve hn
    · exact hidle

theorem inv (net : Workers) (stores : PublicKey → Worker.Store) (es : List Event) :
    Inv net stores ((net.machine stores).state es) ((net.machine stores).outputs es) := by
  refine (net.machine stores).invariant (P := fun _ s log => Inv net stores s log) ?_
    (fun _ e h => h.step e) es
  refine
    { workers := fun a => rfl
      tracked := fun a => ⟨[], ?_⟩
      reported := fun a x hx => (by cases hx) }
  exact
    { batches := fun batch hbatch => (by cases hbatch)
      handlers := (Nat.zero_mul _).symm
      links := fun j p hp => ⟨[], Link.carries_new, fun m hm => (by cases hm)⟩
      notified := fun j n hn => (by cases hn)
      waiting := fun m hm => (by cases hm)
      waiter := fun waiter hwaiter => (by cases hwaiter)
      own := fun batch hbatch => (by cases hbatch) }

/-- A batch with this digest is being dispatched at the worker, waits for its processor, or is
stored. -/
def State.Available (s : State) (b : PublicKey) (digest : Digest) : Prop :=
  ∃ batch, Worker.IsBatch batch ∧ Digest.hash batch = digest ∧
    (batch ∈ s.dispatching b ∨ batch ∈ (s.workers b).rxOthers ∨
      (s.workers b).store.lookup digest.toBytes = some batch)

end Workers

/-! ## Four workers, the last of which is not honest -/

namespace Workers.Claimed

open Sample

def committee : Committee :=
  ⟨⟨[(key 1, staffed 1), (key 2, staffed 1), (key 3, staffed 1), (key 4, staffed 1)],
    by simp only [List.map]; decide⟩⟩

def net : Workers := ⟨committee, 0, fun _ => 1, [key 1, key 2, key 3]⟩

/-- A batch is sealed and sent to the second worker, which acknowledges it; the last one says that
it has it, and so the first one reports it. -/
def events : List Event :=
  [.transaction [7], .makeBatch, .awaitQuorum].map (.worker (key 1)) ++
    [.connect true, .receive, .write true, .arrive, .response (some [])].map
      (fun e => .link (key 1) 0 (.connection e)) ++
    [.claim (key 1) 2 0, .resolve (key 1) 0 0, .resolve (key 1) 2 0, .worker (key 1) .processOwn]

def digest : Digest := Digest.hash (Worker.WorkerMessage.codec.encode (.batch [[7]]))

end Workers.Claimed

end Bullshark
