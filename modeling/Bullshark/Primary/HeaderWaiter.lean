import Bullshark.Machinery.Mealy
import Bullshark.Primary.Synchronizer
import Bullshark.Worker.Messages

/-!
# Primary/HeaderWaiter — headers suspended until their parents and batches arrive

`header_waiter.rs`.  The `Synchronizer` sends a header here with what the store misses of it; the
waiter asks for that, once per digest, and loops the header back when all of it can be read.
Parents are asked of the author's primary, and of any other when the timer fires; batches are asked
of a worker.  A step is one event around the task or one branch of its `select!` with the clean-up
after it, in any interleaving.
-/

namespace Bullshark

/-- The commands that can be sent to the `HeaderWaiter`. -/
inductive WaiterMessage
  | syncBatches (missing : List (Digest × WorkerId)) (header : Header)
  | syncParents (missing : List Digest) (header : Header)
  deriving DecidableEq

def WaiterMessage.header : WaiterMessage → Header
  | .syncBatches _ header => header
  | .syncParents _ header => header

/-- The immutable part of a `HeaderWaiter` instance. -/
structure HeaderWaiter where
  /-- The name of this authority. -/
  name : PublicKey
  committee : Committee
  /-- The depth of the garbage collector. -/
  gcDepth : ℕ
  /-- The delay to wait before re-trying sync requests. -/
  syncRetryDelay : ℕ
  /-- Determine with how many nodes to sync when re-trying to send sync-request. -/
  syncRetryNodes : ℕ

namespace HeaderWaiter

/-- `expect("Author of valid header is not in the committee")`. -/
inductive Panic
  | notInCommittee (name : PublicKey)
  deriving DecidableEq

/-- What the `HeaderWaiter` sends. -/
inductive Emission
  /-- A header joins the waiter pool. -/
  | suspended (waitFor : List StoreKey) (header : Header)
  /-- To a worker, found in the committee under this id. -/
  | toWorker (workerId : WorkerId) (address : SocketAddr) (message : Worker.PrimaryWorkerMessage)
  /-- `PrimaryMessage::CertificatesRequest`, to the node that created the header. -/
  | certificatesRequest (address : SocketAddr) (digests : List Digest) (requestor : PublicKey)
  /-- The same, to some of all nodes. -/
  | luckyBroadcast (addresses : List SocketAddr) (digests : List Digest) (requestor : PublicKey)
    (nodes : ℕ)
  /-- The header is looped back to the core. -/
  | delivered (header : Header)
  deriving DecidableEq

/-- A future of the waiter pool; its number stands for its cancel channel. -/
structure Waiter where
  number : ℕ
  waitFor : List StoreKey
  deliver : Header
  deriving DecidableEq

structure State where
  /-- Receives sync commands from the `Synchronizer`. -/
  rxSynchronizer : List WaiterMessage
  /-- The persistent storage, shared. -/
  store : Store
  /-- The current consensus round, shared (used for cleanup). -/
  consensusRound : ℕ
  /-- Keeps the digests of the all certificates for which we sent a sync request, along with a
  timestamp indicating when we sent the request. -/
  parentRequests : HashMap Digest (ℕ × ℕ)
  /-- Keeps the digests of the all tx batches for which we sent a sync request. -/
  batchRequests : HashMap Digest ℕ
  /-- The headers that are waiting to be processed, with their round and cancel channel. -/
  pending : HashMap Digest (ℕ × ℕ)
  /-- The waiter pool. -/
  waiting : List Waiter
  /-- How many waiters were made. -/
  created : ℕ

/-- The parents a waiter waits for. -/
def Waiter.parents (w : Waiter) : List Digest :=
  w.waitFor.filterMap fun
    | .digest digest => some digest
    | .batch _ _ => none

/-- The batches a waiter waits for, each from a worker. -/
def Waiter.batches (w : Waiter) : List (Digest × WorkerId) :=
  w.waitFor.filterMap fun
    | .digest _ => none
    | .batch digest workerId => some (digest, workerId)

theorem Waiter.mem_parents {w : Waiter} {d : Digest} : d ∈ w.parents ↔ .digest d ∈ w.waitFor :=
  List.mem_filterMap_iff_mem fun key d => by cases key <;> simp

theorem Waiter.mem_batches {w : Waiter} {e : Digest × WorkerId} :
    e ∈ w.batches ↔ .batch e.1 e.2 ∈ w.waitFor := by
  have hkey : ∀ (key : StoreKey) (e : Digest × WorkerId), (match key with
      | .digest _ => none
      | .batch digest workerId => some (digest, workerId)) = some e ↔ key = .batch e.1 e.2 := by
    intro key e
    cases key <;> simp [Prod.ext_iff]
  exact List.mem_filterMap_iff_mem hkey

@[simp] theorem Waiter.parents_digests (n : ℕ) (l : List Digest) (h : Header) :
    (Waiter.mk n (l.map .digest) h).parents = l := by
  simp [Waiter.parents, List.filterMap_map]

@[simp] theorem Waiter.parents_batches (n : ℕ) (l : List (Digest × WorkerId)) (h : Header) :
    (Waiter.mk n (l.map fun e => .batch e.1 e.2) h).parents = [] := by
  simp [Waiter.parents]

/-- The state of `HeaderWaiter::spawn`. -/
def State.new : State := ⟨[], ∅, 0, ∅, ∅, ∅, [], 0⟩

inductive Event
  /-- The core asks the `Synchronizer` for the parents of a header. -/
  | getParents (header : Header)
  /-- The core asks it for the payload of a header whose parents it has. -/
  | missingPayload (header : Header)
  /-- A task writes to the store. -/
  | write (key : StoreKey) (value : StoreValue)
  /-- Consensus reaches a round. -/
  | committed (round : ℕ)
  /-- The next command is received at this time. -/
  | message (now : ℕ)
  /-- A waiter of the pool finds all it waits for in the store. -/
  | completed (number : ℕ)
  /-- A waiter of the pool is cancelled. -/
  | cancelled (number : ℕ)
  /-- The timer fires at this time. -/
  | timer (now : ℕ)
  deriving DecidableEq

/-- What a branch of the `select!` leaves, and whether the turn goes on to the clean-up. -/
structure Taken where
  state : Except Panic State
  sent : List Emission
  cleans : Bool

namespace State

/-- The waiter's sender is in `pending`. -/
def IsPending (s : State) (w : Waiter) : Prop :=
  s.pending.lookup w.deliver.id = some (w.deliver.round, w.number)

instance (s : State) (w : Waiter) : Decidable (s.IsPending w) :=
  inferInstanceAs (Decidable (_ = _))

/-- Add the header to the waiter pool. -/
def suspend (s : State) (waitFor : List StoreKey) (header : Header) : State :=
  { s with
    pending := s.pending.insert header.id (header.round, s.created)
    waiting := s.waiting ++ [⟨s.created, waitFor, header⟩]
    created := s.created + 1 }

/-- A waiter leaves the pool. -/
def drop (s : State) (w : Waiter) : State := { s with waiting := s.waiting.erase w }

/-- The header of a waiter has what it waits for. -/
def resume (s : State) (w : Waiter) : State :=
  { s.drop w with
    pending := s.pending.erase w.deliver.id
    batchRequests := w.deliver.payload.keys.foldl (fun m x => m.erase x) s.batchRequests
    parentRequests := w.deliver.parents.elems.foldl (fun m x => m.erase x) s.parentRequests }

/-- Everything the waiter waits for is in the store. -/
def holds (s : State) (w : Waiter) : Bool := w.waitFor.all fun key => (s.store.lookup key).isSome

end State

variable (self : HeaderWaiter)

/-- Cleanup internal state; a waiter whose sender is removed is cancelled. -/
def cleanUp (s : State) : State :=
  if s.consensusRound > self.gcDepth then
    let gcRound := s.consensusRound - self.gcDepth
    { s with
      pending := s.pending.retain fun _ x => if x.1 > gcRound then some x else none
      batchRequests := s.batchRequests.retain fun _ r => if r > gcRound then some r else none
      parentRequests := s.parentRequests.retain fun _ x => if x.1 > gcRound then some x else none }
  else s

/-- Ensure we didn't already send a sync request for this batch: `batch_requests` and
`requires_sync` so far. -/
def requestBatch (round : ℕ) (acc : HashMap Digest ℕ × HashMap WorkerId (List Digest))
    (e : Digest × WorkerId) : HashMap Digest ℕ × HashMap WorkerId (List Digest) :=
  if (acc.1.lookup e.1).isSome then acc
  else (acc.1.insert e.1 round, acc.2.insert e.2 ((acc.2.lookup e.2).getD [] ++ [e.1]))

/-- Ensure we didn't already send a sync request for this parent: `parent_requests` and
`requires_sync` so far. -/
def requestParent (round now : ℕ) (acc : HashMap Digest (ℕ × ℕ) × List Digest) (digest : Digest) :
    HashMap Digest (ℕ × ℕ) × List Digest :=
  if (acc.1.lookup digest).isSome then acc
  else (acc.1.insert digest (round, now), acc.2 ++ [digest])

/-- The loop that sends the sync requests of `requires_sync`. -/
def sendRequests (author : PublicKey) :
    List (Σ _ : WorkerId, List Digest) → Except Panic Unit × List Emission
  | [] => (.ok (), [])
  | ⟨workerId, digests⟩ :: rest =>
    match self.committee.worker author workerId with
    | .error _ => (.error (.notInCommittee author), [])
    | .ok addresses =>
      let (result, sent) := sendRequests author rest
      (result, .toWorker workerId addresses.primaryToWorker (.synchronize digests author) :: sent)

/-- Optimistically send the sync request to the node that created the header. -/
def sendRequest (author : PublicKey) (requiresSync : List Digest) :
    Except Panic Unit × List Emission :=
  if requiresSync = [] then (.ok (), [])
  else
    match self.committee.primary author with
    | .error _ => (.error (.notInCommittee author), [])
    | .ok addresses =>
      (.ok (), [.certificatesRequest addresses.primaryToPrimary requiresSync self.name])

/-- `WaiterMessage::SyncBatches`, for a header that is not pending. -/
def syncBatches (s : State) (missing : List (Digest × WorkerId)) (header : Header) : Taken :=
  let waitFor := missing.map fun e => .batch e.1 e.2
  let requests := missing.foldl (requestBatch header.round) (s.batchRequests, ∅)
  let (result, sent) := self.sendRequests header.author requests.2.entries
  ⟨result.map fun _ => { s.suspend waitFor header with batchRequests := requests.1 },
    .suspended waitFor header :: sent, true⟩

/-- `WaiterMessage::SyncParents`, for a header that is not pending. -/
def syncParents (now : ℕ) (s : State) (missing : List Digest) (header : Header) : Taken :=
  let waitFor := missing.map .digest
  let requests := missing.foldl (requestParent header.round now) (s.parentRequests, [])
  let (result, sent) := self.sendRequest header.author requests.2
  ⟨result.map fun _ => { s.suspend waitFor header with parentRequests := requests.1 },
    .suspended waitFor header :: sent, true⟩

/-- The next command; a header is suspended once (`continue`). -/
def receive (now : ℕ) (s : State) : Taken :=
  match s.rxSynchronizer with
  | [] => ⟨.ok s, [], false⟩
  | message :: rxSynchronizer =>
    let s := { s with rxSynchronizer }
    if (s.pending.lookup message.header.id).isSome then ⟨.ok s, [], false⟩
    else
      match message with
      | .syncBatches missing header => self.syncBatches s missing header
      | .syncParents missing header => self.syncParents now s missing header

/-- The digests requested long enough ago go to all nodes. -/
def retry (now : ℕ) (s : State) : Emission :=
  let retry := (s.parentRequests.entries.filter fun x =>
    decide (x.2.2 + self.syncRetryDelay < now)).map fun x => x.1
  .luckyBroadcast ((self.committee.othersPrimaries self.name).map fun x => x.2.primaryToPrimary)
    retry self.name self.syncRetryNodes

section Machine

variable [Crypto]

/-- The command the `Synchronizer` sends when it is asked for the parents of a header. -/
def parentsCommand (store : Store) (header : Header) : List WaiterMessage :=
  match Synchronizer.findParents self.committee store header with
  | .error _ => []
  | .ok (missing, _) => if missing = [] then [] else [.syncParents missing header]

/-- The command it sends when it is asked for the payload; the core has seen the parents. -/
def payloadCommand (store : Store) (header : Header) : List WaiterMessage :=
  let missing := Synchronizer.missingBatches self.name store header
  if header.parents.elems.all (Synchronizer.has self.committee store) = false ∨ missing = [] then []
  else [.syncBatches missing header]

/-- One event around the task, or one branch of the `select!`. -/
def take (s : State) : Event → Taken
  | .getParents header =>
    let sent := self.parentsCommand s.store header
    ⟨.ok { s with rxSynchronizer := s.rxSynchronizer ++ sent }, [], false⟩
  | .missingPayload header =>
    let sent := self.payloadCommand s.store header
    ⟨.ok { s with rxSynchronizer := s.rxSynchronizer ++ sent }, [], false⟩
  | .write key value => ⟨.ok { s with store := s.store.insert key value }, [], false⟩
  | .committed round => ⟨.ok { s with consensusRound := round }, [], false⟩
  | .message now => self.receive now s
  | .completed number =>
    match s.waiting.find? fun w => decide (w.number = number) with
    | none => ⟨.ok s, [], false⟩
    | some w =>
      if s.holds w then ⟨.ok (s.resume w), [.delivered w.deliver], true⟩ else ⟨.ok s, [], false⟩
  | .cancelled number =>
    match s.waiting.find? fun w => decide (w.number = number) with
    | none => ⟨.ok s, [], false⟩
    | some w => if s.IsPending w then ⟨.ok s, [], false⟩ else ⟨.ok (s.drop w), [], true⟩
  | .timer now => ⟨.ok s, [self.retry now s], true⟩

/-- A turn of the loop. -/
def step (s : State) (e : Event) : Except Panic State × List Emission :=
  let taken := self.take s e
  (if taken.cleans then taken.state.map self.cleanUp else taken.state, taken.sent)

/-- `HeaderWaiter::run`, in any interleaving with the tasks around it. -/
def machine : Mealy (Except Panic State) Event Emission where
  init := .ok .new
  step
    | .ok s, e => self.step s e
    | .error panic, _ => (.error panic, [])

end Machine

/-! ## The two request loops -/

/-- A batch is among those to request from a worker. -/
def ToRequest (requiresSync : HashMap WorkerId (List Digest)) (e : Digest × WorkerId) : Prop :=
  ∃ digests, requiresSync.lookup e.2 = some digests ∧ e.1 ∈ digests

theorem toRequest_insert {requiresSync : HashMap WorkerId (List Digest)} {e x : Digest × WorkerId} :
    ToRequest (requiresSync.insert e.2 ((requiresSync.lookup e.2).getD [] ++ [e.1])) x ↔
      ToRequest requiresSync x ∨ x = e := by
  obtain ⟨digest, workerId⟩ := e
  obtain ⟨d, id⟩ := x
  by_cases hid : id = workerId
  · subst hid
    simp only [ToRequest, AList.lookup_insert]
    cases requiresSync.lookup id <;> simp
  · simp [ToRequest, AList.lookup_insert_ne hid, hid]

theorem toRequest_requestBatch {round : ℕ} {acc : HashMap Digest ℕ × HashMap WorkerId (List Digest)}
    {e x : Digest × WorkerId} : ToRequest (requestBatch round acc e).2 x ↔
      ToRequest acc.2 x ∨ x = e ∧ acc.1.lookup e.1 = none := by
  rw [requestBatch]
  split
  · next hsome =>
    rw [or_iff_left]
    rintro ⟨-, hnone⟩
    simp [hnone] at hsome
  · next hnone =>
    have hnone : acc.1.lookup e.1 = none := by simpa using hnone
    rw [toRequest_insert, and_iff_left hnone]

/-- **The batches to request are those listed whose digest is new.** -/
theorem toRequest_foldl {round : ℕ} : ∀ {missing : List (Digest × WorkerId)}
    {acc : HashMap Digest ℕ × HashMap WorkerId (List Digest)} {x : Digest × WorkerId},
    (missing.map Prod.fst).Nodup → (ToRequest (missing.foldl (requestBatch round) acc).2 x ↔
      ToRequest acc.2 x ∨ x ∈ missing ∧ acc.1.lookup x.1 = none)
  | [], acc, x, _ => by simp
  | e :: missing, acc, x, hnodup => by
      obtain ⟨hne, hnodup'⟩ := List.nodup_cons.mp hnodup
      have hlookup : x ∈ missing →
          ((requestBatch round acc e).1.lookup x.1 = none ↔ acc.1.lookup x.1 = none) := by
        intro hx
        have hother : x.1 ≠ e.1 := fun heq => hne (heq ▸ List.mem_map_of_mem hx)
        rw [requestBatch]
        split
        · exact Iff.rfl
        · rw [AList.lookup_insert_ne hother]
      rw [List.foldl_cons, toRequest_foldl hnodup', toRequest_requestBatch, List.mem_cons, or_assoc]
      refine or_congr_right ?_
      constructor
      · rintro (⟨rfl, hnone⟩ | ⟨hx, hnone⟩)
        · exact ⟨Or.inl rfl, hnone⟩
        · exact ⟨Or.inr hx, (hlookup hx).mp hnone⟩
      · rintro ⟨rfl | hx, hnone⟩
        · exact Or.inl ⟨rfl, hnone⟩
        · exact Or.inr ⟨hx, (hlookup hx).mpr hnone⟩

/-- Nothing is requested where every digest was. -/
theorem foldl_requestBatch_of_recorded {round : ℕ} {missing : List (Digest × WorkerId)}
    {acc : HashMap Digest ℕ × HashMap WorkerId (List Digest)}
    (h : ∀ e ∈ missing, (acc.1.lookup e.1).isSome) :
    missing.foldl (requestBatch round) acc = acc := by
  induction missing with
  | nil => rfl
  | cons e missing ih =>
    obtain ⟨he, h'⟩ := List.forall_mem_cons.mp h
    rw [List.foldl_cons, requestBatch, if_pos he, ih h']

theorem isSome_lookup_requestParent {round now : ℕ} {acc : HashMap Digest (ℕ × ℕ) × List Digest}
    {x d : Digest} (h : d = x ∨ (acc.1.lookup d).isSome) :
    ((requestParent round now acc x).1.lookup d).isSome := by
  rw [requestParent]
  split
  · next hsome =>
    rcases h with rfl | h
    · exact hsome
    · exact h
  · rw [AList.lookup_insert_eq]
    split
    · rfl
    · next hne => exact h.resolve_left hne

/-- The requests for parents are never given up here, and each parent listed has one after. -/
theorem isSome_lookup_foldl_requestParent {round now : ℕ} {missing : List Digest} {d : Digest} :
    ∀ {acc : HashMap Digest (ℕ × ℕ) × List Digest}, (d ∈ missing ∨ (acc.1.lookup d).isSome) →
      ((missing.foldl (requestParent round now) acc).1.lookup d).isSome := by
  induction missing with
  | nil => exact fun h => h.resolve_left (by simp)
  | cons x missing ih =>
    intro acc h
    rw [List.foldl_cons]
    refine ih ?_
    rw [List.mem_cons, or_assoc, or_left_comm] at h
    exact h.imp_right isSome_lookup_requestParent

/-! ## The requests sent -/

variable {self : HeaderWaiter}

/-- The author has a worker for every request. -/
def CanSend (self : HeaderWaiter) (author : PublicKey)
    (requests : List (Σ _ : WorkerId, List Digest)) : Prop :=
  ∀ x ∈ requests, ∃ addresses, self.committee.worker author x.1 = .ok addresses

/-- **What the loop sends**: if the author has the workers, each request goes to the worker of the
author with its id. -/
theorem sendRequests_spec {author : PublicKey} {requests : List (Σ _ : WorkerId, List Digest)} :
    ((self.sendRequests author requests).1 = .ok () ↔ CanSend self author requests) ∧
    (∀ m ∈ (self.sendRequests author requests).2, ∃ x ∈ requests, ∃ addresses,
      self.committee.worker author x.1 = .ok addresses ∧
        m = .toWorker x.1 addresses.primaryToWorker (.synchronize x.2 author)) ∧
    (CanSend self author requests → ∀ x ∈ requests, ∃ address,
      .toWorker x.1 address (.synchronize x.2 author) ∈ (self.sendRequests author requests).2) := by
  induction requests with
  | nil => simp [sendRequests, CanSend]
  | cons x requests ih =>
    obtain ⟨hok, hsent, hall⟩ := ih
    rw [sendRequests]
    cases hworker : self.committee.worker author x.1 with
    | error e => simp [CanSend, hworker]
    | ok addresses =>
      have hcan : CanSend self author (x :: requests) ↔ CanSend self author requests := by
        simp [CanSend, hworker]
      rw [hcan]
      refine ⟨hok, List.forall_mem_cons.mpr ⟨⟨x, List.mem_cons_self, addresses, hworker, rfl⟩,
        fun m hm => ?_⟩, fun h => List.forall_mem_cons.mpr
          ⟨⟨_, List.mem_cons_self⟩, fun y hy => ?_⟩⟩
      · obtain ⟨y, hy, haddresses⟩ := hsent m hm
        exact ⟨y, List.mem_cons_of_mem _ hy, haddresses⟩
      · obtain ⟨address, haddress⟩ := hall h y hy
        exact ⟨address, List.mem_cons_of_mem _ haddress⟩

/-! ## What one branch does -/

section Change

variable [Crypto]

/-- A command is as the `Synchronizer` sends it: what is not reported missing is there. -/
def Sound (self : HeaderWaiter) (store : Store) : WaiterMessage → Prop
  | .syncBatches missing header => header.author ≠ self.name ∧ (missing.map Prod.fst).Nodup ∧
      ∀ p ∈ header.parents.elems, Synchronizer.has self.committee store p = true
  | .syncParents missing header =>
      (∀ d ∈ missing, Synchronizer.genesis self.committee d = none) ∧
        ∀ p ∈ header.parents.elems, p ∈ missing ∨ Synchronizer.has self.committee store p = true

/-- What an event and a branch do where nothing panics: what is sent, whether the clean-up follows,
and the state left for it. -/
inductive Change (self : HeaderWaiter) (s : State) : Event → List Emission → Bool → State → Prop
  | idle (e : Event) : Change self s e [] false s
  | asked (e : Event) (commands : List WaiterMessage) (h : ∀ m ∈ commands, Sound self s.store m) :
      Change self s e [] false { s with rxSynchronizer := s.rxSynchronizer ++ commands }
  | written (key : StoreKey) (value : StoreValue) :
      Change self s (.write key value) [] false { s with store := s.store.insert key value }
  | committed (round : ℕ) :
      Change self s (.committed round) [] false { s with consensusRound := round }
  | skipped (now : ℕ) (m : WaiterMessage) (rest : List WaiterMessage)
      (hrx : s.rxSynchronizer = m :: rest) :
      Change self s (.message now) [] false { s with rxSynchronizer := rest }
  | syncBatches (now : ℕ) (missing : List (Digest × WorkerId)) (header : Header)
      (rest : List WaiterMessage) (hrx : s.rxSynchronizer = .syncBatches missing header :: rest)
      (hnew : s.pending.lookup header.id = none)
      (hsend : CanSend self header.author
        (missing.foldl (requestBatch header.round) (s.batchRequests, ∅)).2.entries) :
      Change self s (.message now)
        (.suspended (missing.map fun e => .batch e.1 e.2) header ::
          (self.sendRequests header.author
            (missing.foldl (requestBatch header.round) (s.batchRequests, ∅)).2.entries).2) true
        { ({ s with rxSynchronizer := rest } : State).suspend
            (missing.map fun e => .batch e.1 e.2) header with
          batchRequests :=
            (missing.foldl (requestBatch header.round) (s.batchRequests, ∅)).1 }
  | syncParents (now : ℕ) (missing : List Digest) (header : Header) (rest : List WaiterMessage)
      (hrx : s.rxSynchronizer = .syncParents missing header :: rest)
      (hnew : s.pending.lookup header.id = none) :
      Change self s (.message now)
        (.suspended (missing.map .digest) header ::
          (self.sendRequest header.author
            (missing.foldl (requestParent header.round now) (s.parentRequests, [])).2).2) true
        { ({ s with rxSynchronizer := rest } : State).suspend (missing.map .digest) header with
          parentRequests :=
            (missing.foldl (requestParent header.round now) (s.parentRequests, [])).1 }
  | resumed (w : Waiter) (hw : w ∈ s.waiting) (hholds : s.holds w = true) :
      Change self s (.completed w.number) [.delivered w.deliver] true (s.resume w)
  | dropped (w : Waiter) (hw : w ∈ s.waiting) :
      Change self s (.cancelled w.number) [] true (s.drop w)
  | retried (now : ℕ) : Change self s (.timer now) [self.retry now s] true s

theorem sound_parentsCommand (store : Store) (header : Header) :
    ∀ m ∈ self.parentsCommand store header, Sound self store m := by
  intro m hm
  rw [parentsCommand] at hm
  split at hm
  · cases hm
  · next missing parents hfind =>
    split at hm
    · cases hm
    · rw [List.mem_singleton.mp hm]
      refine ⟨fun d hd => ?_, Synchronizer.mem_missing_or_has hfind⟩
      have hhas := ((Synchronizer.findParents_eq_ok hfind).1 d hd).2
      rw [Synchronizer.has, Bool.or_eq_false_iff] at hhas
      simpa using hhas.1

theorem sound_payloadCommand (store : Store) (header : Header) :
    ∀ m ∈ self.payloadCommand store header, Sound self store m := by
  intro m hm
  rw [payloadCommand] at hm
  split at hm
  · cases hm
  · next hsome =>
    rw [not_or, Bool.not_eq_false] at hsome
    rw [List.mem_singleton.mp hm]
    have hother : header.author ≠ self.name := by
      intro heq
      rw [Synchronizer.missingBatches, if_pos heq] at hsome
      exact hsome.2 rfl
    refine ⟨hother, ?_, List.all_eq_true.mp hsome.1⟩
    rw [Synchronizer.missingBatches, if_neg hother]
    exact (BTreeMap.nodup_keys header.payload).sublist (List.filter_sublist.map _)

omit [Crypto] in
theorem state_syncParents {now : ℕ} {s s' : State} {missing : List Digest} {header : Header}
    (h : (self.syncParents now s missing header).state = .ok s') :
    s' = { s.suspend (missing.map .digest) header with
      parentRequests :=
        (missing.foldl (requestParent header.round now) (s.parentRequests, [])).1 } := by
  obtain ⟨_, -, rfl⟩ := Except.map_eq_ok_iff.mp h
  rfl

omit [Crypto] in
theorem state_syncBatches {s s' : State} {missing : List (Digest × WorkerId)} {header : Header}
    (h : (self.syncBatches s missing header).state = .ok s') :
    CanSend self header.author
        (missing.foldl (requestBatch header.round) (s.batchRequests, ∅)).2.entries ∧
      s' = { s.suspend (missing.map fun e => .batch e.1 e.2) header with
        batchRequests := (missing.foldl (requestBatch header.round) (s.batchRequests, ∅)).1 } := by
  obtain ⟨_, hsend, rfl⟩ := Except.map_eq_ok_iff.mp h
  exact ⟨sendRequests_spec.1.mp hsend, rfl⟩

theorem receive_change {s s' : State} {now : ℕ} (h : (self.receive now s).state = .ok s') :
    Change self s (.message now) (self.receive now s).sent (self.receive now s).cleans s' := by
  rw [receive] at h ⊢
  split at h
  · cases h
    exact .idle _
  · next m rest hrx =>
    dsimp only at h ⊢
    split at h
    · cases h
      rw [if_pos ‹_›]
      exact .skipped now m rest hrx
    · next hpending =>
      have hnew : s.pending.lookup m.header.id = none := by simpa using hpending
      rw [if_neg hpending]
      cases m with
      | syncBatches missing header =>
        obtain ⟨hsend, rfl⟩ := state_syncBatches h
        exact .syncBatches now missing header rest hrx hnew hsend
      | syncParents missing header =>
        obtain rfl := state_syncParents h
        exact .syncParents now missing header rest hrx hnew

/-- **What a branch does.** -/
theorem take_change {s s' : State} {e : Event} (h : (self.take s e).state = .ok s') :
    Change self s e (self.take s e).sent (self.take s e).cleans s' := by
  cases e with
  | getParents header =>
    cases h
    exact .asked _ _ (sound_parentsCommand s.store header)
  | missingPayload header =>
    cases h
    exact .asked _ _ (sound_payloadCommand s.store header)
  | write key value =>
    cases h
    exact .written key value
  | committed round =>
    cases h
    exact .committed round
  | timer now =>
    cases h
    exact .retried now
  | message now => exact receive_change h
  | completed number =>
    rw [take] at h ⊢
    split at h
    · cases h
      exact .idle _
    · next w hw =>
      have hnumber : w.number = number := by simpa using List.find?_some hw
      split at h
      · next hholds =>
        cases h
        rw [if_pos hholds, ← hnumber]
        exact .resumed w (List.mem_of_find?_eq_some hw) hholds
      · next hholds =>
        cases h
        rw [if_neg hholds]
        exact .idle _
  | cancelled number =>
    rw [take] at h ⊢
    split at h
    · cases h
      exact .idle _
    · next w hw =>
      have hnumber : w.number = number := by simpa using List.find?_some hw
      split at h
      · next hpending =>
        cases h
        rw [if_pos hpending]
        exact .idle _
      · next hpending =>
        cases h
        rw [if_neg hpending, ← hnumber]
        exact .dropped w (List.mem_of_find?_eq_some hw)

/-! ## The run -/

omit [Crypto] in
/-- The clean-up leaves the pool and what is shared alone. -/
theorem cleanUp_spec (self : HeaderWaiter) (s : State) :
    (self.cleanUp s).rxSynchronizer = s.rxSynchronizer ∧ (self.cleanUp s).store = s.store ∧
      (self.cleanUp s).waiting = s.waiting ∧ (self.cleanUp s).created = s.created := by
  rw [cleanUp]
  split
  · exact ⟨rfl, rfl, rfl, rfl⟩
  · exact ⟨rfl, rfl, rfl, rfl⟩

/-- A step that does not panic: a branch, and the clean-up if the turn goes on to it. -/
theorem step_eq_ok {s s' : State} {e : Event} (h : (self.step s e).1 = .ok s') :
    ∃ s₁, (self.take s e).state = .ok s₁ ∧
      s' = if (self.take s e).cleans then self.cleanUp s₁ else s₁ := by
  rw [step] at h
  dsimp only at h
  cases htake : (self.take s e).state with
  | error panic =>
    rw [htake] at h
    split at h <;> cases h
  | ok s₁ =>
    rw [htake] at h
    refine ⟨s₁, rfl, ?_⟩
    split at h
    · cases h
      rw [if_pos ‹_›]
    · cases h
      rw [if_neg ‹_›]

/-- What every branch leaves and the clean-up keeps holds after a step. -/
theorem step_of_change {P : State → Prop} {s s' : State} {e : Event}
    (hchange : ∀ s₁, Change self s e (self.step s e).2 (self.take s e).cleans s₁ → P s₁)
    (hcleanUp : ∀ s₁, P s₁ → P (self.cleanUp s₁)) (h : (self.step s e).1 = .ok s') : P s' := by
  obtain ⟨s₁, htake, rfl⟩ := step_eq_ok h
  have hbranch := hchange s₁ (take_change htake)
  split
  · exact hcleanUp s₁ hbranch
  · exact hbranch

/-- The condition `C` on what was sent, the state and the event holds at every step of the run, as
long as the task runs. -/
def Along (self : HeaderWaiter) (C : List Emission → State → Event → Prop) (is : List Event) :
    Prop :=
  ∀ pre e, pre ++ [e] <+: is →
    ∀ s ∈ (self.machine.state pre).toOption, C (self.machine.outputs pre) s e

instance (self : HeaderWaiter) (C : List Emission → State → Event → Prop)
    [∀ log s e, Decidable (C log s e)] (is : List Event) : Decidable (self.Along C is) :=
  inferInstanceAs (Decidable (∀ _ _, _ → ∀ s ∈ _, _))

/-- **Induction over a run** of the task, with a condition on its steps. -/
theorem run_invariant {P : List Emission → State → Prop} {C : List Emission → State → Event → Prop}
    (h0 : P [] .new)
    (hstep : ∀ {pre s e s'}, self.machine.state pre = .ok s → P (self.machine.outputs pre) s →
      C (self.machine.outputs pre) s e → (self.step s e).1 = .ok s' →
        P (self.machine.outputs pre ++ (self.step s e).2) s')
    {is : List Event} (hC : self.Along C is) :
    ∀ {s}, self.machine.state is = .ok s → P (self.machine.outputs is) s := by
  induction is using List.reverseRecOn with
  | nil =>
    rintro s ⟨⟩
    exact h0
  | append_singleton is e ih =>
    intro s' hs'
    rw [Mealy.state_snoc] at hs'
    cases hs : self.machine.state is with
    | error panic =>
      rw [hs] at hs'
      cases hs'
    | ok s =>
      have hcond := hC is e List.prefix_rfl s (by rw [hs]; rfl)
      have hP := ih (fun pre e' hpre => hC pre e' (hpre.trans (List.prefix_append _ _))) hs
      rw [hs] at hs'
      rw [Mealy.outputs_snoc, hs]
      exact hstep hs hP hcond hs'

theorem Along.of_prefix {C : List Emission → State → Event → Prop} {is pre : List Event}
    (h : self.Along C is) (hpre : pre <+: is) : self.Along C pre :=
  fun pre' e hpre' => h pre' e (hpre'.trans hpre)

/-- A step from a reached state. -/
theorem run_snoc {is : List Event} {s : State} (hs : self.machine.state is = .ok s) (e : Event) :
    self.machine.state (is ++ [e]) = (self.step s e).1 ∧
      self.machine.outputs (is ++ [e]) = self.machine.outputs is ++ (self.step s e).2 := by
  rw [Mealy.state_snoc, Mealy.outputs_snoc, hs]
  exact ⟨rfl, rfl⟩

/-- What a waiter waits for is no genesis certificate, and covers the parents the store lacks. -/
def Covered (self : HeaderWaiter) (store : Store) (w : Waiter) : Prop :=
  (∀ d ∈ w.parents, Synchronizer.genesis self.committee d = none) ∧
    ∀ p ∈ w.deliver.parents.elems, p ∈ w.parents ∨ Synchronizer.has self.committee store p = true

/-- The commands and the waiters are as the `Synchronizer` sends them. -/
structure Inv (task : HeaderWaiter) (s : State) : Prop where
  channel : ∀ m ∈ s.rxSynchronizer, Sound task s.store m
  covered : ∀ w ∈ s.waiting, Covered task s.store w
  fresh : ∀ w ∈ s.waiting, w.number < s.created

theorem Sound.insert {store : Store} {m : WaiterMessage} (h : Sound self store m) (key : StoreKey)
    (value : StoreValue) : Sound self (store.insert key value) m := by
  cases m with
  | syncBatches missing header =>
    obtain ⟨hother, hnodup, hhas⟩ := h
    exact ⟨hother, hnodup, fun p hp => Synchronizer.has_insert (hhas p hp) key value⟩
  | syncParents missing header =>
    obtain ⟨hgenesis, hhas⟩ := h
    exact ⟨hgenesis, fun p hp => (hhas p hp).imp_right fun h => Synchronizer.has_insert h key value⟩

theorem Covered.insert {store : Store} {w : Waiter} (h : Covered self store w) (key : StoreKey)
    (value : StoreValue) : Covered self (store.insert key value) w :=
  ⟨h.1, fun p hp => (h.2 p hp).imp_right fun h => Synchronizer.has_insert h key value⟩

namespace Inv

variable {s s' : State}

theorem new : Inv self .new :=
  ⟨fun m hm => (by cases hm), fun w hw => (by cases hw), fun w hw => (by cases hw)⟩

theorem suspend (h : Inv self s) {rest : List WaiterMessage} (hrest : rest ⊆ s.rxSynchronizer)
    (waitFor : List StoreKey) (header : Header)
    (hcovered : Covered self s.store ⟨s.created, waitFor, header⟩) :
    Inv self (({ s with rxSynchronizer := rest } : State).suspend waitFor header) where
  channel m hm := h.channel m (hrest hm)
  covered := List.forall_mem_append.mpr ⟨h.covered, List.forall_mem_singleton.mpr hcovered⟩
  fresh := List.forall_mem_append.mpr
    ⟨fun w hw => Nat.lt_succ_of_lt (h.fresh w hw),
      List.forall_mem_singleton.mpr (Nat.lt_succ_self _)⟩

theorem drop (h : Inv self s) (w : Waiter) : Inv self (s.drop w) where
  channel := h.channel
  covered x hx := h.covered x (List.mem_of_mem_erase hx)
  fresh x hx := h.fresh x (List.mem_of_mem_erase hx)

theorem cleanUp (h : Inv self s) : Inv self (self.cleanUp s) := by
  obtain ⟨hrx, hstore, hwaiting, hcreated⟩ := self.cleanUp_spec s
  refine ⟨?_, ?_, ?_⟩
  · rw [hrx, hstore]
    exact h.channel
  · rw [hwaiting, hstore]
    exact h.covered
  · rw [hwaiting, hcreated]
    exact h.fresh

theorem change (h : Inv self s) {e : Event} {sent : List Emission} {cleans : Bool}
    (hchange : Change self s e sent cleans s') : Inv self s' := by
  cases hchange with
  | idle => exact h
  | asked _ commands hcommands =>
    exact ⟨List.forall_mem_append.mpr ⟨h.channel, hcommands⟩, h.covered, h.fresh⟩
  | written key value =>
    exact ⟨fun m hm => (h.channel m hm).insert key value,
      fun w hw => (h.covered w hw).insert key value, h.fresh⟩
  | committed round => exact ⟨h.channel, h.covered, h.fresh⟩
  | skipped now m rest hrx =>
    exact ⟨fun m' hm' => h.channel m' (hrx ▸ List.mem_cons_of_mem _ hm'), h.covered, h.fresh⟩
  | syncBatches now missing header rest hrx hnew hsend =>
    obtain ⟨-, -, hhas⟩ := h.channel _ (hrx ▸ List.mem_cons_self)
    have hrest : rest ⊆ s.rxSynchronizer := hrx ▸ List.subset_cons_self _ _
    have hsuspend := h.suspend hrest (missing.map fun e => .batch e.1 e.2) header
      ⟨by simp, fun p hp => Or.inr (hhas p hp)⟩
    exact ⟨hsuspend.channel, hsuspend.covered, hsuspend.fresh⟩
  | syncParents now missing header rest hrx hnew =>
    obtain ⟨hgenesis, hhas⟩ := h.channel _ (hrx ▸ List.mem_cons_self)
    have hrest : rest ⊆ s.rxSynchronizer := hrx ▸ List.subset_cons_self _ _
    have hsuspend := h.suspend hrest (missing.map .digest) header
      ⟨by simpa using hgenesis, by simpa using hhas⟩
    exact ⟨hsuspend.channel, hsuspend.covered, hsuspend.fresh⟩
  | resumed w hw hholds =>
    exact ⟨(h.drop w).channel, (h.drop w).covered, (h.drop w).fresh⟩
  | dropped w hw => exact h.drop w
  | retried now => exact h

theorem step (h : Inv self s) {e : Event} (hstep : (self.step s e).1 = .ok s') : Inv self s' :=
  step_of_change (fun _ hchange => h.change hchange) (fun _ h => h.cleanUp) hstep

end Inv

/-- **Every reachable state** has commands and waiters as the `Synchronizer` sends them. -/
theorem inv {is : List Event} {s : State} (hs : self.machine.state is = .ok s) : Inv self s :=
  run_invariant (P := fun _ s => Inv self s) (C := fun _ _ _ => True) .new
    (fun _ h _ hstep => h.step hstep) (fun _ _ _ _ _ => trivial) hs

end Change

end HeaderWaiter

end Bullshark
