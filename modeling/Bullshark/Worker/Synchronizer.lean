import Bullshark.Worker.Tasks

/-!
# Worker/Synchronizer — batches the primary misses are asked of other workers

`synchronizer.rs` of the worker.  The primary names digests it misses and the authority to ask for
them; each digest gets a waiter on the store and an entry in `pending`, and those neither pending
nor stored are asked of that authority in one request.  What stays pending too long is asked of
others when the timer fires; the clean-up drops what lies too far below the round the primary is at.

The reads of one command are turns of their own: other tasks write to the store between them.  A
waiter's number stands for its cancel channel.
-/

namespace Bullshark

namespace Worker

/-- The immutable part of a `Synchronizer` instance. -/
structure Synchronizer where
  /-- The public key of this authority. -/
  name : PublicKey
  /-- The id of this worker. -/
  id : WorkerId
  committee : Committee
  /-- The depth of the garbage collection. -/
  gcDepth : UInt64
  /-- The delay to wait before re-trying to send sync requests. -/
  syncRetryDelay : ℕ
  /-- Determine with how many nodes to sync when re-trying to send sync requests. -/
  syncRetryNodes : ℕ

namespace Synchronizer

/-- What the `Synchronizer` sends. -/
inductive Emission
  /-- `SimpleSender::send`, of a request. -/
  | request (address : SocketAddr) (message : WorkerMessage)
  /-- `SimpleSender::lucky_broadcast`, of a request. -/
  | luckyBroadcast (addresses : List SocketAddr) (message : WorkerMessage) (nodes : ℕ)
  /-- The waiter of a digest is told to give up. -/
  | cancel (digest : Digest) (handler : ℕ)
  deriving DecidableEq

/-- What `pending` keeps for a digest: the round, the waiter and the time of the request. -/
structure Entry where
  round : UInt64
  handler : ℕ
  timestamp : ℕ
  deriving DecidableEq

/-- A future of the waiter pool. -/
structure Waiter where
  number : ℕ
  missing : Digest
  deriving DecidableEq

/-- A `Synchronize` command half way through its digests. -/
structure Handling where
  /-- The digests still to come. -/
  digests : List Digest
  target : PublicKey
  now : ℕ
  /-- The digests to request. -/
  missing : List Digest
  deriving DecidableEq

structure State where
  /-- Input channel to receive the commands from the primary. -/
  rxMessage : List PrimaryWorkerMessage
  handling : Option Handling
  /-- Loosely keep track of the primary's round number (only used for cleanup). -/
  round : UInt64
  /-- Keeps the digests (of batches) that are waiting to be processed by the primary. -/
  pending : HashMap Digest Entry
  /-- The waiter pool. -/
  waiting : List Waiter
  /-- How many waiters were made. -/
  created : ℕ

/-- The state of `Synchronizer::spawn`. -/
def State.new : State := ⟨[], none, 0, ∅, [], 0⟩

inductive Event
  /-- The next command is received at this time. -/
  | receive (now : ℕ)
  /-- The next digest of the command is looked up; the read of the store may fail. -/
  | digest (fails : Bool)
  /-- The digests of the command are through. -/
  | request
  /-- A waiter of the pool is notified of its batch. -/
  | completed (number : ℕ)
  /-- A waiter of the pool is cancelled. -/
  | cancelled (number : ℕ)
  /-- A waiter of the pool is told that the read failed. -/
  | failed (number : ℕ)
  /-- The timer fires at this time. -/
  | timer (now : ℕ)
  deriving DecidableEq

namespace State

/-- The sender of the waiter's cancel channel is in `pending`, and has sent nothing. -/
def IsPending (s : State) (w : Waiter) : Prop :=
  (s.pending.lookup w.missing).map Entry.handler = some w.number

instance (s : State) (w : Waiter) : Decidable (s.IsPending w) :=
  inferInstanceAs (Decidable (_ = _))

/-- A message on `tx_synchronizer`. -/
def push (s : State) (messages : List PrimaryWorkerMessage) : State :=
  { s with rxMessage := s.rxMessage ++ messages }

/-- Add the digest to the waiter. -/
def await (s : State) (digest : Digest) (now : ℕ) : State :=
  { s with
    pending := s.pending.insert digest ⟨s.round, s.created, now⟩
    waiting := s.waiting ++ [⟨s.created, digest⟩]
    created := s.created + 1 }

/-- The waiter of this number. -/
def waiter (s : State) (number : ℕ) : Option Waiter :=
  s.waiting.find? fun w => decide (w.number = number)

/-- The waiters of this round and before are told to give up. -/
def cancels (s : State) (gcRound : UInt64) : List Emission :=
  s.pending.entries.filterMap fun x =>
    if x.2.round ≤ gcRound then some (.cancel x.1 x.2.handler) else none

/-- `retain(|_, (r, _, _)| r > &mut gc_round)`. -/
def retainAbove (s : State) (gcRound : UInt64) : State :=
  { s with pending := s.pending.retain fun _ x => if x.round > gcRound then some x else none }

end State

variable (self : Synchronizer)

/-- `PrimaryWorkerMessage::Cleanup`, with the round noted. -/
def cleanup (s : State) : State × List Emission :=
  if s.round < self.gcDepth then (s, [])
  else
    let gcRound := s.round - self.gcDepth
    (s.retainAbove gcRound, s.cancels gcRound)

/-- A command of the primary. -/
def receive (now : ℕ) (s : State) : PrimaryWorkerMessage → State × List Emission
  | .synchronize digests target => ({ s with handling := some ⟨digests, target, now, []⟩ }, [])
  | .cleanup round => self.cleanup { s with round }
  | .batchSilent _ _ => (s, [])

/-- One turn of the loop over the digests of a command, with what the store answers. -/
def lookUp (s : State) (h : Handling) (digest : Digest) :
    Except Unit (Option Bullshark.Store.Value) → State
  | .error _ => { s with handling := some h }
  | .ok none => { s.await digest h.now with
      handling := some { h with missing := h.missing ++ [digest] } }
  | .ok (some _) => { s.await digest h.now with handling := some h }

/-- Send the sync request to a single node. -/
def sendRequest (h : Handling) : List Emission :=
  match self.committee.worker h.target self.id with
  | .error _ => []
  | .ok address => [.request address.workerToWorker (.batchRequest h.missing self.name)]

/-- Ask others for what is pending too long. -/
def retry (now : ℕ) (s : State) : List Emission :=
  let retry := (s.pending.entries.filter fun x =>
    decide (x.2.timestamp + self.syncRetryDelay < now)).map Sigma.fst
  if retry = [] then []
  else
    let addresses := (self.committee.othersWorkers self.name self.id).map fun x =>
      x.2.workerToWorker
    [.luckyBroadcast addresses (.batchRequest retry self.name) self.syncRetryNodes]

/-- A turn of `Synchronizer::run`, on the store as it is then. -/
def step (store : Store) (s : State) : Event → State × List Emission
  | .receive now =>
    match s.handling, s.rxMessage with
    | none, message :: rest => self.receive now { s with rxMessage := rest } message
    | _, _ => (s, [])
  | .digest fails =>
    match s.handling with
    | some ⟨digest :: digests, target, now, missing⟩ =>
      let h : Handling := ⟨digests, target, now, missing⟩
      -- Ensure we do not send twice the same sync request.
      if (s.pending.lookup digest).isSome then ({ s with handling := some h }, [])
      else
        (lookUp s h digest (if fails then .error () else .ok (store.lookup digest.toBytes)), [])
    | _ => (s, [])
  | .request =>
    match s.handling with
    | some ⟨[], target, now, missing⟩ =>
      ({ s with handling := none }, self.sendRequest ⟨[], target, now, missing⟩)
    | _ => (s, [])
  | .completed number =>
    match s.handling, s.waiter number with
    | none, some w =>
      if (store.lookup w.missing.toBytes).isSome then
        ({ s with waiting := s.waiting.erase w, pending := s.pending.erase w.missing }, [])
      else (s, [])
    | _, _ => (s, [])
  | .cancelled number =>
    match s.handling, s.waiter number with
    | none, some w =>
      if s.IsPending w then (s, []) else ({ s with waiting := s.waiting.erase w }, [])
    | _, _ => (s, [])
  | .failed number =>
    match s.handling, s.waiter number with
    | none, some w => ({ s with waiting := s.waiting.erase w }, [])
    | _, _ => (s, [])
  | .timer now =>
    match s.handling with
    | none => (s, self.retry now s)
    | some _ => (s, [])

/-! ## What one turn does -/

variable {self}

@[simp] theorem State.lookup_await (s : State) (digest d : Digest) (now : ℕ) :
    (s.await digest now).pending.lookup d
      = if d = digest then some ⟨s.round, s.created, now⟩ else s.pending.lookup d :=
  AList.lookup_insert_eq _ _ _ _

theorem State.lookup_retainAbove (s : State) (g : UInt64) (d : Digest) :
    (s.retainAbove g).pending.lookup d = (s.pending.lookup d).filter fun x => decide (g < x.round) := by
  rw [retainAbove, AList.lookup_retain]
  cases s.pending.lookup d with
  | none => rfl
  | some x => simp [Option.filter_some]

theorem State.mem_cancels {s : State} {g : UInt64} {d : Digest} {n : ℕ} :
    .cancel d n ∈ s.cancels g ↔ ∃ x, s.pending.lookup d = some x ∧ x.round ≤ g ∧ x.handler = n := by
  rw [cancels, List.mem_filterMap]
  constructor
  · rintro ⟨⟨d', x⟩, hx, heq⟩
    split at heq
    · next hr =>
      cases heq
      exact ⟨x, AList.mem_lookup_iff.mpr hx, hr, rfl⟩
    · cases heq
  · rintro ⟨x, hx, hr, rfl⟩
    exact ⟨⟨d, x⟩, AList.mem_lookup_iff.mp hx, if_pos hr⟩

theorem State.mem_of_waiter {s : State} {number : ℕ} {w : Waiter} (h : s.waiter number = some w) :
    w ∈ s.waiting ∧ w.number = number :=
  ⟨List.mem_of_find?_eq_some h, by simpa using List.find?_some h⟩

/-- What an event does: what is sent, and the state after it. -/
inductive Change (task : Synchronizer) (store : Store) (s : State) :
    Event → List Emission → State → Prop
  | idle (e : Event) : Change task store s e [] s
  | started (now : ℕ) (digests : List Digest) (target : PublicKey) (rest : List PrimaryWorkerMessage)
      (hidle : s.handling = none) (hrx : s.rxMessage = .synchronize digests target :: rest) :
      Change task store s (.receive now) []
        { s with rxMessage := rest, handling := some ⟨digests, target, now, []⟩ }
  | noted (now : ℕ) (m : PrimaryWorkerMessage) (rest : List PrimaryWorkerMessage) (round : UInt64)
      (hidle : s.handling = none) (hrx : s.rxMessage = m :: rest)
      (hround : m = .cleanup round ∧ round < task.gcDepth ∨
        ∃ r silent, m = .batchSilent r silent ∧ round = s.round) :
      Change task store s (.receive now) [] { s with rxMessage := rest, round := round }
  | cleaned (now : ℕ) (rest : List PrimaryWorkerMessage) (round : UInt64)
      (hidle : s.handling = none) (hrx : s.rxMessage = .cleanup round :: rest)
      (hdepth : task.gcDepth ≤ round) :
      Change task store s (.receive now) (s.cancels (round - task.gcDepth))
        { s.retainAbove (round - task.gcDepth) with rxMessage := rest, round := round }
  | known (fails : Bool) (h : Handling) (digest : Digest) (digests : List Digest)
      (hhandling : s.handling = some h) (hdigests : h.digests = digest :: digests)
      (hpending : (s.pending.lookup digest).isSome) :
      Change task store s (.digest fails) [] { s with handling := some { h with digests } }
  | unreadable (h : Handling) (digest : Digest) (digests : List Digest)
      (hhandling : s.handling = some h) (hdigests : h.digests = digest :: digests)
      (hnew : s.pending.lookup digest = none) :
      Change task store s (.digest true) [] { s with handling := some { h with digests } }
  | absent (h : Handling) (digest : Digest) (digests : List Digest)
      (hhandling : s.handling = some h) (hdigests : h.digests = digest :: digests)
      (hnew : s.pending.lookup digest = none) (hstore : store.lookup digest.toBytes = none) :
      Change task store s (.digest false) []
        { s.await digest h.now with
          handling := some { h with digests, missing := h.missing ++ [digest] } }
  | present (h : Handling) (digest : Digest) (digests : List Digest)
      (hhandling : s.handling = some h) (hdigests : h.digests = digest :: digests)
      (hnew : s.pending.lookup digest = none) (hstore : (store.lookup digest.toBytes).isSome) :
      Change task store s (.digest false) []
        { s.await digest h.now with handling := some { h with digests } }
  | requested (h : Handling) (hhandling : s.handling = some h) (hdigests : h.digests = []) :
      Change task store s .request (task.sendRequest h) { s with handling := none }
  | completed (w : Waiter) (hidle : s.handling = none) (hw : w ∈ s.waiting)
      (hstore : (store.lookup w.missing.toBytes).isSome) :
      Change task store s (.completed w.number) []
        { s with waiting := s.waiting.erase w, pending := s.pending.erase w.missing }
  | cancelled (w : Waiter) (hidle : s.handling = none) (hw : w ∈ s.waiting)
      (hcancel : ¬ s.IsPending w) :
      Change task store s (.cancelled w.number) [] { s with waiting := s.waiting.erase w }
  | failed (w : Waiter) (hidle : s.handling = none) (hw : w ∈ s.waiting) :
      Change task store s (.failed w.number) [] { s with waiting := s.waiting.erase w }
  | retried (now : ℕ) (hidle : s.handling = none) :
      Change task store s (.timer now) (task.retry now s) s

variable {store : Store} {s : State}

theorem change_receive (now : ℕ) (rest : List PrimaryWorkerMessage) (m : PrimaryWorkerMessage)
    (hidle : s.handling = none) (hrx : s.rxMessage = m :: rest) :
    Change self store s (.receive now) (self.receive now { s with rxMessage := rest } m).2
      (self.receive now { s with rxMessage := rest } m).1 := by
  cases m with
  | synchronize digests target => exact .started now digests target rest hidle hrx
  | batchSilent round silent =>
    exact .noted now _ rest s.round hidle hrx (Or.inr ⟨round, silent, rfl, rfl⟩)
  | cleanup round =>
    by_cases hdepth : round < self.gcDepth
    · rw [receive, cleanup, if_pos hdepth]
      exact .noted now _ rest round hidle hrx (Or.inl ⟨rfl, hdepth⟩)
    · rw [receive, cleanup, if_neg hdepth]
      exact .cleaned now rest round hidle hrx (UInt64.not_lt.mp hdepth)

theorem change_digest (fails : Bool) (h : Handling) (digest : Digest) (digests : List Digest)
    (hhandling : s.handling = some h) (hdigests : h.digests = digest :: digests)
    (hnew : s.pending.lookup digest = none) :
    Change self store s (.digest fails) []
      (lookUp s { h with digests } digest
        (if fails then .error () else .ok (store.lookup digest.toBytes))) := by
  cases fails with
  | true => exact .unreadable h digest digests hhandling hdigests hnew
  | false =>
    rw [if_neg Bool.false_ne_true]
    cases hstore : store.lookup digest.toBytes with
    | none => exact .absent h digest digests hhandling hdigests hnew hstore
    | some batch =>
      exact .present h digest digests hhandling hdigests hnew (by rw [hstore]; rfl)

/-- **What a turn does.** -/
theorem change_step (self : Synchronizer) (store : Store) (s : State) (e : Event) :
    Change self store s e (self.step store s e).2 (self.step store s e).1 := by
  cases e with
  | receive now =>
    rw [step]
    split
    · next m rest hidle hrx => exact change_receive now rest m hidle hrx
    · exact .idle _
  | digest fails =>
    rw [step]
    split
    · next digest digests target now missing hhandling =>
      dsimp only
      split
      · next hpending =>
        exact .known fails ⟨digest :: digests, target, now, missing⟩ digest digests hhandling rfl
          hpending
      · next hnew =>
        exact change_digest fails ⟨digest :: digests, target, now, missing⟩ digest digests hhandling
          rfl (by simpa using hnew)
    · exact .idle _
  | request =>
    rw [step]
    split
    · next target now missing hhandling => exact .requested _ hhandling rfl
    · exact .idle _
  | completed number =>
    rw [step]
    split
    · next w hidle hw =>
      obtain ⟨hmem, rfl⟩ := State.mem_of_waiter hw
      split
      · next hstore => exact .completed w hidle hmem hstore
      · exact .idle _
    · exact .idle _
  | cancelled number =>
    rw [step]
    split
    · next w hidle hw =>
      obtain ⟨hmem, rfl⟩ := State.mem_of_waiter hw
      split
      · exact .idle _
      · next hcancel => exact .cancelled w hidle hmem hcancel
    · exact .idle _
  | failed number =>
    rw [step]
    split
    · next w hidle hw =>
      obtain ⟨hmem, rfl⟩ := State.mem_of_waiter hw
      exact .failed w hidle hmem
    · exact .idle _
  | timer now =>
    rw [step]
    split
    · next hidle => exact .retried now hidle
    · exact .idle _

/-- **A request to one authority** is sent when the digests of a command are through, to the worker
of its target. -/
theorem Change.of_request {s' : State} {e : Event} {sent : List Emission} {address : SocketAddr}
    {message : WorkerMessage} (h : Change self store s e sent s')
    (hsent : .request address message ∈ sent) : ∃ handling addresses, s.handling = some handling ∧
      handling.digests = [] ∧ self.committee.worker handling.target self.id = .ok addresses ∧
      address = addresses.workerToWorker ∧ message = .batchRequest handling.missing self.name := by
  cases h with
  | requested handling hhandling hdigests =>
    rw [sendRequest] at hsent
    split at hsent
    · cases hsent
    · next addresses haddresses =>
      cases List.mem_singleton.mp hsent
      exact ⟨handling, addresses, hhandling, hdigests, haddresses, rfl, rfl⟩
  | cleaned now rest round hidle hrx hdepth =>
    obtain ⟨x, -, hx⟩ := List.mem_filterMap.mp hsent
    split at hx <;> cases hx
  | retried now hidle =>
    rw [retry] at hsent
    dsimp only at hsent
    split at hsent
    · cases hsent
    · cases List.mem_singleton.mp hsent
  | _ => cases hsent

end Synchronizer

end Worker

end Bullshark
