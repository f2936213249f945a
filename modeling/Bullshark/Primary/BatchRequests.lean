import Bullshark.Primary.HeaderWaiter
import Bullshark.Primary.Sample

/-!
# Primary/BatchRequests — who is asked for the batches of a suspended header

The batches of a suspended header are to be fetched by our own workers, each by the one with the id
the header lists it under.  The `HeaderWaiter` looks the address up under the author of the header,
so the command goes out to a worker of another authority whenever there is one to send
(`toOwnWorkers_iff`); and it remembers what was requested by the digest alone, so a header that
lists a digest under another id than the header before gets no request of its own
(`requested_iff_sameWorker`).
-/

namespace Bullshark

namespace HeaderWaiter

variable {self : HeaderWaiter}

/-- The author has the workers of the pairs whose digest was not requested yet. -/
def NewWorkers (self : HeaderWaiter) (s : State) (missing : List (Digest × WorkerId))
    (header : Header) : Prop :=
  ∀ e ∈ missing, s.batchRequests.lookup e.1 = none →
    ∃ addresses, self.committee.worker header.author e.2 = .ok addresses

/-- From no requests, the batches to request are the new ones. -/
theorem toRequest_iff {round : ℕ} {missing : List (Digest × WorkerId)} {recorded : HashMap Digest ℕ}
    (hnodup : (missing.map Prod.fst).Nodup) {e : Digest × WorkerId} :
    ToRequest (missing.foldl (requestBatch round) (recorded, ∅)).2 e ↔
      e ∈ missing ∧ recorded.lookup e.1 = none := by
  rw [toRequest_foldl hnodup, or_iff_right]
  rintro ⟨digests, hempty, -⟩
  simp at hempty

/-- A worker is to be asked for something new. -/
theorem exists_new_of_lookup {round : ℕ} {missing : List (Digest × WorkerId)} {id : WorkerId} :
    ∀ {acc : HashMap Digest ℕ × HashMap WorkerId (List Digest)},
      ((missing.foldl (requestBatch round) acc).2.lookup id).isSome →
        (acc.2.lookup id).isSome ∨ ∃ e ∈ missing, e.2 = id ∧ acc.1.lookup e.1 = none := by
  induction missing with
  | nil => exact fun h => Or.inl h
  | cons e missing ih =>
    intro acc h
    rw [List.foldl_cons] at h
    rcases ih h with hsome | ⟨x, hx, rfl, hnone⟩
    · rw [requestBatch] at hsome
      split at hsome
      · exact Or.inl hsome
      · next hnew =>
        rw [AList.lookup_insert_eq] at hsome
        by_cases hid : id = e.2
        · exact Or.inr ⟨e, List.mem_cons_self, hid.symm, by simpa using hnew⟩
        · rw [if_neg hid] at hsome
          exact Or.inl hsome
    · refine Or.inr ⟨x, List.mem_cons_of_mem _ hx, rfl, ?_⟩
      rw [requestBatch] at hnone
      split at hnone
      · exact hnone
      · rw [AList.lookup_insert_eq] at hnone
        split at hnone
        · cases hnone
        · exact hnone

/-- **The requests can be sent exactly when the author has the workers of what is new.** -/
theorem canSend_iff {s : State} {missing : List (Digest × WorkerId)} {header : Header}
    (hnodup : (missing.map Prod.fst).Nodup) :
    CanSend self header.author
        (missing.foldl (requestBatch header.round) (s.batchRequests, ∅)).2.entries ↔
      NewWorkers self s missing header := by
  constructor
  · intro h e he hnone
    obtain ⟨digests, hdigests, -⟩ := (toRequest_iff hnodup).mpr ⟨he, hnone⟩
    exact h _ (AList.mem_lookup_iff.mp hdigests)
  · intro h x hx
    have hlookup := AList.mem_lookup_iff.mpr hx
    rcases exists_new_of_lookup (by rw [hlookup]; rfl) with hempty | ⟨e, he, hid, hnone⟩
    · simp at hempty
    · exact hid ▸ h e he hnone

/-- What is sent to the workers: every new pair is in the command for its id, and nothing else is in
any. -/
theorem toWorker_mem_sendRequests {s : State} {missing : List (Digest × WorkerId)} {header : Header}
    (hnodup : (missing.map Prod.fst).Nodup) {id : WorkerId} {address : SocketAddr}
    {message : Worker.PrimaryWorkerMessage}
    (h : .toWorker id address message ∈ (self.sendRequests header.author
      (missing.foldl (requestBatch header.round) (s.batchRequests, ∅)).2.entries).2) :
    ∃ digests, message = .synchronize digests header.author ∧
      (∃ addresses, self.committee.worker header.author id = .ok addresses ∧
        address = addresses.primaryToWorker) ∧
      ∀ d ∈ digests, (d, id) ∈ missing ∧ s.batchRequests.lookup d = none := by
  obtain ⟨x, hx, addresses, hworker, heq⟩ := sendRequests_spec.2.1 _ h
  cases heq
  refine ⟨x.2, rfl, ⟨addresses, hworker, rfl⟩, fun d hd => ?_⟩
  have hrequest : ToRequest (missing.foldl (requestBatch header.round) (s.batchRequests, ∅)).2
      (d, x.1) := ⟨x.2, AList.mem_lookup_iff.mpr hx, hd⟩
  exact (toRequest_iff hnodup).mp hrequest

/-- A new pair is asked for. -/
theorem exists_toWorker_of_new {s : State} {missing : List (Digest × WorkerId)} {header : Header}
    (hnodup : (missing.map Prod.fst).Nodup)
    (hsend : CanSend self header.author
      (missing.foldl (requestBatch header.round) (s.batchRequests, ∅)).2.entries)
    {e : Digest × WorkerId} (he : e ∈ missing) (hnew : s.batchRequests.lookup e.1 = none) :
    ∃ address digests, .toWorker e.2 address (.synchronize digests header.author) ∈
      (self.sendRequests header.author
        (missing.foldl (requestBatch header.round) (s.batchRequests, ∅)).2.entries).2 ∧
      e.1 ∈ digests := by
  obtain ⟨digests, hdigests, hmem⟩ := (toRequest_iff hnodup).mpr ⟨he, hnew⟩
  obtain ⟨address, haddress⟩ := sendRequests_spec.2.2 hsend _ (AList.mem_lookup_iff.mp hdigests)
  exact ⟨address, digests, haddress, hmem⟩

section Run

variable [Crypto]

/-- A command for a header that is not pending. -/
theorem take_syncBatches {s : State} {missing : List (Digest × WorkerId)} {header : Header}
    {rest : List WaiterMessage} (hrx : s.rxSynchronizer = .syncBatches missing header :: rest)
    (hnew : s.pending.lookup header.id = none) (now : ℕ) :
    self.take s (.message now)
      = self.syncBatches { s with rxSynchronizer := rest } missing header := by
  rw [take, receive, hrx]
  exact if_neg (by simp [WaiterMessage.header, hnew])

/-- A command for a header that is pending. -/
theorem take_pending {s : State} {m : WaiterMessage} {rest : List WaiterMessage}
    (hrx : s.rxSynchronizer = m :: rest) (hpending : (s.pending.lookup m.header.id).isSome)
    (now : ℕ) :
    self.take s (.message now) = ⟨.ok { s with rxSynchronizer := rest }, [], false⟩ := by
  rw [take, receive, hrx]
  exact if_pos hpending

/-! ## Whose worker -/

/-- Each command to a worker goes to our own of this id, names the author of the header as the
target to fetch from, and goes to no worker of another authority. -/
def ToOwnWorkers (self : HeaderWaiter) (header : Header) (sent : List Emission) : Prop :=
  ∀ id address message, .toWorker id address message ∈ sent →
    (∃ addresses, self.committee.worker self.name id = .ok addresses ∧
      address = addresses.primaryToWorker) ∧
    (∃ digests, message = .synchronize digests header.author) ∧
    ∀ a ≠ self.name, ∀ id' addresses, self.committee.worker a id' = .ok addresses →
      address ≠ addresses.primaryToWorker

/-- **A sync command never goes to our own workers**: in every reachable state, the commands for a
suspended header are right exactly when there are none, as the header is pending or all its digests
were requested before. -/
theorem toOwnWorkers_iff (self : HeaderWaiter) {is : List Event} {s : State}
    (hs : self.machine.state is = .ok s) {missing : List (Digest × WorkerId)} {header : Header}
    {rest : List WaiterMessage} (hrx : s.rxSynchronizer = .syncBatches missing header :: rest)
    (hworkers : ∀ e ∈ missing, ∃ addresses,
      self.committee.worker header.author e.2 = .ok addresses) (now : ℕ) :
    ToOwnWorkers self header (self.machine.step (.ok s) (.message now)).2 ↔
      (s.pending.lookup header.id).isSome ∨
        ∀ e ∈ missing, (s.batchRequests.lookup e.1).isSome := by
  obtain ⟨hother, hnodup, -⟩ := (inv hs).channel _ (hrx ▸ List.mem_cons_self)
  by_cases hpending : (s.pending.lookup header.id).isSome = true
  · have hsent : (self.machine.step (.ok s) (.message now)).2 = [] :=
      congrArg Taken.sent (take_pending hrx hpending now)
    rw [hsent]
    exact iff_of_true (fun _ _ _ h => (by cases h)) (Or.inl hpending)
  · have hnew : s.pending.lookup header.id = none := by simpa using hpending
    have hsent : (self.machine.step (.ok s) (.message now)).2
        = .suspended (missing.map fun e => .batch e.1 e.2) header ::
          (self.sendRequests header.author
            (missing.foldl (requestBatch header.round) (s.batchRequests, ∅)).2.entries).2 :=
      congrArg Taken.sent (take_syncBatches hrx hnew now)
    rw [hsent, or_iff_right hpending]
    constructor
    · intro hown e he
      by_contra hnone
      have hnone : s.batchRequests.lookup e.1 = none := by simpa using hnone
      obtain ⟨address, digests, hmem, -⟩ := exists_toWorker_of_new hnodup
        ((canSend_iff hnodup).mpr fun e he _ => hworkers e he) he hnone
      obtain ⟨-, -, ⟨addresses, hworker, rfl⟩, -⟩ := toWorker_mem_sendRequests hnodup hmem
      -- the address is that of a worker of the author, who is another authority
      exact (hown _ _ _ (List.mem_cons_of_mem _ hmem)).2.2 header.author hother e.2 addresses
        hworker rfl
    · intro hrecorded id address message hmem
      rw [foldl_requestBatch_of_recorded hrecorded] at hmem
      rcases List.mem_cons.mp hmem with heq | hmem
      · cases heq
      · cases hmem

/-! ## Which worker -/

/-- A command naming the digest was sent for the worker. -/
def Asked (log : List Emission) (e : Digest × WorkerId) : Prop :=
  ∃ address digests target,
    .toWorker e.2 address (.synchronize digests target) ∈ log ∧ e.1 ∈ digests

/-- The keys of the headers suspended so far. -/
def listed (log : List Emission) : List StoreKey :=
  log.flatMap fun
    | .suspended waitFor _ => waitFor
    | _ => []

/-- **Every awaited batch was requested from its worker.** -/
def Requested (log : List Emission) (s : State) : Prop :=
  ∀ w ∈ s.waiting, ∀ e ∈ w.batches, s.store.lookup (.batch e.1 e.2) = none → Asked log e

/-- A command suspends a header that lists the digests still recorded as requested under worker ids
an earlier header listed them under, unless the batch arrived or the task ends here. -/
def KeepsWorker (self : HeaderWaiter) (log : List Emission) (s : State) : WaiterMessage → Prop
  | .syncBatches missing header =>
    s.pending.lookup header.id = none → NewWorkers self s missing header →
      ∀ e ∈ missing, s.store.lookup (.batch e.1 e.2) = none →
        (s.batchRequests.lookup e.1).isSome → .batch e.1 e.2 ∈ listed log
  | .syncParents _ _ => True

/-- **The condition on a step**: the next command keeps the worker ids. -/
def SameWorker (self : HeaderWaiter) (log : List Emission) (s : State) : Event → Prop
  | .message _ => ∀ m ∈ s.rxSynchronizer.head?, KeepsWorker self log s m
  | _ => True

instance (self : HeaderWaiter) (s : State) (missing : List (Digest × WorkerId)) (header : Header) :
    Decidable (NewWorkers self s missing header) :=
  inferInstanceAs (Decidable (∀ _ ∈ _, _ → ∃ _, _ = _))

instance (self : HeaderWaiter) (log : List Emission) (s : State) :
    ∀ m, Decidable (KeepsWorker self log s m)
  | .syncBatches _ _ => inferInstanceAs (Decidable (_ → _ → ∀ _ ∈ _, _ → _ → _ ∈ _))
  | .syncParents _ _ => isTrue trivial

instance (self : HeaderWaiter) (log : List Emission) (s : State) :
    ∀ e, Decidable (SameWorker self log s e)
  | .message _ => inferInstanceAs (Decidable (∀ m ∈ _, KeepsWorker self log s m))
  | .getParents _ | .missingPayload _ | .write _ _ | .committed _ | .completed _ | .cancelled _
  | .timer _ => isTrue trivial

omit [Crypto] in
@[simp] theorem listed_append (log w : List Emission) :
    listed (log ++ w) = listed log ++ listed w :=
  List.flatMap_append

omit [Crypto] in
@[simp] theorem listed_suspended (waitFor : List StoreKey) (header : Header) (w : List Emission) :
    listed (.suspended waitFor header :: w) = waitFor ++ listed w :=
  List.flatMap_cons

omit [Crypto] in
/-- A pair is among the keys it is mapped to. -/
theorem mem_map_batch {missing : List (Digest × WorkerId)} {e : Digest × WorkerId} :
    .batch e.1 e.2 ∈ missing.map (fun e => StoreKey.batch e.1 e.2) ↔ e ∈ missing :=
  List.mem_map_of_injective fun _ _ h =>
    Prod.ext (StoreKey.batch.inj h).1 (StoreKey.batch.inj h).2

omit [Crypto] in
theorem Asked.mono {log : List Emission} {e : Digest × WorkerId} (h : Asked log e)
    (w : List Emission) : Asked (log ++ w) e := by
  obtain ⟨address, digests, target, hmem, hd⟩ := h
  exact ⟨address, digests, target, List.mem_append_left _ hmem, hd⟩

omit [Crypto] in
theorem asked_append {log w : List Emission} {e : Digest × WorkerId} :
    Asked (log ++ w) e ↔ Asked log e ∨ Asked w e := by
  simp only [Asked, List.mem_append, or_and_right, exists_or]

omit [Crypto] in
/-- The requests themselves list nothing. -/
theorem listed_eq_nil {w : List Emission} (h : ∀ waitFor header, .suspended waitFor header ∉ w) :
    listed w = [] := by
  refine List.flatMap_eq_nil_iff.mpr fun m hm => ?_
  cases m with
  | suspended waitFor header => exact absurd hm (h waitFor header)
  | _ => rfl

omit [Crypto] in
theorem listed_sendRequests (author : PublicKey) (requests : List (Σ _ : WorkerId, List Digest)) :
    listed (self.sendRequests author requests).2 = [] := by
  refine listed_eq_nil fun waitFor header hmem => ?_
  obtain ⟨x, -, addresses, -, heq⟩ := sendRequests_spec.2.1 _ hmem
  cases heq

omit [Crypto] in
theorem listed_sendRequest (author : PublicKey) (requiresSync : List Digest) :
    listed (self.sendRequest author requiresSync).2 = [] := by
  refine listed_eq_nil fun waitFor header hmem => ?_
  rw [sendRequest] at hmem
  split at hmem
  · cases hmem
  · split at hmem
    · cases hmem
    · simp at hmem

/-- What the requests rest on: what waits was listed, what was listed was asked for or arrived, and
only what was listed was asked for. -/
structure Asks (log : List Emission) (s : State) : Prop where
  waiting : ∀ w ∈ s.waiting, ∀ e ∈ w.batches, .batch e.1 e.2 ∈ listed log
  asked : ∀ e : Digest × WorkerId, .batch e.1 e.2 ∈ listed log →
    s.store.lookup (.batch e.1 e.2) = none → Asked log e

namespace Asks

variable {log : List Emission} {s s' : State}

omit [Crypto] in
theorem awaited_requested (h : Asks log s) : Requested log s :=
  fun w hw e he hnone => h.asked e (h.waiting w hw e he) hnone

omit [Crypto] in
/-- Nothing joins the pool, and the store only grows. -/
theorem idle (h : Asks log s) {w : List Emission} (hlisted : listed w = [])
    (hwaiting : s'.waiting ⊆ s.waiting)
    (hstore : ∀ key, s'.store.lookup key = none → s.store.lookup key = none) :
    Asks (log ++ w) s' where
  waiting x hx e he := by
    rw [listed_append]
    exact List.mem_append_left _ (h.waiting x (hwaiting hx) e he)
  asked e he hnone := by
    rw [listed_append, hlisted, List.append_nil] at he
    exact (h.asked e he (hstore _ hnone)).mono w

omit [Crypto] in
/-- A header joins the pool, and what it lists was or is asked for. -/
theorem suspended (h : Asks log s) {waitFor : List StoreKey} {header : Header} {w : List Emission}
    (hlisted : listed w = []) (hstore : s'.store = s.store)
    (hwaiting : s'.waiting = s.waiting ++ [⟨s.created, waitFor, header⟩])
    (hasked : ∀ e : Digest × WorkerId, .batch e.1 e.2 ∈ waitFor →
      s.store.lookup (.batch e.1 e.2) = none →
        Asked (log ++ .suspended waitFor header :: w) e) :
    Asks (log ++ .suspended waitFor header :: w) s' := by
  have hkeys : listed (log ++ .suspended waitFor header :: w) = listed log ++ waitFor := by
    rw [listed_append, listed_suspended, hlisted, List.append_nil]
  refine ⟨fun x hx e he => ?_, fun e he hnone => ?_⟩
  · rw [hwaiting] at hx
    rw [hkeys]
    rcases List.mem_append.mp hx with hx | hx
    · exact List.mem_append_left _ (h.waiting x hx e he)
    · rw [List.mem_singleton.mp hx] at he
      exact List.mem_append_right _ (Waiter.mem_batches.mp he)
  · rw [hkeys] at he
    rw [hstore] at hnone
    rcases List.mem_append.mp he with he | he
    · exact (h.asked e he hnone).mono _
    · exact hasked e he hnone

omit [Crypto] in
theorem cleanUp (h : Asks log s) : Asks log (self.cleanUp s) := by
  obtain ⟨-, hstore, hwaiting, -⟩ := self.cleanUp_spec s
  refine ⟨?_, ?_⟩
  · rw [hwaiting]
    exact h.waiting
  · rw [hstore]
    exact h.asked

/-- **One branch**, under the condition. -/
theorem change (h : Asks log s) (hinv : Inv self s) {e : Event} (hsame : SameWorker self log s e)
    {sent : List Emission} {cleans : Bool} (hchange : Change self s e sent cleans s') :
    Asks (log ++ sent) s' := by
  cases hchange with
  | idle => exact h.idle rfl (List.Subset.refl _) fun _ h => h
  | asked => exact h.idle rfl (List.Subset.refl _) fun _ h => h
  | written key value =>
    refine h.idle rfl (List.Subset.refl _) fun k hk => ?_
    rw [AList.lookup_insert_eq] at hk
    split at hk
    · cases hk
    · exact hk
  | committed round => exact h.idle rfl (List.Subset.refl _) fun _ h => h
  | skipped now m rest hrx => exact h.idle rfl (List.Subset.refl _) fun _ h => h
  | syncBatches now missing header rest hrx hnew hsend =>
    obtain ⟨-, hnodup, -⟩ := hinv.channel _ (hrx ▸ List.mem_cons_self)
    refine h.suspended (listed_sendRequests _ _) rfl rfl fun x hx hnone => ?_
    have hx := mem_map_batch.mp hx
    cases hrecorded : s.batchRequests.lookup x.1 with
    | none =>
      obtain ⟨address, digests, hmem, hd⟩ := exists_toWorker_of_new hnodup hsend hx hrecorded
      exact ⟨address, digests, _,
        List.mem_append_right _ (List.mem_cons_of_mem _ hmem), hd⟩
    | some round =>
      have hkeeps := hsame (.syncBatches missing header) (by rw [hrx]; rfl)
      have hlisted := hkeeps hnew ((canSend_iff hnodup).mp hsend) x hx hnone
        (by rw [hrecorded]; rfl)
      exact (h.asked x hlisted hnone).mono _
  | syncParents now missing header rest hrx hnew =>
    refine h.suspended (listed_sendRequest _ _) rfl rfl fun x hx _ => ?_
    obtain ⟨y, -, heq⟩ := List.mem_map.mp hx
    cases heq
  | resumed w hw hholds => exact h.idle rfl List.erase_subset fun _ h => h
  | dropped w hw => exact h.idle rfl List.erase_subset fun _ h => h
  | retried now => exact h.idle rfl (List.Subset.refl _) fun _ h => h

theorem step (h : Asks log s) (hinv : Inv self s) {e : Event} (hsame : SameWorker self log s e)
    (hstep : (self.step s e).1 = .ok s') : Asks (log ++ (self.step s e).2) s' :=
  step_of_change (fun _ hchange => h.change hinv hsame hchange) (fun _ h => h.cleanUp) hstep

end Asks

/-- Only what was listed was asked for. -/
def OnlyListed (log : List Emission) : Prop :=
  ∀ e : Digest × WorkerId, Asked log e → .batch e.1 e.2 ∈ listed log

omit [Crypto] in
theorem OnlyListed.append {log w : List Emission} (h : OnlyListed log) (hw : OnlyListed w) :
    OnlyListed (log ++ w) := by
  intro e he
  rw [listed_append]
  rcases asked_append.mp he with he | he
  · exact List.mem_append_left _ (h e he)
  · exact List.mem_append_right _ (hw e he)

omit [Crypto] in
theorem OnlyListed.of_forall {w : List Emission}
    (h : ∀ id address message, .toWorker id address message ∉ w) : OnlyListed w := by
  rintro e ⟨address, digests, target, hmem, -⟩
  exact absurd hmem (h _ _ _)

theorem Change.onlyListed {s s' : State} {e : Event} {sent : List Emission} {cleans : Bool}
    (hinv : Inv self s) (hchange : Change self s e sent cleans s') : OnlyListed sent := by
  cases hchange with
  | syncBatches now missing header rest hrx hnew hsend =>
    obtain ⟨-, hnodup, -⟩ := hinv.channel _ (hrx ▸ List.mem_cons_self)
    rintro x ⟨address, digests, target, hmem, hd⟩
    rw [listed_suspended]
    rcases List.mem_cons.mp hmem with heq | hmem
    · cases heq
    · obtain ⟨_, heq, -, hmissing⟩ := toWorker_mem_sendRequests hnodup hmem
      cases heq
      exact List.mem_append_left _ (mem_map_batch.mpr (hmissing _ hd).1)
  | syncParents now missing header rest hrx hnew =>
    refine .of_forall fun id address message hmem => ?_
    rcases List.mem_cons.mp hmem with heq | hmem
    · cases heq
    · rw [sendRequest] at hmem
      split at hmem
      · cases hmem
      · split at hmem
        · cases hmem
        · simp at hmem
  | _ => exact .of_forall (by simp [retry])

/-- **Only what was listed is asked for**, in every run. -/
theorem onlyListed {is : List Event} {s : State} (hs : self.machine.state is = .ok s) :
    OnlyListed (self.machine.outputs is) := by
  refine run_invariant (P := fun log _ => OnlyListed log) (C := fun _ _ _ => True)
    (.of_forall fun _ _ _ h => (by cases h)) (fun hs hlisted _ hstep => hlisted.append ?_)
    (fun _ _ _ _ _ => trivial) hs
  obtain ⟨s₁, htake, -⟩ := step_eq_ok hstep
  exact (take_change htake).onlyListed (inv hs)

/-- A state and log reached under the condition have every awaited batch requested. -/
theorem requested_of_sameWorker {is : List Event} (hsame : self.Along (SameWorker self) is)
    {s : State} (hs : self.machine.state is = .ok s) :
    Requested (self.machine.outputs is) s := by
  have hasks : Asks (self.machine.outputs is) s :=
    run_invariant ⟨fun w hw => (by cases hw), fun e he => (by cases he)⟩
      (fun hs h hcond hstep => h.step (inv hs) hcond hstep) hsame hs
  exact hasks.awaited_requested

/-- A command of a header that is not pending, where the author has the workers of what is new. -/
theorem step_syncBatches {s : State} {missing : List (Digest × WorkerId)} {header : Header}
    {rest : List WaiterMessage} (hrx : s.rxSynchronizer = .syncBatches missing header :: rest)
    (hnew : s.pending.lookup header.id = none)
    (hsend : CanSend self header.author
      (missing.foldl (requestBatch header.round) (s.batchRequests, ∅)).2.entries) (now : ℕ) :
    (∃ s', (self.step s (.message now)).1 = .ok s' ∧ s'.store = s.store ∧
      ⟨s.created, missing.map fun e => .batch e.1 e.2, header⟩ ∈ s'.waiting) ∧
    (self.step s (.message now)).2 = .suspended (missing.map fun e => .batch e.1 e.2) header ::
      (self.sendRequests header.author
        (missing.foldl (requestBatch header.round) (s.batchRequests, ∅)).2.entries).2 := by
  rw [step, take_syncBatches hrx hnew, syncBatches]
  dsimp only
  rw [sendRequests_spec.1.mpr hsend]
  refine ⟨⟨_, rfl, ?_⟩, rfl⟩
  obtain ⟨-, hstore, hwaiting, -⟩ := self.cleanUp_spec
    { ({ s with rxSynchronizer := rest } : State).suspend
        (missing.map fun e => .batch e.1 e.2) header with
      batchRequests := (missing.foldl (requestBatch header.round) (s.batchRequests, ∅)).1 }
  refine ⟨hstore, ?_⟩
  rw [hwaiting]
  exact List.mem_append_right _ List.mem_cons_self

/-- If the batches of a header that joins the pool were requested, the condition held. -/
theorem sameWorker_of_requested {is : List Event} {s : State} (hs : self.machine.state is = .ok s)
    {e : Event} (h : ∀ s', self.machine.state (is ++ [e]) = .ok s' →
      Requested (self.machine.outputs (is ++ [e])) s') :
    SameWorker self (self.machine.outputs is) s e := by
  cases e with
  | message now =>
    intro m hm
    cases m with
    | syncParents missing header => trivial
    | syncBatches missing header =>
      intro hnew hworkers x hx hnone hrecorded
      obtain ⟨rest, hrx⟩ := List.head?_eq_some_iff.mp hm
      obtain ⟨-, hnodup, -⟩ := (inv hs).channel _ (hrx ▸ List.mem_cons_self)
      obtain ⟨hstate, houtputs⟩ := run_snoc hs (.message now)
      obtain ⟨⟨s', hs', hstore, hwaiting⟩, hsent⟩ :=
        step_syncBatches hrx hnew ((canSend_iff hnodup).mpr hworkers) now
      have hasked := h s' (hstate.trans hs') _ hwaiting x
        (Waiter.mem_batches.mpr (mem_map_batch.mpr hx)) (by rw [hstore]; exact hnone)
      rw [houtputs, hsent] at hasked
      rcases asked_append.mp hasked with hasked | ⟨address, digests, target, hmem, hd⟩
      · exact onlyListed hs x hasked
      · -- what is sent now is not recorded
        rcases List.mem_cons.mp hmem with heq | hmem
        · cases heq
        · obtain ⟨_, heq, -, hmissing⟩ := toWorker_mem_sendRequests hnodup hmem
          cases heq
          rw [(hmissing _ hd).2] at hrecorded
          cases hrecorded
  | _ => trivial

/-- **Every awaited batch is requested from its worker exactly when every header that joins the pool
lists the digests still recorded under the worker id of an earlier one**: for every run. -/
theorem requested_iff_sameWorker (self : HeaderWaiter) (is : List Event) :
    (∀ pre, pre <+: is → ∀ s, self.machine.state pre = .ok s →
      Requested (self.machine.outputs pre) s) ↔ self.Along (SameWorker self) is := by
  constructor
  · intro h pre e hpre s hs
    exact sameWorker_of_requested (Except.toOption_eq_some_iff.mp hs) fun s' hs' =>
      h (pre ++ [e]) hpre s' hs'
  · intro hsame pre hpre s hs
    exact requested_of_sameWorker (hsame.of_prefix hpre) hs

end Run

end HeaderWaiter

namespace HeaderWaiter.TwoWorkers

open Sample

/-- The addresses of a worker of an authority. -/
def addresses (n : ℕ) (id : WorkerId) : WorkerAddresses :=
  let host : IpAddr := .v4 (BitVec.ofNat 32 n)
  ⟨⟨host, 3 * id.toUInt16⟩, ⟨host, 3 * id.toUInt16 + 1⟩, ⟨host, 3 * id.toUInt16 + 2⟩⟩

/-- An authority with two workers. -/
def member (n : ℕ) : Authority :=
  { authority 1 with workers := AList.collect [(0, addresses n 0), (1, addresses n 1)] }

def committee : Committee :=
  ⟨⟨[(key 1, member 1), (key 2, member 2), (key 3, member 3), (key 4, member 4)], by
    simp only [List.map]; decide⟩⟩

def task : HeaderWaiter := ⟨key 1, committee, 50, 5000, 3⟩

def genesis : List Digest := (Certificate.genesis committee).map Certificate.digest

/-- The digest of a batch. -/
def batch : Digest := Digest.hash [7]

/-- A header that lists the batch under a worker id, on so many of the genesis certificates. -/
def listing (n : ℕ) (id : WorkerId) (parents : ℕ) : Header :=
  header (key n) 1 (BTreeMap.empty.insert batch id) (genesis.take parents)

/-- A header of the second authority waits to be suspended. -/
def arrival : List Event := [.missingPayload (listing 2 0 4)]

set_option maxRecDepth 100000 in
theorem run_arrival : (task.machine.state arrival).toOption.map (fun s =>
      (s.rxSynchronizer, (task.machine.step (.ok s) (.message 0)).2)) =
    some ([.syncBatches [(batch, 0)] (listing 2 0 4)],
      [.suspended [.batch batch 0] (listing 2 0 4),
        .toWorker 0 (addresses 2 0).primaryToWorker (.synchronize [batch] (key 2))]) := by
  decide +kernel

set_option maxRecDepth 100000 in
theorem verify_listing : (listing 2 0 4).verify committee = .ok () ∧
    (listing 2 0 3).verify committee = .ok () ∧ (listing 3 1 4).verify committee = .ok () := by
  decide +kernel

/-- **The command for a valid header goes to the author's worker.** -/
theorem sent_abroad : (listing 2 0 4).verify committee = .ok () ∧
    ∃ s, task.machine.state arrival = .ok s ∧
      s.rxSynchronizer = [.syncBatches [(batch, 0)] (listing 2 0 4)] ∧
      ¬ ToOwnWorkers task (listing 2 0 4) (task.machine.step (.ok s) (.message 0)).2 := by
  obtain ⟨s, hs, heq⟩ := Except.exists_of_map_toOption run_arrival
  obtain ⟨hrx, hsent⟩ := Prod.mk.inj heq
  refine ⟨verify_listing.1, s, hs, hrx, fun hown => ?_⟩
  rw [hsent] at hown
  obtain ⟨-, -, habroad⟩ := hown 0 _ _ (List.mem_cons_of_mem _ List.mem_cons_self)
  exact habroad (key 2) (by decide) 0 (addresses 2 0) rfl rfl

/-- Its batch is requested, then a second header of the author lists it again. -/
def relisted : List Event := arrival ++ [.message 0, .missingPayload (listing 2 0 3)]

set_option maxRecDepth 100000 in
theorem run_relisted : (task.machine.state relisted).toOption.map (fun s =>
      (s.rxSynchronizer, (s.batchRequests.lookup batch).isSome)) =
    some ([.syncBatches [(batch, 0)] (listing 2 0 3)], true) := by
  decide +kernel

theorem none_sent_relisted : ∃ s, task.machine.state relisted = .ok s ∧
    ToOwnWorkers task (listing 2 0 3) (task.machine.step (.ok s) (.message 0)).2 := by
  obtain ⟨s, hs, heq⟩ := Except.exists_of_map_toOption run_relisted
  obtain ⟨hrx, hrecorded⟩ := Prod.mk.inj heq
  refine ⟨s, hs, (toOwnWorkers_iff task hs hrx ?_ 0).mpr (Or.inr ?_)⟩
  · exact List.forall_mem_singleton.mpr ⟨addresses 2 0, rfl⟩
  · exact List.forall_mem_singleton.mpr hrecorded

/-- Two authorities list the same digest under different worker ids, and both headers wait. -/
def disputed : List Event :=
  [.missingPayload (listing 2 0 4), .missingPayload (listing 3 1 4), .message 0]

set_option maxRecDepth 100000 in
theorem run_disputed : (task.machine.state disputed).toOption.map (fun s =>
    decide (SameWorker task (task.machine.outputs disputed) s (.message 0))) = some false := by
  decide +kernel

/-- **The batch of the second header is requested from no worker with its id.** -/
theorem not_requested_disputed : (listing 2 0 4).verify committee = .ok () ∧
    (listing 3 1 4).verify committee = .ok () ∧
    ¬ ∀ s, task.machine.state (disputed ++ [.message 0]) = .ok s →
      Requested (task.machine.outputs (disputed ++ [.message 0])) s := by
  refine ⟨verify_listing.1, verify_listing.2.2, fun h => ?_⟩
  obtain ⟨s, hs, hfalse⟩ := Except.exists_of_map_toOption run_disputed
  exact of_decide_eq_false hfalse (sameWorker_of_requested hs h)

end HeaderWaiter.TwoWorkers

end Bullshark
