import Bullshark.Worker.Synced

/-!
# Worker/SyncRequests — what the `Synchronizer` asks of one authority

A digest is asked for where it is neither pending nor stored, and is pending from then on, so it is
not asked for again before a clean-up gives it up (`asked_once`).  While a command is gone through
nothing leaves `pending` and nothing leaves the store, so its request names the digests that were
neither there when it came, up to what was stored meanwhile (`request_exact`).
-/

namespace Bullshark

namespace Worker

namespace Synced

variable [Crypto] [Base64] {worker : Synced} {store : Store} {s : State} {d : Digest}

/-! ## How often an authority is asked -/

/-- What the `Synchronizer` sent. -/
def emissions (log : List Action) : List Synchronizer.Emission :=
  log.filterMap fun
    | .synchronizer sent => some sent
    | _ => none

/-- The digests asked of one authority. -/
def asked (sent : List Synchronizer.Emission) : List Digest :=
  sent.flatMap fun
    | .request _ (.batchRequest missing _) => missing
    | _ => []

/-- How often a digest was given up. -/
def timesGivenUp (d : Digest) (sent : List Synchronizer.Emission) : ℕ :=
  sent.countP fun
    | .cancel digest _ => decide (digest = d)
    | _ => false

/-- The digests of the command that are to be asked for. -/
def toAsk (x : Synchronizer.State) : List Digest :=
  (x.handling.map Synchronizer.Handling.missing).getD []

/-- The digest is pending, or its batch is there. -/
def Covers (store : Store) (x : Synchronizer.State) (d : Digest) : Prop :=
  (x.pending.lookup d).isSome ∨ (store.lookup d.toBytes).isSome

instance (store : Store) (x : Synchronizer.State) (d : Digest) : Decidable (Covers store x d) :=
  inferInstanceAs (Decidable (_ ∨ _))

omit [Crypto] [Base64] in
theorem asked_cancels (x : Synchronizer.State) (g : UInt64) : asked (x.cancels g) = [] := by
  refine List.flatMap_eq_nil_iff.mpr fun m hm => ?_
  obtain ⟨y, -, hy⟩ := List.mem_filterMap.mp hm
  split at hy <;> cases hy
  rfl

omit [Crypto] [Base64] in
theorem asked_sendRequest (task : Synchronizer) (h : Synchronizer.Handling) :
    asked (task.sendRequest h) = [] ∨ asked (task.sendRequest h) = h.missing := by
  rw [Synchronizer.sendRequest]
  split
  · exact Or.inl rfl
  · exact Or.inr (List.append_nil _)

omit [Crypto] [Base64] in
theorem asked_retry (task : Synchronizer) (now : ℕ) (x : Synchronizer.State) :
    asked (task.retry now x) = [] := by
  rw [Synchronizer.retry]
  dsimp only
  split <;> rfl

omit [Crypto] [Base64] in
/-- What is pending or stored is so after a turn, or was given up in it. -/
theorem Covers.change {x y : Synchronizer.State} {i : Synchronizer.Event}
    {sent : List Synchronizer.Emission} (h : Covers store x d)
    (hchange : Synchronizer.Change worker.synchronizer store x i sent y) :
    Covers store y d ∨ 0 < timesGivenUp d sent := by
  rcases h with h | h
  · obtain ⟨entry, hentry⟩ := Option.isSome_iff_exists.mp h
    rcases pending_change hentry hchange with hkept | hstored |
      ⟨now, round, rest, rfl, hidle, hrx, hdepth, hround⟩
    · exact Or.inl (Or.inl (Option.isSome_iff_exists.mpr ⟨entry, hkept⟩))
    · exact Or.inl (Or.inr hstored)
    · have hgiven : .cancel d entry.handler ∈ x.cancels (round - worker.gcDepth) :=
        Synchronizer.State.mem_cancels.mpr ⟨entry, hentry, hround, rfl⟩
      cases hchange with
      | idle => exact Or.inl (Or.inl h)
      | started _ _ _ _ _ hrx' => rw [hrx] at hrx'; cases hrx'
      | noted _ _ _ _ _ hrx' hround' =>
        rw [hrx] at hrx'
        cases hrx'
        rcases hround' with ⟨heq, hlt⟩ | ⟨r, silent, heq, -⟩
        · cases heq
          exact absurd hdepth (UInt64.not_le.mpr hlt)
        · cases heq
      | cleaned _ _ _ _ hrx' _ =>
        rw [hrx] at hrx'
        cases hrx'
        exact Or.inr (List.countP_pos_iff.mpr ⟨_, hgiven, by simp⟩)
  · exact Or.inl (Or.inr h)

omit [Crypto] [Base64] in
/-- **A digest is asked for only where it is neither pending nor stored, and is pending then.** -/
theorem balance {x y : Synchronizer.State} {i : Synchronizer.Event}
    {sent : List Synchronizer.Emission} {a g : ℕ}
    (h : a + (toAsk x).count d ≤ g + if Covers store x d then 1 else 0)
    (hchange : Synchronizer.Change worker.synchronizer store x i sent y) :
    a + (asked sent).count d + (toAsk y).count d
      ≤ g + timesGivenUp d sent + if Covers store y d then 1 else 0 := by
  -- but for the digest that is added to the request, nothing more is to be asked
  have hquiet : (asked sent).count d + (toAsk y).count d ≤ (toAsk x).count d →
      a + (asked sent).count d + (toAsk y).count d
        ≤ g + timesGivenUp d sent + if Covers store y d then 1 else 0 := by
    intro hle
    by_cases hx : Covers store x d
    · rw [if_pos hx] at h
      rcases hx.change hchange with hy | hgiven
      · rw [if_pos hy]
        omega
      · omega
    · rw [if_neg hx] at h
      omega
  cases hchange with
  | idle => exact hquiet (by simp [asked])
  | started now digests target rest hidle hrx => exact hquiet (by simp [asked, toAsk])
  | noted now m rest round hidle hrx hround => exact hquiet (by simp [asked, toAsk])
  | cleaned now rest round hidle hrx hdepth =>
    refine hquiet ?_
    rw [asked_cancels]
    simp [toAsk, Synchronizer.State.retainAbove]
  | known fails h' digest digests hhandling hdigests hpending =>
    exact hquiet (by simp [asked, toAsk, hhandling])
  | unreadable h' digest digests hhandling hdigests hnew =>
    exact hquiet (by simp [asked, toAsk, hhandling])
  | present h' digest digests hhandling hdigests hnew hstore =>
    exact hquiet (by simp [asked, toAsk, hhandling])
  | requested h' hhandling hdigests =>
    refine hquiet ?_
    rcases asked_sendRequest worker.synchronizer h' with hnone | hall
    · simp [hnone, toAsk]
    · simp [hall, toAsk, hhandling]
  | completed w hidle hw hstore => exact hquiet (by simp [asked, toAsk])
  | cancelled w hidle hw hcancel => exact hquiet (by simp [asked, toAsk])
  | failed w hidle hw => exact hquiet (by simp [asked, toAsk])
  | retried now hidle =>
    refine hquiet ?_
    rw [asked_retry]
    simp
  | absent h' digest digests hhandling hdigests hnew hstore =>
    by_cases hd : d = digest
    · subst hd
      have hx : ¬ Covers store x d := by simp [Covers, hnew, hstore]
      have hy : Covers store { x.await d h'.now with
          handling := some { h' with digests, missing := h'.missing ++ [d] } } d :=
        Or.inl (by simp)
      rw [if_neg hx] at h
      rw [if_pos hy]
      simp only [toAsk, hhandling, Option.map_some, Option.getD_some] at h
      simp only [asked, toAsk, List.flatMap_nil, List.count_nil, Option.map_some, Option.getD_some,
        List.count_append, List.count_singleton_self]
      omega
    · exact hquiet (by simp [asked, toAsk, hhandling, Ne.symm hd])

omit [Crypto] [Base64] in
theorem emissions_append (l l' : List Action) :
    emissions (l ++ l') = emissions l ++ emissions l' := List.filterMap_append

omit [Crypto] [Base64] in
theorem asked_append (l l' : List Synchronizer.Emission) :
    asked (l ++ l') = asked l ++ asked l' := List.flatMap_append

theorem emissions_worker (s : State) (event : Worker.Event) :
    emissions (worker.step s (.worker event)).2 = [] := by
  simp [step, emissions, List.filterMap_map]

theorem emissions_synchronizer (s : State) (event : Synchronizer.Event) :
    emissions (worker.step s (.synchronizer event)).2
      = (worker.synchronizer.step s.worker.store s.synchronizer event).2 := by
  simp [step, emissions, List.filterMap_map]

/-- Every request for the digest but one is made up for: it was given up, and if it is neither
pending nor stored, then so is that one. -/
def Balanced (d : Digest) (s : State) (log : List Action) : Prop :=
  (asked (emissions log)).count d + (toAsk s.synchronizer).count d
    ≤ timesGivenUp d (emissions log) + if Covers s.worker.store s.synchronizer d then 1 else 0

theorem Balanced.step {log : List Action} (h : Balanced d s log) (e : Event) :
    Balanced d (worker.step s e).1 (log ++ (worker.step s e).2) := by
  rw [Balanced, emissions_append]
  cases e with
  | worker event =>
    have hstore := (keeps_step worker.toWorker s.worker event).store d.toBytes
    have hcovers : Covers s.worker.store s.synchronizer d →
        Covers (worker.toWorker.step s.worker event).1.store s.synchronizer d :=
      Or.imp_right hstore
    rw [emissions_worker, List.append_nil]
    refine h.trans (Nat.add_le_add_left ?_ _)
    split
    · next hx => exact (if_pos (hcovers hx)).ge
    · exact Nat.zero_le _
  | synchronizer event =>
    have hbalance := balance h (Synchronizer.change_step worker.synchronizer _ _ event)
    rw [emissions_synchronizer, asked_append, List.count_append, timesGivenUp, List.countP_append]
    exact hbalance

/-- The command that is gone through, received after the run `pre`: what was looked up so far is to
be asked for unless it was pending then, is stored by now or could not be read. -/
structure Handled (worker : Synced) (store : Store) (is : List Event) (s : State)
    (h : Synchronizer.Handling) (pre : List Event) (digests : List Digest) : Prop where
  received : ∃ now, pre ++ [.synchronizer (.receive now)] <+: is
  idle : ((worker.machine store).state pre).synchronizer.handling = none
  command : ((worker.machine store).state pre).synchronizer.rxMessage.head?
    = some (.synchronize digests h.target)
  looked : ∃ done, digests = done ++ h.digests ∧ ∀ d ∈ done, d ∈ h.missing ∨
    (((worker.machine store).state pre).synchronizer.pending.lookup d).isSome ∨
    (s.worker.store.lookup d.toBytes).isSome ∨ (worker.machine store).Since (Unreadable d) pre is
  new : ∀ d ∈ h.missing, d ∈ digests ∧ ¬ Covers ((worker.machine store).state pre).worker.store
    ((worker.machine store).state pre).synchronizer d
  distinct : h.missing.Nodup
  listed : ∀ d ∈ h.missing, (s.synchronizer.pending.lookup d).isSome
  kept : ∀ d, Covers ((worker.machine store).state pre).worker.store
    ((worker.machine store).state pre).synchronizer d → Covers s.worker.store s.synchronizer d
  added : ∀ d, (s.synchronizer.pending.lookup d).isSome → d ∈ h.missing ∨
    (((worker.machine store).state pre).synchronizer.pending.lookup d).isSome ∨
    (s.worker.store.lookup d.toBytes).isSome

namespace Handled

variable {is pre : List Event} {digests : List Digest} {h : Synchronizer.Handling} {s' : State}

theorem before (hh : Handled worker store is s h pre digests) : pre <+: is := by
  obtain ⟨now, hpre⟩ := hh.received
  exact (List.prefix_append _ _).trans hpre

/-- A command is received. -/
theorem receive {now : ℕ} {target : PublicKey} {rest : List PrimaryWorkerMessage}
    (hidle : ((worker.machine store).state is).synchronizer.handling = none)
    (hrx : ((worker.machine store).state is).synchronizer.rxMessage
      = .synchronize digests target :: rest)
    (hpending : s.synchronizer.pending
      = ((worker.machine store).state is).synchronizer.pending)
    (hstore : s.worker.store = ((worker.machine store).state is).worker.store) :
    Handled worker store (is ++ [.synchronizer (.receive now)]) s ⟨digests, target, now, []⟩ is
      digests where
  received := ⟨now, List.prefix_rfl⟩
  idle := hidle
  command := List.head?_eq_some_iff.mpr ⟨rest, hrx⟩
  looked := ⟨[], rfl, fun d hd => (by cases hd)⟩
  new d hd := (by cases hd)
  distinct := List.nodup_nil
  listed d hd := (by cases hd)
  kept d hd := by
    rw [Covers, hpending, hstore]
    exact hd
  added d hd := Or.inr (Or.inl (hpending ▸ hd))

/-- Another task takes a turn. -/
theorem idle_turn (hh : Handled worker store is s h pre digests) (e : Event)
    (hpending : s'.synchronizer.pending = s.synchronizer.pending)
    (hstore : ∀ key, (s.worker.store.lookup key).isSome → (s'.worker.store.lookup key).isSome) :
    Handled worker store (is ++ [e]) s' h pre digests where
  received := hh.received.imp fun _ h => h.trans (List.prefix_append _ _)
  idle := hh.idle
  command := hh.command
  looked := by
    obtain ⟨done, hdone, hlooked⟩ := hh.looked
    refine ⟨done, hdone, fun d hd => ?_⟩
    exact (hlooked d hd).imp_right
      (Or.imp_right (Or.imp (hstore _) fun hsince => hsince.snoc e))
  new := hh.new
  distinct := hh.distinct
  listed d hd := hpending ▸ hh.listed d hd
  kept d hd := by
    rw [Covers, hpending]
    exact (hh.kept d hd).imp_right (hstore _)
  added d hd := (hh.added d (hpending ▸ hd)).imp_right (Or.imp_right (hstore _))

/-- The next digest is through: it is to be asked for, or was pending, or is stored, or could not be
read. -/
theorem looked_snoc (hh : Handled worker store is s h pre digests) {digest : Digest}
    {rest missing : List Digest} (hdigests : h.digests = digest :: rest) (e : Event)
    (hmissing : ∀ d ∈ h.missing, d ∈ missing) (hstore : s'.worker.store = s.worker.store)
    (hdigest : digest ∈ missing ∨
      (((worker.machine store).state pre).synchronizer.pending.lookup digest).isSome ∨
      (s.worker.store.lookup digest.toBytes).isSome ∨
      (worker.machine store).Since (Unreadable digest) pre (is ++ [e])) :
    ∃ done, digests = done ++ rest ∧ ∀ d ∈ done, d ∈ missing ∨
      (((worker.machine store).state pre).synchronizer.pending.lookup d).isSome ∨
      (s'.worker.store.lookup d.toBytes).isSome ∨
      (worker.machine store).Since (Unreadable d) pre (is ++ [e]) := by
  obtain ⟨done, hdone, hlooked⟩ := hh.looked
  refine ⟨done ++ [digest], by rw [hdone, hdigests, List.append_assoc]; rfl, fun d hd => ?_⟩
  rw [hstore]
  rcases List.mem_append.mp hd with hd | hd
  · exact (hlooked d hd).imp (hmissing d)
      (Or.imp_right (Or.imp_right fun hsince => hsince.snoc e))
  · rwa [List.mem_singleton.mp hd]

/-- The next digest is not to be asked for, and becomes pending only if it is stored. -/
theorem pass (hh : Handled worker store is s h pre digests) {digest : Digest} {rest : List Digest}
    (hdigests : h.digests = digest :: rest) (e : Event)
    (hdigest : digest ∈ h.missing ∨
      (((worker.machine store).state pre).synchronizer.pending.lookup digest).isSome ∨
      (s.worker.store.lookup digest.toBytes).isSome ∨
      (worker.machine store).Since (Unreadable digest) pre (is ++ [e]))
    (hstore : s'.worker.store = s.worker.store)
    (hpending : ∀ d, (s.synchronizer.pending.lookup d).isSome →
      (s'.synchronizer.pending.lookup d).isSome)
    (hadded : ∀ d, (s'.synchronizer.pending.lookup d).isSome →
      (s.synchronizer.pending.lookup d).isSome ∨ (s.worker.store.lookup d.toBytes).isSome) :
    Handled worker store (is ++ [e]) s' { h with digests := rest } pre digests where
  received := hh.received.imp fun _ h => h.trans (List.prefix_append _ _)
  idle := hh.idle
  command := hh.command
  looked := hh.looked_snoc hdigests e (fun _ hd => hd) hstore hdigest
  new := hh.new
  distinct := hh.distinct
  listed d hd := hpending d (hh.listed d hd)
  kept d hd := (hh.kept d hd).imp (hpending d) fun h => hstore ▸ h
  added d hd := by
    rw [hstore]
    exact (hadded d hd).elim (hh.added d) fun h => Or.inr (Or.inr h)

/-- The next digest is to be asked for, and is pending from now on. -/
theorem ask (hh : Handled worker store is s h pre digests) {digest : Digest} {rest : List Digest}
    (hdigests : h.digests = digest :: rest) (e : Event)
    (hnew : ¬ Covers s.worker.store s.synchronizer digest)
    (hstore : s'.worker.store = s.worker.store)
    (hpending : ∀ d, (s'.synchronizer.pending.lookup d).isSome ↔
      d = digest ∨ (s.synchronizer.pending.lookup d).isSome) :
    Handled worker store (is ++ [e]) s'
      { h with digests := rest, missing := h.missing ++ [digest] } pre digests where
  received := hh.received.imp fun _ h => h.trans (List.prefix_append _ _)
  idle := hh.idle
  command := hh.command
  looked := hh.looked_snoc hdigests e (fun _ hd => List.mem_append_left _ hd) hstore
    (Or.inl (List.mem_append_right _ List.mem_cons_self))
  new := by
    refine List.forall_mem_append.mpr ⟨hh.new, List.forall_mem_singleton.mpr ⟨?_, ?_⟩⟩
    · obtain ⟨done, hdone, -⟩ := hh.looked
      rw [hdone, hdigests]
      exact List.mem_append_right _ List.mem_cons_self
    · exact fun hcovers => hnew (hh.kept digest hcovers)
  distinct := by
    refine List.nodup_append.mpr ⟨hh.distinct, List.nodup_singleton _, ?_⟩
    rintro a ha b hb rfl
    rw [List.mem_singleton.mp hb] at ha
    exact hnew (Or.inl (hh.listed digest ha))
  listed := List.forall_mem_append.mpr ⟨fun d hd => (hpending d).mpr (Or.inr (hh.listed d hd)),
    List.forall_mem_singleton.mpr ((hpending digest).mpr (Or.inl rfl))⟩
  kept d hd := (hh.kept d hd).imp (fun h => (hpending d).mpr (Or.inr h)) fun h => hstore ▸ h
  added d hd := by
    rw [hstore]
    rcases (hpending d).mp hd with rfl | hd
    · exact Or.inl (List.mem_append_right _ List.mem_cons_self)
    · exact (hh.added d hd).imp_left (List.mem_append_left _)

/-- **Every turn of the `Synchronizer` keeps it.** -/
theorem change {y : Synchronizer.State} {event : Synchronizer.Event}
    {sent : List Synchronizer.Emission} (hs : (worker.machine store).state is = s)
    (ih : ∀ h, s.synchronizer.handling = some h →
      ∃ pre digests, Handled worker store is s h pre digests)
    (hchange : Synchronizer.Change worker.synchronizer s.worker.store s.synchronizer event sent y)
    (hhandling : y.handling = some h) : ∃ pre digests,
      Handled worker store (is ++ [.synchronizer event]) ⟨s.worker, y⟩ h pre digests := by
  have hidle : y.handling = s.synchronizer.handling → y.pending = s.synchronizer.pending →
      ∃ pre digests,
        Handled worker store (is ++ [.synchronizer event]) ⟨s.worker, y⟩ h pre digests := by
    intro hsame hpending
    obtain ⟨pre, digests, hh⟩ := ih h (hsame ▸ hhandling)
    exact ⟨pre, digests, hh.idle_turn _ hpending fun _ h => h⟩
  cases hchange with
  | idle => exact hidle rfl rfl
  | noted _ _ _ _ _ _ _ => exact hidle rfl rfl
  | retried _ _ => exact hidle rfl rfl
  | cancelled _ _ _ _ => exact hidle rfl rfl
  | failed _ _ _ => exact hidle rfl rfl
  | cleaned _ _ _ hnone _ _ =>
    replace hhandling : s.synchronizer.handling = some h := hhandling
    rw [hnone] at hhandling
    cases hhandling
  | completed _ hnone _ _ =>
    replace hhandling : s.synchronizer.handling = some h := hhandling
    rw [hnone] at hhandling
    cases hhandling
  | requested _ _ _ => cases hhandling
  | started now digests target rest hnone hrx =>
    cases hhandling
    subst hs
    exact ⟨is, digests, receive hnone hrx rfl rfl⟩
  | known fails h' digest digests hhandling' hdigests hpending =>
    cases hhandling
    obtain ⟨pre, all, hh⟩ := ih h' hhandling'
    refine ⟨pre, all, hh.pass hdigests _ ?_ rfl (fun _ h => h) fun _ h => Or.inl h⟩
    exact (hh.added digest hpending).imp_right (Or.imp_right Or.inl)
  | unreadable h' digest digests hhandling' hdigests hnew =>
    cases hhandling
    obtain ⟨pre, all, hh⟩ := ih h' hhandling'
    refine ⟨pre, all, hh.pass hdigests _ (Or.inr (Or.inr (Or.inr ?_))) rfl (fun _ h => h)
      fun _ h => Or.inl h⟩
    refine Mealy.Since.last hh.before ⟨rfl, h', digests, ?_, hdigests⟩
    rw [hs, hhandling']
  | absent h' digest digests hhandling' hdigests hnew hstore =>
    cases hhandling
    obtain ⟨pre, all, hh⟩ := ih h' hhandling'
    refine ⟨pre, all, hh.ask hdigests _ ?_ rfl fun d => ?_⟩
    · simp [Covers, hnew, hstore]
    · show ((s.synchronizer.await digest h'.now).pending.lookup d).isSome ↔ _
      rw [Synchronizer.State.lookup_await]
      split <;> simp [*]
  | present h' digest digests hhandling' hdigests hnew hstore =>
    cases hhandling
    obtain ⟨pre, all, hh⟩ := ih h' hhandling'
    have hlookup : ∀ d, ((s.synchronizer.await digest h'.now).pending.lookup d).isSome ↔
        d = digest ∨ (s.synchronizer.pending.lookup d).isSome := by
      intro d
      rw [Synchronizer.State.lookup_await]
      split <;> simp [*]
    refine ⟨pre, all, hh.pass hdigests _ (Or.inr (Or.inr (Or.inl hstore))) rfl
      (fun d h => (hlookup d).mpr (Or.inr h)) fun d h => ?_⟩
    rcases (hlookup d).mp h with rfl | h
    · exact Or.inr hstore
    · exact Or.inl h

end Handled

/-- **A command that is gone through was received**, in every run. -/
theorem handled_run (worker : Synced) (store : Store) (is : List Event) :
    ∀ h, ((worker.machine store).state is).synchronizer.handling = some h →
      ∃ pre digests, Handled worker store is ((worker.machine store).state is) h pre digests := by
  induction is using List.reverseRecOn with
  | nil => exact fun h hh => (by cases hh)
  | append_singleton is e ih =>
    intro h hhandling
    rw [Mealy.state_snoc] at hhandling ⊢
    cases e with
    | worker event =>
      obtain ⟨pre, digests, hh⟩ := ih h hhandling
      exact ⟨pre, digests, hh.idle_turn _ rfl (keeps_step worker.toWorker _ event).store⟩
    | synchronizer event =>
      exact Handled.change rfl ih (Synchronizer.change_step worker.synchronizer _ _ event) hhandling

/-- A request for `missing` answers a command received after the run `pre`: each digest is named
once, was named by the command, and was neither pending nor stored when it came; what the command
names besides was pending then, is stored by now, or could not be read. -/
structure Answers (worker : Synced) (store : Store) (pre is : List Event) (target : PublicKey)
    (missing : List Digest) : Prop where
  command : ∃ now digests, pre ++ [.synchronizer (.receive now)] <+: is ∧
    ((worker.machine store).state pre).synchronizer.handling = none ∧
    ((worker.machine store).state pre).synchronizer.rxMessage.head?
      = some (.synchronize digests target) ∧
    (∀ d ∈ missing, d ∈ digests) ∧ ∀ d ∈ digests, d ∉ missing →
      (((worker.machine store).state pre).synchronizer.pending.lookup d).isSome ∨
      (((worker.machine store).state is).worker.store.lookup d.toBytes).isSome ∨
      (worker.machine store).Since (Unreadable d) pre is
  distinct : missing.Nodup
  new : ∀ d ∈ missing,
    ((worker.machine store).state pre).synchronizer.pending.lookup d = none ∧
    ((worker.machine store).state pre).worker.store.lookup d.toBytes = none

/-- **A request names exactly what was missing**: in every run, whenever one authority is asked for
batches, it is the target of a command of the primary, which the request answers. -/
theorem request_exact (worker : Synced) (store : Store) (is : List Event) (e : Event)
    (address : SocketAddr) (message : WorkerMessage)
    (hsent : .synchronizer (.request address message) ∈
      (worker.step ((worker.machine store).state is) e).2) :
    ∃ pre target missing addresses, worker.Answers store pre is target missing ∧
      message = .batchRequest missing worker.name ∧
      worker.committee.worker target worker.id = .ok addresses ∧
      address = addresses.workerToWorker := by
  cases e with
  | worker event =>
    obtain ⟨action, -, haction⟩ := List.mem_map.mp hsent
    cases haction
  | synchronizer event =>
    obtain ⟨sent, hsent, heq⟩ := List.mem_map.mp hsent
    cases heq
    obtain ⟨h, addresses, hhandling, hdigests, haddresses, rfl, rfl⟩ :=
      (Synchronizer.change_step worker.synchronizer _ _ event).of_request hsent
    obtain ⟨pre, digests, hh⟩ := handled_run worker store is h hhandling
    obtain ⟨now, hnow⟩ := hh.received
    obtain ⟨done, hdone, hlooked⟩ := hh.looked
    rw [hdigests, List.append_nil] at hdone
    refine ⟨pre, h.target, h.missing, addresses, ⟨⟨now, digests, hnow, hh.idle, hh.command,
      fun d hd => (hh.new d hd).1, fun d hd hnot => ?_⟩, hh.distinct, fun d hd => ?_⟩, rfl,
      haddresses, rfl⟩
    · exact (hlooked d (hdone ▸ hd)).resolve_left hnot
    · obtain ⟨-, hcovers⟩ := hh.new d hd
      rw [Covers, not_or] at hcovers
      exact ⟨by simpa using hcovers.1, by simpa using hcovers.2⟩

end Synced

namespace Synced.Commanded

open Sample

/-- The command is received and gone through. -/
def received : List Event :=
  commanded ++ [.synchronizer (.receive 0), .synchronizer (.digest false)]

theorem request_exact_commanded : ∃ pre target missing addresses,
    worker.Answers ∅ pre received target missing ∧
      WorkerMessage.batchRequest [Requested.digest] (key 2) = .batchRequest missing worker.name ∧
      worker.committee.worker target worker.id = .ok addresses ∧
      (Requested.addresses 1).workerToWorker = addresses.workerToWorker :=
  request_exact worker ∅ received (.synchronizer .request) (Requested.addresses 1).workerToWorker
    (.batchRequest [Requested.digest] (key 2)) (by decide +kernel)

end Synced.Commanded

end Worker

end Bullshark
