import Bullshark.Primary.Stored
import Bullshark.Primary.Sample

/-!
# Primary/OwnVote — the core does not kill itself over its own vote

Our own vote is counted when our header is processed, and the header is marked as being processed
and voted for.  The clean-up forgets both marks, but not that our vote is counted: a vote from the
network that then completes the quorum makes the core process its header again, count its own vote
a second time, and die (`kills_itself`).  Where the vote that completes a quorum arrives before the
round is collected, neither `expect` ever fails (`never_kills_itself`).
-/

namespace Bullshark

namespace Core

open Handler

variable [Crypto]

/-- A vote that completes the quorum of our header arrives before its round is collected. -/
def TimelyQuorum (core : Core) : Except Panic State → Event → Prop
  | .ok s, .vote v => core.sanitizeVote s v = .ok () → v.author ∉ s.votesAggregator.used →
      core.committee.quorumThreshold ≤ s.votesAggregator.weight + core.committee.stake v.author →
        s.gcRound ≤ s.currentHeader.round
  | _, _ => True

instance (core : Core) (r : Except Panic State) (e : Event) : Decidable (core.TimelyQuorum r e) :=
  match r, e with
  | .ok s, .vote v => inferInstanceAs (Decidable (core.sanitizeVote s v = .ok () →
      v.author ∉ s.votesAggregator.used →
      core.committee.quorumThreshold ≤ s.votesAggregator.weight + core.committee.stake v.author →
        s.gcRound ≤ s.currentHeader.round))
  | .ok _, .header _ => inferInstanceAs (Decidable True)
  | .ok _, .certificate _ => inferInstanceAs (Decidable True)
  | .ok _, .headerLoopback _ => inferInstanceAs (Decidable True)
  | .ok _, .certificateLoopback _ => inferInstanceAs (Decidable True)
  | .ok _, .ownHeader _ => inferInstanceAs (Decidable True)
  | .ok _, .batch _ _ => inferInstanceAs (Decidable True)
  | .ok _, .committed _ => inferInstanceAs (Decidable True)
  | .error _, _ => inferInstanceAs (Decidable True)

/-! ## When the handlers fail -/

omit [Crypto] in
/-- Neither of the two `expect`s failed. -/
def Calm (r : Except Fault Unit) : Prop :=
  r ≠ .error (.panic .ownVote) ∧ r ≠ .error (.panic .validCertificate)

omit [Crypto] in
theorem calm_ok : Calm (.ok ()) := ⟨by simp, by simp⟩

omit [Crypto] in
theorem calm_error (e : DagError) : Calm (.error (.error e)) := ⟨by simp, by simp⟩

section Results

variable {core : Core} {recur : Header → CoreM Unit} {header : Header} {certificate : Certificate}
  {vote : Vote} {state : State}

omit [Crypto] in
theorem result_expect {p : Panic} {x : CoreM Unit} (h : (x.run state).result = .ok ()) :
    ((expect p x).run state).result = .ok () := by
  rcases hx : x.run state with ⟨e | a, w, s'⟩
  · rw [hx] at h
    cases h
  · rw [expect, run_mapError_ok hx]

/-- A header in our name that is not voted for anew kills nothing; one of another author
neither. -/
theorem calm_processHeaderWith (h : header.author = core.name → core.Accepts state.store header →
      core.name ∈ state.votedAt header.round) :
    Calm ((core.processHeaderWith recur header).run state).result := by
  have hcases := @admitHeader_cases _ core header state
  generalize hr : (core.admitHeader header).run state = o at hcases
  cases hcases with
  | rejected e _ =>
    rw [processHeaderWith, run_bind_error hr]
    exact calm_error e
  | parentless _ _ =>
    rw [processHeaderWith, run_bind_silent hr]
    exact calm_ok
  | awaitsParents missing _ d hd hmissing =>
    rw [processHeaderWith, run_bind_ok hr]
    exact calm_ok
  | awaitsBatches _ _ =>
    rw [processHeaderWith, run_bind_ok hr]
    exact calm_ok
  | alreadyVoted _ _ _ =>
    rw [processHeaderWith, run_bind_silent hr]
    exact calm_ok
  | admitted hadm =>
    have hname : header.author ≠ core.name := fun hname => hadm.new (hname ▸ h hname hadm.accepts)
    rw [processHeaderWith, run_bind_silent hr, if_pos rfl, run_bind_ok (run_emit _), dispatchVoteWith,
      Vote.new_origin, if_neg hname]
    cases core.committee.primary header.author with
    | ok addresses => exact calm_ok
    | error _ => exact ⟨by simp [Outcome.after], by simp [Outcome.after]⟩

/-- A header without parents is put aside. -/
theorem result_processHeaderWith_of_parentless (h : header.parents.elems = []) :
    ((core.processHeaderWith recur header).run state).result = .ok () := by
  have hfind : Synchronizer.findParents core.committee (state.markProcessing header).store header
      = .ok ([], []) := by
    rw [Synchronizer.findParents, h]
    rfl
  have hadmit : (core.admitHeader header).run state
      = ⟨.ok false, [], state.markProcessing header⟩ := by
    rw [admitHeader, run_bind_silent (run_modify _), run_bind_silent (run_getParents hfind)]
    rfl
  rw [processHeaderWith, run_bind_silent hadmit]
  rfl

theorem result_processCertificateWith (h : ((recur certificate.header).run state).result = .ok ()) :
    ((core.processCertificateWith recur certificate).run state).result = .ok () := by
  by_cases hmem : certificate.header.id ∈ state.processingAt certificate.header.round
  · exact result_processCertificate_of_mem hmem
  · have hembedded := @run_processEmbedded_of_not_mem recur certificate state hmem
    rcases hr : (recur certificate.header).run state with ⟨e | a, w, s'⟩
    · rw [hr] at h
      cases h
    · rw [processCertificateWith, run_bind_ok (hembedded.trans hr)]
      exact result_deliver_accept certificate s'

theorem calm_processCertificateWith (h : Calm ((recur certificate.header).run state).result) :
    Calm ((core.processCertificateWith recur certificate).run state).result := by
  by_cases hmem : certificate.header.id ∈ state.processingAt certificate.header.round
  · rw [result_processCertificate_of_mem hmem]
    exact calm_ok
  · have hembedded := @run_processEmbedded_of_not_mem recur certificate state hmem
    rcases hr : (recur certificate.header).run state with ⟨e | a, w, s'⟩
    · rw [processCertificateWith, run_bind_error (hembedded.trans hr)]
      rwa [hr] at h
    · rw [result_processCertificateWith (by rw [hr])]
      exact calm_ok

/-- A vote of an authority not used before is counted; the certificate it may complete is that of
the current header. -/
theorem result_processVoteWith (hnew : vote.author ∉ state.votesAggregator.used)
    (h : core.committee.quorumThreshold
        ≤ state.votesAggregator.weight + core.committee.stake vote.author →
      ∀ aggregator, state.currentHeader.id ∈ state.processingAt state.currentHeader.round ∨
        ((recur state.currentHeader).run (state.setVotesAggregator aggregator)).result = .ok ()) :
    ((core.processVoteWith recur vote).run state).result = .ok () := by
  rw [processVoteWith, run_bind_silent run_get]
  rcases happend : state.votesAggregator.append vote core.committee state.currentHeader with
    e | ⟨aggregator, certificate⟩
  · exact absurd (VotesAggregator.append_error happend) hnew
  · rw [run_bind_silent (run_check_ok _)]
    dsimp only
    rw [run_bind_silent (run_modify _)]
    obtain ⟨-, -, -, ⟨hq, -, rfl⟩ | ⟨-, -, rfl⟩⟩ := VotesAggregator.append_eq_ok happend
    · dsimp only
      rw [run_bind_ok (run_emit _)]
      refine result_expect ?_
      rcases h hq aggregator with hmem | hok
      · exact result_processCertificate_of_mem hmem
      · exact result_processCertificateWith hok
    · rfl

theorem calm_processVoteWith (h : vote.author ∉ state.votesAggregator.used →
      core.committee.quorumThreshold
        ≤ state.votesAggregator.weight + core.committee.stake vote.author →
      ∀ aggregator, state.currentHeader.id ∈ state.processingAt state.currentHeader.round ∨
        ((recur state.currentHeader).run (state.setVotesAggregator aggregator)).result = .ok ()) :
    Calm ((core.processVoteWith recur vote).run state).result := by
  by_cases hused : vote.author ∈ state.votesAggregator.used
  · have happend : state.votesAggregator.append vote core.committee state.currentHeader
        = .error (.authorityReuse vote.author) := dif_pos hused
    rw [processVoteWith, run_bind_silent run_get, happend, run_bind_error (run_check_error _)]
    exact calm_error _
  · rw [result_processVoteWith hused (h hused)]
    exact calm_ok

/-- **Our own header is processed without a panic** while our vote is not counted yet. -/
theorem calm_processHeaderWith_own (hname : header.author = core.name)
    (hcur : state.currentHeader = header) (hused : core.name ∉ state.votesAggregator.used) :
    Calm ((core.processHeaderWith recur header).run state).result := by
  by_cases h : core.Accepts state.store header ∧ header.author ∉ state.votedAt header.round
  · have hcases := @admitHeader_cases _ core header state
    generalize hr : (core.admitHeader header).run state = o at hcases
    cases hcases with
    | admitted hadm =>
      rw [processHeaderWith, run_bind_silent hr, if_pos rfl, run_bind_ok (run_emit _),
        dispatchVoteWith, Vote.new_origin, if_pos hname]
      refine (congrArg Calm (result_expect (result_processVoteWith hused fun _ _ => Or.inl ?_))).mpr
        calm_ok
      change state.currentHeader.id
        ∈ (state.markProcessing header).processingAt state.currentHeader.round
      rw [hcur, State.processingAt_markProcessing, if_pos rfl]
      exact Finset.mem_insert_self _ _
    | rejected _ hacc => exact absurd h.1 hacc
    | parentless hacc _ => exact absurd h.1 hacc
    | awaitsParents _ hacc _ _ _ => exact absurd h.1 hacc
    | awaitsBatches _ hne => exact absurd hname hne
    | alreadyVoted _ _ hvoted => exact absurd hvoted h.2
  · refine calm_processHeaderWith fun _ hacc => ?_
    by_contra hvoted
    exact h ⟨hacc, hname ▸ hvoted⟩

end Results

/-! ## What is remembered of our own headers -/

/-- The header is on record as voted for, or its parents will never be accepted. -/
def Resolved (core : Core) (s : State) (x : Header) : Prop :=
  core.name ∈ s.votedAt x.round ∨ ¬ core.Accepts s.store x

/-- From the horizon on, our headers are resolved and the current one is being processed. -/
structure Settled (core : Core) (is : List Event) (s : State) : Prop where
  horizon : s.Horizon core.gcDepth
  resolved : ∀ x ∈ ownHeaders is, s.gcRound ≤ x.round → core.Resolved s x
  processing : s.currentHeader ≠ default → s.gcRound ≤ s.currentHeader.round →
    s.currentHeader.id ∈ s.processingAt s.currentHeader.round

variable {core : Core} {is : List Event} {e : Event} {s₀ s s' : State} {log w : List Emission}
  {x : Header}

/-- No effect unsettles a header of ours. -/
theorem Resolved.trace (hrun : core.SuppliedRun (is ++ [e]))
    (h₀ : core.Stored is s₀ (core.machine.outputs is))
    (ht : Trace (core.TurnEffect s₀ e) s log w s') (hs : core.Stored (is ++ [e]) s log)
    (hx : x ∈ ownHeaders (is ++ [e])) (h : core.Resolved s x) : core.Resolved s' x := by
  refine (ht.invariant (P := fun s log => core.Stored (is ++ [e]) s log ∧ core.Resolved s x)
    (fun s log w s' hP hE => ?_) ⟨hs, h⟩).2
  obtain ⟨hs, h⟩ := hP
  have hs' := Stored.turnEffect hrun h₀ hs hE
  refine ⟨hs', h.imp (fun hvoted => (hE.subset _).1 hvoted) fun hno hacc => hno ?_⟩
  rcases hE.store_eq with heq | ⟨d, v, heq⟩
  · exact heq ▸ hacc
  · refine Accepts.of_write hrun.noCollision hs.store (hs'.store d v ?_) (hs.present x hx) (heq ▸ hacc)
    rw [heq, AList.lookup_insert_eq, if_pos rfl]

/-- A header of ours that is processed is marked, and voted for if its parents are accepted. -/
theorem processHeader_marks (hname : x.author = core.name) :
    x.id ∈ ((core.processHeader x).run s).state.processingAt x.round ∧
      (core.Accepts s.store x →
        core.name ∈ ((core.processHeader x).run s).state.votedAt x.round) := by
  have hmark : x.id ∈ (s.markProcessing x).processingAt x.round := by
    rw [State.processingAt_markProcessing, if_pos rfl]
    exact Finset.mem_insert_self _ _
  have hcases := @admitHeader_cases _ core x s
  generalize hr : (core.admitHeader x).run s = o at hcases
  cases hcases with
  | rejected e h =>
    rw [processHeader, processHeaderWith, run_bind_error hr]
    exact ⟨hmark, fun hacc => absurd hacc h⟩
  | parentless h _ =>
    rw [processHeader, processHeaderWith, run_bind_silent hr]
    exact ⟨hmark, fun hacc => absurd hacc h⟩
  | awaitsParents _ h _ _ _ =>
    rw [processHeader, processHeaderWith, run_bind_ok hr]
    exact ⟨hmark, fun hacc => absurd hacc h⟩
  | awaitsBatches _ hne => exact absurd hname hne
  | alreadyVoted _ _ hvoted =>
    rw [processHeader, processHeaderWith, run_bind_silent hr]
    exact ⟨hmark, fun _ => hname ▸ hvoted⟩
  | admitted hadm =>
    rw [processHeader, processHeaderWith, run_bind_silent hr, if_pos rfl, run_bind_ok (run_emit _)]
    have htrace : Traces (Effect core ⟨s.store, fun _ => True, fun _ => True, fun _ => True,
          fun _ => True, fun _ => True⟩)
        (core.dispatchVoteWith (core.processHeaderWith fun _ => pure ()) x
          (Vote.new x core.name core.requestSignature))
        (((s.markProcessing x).write (.digest x.id) (.header x)).markVoted x) [] :=
      traces_dispatchVoteWith (fun _ _ _ hh => traces_processHeaderWith
        (fun _ _ _ _ => traces_pure _) hh) (fun _ => Or.inl trivial)
        ((OnlyHeaders.refl s.store).insert _ _)
    refine ⟨(subset_of_trace htrace _).2 hmark, fun _ => (subset_of_trace htrace _).1 ?_⟩
    rw [State.votedAt_markVoted, if_pos rfl, ← hname]
    exact Finset.mem_insert_self _ _

theorem Settled.cleanUp (h : core.Settled is s) : core.Settled is (s.cleanUp core.gcDepth) where
  horizon := h.horizon.cleanUp.1
  resolved x hx hround := by
    rw [Resolved, State.votedAt_cleanUp hround, (State.cleanUp_eq s _).1]
    exact h.resolved x hx (h.horizon.cleanUp.2.trans hround)
  processing hne hround := by
    rw [State.processingAt_cleanUp hround]
    rw [(State.cleanUp_eq s _).2.1] at hne hround ⊢
    exact h.processing hne (h.horizon.cleanUp.2.trans hround)

omit [Crypto] in
/-- An event other than a header of the `Proposer` adds none. -/
theorem ownHeaders_of_ne (hown : ∀ h, e ≠ .ownHeader h) (hx : x ∈ ownHeaders (is ++ [e])) :
    x ∈ ownHeaders is := by
  rcases List.mem_append.mp (mem_ownHeaders.mp hx) with hx | hx
  · exact mem_ownHeaders.mpr hx
  · exact absurd (List.mem_singleton.mp hx).symm (hown x)

/-- A turn of the main loop that gets no header of ours. -/
theorem Settled.effects (hrun : core.SuppliedRun (is ++ [e]))
    (h₀ : core.Stored is s₀ (core.machine.outputs is)) (h : core.Settled is s₀)
    (hown : ∀ x, e ≠ .ownHeader x)
    (ht : Trace (core.TurnEffect s₀ e) s₀ (core.machine.outputs is) w s') :
    core.Settled (is ++ [e]) s' := by
  have hsame := sameRounds_of_trace ht
  have hstart := (Stored.invariant core).mono hrun h₀
  refine ⟨?_, fun x hx hround => ?_, fun hne hround => ?_⟩
  · rw [State.Horizon, hsame.gcRound, hsame.consensusRound]
    exact h.horizon
  · rw [hsame.gcRound] at hround
    exact (h.resolved x (ownHeaders_of_ne hown hx) hround).trace hrun h₀ ht hstart hx
  · rw [hsame.currentHeader] at hne hround ⊢
    rw [hsame.gcRound] at hround
    exact (subset_of_trace ht _).2 (h.processing hne hround)

/-- A turn of the main loop that gets a header of ours. -/
theorem Settled.propose (hrun : core.SuppliedRun (is ++ [.ownHeader x]))
    (hs₀ : core.machine.state is = .ok s₀) (h₀ : core.Stored is s₀ (core.machine.outputs is))
    (h : core.Settled is s₀) : core.Settled (is ++ [.ownHeader x])
      ((core.processHeader x).run (proposed s₀ x)).state := by
  obtain ⟨hname, -, -⟩ := hrun.admissible is _ List.prefix_rfl
  have hstart := (Stored.invariant core).propose hs₀ hrun h₀
  have ht : Traces (core.TurnEffect s₀ (.ownHeader x)) (core.processHeader x) (proposed s₀ x)
    (core.machine.outputs is ++ [.broadcastHeader core.othersAddresses x]) :=
    traces_processHeader ⟨Or.inl ⟨rfl, id⟩, .refl _⟩
  have hsame := sameRounds_of_trace ht
  obtain ⟨hmark, hvote⟩ := @processHeader_marks _ core (proposed s₀ x) x hname
  refine ⟨?_, fun y hy hround => ?_, fun _ _ => ?_⟩
  · rw [State.Horizon, hsame.gcRound, hsame.consensusRound]
    exact h.horizon
  · rw [hsame.gcRound] at hround
    rcases List.mem_append.mp (mem_ownHeaders.mp hy) with hold | hlast
    · exact Resolved.trace hrun h₀ ht hstart hy (h.resolved y (mem_ownHeaders.mpr hold) hround)
    · cases List.mem_singleton.mp hlast
      by_cases hacc : core.Accepts (proposed s₀ x).store x
      · exact Or.inl (hvote hacc)
      · exact Resolved.trace hrun h₀ ht hstart hy (Or.inr hacc)
  · rw [hsame.currentHeader]
    exact hmark

/-- A batch does not change the verdict on any header. -/
theorem accepts_of_batch {store : Store} {d : Digest} {worker : WorkerId}
    (h : core.Accepts (store.insert (.batch d worker) .empty) x) : core.Accepts store x := by
  refine h.of_found fun y _ c hc => ⟨c, hc.imp_right fun hs => ⟨hs.1, ?_⟩, rfl, rfl⟩
  have := hs.2
  rwa [AList.lookup_insert_eq, if_neg (by simp)] at this

/-- One event. -/
theorem Settled.step (hrun : core.SuppliedRun (is ++ [e])) (hs₀ : core.machine.state is = .ok s₀)
    (h₀ : core.Stored is s₀ (core.machine.outputs is)) (h : core.Settled is s₀)
    (hs : (core.step s₀ e).1 = .ok s) : core.Settled (is ++ [e]) s := by
  by_cases hown : ∃ x, e = .ownHeader x
  · obtain ⟨x, rfl⟩ := hown
    rw [conclude_fst hs]
    exact (h.propose hrun hs₀ h₀).cleanUp
  · have hown : ∀ x, e ≠ .ownHeader x := fun x hx => hown ⟨x, hx⟩
    obtain ⟨s', hturn, hnext⟩ := @turn_step _ core s₀ e (core.machine.outputs is)
    generalize (core.step s₀ e).2 = w at hturn
    have hs' : core.Settled (is ++ [e]) s' := by
      cases hturn with
      | effects _ ht => exact h.effects hrun h₀ hown ht
      | propose _ => exact absurd rfl (hown _)
      | batch d worker =>
        refine ⟨h.horizon, fun x hx hround => ?_, h.processing⟩
        exact (h.resolved x (ownHeaders_of_ne hown hx) hround).imp_right
          fun hno hacc => hno (accepts_of_batch hacc)
      | committed c =>
        refine ⟨h.horizon.trans (Nat.sub_le_sub_right (le_max_left _ _) _), fun x hx hround => ?_,
          h.processing⟩
        exact h.resolved x (ownHeaders_of_ne hown hx) hround
    rcases hnext s hs with rfl | rfl
    · exact hs'
    · exact hs'.cleanUp

/-- **In every run, what the core remembers of our own headers is enough.** -/
theorem settled_run (hrun : core.SuppliedRun is) (hs : core.machine.state is = .ok s) :
    core.Settled is s := by
  induction is using List.reverseRecOn generalizing s with
  | nil =>
    cases hs
    exact ⟨Nat.zero_le _, by simp [ownHeaders], fun hne => absurd rfl hne⟩
  | append_singleton is e ih =>
    rw [Mealy.state_snoc] at hs
    cases hcur : core.machine.state is with
    | error p =>
      rw [hcur] at hs
      cases hs
    | ok s₀ =>
      rw [hcur] at hs
      have hpre : core.SuppliedRun is := hrun.of_prefix (List.prefix_append _ _)
      have h₀ := (Stored.invariant core).alive (fun pre e' hp => hpre.of_prefix hp) hcur
      exact (ih hpre hcur).step hrun hcur h₀ hs

/-! ## The two `expect`s -/

omit [Crypto] in
theorem conclude_ne {o : Outcome State Emission Fault Unit} (h : Calm o.result) :
    (core.conclude o).1 ≠ .error .ownVote ∧ (core.conclude o).1 ≠ .error .validCertificate := by
  rw [conclude]
  split
  · next p hp =>
    rw [hp] at h
    exact ⟨fun heq => h.1 (by cases heq; rfl), fun heq => h.2 (by cases heq; rfl)⟩
  · exact ⟨by simp, by simp⟩
  · exact ⟨by simp, by simp⟩

omit [Crypto] in
theorem calm_check {f : State → Except DagError Unit} {y : CoreM Unit}
    (hy : f s = .ok () → Calm (y.run s).result) :
    Calm ((do check (f (← get)); y : CoreM Unit).run s).result := by
  rw [run_bind_silent run_get]
  cases hf : f s with
  | error e =>
    rw [run_bind_error (run_check_error e)]
    exact calm_error e
  | ok _ =>
    rw [run_bind_silent (run_check_ok _)]
    exact hy hf

/-- A header the network sends, alone or in a certificate. -/
theorem calm_of_hands (hrun : core.SuppliedRun (is ++ [e]))
    (hst : core.Stored is s (core.machine.outputs is)) (hset : core.Settled is s)
    (hown : ∀ x, e ≠ .ownHeader x) (hx : core.HandsHeader s e x) (hround : s.gcRound ≤ x.round) :
    Calm ((core.processHeader x).run s).result := by
  refine calm_processHeaderWith fun hname hacc => ?_
  rcases hst.hands hrun hx hname with hmem | hnil
  · exact (hset.resolved x (ownHeaders_of_ne hown hmem) hround).resolve_right fun hno => hno hacc
  · exact absurd hnil hacc.parents_ne_nil

/-- **No event makes either `expect` fail**, a vote that completes a quorum too late apart. -/
theorem step_ne (hrun : core.SuppliedRun (is ++ [e]))
    (hst : core.Stored is s (core.machine.outputs is)) (hset : core.Settled is s)
    (htimely : core.TimelyQuorum (.ok s) e) :
    (core.step s e).1 ≠ .error .ownVote ∧ (core.step s e).1 ≠ .error .validCertificate := by
  have hadm := hrun.admissible is e List.prefix_rfl
  cases e with
  | header x =>
    refine conclude_ne (calm_check fun hs => ?_)
    exact calm_of_hands hrun hst hset (by simp) ⟨rfl, hs⟩ (sanitizeHeader_eq_ok hs).1
  | vote v =>
    refine conclude_ne (calm_check fun hs => calm_processVoteWith fun hused hq _ => ?_)
    rcases hst.current with hdefault | hown
    · rw [hdefault]
      exact Or.inr (result_processHeaderWith_of_parentless rfl)
    · refine Or.inl (hset.processing (fun hdefault => ?_) (htimely hs hused hq))
      have := (hrun.admissible.own (ownHeaders_mono hown)).2
      rw [hdefault] at this
      exact absurd this (by decide)
  | certificate c =>
    refine conclude_ne (calm_check fun hs => calm_processCertificateWith ?_)
    exact calm_of_hands hrun hst hset (by simp) ⟨rfl, hs⟩ (sanitizeCertificate_eq_ok hs).1
  | headerLoopback x =>
    obtain ⟨e, he, heq⟩ := List.mem_filterMap.mp hadm
    have hname := (hst.waiting e he x (by cases e <;> cases heq <;> rfl)).2
    exact conclude_ne (calm_processHeaderWith fun h => absurd h hname)
  | certificateLoopback c =>
    have hname := (hst.waiting _ hadm _ rfl).2
    exact conclude_ne (calm_processCertificateWith (calm_processHeaderWith fun h => absurd h hname))
  | ownHeader x =>
    refine conclude_ne ?_
    rw [handle, processOwnHeader, run_bind_silent (run_modify _), run_bind_ok (run_emit _)]
    exact calm_processHeaderWith_own hadm.1 rfl (Finset.notMem_empty _)
  | batch d worker => exact ⟨by simp [Core.step], by simp [Core.step]⟩
  | committed c => exact ⟨by simp [Core.step], by simp [Core.step]⟩

/-- **The core does not kill itself**: in every run in which a vote that completes the quorum of
our header arrives before its round is garbage collected, neither `expect` fails. -/
theorem never_kills_itself (core : Core) (is : List Event) (hrun : core.SuppliedRun is)
    (htimely : core.machine.Along core.TimelyQuorum is) :
    core.machine.state is ≠ .error .ownVote ∧ core.machine.state is ≠ .error .validCertificate := by
  induction is using List.reverseRecOn with
  | nil => exact ⟨fun h => (by cases h), fun h => (by cases h)⟩
  | append_singleton is e ih =>
    have hpre : core.SuppliedRun is := hrun.of_prefix (List.prefix_append _ _)
    rw [Mealy.state_snoc]
    cases hcur : core.machine.state is with
    | error p =>
      rw [hcur] at ih
      exact ih hpre (htimely.of_prefix (List.prefix_append _ _))
    | ok s =>
      have h₀ := (Stored.invariant core).alive (fun pre e' hp => hpre.of_prefix hp) hcur
      exact step_ne hrun h₀ (settled_run hpre hcur) (hcur ▸ htimely.last)

end Core

namespace Core.LateQuorum

open Sample

/-- The core of the first of four authorities. -/
def core : Core := ⟨key 1, committee4, 50, fun digest => sign digest (key 1)⟩

/-- Its header for round one. -/
def own : Header :=
  header (key 1) 1 .empty ((Certificate.genesis committee4).map Certificate.digest)

/-- The vote of another authority for it. -/
def voteOf (k : PublicKey) : Vote := Vote.new own k fun digest => sign digest k

/-- A certificate consensus orders at round 52. -/
def ordered : Certificate := certificate committee4 (key 3) 52 []

/-- The vote that completes the quorum arrives once round one is garbage collected. -/
def late : List Event :=
  [.ownHeader own, .committed ordered, .vote (voteOf (key 2)), .vote (voteOf (key 3))]

/-- It arrives before. -/
def early : List Event :=
  [.ownHeader own, .vote (voteOf (key 2)), .vote (voteOf (key 3)), .committed ordered,
    .vote (voteOf (key 4))]

/-- The panic that ended the task. -/
def death : Except Panic State → Option Panic
  | .error p => some p
  | .ok _ => none

theorem eq_error_of_death {r : Except Panic State} {p : Panic} (h : death r = some p) :
    r = .error p := by
  cases r with
  | error q =>
    cases h
    rfl
  | ok s => cases h

set_option maxRecDepth 100000 in
theorem suppliedRun_late_early :
    (core.SuppliedRun late ∧ death (core.machine.state late) = some .ownVote) ∧
      core.SuppliedRun early ∧ core.machine.Along core.TimelyQuorum early := by
  decide +kernel

/-- **The core dies of its own vote.** -/
theorem kills_itself : core.name ∈ committee4.authorities.keys ∧ core.SuppliedRun late ∧
    core.machine.state late = .error .ownVote :=
  ⟨by decide, suppliedRun_late_early.1.1, eq_error_of_death suppliedRun_late_early.1.2⟩

theorem suppliedRun_early :
    core.SuppliedRun early ∧ core.machine.Along core.TimelyQuorum early :=
  suppliedRun_late_early.2

theorem never_kills_itself_early :
    (core.SuppliedRun early ∧ core.machine.Along core.TimelyQuorum early) ∧
      core.machine.state early ≠ .error .ownVote ∧
      core.machine.state early ≠ .error .validCertificate :=
  ⟨suppliedRun_early, never_kills_itself core early suppliedRun_early.1 suppliedRun_early.2⟩

end Core.LateQuorum

end Bullshark
