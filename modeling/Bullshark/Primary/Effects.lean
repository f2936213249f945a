import Bullshark.Primary.Handlers

/-!
# Primary/Effects — the handlers as sequences of elementary effects

Whatever a handler does is a sequence of the ten effects of `Effect`, each with the condition under
which the code has it.  The header processed is one the step was given or the current one; the
certificate is one the step was given or one assembled before; the vote counted is one received or
our own.  Every invariant of the core is proved effect by effect.
-/

namespace Bullshark

namespace Core

open Handler

/-- What a step is given, and the store it starts with.  `admitted` and `cleared` also say what the
state it starts in makes of it: the header may be voted for, the certificate may be accepted. -/
structure Given where
  store : Store
  header : Header → Prop
  admitted : Header → Prop
  certificate : Certificate → Prop
  cleared : Certificate → Prop
  vote : Vote → Prop

/-- A header the step is given and may vote for. -/
def Given.votable (I : Given) (h : Header) : Prop := I.header h ∧ I.admitted h

/-- A certificate the step is given and may accept. -/
def Given.acceptable (I : Given) (c : Certificate) : Prop := I.certificate c ∧ I.cleared c

variable [Crypto]

/-- The header is already being processed and the ancestors are there, or the header passes the
checks on its parents. -/
def Clears (core : Core) (state : State) (c : Certificate) : Prop :=
  (c.header.id ∈ state.processingAt c.header.round ∧
      Synchronizer.hasAncestors core.committee state.store c = true) ∨
    c.header.parents.elems = [] ∨ core.Accepts state.store c.header

/-- A vote of our own, on a header of our own that is being processed. -/
def OwnVote (core : Core) (H : Header → Prop) (state : State) (vote : Vote) : Prop :=
  ∃ h, (H h ∨ h = state.currentHeader) ∧ h.parents.elems ≠ [] ∧ h.author = core.name ∧
    vote = Vote.new h core.name core.requestSignature

/-- The elementary effects of the handlers: `Effect core I s log w s'` takes `s` to `s'` and emits
`w`, where `log` was emitted before. -/
inductive Effect (core : Core) (I : Given) :
    State → List Emission → List Emission → State → Prop
  | processing {s log h} (hh : I.header h ∨ h = s.currentHeader) :
      Effect core I s log [] (s.markProcessing h)
  | awaitParents {s log h d} (missing : List Digest) (hh : I.header h ∨ h = s.currentHeader)
      (hd : d ∈ h.parents) (hmissing : Synchronizer.has core.committee s.store d = false) :
      Effect core I s log [.syncParents missing h] s
  | awaitBatches {s log h} (missing : List (Digest × WorkerId))
      (hh : I.header h ∨ h = s.currentHeader) (hname : h.author ≠ core.name) :
      Effect core I s log [.syncBatches missing h] s
  | storeHeader {s log h} (hh : I.header h ∨ h = s.currentHeader)
      (hacc : core.Accepts s.store h) :
      Effect core I s log [] (s.write (.digest h.id) (.header h))
  | vote {s log h} (hh : I.votable h ∨ h = s.currentHeader)
      (haccepts : core.Accepts I.store h)
      (hbatches : Synchronizer.missingBatches core.name I.store h = [])
      (hnew : h.author ∉ s.votedAt h.round) : Effect core I s log
        [.created (Vote.new h core.name core.requestSignature)] (s.markVoted h)
  | sendVote {s log} (address : SocketAddr) (v : Vote) : Effect core I s log [.send address v] s
  | count {s log v aggregator} (hv : I.vote v ∨ core.OwnVote I.votable s v)
      (happend : s.votesAggregator.append v core.committee s.currentHeader
        = .ok (aggregator, none)) : Effect core I s log [] (s.setVotesAggregator aggregator)
  | certify {s log v aggregator c} (hv : I.vote v ∨ core.OwnVote I.votable s v)
      (happend : s.votesAggregator.append v core.committee s.currentHeader
        = .ok (aggregator, some c)) :
      Effect core I s log [.assembled core.othersAddresses c] (s.setVotesAggregator aggregator)
  | awaitAncestors {s log c d} (hc : I.certificate c ∨ .assembled core.othersAddresses c ∈ log)
      (hd : d ∈ c.header.parents) (hmissing : Synchronizer.has core.committee s.store d = false) :
      Effect core I s log [.syncCertificate c] s
  | accept {s log c}
      (hc : I.acceptable c ∨ .assembled core.othersAddresses c ∈ log) :
      Effect core I s log (handedOut ((s.aggregatorAt c.round).append c core.committee).2
        c.round ++ [.consensus c]) (core.accepted c s)

variable {core : Core} {I : Given} {recur : Header → CoreM Unit} {s s' : State}
  {log w : List Emission}

/-- No handler but that of our own headers changes the current header, and none the two rounds. -/
structure SameRounds (s s' : State) : Prop where
  currentHeader : s'.currentHeader = s.currentHeader
  gcRound : s'.gcRound = s.gcRound
  consensusRound : s'.consensusRound = s.consensusRound

omit [Crypto] in
theorem SameRounds.refl (s : State) : SameRounds s s := ⟨rfl, rfl, rfl⟩

omit [Crypto] in
theorem SameRounds.trans {s s' s'' : State} (h : SameRounds s s') (h' : SameRounds s' s'') :
    SameRounds s s'' :=
  ⟨h'.1.trans h.1, h'.2.trans h.2, h'.3.trans h.3⟩

theorem Effect.sameRounds (h : Effect core I s log w s') : SameRounds s s' := by
  cases h <;> exact ⟨rfl, rfl, rfl⟩

theorem sameRounds_of_trace (h : Trace (Effect core I) s log w s') : SameRounds s s' :=
  h.invariant (P := fun s' _ => SameRounds s s')
    (fun _ _ _ _ hs hE => hs.trans hE.sameRounds) (.refl s)

/-- No effect forgets a vote or a header being processed. -/
theorem Effect.subset (h : Effect core I s log w s') (r : ℕ) :
    s.votedAt r ⊆ s'.votedAt r ∧ s.processingAt r ⊆ s'.processingAt r := by
  cases h with
  | @processing x _ =>
    rw [State.processingAt_markProcessing]
    refine ⟨fun _ h => h, ?_⟩
    split
    · exact Finset.subset_insert _ _
    · exact fun _ h => h
  | @vote x _ _ _ =>
    rw [State.votedAt_markVoted]
    refine ⟨?_, fun _ h => h⟩
    split
    · exact Finset.subset_insert _ _
    · exact fun _ h => h
  | _ => exact ⟨fun _ h => h, fun _ h => h⟩

theorem subset_of_trace (h : Trace (Effect core I) s log w s') (r : ℕ) :
    s.votedAt r ⊆ s'.votedAt r ∧ s.processingAt r ⊆ s'.processingAt r :=
  h.invariant (P := fun s' _ => s.votedAt r ⊆ s'.votedAt r ∧ s.processingAt r ⊆ s'.processingAt r)
    (fun _ _ _ _ hs hE => ⟨hs.1.trans (hE.subset r).1, hs.2.trans (hE.subset r).2⟩)
    ⟨fun _ h => h, fun _ h => h⟩

/-- An effect writes at most one header or certificate. -/
theorem Effect.store_eq (h : Effect core I s log w s') :
    s'.store = s.store ∨ ∃ d v, s'.store = s.store.insert (.digest d) v := by
  cases h with
  | storeHeader _ _ => exact Or.inr ⟨_, _, rfl⟩
  | accept _ => exact Or.inr ⟨_, _, rfl⟩
  | _ => exact Or.inl rfl

/-- The header a message to a waiter, or an assembled certificate, is about. -/
def Emission.pending : Emission → Option Header
  | .syncParents _ h => some h
  | .syncBatches _ h => some h
  | .syncCertificate c => some c.header
  | .assembled _ c => some c.header
  | _ => none

/-- A certificate that is assembled is on the current header. -/
theorem Effect.header_of_assembled (h : Effect core I s log w s') {a : List SocketAddr}
    {c : Certificate} (he : .assembled a c ∈ w) : c.header = s.currentHeader := by
  cases h with
  | certify _ happend =>
    cases List.mem_singleton.mp he
    exact VotesAggregator.header_of_append happend
  | accept _ =>
    obtain ⟨ps, hps⟩ | hps := mem_accepted he <;> cases hps
  | awaitParents _ _ _ _ => cases List.mem_singleton.mp he
  | awaitBatches _ _ _ => cases List.mem_singleton.mp he
  | awaitAncestors _ _ _ => cases List.mem_singleton.mp he
  | vote _ _ _ _ => cases List.mem_singleton.mp he
  | sendVote _ _ => cases List.mem_singleton.mp he
  | _ => cases he

/-- A certificate that is suspended was given, or assembled before. -/
theorem Effect.source_of_syncCertificate (h : Effect core I s log w s') {c : Certificate}
    (he : .syncCertificate c ∈ w) : I.certificate c ∨ .assembled core.othersAddresses c ∈ log := by
  cases h with
  | awaitAncestors hc _ _ =>
    cases List.mem_singleton.mp he
    exact hc
  | accept _ =>
    obtain ⟨ps, hps⟩ | hps := mem_accepted he <;> cases hps
  | awaitParents _ _ _ _ => cases List.mem_singleton.mp he
  | awaitBatches _ _ _ => cases List.mem_singleton.mp he
  | certify _ _ => cases List.mem_singleton.mp he
  | vote _ _ _ _ => cases List.mem_singleton.mp he
  | sendVote _ _ => cases List.mem_singleton.mp he
  | _ => cases he

/-- **Where a header on its way comes from**: it was given, is the current one, or was on its way
before. -/
theorem Effect.pending (hC : ∀ c, I.certificate c → I.header c.header)
    (h : Effect core I s log w s') {e : Emission} (he : e ∈ w) {x : Header}
    (hx : e.pending = some x) :
    I.header x ∨ x = s.currentHeader ∨ ∃ e' ∈ log, e'.pending = some x := by
  have hsingle : ∀ {m : Emission} {y : Header}, e ∈ [m] → m.pending = some y → x = y := by
    intro m y hm hy
    rw [List.mem_singleton.mp hm, hy] at hx
    exact (Option.some.inj hx).symm
  cases h with
  | awaitParents _ hh _ _ => exact hsingle he rfl ▸ hh.imp_right Or.inl
  | awaitBatches _ hh _ => exact hsingle he rfl ▸ hh.imp_right Or.inl
  | awaitAncestors hc _ _ =>
    rw [hsingle he rfl]
    exact hc.imp (hC _) fun hc => Or.inr ⟨_, hc, rfl⟩
  | certify _ happend =>
    rw [hsingle he rfl]
    exact Or.inr (Or.inl (VotesAggregator.header_of_append happend))
  | accept _ =>
    rcases List.mem_append.mp he with he | he
    · obtain ⟨ps, rfl⟩ := mem_handedOut he
      cases hx
    · rw [List.mem_singleton.mp he] at hx
      cases hx
  | vote _ _ _ _ =>
    rw [List.mem_singleton.mp he] at hx
    cases hx
  | sendVote _ _ =>
    rw [List.mem_singleton.mp he] at hx
    cases hx
  | _ => cases he

/-! ## The handlers -/

/-- The header handed to `process_header` in the state `s`, before any certificate is stored. -/
structure Hands (core : Core) (I : Given) (s : State) (h : Header) : Prop where
  origin : (I.header h ∧ (core.Admits s h → I.admitted h)) ∨ h = s.currentHeader
  store : OnlyHeaders I.store s.store

theorem Hands.header {h : Header} (hh : core.Hands I s h) : I.header h ∨ h = s.currentHeader :=
  hh.origin.imp_left And.left

theorem traces_acceptCertificate {c : Certificate}
    (hc : I.acceptable c ∨ .assembled core.othersAddresses c ∈ log) :
    Traces (Effect core I) (core.acceptCertificate c) s log :=
  .of_run run_acceptCertificate (.single (.accept hc))

theorem traces_deliverCertificate {c : Certificate}
    (hc : I.certificate c ∨ .assembled core.othersAddresses c ∈ log) :
    Traces (Effect core I) (core.deliverCertificate c) s log := by
  refine .of_run run_deliverCertificate ?_
  split
  · exact .nil
  · next h =>
    obtain ⟨d, hd, hmissing⟩ : ∃ d ∈ c.header.parents.elems,
        Synchronizer.has core.committee s.store d = false := by
      simpa [Synchronizer.hasAncestors] using h
    exact .single (.awaitAncestors hc hd hmissing)

section Recursion

variable (hrecur : ∀ h s log, core.Hands I s h → Traces (Effect core I) (recur h) s log)

include hrecur

theorem traces_processCertificateWith {c : Certificate}
    (hc : I.certificate c ∧ (∀ w s₁, (processEmbeddedWith recur c).run s = ⟨.ok (), w, s₁⟩ →
      Synchronizer.hasAncestors core.committee s₁.store c = true → I.cleared c) ∨
        .assembled core.othersAddresses c ∈ log)
    (hh : core.Hands I s c.header) :
    Traces (Effect core I) (core.processCertificateWith recur c) s log := by
  have hembedded : Traces (Effect core I) (processEmbeddedWith recur c) s log := by
    by_cases hmem : c.header.id ∈ s.processingAt c.header.round
    · exact .of_run (run_processEmbedded_of_mem hmem) .nil
    · exact .of_run (run_processEmbedded_of_not_mem hmem) (hrecur _ _ _ hh)
  refine traces_bind hembedded fun _ w s₁ hrun => ?_
  refine traces_bind (traces_deliverCertificate (hc.imp And.left (List.mem_append_left _)))
    fun b w' s₂ hdeliver => ?_
  cases b with
  | false => exact traces_pure _
  | true =>
    refine traces_acceptCertificate (hc.imp (fun h => ⟨h.1, h.2 w s₁ hrun ?_⟩) fun h =>
      List.mem_append_left _ (List.mem_append_left _ h))
    rw [run_deliverCertificate] at hdeliver
    split at hdeliver
    · next hancestors => exact hancestors
    · cases hdeliver

theorem traces_processVoteWith {v : Vote} (hv : I.vote v ∨ core.OwnVote I.votable s v)
    (hstore : OnlyHeaders I.store s.store) :
    Traces (Effect core I) (core.processVoteWith recur v) s log := by
  refine .of_run (run_bind_silent run_get) ?_
  rcases happend : s.votesAggregator.append v core.committee s.currentHeader with
    e | ⟨aggregator, _ | c⟩
  · rw [run_bind_error (run_check_error e)]
    exact .nil
  · rw [run_bind_silent (run_check_ok _)]
    exact .single (.count hv happend)
  · rw [run_bind_silent (run_check_ok _)]
    dsimp only
    rw [run_bind_silent (run_modify _), run_bind_ok (run_emit _)]
    have hheader : c.header = s.currentHeader := VotesAggregator.header_of_append happend
    refine (Trace.single (.certify hv happend)).trans (traces_mapError ?_)
    exact traces_processCertificateWith hrecur (Or.inr (by simp)) ⟨Or.inr hheader, hstore⟩

theorem traces_dispatchVoteWith {h : Header} {v : Vote}
    (hv : v.origin = core.name → I.vote v ∨ core.OwnVote I.votable s v)
    (hstore : OnlyHeaders I.store s.store) :
    Traces (Effect core I) (core.dispatchVoteWith recur h v) s log := by
  rw [dispatchVoteWith]
  split
  · next hname => exact traces_mapError (traces_processVoteWith hrecur (hv hname) hstore)
  · cases core.committee.primary h.author with
    | ok addresses => exact traces_emit (.sendVote _ _)
    | error _ => exact .nil

theorem traces_processHeaderWith {h : Header} (hh : core.Hands I s h) :
    Traces (Effect core I) (core.processHeaderWith recur h) s log := by
  have hcases := @admitHeader_cases _ core h s
  generalize hr : (core.admitHeader h).run s = o at hcases
  have hmark : Trace (Effect core I) s log [] (s.markProcessing h) := .single (.processing hh.header)
  cases hcases with
  | rejected e _ => exact .of_run (run_bind_error hr) hmark
  | parentless _ _ => exact .of_run (run_bind_silent hr) hmark
  | awaitsParents missing _ d hd hmissing =>
    exact .of_run (run_bind_ok hr) (hmark.snoc (.awaitParents missing hh.header hd hmissing))
  | awaitsBatches _ hname =>
    exact .of_run (run_bind_ok hr) (hmark.snoc (.awaitBatches _ hh.header hname))
  | alreadyVoted hacc _ _ =>
    exact .of_run (run_bind_silent hr) (hmark.snoc (.storeHeader hh.header hacc))
  | admitted hadm =>
    refine .of_run (run_bind_silent hr) ?_
    rw [if_pos rfl, run_bind_ok (run_emit _)]
    have hvoted : I.votable h ∨ h = s.currentHeader :=
      hh.origin.imp_left fun h => ⟨h.1, h.2 hadm⟩
    have hbatches : Synchronizer.missingBatches core.name I.store h = [] :=
      (hh.store.missingBatches core.name).trans hadm.batches
    refine ((hmark.snoc (.storeHeader hh.header hadm.accepts)).snoc
      (.vote (h := h) hvoted (hh.store.accepts hadm.accepts) hbatches hadm.new)).trans ?_
    exact traces_dispatchVoteWith hrecur (fun hname =>
      Or.inr ⟨h, hvoted, hadm.accepts.parents_ne_nil, hname, rfl⟩) (hh.store.insert _ _)

end Recursion

theorem traces_processHeader {h : Header} (hh : core.Hands I s h) :
    Traces (Effect core I) (core.processHeader h) s log :=
  traces_processHeaderWith (fun _ _ _ hh' => traces_processHeaderWith (fun _ _ _ _ => traces_pure _)
    hh') hh

theorem traces_processVote {v : Vote} (hv : I.vote v ∨ core.OwnVote I.votable s v)
    (hstore : OnlyHeaders I.store s.store) :
    Traces (Effect core I) (core.processVote v) s log :=
  traces_processVoteWith (fun _ _ _ hh => traces_processHeader hh) hv hstore

/-- A certificate whose header was processed without an error, and whose ancestors are there then,
was cleared before. -/
theorem clears_of_processEmbedded {c : Certificate}
    (hrun : (processEmbeddedWith core.processHeader c).run s = ⟨.ok (), w, s'⟩)
    (hancestors : Synchronizer.hasAncestors core.committee s'.store c = true) :
    core.Clears s c := by
  by_cases hmem : c.header.id ∈ s.processingAt c.header.round
  · rw [run_processEmbedded_of_mem hmem] at hrun
    cases hrun
    exact Or.inl ⟨hmem, hancestors⟩
  · rw [run_processEmbedded_of_not_mem hmem] at hrun
    have hcases := @admitHeader_cases _ core c.header s
    generalize hr : (core.admitHeader c.header).run s = o at hcases
    cases hcases with
    | rejected e _ =>
      rw [processHeader, processHeaderWith, run_bind_error hr] at hrun
      cases hrun
    | parentless _ hnil => exact Or.inr (Or.inl hnil)
    | awaitsParents missing _ d hd hmissing =>
      rw [processHeader, processHeaderWith, run_bind_ok hr] at hrun
      cases hrun
      rw [Synchronizer.hasAncestors, List.all_eq_true] at hancestors
      have hhas : Synchronizer.has core.committee s.store d = true := hancestors d hd
      rw [hmissing] at hhas
      cases hhas
    | awaitsBatches hacc _ => exact Or.inr (Or.inr hacc)
    | alreadyVoted hacc _ _ => exact Or.inr (Or.inr hacc)
    | admitted hadm => exact Or.inr (Or.inr hadm.accepts)

theorem traces_processCertificate {c : Certificate} (hc : I.certificate c)
    (hclear : core.Clears s c → I.cleared c) (hh : core.Hands I s c.header) :
    Traces (Effect core I) (core.processCertificate c) s log :=
  traces_processCertificateWith (fun _ _ _ hh => traces_processHeader hh)
    (Or.inl ⟨hc, fun _ _ hrun hancestors => hclear (clears_of_processEmbedded hrun hancestors)⟩) hh

end Core

end Bullshark
