import Bullshark.Primary.Genuine

/-!
# Primary/Voters — a header that a quorum votes for is certified

The aggregator weighs the votes on the current header until a quorum is reached.  Whatever arrives
in between, a vote on this header that passes the checks is counted, if its author was not counted
before: after the turn the author is among those used (`used_processVoteWith`).  And as long as no
certificate was made of them, the votes counted are short of a quorum (`Decided`).  So a core that
is alive has certified its header by the time the votes of a quorum are in (`certified_of_voters`).
-/

namespace Bullshark

namespace VotesAggregator

/-- All votes are weighed, and are short of a quorum. -/
structure Short (aggregator : VotesAggregator) (committee : Committee) : Prop where
  weight : aggregator.weight.toNat = stakeOf committee aggregator.votes
  short : stakeOf committee aggregator.votes < committee.quorumThreshold.toNat

variable {aggregator aggregator' : VotesAggregator} {vote : Vote} {committee : Committee}
  {header : Header}

theorem short_new : new.Short committee := ⟨rfl, committee.quorumThreshold_pos⟩

theorem Short.append (htotal : committee.totalStake < 2 ^ 31) (h : aggregator.Short committee)
    (happend : aggregator.append vote committee header = .ok (aggregator', none)) :
    aggregator'.Short committee := by
  obtain ⟨-, -, hvotes, ⟨-, -, hnone⟩ | ⟨hfew, hsum, -⟩⟩ := append_eq_ok happend
  · cases hnone
  · have hall : aggregator'.votes
        = [] ++ aggregator.votes ++ [(vote.author, vote.signature)] := hvotes
    have hadd := toNat_weight_add htotal hall h.weight
    rw [← hvotes] at hadd
    have hlt := UInt32.lt_iff_toNat_lt.mp (UInt32.not_le.mp hfew)
    exact ⟨(congrArg UInt32.toNat hsum).trans hadd, hadd ▸ hlt⟩

/-- **The votes collected are those of the authorities used.** -/
theorem stakeOf_used (aggregator : VotesAggregator) :
    committee.stakeOf aggregator.used = stakeOf committee aggregator.votes := by
  rw [stakeOf_eq aggregator.nodup]
  refine congrArg committee.stakeOf (Finset.ext fun a => ?_)
  rw [aggregator.mem_used, List.mem_toFinset]

end VotesAggregator

namespace Core

open Handler

variable [Crypto]

/-! ## What is decided -/

/-- The current header is certified, or the votes on it are short of a quorum. -/
def Decided (core : Core) (s : State) (log : List Emission) : Prop :=
  (∃ c ∈ assembledCertificates log, c.header = s.currentHeader) ∨
    s.votesAggregator.Short core.committee

variable {core : Core} {s s' : State} {log w : List Emission} {e : Event}

omit [Crypto] in
/-- Messages, and changes that keep the votes and the header. -/
theorem Decided.of_eq (h : core.Decided s log) (hagg : s'.votesAggregator = s.votesAggregator)
    (hcur : s'.currentHeader = s.currentHeader) (w : List Emission) :
    core.Decided s' (log ++ w) := by
  rw [Decided, hagg, hcur]
  refine h.imp_left fun ⟨c, hc, hheader⟩ => ⟨c, ?_, hheader⟩
  obtain ⟨a, ha⟩ := mem_assembledCertificates.mp hc
  exact mem_assembledCertificates.mpr ⟨a, List.mem_append_left _ ha⟩

theorem Decided.invariant (core : Core) (htotal : core.committee.totalStake < 2 ^ 31) :
    core.Invariant (fun _ _ => True) fun _ => core.Decided where
  init := Or.inr VotesAggregator.short_new
  mono _ h := h
  cleanUp {_ s out} h := by
    obtain ⟨-, hcur, hagg, -⟩ := State.cleanUp_eq s core.gcDepth
    exact List.append_nil out ▸ h.of_eq hagg hcur []
  batch _ _ h := h
  committed _ h := h
  propose _ _ _ := Or.inr VotesAggregator.short_new
  effect {_ _ _ s log _ _} _ _ _ _ h hE := by
    cases hE with
    | count hv happend =>
      rw [List.append_nil]
      exact h.imp_right fun hshort => hshort.append htotal happend
    | @certify v aggregator c hv happend =>
      refine Or.inl ⟨c, mem_assembledCertificates.mpr ⟨core.othersAddresses, ?_⟩,
        VotesAggregator.header_of_append happend⟩
      exact List.mem_append_right _ List.mem_cons_self
    | _ => exact h.of_eq rfl rfl _

/-! ## Who is counted -/

/-- No effect forgets who was counted. -/
theorem Effect.used_subset {I : Given} (h : Effect core I s log w s') :
    s.votesAggregator.used ⊆ s'.votesAggregator.used := by
  cases h with
  | count hv happend =>
    obtain ⟨-, hused, -⟩ := VotesAggregator.append_eq_ok happend
    exact (Finset.subset_insert _ _).trans hused.ge
  | certify hv happend =>
    obtain ⟨-, hused, -⟩ := VotesAggregator.append_eq_ok happend
    exact (Finset.subset_insert _ _).trans hused.ge
  | _ => exact Finset.Subset.refl _

theorem used_subset_of_trace {I : Given} (h : Handler.Trace (Effect core I) s log w s') :
    s.votesAggregator.used ⊆ s'.votesAggregator.used :=
  h.invariant (P := fun s' _ => s.votesAggregator.used ⊆ s'.votesAggregator.used)
    (fun _ _ _ _ hs hE => hs.trans hE.used_subset) (Finset.Subset.refl _)

/-- **A turn that proposes no header keeps the current one, and who was counted.** -/
theorem counted_step (hown : ∀ x, e ≠ .ownHeader x) (hs : (core.step s e).1 = .ok s') :
    s'.currentHeader = s.currentHeader ∧ s.votesAggregator.used ⊆ s'.votesAggregator.used := by
  obtain ⟨s₁, hturn, hnext⟩ := @turn_step _ core s e []
  have hkept : s₁.currentHeader = s.currentHeader ∧
      s.votesAggregator.used ⊆ s₁.votesAggregator.used := by
    generalize (core.step s e).2 = w at hturn
    cases hturn with
    | effects _ ht => exact ⟨(sameRounds_of_trace ht).currentHeader, used_subset_of_trace ht⟩
    | propose _ => exact absurd rfl (hown _)
    | batch _ _ => exact ⟨rfl, Finset.Subset.refl _⟩
    | committed _ => exact ⟨rfl, Finset.Subset.refl _⟩
  rcases hnext s' hs with rfl | rfl
  · exact hkept
  · obtain ⟨-, hcur, hagg, -⟩ := State.cleanUp_eq s₁ core.gcDepth
    rw [hcur, hagg]
    exact hkept

/-- **A vote that is processed is counted**, or its author was counted before. -/
theorem used_processVoteWith {recur : Header → CoreM Unit} {I : Given}
    (hrecur : ∀ h s log, core.Hands I s h → Traces (Effect core I) (recur h) s log)
    (hstore : OnlyHeaders I.store s.store) (v : Vote) :
    v.author ∈ ((core.processVoteWith recur v).run s).state.votesAggregator.used := by
  rw [processVoteWith, run_bind_silent run_get]
  rcases happend : s.votesAggregator.append v core.committee s.currentHeader with
    x | ⟨aggregator, certificate⟩
  · rw [run_bind_error (run_check_error x)]
    exact VotesAggregator.append_error happend
  · obtain ⟨-, hused, -⟩ := VotesAggregator.append_eq_ok happend
    have hmem : v.author ∈ aggregator.used := hused ▸ Finset.mem_insert_self _ _
    rw [run_bind_silent (run_check_ok _)]
    cases certificate with
    | none => exact hmem
    | some c =>
      dsimp only
      rw [run_bind_silent (run_modify _), run_bind_ok (run_emit _)]
      have hheader : c.header = s.currentHeader := VotesAggregator.header_of_append happend
      have htrace : Traces (Effect core I)
          (expect .validCertificate (core.processCertificateWith recur c))
          (s.setVotesAggregator aggregator) [.assembled core.othersAddresses c] :=
        traces_mapError (traces_processCertificateWith hrecur (Or.inr List.mem_cons_self)
          ⟨Or.inr hheader, hstore⟩)
      exact used_subset_of_trace htrace hmem

theorem used_processVote (core : Core) (s : State) (v : Vote) :
    v.author ∈ ((core.processVote v).run s).state.votesAggregator.used :=
  used_processVoteWith (I := core.given s (.vote v)) (fun _ _ _ hh => traces_processHeader hh)
    (.refl _) v

/-- **Our vote for a header of ours is counted** where we create it. -/
theorem used_processHeader {h : Header} (hauthor : h.author = core.name)
    (hcreated : ∃ v, .created v ∈ ((core.processHeader h).run s).emitted) :
    core.name ∈ ((core.processHeader h).run s).state.votesAggregator.used := by
  obtain ⟨v, hv⟩ := hcreated
  rw [processHeader, processHeaderWith] at hv ⊢
  have hcases := @admitHeader_cases _ core h s
  generalize hr : (core.admitHeader h).run s = o at hcases
  cases hcases with
  | rejected x _ =>
    rw [run_bind_error hr] at hv
    cases hv
  | parentless _ _ =>
    rw [run_bind_silent hr] at hv
    cases hv
  | awaitsParents missing _ d _ _ =>
    rw [run_bind_ok hr] at hv
    cases List.mem_singleton.mp hv
  | awaitsBatches _ hname => exact absurd hauthor hname
  | alreadyVoted _ _ _ =>
    rw [run_bind_silent hr] at hv
    cases hv
  | admitted hadm =>
    rw [run_bind_silent hr, if_pos rfl, run_bind_ok (run_emit _), dispatchVoteWith]
    have horigin : (Vote.new h core.name core.requestSignature).origin = core.name := hauthor
    rw [if_pos horigin]
    have hused : core.name ∈ ((core.processVoteWith (core.processHeaderWith fun _ => pure ())
        (Vote.new h core.name core.requestSignature)).run
          (((s.markProcessing h).write (.digest h.id) (.header h)).markVoted
            h)).state.votesAggregator.used :=
      used_processVoteWith (I := core.given s (.ownHeader h))
        (fun _ _ _ hh => traces_processHeaderWith (fun _ _ _ _ => traces_pure _) hh)
        ((OnlyHeaders.refl _).insert _ _) _
    rwa [← state_mapError] at hused

omit [Crypto] in
theorem conclude_state {o : Outcome State Emission Fault Unit} (hs : (core.conclude o).1 = .ok s) :
    s.votesAggregator = o.state.votesAggregator ∧ s.currentHeader = o.state.currentHeader := by
  obtain ⟨-, hcur, hagg, -⟩ := State.cleanUp_eq o.state core.gcDepth
  rw [conclude_fst hs]
  exact ⟨hagg, hcur⟩

theorem sanitizeVote_of_eq {v : Vote} (hid : v.id = s.currentHeader.id)
    (horigin : v.origin = s.currentHeader.author) (hround : v.round = s.currentHeader.round)
    (hverify : v.verify core.committee = .ok ()) : core.sanitizeVote s v = .ok () := by
  rw [sanitizeVote, ensure, if_pos hround.ge, ensure, if_pos ⟨hid, horigin, hround⟩]
  exact hverify

/-- A vote on the current header is counted in the turn that receives it. -/
theorem used_step {v : Vote} (hv : core.sanitizeVote s v = .ok ())
    (hs : (core.step s (.vote v)).1 = .ok s') : v.author ∈ s'.votesAggregator.used := by
  have hrun : (core.handle (.vote v)).run s = (core.processVote v).run s := by
    rw [handle, run_bind_silent run_get, hv, run_bind_silent (run_check_ok _)]
  have hconclude : (core.conclude ((core.handle (.vote v)).run s)).1 = .ok s' := hs
  rw [(conclude_state hconclude).1, hrun]
  exact core.used_processVote s v

/-- The turn that proposes a header: it becomes the current one, and our vote is counted where we
create it. -/
theorem own_step {h : Header} (hs : (core.step s (.ownHeader h)).1 = .ok s') :
    s'.currentHeader = h ∧ (h.author = core.name →
      (∃ v, .created v ∈ (core.step s (.ownHeader h)).2) →
        core.name ∈ s'.votesAggregator.used) := by
  have hrun : (core.handle (.ownHeader h)).run s
      = ⟨((core.processHeader h).run (proposed s h)).result,
          .broadcastHeader core.othersAddresses h ::
            ((core.processHeader h).run (proposed s h)).emitted,
          ((core.processHeader h).run (proposed s h)).state⟩ := by
    rw [handle, processOwnHeader, run_bind_silent (run_modify _), run_bind_ok (run_emit _)]
    rfl
  have hconclude : (core.conclude ((core.handle (.ownHeader h)).run s)).1 = .ok s' := hs
  obtain ⟨hagg, hcur⟩ := conclude_state hconclude
  have hturn : core.Turn s [] (.ownHeader h) ((core.handle (.ownHeader h)).run s).emitted
      ((core.handle (.ownHeader h)).run s).state :=
    turn_handle (fun d w heq => by cases heq) fun c heq => by cases heq
  refine ⟨?_, fun hauthor hcreated => ?_⟩
  · rw [hcur]
    generalize ((core.handle (.ownHeader h)).run s).emitted = w at hturn
    generalize ((core.handle (.ownHeader h)).run s).state = s₁ at hturn
    cases hturn with
    | effects hown _ => exact absurd rfl (hown h)
    | propose ht => exact (sameRounds_of_trace ht).currentHeader
  · obtain ⟨v, hv⟩ := hcreated
    have hemitted : .created v ∈ (core.conclude ((core.handle (.ownHeader h)).run s)).2 := hv
    rw [conclude_snd, hrun] at hemitted
    rw [hagg, hrun]
    refine used_processHeader hauthor ⟨v, ?_⟩
    rcases List.mem_cons.mp hemitted with heq | hmem
    · cases heq
    · exact hmem

/-! ## The votes of a quorum -/

/-- The vote is on this header and passes the checks. -/
def VotesFor (core : Core) (h : Header) (v : Vote) : Prop :=
  (v.id = h.id ∧ v.origin = h.author ∧ v.round = h.round) ∧ v.verify core.committee = .ok ()

instance (core : Core) (h : Header) (v : Vote) : Decidable (core.VotesFor h v) :=
  inferInstanceAs (Decidable (_ ∧ _))

/-- Whose votes on the header are among what was received. -/
def votersOn (core : Core) (h : Header) (js : List Event) : Finset PublicKey :=
  (js.filterMap fun
    | .vote v => if core.VotesFor h v then some v.author else none
    | _ => none).toFinset

theorem mem_votersOn_snoc {h : Header} {js : List Event} {a : PublicKey}
    (ha : a ∈ core.votersOn h (js ++ [e])) :
    a ∈ core.votersOn h js ∨ ∃ v, e = .vote v ∧ core.VotesFor h v ∧ v.author = a := by
  rw [votersOn, List.mem_toFinset, List.filterMap_append, List.mem_append] at ha
  refine ha.imp List.mem_toFinset.mpr fun ha => ?_
  obtain ⟨e', he', heq⟩ := List.mem_filterMap.mp ha
  cases List.mem_singleton.mp he'
  cases e with
  | vote v =>
    obtain ⟨hv, hauthor⟩ := Option.ite_none_right_eq_some.mp heq
    exact ⟨v, rfl, hv, Option.some.inj hauthor⟩
  | _ => cases heq

theorem alive_of_append {is js : List Event} (hs : core.machine.state (is ++ js) = .ok s) :
    ∃ s', core.machine.state is = .ok s' := by
  induction js using List.reverseRecOn generalizing s with
  | nil => exact ⟨s, by rwa [List.append_nil] at hs⟩
  | append_singleton js e ih =>
    rw [← List.append_assoc, Mealy.state_snoc] at hs
    cases hmid : core.machine.state (is ++ js) with
    | error p =>
      rw [hmid] at hs
      cases hs
    | ok s₁ => exact ih hmid

/-- After a header is proposed: who was counted then, and all who voted since, are counted. -/
theorem counted_run {is js : List Event} {h : Header} (hjs : ∀ x, .ownHeader x ∉ js) {s₁ s : State}
    (hs₁ : core.machine.state (is ++ [.ownHeader h]) = .ok s₁) (hcur : s₁.currentHeader = h)
    (hs : core.machine.state (is ++ [.ownHeader h] ++ js) = .ok s) : s.currentHeader = h ∧
      s₁.votesAggregator.used ∪ core.votersOn h js ⊆ s.votesAggregator.used := by
  induction js using List.reverseRecOn generalizing s with
  | nil =>
    rw [List.append_nil, hs₁] at hs
    cases hs
    exact ⟨hcur, Finset.union_subset (Finset.Subset.refl _) (Finset.empty_subset _)⟩
  | append_singleton js e ih =>
    rw [← List.append_assoc, Mealy.state_snoc] at hs
    cases hmid : core.machine.state (is ++ [.ownHeader h] ++ js) with
    | error p =>
      rw [hmid] at hs
      cases hs
    | ok s₂ =>
      rw [hmid] at hs
      obtain ⟨hcur₂, hcounted⟩ := ih (fun x hx => hjs x (List.mem_append_left _ hx)) hmid
      have hown : ∀ x, e ≠ .ownHeader x := by
        rintro x rfl
        exact hjs x (List.mem_append_right _ List.mem_cons_self)
      obtain ⟨hsame, hsub⟩ := counted_step hown hs
      refine ⟨hsame.trans hcur₂, fun a ha => ?_⟩
      rcases Finset.mem_union.mp ha with ha | ha
      · exact hsub (hcounted (Finset.mem_union_left _ ha))
      · rcases mem_votersOn_snoc ha with ha | ⟨v, rfl, ⟨⟨hid, horigin, hround⟩, hverify⟩, rfl⟩
        · exact hsub (hcounted (Finset.mem_union_right _ ha))
        · rw [← hcur₂] at hid horigin hround
          exact used_step (sanitizeVote_of_eq hid horigin hround hverify) hs

/-- **A header that a quorum votes for is certified.**  Take a core that is alive at the end of a
run and has proposed nothing since a header of its own.  If authorities with a quorum of stake voted
for the header since, where our own vote counts if it was created when the header was proposed, then
a certificate was assembled on it, whatever else arrived and in whatever order. -/
theorem certified_of_voters (core : Core) (htotal : core.committee.totalStake < 2 ^ 31)
    (is js : List Event) (h : Header) (hauthor : h.author = core.name)
    (hjs : ∀ x, .ownHeader x ∉ js) (s : State)
    (hs : core.machine.state (is ++ [.ownHeader h] ++ js) = .ok s) (S : Finset PublicKey)
    (hS : ∀ a ∈ S, a ∈ core.votersOn h js ∨ a = core.name ∧
      ∃ v, .created v ∈ (core.machine.step (core.machine.state is) (.ownHeader h)).2)
    (hquorum : core.committee.quorumThreshold.toNat ≤ core.committee.stakeOf S) :
    ∃ c ∈ assembledCertificates (core.machine.outputs (is ++ [.ownHeader h] ++ js)),
      c.header = h := by
  obtain ⟨s₁, hproposed⟩ := alive_of_append hs
  obtain ⟨s₀, hs₀⟩ := alive_of_append hproposed
  have hs₁ : (core.step s₀ (.ownHeader h)).1 = .ok s₁ := by
    rw [Mealy.state_snoc, hs₀] at hproposed
    exact hproposed
  obtain ⟨hcur₁, hown⟩ := own_step hs₁
  rw [hs₀] at hS
  obtain ⟨hcur, hcounted⟩ := counted_run hjs hproposed hcur₁ hs
  have hused : S ⊆ s.votesAggregator.used := by
    refine Finset.Subset.trans (fun a ha => ?_) hcounted
    rcases hS a ha with hvoted | ⟨rfl, hcreated⟩
    · exact Finset.mem_union_right _ hvoted
    · exact Finset.mem_union_left _ (hown hauthor hcreated)
  rcases (Decided.invariant core htotal).alive (fun _ _ _ => trivial) hs with hdecided | hshort
  · exact hcur ▸ hdecided
  · have hfew := hshort.short
    rw [← VotesAggregator.stakeOf_used] at hfew
    exact absurd (hquorum.trans (Finset.sum_le_sum_of_subset hused)) (not_le.mpr hfew)

end Core

/-! ## Two votes and our own -/

namespace Core.LateQuorum

open Sample

def inTime : List Event := [.vote (voteOf (key 2)), .batch ⟨7⟩ 0, .vote (voteOf (key 3))]

set_option maxRecDepth 100000 in
theorem alive_inTime :
    (core.machine.state ([] ++ [.ownHeader own] ++ inTime)).toOption.isSome ∧
    core.votersOn own inTime = {key 2, key 3} ∧
    ∃ v ∈ votes (core.machine.step (core.machine.state []) (.ownHeader own)).2,
      v.author = core.name := by
  decide +kernel

theorem exists_of_isSome {x : Except Panic State} (h : x.toOption.isSome) : ∃ s, x = .ok s := by
  cases x with
  | error p => cases h
  | ok s => exact ⟨s, rfl⟩

/-- The header is certified. -/
theorem certified_of_voters_inTime :
    ∃ c ∈ assembledCertificates (core.machine.outputs ([] ++ [.ownHeader own] ++ inTime)),
      c.header = own := by
  obtain ⟨hs, hvoters, v, hv, -⟩ := alive_inTime
  obtain ⟨s, hs⟩ := exists_of_isSome hs
  refine certified_of_voters core (by decide) [] inTime own rfl (by simp [inTime]) s hs
    {key 1, key 2, key 3} (fun a ha => ?_) (by decide)
  rw [hvoters]
  rcases Finset.mem_insert.mp ha with rfl | ha
  · exact Or.inr ⟨rfl, v, mem_votes.mp hv⟩
  · exact Or.inl ha

end Core.LateQuorum

end Bullshark
