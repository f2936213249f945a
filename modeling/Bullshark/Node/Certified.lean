import Bullshark.Primary.Traffic
import Bullshark.Consensus.Vetted
import Bullshark.Primary.Sample

/-!
# Node/Certified — only certified data is committed

The core feeds the consensus task.  What it sends above round zero was assembled from a quorum of
votes or passed the quorum branch of `Certificate::verify` (`Vouched`).  A certificate of round zero
passes unsigned, and once its author was committed nothing keeps `order_dag` from reaching it
(`genesis_committed`); where none arrives that late, every certificate ordered is certified
(`only_certified_committed`).
-/

namespace Bullshark

namespace Core

open Handler

/-- The consensus task that the core feeds, in steady mode. -/
def consensus (core : Core) : Consensus := ⟨core.committee, core.gcDepth, false⟩

variable [Crypto]

/-- What consensus sends on `tx_output`, in a run of the core. -/
def ordered (core : Core) (is : List Event) : List Certificate :=
  core.consensus.output (txConsensus (core.machine.outputs is))

/-- The vote was counted for this header: it was accepted from the network, for this very header,
or is our own. -/
def Cast (core : Core) (is : List Event) (header : Header) (vote : PublicKey × Signature) : Prop :=
  ∃ v : Vote, (v.author, v.signature) = vote ∧
    ((.vote v ∈ is ∧ v.verify core.committee = .ok () ∧ v.id = header.id ∧
        v.round = header.round ∧ v.origin = header.author) ∨
      ∃ own : Header, own.author = core.name ∧ v = Vote.new own core.name core.requestSignature)

/-- The core assembled the certificate from a quorum of votes. -/
structure Assembled (core : Core) (is : List Event) (log : List Emission) (c : Certificate) :
    Prop where
  emitted : .assembled core.othersAddresses c ∈ log
  quorum : c.VotedByQuorum core.committee
  cast : ∀ v ∈ c.votes, core.Cast is c.header v

/-- The certificate was received and passed `Certificate::verify`, through its quorum branch. -/
structure AcceptedByQuorum (core : Core) (is : List Event) (c : Certificate) : Prop where
  received : .certificate c ∈ is
  branch : ¬ Certificate.LooksLikeGenesis core.committee c
  verified : c.verifyQuorum core.committee = .ok ()

/-- The certificate is certified, in one way or the other. -/
def Certified (core : Core) (is : List Event) (log : List Emission) (c : Certificate) : Prop :=
  core.Assembled is log c ∨ core.AcceptedByQuorum is c

/-- The certificate a message hands on, to consensus or to the waiter. -/
def Emission.forwarded : Emission → Option Certificate
  | .consensus c => some c
  | .syncCertificate c => some c
  | _ => none

/-- The votes collected were cast, and what was handed on above round zero is certified. -/
structure Vouched (core : Core) (is : List Event) (s : State) (log : List Emission) : Prop where
  weighs : s.votesAggregator.Weighs core.committee
  cast : ∀ v ∈ s.votesAggregator.votes, core.Cast is s.currentHeader v
  assembled : ∀ c, .assembled core.othersAddresses c ∈ log → core.Assembled is log c
  forwarded : ∀ e ∈ log, ∀ c, e.forwarded = some c → c.round ≠ 0 → core.Certified is log c

variable {core : Core} {is is' : List Event} {s s' : State} {log log' w : List Emission}
  {c : Certificate}

theorem Cast.mono {h : Header} {v : PublicKey × Signature} (hv : core.Cast is h v)
    (his : is ⊆ is') : core.Cast is' h v := by
  obtain ⟨vote, heq, hvote | hown⟩ := hv
  · exact ⟨vote, heq, Or.inl ⟨his hvote.1, hvote.2⟩⟩
  · exact ⟨vote, heq, Or.inr hown⟩

theorem Assembled.mono (h : core.Assembled is log c) (his : is ⊆ is') (hlog : log ⊆ log') :
    core.Assembled is' log' c :=
  ⟨hlog h.emitted, h.quorum, fun v hv => (h.cast v hv).mono his⟩

theorem Certified.mono (h : core.Certified is log c) (his : is ⊆ is') (hlog : log ⊆ log') :
    core.Certified is' log' c :=
  h.imp (fun h => h.mono his hlog) fun h => ⟨his h.received, h.branch, h.verified⟩

theorem Certified.votedByQuorum (h : core.Certified is log c) : c.VotedByQuorum core.committee :=
  h.elim Assembled.quorum fun h => Certificate.votedByQuorum_of_verifyQuorum h.verified

namespace Vouched

theorem mono (h : core.Vouched is s log) (his : is ⊆ is') : core.Vouched is' s log where
  weighs := h.weighs
  cast v hv := (h.cast v hv).mono his
  assembled c hc := (h.assembled c hc).mono his (fun _ h => h)
  forwarded e he c hc hround := (h.forwarded e he c hc hround).mono his fun _ h => h

/-- Emitting messages. -/
theorem emit (h : core.Vouched is s log)
    (hassembled : ∀ c, .assembled core.othersAddresses c ∈ w → core.Assembled is (log ++ w) c)
    (hforwarded : ∀ e ∈ w, ∀ c, e.forwarded = some c → c.round ≠ 0 → core.Certified is log c) :
    core.Vouched is s (log ++ w) where
  weighs := h.weighs
  cast := h.cast
  assembled c hc := (List.mem_append.mp hc).elim
    (fun hc => (h.assembled c hc).mono (fun _ h => h) (List.subset_append_left _ _)) (hassembled c)
  forwarded e he c hc hround := Certified.mono ((List.mem_append.mp he).elim
    (fun he => h.forwarded e he c hc hround) fun he => hforwarded e he c hc hround)
      (fun _ h => h) (List.subset_append_left _ _)

/-- The state matters only through the votes collected and the header they are for. -/
theorem of_eq (h : core.Vouched is s log) (hagg : s'.votesAggregator = s.votesAggregator)
    (hcur : s'.currentHeader = s.currentHeader) : core.Vouched is s' log where
  weighs := hagg ▸ h.weighs
  cast := by
    rw [hagg, hcur]
    exact h.cast
  assembled := h.assembled
  forwarded := h.forwarded

/-- A certificate handed to a handler is certified, above round zero. -/
theorem hands (h : core.Vouched is s (core.machine.outputs is)) {e : Event}
    (hret : core.Returned is e) (hc : core.HandsCertificate s e c) (hround : c.round ≠ 0)
    (hsub : core.machine.outputs is ⊆ log) : core.Certified (is ++ [e]) log c := by
  cases e with
  | certificate x =>
    obtain ⟨rfl, hs⟩ := hc
    have hlooks : ¬ Certificate.LooksLikeGenesis core.committee c := by
      rintro ⟨g, hg, heq⟩
      obtain ⟨name, -, rfl⟩ := List.mem_map.mp hg
      simp only [Certificate.partialEq, Bool.and_eq_true, decide_eq_true_eq] at heq
      exact hround heq.1.2.symm
    obtain ⟨-, hverify⟩ := Except.bind_unit_eq_ok_iff.mp hs
    refine Or.inr ⟨List.mem_append_right _ List.mem_cons_self, hlooks, ?_⟩
    exact (Certificate.verify_eq_ok_iff.mp hverify).resolve_left hlooks
  | certificateLoopback x =>
    cases hc
    exact (h.forwarded _ hret _ rfl hround).mono (List.subset_append_left _ _) hsub
  | _ => cases hc

variable {e : Event} {s₀ : State}

/-- A vote that is counted was cast. -/
theorem cast_of_counted {v : Vote}
    (hstart : SameRounds (started s₀ e) s)
    (hv : core.HandsVote s₀ e v ∨ core.OwnVote (core.given s₀ e).votable s v) :
    core.Cast (is ++ [e]) s.currentHeader (v.author, v.signature) := by
  rcases hv with hv | ⟨own, -, -, hname, hv⟩
  · cases e with
    | vote x =>
      obtain ⟨rfl, hs⟩ := hv
      have hcur : s.currentHeader = s₀.currentHeader := hstart.currentHeader
      obtain ⟨hid, horigin, hround⟩ := sanitizeVote_eq_ok hs
      obtain ⟨-, hs⟩ := Except.bind_unit_eq_ok_iff.mp hs
      obtain ⟨-, hverify⟩ := Except.bind_unit_eq_ok_iff.mp hs
      rw [hcur]
      exact ⟨v, rfl, Or.inl ⟨List.mem_append_right _ List.mem_cons_self, hverify, hid, hround,
        horigin⟩⟩
    | _ => cases hv
  · exact ⟨v, rfl, Or.inr ⟨own, hname, hv⟩⟩

/-- So were all that have been collected then. -/
theorem cast_append (h : core.Vouched (is ++ [e]) s log) (hstart : SameRounds (started s₀ e) s)
    {v : Vote} (hv : core.HandsVote s₀ e v ∨ core.OwnVote (core.given s₀ e).votable s v)
    {aggregator : VotesAggregator} {certificate : Option Certificate}
    (happend : s.votesAggregator.append v core.committee s.currentHeader
      = .ok (aggregator, certificate)) :
    ∀ x ∈ aggregator.votes, core.Cast (is ++ [e]) s.currentHeader x := by
  obtain ⟨-, -, hvotes, -⟩ := VotesAggregator.append_eq_ok happend
  intro x hx
  rw [hvotes] at hx
  rcases List.mem_append.mp hx with hx | hx
  · exact h.cast x hx
  · rw [List.mem_singleton.mp hx]
    exact cast_of_counted hstart hv

/-- The effects of a turn. -/
theorem effect (hret : core.Returned is e)
    (h₀ : core.Vouched is s₀ (core.machine.outputs is)) (hwithin : core.Within is s₀ e s log)
    (h : core.Vouched (is ++ [e]) s log) (hE : core.TurnEffect s₀ e s log w s') :
    core.Vouched (is ++ [e]) s' (log ++ w) := by
  have hcert : ∀ {c}, core.HandsCertificate s₀ e c ∨ .assembled core.othersAddresses c ∈ log →
      c.round ≠ 0 → core.Certified (is ++ [e]) log c := by
    rintro c (hc | hc) hround
    · exact h₀.hands hret hc hround hwithin.log.subset
    · exact Or.inl (h.assembled c hc)
  have hquiet : ∀ {s'}, s'.votesAggregator = s.votesAggregator →
      s'.currentHeader = s.currentHeader → (∀ c a, .assembled a c ∉ w) →
      (∀ x ∈ w, x.forwarded = none) → core.Vouched (is ++ [e]) s' (log ++ w) := by
    intro s' hagg hcur hassembled hforwarded
    refine (h.emit (fun c hc => absurd hc (hassembled c _)) fun x hx c hc => ?_).of_eq hagg hcur
    rw [hforwarded x hx] at hc
    cases hc
  cases hE with
  | processing _ => exact hquiet rfl rfl (by simp) (by simp)
  | awaitParents _ _ _ _ => exact hquiet rfl rfl (by simp) (by simp [Emission.forwarded])
  | awaitBatches _ _ _ => exact hquiet rfl rfl (by simp) (by simp [Emission.forwarded])
  | storeHeader _ _ => exact hquiet rfl rfl (by simp) (by simp)
  | vote _ _ _ _ => exact hquiet rfl rfl (by simp) (by simp [Emission.forwarded])
  | sendVote _ _ => exact hquiet rfl rfl (by simp) (by simp [Emission.forwarded])
  | count hv happend =>
    rw [List.append_nil]
    refine ⟨h.weighs.append happend, fun v' hv' => ?_, h.assembled, h.forwarded⟩
    exact h.cast_append hwithin.same hv happend v' hv'
  | @certify v aggregator c hv happend =>
    have hcast := h.cast_append hwithin.same hv happend
    obtain ⟨-, -, -, ⟨-, -, hc⟩ | ⟨-, -, hc⟩⟩ := VotesAggregator.append_eq_ok happend
    · cases hc
      have hnew := h.emit (w := [.assembled core.othersAddresses ⟨s.currentHeader, aggregator.votes⟩])
        (fun x hx => ?_) (by simp [Emission.forwarded])
      · exact ⟨h.weighs.append happend, hcast, hnew.assembled, hnew.forwarded⟩
      · obtain rfl : x = ⟨s.currentHeader, aggregator.votes⟩ := by simpa using hx
        exact ⟨List.mem_append_right _ hx, h.weighs.votedByQuorum happend, hcast⟩
    · cases hc
  | awaitAncestors hc _ _ =>
    refine h.emit (by simp) fun x hx y hy hround => ?_
    rw [List.mem_singleton.mp hx] at hy
    cases hy
    exact hcert hc hround
  | accept hc =>
    refine (h.emit (fun x hx => ?_) fun x hx y hy hround => ?_).of_eq rfl rfl
    · obtain ⟨ps, hps⟩ | hps := mem_accepted hx <;> cases hps
    · rcases List.mem_append.mp hx with hx | hx
      · obtain ⟨ps, rfl⟩ := mem_handedOut hx
        cases hy
      · rw [List.mem_singleton.mp hx] at hy
        cases hy
        exact hcert (hc.imp_left And.left) hround

/-- **What the core hands on above round zero is certified, in every run.** -/
theorem invariant (core : Core) : core.Invariant core.Returned core.Vouched where
  init := ⟨VotesAggregator.weighs_new, fun v hv => (by cases hv), fun c hc => (by cases hc),
    fun e he => (by cases he)⟩
  mono _ h := h.mono (List.subset_append_left _ _)
  cleanUp {_ s _} h := h.of_eq (State.cleanUp_eq s _).2.2.1 (State.cleanUp_eq s _).2.1
  batch _ _ h := h.of_eq rfl rfl
  committed _ h := h.of_eq rfl rfl
  propose {is _ x} _ _ h := by
    have hemit := (h.mono (List.subset_append_left is [.ownHeader x])).emit
      (w := [.broadcastHeader core.othersAddresses x]) (by simp) (by simp [Emission.forwarded])
    exact ⟨VotesAggregator.weighs_new, fun v hv => (by cases hv), hemit.assembled, hemit.forwarded⟩
  effect _ hret h₀ hwithin h hE := effect hret h₀ hwithin h hE

end Vouched

/-- **Only certified data is committed**: in every run in which no certificate of round zero reaches
consensus after its author was committed, whatever the network sends, every certificate ordered is
above round zero, is no genesis certificate, has a quorum of votes, and was assembled by this core
or accepted through the quorum branch. -/
theorem only_certified_committed (core : Core) (is : List Event)
    (hrun : ∀ pre e, pre ++ [e] <+: is → core.Returned pre e)
    (hzero : core.consensus.machine.Along Consensus.GenesisOnTime
      (txConsensus (core.machine.outputs is))) :
    ∀ c ∈ core.ordered is, 1 ≤ c.round ∧ c ∉ Certificate.genesis core.committee ∧
      c.VotedByQuorum core.committee ∧
      (core.Assembled is (core.machine.outputs is) c ∨ core.AcceptedByQuorum is c) := by
  obtain ⟨s, hs, -⟩ := (Vouched.invariant core).run hrun
  intro c hc
  obtain ⟨hround, hcertified⟩ := Consensus.vetted_output
    (P := fun c => c.round ≠ 0 ∧ core.Certified is (core.machine.outputs is) c)
    (fun c hc hround => ⟨hround, hs.forwarded _ (mem_txConsensus.mp hc) c rfl hround⟩) hzero c hc
  refine ⟨Nat.one_le_iff_ne_zero.mpr hround, fun hgenesis => ?_, hcertified.votedByQuorum,
    hcertified⟩
  exact hround (Consensus.round_genesis hgenesis)

end Core

namespace Core.GenesisAgain

open Sample

def committee : Committee := committee3 1 1 7

/-- The core of the first authority, which proposes nothing. -/
def core : Core := ⟨key 1, committee, 50, fun digest => sign digest (key 1)⟩

def cert (author : ℕ) (round : UInt64) (parents : List Certificate) : Certificate :=
  certificate committee (key author) round parents

/-- The genesis certificate of the third authority. -/
def g : Certificate := Certificate.genesisOf (key 3)

def h1 : Certificate := cert 3 1 (Certificate.genesis committee)
def h2 : Certificate := cert 3 2 [h1]
def h3 : Certificate := cert 3 3 [h2]
def h4 : Certificate := cert 3 4 [h3]
def a1 : Certificate := cert 2 1 (Certificate.genesis committee)
def a2 : Certificate := cert 2 2 [h1, a1]
def a3 : Certificate := cert 2 3 [h2, a2]
def a4 : Certificate := cert 2 4 [h3, a3]
def h5 : Certificate := cert 3 5 [h4, a4]

/-- Somebody sends the genesis certificate of the third authority once `h 2` was committed. -/
def late : List Event := [h1, h2, h3, g, a1, a2, a3, a4, h4, h5].map .certificate

/-- Somebody sends it before. -/
def early : List Event := [h1, g, h2, h3, a1, a2, a3, a4, h4, h5].map .certificate

set_option maxRecDepth 100000 in
/-- **A genesis certificate is committed.** -/
theorem genesis_committed : core.AdmissibleRun late ∧ g ∈ core.ordered late ∧ g.round = 0 ∧
    g ∈ Certificate.genesis core.committee ∧ g.votes = [] := by
  decide +kernel

set_option maxRecDepth 100000 in
theorem onTime_early : core.AdmissibleRun early ∧ core.consensus.machine.Along
    Consensus.GenesisOnTime (txConsensus (core.machine.outputs early)) ∧
    core.ordered early ≠ [] := by
  decide +kernel

theorem only_certified_committed_early : (core.consensus.machine.Along Consensus.GenesisOnTime
      (txConsensus (core.machine.outputs early))) ∧ core.ordered early ≠ [] ∧
    ∀ c ∈ core.ordered early, 1 ≤ c.round ∧ c ∉ Certificate.genesis core.committee ∧
      c.VotedByQuorum core.committee ∧
      (core.Assembled early (core.machine.outputs early) c ∨ core.AcceptedByQuorum early c) :=
  ⟨onTime_early.2.1, onTime_early.2.2, only_certified_committed core early
    (fun pre e hpre => (onTime_early.1 pre e hpre).returned) onTime_early.2.1⟩

end Core.GenesisAgain

end Bullshark
