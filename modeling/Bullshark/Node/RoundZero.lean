import Bullshark.Node.Certified
import Bullshark.Primary.Validated
import Bullshark.Consensus.Underflow

/-!
# Node/RoundZero — certificates of round zero, on their way to consensus

Consensus subtracts one from rounds and relies on the core to send nothing of round zero.  The core
does not check: a genesis certificate passes `Certificate::verify`, has no parents that could be
missing, and is forwarded (`genesis_forwarded`).  A certificate of round zero comes about in two
ways only, by such a certificate that is cleared or by votes on the header the core has before it
proposes one; in a run without either, no subtraction underflows (`rounds_never_underflow`).
-/

namespace Bullshark

namespace Core

open Handler

variable [Crypto]

/-- The vote the event has the core count: one received, or its own on a header in its name. -/
def Counts (core : Core) (s : State) (e : Event) (v : Vote) : Prop :=
  core.HandsVote s e v ∨ ∃ h, core.HandsHeader s e h ∧ h.author = core.name ∧
    v = Vote.new h core.name core.requestSignature

/-- No certificate of round zero that the event hands to `process_certificate` is cleared, and no
vote it has the core count completes one. -/
structure SparesZero (core : Core) (s : State) (e : Event) : Prop where
  certificate : ∀ c, core.HandsCertificate s e c → c.round = 0 → ¬ core.Clears s c
  vote : (started s e).currentHeader.round = 0 → ∀ v, core.Counts s e v → ∀ aggregator c,
    (started s e).votesAggregator.append v core.committee (started s e).currentHeader
      ≠ .ok (aggregator, some c)

/-- The same, of a core that is alive. -/
def StepSparesZero (core : Core) : Except Panic State → Event → Prop
  | .ok s, e => core.SparesZero s e
  | .error _, _ => True

omit [Crypto] in
/-- The certificate a message issues: assembled, or sent to consensus. -/
def Emission.issued : Emission → Option Certificate
  | .assembled _ c => some c
  | .consensus c => some c
  | _ => none

omit [Crypto] in
/-- Nothing of round zero was issued. -/
def AboveZero (log : List Emission) : Prop := ∀ m ∈ log, ∀ c, m.issued = some c → 1 ≤ c.round

omit [Crypto] in
/-- A header of round zero is no header of ours, and has no parents. -/
def Blank (h : Header) : Prop := h.round = 0 → h.parents.elems = []

variable {core : Core} {is : List Event} {s s' : State} {e : Event} {log w : List Emission}

omit [Crypto] in
theorem AboveZero.append (h : AboveZero log) (hw : AboveZero w) : AboveZero (log ++ w) :=
  fun m hm => (List.mem_append.mp hm).elim (h m) (hw m)

/-- The votes an event has the core count are of one author. -/
theorem Counts.author_eq {v v' : Vote} (h : core.Counts s e v) (h' : core.Counts s e v') :
    v.author = v'.author := by
  rcases h with hv | ⟨x, hx, -, rfl⟩
  · cases e with
    | vote y =>
      rcases h' with hv' | ⟨x', hx', -⟩
      · rw [hv.1, hv'.1]
      · cases hx'
    | _ => cases hv
  · rcases h' with hv' | ⟨x', -, -, rfl⟩
    · cases e with
      | vote y => cases hx
      | _ => cases hv'
    · rfl

/-- Within a turn: nothing of round zero was issued, and where the current header is of round zero
at most one author's vote was counted. -/
structure Spared (core : Core) (s : State) (e : Event) (s' : State) (log : List Emission) :
    Prop where
  same : SameRounds (started s e) s'
  above : AboveZero log
  counted : (started s e).currentHeader.round = 0 →
    s'.votesAggregator = (started s e).votesAggregator ∨
      ∀ v, core.Counts s e v → v.author ∈ s'.votesAggregator.used

namespace Spared

/-- A vote counted within the turn is one the event has the core count. -/
theorem counts (h : core.Spared s e s' log) (hblank : Blank (started s e).currentHeader)
    (hzero : (started s e).currentHeader.round = 0) {v : Vote}
    (hv : core.HandsVote s e v ∨ core.OwnVote (core.given s e).votable s' v) :
    core.Counts s e v := by
  rcases hv with hv | ⟨x, hx | rfl, hparents, hname, rfl⟩
  · exact Or.inl hv
  · exact Or.inr ⟨x, hx.1, hname, rfl⟩
  · rw [h.same.currentHeader] at hparents
    exact absurd (hblank hzero) hparents

/-- **An effect of a turn issues nothing of round zero.** -/
theorem effect (hspares : core.SparesZero s e) (hblank : Blank (started s e).currentHeader)
    (h : core.Spared s e s' log) {s'' : State} (hE : core.TurnEffect s e s' log w s'') :
    core.Spared s e s'' (log ++ w) := by
  have hsame := h.same.trans hE.sameRounds
  have hquiet : s''.votesAggregator = s'.votesAggregator → (∀ m ∈ w, m.issued = none) →
      core.Spared s e s'' (log ++ w) := by
    intro hagg hissued
    refine ⟨hsame, h.above.append fun m hm c hc => ?_, hagg ▸ h.counted⟩
    rw [hissued m hm] at hc
    cases hc
  cases hE with
  | processing _ => exact hquiet rfl (by simp)
  | awaitParents _ _ _ _ => exact hquiet rfl (by simp [Emission.issued])
  | awaitBatches _ _ _ => exact hquiet rfl (by simp [Emission.issued])
  | storeHeader _ _ => exact hquiet rfl (by simp)
  | vote _ _ _ _ => exact hquiet rfl (by simp [Emission.issued])
  | sendVote _ _ => exact hquiet rfl (by simp [Emission.issued])
  | awaitAncestors _ _ _ => exact hquiet rfl (by simp [Emission.issued])
  | @count v aggregator hv happend =>
    obtain ⟨-, hused, -⟩ := VotesAggregator.append_eq_ok happend
    refine ⟨hsame, h.above.append (fun m hm => (by cases hm)), fun hzero => Or.inr fun v' hv' => ?_⟩
    rw [hv'.author_eq (h.counts hblank hzero hv), State.setVotesAggregator, hused]
    exact Finset.mem_insert_self _ _
  | @certify v aggregator c hv happend =>
    obtain ⟨hnew, hused, -⟩ := VotesAggregator.append_eq_ok happend
    have hround : (started s e).currentHeader.round ≠ 0 := by
      intro hzero
      have hcounts := h.counts hblank hzero hv
      rw [h.same.currentHeader] at happend
      rcases h.counted hzero with hagg | hall
      · rw [hagg] at happend
        exact hspares.vote hzero v hcounts aggregator c happend
      · exact hnew (hall v hcounts)
    refine ⟨hsame, h.above.append fun m hm x hx => ?_, fun hzero => absurd hzero hround⟩
    rw [List.mem_singleton.mp hm] at hx
    cases hx
    rw [Certificate.round, VotesAggregator.header_of_append happend, h.same.currentHeader]
    exact Nat.one_le_iff_ne_zero.mpr hround
  | @accept c hc =>
    refine ⟨hsame, h.above.append fun m hm x hx => ?_, h.counted⟩
    obtain ⟨ps, rfl⟩ | rfl := mem_accepted hm
    · cases hx
    · cases hx
      rcases hc with ⟨hhands, hclears⟩ | hassembled
      · exact Nat.one_le_iff_ne_zero.mpr fun hzero => hspares.certificate c hhands hzero hclears
      · exact h.above _ hassembled c rfl

end Spared

/-- **A step that spares round zero** issues nothing of round zero. -/
theorem above_of_step (hspares : core.SparesZero s e) (hblank : Blank s.currentHeader)
    (habove : AboveZero log) (hown : ∀ h, e = .ownHeader h → 1 ≤ h.round) :
    AboveZero (log ++ (core.step s e).2) ∧
      ∀ s', (core.step s e).1 = .ok s' → Blank s'.currentHeader := by
  obtain ⟨s₁, hturn, hnext⟩ := @turn_step _ core s e log
  have hclean : Blank s₁.currentHeader →
      ∀ s', (core.step s e).1 = .ok s' → Blank s'.currentHeader := by
    intro h s' hs'
    rcases hnext s' hs' with rfl | rfl
    · exact h
    · rwa [(State.cleanUp_eq s₁ _).2.1]
  have htrace : ∀ {log w s₂}, Blank (started s e).currentHeader → AboveZero log →
      Trace (core.TurnEffect s e) (started s e) log w s₂ →
      AboveZero (log ++ w) ∧ Blank s₂.currentHeader := by
    intro log w s₂ hblank habove ht
    have hspared := ht.invariant (P := core.Spared s e)
      (fun _ _ _ _ h hE => h.effect hspares hblank hE) ⟨.refl _, habove, fun _ => Or.inl rfl⟩
    exact ⟨hspared.above, by rw [hspared.same.currentHeader]; exact hblank⟩
  generalize (core.step s e).2 = out at hturn ⊢
  cases hturn with
  | effects hnot ht =>
    rw [started_of_ne hnot] at htrace
    obtain ⟨hall, hlast⟩ := htrace hblank habove ht
    exact ⟨hall, hclean hlast⟩
  | @propose x w _ ht =>
    have hx : Blank x := fun hzero => by
      have := hown x rfl
      omega
    obtain ⟨hall, hlast⟩ := htrace hx (habove.append fun m hm c hc => by
      rw [List.mem_singleton.mp hm] at hc
      cases hc) ht
    exact ⟨by rwa [List.append_assoc] at hall, hclean hlast⟩
  | batch d w =>
    rw [List.append_nil]
    exact ⟨habove, hclean hblank⟩
  | committed c =>
    rw [List.append_nil]
    exact ⟨habove, hclean hblank⟩

/-- **What the core issues is above round zero**, in every run whose steps spare it. -/
theorem above_of_run (hown : ∀ h ∈ ownHeaders is, 1 ≤ h.round)
    (hspares : core.machine.Along core.StepSparesZero is) :
    AboveZero (core.machine.outputs is) := by
  suffices h : AboveZero (core.machine.outputs is) ∧
      ∀ s, core.machine.state is = .ok s → Blank s.currentHeader from h.1
  induction is using List.reverseRecOn with
  | nil =>
    refine ⟨fun m hm => (by cases hm), fun s hs _ => ?_⟩
    cases hs
    rfl
  | append_singleton is e ih =>
    obtain ⟨habove, hblank⟩ := ih (fun h hh => hown h (ownHeaders_mono hh))
      (hspares.of_prefix (List.prefix_append _ _))
    have hlast := hspares.last
    rw [Mealy.outputs_snoc, Mealy.state_snoc]
    cases hcur : core.machine.state is with
    | error p =>
      refine ⟨habove.append (fun m hm => (by cases hm)), fun s hs => (by cases hs)⟩
    | ok s =>
      rw [hcur] at hlast
      refine above_of_step hlast (hblank s hcur) habove fun h he => hown h ?_
      rw [he]
      exact ownHeader_mem_ownHeaders is h

/-- **No subtraction from a round underflows** in the consensus task that the core feeds, in either
mode, in any run in which no certificate of round zero is cleared and no vote completes one. -/
theorem rounds_never_underflow (core : Core) (dynamic : Bool) (is : List Event)
    (hown : ∀ h ∈ ownHeaders is, 1 ≤ h.round)
    (hspares : core.machine.Along core.StepSparesZero is) :
    (∀ c ∈ txConsensus (core.machine.outputs is), 1 ≤ c.round) ∧
      ({ core.consensus with dynamic } : Consensus).machine.Along
        ({ core.consensus with dynamic } : Consensus).SafeTurn
        (txConsensus (core.machine.outputs is)) := by
  have habove := above_of_run hown hspares
  have hsent : ∀ c ∈ txConsensus (core.machine.outputs is), 1 ≤ c.round :=
    fun c hc => habove _ (mem_txConsensus.mp hc) c rfl
  exact ⟨hsent, Consensus.safe_of_positive hsent⟩

/-- **A step that brings no vote, no header of ours and nothing of round zero spares it.** -/
theorem sparesZero_of_offers (hvote : ∀ v, e ≠ .vote v)
    (h : ∀ x ∈ e.offers, x.author ≠ core.name ∧ x.round ≠ 0) : core.SparesZero s e := by
  have hheader : ∀ x, core.HandsHeader s e x → x ∈ e.offers := by
    intro x hx
    cases e with
    | header y => exact congrArg some hx.1.symm
    | certificate c => exact congrArg some hx.1.symm
    | headerLoopback y => exact congrArg some hx.symm
    | certificateLoopback c => exact congrArg some hx.symm
    | ownHeader y => exact congrArg some hx.symm
    | vote v => cases hx
    | batch d w => cases hx
    | committed c => cases hx
  refine ⟨fun c hc hzero => ?_, fun _ v hv => ?_⟩
  · have hx := hheader _ (Provenance.handsHeader_of_handsCertificate hc)
    exact absurd hzero (h _ hx).2
  · rcases hv with hv | ⟨x, hx, hname, -⟩
    · cases e with
      | vote v' => exact absurd rfl (hvote v')
      | _ => cases hv
    · exact absurd hname (h x (hheader x hx)).1

end Core

namespace Core.GenesisAgain

open Sample

/-- The run without the genesis certificate. -/
def without : List Event := [h1, h2, h3, a1, a2, a3, a4, h4, h5].map .certificate

set_option maxRecDepth 100000 in
theorem evaluated : core.sanitizeCertificate .new g = .ok () ∧
    txConsensus (core.machine.outputs [.certificate g]) = [g] ∧ ownHeaders without = [] ∧
    (∀ c ∈ [h1, h2, h3, a1, a2, a3, a4, h4, h5], c.header.author ≠ core.name ∧ c.round ≠ 0) ∧
    ordered core without ≠ [] := by
  decide +kernel

/-- **A genesis certificate is forwarded**, and the very first subtraction underflows. -/
theorem genesis_forwarded : core.sanitizeCertificate .new g = .ok () ∧
    g ∈ txConsensus (core.machine.outputs [.certificate g]) ∧ g.round = 0 ∧
    ¬ core.consensus.machine.Along core.consensus.SafeTurn
      (txConsensus (core.machine.outputs [.certificate g])) := by
  obtain ⟨hsanitize, hsent, -⟩ := evaluated
  rw [hsent]
  exact ⟨hsanitize, List.mem_cons_self, rfl,
    Consensus.not_safe_of_zero (show [] ++ [g] <+: [g] from List.prefix_rfl)
      (Mealy.state_nil _) rfl⟩

theorem spares_without : core.machine.Along core.StepSparesZero without := by
  obtain ⟨-, -, -, hall, -⟩ := evaluated
  intro pre e hpre
  obtain ⟨c, hc, rfl⟩ := List.mem_map.mp (hpre.subset (List.mem_append_right _ List.mem_cons_self))
  cases core.machine.state pre with
  | error p => trivial
  | ok s =>
    refine sparesZero_of_offers (by simp) fun x hx => ?_
    cases hx
    exact hall c hc

theorem never_underflows_without : ordered core without ≠ [] ∧
    (∀ c ∈ txConsensus (core.machine.outputs without), 1 ≤ c.round) ∧
    core.consensus.machine.Along core.consensus.SafeTurn
      (txConsensus (core.machine.outputs without)) := by
  obtain ⟨-, -, hown, -, hordered⟩ := evaluated
  exact ⟨hordered, rounds_never_underflow core false without (by simp [hown]) spares_without⟩

end Core.GenesisAgain

end Bullshark
