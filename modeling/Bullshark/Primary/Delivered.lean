import Bullshark.Primary.Stored

/-!
# Primary/Delivered — the histories of what the core sends to consensus

Consensus relies on the core to send a certificate after all its ancestors.  `deliver_certificate`
asks the store for them, where headers and certificates share the keys: a header stored under a
parent's digest passes for the parent.  The checks of `process_header` would notice, but are
skipped for a header that is being processed, also when they failed before (`history_missing`).
Where this does not happen, every parent is a genesis certificate or was sent before
(`delivers_whole_histories`).
-/

namespace Bullshark

namespace Core

open Handler

section

variable [Crypto]

/-- Each certificate sent comes after its parents, genesis apart. -/
def HistoryComplete (committee : Committee) (sent : List Certificate) : Prop :=
  ∀ pre c, pre ++ [c] <+: sent → ∀ d ∈ c.header.parents.elems,
    (∃ g ∈ Certificate.genesis committee, g.digest = d) ∨ ∃ p ∈ pre, p.digest = d

instance (committee : Committee) (sent : List Certificate) :
    Decidable (HistoryComplete committee sent) :=
  decidable_of_iff' _ Mealy.forall_prefix_iff

/-- The waiters loop back what they were sent, and the parents of our own headers are genesis
certificates or were handed out to the `Proposer`. -/
def Furnished (core : Core) (is : List Event) (e : Event) : Prop :=
  core.Returned is e ∧ match e with
    | .ownHeader h => ∀ d ∈ h.parents.elems, (Synchronizer.genesis core.committee d).isSome ∨
        d ∈ handedOutDigests (core.machine.outputs is)
    | _ => True

instance (core : Core) (is : List Event) (e : Event) : Decidable (core.Furnished is e) :=
  match e with
  | .ownHeader h => inferInstanceAs (Decidable (True ∧ ∀ d ∈ h.parents.elems,
      (Synchronizer.genesis core.committee d).isSome ∨
        d ∈ handedOutDigests (core.machine.outputs is)))
  | .headerLoopback h =>
    inferInstanceAs (Decidable (h ∈ suspendedHeaders (core.machine.outputs is) ∧ True))
  | .certificateLoopback c =>
    inferInstanceAs (Decidable (.syncCertificate c ∈ core.machine.outputs is ∧ True))
  | .header _ => inferInstanceAs (Decidable (True ∧ True))
  | .vote _ => inferInstanceAs (Decidable (True ∧ True))
  | .certificate _ => inferInstanceAs (Decidable (True ∧ True))
  | .batch _ _ => inferInstanceAs (Decidable (True ∧ True))
  | .committed _ => inferInstanceAs (Decidable (True ∧ True))

/-- A header is stored under this digest, which is no genesis certificate's. -/
def Tangled (core : Core) (state : State) (d : Digest) : Prop :=
  Synchronizer.genesis core.committee d = none ∧
    ((state.store.lookup (.digest d)).any fun v => v matches .header _) = true

/-- Where the header of the certificate is being processed and the ancestors seem to be there, none
of them is a header. -/
def Untangled (core : Core) (state : State) (c : Certificate) : Prop :=
  c.header.id ∈ state.processingAt c.header.round →
    Synchronizer.hasAncestors core.committee state.store c = true →
      ∀ d ∈ c.header.parents.elems, ¬ core.Tangled state d

instance (core : Core) (state : State) (c : Certificate) : Decidable (core.Untangled state c) :=
  inferInstanceAs (Decidable (_ → _ → ∀ d ∈ c.header.parents.elems, ¬ (_ ∧ _)))

/-- The certificate the event hands to `process_certificate` is untangled. -/
def HandsUntangled (core : Core) : Except Panic State → Event → Prop
  | .ok s, .certificate c => core.sanitizeCertificate s c = .ok () → core.Untangled s c
  | .ok s, .certificateLoopback c => core.Untangled s c
  | _, _ => True

instance (core : Core) : ∀ (s : Except Panic State) (e : Event),
    Decidable (core.HandsUntangled s e)
  | .ok s, .certificate c =>
    inferInstanceAs (Decidable (core.sanitizeCertificate s c = .ok () → core.Untangled s c))
  | .ok s, .certificateLoopback c => inferInstanceAs (Decidable (core.Untangled s c))
  | .error _, _ => inferInstanceAs (Decidable True)
  | .ok _, .header _ => inferInstanceAs (Decidable True)
  | .ok _, .vote _ => inferInstanceAs (Decidable True)
  | .ok _, .headerLoopback _ => inferInstanceAs (Decidable True)
  | .ok _, .ownHeader _ => inferInstanceAs (Decidable True)
  | .ok _, .batch _ _ => inferInstanceAs (Decidable True)
  | .ok _, .committed _ => inferInstanceAs (Decidable True)

/-! ## What was sent -/

/-- The digest of a genesis certificate, or of one that was sent. -/
def Covered (core : Core) (log : List Emission) (d : Digest) : Prop :=
  (Synchronizer.genesis core.committee d).isSome ∨ d ∈ sentDigests log

variable {core : Core} {is : List Event} {s s' : State} {log log' w : List Emission} {d : Digest}
  {c : Certificate}

theorem Covered.append (h : core.Covered log d) (w : List Emission) : core.Covered (log ++ w) d :=
  h.imp_right fun hd => sentDigests_append ▸ List.mem_append_left _ hd

theorem Covered.mono (h : core.Covered log d) (hp : log <+: log') : core.Covered log' d := by
  obtain ⟨w, rfl⟩ := hp
  exact h.append w

/-- What the store, the aggregators and the `Proposer` have was sent, and what was sent has a
complete history. -/
structure Delivered (core : Core) (s : State) (log : List Emission) : Prop where
  stored : ∀ d c, s.store.lookup (.digest d) = some (.certificate c) → d ∈ sentDigests log
  nonempty : ∀ d, s.store.lookup (.digest d) ≠ some .empty
  collected : ∀ r, ∀ c ∈ (s.aggregatorAt r).certificates, c.digest ∈ sentDigests log
  handed : ∀ d ∈ handedOutDigests log, d ∈ sentDigests log
  current : ∀ d ∈ s.currentHeader.parents, core.Covered log d
  assembled : ∀ a c, .assembled a c ∈ log → ∀ d ∈ c.header.parents, core.Covered log d
  complete : HistoryComplete core.committee (txConsensus log)

namespace Delivered

/-- What is found under a digest is covered. -/
theorem covered_of_found (h : core.Delivered s log)
    (hd : Synchronizer.Found core.committee s.store d c) : core.Covered log d := by
  rcases hd with hg | ⟨-, hs⟩
  · exact Or.inl (by rw [hg]; rfl)
  · exact Or.inr (h.stored d c hs)

/-- The parents of a header whose parents are accepted are covered. -/
theorem covered_of_accepts (h : core.Delivered s log) {x : Header}
    (hacc : core.Accepts s.store x) (hd : d ∈ x.parents) : core.Covered log d := by
  obtain ⟨parents, hfind, -, -⟩ := hacc
  have hfound := (Synchronizer.findParents_eq_ok hfind).2 rfl
  obtain ⟨i, hi, rfl⟩ := List.getElem_of_mem hd
  exact h.covered_of_found (List.forall₂_iff_get.mp hfound |>.2 i hi (hfound.length_eq ▸ hi))

/-- The parents of a certificate that is cleared and untangled are covered. -/
theorem covered_of_clears (h : core.Delivered s log) (hclears : core.Clears s c)
    (huntangled : core.Untangled s c) (hd : d ∈ c.header.parents) : core.Covered log d := by
  rcases hclears with ⟨hmem, hancestors⟩ | hnil | hacc
  · have hhas : Synchronizer.has core.committee s.store d = true :=
      List.all_eq_true.mp hancestors d hd
    cases hg : Synchronizer.genesis core.committee d with
    | some g => exact Or.inl (by rw [hg]; rfl)
    | none =>
      cases hv : s.store.lookup (.digest d) with
      | none => simp [Synchronizer.has, hg, hv] at hhas
      | some v =>
        cases v with
        | certificate x => exact Or.inr (h.stored d x hv)
        | header x => exact absurd ⟨hg, by simp [hv]⟩ (huntangled hmem hancestors d hd)
        | empty => exact absurd hv (h.nonempty d)
  · rw [BTreeSet.mem_def, hnil] at hd
    cases hd
  · exact h.covered_of_accepts hacc hd

/-- Emitting messages that send nothing. -/
theorem emit (h : core.Delivered s log) (hsent : txConsensus w = [])
    (hhanded : handedOutDigests w = [])
    (hassembled : ∀ a c, .assembled a c ∈ w → ∀ d ∈ c.header.parents, core.Covered log d) :
    core.Delivered s (log ++ w) := by
  have hsame : txConsensus (log ++ w) = txConsensus log := by
    rw [txConsensus, List.filterMap_append]
    exact (congrArg (txConsensus log ++ ·) hsent).trans (List.append_nil _)
  have hdigests : sentDigests (log ++ w) = sentDigests log := congrArg (List.map Certificate.digest) hsame
  refine ⟨?_, h.nonempty, ?_, ?_, fun d hd => (h.current d hd).append w, ?_, hsame ▸ h.complete⟩
  · rw [hdigests]
    exact h.stored
  · rw [hdigests]
    exact h.collected
  · rw [hdigests, handedOutDigests, List.flatMap_append]
    intro d hd
    rcases List.mem_append.mp hd with hd | hd
    · exact h.handed d hd
    · rw [handedOutDigests] at hhanded
      rw [hhanded] at hd
      cases hd
  · intro a c hc d hd
    rcases List.mem_append.mp hc with hc | hc
    · exact (h.assembled a c hc d hd).append w
    · exact (hassembled a c hc d hd).append w

/-- A change of the state that keeps the store, the current header and the aggregators. -/
theorem of_store_eq (h : core.Delivered s log) (hcur : s'.currentHeader = s.currentHeader)
    (hstore : s'.store = s.store) (hagg : s'.certificatesAggregators = s.certificatesAggregators) :
    core.Delivered s' log where
  stored := hstore ▸ h.stored
  nonempty := hstore ▸ h.nonempty
  collected r := by
    rw [State.aggregatorAt, hagg]
    exact h.collected r
  handed := h.handed
  current := hcur ▸ h.current
  assembled := h.assembled
  complete := h.complete

/-- Writing a header, or a batch. -/
theorem write (h : core.Delivered s log) {k : StoreKey} {v : StoreValue}
    (hv : ∀ d, k = .digest d → ∃ x, v = .header x) : core.Delivered (s.write k v) log where
  stored d c hc := by
    rw [State.write, AList.lookup_insert_eq] at hc
    split at hc
    · next hk =>
      obtain ⟨x, rfl⟩ := hv d hk.symm
      cases hc
    · exact h.stored d c hc
  nonempty d hd := by
    rw [State.write, AList.lookup_insert_eq] at hd
    split at hd
    · next hk =>
      obtain ⟨x, rfl⟩ := hv d hk.symm
      cases hd
    · exact h.nonempty d hd
  collected := h.collected
  handed := h.handed
  current := h.current
  assembled := h.assembled
  complete := h.complete

/-- **Accepting a certificate whose parents are covered.** -/
theorem accept (h : core.Delivered s log) (hc : ∀ d ∈ c.header.parents, core.Covered log d) :
    core.Delivered (core.accepted c s) (log ++ (handedOut
      ((s.aggregatorAt c.round).append c core.committee).2 c.round ++ [.consensus c])) := by
  rcases happend : (s.aggregatorAt c.round).append c core.committee with ⟨aggregator, parents⟩
  obtain ⟨hkept, hout⟩ := CertificatesAggregator.mem_append happend
  have hsilent : txConsensus (handedOut parents c.round) = [] := by
    cases parents <;> rfl
  have hsent : txConsensus (log ++ (handedOut parents c.round ++ [.consensus c]))
      = txConsensus log ++ [c] := by
    rw [txConsensus, List.filterMap_append, List.filterMap_append]
    exact congrArg (fun l => txConsensus log ++ (l ++ [c])) hsilent
  have hdigests : sentDigests (log ++ (handedOut parents c.round ++ [.consensus c]))
      = sentDigests log ++ [c.digest] := by
    rw [sentDigests, hsent, List.map_append]
    rfl
  have hmem : ∀ x, x ∈ (s.aggregatorAt c.round).certificates ∨ x = c →
      x.digest ∈ sentDigests log ++ [c.digest] := by
    rintro x (hx | rfl)
    · exact List.mem_append_left _ (h.collected c.round x hx)
    · exact List.mem_append_right _ List.mem_cons_self
  refine ⟨fun d x hx => ?_, fun d hd => ?_, fun r x hx => ?_, fun d hd => ?_,
    fun d hd => (h.current d hd).append _, fun a x hx d hd => ?_, fun pre x hpre d hd => ?_⟩
  · rw [hdigests]
    rw [accepted, State.setAggregator, State.write, AList.lookup_insert_eq] at hx
    split at hx
    · next hk =>
      cases hk
      exact List.mem_append_right _ List.mem_cons_self
    · exact List.mem_append_left _ (h.stored d x hx)
  · rw [accepted, State.setAggregator, State.write, AList.lookup_insert_eq] at hd
    split at hd
    · cases hd
    · exact h.nonempty d hd
  · rw [hdigests]
    rw [accepted, happend, State.aggregatorAt, State.setAggregator, AList.lookup_insert_eq] at hx
    split at hx
    · exact hmem x (hkept x hx)
    · exact List.mem_append_left _ (h.collected r x hx)
  · rw [hdigests]
    rw [handedOutDigests, List.flatMap_append] at hd
    rcases List.mem_append.mp hd with hd | hd
    · exact List.mem_append_left _ (h.handed d hd)
    · cases parents with
      | none => cases hd
      | some ps =>
        have hd' : d ∈ ps.map Certificate.digest := by simpa [handedOut] using hd
        obtain ⟨x, hx, rfl⟩ := List.mem_map.mp hd'
        exact hmem x (hout ps rfl x hx)
  · refine Covered.append ?_ _
    rcases List.mem_append.mp hx with hx | hx
    · exact h.assembled a x hx d hd
    · obtain ⟨ps, hps⟩ | hps := mem_accepted hx <;> cases hps
  · rw [hsent] at hpre
    rcases List.prefix_concat_iff.mp hpre with heq | hpre
    · obtain ⟨rfl, rfl⟩ : pre = txConsensus log ∧ x = c := by simpa using heq
      rcases hc d hd with hg | hd
      · obtain ⟨g, hg⟩ := Option.isSome_iff_exists.mp hg
        exact Or.inl ⟨g, List.mem_of_find?_eq_some hg, by simpa using List.find?_some hg⟩
      · exact Or.inr (List.mem_map.mp hd)
    · exact h.complete pre x hpre d hd

/-- The effects of a turn. -/
theorem effect {e : Event} {s₀ : State} (hret : core.HandsUntangled (.ok s₀) e)
    (h₀ : core.Delivered s₀ (core.machine.outputs is)) (hwithin : core.Within is s₀ e s log)
    (h : core.Delivered s log) (hE : core.TurnEffect s₀ e s log w s') :
    core.Delivered s' (log ++ w) := by
  have hquiet : ∀ {s'}, s'.currentHeader = s.currentHeader → s'.store = s.store →
      s'.certificatesAggregators = s.certificatesAggregators → txConsensus w = [] →
      handedOutDigests w = [] → (∀ a c, .assembled a c ∉ w) → core.Delivered s' (log ++ w) :=
    fun hcur hstore hagg hsent hhanded hassembled =>
      (h.of_store_eq hcur hstore hagg).emit hsent hhanded fun a c hc => absurd hc (hassembled a c)
  cases hE with
  | processing _ => exact hquiet rfl rfl rfl rfl rfl (by simp)
  | awaitParents _ _ _ _ => exact hquiet rfl rfl rfl rfl rfl (by simp)
  | awaitBatches _ _ _ => exact hquiet rfl rfl rfl rfl rfl (by simp)
  | storeHeader _ _ =>
    rw [List.append_nil]
    exact h.write fun d hd => ⟨_, rfl⟩
  | vote _ _ _ _ => exact hquiet rfl rfl rfl rfl rfl (by simp)
  | sendVote _ _ => exact hquiet rfl rfl rfl rfl rfl (by simp)
  | count _ _ => exact hquiet rfl rfl rfl rfl rfl (by simp)
  | @certify _ aggregator _ _ happend =>
    have hs : core.Delivered (s.setVotesAggregator aggregator) log := h.of_store_eq rfl rfl rfl
    refine hs.emit rfl rfl fun a c hc d hd => ?_
    cases List.mem_singleton.mp hc
    rw [VotesAggregator.header_of_append happend] at hd
    exact h.current d hd
  | awaitAncestors _ _ _ => exact hquiet rfl rfl rfl rfl rfl (by simp)
  | @accept c hc =>
    refine h.accept fun d hd => ?_
    rcases hc with ⟨hhands, hclears⟩ | hassembled
    · refine (h₀.covered_of_clears hclears ?_ hd).mono hwithin.log
      cases e with
      | certificate x =>
        obtain ⟨rfl, hs⟩ := hhands
        exact hret hs
      | certificateLoopback x =>
        cases hhands
        exact hret
      | _ => cases hhands
    · exact h.assembled _ c hassembled d hd

/-- **Every run in which no certificate is tangled delivers whole histories.** -/
theorem invariant (core : Core) : core.Invariant
    (fun is e => core.Furnished is e ∧ core.HandsUntangled (core.machine.state is) e)
    (fun _ => core.Delivered) where
  init :=
    { stored := fun d c hc => (by cases hc)
      nonempty := fun d hd => (by cases hd)
      collected := fun r c hc => (by cases hc)
      handed := fun d hd => (by cases hd)
      current := fun d hd => (by cases hd)
      assembled := fun a c hc => (by cases hc)
      complete := fun pre c hpre => (by simp [txConsensus] at hpre) }
  mono _ h := h
  cleanUp {_ s _} h :=
    { stored := by rw [(State.cleanUp_eq s _).1]; exact h.stored
      nonempty := by rw [(State.cleanUp_eq s _).1]; exact h.nonempty
      collected := fun r c hc => h.collected r c (State.certificates_cleanUp hc)
      handed := h.handed
      current := by rw [(State.cleanUp_eq s _).2.1]; exact h.current
      assembled := h.assembled
      complete := h.complete }
  batch _ _ h := h.write fun d hd => (by cases hd)
  committed _ h := h.of_store_eq rfl rfl rfl
  propose {is s x} _ hok h := by
    have hproposed : core.Delivered (proposed s x) (core.machine.outputs is) :=
      { h with current := fun d hd => (hok.1.2 d hd).imp_right (h.handed d) }
    exact hproposed.emit rfl rfl (by simp)
  effect hs₀ hok h₀ hwithin h hE := effect (hs₀ ▸ hok.2) h₀ hwithin h hE

end Delivered

/-- **The core delivers whole histories**: in every run in which no certificate whose header is
being processed has a header stored under the digest of a parent, every parent of a certificate
sent to consensus is a genesis certificate or was sent before. -/
theorem delivers_whole_histories (core : Core) (is : List Event)
    (hrun : ∀ pre e, pre ++ [e] <+: is → core.Furnished pre e)
    (huntangled : core.machine.Along core.HandsUntangled is) :
    HistoryComplete core.committee (txConsensus (core.machine.outputs is)) := by
  obtain ⟨s, hs, -⟩ := (Delivered.invariant core).run fun pre e hpre =>
    ⟨hrun pre e hpre, huntangled pre e hpre⟩
  exact hs.complete

end

end Core

namespace Core.Tangle

open Sample

/-- The core of the first of four authorities. -/
def core : Core := ⟨key 1, committee4, 50, fun digest => sign digest (key 1)⟩

/-- The header of another authority for round one. -/
def proposal : Header :=
  header (key 2) 1 .empty ((Certificate.genesis committee4).map Certificate.digest)

/-- The genesis certificate of a third authority, with that header for a parent. -/
def forged : Certificate :=
  let g := Certificate.genesisOf (key 3)
  { g with header := { g.header with parents := BTreeSet.collect [proposal.id] } }

/-- The header is voted for and stored; the certificate is rejected once, then accepted. -/
def tangled : List Event := [.header proposal, .certificate forged, .certificate forged]

def c1 : Certificate := certificate committee4 (key 2) 1 (Certificate.genesis committee4)
def c2 : Certificate := certificate committee4 (key 2) 2 [c1]

/-- A certificate waits for its parent. -/
def orderly : List Event := [.certificate c2, .certificate c1, .certificateLoopback c2]

set_option maxRecDepth 100000 in
/-- **A certificate is sent whose parent is a header.** -/
theorem history_missing : core.AdmissibleRun tangled ∧
    (∀ pre e, pre ++ [e] <+: tangled → core.Furnished pre e) ∧
    ¬ HistoryComplete committee4 (txConsensus (core.machine.outputs tangled)) := by
  decide +kernel

set_option maxRecDepth 100000 in
theorem furnished_orderly : (∀ pre e, pre ++ [e] <+: orderly → core.Furnished pre e) ∧
    core.machine.Along core.HandsUntangled orderly ∧
    txConsensus (core.machine.outputs orderly) = [c1, c2] := by
  decide +kernel

theorem delivers_whole_histories_orderly : core.machine.Along core.HandsUntangled orderly ∧
    txConsensus (core.machine.outputs orderly) = [c1, c2] ∧
    HistoryComplete committee4 (txConsensus (core.machine.outputs orderly)) := by
  obtain ⟨hfurnished, huntangled, hsent⟩ := furnished_orderly
  exact ⟨huntangled, hsent, delivers_whole_histories core orderly hfurnished huntangled⟩

end Core.Tangle

end Bullshark
