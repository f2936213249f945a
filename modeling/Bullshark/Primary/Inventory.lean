import Bullshark.Primary.HandedOut
import Bullshark.Primary.Stored
import Bullshark.Primary.Validated

/-!
# Primary/Inventory — what the core keeps, and where it has it from

Whatever the network sends: every certificate the core stores, collects or hands out it also sent to
consensus, and every header it keeps came in an event, under its own digest, from the `Proposer`, or
under the id of a genesis header (`Inventory.invariant`).  So the parents of a header that is voted
for are genesis certificates or were sent to consensus (`exists_parents_of_vote`).
-/

namespace Bullshark

namespace Core

open Handler

theorem mem_txProposer {log : List Emission} {m : List Certificate × ℕ} :
    m ∈ txProposer log ↔ .parents m.1 m.2 ∈ log := by
  rw [txProposer, List.mem_filterMap]
  constructor
  · rintro ⟨e, he, hm⟩
    cases e <;> cases hm
    exact he
  · exact fun h => ⟨_, h, rfl⟩

variable [Crypto]

/-- The header occurs in the run, and its id is its digest or that of a genesis header, or it is our
own. -/
structure Familiar (core : Core) (is : List Event) (h : Header) : Prop where
  seen : h ∈ seenHeaders is
  named : h.id = default ∨ h.verify core.committee = .ok () ∨ h ∈ ownHeaders is

/-- Where what the core keeps and hands on comes from. -/
structure Inventory (core : Core) (is : List Event) (s : State) (log : List Emission) : Prop where
  current : s.currentHeader = default ∨ s.currentHeader ∈ ownHeaders is
  pending : ∀ e ∈ log, ∀ h, e.pending = some h → core.Familiar is h
  assembled : ∀ a c, .assembled a c ∈ log → c.header = default ∨ c.header ∈ ownHeaders is
  headers : ∀ d h, s.store.lookup (.digest d) = some (.header h) → h.id = d ∧ core.Familiar is h
  certificates : ∀ d c, s.store.lookup (.digest d) = some (.certificate c) →
    c.digest = d ∧ .consensus c ∈ log
  collected : ∀ r, ∀ c ∈ (s.aggregatorAt r).certificates, .consensus c ∈ log
  handed : ∀ ps r, .parents ps r ∈ log → ∀ p ∈ ps, .consensus p ∈ log
  sent : ∀ c, .consensus c ∈ log → core.Familiar is c.header

variable {core : Core} {is : List Event} {s s' : State} {log w : List Emission} {h : Header}

omit [Crypto] in
theorem seenHeaders_subset {js : List Event} (hsub : is ⊆ js) : seenHeaders is ⊆ seenHeaders js :=
  List.cons_subset_cons _ (List.filterMap_subset _ hsub)

theorem Familiar.mono (hh : core.Familiar is h) {js : List Event} (hsub : is ⊆ js) :
    core.Familiar js h :=
  ⟨seenHeaders_subset hsub hh.seen, hh.named.imp_right (Or.imp_right fun hown =>
    mem_ownHeaders.mpr (hsub (mem_ownHeaders.mp hown)))⟩

theorem familiar_of_own (hh : h = default ∨ h ∈ ownHeaders is) : core.Familiar is h := by
  rcases hh with rfl | hh
  · exact ⟨default_mem_seenHeaders is, Or.inl rfl⟩
  · exact ⟨mem_seenHeaders_of_own hh, Or.inr (Or.inr hh)⟩

omit [Crypto] in
/-- The header in the last event occurs in the run. -/
theorem mem_seenHeaders_of_offers {e : Event} (he : ∀ x, e ≠ .headerLoopback x)
    (he' : ∀ c, e ≠ .certificateLoopback c) (hh : h ∈ e.offers) :
    h ∈ seenHeaders (is ++ [e]) := by
  refine List.mem_cons_of_mem _ (List.mem_filterMap.mpr ⟨e, by simp, ?_⟩)
  cases e with
  | headerLoopback x => exact absurd rfl (he x)
  | certificateLoopback c => exact absurd rfl (he' c)
  | _ => exact hh

namespace Inventory

theorem mono (hi : core.Inventory is s log) (e : Event) : core.Inventory (is ++ [e]) s log where
  current := hi.current.imp_right ownHeaders_mono
  pending m hm h hh := (hi.pending m hm h hh).mono (List.subset_append_left _ _)
  assembled a c hc := (hi.assembled a c hc).imp_right ownHeaders_mono
  headers d h hh := ⟨(hi.headers d h hh).1, (hi.headers d h hh).2.mono (List.subset_append_left _ _)⟩
  certificates := hi.certificates
  collected := hi.collected
  handed := hi.handed
  sent c hc := (hi.sent c hc).mono (List.subset_append_left _ _)

/-- A header that a step hands over is familiar. -/
theorem hands (hi : core.Inventory is s (core.machine.outputs is)) {e : Event}
    (hret : core.Returned is e) (hh : core.HandsHeader s e h) : core.Familiar (is ++ [e]) h := by
  have hoffers := offers_of_hands hh
  cases e with
  | header x =>
    obtain ⟨rfl, hok⟩ := hh
    exact ⟨mem_seenHeaders_of_offers (by simp) (by simp) hoffers,
      Or.inr (Or.inl (sanitizeHeader_eq_ok hok).2)⟩
  | certificate c =>
    obtain ⟨rfl, hok⟩ := hh
    refine ⟨mem_seenHeaders_of_offers (by simp) (by simp) hoffers, ?_⟩
    rcases (sanitizeCertificate_eq_ok hok).2 with ⟨hid, -⟩ | hq
    · exact Or.inl hid
    · exact Or.inr (Or.inl (Certificate.verifyQuorum_eq_ok_iff.mp hq).1)
  | headerLoopback x =>
    cases hh
    obtain ⟨m, hm, hpending⟩ := exists_pending_of_suspended hret
    exact (hi.pending m hm _ hpending).mono (List.subset_append_left _ _)
  | certificateLoopback c =>
    cases hh
    exact (hi.pending _ hret _ rfl).mono (List.subset_append_left _ _)
  | ownHeader x =>
    cases hh
    exact familiar_of_own (Or.inr (ownHeader_mem_ownHeaders is _))
  | vote _ => cases hh
  | batch _ _ => cases hh
  | committed _ => cases hh

/-- One more effect, from what it adds to the store, to the aggregators and to the log. -/
theorem extend (hi : core.Inventory is s log) (hcur : s'.currentHeader = s.currentHeader)
    (hpending : ∀ m ∈ w, ∀ h, m.pending = some h → core.Familiar is h)
    (hassembled : ∀ a c, .assembled a c ∈ w → c.header = default ∨ c.header ∈ ownHeaders is)
    (hheaders : ∀ d h, s'.store.lookup (.digest d) = some (.header h) →
      s.store.lookup (.digest d) = some (.header h) ∨ (h.id = d ∧ core.Familiar is h))
    (hcertificates : ∀ d c, s'.store.lookup (.digest d) = some (.certificate c) →
      s.store.lookup (.digest d) = some (.certificate c) ∨ (c.digest = d ∧ .consensus c ∈ w))
    (hcollected : ∀ r, ∀ c ∈ (s'.aggregatorAt r).certificates,
      c ∈ (s.aggregatorAt r).certificates ∨ .consensus c ∈ w)
    (hhanded : ∀ ps r, .parents ps r ∈ w → ∀ p ∈ ps, .consensus p ∈ log ++ w)
    (hsent : ∀ c, .consensus c ∈ w → core.Familiar is c.header) :
    core.Inventory is s' (log ++ w) where
  current := hcur ▸ hi.current
  pending m hm := (List.mem_append.mp hm).elim (hi.pending m) (hpending m)
  assembled a c hc := (List.mem_append.mp hc).elim (hi.assembled a c) (hassembled a c)
  headers d h hh := (hheaders d h hh).elim (hi.headers d h) id
  certificates d c hc := (hcertificates d c hc).elim
    (fun hc => ⟨(hi.certificates d c hc).1, List.mem_append_left _ (hi.certificates d c hc).2⟩)
    fun hc => ⟨hc.1, List.mem_append_right _ hc.2⟩
  collected r c hc := (hcollected r c hc).elim
    (fun hc => List.mem_append_left _ (hi.collected r c hc)) (List.mem_append_right _)
  handed ps r hps := (List.mem_append.mp hps).elim
    (fun hps p hp => List.mem_append_left _ (hi.handed ps r hps p hp)) (hhanded ps r)
  sent c hc := (List.mem_append.mp hc).elim (hi.sent c) (hsent c)

/-- An effect that stores nothing and sends nothing to consensus or the `Proposer`. -/
theorem quiet (hi : core.Inventory is s log) (hcur : s'.currentHeader = s.currentHeader)
    (hstore : s'.store = s.store) (hagg : s'.certificatesAggregators = s.certificatesAggregators)
    (hpending : ∀ m ∈ w, ∀ h, m.pending = some h → core.Familiar is h)
    (hassembled : ∀ a c, .assembled a c ∈ w → c.header = default ∨ c.header ∈ ownHeaders is)
    (hparents : ∀ ps r, .parents ps r ∉ w) (hsent : ∀ c, .consensus c ∉ w) :
    core.Inventory is s' (log ++ w) := by
  refine hi.extend hcur hpending hassembled (fun d h hh => Or.inl (hstore ▸ hh))
    (fun d c hc => Or.inl (hstore ▸ hc)) (fun r c hc => Or.inl ?_)
    (fun ps r hps => absurd hps (hparents ps r)) (fun c hc => absurd hc (hsent c))
  rwa [State.aggregatorAt, hagg] at hc

/-- **Accepting a certificate.** -/
theorem accept (hi : core.Inventory is s log) {c : Certificate} (hc : core.Familiar is c.header) :
    core.Inventory is (core.accepted c s) (log ++ (handedOut
      ((s.aggregatorAt c.round).append c core.committee).2 c.round ++ [.consensus c])) := by
  rcases happend : (s.aggregatorAt c.round).append c core.committee with ⟨aggregator, parents⟩
  obtain ⟨hkept, hout⟩ := CertificatesAggregator.mem_append happend
  have hlast : Emission.consensus c ∈ handedOut parents c.round ++ [.consensus c] := by simp
  have hstore : ∀ d v, (core.accepted c s).store.lookup (.digest d) = some v →
      s.store.lookup (.digest d) = some v ∨ (c.digest = d ∧ v = .certificate c) := by
    intro d v hv
    rw [accepted, State.setAggregator, State.write, AList.lookup_insert_eq] at hv
    split at hv
    · next hk =>
      cases hk
      cases hv
      exact Or.inr ⟨rfl, rfl⟩
    · exact Or.inl hv
  refine hi.extend rfl (fun m hm h hh => ?_) (fun a x hx => ?_) (fun d h hh => ?_) (fun d x hx => ?_)
    (fun r x hx => ?_) (fun ps r hps p hp => ?_) (fun x hx => ?_)
  · obtain ⟨ps, rfl⟩ | rfl := mem_accepted hm <;> cases hh
  · obtain ⟨ps, hps⟩ | hps := mem_accepted hx <;> cases hps
  · exact (hstore d _ hh).imp_right fun hh => (by cases hh.2)
  · refine (hstore d _ hx).imp_right fun hx => ?_
    obtain ⟨hd, hx⟩ := hx
    cases hx
    exact ⟨hd, hlast⟩
  · rw [accepted, happend, State.aggregatorAt, State.setAggregator, AList.lookup_insert_eq] at hx
    split at hx
    · next hr =>
      subst hr
      rcases hkept x hx with hx | rfl
      · exact Or.inl hx
      · exact Or.inr hlast
    · exact Or.inl hx
  · rcases List.mem_append.mp hps with hps | hps
    · cases parents with
      | none => cases hps
      | some qs =>
        cases List.mem_singleton.mp hps
        rcases hout ps rfl p hp with hp | rfl
        · exact List.mem_append_left _ (hi.collected _ p hp)
        · exact List.mem_append_right _ hlast
    · cases List.mem_singleton.mp hps
  · obtain ⟨ps, hps⟩ | hps := mem_accepted hx
    · cases hps
    · cases hps
      exact hc

/-- The effects of a turn. -/
theorem effect {I : Given} (hH : ∀ x, I.header x → core.Familiar is x)
    (hC : ∀ c, I.certificate c → I.header c.header) (hi : core.Inventory is s log)
    (hE : Effect core I s log w s') : core.Inventory is s' (log ++ w) := by
  have hheader : ∀ x, I.header x ∨ x = s.currentHeader → core.Familiar is x := by
    rintro x (hx | rfl)
    · exact hH x hx
    · exact familiar_of_own hi.current
  have hcert : ∀ c, I.certificate c ∨ .assembled core.othersAddresses c ∈ log →
      core.Familiar is c.header := by
    rintro c (hc | hc)
    · exact hH _ (hC c hc)
    · exact familiar_of_own (hi.assembled _ c hc)
  have hpending : ∀ m ∈ w, ∀ h, m.pending = some h → core.Familiar is h := by
    intro m hm h hh
    rcases hE.pending hC hm hh with hgiven | rfl | ⟨m', hm', hh'⟩
    · exact hH h hgiven
    · exact familiar_of_own hi.current
    · exact hi.pending m' hm' h hh'
  have hassembled : ∀ a c, .assembled a c ∈ w → c.header = default ∨ c.header ∈ ownHeaders is := by
    intro a c hc
    rw [hE.header_of_assembled hc]
    exact hi.current
  cases hE with
  | @storeHeader x hh _ =>
    have hlookup : ∀ d v, (s.write (.digest x.id) (.header x)).store.lookup (.digest d) = some v →
        s.store.lookup (.digest d) = some v ∨ (x.id = d ∧ v = .header x) := by
      intro d v hv
      rw [State.write, AList.lookup_insert_eq] at hv
      split at hv
      · next hk =>
        cases hk
        cases hv
        exact Or.inr ⟨rfl, rfl⟩
      · exact Or.inl hv
    refine hi.extend rfl hpending hassembled (fun d y hy => ?_) (fun d c hc => ?_)
      (fun r c hc => Or.inl hc) (by simp) (by simp)
    · refine (hlookup d _ hy).imp_right fun hy => ?_
      obtain ⟨hd, hy⟩ := hy
      cases hy
      exact ⟨hd, hheader _ hh⟩
    · exact (hlookup d _ hc).imp_right fun hc => (by cases hc.2)
  | accept hc => exact hi.accept (hcert _ (hc.imp_left And.left))
  | _ => exact hi.quiet rfl rfl rfl hpending hassembled (by simp) (by simp)

/-- **Where everything comes from, in every run.** -/
theorem invariant (core : Core) : core.Invariant core.Returned core.Inventory where
  init :=
    { current := Or.inl rfl
      pending := by simp
      assembled := by simp
      headers := fun d h hh => (by cases hh)
      certificates := fun d c hc => (by cases hc)
      collected := fun r c hc => (by cases hc)
      handed := by simp
      sent := by simp }
  mono _ hi := hi.mono _
  cleanUp {_ s _} hi :=
    { hi with
      current := (State.cleanUp_eq s _).2.1 ▸ hi.current
      headers := (State.cleanUp_eq s core.gcDepth).1 ▸ hi.headers
      certificates := (State.cleanUp_eq s core.gcDepth).1 ▸ hi.certificates
      collected := fun r c hc => hi.collected r c (State.certificates_cleanUp hc) }
  batch {is s out} d w hi := by
    have hlookup : ∀ x, (s.write (.batch d w) .empty).store.lookup (.digest x)
        = s.store.lookup (.digest x) := by
      intro x
      rw [State.write, AList.lookup_insert_eq, if_neg (by simp)]
    have hnext : core.Inventory is (s.write (.batch d w) .empty) (out ++ []) :=
      hi.extend rfl (by simp) (by simp)
      (fun x h hh => Or.inl (hlookup x ▸ hh)) (fun x c hc => Or.inl (hlookup x ▸ hc))
      (fun r c hc => Or.inl hc) (by simp) (by simp)
    rwa [List.append_nil] at hnext
  committed _ hi := ⟨hi.current, hi.pending, hi.assembled, hi.headers, hi.certificates,
    hi.collected, hi.handed, hi.sent⟩
  propose {is s x} _ _ hi := by
    have hmono := hi.mono (.ownHeader x)
    have hproposed : core.Inventory (is ++ [.ownHeader x]) (proposed s x)
        (core.machine.outputs is) :=
      { hmono with current := Or.inr (ownHeader_mem_ownHeaders is x) }
    exact hproposed.quiet rfl rfl rfl (by simp [Emission.pending]) (by simp) (by simp) (by simp)
  effect _ hret h₀ _ hi hE := hi.effect (fun _ hx => h₀.hands hret hx)
    (fun _ hc => Provenance.handsHeader_of_handsCertificate hc) hE

end Inventory

/-- What the core accepted as the parents of a header: genesis certificates or certificates sent to
consensus, of the previous round as a `u64`, with a quorum of stake. -/
structure SentParents (core : Core) (log : List Emission) (h : Header) (parents : List Certificate) :
    Prop where
  digests : parents.map Certificate.digest = h.parents.elems
  sent : ∀ p ∈ parents, p ∈ Certificate.genesis core.committee ∨ p ∈ txConsensus log
  round : ∀ p ∈ parents, p.header.rawRound + 1 = h.rawRound
  quorum : core.committee.quorumThreshold.toNat
    ≤ (parents.map fun p => core.committee.weight p.origin).sum

/-- A vote was created at a step that found the parents and the payload of its header in the
store. -/
theorem exists_step_of_vote (hrun : ∀ pre e, pre ++ [e] <+: is → core.Returned pre e) {v : Vote}
    (hv : v ∈ votes (core.machine.outputs is)) :
    ∃ pre e s h, pre ++ [e] <+: is ∧ core.machine.state pre = .ok s ∧
      core.Inventory pre s (core.machine.outputs pre) ∧ core.Familiar is h ∧
      v = Vote.new h core.name core.requestSignature ∧ core.Accepts s.store h ∧
      Synchronizer.missingBatches core.name s.store h = [] := by
  obtain ⟨pre, e, hpre, hstep⟩ := core.machine.exists_step_of_mem (mem_votes.mp hv)
  have hrun' : ∀ pre' e', pre' ++ [e'] <+: pre → core.Returned pre' e' := fun pre' e' hp =>
    hrun pre' e' (hp.trans ((List.prefix_append _ _).trans hpre))
  cases hs : core.machine.state pre with
  | error p =>
    rw [hs] at hstep
    cases hstep
  | ok s =>
    rw [hs] at hstep
    have hi := (Inventory.invariant core).alive hrun' hs
    obtain ⟨h, hh, rfl, haccepts, hbatches⟩ := accepts_of_created hstep
    have hfamiliar : core.Familiar (pre ++ [e]) h := by
      rcases hh with hh | rfl
      · exact hi.hands (hrun pre e hpre) hh
      · exact (familiar_of_own hi.current).mono (List.subset_append_left _ _)
    exact ⟨pre, e, s, h, hpre, hs, hi, hfamiliar.mono hpre.subset, rfl, haccepts, hbatches⟩

/-- **The parents of a header voted for were sent to consensus**, before the vote. -/
theorem exists_parents_of_vote (hrun : ∀ pre e, pre ++ [e] <+: is → core.Returned pre e) {v : Vote}
    (hv : v ∈ votes (core.machine.outputs is)) :
    ∃ h parents, core.Familiar is h ∧ v = Vote.new h core.name core.requestSignature ∧
      core.SentParents (core.machine.outputs is) h parents := by
  obtain ⟨pre, e, s, h, hpre, hs, hi, hfamiliar, rfl, ⟨parents, hfind, -, hcheck⟩, -⟩ :=
    exists_step_of_vote hrun hv
  have hlog : core.machine.outputs pre <+: core.machine.outputs is :=
    core.machine.outputs_prefix ((List.prefix_append _ _).trans hpre)
  have hfound := (Synchronizer.findParents_eq_ok hfind).2 rfl
  have hkeyed : Keyed s.store := fun d c hc => (hi.certificates d c hc).1
  obtain ⟨hrounds, hquorum⟩ := checkParents_eq_ok hcheck
  refine ⟨h, parents, hfamiliar, rfl,
    map_digest_of_has (hfound.imp fun d c hc => has_of_found hkeyed hc), fun p hp => ?_, hrounds,
    hquorum⟩
  obtain ⟨d, -, hg | ⟨-, hc⟩⟩ := exists_found_of_mem hfound hp
  · exact Or.inl (genesis_eq_some hg).1
  · exact Or.inr (mem_txConsensus.mpr (hlog.subset (hi.certificates d p hc).2))

/-! ## Batches -/

/-- A step puts no batch into the store but the one the `PayloadReceiver` got. -/
theorem lookup_batch_of_step {e : Event} (hs : (core.step s e).1 = .ok s') {d : Digest}
    {w : WorkerId} (hd : (s'.store.lookup (.batch d w)).isSome) :
    (s.store.lookup (.batch d w)).isSome ∨ e = .batch d w := by
  obtain ⟨s₁, hturn, hnext⟩ := @turn_step _ core s e []
  have hclean : s'.store = s₁.store := by
    rcases hnext s' hs with rfl | rfl
    · rfl
    · exact (State.cleanUp_eq s₁ _).1
  rw [hclean] at hd
  have htrace : ∀ {log log' s₀}, Trace (core.TurnEffect s e) s₀ log log' s₁ →
      s₁.store.lookup (.batch d w) = s₀.store.lookup (.batch d w) := by
    intro log log' s₀ ht
    refine ht.invariant
      (P := fun s' _ => s'.store.lookup (.batch d w) = s₀.store.lookup (.batch d w)) ?_ rfl
    intro _ _ _ _ hs hE
    rcases hE.store_eq with heq | ⟨_, _, heq⟩
    · rw [heq, hs]
    · rw [heq, AList.lookup_insert_eq, if_neg (by simp), hs]
  generalize (core.step s e).2 = out at hturn
  cases hturn with
  | effects _ ht => exact Or.inl (htrace ht ▸ hd)
  | propose ht => exact Or.inl (htrace ht ▸ hd)
  | batch d' w' =>
    rw [State.write, AList.lookup_insert_eq] at hd
    split at hd
    · next hk =>
      cases hk
      exact Or.inr rfl
    · exact Or.inl hd
  | committed c => exact Or.inl hd

/-- What the store has of batches the `PayloadReceiver` got. -/
theorem mem_of_lookup_batch (hs : core.machine.state is = .ok s) {d : Digest} {w : WorkerId}
    (hd : (s.store.lookup (.batch d w)).isSome) : .batch d w ∈ is := by
  induction is using List.reverseRecOn generalizing s with
  | nil =>
    cases hs
    cases hd
  | append_singleton is e ih =>
    rw [Mealy.state_snoc] at hs
    cases hcur : core.machine.state is with
    | error p =>
      rw [hcur] at hs
      cases hs
    | ok s₀ =>
      rw [hcur] at hs
      rcases lookup_batch_of_step hs hd with hd | rfl
      · exact List.mem_append_left _ (ih hcur hd)
      · exact List.mem_append_right _ List.mem_cons_self

/-- **The payload of another authority's header that is voted for was reported**, before the
vote. -/
theorem exists_batches_of_vote (hrun : ∀ pre e, pre ++ [e] <+: is → core.Returned pre e) {v : Vote}
    (hv : v ∈ votes (core.machine.outputs is)) (hname : v.origin ≠ core.name) :
    ∃ h, core.Familiar is h ∧ v = Vote.new h core.name core.requestSignature ∧
      ∀ x ∈ h.payload.entries, .batch x.1 x.2 ∈ is := by
  obtain ⟨pre, e, s, h, hpre, hs, -, hfamiliar, rfl, -, hbatches⟩ := exists_step_of_vote hrun hv
  refine ⟨h, hfamiliar, rfl, fun x hx => ?_⟩
  have hmem := mem_of_lookup_batch hs (payload_of_missingBatches hbatches hname x hx)
  exact ((List.prefix_append _ _).trans hpre).subset hmem

end Core

end Bullshark
