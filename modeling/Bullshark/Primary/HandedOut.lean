import Bullshark.Primary.Traffic

/-!
# Primary/HandedOut — the parents the core hands out

The core keeps an aggregator per round and sends the `Proposer` what it hands out.  Whatever
certificates arrive, in whatever order, and however often an aggregator is collected and made anew,
the certificates handed out together are of one round, and those of a round come after a quorum of
that round or are one (`quorate_run`).
-/

namespace Bullshark

/-- The authors of the certificates, each counted once, have a quorum of stake. -/
def IsQuorum (committee : Committee) (certificates : List Certificate) : Prop :=
  committee.quorumThreshold.toNat
    ≤ committee.stakeOf (certificates.map Certificate.origin).toFinset

instance (committee : Committee) (certificates : List Certificate) :
    Decidable (IsQuorum committee certificates) := inferInstanceAs (Decidable (_ ≤ _))

theorem IsQuorum.mono {committee : Committee} {certificates certificates' : List Certificate}
    (h : IsQuorum committee certificates) (hsub : certificates ⊆ certificates') :
    IsQuorum committee certificates' := by
  refine h.trans (Finset.sum_le_sum_of_subset fun a ha => ?_)
  obtain ⟨c, hc, rfl⟩ := List.mem_map.mp (List.mem_toFinset.mp ha)
  exact List.mem_toFinset.mpr (List.mem_map.mpr ⟨c, hsub hc, rfl⟩)

theorem IsQuorum.ne_nil {committee : Committee} {certificates : List Certificate}
    (h : IsQuorum committee certificates) : certificates ≠ [] := by
  rintro rfl
  have hpos := committee.quorumThreshold_pos
  have hzero : committee.stakeOf ((([] : List Certificate).map Certificate.origin).toFinset) = 0 :=
    rfl
  rw [IsQuorum, hzero] at h
  omega

/-- The certificates sent together are of one round, and a quorum of that round or sent after
one. -/
def Quorate (committee : Committee) (messages : List (List Certificate × ℕ)) : Prop :=
  ∀ pre certificates round, pre ++ [(certificates, round)] <+: messages →
    (∀ c ∈ certificates, c.round = round) ∧ (IsQuorum committee certificates ∨
      ∃ certificates', (certificates', round) ∈ pre ∧ IsQuorum committee certificates')

theorem Quorate.of_prefix {committee : Committee} {messages messages' : List (List Certificate × ℕ)}
    (h : Quorate committee messages') (hp : messages <+: messages') : Quorate committee messages :=
  fun pre certificates round hpre => h pre certificates round (hpre.trans hp)

theorem Quorate.round {committee : Committee} {messages : List (List Certificate × ℕ)}
    (h : Quorate committee messages) {m : List Certificate × ℕ} (hm : m ∈ messages) :
    ∀ c ∈ m.1, c.round = m.2 := by
  obtain ⟨pre, post, rfl⟩ := List.append_of_mem hm
  exact (h pre m.1 m.2 ⟨post, by rw [List.append_assoc, List.singleton_append]⟩).1

/-! ## One aggregator -/

namespace CertificatesAggregator

/-- The certificates collected are of one round and of distinct authors, marked as used, and weigh
what the aggregator says, as long as nothing was handed out. -/
structure Collects (aggregator : CertificatesAggregator) (committee : Committee) (round : ℕ)
    (out : Prop) : Prop where
  round : ∀ c ∈ aggregator.certificates, c.round = round
  nodup : (aggregator.certificates.map Certificate.origin).Nodup
  used : ∀ c ∈ aggregator.certificates, c.origin ∈ aggregator.used
  weight : out ∨ aggregator.weight
    = (aggregator.certificates.map fun c => committee.stake c.origin).sum

variable {aggregator : CertificatesAggregator} {committee : Committee} {round : ℕ} {out out' : Prop}
  {c : Certificate}

theorem collects_new : new.Collects committee round out :=
  ⟨fun c hc => (by cases hc), List.nodup_nil, fun c hc => (by cases hc), Or.inr rfl⟩

theorem Collects.mono (h : aggregator.Collects committee round out) (hout : out → out') :
    aggregator.Collects committee round out' := ⟨h.round, h.nodup, h.used, h.weight.imp_left hout⟩

/-- **What the aggregator hands out is a quorum, or comes after one.** -/
theorem Collects.append (h : aggregator.Collects committee round out) (hc : c.round = round) :
    ((aggregator.append c committee).2 = none ∧
        (aggregator.append c committee).1.Collects committee round out) ∨
      ∃ ps, (aggregator.append c committee).2 = some ps ∧ (∀ p ∈ ps, p.round = round) ∧
        (out ∨ IsQuorum committee ps) ∧
        (aggregator.append c committee).1.Collects committee round True := by
  rw [CertificatesAggregator.append]
  dsimp only
  split
  · exact Or.inl ⟨rfl, h⟩
  · next hnew =>
    have hround : ∀ x ∈ aggregator.certificates ++ [c], x.round = round :=
      List.forall_mem_append.mpr ⟨h.round, by simpa using hc⟩
    have hnodup : ((aggregator.certificates ++ [c]).map Certificate.origin).Nodup := by
      rw [List.map_append, List.nodup_append]
      refine ⟨h.nodup, List.nodup_singleton _, fun a ha b hb hab => ?_⟩
      obtain ⟨x, hx, rfl⟩ := List.mem_map.mp ha
      have hb' : b = c.origin := by simpa using hb
      exact hnew (hb' ▸ hab ▸ h.used x hx)
    have hweight : out ∨ aggregator.weight + committee.stake c.origin
        = ((aggregator.certificates ++ [c]).map fun x => committee.stake x.origin).sum := by
      refine h.weight.imp_right fun hw => ?_
      rw [hw, List.map_append, List.sum_append]
      simp
    split
    · next hq =>
      refine Or.inr ⟨_, rfl, hround, hweight.imp_right fun hw => ?_, ?_⟩
      · have hle := UInt32.le_iff_toNat_le.mp (hw ▸ hq)
        rw [IsQuorum, Committee.stakeOf, List.sum_toFinset _ hnodup, List.map_map]
        refine hle.trans ?_
        rw [toNat_sum, List.map_map]
        exact Nat.mod_le _ _
      · exact ⟨fun x hx => (by cases hx), List.nodup_nil, fun x hx => (by cases hx),
          Or.inl trivial⟩
    · refine Or.inl ⟨rfl, hround, hnodup, ?_, hweight⟩
      refine List.forall_mem_append.mpr
        ⟨fun x hx => Finset.mem_insert_of_mem (h.used x hx), fun x hx => ?_⟩
      rw [List.mem_singleton.mp hx]
      exact Finset.mem_insert_self _ _

end CertificatesAggregator

namespace Core

open Handler

/-- The messages to the `Proposer`. -/
def txProposer (log : List Emission) : List (List Certificate × ℕ) :=
  log.filterMap fun
    | .parents certificates round => some (certificates, round)
    | _ => none

/-- A quorum of the round was handed out. -/
def HandedOut (committee : Committee) (log : List Emission) (round : ℕ) : Prop :=
  ∃ certificates, (certificates, round) ∈ txProposer log ∧ IsQuorum committee certificates

variable [Crypto]

/-- The aggregators collect, and what was handed out is quorate. -/
structure Aggregates (core : Core) (s : State) (log : List Emission) : Prop where
  collects : ∀ r, (s.aggregatorAt r).Collects core.committee r (HandedOut core.committee log r)
  quorate : Quorate core.committee (txProposer log)

variable {core : Core} {is : List Event} {s s' : State} {log w : List Emission} {c : Certificate}

omit [Crypto] in
theorem txProposer_append : txProposer (log ++ w) = txProposer log ++ txProposer w := by
  rw [txProposer, List.filterMap_append]
  rfl

omit [Crypto] in
theorem HandedOut.append {r : ℕ} (h : HandedOut core.committee log r) (w : List Emission) :
    HandedOut core.committee (log ++ w) r := by
  obtain ⟨ps, hps, hq⟩ := h
  exact ⟨ps, txProposer_append ▸ List.mem_append_left _ hps, hq⟩

namespace Aggregates

omit [Crypto] in
/-- Messages to others, and changes that keep the aggregators. -/
theorem of_eq (h : core.Aggregates s log)
    (hagg : s'.certificatesAggregators = s.certificatesAggregators) (hw : txProposer w = []) :
    core.Aggregates s' (log ++ w) := by
  refine ⟨fun r => ?_, ?_⟩
  · rw [State.aggregatorAt, hagg]
    exact (h.collects r).mono fun hr => hr.append w
  · rw [txProposer_append, hw, List.append_nil]
    exact h.quorate

omit [Crypto] in
/-- A new content of the aggregator of a round. -/
theorem setAggregator {r : ℕ} {aggregator : CertificatesAggregator} {log : List Emission}
    (hold : ∀ r', (s.aggregatorAt r').Collects core.committee r' (HandedOut core.committee log r'))
    (hnew : aggregator.Collects core.committee r (HandedOut core.committee log r)) (r' : ℕ) :
    ((s.setAggregator r aggregator).aggregatorAt r').Collects core.committee r'
      (HandedOut core.committee log r') := by
  rw [State.aggregatorAt, State.setAggregator, AList.lookup_insert_eq]
  split
  · next hr =>
    subst hr
    exact hnew
  · exact hold r'

/-- **Accepting a certificate.** -/
theorem accept (h : core.Aggregates s log) : core.Aggregates (core.accepted c s)
    (log ++ (handedOut ((s.aggregatorAt c.round).append c core.committee).2 c.round
      ++ [.consensus c])) := by
  rcases (h.collects c.round).append (c := c) rfl with
    ⟨hnone, hcollects⟩ | ⟨ps, hsome, hround, hquorum, hcollects⟩
  · rw [hnone]
    have hset : core.Aggregates (core.accepted c s) log := ⟨setAggregator h.collects hcollects,
      h.quorate⟩
    exact hset.of_eq rfl rfl
  · rw [hsome]
    have hlog : txProposer (log ++ (handedOut (some ps) c.round ++ [.consensus c]))
        = txProposer log ++ [(ps, c.round)] := by
      rw [txProposer_append]
      rfl
    have hquorum' : HandedOut core.committee
        (log ++ (handedOut (some ps) c.round ++ [.consensus c])) c.round := by
      rcases hquorum with hout | hq
      · exact hout.append _
      · exact ⟨ps, hlog ▸ List.mem_append_right _ List.mem_cons_self, hq⟩
    refine ⟨setAggregator (fun r => (h.collects r).mono fun hr => hr.append _)
      (hcollects.mono fun _ => hquorum'), fun pre qs r hpre => ?_⟩
    rw [hlog] at hpre
    rcases List.prefix_concat_iff.mp hpre with heq | hpre
    · obtain ⟨rfl, rfl, rfl⟩ : pre = txProposer log ∧ qs = ps ∧ r = c.round := by simpa using heq
      exact ⟨hround, hquorum.symm⟩
    · exact h.quorate pre qs r hpre

omit [Crypto] in
theorem aggregatorAt_cleanUp (s : State) (d r : ℕ) :
    (s.cleanUp d).aggregatorAt r = s.aggregatorAt r ∨ (s.cleanUp d).aggregatorAt r = .new := by
  rw [State.cleanUp]
  split
  · rw [State.aggregatorAt, State.lookup_retainFrom]
    split
    · exact Or.inl rfl
    · exact Or.inr rfl
  · exact Or.inl rfl

/-- **What the core hands out is quorate, in every run.** -/
theorem invariant (core : Core) : core.Invariant (fun _ _ => True) (fun _ => core.Aggregates) where
  init := ⟨fun r => CertificatesAggregator.collects_new,
    fun pre qs r hpre => (by simp [txProposer] at hpre)⟩
  mono _ h := h
  cleanUp {_ s _} h := by
    refine ⟨fun r => ?_, h.quorate⟩
    rcases aggregatorAt_cleanUp s core.gcDepth r with heq | heq
    · exact heq ▸ h.collects r
    · exact heq ▸ CertificatesAggregator.collects_new
  batch _ _ h := ⟨h.collects, h.quorate⟩
  committed _ h := ⟨h.collects, h.quorate⟩
  propose _ _ h := h.of_eq rfl rfl
  effect _ _ _ _ h hE := by
    cases hE with
    | accept _ => exact h.accept
    | _ => exact h.of_eq rfl rfl

end Aggregates

theorem quorate_run (core : Core) (is : List Event) :
    Quorate core.committee (txProposer (core.machine.outputs is)) := by
  obtain ⟨s, hs, -⟩ := (Aggregates.invariant core).run fun pre e hpre => trivial
  exact hs.quorate

end Core

end Bullshark
