import Bullshark.Config.Stake
import Bullshark.Consensus.Update

/-!
# Consensus/Universe — the certificates validators may receive

All validators draw the certificates they receive from one set: at most one certificate per round
and author, each naming a quorum of certificates of the previous round as its parents.  Everything
here is about that set alone, not about what one validator has seen of it.

`reaches_of_supported` is the heart of the protocol: a certificate supported by `f+1` stake one
round up is in the causal history of every certificate two rounds up or more.
-/

namespace Bullshark

variable [Crypto]

/-- A set of certificates with one certificate per round and author, quorum parents, and genesis
at round 0. -/
structure Universe (committee : Committee) where
  certs : Set Certificate
  genesis : ∀ c, c ∈ Certificate.genesis committee ↔ c ∈ certs ∧ c.round = 0
  unique : ∀ c ∈ certs, ∀ c' ∈ certs, c.round = c'.round → c.origin = c'.origin → c = c'
  collisionFree : Set.InjOn Certificate.digest certs
  parents : ∀ c ∈ certs, 1 ≤ c.round → ∀ d ∈ c.header.parents,
    ∃ p ∈ certs, p.digest = d ∧ p.round + 1 = c.round
  quorum : ∀ c ∈ certs, 1 ≤ c.round → ∃ S : Finset PublicKey,
    committee.quorumThreshold.toNat ≤ committee.stakeOf S ∧
      ∀ a ∈ S, ∃ p ∈ certs, p.origin = a ∧ p.digest ∈ c.header.parents

namespace Universe

variable {committee : Committee} (G : Universe committee)

/-- `p` is a parent of `c`. -/
def Parent (c p : Certificate) : Prop := c ∈ G.certs ∧ p ∈ G.certs ∧ p.digest ∈ c.header.parents

/-- `p` is in the causal history of `c`, or `c` itself. -/
abbrev Reaches : Certificate → Certificate → Prop := Relation.ReflTransGen G.Parent

variable {G}

omit [Crypto] in
theorem genesis_parents {c : Certificate} (h : c ∈ Certificate.genesis committee) :
    c.header.parents = BTreeSet.empty := by
  obtain ⟨name, -, rfl⟩ := List.mem_map.mp h
  rfl

theorem Parent.one_le {c p : Certificate} (h : G.Parent c p) : 1 ≤ c.round := by
  by_contra hr
  have hgen : c ∈ Certificate.genesis committee := (G.genesis c).mpr ⟨h.1, by omega⟩
  have := h.2.2
  rw [genesis_parents hgen] at this
  cases this

/-- **A parent is from the previous round.** -/
theorem Parent.round_succ {c p : Certificate} (h : G.Parent c p) : p.round + 1 = c.round := by
  obtain ⟨p', hp', hd, hr⟩ := G.parents c h.1 h.one_le p.digest h.2.2
  rwa [G.collisionFree hp' h.2.1 hd] at hr

theorem Reaches.mem {c p : Certificate} (hc : c ∈ G.certs) (h : G.Reaches c p) : p ∈ G.certs := by
  induction h with
  | refl => exact hc
  | tail _ hp _ => exact hp.2.1

theorem Reaches.round_le {c p : Certificate} (h : G.Reaches c p) : p.round ≤ c.round := by
  induction h with
  | refl => exact le_rfl
  | tail _ hp ih => have := hp.round_succ; omega

/-- Two certificates of one round are on a path only if they are the same. -/
theorem Reaches.eq_of_round_eq {c p : Certificate} (h : G.Reaches c p) (hr : p.round = c.round) :
    p = c := by
  induction h with
  | refl => rfl
  | tail hcb hp _ =>
    have := Reaches.round_le hcb
    have := hp.round_succ
    omega

/-- A certificate above round 0 has a parent. -/
theorem exists_parent {c : Certificate} (hc : c ∈ G.certs) (hr : 1 ≤ c.round) :
    ∃ p, G.Parent c p := by
  obtain ⟨S, hS, hpar⟩ := G.quorum c hc hr
  have hpos := committee.quorumThreshold_pos
  obtain ⟨a, ha, -⟩ := Weights.exists_pos_of_sum_pos (hpos.trans_le hS)
  obtain ⟨p, hp, -, hd⟩ := hpar a ha
  exact ⟨p, hc, hp, hd⟩

/-- **A certificate reaches a certificate of every round below its own.** -/
theorem exists_reaches_round : ∀ (k : ℕ) {c : Certificate}, c ∈ G.certs → ∀ {r : ℕ},
    c.round = r + k → ∃ p, G.Reaches c p ∧ p.round = r
  | 0, c, _, r, hr => ⟨c, .refl, hr⟩
  | k + 1, c, hc, r, hr => by
      obtain ⟨q, hq⟩ := exists_parent hc (by omega)
      have := hq.round_succ
      obtain ⟨p, hqp, hpr⟩ := exists_reaches_round k hq.2.1 (show q.round = r + k by omega)
      exact ⟨p, .head hq hqp, hpr⟩

/-- `T` supports `l`: each author of `T` made a certificate that names `l` as a parent. -/
def Supports (G : Universe committee) (T : Finset PublicKey) (l : Certificate) : Prop :=
  ∀ a ∈ T, ∃ s, s.origin = a ∧ G.Parent s l

/-- A certificate two rounds above a supported one names one of the supporters as a parent. -/
theorem reaches_of_supported_next (hstake : committee.totalStake < 2 ^ 31) {l c : Certificate}
    {T : Finset PublicKey} (hT : committee.validityThreshold.toNat ≤ committee.stakeOf T)
    (hsup : G.Supports T l) (hc : c ∈ G.certs) (hr : c.round = l.round + 2) : G.Reaches c l := by
  obtain ⟨S, hS, hpar⟩ := G.quorum c hc (by omega)
  obtain ⟨a, haS, haT, -⟩ := Committee.exists_mem_quorum_validity hstake hS hT
  obtain ⟨p, hp, hpa, hpc⟩ := hpar a haS
  obtain ⟨s, hsa, hsl⟩ := hsup a haT
  have hcp : G.Parent c p := ⟨hc, hp, hpc⟩
  -- the parent and the supporter have one author and one round
  have hps : p = s := by
    refine G.unique p hp s hsl.1 ?_ (hpa.trans hsa.symm)
    have h₁ := hcp.round_succ
    have h₂ := hsl.round_succ
    omega
  exact .head hcp (hps ▸ .single hsl)

/-- **A supported certificate is unavoidable**: every certificate two rounds up or more has it in
its causal history. -/
theorem reaches_of_supported (hstake : committee.totalStake < 2 ^ 31) {l c : Certificate}
    {T : Finset PublicKey} (hT : committee.validityThreshold.toNat ≤ committee.stakeOf T)
    (hsup : G.Supports T l) (hc : c ∈ G.certs) (hr : l.round + 2 ≤ c.round) : G.Reaches c l := by
  have hround : c.round = l.round + 2 + (c.round - (l.round + 2)) := by omega
  obtain ⟨d, hcd, hdr⟩ := exists_reaches_round _ hc hround
  exact hcd.trans (reaches_of_supported_next hstake hT hsup (hcd.mem hc) hdr)

/-! ## Deliveries -/

/-- A sequence of certificates a validator may receive: parents come before children. -/
structure Delivery (G : Universe committee) (s : List Certificate) : Prop where
  mem : ∀ c ∈ s, c ∈ G.certs
  parentsFirst : ∀ pre c, pre ++ [c] <+: s → ∀ p, G.Parent c p → p ∈ pre ∨ p.round = 0

theorem Delivery.of_prefix {s t : List Certificate} (h : G.Delivery t) (hp : s <+: t) :
    G.Delivery s :=
  ⟨fun c hc => h.mem c (hp.subset hc), fun pre c hpre => h.parentsFirst pre c (hpre.trans hp)⟩

/-- What a validator knows after receiving `s`: those certificates, and genesis. -/
def Known (G : Universe committee) (s : List Certificate) (c : Certificate) : Prop :=
  c ∈ s ∨ (c ∈ G.certs ∧ c.round = 0)

theorem Known.mem {s : List Certificate} (hs : G.Delivery s) {c : Certificate}
    (h : G.Known s c) : c ∈ G.certs := h.elim (hs.mem c) And.left

theorem Known.mono {s : List Certificate} {c : Certificate} (h : G.Known s c)
    (d : Certificate) : G.Known (s ++ [d]) c := h.imp (List.mem_append_left _) id

/-- **What a validator knows is closed under parents.** -/
theorem Known.parent {s : List Certificate} (hs : G.Delivery s) {c p : Certificate}
    (h : G.Known s c) (hp : G.Parent c p) : G.Known s p := by
  rcases h with h | h
  · obtain ⟨pre, post, rfl⟩ := List.append_of_mem h
    have hpre : pre ++ [c] <+: pre ++ c :: post := ⟨post, by simp⟩
    rcases hs.parentsFirst pre c hpre p hp with hmem | hr
    · exact Or.inl (List.mem_append_left _ hmem)
    · exact Or.inr ⟨hp.2.1, hr⟩
  · exact absurd hp.one_le (by omega)

theorem Known.reaches {s : List Certificate} (hs : G.Delivery s) {c p : Certificate}
    (h : G.Known s c) (hp : G.Reaches c p) : G.Known s p := by
  induction hp with
  | refl => exact h
  | tail _ hstep ih => exact ih.parent hs hstep

/-! ## Finite universes -/

/-- The certificates of `l` whose digest `c` names as a parent. -/
def parentsIn (l : List Certificate) (c : Certificate) : List Certificate :=
  l.filter fun p => decide (p.digest ∈ c.header.parents)

/-- The conditions of a universe, as a check on a list. -/
def WellFormed (committee : Committee) (l : List Certificate) : Prop :=
  (∀ c ∈ l, c.round = 0 → c ∈ Certificate.genesis committee) ∧
    (∀ c ∈ Certificate.genesis committee, c ∈ l) ∧
    (∀ c ∈ l, ∀ c' ∈ l, c.round = c'.round → c.origin = c'.origin → c = c') ∧
    (∀ c ∈ l, ∀ c' ∈ l, c.digest = c'.digest → c = c') ∧
    ∀ c ∈ l, 1 ≤ c.round → (∀ d ∈ c.header.parents.elems, ∃ p ∈ l, p.digest = d ∧
      p.round + 1 = c.round) ∧ committee.quorumThreshold.toNat
        ≤ committee.stakeOf ((parentsIn l c).map Certificate.origin).toFinset

instance (committee : Committee) (l : List Certificate) : Decidable (WellFormed committee l) :=
  inferInstanceAs (Decidable (_ ∧ _))

/-- The universe of the certificates of a list. -/
def ofList (l : List Certificate) (h : WellFormed committee l) : Universe committee where
  certs := {c | c ∈ l}
  genesis c := ⟨fun hc => ⟨h.2.1 c hc, by
    obtain ⟨name, -, rfl⟩ := List.mem_map.mp hc
    rfl⟩, fun hc => h.1 c hc.1 hc.2⟩
  unique c hc c' hc' := h.2.2.1 c hc c' hc'
  collisionFree c hc c' hc' := h.2.2.2.1 c hc c' hc'
  parents c hc hr := (h.2.2.2.2 c hc hr).1
  quorum c hc hr := ⟨_, (h.2.2.2.2 c hc hr).2, fun a ha => by
    obtain ⟨p, hp, hpa⟩ := List.mem_map.mp (List.mem_toFinset.mp ha)
    obtain ⟨hpl, hpc⟩ := List.mem_filter.mp hp
    exact ⟨p, hpl, hpa, of_decide_eq_true hpc⟩⟩

/-- The condition of a delivery, as a check on a sequence. -/
def ParentsFirst (committee : Committee) (s : List Certificate) : Prop :=
  ∀ k : Fin s.length, ∀ d ∈ (s.get k).header.parents.elems,
    ∃ p ∈ s.take k ++ Certificate.genesis committee, p.digest = d

instance (committee : Committee) (s : List Certificate) : Decidable (ParentsFirst committee s) :=
  inferInstanceAs (Decidable (∀ _ : Fin _, _))

theorem delivery_ofList {l s : List Certificate} (h : WellFormed committee l)
    (hmem : ∀ c ∈ s, c ∈ l) (hfirst : ParentsFirst committee s) : (ofList l h).Delivery s := by
  refine ⟨hmem, ?_⟩
  rintro pre c ⟨post, rfl⟩ p hp
  have hk : pre.length < (pre ++ [c] ++ post).length := by simp
  obtain ⟨q, hq, hqd⟩ := hfirst ⟨pre.length, hk⟩ p.digest
    (by simpa using BTreeSet.mem_def.mp hp.2.2)
  have hqp : ∀ hql : q ∈ l, q = p := fun hql => (ofList l h).collisionFree hql hp.2.1 hqd
  rcases List.mem_append.mp hq with hq | hq
  · have hqpre : q ∈ pre := by simpa using hq
    exact Or.inl (hqp (hmem q (by simp [hqpre])) ▸ hqpre)
  · obtain ⟨hql, hqr⟩ := ((ofList l h).genesis q).mp hq
    exact Or.inr (hqp hql ▸ hqr)

end Universe

end Bullshark
