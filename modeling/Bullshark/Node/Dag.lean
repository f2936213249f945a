import Bullshark.Consensus.Agreement
import Bullshark.Node.Network
import Bullshark.Node.RoundZero
import Bullshark.Primary.Chain
import Bullshark.Primary.Delivered
import Bullshark.Worker.ContentAddressed

/-!
# Node/Dag — the certificates of the honest validators form one DAG

The results on consensus are about a `Universe` of certificates, from which validators receive
`Delivery` sequences.  Here the primaries are shown to provide them.  What the honest authorities
send to consensus, without what consensus does not read, is a universe, and each of them sends a
delivery of it (`exists_universe`).

A certified header has a quorum of parents because an honest authority made it, or checked its
parents before it voted (`Execution.grounded`).  The parents are then certificates, so that no
header can pass for one of them, and the core sends them first.
-/

namespace Bullshark

open Interleaving

/-- A round that is not zero is the previous one plus one, without wrapping. -/
theorem toNat_succ {x y : UInt64} (h : x + 1 = y) (hy : y.toNat ≠ 0) : x.toNat + 1 = y.toNat := by
  have hx := x.toNat_lt
  have hsum : (x.toNat + 1) % 2 ^ 64 = y.toNat := by
    rw [← h, UInt64.toNat_add]
    rfl
  omega

/-- The genesis certificates have a quorum, where any authorities do. -/
theorem isQuorum_genesis {committee : Committee} {S : Finset PublicKey}
    (hS : committee.quorumThreshold.toNat ≤ committee.stakeOf S) :
    IsQuorum committee (Certificate.genesis committee) := by
  have horigins : (Certificate.genesis committee).map Certificate.origin
      = committee.authorities.keys := by
    rw [Certificate.genesis, List.map_map]
    exact (List.map_congr_left fun _ _ => rfl).trans (List.map_id _)
  have htotal : committee.stakeOf committee.authorities.keys.toFinset = committee.totalStake := by
    rw [Committee.stakeOf, List.sum_toFinset _ committee.authorities.nodup_keys,
      Committee.sum_keys_weight]
  rw [IsQuorum, horigins, htotal]
  exact hS.trans (Committee.stakeOf_le_totalStake S)

namespace Network

variable [Crypto]

/-- An execution in which the parents of the headers of honest authorities are those the `Proposer`
gives them, and no certificate of round zero is cleared or completed. -/
structure SuppliedExecution (net : Network) (trace : Trace) : Prop extends net.Execution trace where
  parented : ∀ a ∈ net.honest, ∀ pre h, pre ++ [.ownHeader h] <+: inputsOf a trace →
    Proposer.Parented net.committee (Core.txProposer ((net.core a).machine.outputs pre)) h
  spares : ∀ a ∈ net.honest,
    (net.core a).machine.Along (net.core a).StepSparesZero (inputsOf a trace)

/-- The parents of the certificate are genesis certificates, or were sent to consensus by honest
authorities, are of the previous round, and have a quorum of stake. -/
structure Grounded (net : Network) (trace : Trace) (h : Header) (parents : List Certificate) :
    Prop where
  digests : ∀ d, d ∈ h.parents ↔ d ∈ parents.map Certificate.digest
  round : ∀ p ∈ parents, p.round + 1 = h.round
  sent : ∀ p ∈ parents, p ∈ Certificate.genesis net.committee ∨
    ∃ a ∈ net.honest, p ∈ net.feed a trace
  quorum : IsQuorum net.committee parents

variable {net : Network} {trace : Trace} {a b : PublicKey} {c c' : Certificate} {h : Header}

namespace SuppliedExecution

theorem one_le_round (he : net.SuppliedExecution trace) (ha : a ∈ net.honest)
    (hc : c ∈ net.feed a trace) : 1 ≤ c.round := by
  have habove := Core.above_of_run (fun h hh => ((he.admissible a ha).own hh).2) (he.spares a ha)
  exact habove _ (Core.mem_txConsensus.mp hc) c rfl

/-- A certificate sent to consensus carries a header of the trace. -/
theorem header_of_feed (he : net.SuppliedExecution trace) (ha : a ∈ net.honest)
    (hc : c ∈ net.feed a trace) : c.header ∈ net.headers trace := by
  obtain ⟨s, hi⟩ := he.inventory ha
  exact Execution.mem_headers_of_seen (hi.sent c (Core.mem_txConsensus.mp hc)).seen

omit [Crypto] in
theorem header_of_genesis (hc : c ∈ Certificate.genesis net.committee) :
    c.header ∈ net.headers trace := List.mem_append_left _ (List.mem_map_of_mem hc)

/-- **Two certificates of one author and round are the same to consensus.** -/
theorem bare_eq_of_feed (he : net.SuppliedExecution trace) (ha : a ∈ net.honest)
    (hb : b ∈ net.honest) (hc : c ∈ net.feed a trace) (hc' : c' ∈ net.feed b trace)
    (hr : c.round = c'.round) (horigin : c.origin = c'.origin) : c.bare = c'.bare := by
  have hround : c.round ≠ 0 := Nat.one_le_iff_ne_zero.mp (he.one_le_round ha hc)
  exact he.bare_eq_of_certified ha hb (he.certified ha hc hround)
    (he.certified hb hc' (hr ▸ hround)) hround hr horigin

/-! ## The parents of what is certified -/

/-- **The parents of a header of an honest authority**, which the core handed out. -/
theorem grounded_of_own (he : net.SuppliedExecution trace) (ha : a ∈ net.honest)
    {S : Finset PublicKey} (hS : net.committee.quorumThreshold.toNat ≤ net.committee.stakeOf S)
    (hh : h ∈ Core.ownHeaders (inputsOf a trace)) : ∃ parents, net.Grounded trace h parents := by
  obtain ⟨pre, hpre⟩ := Core.exists_prefix_of_mem hh
  obtain ⟨parents, hdigests, hparents, hfirst, hlater⟩ := he.parented a ha pre h hpre
  have hprefix : pre <+: inputsOf a trace := (List.prefix_append _ _).trans hpre
  obtain ⟨s, hi, -⟩ := (Core.Inventory.invariant (net.core a)).run fun pre' e hp =>
    he.returned ha pre' e (hp.trans hprefix)
  refine ⟨parents, fun d => ?_, fun p hp => (hparents p hp).1, fun p hp => ?_, ?_⟩
  · rw [hdigests, BTreeSet.mem_collect]
  · refine (hparents p hp).2.imp_right fun ⟨m, hm, hpm⟩ => ⟨a, ha, Core.mem_txConsensus.mpr ?_⟩
    have hsent := hi.handed m.1 m.2 (Core.mem_txProposer.mp hm) p hpm
    exact ((net.core a).machine.outputs_prefix hprefix).subset hsent
  · by_cases hone : h.round = 1
    · exact (isQuorum_genesis hS).mono (hfirst hone)
    · exact hlater hone

/-- **The parents of a header an honest authority voted for**, which it checked. -/
theorem grounded_of_vote (he : net.SuppliedExecution trace) (ha : a ∈ net.honest)
    (hh : h ∈ net.headers trace) (hnamed : h.digest = h.id) (hround : h.round ≠ 0) {v : Vote}
    (hv : v ∈ Core.votes (net.log a trace)) (hballot : v.ballot = h.ballot) :
    ∃ parents, net.Grounded trace h parents := by
  obtain ⟨x, parents, hx, rfl, hparents⟩ := Core.exists_parents_of_vote (he.returned ha) hv
  have hid : x.id = h.id := congrArg Ballot.id hballot
  have hne : x.id ≠ default := by
    rw [hid, ← hnamed]
    exact (he.unambiguous.nonzero h hh).1
  have hdigest : x.digest = h.digest := by rw [he.digest_of_familiar ha hx hne, hid, hnamed]
  obtain ⟨hraw, -, hsame⟩ :=
    he.unambiguous.ids x (Execution.mem_headers_of_seen hx.seen) h hh hdigest
  have hrounds : ∀ p ∈ parents, p.round + 1 = h.round := fun p hp =>
    toNat_succ ((hparents.round p hp).trans hraw) hround
  have hnodup : (parents.map Certificate.digest).Nodup :=
    hparents.digests ▸ x.parents.nodup_elems
  have horigins : (parents.map Certificate.origin).Nodup := by
    refine (List.Nodup.of_map _ hnodup).map_on fun p hp q hq horigin => ?_
    have hr : p.round = q.round := by
      have := hrounds p hp
      have := hrounds q hq
      omega
    have hzero : ∀ {g k : Certificate}, g ∈ Certificate.genesis net.committee →
        k ∈ net.feed a trace → g.round ≠ k.round := by
      intro g k hg hk heq
      have := he.one_le_round ha hk
      rw [← heq, Consensus.round_genesis hg] at this
      omega
    rcases hparents.sent p hp with hp' | hp'
    · rcases hparents.sent q hq with hq' | hq'
      · obtain ⟨n, -, rfl⟩ := List.mem_map.mp hp'
        obtain ⟨m, -, rfl⟩ := List.mem_map.mp hq'
        exact congrArg Certificate.genesisOf horigin
      · exact absurd hr (hzero hp' hq')
    · rcases hparents.sent q hq with hq' | hq'
      · exact absurd hr.symm (hzero hq' hp')
      · have hbare := he.bare_eq_of_feed ha ha hp' hq' hr horigin
        refine List.inj_on_of_nodup_map hnodup hp hq ?_
        rw [← Certificate.keepsVertex_bare.digest, hbare, Certificate.keepsVertex_bare.digest]
  refine ⟨parents, fun d => ?_, hrounds, fun p hp => ?_, ?_⟩
  · rw [← hsame, BTreeSet.mem_def, hparents.digests]
  · exact (hparents.sent p hp).imp_right fun hp => ⟨a, ha, hp⟩
  · rw [IsQuorum, Committee.stakeOf, List.sum_toFinset _ horigins, List.map_map]
    exact hparents.quorum

/-- **The parents of a certified header** are certificates of the previous round with a quorum of
stake. -/
theorem grounded (he : net.SuppliedExecution trace) (ha : a ∈ net.honest)
    (hc : (net.core a).Certified (inputsOf a trace) (net.log a trace) c) (hround : c.round ≠ 0) :
    ∃ parents, net.Grounded trace c.header parents := by
  have hvoters := Execution.le_stakeOf_voters hc.votedByQuorum
  obtain ⟨k, hk, hvoter, -⟩ := net.exists_honest hvoters hvoters
  obtain ⟨hmem, hnamed⟩ := he.header_of_certified ha hc hround
  rcases he.endorses_of_voter ha hc hround hk hvoter with hown | ⟨v, hv, hballot⟩
  · exact he.grounded_of_own hk hvoters hown
  · exact he.grounded_of_vote hk hmem hnamed hround hv hballot

/-! ## Parents come first -/

/-- No header is stored under the digest of a parent of what is certified. -/
theorem not_tangled (he : net.SuppliedExecution trace) (ha : a ∈ net.honest)
    (hc : (net.core a).Certified (inputsOf a trace) (net.log a trace) c) (hround : c.round ≠ 0)
    {is : List Core.Event} (his : is <+: inputsOf a trace) {s : Core.State}
    (hs : (net.core a).machine.state is = .ok s) {d : Digest} (hd : d ∈ c.header.parents) :
    ¬ (net.core a).Tangled s d := by
  rintro ⟨-, hstored⟩
  obtain ⟨parents, hground⟩ := he.grounded ha hc hround
  obtain ⟨p, hp, rfl⟩ := List.mem_map.mp ((hground.digests d).mp hd)
  have hpmem : p.header ∈ net.headers trace := by
    rcases hground.sent p hp with hg | ⟨k, hk, hsent⟩
    · exact header_of_genesis hg
    · exact he.header_of_feed hk hsent
  have hi := (Core.Inventory.invariant (net.core a)).alive
    (fun pre e hpre => he.returned ha pre e (hpre.trans his)) hs
  cases hv : s.store.lookup (.digest p.digest) with
  | none => simp [hv] at hstored
  | some v =>
    cases v with
    | certificate x => simp [hv] at hstored
    | empty => simp [hv] at hstored
    | header x =>
      obtain ⟨hid, hfamiliar⟩ := hi.headers _ x hv
      have hx := hfamiliar.mono his.subset
      have hxmem : x ∈ net.headers trace := Execution.mem_headers_of_seen hx.seen
      have hne : x.id ≠ default := by
        rw [hid, Certificate.digest_eq]
        exact (he.unambiguous.nonzero _ hpmem).2
      refine he.unambiguous.apart x hxmem p.header hpmem ?_
      rw [he.digest_of_familiar ha hx hne, hid, Certificate.digest_eq]

/-- No certificate handed to an honest core is tangled. -/
theorem handsUntangled (he : net.SuppliedExecution trace) (ha : a ∈ net.honest) :
    (net.core a).machine.Along (net.core a).HandsUntangled (inputsOf a trace) := by
  intro pre e hpre
  have hprefix : pre <+: inputsOf a trace := (List.prefix_append _ _).trans hpre
  cases hs : (net.core a).machine.state pre with
  | error p => cases e <;> trivial
  | ok s =>
    have hspares : (net.core a).SparesZero s e := by
      have := he.spares a ha pre e hpre
      rwa [hs] at this
    have huntangled : ∀ c, (net.core a).HandsCertificate s e c → (net.core a).Untangled s c := by
      intro c hc hprocessing hancestors d hd
      have hround : c.round ≠ 0 := fun hzero =>
        hspares.certificate c hc hzero (Or.inl ⟨hprocessing, hancestors⟩)
      have hvouched := (Core.Vouched.invariant (net.core a)).alive
        (fun pre' e' hp => he.returned ha pre' e' (hp.trans hprefix)) hs
      have hcertified := (hvouched.hands (he.returned ha pre e hpre) hc hround
        (List.Subset.refl _)).mono hpre.subset
        ((net.core a).machine.outputs_prefix hprefix).subset
      exact he.not_tangled ha hcertified hround hprefix hs hd
    cases e with
    | certificate c => exact fun hok => huntangled c ⟨rfl, hok⟩
    | certificateLoopback c => exact huntangled c rfl
    | _ => trivial

/-- The `Proposer` gives the core headers on what the core handed out. -/
theorem furnished (he : net.SuppliedExecution trace) (ha : a ∈ net.honest) {pre : List Core.Event}
    {e : Core.Event} (hpre : pre ++ [e] <+: inputsOf a trace) : (net.core a).Furnished pre e := by
  refine ⟨he.returned ha pre e hpre, ?_⟩
  cases e with
  | ownHeader h =>
    obtain ⟨parents, hdigests, hparents, -⟩ := he.parented a ha pre h hpre
    intro d hd
    have hd' : d ∈ h.parents := hd
    rw [hdigests, BTreeSet.mem_collect] at hd'
    obtain ⟨p, hp, rfl⟩ := List.mem_map.mp hd'
    refine (hparents p hp).2.imp (fun hg => ?_) fun ⟨m, hm, hpm⟩ => ?_
    · exact List.find?_isSome.mpr ⟨p, hg, decide_eq_true rfl⟩
    · exact List.mem_flatMap.mpr ⟨_, Core.mem_txProposer.mp hm, List.mem_map_of_mem hpm⟩
  | _ => trivial

/-- **An honest authority sends whole histories.** -/
theorem historyComplete (he : net.SuppliedExecution trace) (ha : a ∈ net.honest) :
    Core.HistoryComplete net.committee (net.feed a trace) := by
  obtain ⟨s, hs, -⟩ := (Core.Delivered.invariant (net.core a)).run fun pre e hpre =>
    ⟨he.furnished ha hpre, he.handsUntangled ha pre e hpre⟩
  exact hs.complete

end SuppliedExecution

/-! ## The universe -/

/-- The certificates honest authorities send to consensus, as consensus reads them, and the
genesis. -/
def certs (net : Network) (trace : Trace) : Set Certificate :=
  {c | c ∈ Certificate.genesis net.committee ∨
    ∃ a ∈ net.honest, ∃ x ∈ net.feed a trace, c = x.bare}

namespace SuppliedExecution

/-- A certificate of the universe is on a header of the trace. -/
theorem exists_header (he : net.SuppliedExecution trace) (hc : c ∈ net.certs trace) :
    ∃ h ∈ net.headers trace, c.header.ballot = h.ballot := by
  rcases hc with hg | ⟨a, ha, x, hx, rfl⟩
  · exact ⟨_, header_of_genesis hg, rfl⟩
  · exact ⟨_, he.header_of_feed ha hx, rfl⟩

theorem certs_unique (he : net.SuppliedExecution trace) (hc : c ∈ net.certs trace)
    (hc' : c' ∈ net.certs trace) (hr : c.round = c'.round) (horigin : c.origin = c'.origin) :
    c = c' := by
  rcases hc with hg | ⟨a, ha, x, hx, rfl⟩
  · rcases hc' with hg' | ⟨b, hb, y, hy, rfl⟩
    · obtain ⟨n, -, rfl⟩ := List.mem_map.mp hg
      obtain ⟨m, -, rfl⟩ := List.mem_map.mp hg'
      exact congrArg Certificate.genesisOf horigin
    · have := he.one_le_round hb hy
      rw [Consensus.round_genesis hg, Certificate.keepsVertex_bare.round] at hr
      omega
  · rcases hc' with hg' | ⟨b, hb, y, hy, rfl⟩
    · have := he.one_le_round ha hx
      rw [Consensus.round_genesis hg', Certificate.keepsVertex_bare.round] at hr
      omega
    · exact he.bare_eq_of_feed ha hb hx hy hr horigin

theorem certs_grounded (he : net.SuppliedExecution trace) (hc : c ∈ net.certs trace)
    (hround : 1 ≤ c.round) : ∃ parents, net.Grounded trace c.header parents := by
  rcases hc with hg | ⟨a, ha, x, hx, rfl⟩
  · rw [Consensus.round_genesis hg] at hround
    omega
  · have hxround : x.round ≠ 0 := Nat.one_le_iff_ne_zero.mp hround
    obtain ⟨parents, hground⟩ := he.grounded ha (he.certified ha hx hxround) hxround
    exact ⟨parents, hground.digests, hground.round, hground.sent, hground.quorum⟩

/-- A parent, as a certificate of the universe. -/
theorem Grounded.exists_mem {parents : List Certificate} (hground : net.Grounded trace h parents)
    {p : Certificate} (hp : p ∈ parents) : ∃ q ∈ net.certs trace, q.digest = p.digest ∧
      q.round + 1 = h.round ∧ q.origin = p.origin := by
  rcases hground.sent p hp with hg | ⟨a, ha, hsent⟩
  · exact ⟨p, Or.inl hg, rfl, hground.round p hp, rfl⟩
  · exact ⟨p.bare, Or.inr ⟨a, ha, p, hsent, rfl⟩, rfl, hground.round p hp, rfl⟩

/-- **The universe of an execution.** -/
def dag (he : net.SuppliedExecution trace) : Universe net.committee where
  certs := net.certs trace
  genesis c := by
    refine ⟨fun hg => ⟨Or.inl hg, Consensus.round_genesis hg⟩, ?_⟩
    rintro ⟨hg | ⟨a, ha, x, hx, rfl⟩, hzero⟩
    · exact hg
    · have := he.one_le_round ha hx
      rw [Certificate.keepsVertex_bare.round] at hzero
      omega
  unique c hc c' hc' hr horigin := he.certs_unique hc hc' hr horigin
  collisionFree c hc c' hc' hdigest := by
    obtain ⟨h, hh, hballot⟩ := he.exists_header hc
    obtain ⟨h', hh', hballot'⟩ := he.exists_header hc'
    rw [Certificate.digest_eq, Certificate.digest_eq, hballot, hballot'] at hdigest
    have hsame : c.header.ballot = c'.header.ballot := by
      rw [hballot, hballot', he.unambiguous.ballots h hh h' hh' hdigest]
    exact he.certs_unique hc hc' (congrArg (fun b => b.rawRound.toNat) hsame)
      (congrArg Ballot.origin hsame)
  parents c hc hround d hd := by
    obtain ⟨parents, hground⟩ := he.certs_grounded hc hround
    obtain ⟨p, hp, rfl⟩ := List.mem_map.mp ((hground.digests d).mp hd)
    obtain ⟨q, hq, hdigest, hr, -⟩ := Grounded.exists_mem hground hp
    exact ⟨q, hq, hdigest, hr⟩
  quorum c hc hround := by
    obtain ⟨parents, hground⟩ := he.certs_grounded hc hround
    refine ⟨_, hground.quorum, fun k hk => ?_⟩
    obtain ⟨p, hp, rfl⟩ := List.mem_map.mp (List.mem_toFinset.mp hk)
    obtain ⟨q, hq, hdigest, -, horigin⟩ := Grounded.exists_mem hground hp
    exact ⟨q, hq, horigin, (hground.digests _).mpr (List.mem_map.mpr ⟨p, hp, hdigest.symm⟩)⟩

/-- **What an honest authority sends is a delivery.** -/
theorem delivery (he : net.SuppliedExecution trace) (ha : a ∈ net.honest) :
    he.dag.Delivery ((net.feed a trace).map Certificate.bare) := by
  refine ⟨fun c hc => ?_, fun pre c hpre p hp => ?_⟩
  · obtain ⟨x, hx, rfl⟩ := List.mem_map.mp hc
    exact Or.inr ⟨a, ha, x, hx, rfl⟩
  · obtain ⟨pre', x, rfl, rfl, hprefix⟩ : ∃ pre' x, pre'.map Certificate.bare = pre ∧
        x.bare = c ∧ pre' ++ [x] <+: net.feed a trace := by
      obtain ⟨post, hpost⟩ := hpre
      rw [List.append_assoc] at hpost
      obtain ⟨pre', rest, hsplit, hpre', hrest⟩ := List.map_eq_append_iff.mp hpost.symm
      obtain ⟨x, rest', rfl, hx, -⟩ := List.map_eq_cons_iff.mp hrest
      exact ⟨pre', x, hpre', hx, rest', by rw [hsplit, List.append_assoc, List.singleton_append]⟩
    rcases he.historyComplete ha pre' x hprefix p.digest hp.2.2 with ⟨g, hg, hdigest⟩ | ⟨q, hq, hdigest⟩
    · have hgp : g = p := he.dag.collisionFree (Or.inl hg) hp.2.1 hdigest
      exact Or.inr (hgp ▸ Consensus.round_genesis hg)
    · have hqsent : q ∈ net.feed a trace := hprefix.subset (List.mem_append_left _ hq)
      have hqp : q.bare = p := he.dag.collisionFree (Or.inr ⟨a, ha, q, hqsent, rfl⟩) hp.2.1
        hdigest
      exact Or.inl (hqp ▸ List.mem_map_of_mem hq)

end SuppliedExecution

/-- **Honest validators receive one DAG**: in every execution, what the honest authorities send to
consensus is, as consensus reads it, part of one universe of certificates, and each sends the
parents of a certificate first. -/
theorem exists_universe (net : Network) (trace : Trace) (he : net.SuppliedExecution trace) :
    ∃ G : Universe net.committee, G.certs = net.certs trace ∧
      ∀ a ∈ net.honest, G.Delivery ((net.feed a trace).map Certificate.bare) :=
  ⟨he.dag, rfl, fun _ ha => he.delivery ha⟩

omit [Crypto] in
/-- The consensus task of every validator, in steady mode. -/
def consensus (net : Network) : Consensus := ⟨net.committee, net.gcDepth, false⟩

end Network

/-! ## One validator ahead of another -/

namespace Network.Follower

open Sample

/-- All the stake is with the first of two authorities. -/
def net : Network where
  committee := committee2
  gcDepth := 50
  requestSignature k digest := sign digest k
  honest := [key 1, key 2]
  stake := by decide +kernel
  faulty := by decide +kernel

def certified (h : Header) : Certificate := ⟨h, [(key 1, sign (Certificate.digest ⟨h, []⟩) (key 1))]⟩

/-- The header of the first authority for a round, on the one before; the first has a batch. -/
def proposal : ℕ → Header
  | 0 => default
  | 1 => header (key 1) 1 (BTreeMap.collect [(Worker.Requested.digest, 0)])
      ((Certificate.genesis committee2).map Certificate.digest)
  | n + 1 => header (key 1) (UInt64.ofNat (n + 1)) .empty [(certified (proposal n)).digest]

/-- The first authority makes five certificates, and the second one receives three of them. -/
def trace : Trace :=
  [1, 2, 3, 4, 5].map (fun n => (key 1, .ownHeader (proposal n))) ++
    [1, 2, 3].map fun n => (key 2, .certificate (certified (proposal n)))

/-- The parents of a proposal. -/
def parentsOf : ℕ → List Certificate
  | 0 => []
  | 1 => Certificate.genesis committee2
  | n + 1 => [certified (proposal n)]

set_option maxRecDepth 100000 in
theorem execution_trace : net.Execution trace ∧
    inputsOf (key 1) trace = [1, 2, 3, 4, 5].map (fun n => .ownHeader (proposal n)) ∧
    inputsOf (key 2) trace = [1, 2, 3].map (fun n => .certificate (certified (proposal n))) ∧
    ∀ n ∈ [1, 2, 3, 4, 5], (proposal n).author = key 1 ∧ (proposal n).round ≠ 0 := by
  decide +kernel

set_option maxRecDepth 100000 in
theorem parented_trace : ∀ k : Fin 5,
    (proposal (k + 1)).parents = BTreeSet.collect ((parentsOf (k + 1)).map Certificate.digest) ∧
    (∀ p ∈ parentsOf (k + 1), p.round + 1 = (proposal (k + 1)).round ∧
      (p ∈ Certificate.genesis committee2 ∨ ∃ m ∈ Core.txProposer ((net.core (key 1)).machine.outputs
        (([1, 2, 3, 4, 5].map fun n => .ownHeader (proposal n)).take k)), p ∈ m.1)) ∧
    ((proposal (k + 1)).round = 1 → Certificate.genesis committee2 ⊆ parentsOf (k + 1)) ∧
    ((proposal (k + 1)).round ≠ 1 → IsQuorum committee2 (parentsOf (k + 1))) := by
  decide +kernel

/-- A step on a header or a certificate above round zero spares it, where the current header is above
round zero or not ours. -/
theorem spares_trace : ∀ a ∈ net.honest,
    (net.core a).machine.Along (net.core a).StepSparesZero (inputsOf a trace) := by
  obtain ⟨-, hfirst, hsecond, hproposals⟩ := execution_trace
  intro a ha pre e hpre
  rcases List.mem_cons.mp ha with rfl | ha
  · have he := hpre.subset (List.mem_append_right _ List.mem_cons_self)
    rw [hfirst] at he
    obtain ⟨n, hn, rfl⟩ := List.mem_map.mp he
    cases (net.core (key 1)).machine.state pre with
    | error p => trivial
    | ok s => exact ⟨fun c hc => (by cases hc), fun hzero => absurd hzero (hproposals n hn).2⟩
  · cases List.mem_singleton.mp ha
    have he := hpre.subset (List.mem_append_right _ List.mem_cons_self)
    rw [hsecond] at he
    obtain ⟨n, hn, rfl⟩ := List.mem_map.mp he
    have hn' : n ∈ [1, 2, 3, 4, 5] := List.mem_append_left [4, 5] hn
    cases (net.core (key 2)).machine.state pre with
    | error p => trivial
    | ok s =>
      refine Core.sparesZero_of_offers (by simp) fun x hx => ?_
      cases hx
      refine ⟨?_, (hproposals n hn').2⟩
      show (proposal n).author ≠ key 2
      rw [(hproposals n hn').1]
      decide

theorem suppliedExecution_trace : net.SuppliedExecution trace := by
  obtain ⟨hexecution, hfirst, hsecond, -⟩ := execution_trace
  have hparented : ∀ pre e, pre ++ [e] <+: [1, 2, 3, 4, 5].map
      (fun n => Core.Event.ownHeader (proposal n)) → ∀ h, e = .ownHeader h →
        Proposer.Parented committee2 (Core.txProposer ((net.core (key 1)).machine.outputs pre)) h := by
    refine Mealy.forall_prefix_iff.mpr fun k x hx => ?_
    have hround : ∀ k : Fin 5, ([1, 2, 3, 4, 5] : List ℕ).get k = (k : ℕ) + 1 := by decide
    rw [List.get_eq_getElem, List.getElem_map, ← List.get_eq_getElem] at hx
    obtain ⟨hdigests, hparents, hone, hother⟩ := parented_trace k
    rw [← Core.Event.ownHeader.inj hx, hround k]
    exact ⟨_, hdigests, hparents, hone, hother⟩
  refine ⟨hexecution, fun a ha pre h hpre => ?_, spares_trace⟩
  rcases List.mem_cons.mp ha with rfl | ha
  · exact hparented pre _ (hfirst ▸ hpre) h rfl
  · cases List.mem_singleton.mp ha
    rw [hsecond] at hpre
    obtain ⟨n, -, hn⟩ := List.mem_map.mp (hpre.subset (List.mem_append_right _ List.mem_cons_self))
    cases hn

/-- What the two validators send to consensus is one DAG. -/
theorem exists_universe_trace : ∃ G : Universe net.committee, G.certs = net.certs trace ∧
    ∀ a ∈ net.honest, G.Delivery ((net.feed a trace).map Certificate.bare) :=
  exists_universe net trace suppliedExecution_trace

end Network.Follower

end Bullshark
