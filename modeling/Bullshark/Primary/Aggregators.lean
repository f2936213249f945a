import Bullshark.Primary.Acceptance
import Mathlib.Data.Finset.Dedup

/-!
# Primary/Aggregators — votes into certificates, certificates into parents

`VotesAggregator` collects the votes on the current header and makes a certificate of them at a
quorum; `CertificatesAggregator` collects the certificates of a round and hands them out as
parents from a quorum on (`aggregators.rs`).  The votes collected are always those of distinct
authorities, the ones marked as used.
-/

namespace Bullshark

/-- Aggregates votes for a particular header into a certificate. -/
structure VotesAggregator where
  weight : Stake
  votes : List (PublicKey × Signature)
  used : Finset PublicKey
  nodup : (votes.map Prod.fst).Nodup
  mem_used : ∀ a, a ∈ used ↔ a ∈ votes.map Prod.fst

namespace VotesAggregator

/-- `VotesAggregator::new`. -/
def new : VotesAggregator := ⟨0, [], ∅, List.nodup_nil, by simp⟩

/-- `self.votes.push` of an authority that was not used. -/
def push (aggregator : VotesAggregator) (author : PublicKey) (signature : Signature)
    (weight : Stake) (h : author ∉ aggregator.used) : VotesAggregator where
  weight
  votes := aggregator.votes ++ [(author, signature)]
  used := insert author aggregator.used
  nodup := by
    rw [List.map_append, List.nodup_append]
    refine ⟨aggregator.nodup, List.nodup_singleton _, fun a ha b hb hab => ?_⟩
    have hb' : b = author := by simpa using hb
    exact h ((aggregator.mem_used author).mpr (hb' ▸ hab ▸ ha))
  mem_used := by
    intro a
    rw [Finset.mem_insert, aggregator.mem_used, List.map_append, List.mem_append]
    simp [or_comm]

/-- `VotesAggregator::append`. -/
def append (aggregator : VotesAggregator) (vote : Vote) (committee : Committee) (header : Header) :
    Except DagError (VotesAggregator × Option Certificate) :=
  -- Ensure it is the first time this authority votes.
  if h : vote.author ∈ aggregator.used then .error (.authorityReuse vote.author)
  else
    let weight := aggregator.weight + committee.stake vote.author
    if weight ≥ committee.quorumThreshold then
      -- Ensures quorum is only reached once.
      let aggregator := aggregator.push vote.author vote.signature 0 h
      .ok (aggregator, some ⟨header, aggregator.votes⟩)
    else .ok (aggregator.push vote.author vote.signature weight h, none)

/-- The weight is that of the votes collected since it was last set to zero. -/
def Weighs (aggregator : VotesAggregator) (committee : Committee) : Prop :=
  ∃ votes, votes <:+ aggregator.votes ∧
    aggregator.weight = (votes.map fun v => committee.stake v.1).sum

variable {aggregator aggregator' : VotesAggregator} {vote : Vote} {committee : Committee}
  {header : Header} {certificate : Option Certificate}

theorem weighs_new : new.Weighs committee := ⟨[], List.suffix_rfl, rfl⟩

/-- **What `append` does**: it counts the vote of an authority not used before, and makes a
certificate exactly when the weight reaches the quorum. -/
theorem append_eq_ok (h : aggregator.append vote committee header = .ok (aggregator', certificate)) :
    vote.author ∉ aggregator.used ∧ aggregator'.used = insert vote.author aggregator.used ∧
      aggregator'.votes = aggregator.votes ++ [(vote.author, vote.signature)] ∧
      ((committee.quorumThreshold ≤ aggregator.weight + committee.stake vote.author ∧
          aggregator'.weight = 0 ∧ certificate = some ⟨header, aggregator'.votes⟩) ∨
        (¬ committee.quorumThreshold ≤ aggregator.weight + committee.stake vote.author ∧
          aggregator'.weight = aggregator.weight + committee.stake vote.author ∧
          certificate = none)) := by
  rw [append] at h
  split at h
  · cases h
  · next hnew =>
    dsimp only at h
    split at h
    · next hq =>
      cases h
      exact ⟨hnew, rfl, rfl, Or.inl ⟨hq, rfl, rfl⟩⟩
    · next hq =>
      cases h
      exact ⟨hnew, rfl, rfl, Or.inr ⟨hq, rfl, rfl⟩⟩

/-- A certificate the aggregator makes is on the header it is given. -/
theorem header_of_append {c : Certificate}
    (h : aggregator.append vote committee header = .ok (aggregator', some c)) : c.header = header := by
  obtain ⟨-, -, -, ⟨-, -, hc⟩ | ⟨-, -, hc⟩⟩ := append_eq_ok h
  · cases hc
    rfl
  · cases hc

theorem append_error {e : DagError} (h : aggregator.append vote committee header = .error e) :
    vote.author ∈ aggregator.used := by
  rw [append] at h
  split at h
  · next hused => exact hused
  · dsimp only at h
    split at h <;> cases h

/-- Weighing the vote of one more authority. -/
theorem Weighs.suffix_append (hw : aggregator.Weighs committee)
    (hvotes : aggregator'.votes = aggregator.votes ++ [(vote.author, vote.signature)]) :
    ∃ votes, votes <:+ aggregator'.votes ∧ aggregator.weight + committee.stake vote.author
      = (votes.map fun v => committee.stake v.1).sum := by
  obtain ⟨votes, hsuf, hweight⟩ := hw
  obtain ⟨old, hold⟩ := hsuf
  refine ⟨votes ++ [(vote.author, vote.signature)], ⟨old, ?_⟩, ?_⟩
  · rw [hvotes, ← hold, List.append_assoc]
  · rw [hweight, List.map_append, List.sum_append]
    simp

theorem Weighs.append (hw : aggregator.Weighs committee)
    (h : aggregator.append vote committee header = .ok (aggregator', certificate)) :
    aggregator'.Weighs committee := by
  obtain ⟨-, -, hvotes, ⟨-, hzero, -⟩ | ⟨-, hweight, -⟩⟩ := append_eq_ok h
  · exact ⟨[], List.nil_suffix, hzero⟩
  · obtain ⟨votes, hsuf, hsum⟩ := hw.suffix_append hvotes
    exact ⟨votes, hsuf, hweight.trans hsum⟩

end VotesAggregator

/-- Among the votes of the certificate are those of distinct authorities with a quorum of stake. -/
def Certificate.VotedByQuorum (c : Certificate) (committee : Committee) : Prop :=
  ∃ votes, votes <:+ c.votes ∧ (votes.map Prod.fst).Nodup ∧
    committee.quorumThreshold.toNat ≤ (votes.map fun v => committee.weight v.1).sum

/-- **A certificate the aggregator makes has a quorum of votes.** -/
theorem VotesAggregator.Weighs.votedByQuorum {aggregator aggregator' : VotesAggregator} {vote : Vote}
    {committee : Committee} {header : Header} {c : Certificate} (hw : aggregator.Weighs committee)
    (h : aggregator.append vote committee header = .ok (aggregator', some c)) :
    c.VotedByQuorum committee := by
  obtain ⟨-, -, hvotes, ⟨hq, -, hc⟩ | ⟨-, -, hc⟩⟩ := append_eq_ok h
  · cases hc
    obtain ⟨votes, hsuf, hsum⟩ := hw.suffix_append hvotes
    refine ⟨votes, hsuf, aggregator'.nodup.sublist (hsuf.sublist.map Prod.fst), ?_⟩
    exact (UInt32.le_iff_toNat_le.mp (hsum ▸ hq)).trans (Certificate.toNat_sum_le committee votes)
  · cases hc

/-- A certificate that passes the quorum branch of `Certificate::verify` has a quorum of votes. -/
theorem Certificate.votedByQuorum_of_verifyQuorum [Crypto] {c : Certificate} {committee : Committee}
    (h : c.verifyQuorum committee = .ok ()) : c.VotedByQuorum committee := by
  have hquorum := (verifyQuorum_eq_ok_iff_hasQuorum.mp h).1
  exact ⟨c.votes, List.suffix_rfl, hquorum.distinct, hquorum.stake⟩

/-- Aggregate certificates and check if we reach a quorum. -/
structure CertificatesAggregator where
  weight : Stake
  certificates : List Certificate
  used : Finset PublicKey

namespace CertificatesAggregator

/-- `CertificatesAggregator::new`. -/
def new : CertificatesAggregator := ⟨0, [], ∅⟩

/-- `CertificatesAggregator::append`: a second certificate of an authority is ignored; from a quorum
on, the certificates collected are handed out. -/
def append (aggregator : CertificatesAggregator) (certificate : Certificate)
    (committee : Committee) : CertificatesAggregator × Option (List Certificate) :=
  let origin := certificate.origin
  if origin ∈ aggregator.used then (aggregator, none)
  else
    let used := insert origin aggregator.used
    let certificates := aggregator.certificates ++ [certificate]
    let weight := aggregator.weight + committee.stake origin
    if weight ≥ committee.quorumThreshold then (⟨weight, [], used⟩, some certificates)
    else (⟨weight, certificates, used⟩, none)

/-- What is kept and what is handed out was there before or is the certificate appended. -/
theorem mem_append {aggregator aggregator' : CertificatesAggregator} {c : Certificate}
    {committee : Committee} {parents : Option (List Certificate)}
    (h : aggregator.append c committee = (aggregator', parents)) :
    (∀ x ∈ aggregator'.certificates, x ∈ aggregator.certificates ∨ x = c) ∧
      ∀ ps, parents = some ps → ∀ x ∈ ps, x ∈ aggregator.certificates ∨ x = c := by
  have happend : ∀ x ∈ aggregator.certificates ++ [c], x ∈ aggregator.certificates ∨ x = c := by
    simp
  rw [append] at h
  dsimp only at h
  split at h
  · cases h
    exact ⟨fun x hx => Or.inl hx, by simp⟩
  · split at h
    · cases h
      refine ⟨fun x hx => (by cases hx), fun ps hps => ?_⟩
      cases hps
      exact happend
    · cases h
      exact ⟨happend, by simp⟩

end CertificatesAggregator

end Bullshark
