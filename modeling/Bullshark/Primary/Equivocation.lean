import Bullshark.Config.Thresholds
import Bullshark.Primary.Acceptance

/-!
# Primary/Equivocation — two quorums on one slot

Two certificates that passed the quorum branch of `Certificate::verify` have `validity_threshold`
stake of voters in common.  A voter signs the id, the round and the author of a header, so where
less stake than that signs two headers of one author and round, certificates of that author and
round certify one header (`id_eq_of_equivocators_below`).
-/

namespace Bullshark

namespace Certificate

/-- The authorities in the vote list. -/
def voters (c : Certificate) : Finset PublicKey := (c.votes.map Prod.fst).toFinset

section Signed

variable (signs : PublicKey → Header → Prop)

/-- `a` signs two different headers of one author and round. -/
def Equivocates (a : PublicKey) : Prop :=
  ∃ h h', signs a h ∧ signs a h' ∧ h.author = h'.author ∧ h.round = h'.round ∧ h.id ≠ h'.id

/-- Whose signature verifies in the certificate signed its header. -/
def SignedBy [Crypto] (c : Certificate) : Prop :=
  ∀ v ∈ c.votes, Signature.verifies c.digest v = true → signs v.1 c.header

end Signed

instance (committee : Committee) (c : Certificate) : Decidable (LooksLikeGenesis committee c) :=
  inferInstanceAs (Decidable (∃ g ∈ genesis committee, g.partialEq c = true))

variable [Crypto] {committee : Committee} {c c' : Certificate}

/-- Accepted by `verify`, and not as a genesis certificate. -/
structure QuorumAccepted (committee : Committee) (c : Certificate) : Prop where
  accepted : c.verify committee = .ok ()
  quorum : ¬ LooksLikeGenesis committee c

theorem QuorumAccepted.hasQuorum (h : QuorumAccepted committee c) : HasQuorum committee c :=
  (verifyQuorum_eq_ok_iff_hasQuorum.mp ((verify_eq_ok_iff.mp h.accepted).resolve_left h.quorum)).1

/-- The voters have a quorum. -/
theorem HasQuorum.le_stakeOf_voters (h : HasQuorum committee c) :
    committee.quorumThreshold.toNat ≤ committee.stakeOf c.voters := by
  have hsum : committee.stakeOf c.voters = (c.votes.map fun v => committee.weight v.1).sum := by
    rw [Committee.stakeOf, voters, List.sum_toFinset _ h.distinct, List.map_map]
    rfl
  exact hsum ▸ h.stake

/-- Who votes for both of two headers of one author and round equivocates. -/
theorem HasQuorum.equivocates {signs : PublicKey → Header → Prop} (h : HasQuorum committee c)
    (h' : HasQuorum committee c') (hsigned : SignedBy signs c) (hsigned' : SignedBy signs c')
    (horigin : c.origin = c'.origin) (hround : c.round = c'.round)
    (hid : c.header.id ≠ c'.header.id) {a : PublicKey} (ha : a ∈ c.voters ∩ c'.voters) :
    Equivocates signs a := by
  obtain ⟨hmem, hmem'⟩ := Finset.mem_inter.mp ha
  obtain ⟨v, hv, rfl⟩ := List.mem_map.mp (List.mem_toFinset.mp hmem)
  obtain ⟨v', hv', hname⟩ := List.mem_map.mp (List.mem_toFinset.mp hmem')
  have hvote' : signs v.1 c'.header := hname ▸ hsigned' v' hv' (h'.signed v' hv')
  exact ⟨c.header, c'.header, hsigned v hv (h.signed v hv), hvote', horigin, hround, hid⟩

/-- **Two quorums on one slot expose `validity_threshold` stake of equivocators**: the voters two
certificates share have that stake, so where any set of equivocators has less, two certificates of
one author and round are on one header. -/
theorem id_eq_of_equivocators_below (hstake : committee.totalStake < 2 ^ 31)
    (h : QuorumAccepted committee c) (h' : QuorumAccepted committee c') :
    committee.validityThreshold.toNat ≤ committee.stakeOf (c.voters ∩ c'.voters) ∧
      ∀ signs : PublicKey → Header → Prop, SignedBy signs c → SignedBy signs c' →
        (∀ S : Finset PublicKey, (∀ a ∈ S, Equivocates signs a) →
          committee.stakeOf S < committee.validityThreshold.toNat) →
        c.origin = c'.origin → c.round = c'.round → c.header.id = c'.header.id := by
  have hshared : committee.validityThreshold.toNat ≤ committee.stakeOf (c.voters ∩ c'.voters) :=
    Committee.validityThreshold_le_stakeOf_inter hstake h.hasQuorum.le_stakeOf_voters
      h'.hasQuorum.le_stakeOf_voters
  refine ⟨hshared, fun signs hsigned hsigned' hfew horigin hround => ?_⟩
  by_contra hid
  have hbelow := hfew (c.voters ∩ c'.voters) fun a ha =>
    h.hasQuorum.equivocates h'.hasQuorum hsigned hsigned' horigin hround hid ha
  exact absurd hshared (not_le.mpr hbelow)

end Certificate

namespace Certificate.Slot

open Sample

/-- A certificate on the header of the first authority for the first round. -/
def certified : Certificate := certificate committee4 (key 1) 1 []

/-- The same one without the vote of the first authority. -/
def fewer : Certificate := { certified with votes := certified.votes.tail }

set_option maxRecDepth 100000 in
theorem accepted_certified : (certified.verify committee4 = .ok () ∧
    ¬ LooksLikeGenesis committee4 certified) ∧
    fewer.verify committee4 = .ok () ∧ ¬ LooksLikeGenesis committee4 fewer := by
  decide +kernel

theorem id_eq_certified :
    committee4.validityThreshold.toNat ≤ committee4.stakeOf (certified.voters ∩ fewer.voters) ∧
      certified.header.id = fewer.header.id := by
  obtain ⟨⟨haccepted, hquorum⟩, haccepted', hquorum'⟩ := accepted_certified
  have hstake : committee4.totalStake < 2 ^ 31 := by decide +kernel
  have hmain := id_eq_of_equivocators_below hstake ⟨haccepted, hquorum⟩ ⟨haccepted', hquorum'⟩
  refine ⟨hmain.1, hmain.2 (fun _ h => h = certified.header) (fun _ _ _ => rfl) (fun _ _ _ => rfl)
    (fun S hS => ?_) rfl rfl⟩
  have hnone : S = ∅ := by
    refine Finset.eq_empty_of_forall_notMem fun a ha => ?_
    obtain ⟨h, h', hh, hh', -, -, hne⟩ := hS a ha
    exact hne (congrArg Header.id (hh.trans hh'.symm))
  subst hnone
  decide +kernel

end Certificate.Slot

end Bullshark
