import Bullshark.Config.Stake
import Bullshark.Primary.Sample

/-!
# Primary/Acceptance — which certificates are accepted

`Certificate::verify` lets a genesis certificate through before any check, and recognises it by
`==`, which compares the header's id, the round and the author.  A certificate with those three of
genesis and anything else besides is accepted too: an `Impostor`.  The other gap is arithmetic: the
stakes of the voters are added in `u32`, and may wrap below the threshold (`Overflown`).  Apart from
these, `verify` accepts genesis and what a quorum signed, and nothing else (`acceptsExactly_iff`).
-/

namespace Bullshark

namespace Certificate

section

variable [Crypto]

/-- The header is valid, and distinct authorities of positive stake that together have a quorum
signed the certificate. -/
structure HasQuorum (committee : Committee) (c : Certificate) : Prop where
  header : c.header.verify committee = .ok ()
  distinct : (c.votes.map Prod.fst).Nodup
  positive : ∀ v ∈ c.votes, 0 < committee.stake v.1
  stake : committee.quorumThreshold.toNat ≤ (c.votes.map fun v => committee.weight v.1).sum
  signed : ∀ v ∈ c.votes, Signature.verifies c.digest v = true

/-- No signature in the certificate verifies. -/
def Unsigned (c : Certificate) : Prop :=
  c.header.signature.verify c.header.id c.header.author = false ∧
    ∀ v ∈ c.votes, Signature.verifies c.digest v = false

/-- `verify` accepts genesis and the certificates with a quorum, and nothing else; in particular
nothing unsigned with a payload or with parents. -/
def AcceptsExactly (committee : Committee) (c : Certificate) : Prop :=
  (c.verify committee = .ok () ↔ c ∈ genesis committee ∨ HasQuorum committee c) ∧
    (Unsigned c → c.header.payload ≠ .empty ∨ c.header.parents ≠ .empty →
      c.verify committee ≠ .ok ())

omit [Crypto] in
/-- The certificate has the id, the round and the author of a genesis certificate. -/
def LooksLikeGenesis (committee : Committee) (c : Certificate) : Prop :=
  ∃ g ∈ genesis committee, g.partialEq c = true

/-- It looks like a genesis certificate, and neither is one nor has a quorum. -/
def Impostor (committee : Committee) (c : Certificate) : Prop :=
  LooksLikeGenesis committee c ∧ c ∉ genesis committee ∧ ¬ HasQuorum committee c

/-- It has a quorum, but the `u32` sum of the stakes wraps below the threshold. -/
def Overflown (committee : Committee) (c : Certificate) : Prop :=
  ¬ LooksLikeGenesis committee c ∧ HasQuorum committee c ∧
    (c.votes.map fun v => committee.stake v.1).sum < committee.quorumThreshold

/-! ## The two branches -/

theorem verify_eq_ok_iff {committee : Committee} {c : Certificate} :
    c.verify committee = .ok () ↔
      LooksLikeGenesis committee c ∨ c.verifyQuorum committee = .ok () := by
  rw [verify]
  by_cases h : (genesis committee).any (·.partialEq c) = true
  · rw [if_pos h]
    exact iff_of_true rfl (Or.inl (List.any_eq_true.mp h))
  · rw [if_neg h]
    exact (or_iff_right fun hlooks => h (List.any_eq_true.mpr hlooks)).symm

omit [Crypto] in
theorem looksLikeGenesis_of_mem {committee : Committee} {c : Certificate}
    (h : c ∈ genesis committee) : LooksLikeGenesis committee c :=
  ⟨c, h, by simp [partialEq]⟩

omit [Crypto] in
/-- The `u32` sum of the stakes is at most the sum. -/
theorem toNat_sum_le (committee : Committee) (votes : List (PublicKey × Signature)) :
    (votes.map fun v => committee.stake v.1).sum.toNat
      ≤ (votes.map fun v => committee.weight v.1).sum := by
  rw [toNat_sum, List.map_map]
  exact Nat.mod_le _ _

/-- **The quorum branch accepts the certificates with a quorum whose stakes do not wrap.** -/
theorem verifyQuorum_eq_ok_iff_hasQuorum {committee : Committee} {c : Certificate} :
    c.verifyQuorum committee = .ok () ↔ HasQuorum committee c ∧
      ¬ (c.votes.map fun v => committee.stake v.1).sum < committee.quorumThreshold := by
  rw [verifyQuorum_eq_ok_iff]
  constructor
  · rintro ⟨hheader, hnd, hpos, hstake, hsig⟩
    refine ⟨⟨hheader, hnd, hpos, ?_, hsig⟩, UInt32.not_lt.mpr hstake⟩
    exact (UInt32.le_iff_toNat_le.mp hstake).trans (toNat_sum_le committee c.votes)
  · rintro ⟨h, hstake⟩
    exact ⟨h.header, h.distinct, h.positive, UInt32.not_lt.mp hstake, h.signed⟩

omit [Crypto] in
/-- A genesis certificate has neither payload nor parents. -/
theorem empty_of_mem_genesis {committee : Committee} {c : Certificate}
    (h : c ∈ genesis committee) : c.header.payload = .empty ∧ c.header.parents = .empty := by
  obtain ⟨name, -, rfl⟩ := List.mem_map.mp h
  exact ⟨rfl, rfl⟩

/-- **`verify` is exact on a certificate exactly when it is no impostor and does not overflow.** -/
theorem acceptsExactly_iff (committee : Committee) (c : Certificate) :
    AcceptsExactly committee c ↔ ¬ Impostor committee c ∧ ¬ Overflown committee c := by
  constructor
  · rintro ⟨hexact, -⟩
    refine ⟨fun ⟨hlooks, hnot, hnoquorum⟩ => ?_, fun ⟨hlooks, hquorum, hwrap⟩ => ?_⟩
    · exact (hexact.mp (verify_eq_ok_iff.mpr (Or.inl hlooks))).elim hnot hnoquorum
    · rcases verify_eq_ok_iff.mp (hexact.mpr (Or.inr hquorum)) with h | h
      · exact hlooks h
      · exact (verifyQuorum_eq_ok_iff_hasQuorum.mp h).2 hwrap
  · rintro ⟨himpostor, hoverflown⟩
    have hexact : c.verify committee = .ok () ↔ c ∈ genesis committee ∨ HasQuorum committee c := by
      rw [verify_eq_ok_iff]
      constructor
      · rintro (hlooks | hquorum)
        · by_contra hnot
          rw [not_or] at hnot
          exact himpostor ⟨hlooks, hnot⟩
        · exact Or.inr (verifyQuorum_eq_ok_iff_hasQuorum.mp hquorum).1
      · rintro (hmem | hquorum)
        · exact Or.inl (looksLikeGenesis_of_mem hmem)
        · by_cases hlooks : LooksLikeGenesis committee c
          · exact Or.inl hlooks
          · exact Or.inr (verifyQuorum_eq_ok_iff_hasQuorum.mpr
              ⟨hquorum, fun hwrap => hoverflown ⟨hlooks, hquorum, hwrap⟩⟩)
    refine ⟨hexact, fun hunsigned hcontent hok => ?_⟩
    rcases hexact.mp hok with hmem | hquorum
    · obtain ⟨hpayload, hparents⟩ := empty_of_mem_genesis hmem
      exact hcontent.elim (· hpayload) (· hparents)
    · have := (Header.verify_eq_ok_iff.mp hquorum.header).2.2.2
      rw [hunsigned.1] at this
      cases this

end

/-! ## An impostor -/

namespace ForgedGenesis

open Sample

/-- The genesis certificate of `key 1`, with a parent nobody signed for. -/
def forged : Certificate :=
  let g := genesisOf (key 1)
  { g with header := { g.header with parents := BTreeSet.collect [⟨7⟩] } }

set_option maxRecDepth 100000 in
/-- **An unsigned certificate with a parent is accepted.** -/
theorem forged_accepted :
    forged.verify committee4 = .ok () ∧ forged ∉ genesis committee4 ∧
      ¬ HasQuorum committee4 forged ∧ Unsigned forged ∧ forged.header.parents ≠ .empty := by
  have hheader : forged.header.verify committee4 ≠ .ok () := by decide +kernel
  refine ⟨by decide +kernel, by decide +kernel, fun h => hheader h.header, ⟨by decide +kernel, ?_⟩,
    by decide +kernel⟩
  intro v hv
  cases hv

end ForgedGenesis

end Certificate

end Bullshark
