import Bullshark.Config.Committee
import Bullshark.Machinery.Weights

/-!
# Config/Stake — stake sums and thresholds as natural numbers

The code adds stakes in `u32`.  Below `2 ^ 32` of total stake no sum over distinct authorities
wraps, and below `2 ^ 31` the two thresholds have the values their comments give: a quorum and a
set of `validityThreshold` stake always meet.
-/

namespace Bullshark

theorem toNat_sum (l : List Stake) : l.sum.toNat = (l.map UInt32.toNat).sum % 2 ^ 32 := by
  induction l with
  | nil => rfl
  | cons a l ih =>
    rw [List.sum_cons, List.map_cons, List.sum_cons, UInt32.toNat_add, ih, Nat.add_mod_mod]

namespace Committee

variable (committee : Committee)

/-- The stake of an authority, as a natural number. -/
def weight (name : PublicKey) : ℕ := (committee.stake name).toNat

/-- The stake of all authorities together, without wrapping. -/
def totalStake : ℕ := (committee.authorities.values.map fun a => a.stake.toNat).sum

/-- The stake of a set of authorities, without wrapping. -/
def stakeOf (S : Finset PublicKey) : ℕ := ∑ a ∈ S, committee.weight a

variable {committee}

theorem weight_eq_zero {name : PublicKey} (h : name ∉ committee.authorities.keys) :
    committee.weight name = 0 := by
  rw [weight, stake, BTreeMap.get_eq_none_iff.mpr h]
  rfl

theorem weight_of_mem {name : PublicKey} {a : Authority}
    (h : (name, a) ∈ committee.authorities.entries) : committee.weight name = a.stake.toNat := by
  rw [weight, stake, BTreeMap.get_eq_some_of_mem h]
  rfl

theorem sum_keys_weight :
    (committee.authorities.keys.map committee.weight).sum = committee.totalStake := by
  rw [totalStake, BTreeMap.keys, BTreeMap.values, List.map_map, List.map_map]
  exact congrArg List.sum (List.map_congr_left fun e he => weight_of_mem he)

/-- **No set of authorities weighs more than the whole committee.** -/
theorem stakeOf_le_totalStake (S : Finset PublicKey) : committee.stakeOf S ≤ committee.totalStake := by
  have hsub : S.filter (· ∈ committee.authorities.keys) ⊆ committee.authorities.keys.toFinset :=
    fun a ha => List.mem_toFinset.mpr (Finset.mem_filter.mp ha).2
  calc committee.stakeOf S
      = ∑ a ∈ S.filter (· ∈ committee.authorities.keys), committee.weight a := by
        rw [stakeOf, Finset.sum_filter_of_ne]
        intro a _ hne
        by_contra hmem
        exact hne (weight_eq_zero hmem)
    _ ≤ ∑ a ∈ committee.authorities.keys.toFinset, committee.weight a :=
        Finset.sum_le_sum_of_subset hsub
    _ = committee.totalStake := by
        rw [List.sum_toFinset _ committee.authorities.nodup_keys, sum_keys_weight]

/-- The `u32` sum of the stakes of distinct authorities does not wrap. -/
theorem toNat_sum_stake (hstake : committee.totalStake < 2 ^ 32) {l : List PublicKey}
    (hnd : l.Nodup) : ((l.map committee.stake).sum).toNat = committee.stakeOf l.toFinset := by
  have hsum : ((l.map committee.stake).map UInt32.toNat).sum = committee.stakeOf l.toFinset := by
    rw [stakeOf, List.sum_toFinset _ hnd, List.map_map]
    rfl
  rw [toNat_sum, hsum]
  exact Nat.mod_eq_of_lt ((stakeOf_le_totalStake _).trans_lt hstake)

theorem toNat_totalVotes (hstake : committee.totalStake < 2 ^ 32) :
    committee.totalVotes.toNat = committee.totalStake := by
  rw [totalVotes, toNat_sum, List.map_map]
  exact Nat.mod_eq_of_lt hstake

/-- The quorum threshold, with the wrap of `2 * total_votes`. -/
theorem toNat_quorumThreshold_mod (hstake : committee.totalStake < 2 ^ 32) :
    committee.quorumThreshold.toNat = 2 * committee.totalStake % 2 ^ 32 / 3 + 1 := by
  have hdouble : (2 * committee.totalVotes).toNat = 2 * committee.totalStake % 2 ^ 32 := by
    rw [UInt32.toNat_mul, toNat_totalVotes hstake]
    rfl
  rw [quorumThreshold, UInt32.toNat_add, UInt32.toNat_div, hdouble]
  exact Nat.mod_eq_of_lt (by simp only [UInt32.reduceToNat]; omega)

theorem toNat_quorumThreshold (hstake : committee.totalStake < 2 ^ 31) :
    committee.quorumThreshold.toNat = 2 * committee.totalStake / 3 + 1 := by
  rw [toNat_quorumThreshold_mod (by omega), Nat.mod_eq_of_lt (by omega)]

theorem toNat_validityThreshold (hstake : committee.totalStake + 2 < 2 ^ 32) :
    committee.validityThreshold.toNat = (committee.totalStake + 2) / 3 := by
  have htotal : committee.totalVotes.toNat = committee.totalStake := toNat_totalVotes (by omega)
  have hsum : (committee.totalVotes + 2).toNat = committee.totalStake + 2 := by
    rw [UInt32.toNat_add, htotal]
    exact Nat.mod_eq_of_lt (by simp only [UInt32.reduceToNat]; omega)
  rw [validityThreshold, UInt32.toNat_div, hsum]
  rfl

theorem quorumThreshold_pos : 0 < committee.quorumThreshold.toNat := by
  rw [quorumThreshold, UInt32.toNat_add, UInt32.toNat_div]
  simp only [UInt32.reduceToNat]
  have := (2 * committee.totalVotes).toNat_lt
  omega

/-- **A quorum and an availability set share an authority of positive stake.** -/
theorem exists_mem_quorum_validity (hstake : committee.totalStake < 2 ^ 31) {S T : Finset PublicKey}
    (hS : committee.quorumThreshold.toNat ≤ committee.stakeOf S)
    (hT : committee.validityThreshold.toNat ≤ committee.stakeOf T) :
    ∃ a, a ∈ S ∧ a ∈ T ∧ 0 < committee.weight a := by
  rw [toNat_quorumThreshold hstake] at hS
  rw [toNat_validityThreshold (by omega)] at hT
  refine Weights.exists_mem_inter stakeOf_le_totalStake ?_
  simp only [stakeOf] at hS hT
  omega

end Committee

end Bullshark
