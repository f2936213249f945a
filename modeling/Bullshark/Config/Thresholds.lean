import Bullshark.Config.Stake
import Mathlib.Order.Bounds.Basic

/-!
# Config/Thresholds — what the two thresholds promise

With `f` the largest faulty stake the committee tolerates (`3f + 1 ≤ N`), the comments of
`quorum_threshold` and `validity_threshold` promise `N - f` and `f + 1`.  Both are computed in
`u32`, and `2 * total_votes` wraps from a total of `2 ^ 31` on: there two quorums need not share an
honest authority any more (`thresholdsSafe_iff`).
-/

namespace Bullshark

namespace Committee

/-- The thresholds are safe against `f` faulty stake. -/
structure ThresholdsSafe (committee : Committee) (f : ℕ) : Prop where
  /-- The honest stake can form a quorum. -/
  reachable : committee.quorumThreshold.toNat ≤ committee.totalStake - f
  /-- Two quorums share an honest authority. -/
  quorums : committee.totalStake + (f + 1) ≤ 2 * committee.quorumThreshold.toNat
  /-- Every available set has an honest authority. -/
  availability : f + 1 ≤ committee.validityThreshold.toNat
  /-- A quorum meets every available set. -/
  meets : committee.totalStake
    < committee.quorumThreshold.toNat + committee.validityThreshold.toNat

variable {committee : Committee}

/-- The largest `f` with `3f + 1 ≤ n`. -/
theorem isGreatest_iff {n f : ℕ} :
    IsGreatest {g | 3 * g + 1 ≤ n} f ↔ 3 * f + 1 ≤ n ∧ n ≤ 3 * f + 3 := by
  constructor
  · rintro ⟨hf, hmax⟩
    refine ⟨hf, ?_⟩
    by_contra hlt
    have := hmax (show 3 * (f + 1) + 1 ≤ n by omega)
    omega
  · rintro ⟨hlow, hhigh⟩
    refine ⟨hlow, fun g hg => ?_⟩
    have : 3 * g + 1 ≤ n := hg
    omega

/-- **Two quorums share an available set.** -/
theorem validityThreshold_le_stakeOf_inter (hstake : committee.totalStake < 2 ^ 31)
    {S T : Finset PublicKey} (hS : committee.quorumThreshold.toNat ≤ committee.stakeOf S)
    (hT : committee.quorumThreshold.toNat ≤ committee.stakeOf T) :
    committee.validityThreshold.toNat ≤ committee.stakeOf (S ∩ T) := by
  have hmeet := Weights.add_le_inter_add (w := committee.weight) stakeOf_le_totalStake S T
  rw [toNat_quorumThreshold hstake] at hS hT
  rw [toNat_validityThreshold (by omega)]
  simp only [stakeOf] at hS hT hmeet ⊢
  omega

/-- The thresholds where `2 * total_votes` does not wrap. -/
theorem thresholdsSafe_of_lt (hstake : committee.totalStake < 2 ^ 31) {f : ℕ}
    (hlow : 3 * f + 1 ≤ committee.totalStake) (hhigh : committee.totalStake ≤ 3 * f + 3) :
    committee.ThresholdsSafe f := by
  have hQ := toNat_quorumThreshold hstake
  have hV : committee.validityThreshold.toNat = (committee.totalStake + 2) / 3 :=
    toNat_validityThreshold (by omega)
  constructor <;> omega

/-- Where it wraps, two quorums may be disjoint but for faulty stake. -/
theorem not_thresholdsSafe_of_le (hstake : committee.totalStake < 2 ^ 32)
    (hwrap : 2 ^ 31 ≤ committee.totalStake) {f : ℕ} (hhigh : committee.totalStake ≤ 3 * f + 3) :
    ¬ committee.ThresholdsSafe f := by
  intro h
  have hquorums := h.quorums
  rw [toNat_quorumThreshold_mod hstake] at hquorums
  omega

/-- **The thresholds are safe exactly below `2 ^ 31` of total stake.** -/
theorem thresholdsSafe_iff (hstake : committee.totalStake < 2 ^ 32) {f : ℕ}
    (hf : IsGreatest {g | 3 * g + 1 ≤ committee.totalStake} f) :
    committee.ThresholdsSafe f ↔ committee.totalStake < 2 ^ 31 := by
  obtain ⟨hlow, hhigh⟩ := isGreatest_iff.mp hf
  refine ⟨fun hsafe => ?_, fun hlt => thresholdsSafe_of_lt hlt hlow hhigh⟩
  by_contra hge
  exact not_thresholdsSafe_of_le hstake (not_lt.mp hge) hhigh hsafe

end Committee

/-! ## Two large stakes -/

namespace Committee.LargeStakes

/-- Two authorities of equal stake. -/
def committee (stake : Stake) : Committee :=
  let address : SocketAddr := ⟨.v4 0, 0⟩
  let authority : Authority := ⟨stake, ⟨address, address⟩, ∅⟩
  ⟨⟨[(⟨1⟩, authority), (⟨2⟩, authority)], by simp only [List.map]; decide⟩⟩

/-- **Two disjoint quorums**: with `2 ^ 30` stake each, the threshold is one. -/
theorem disjoint_quorums : (committee (2 ^ 30)).totalStake = 2 ^ 31 ∧
    IsGreatest {g | 3 * g + 1 ≤ (committee (2 ^ 30)).totalStake} 715827882 ∧
    (committee (2 ^ 30)).quorumThreshold = 1 ∧
    ¬ (committee (2 ^ 30)).ThresholdsSafe 715827882 := by
  have htotal : (committee (2 ^ 30)).totalStake = 2 ^ 31 := rfl
  have hthreshold : (committee (2 ^ 30)).quorumThreshold = 1 := by decide +kernel
  refine ⟨htotal, isGreatest_iff.mpr (by omega), hthreshold, fun h => ?_⟩
  have hquorums := h.quorums
  rw [hthreshold, htotal] at hquorums
  simp at hquorums

theorem thresholdsSafe_small : IsGreatest {g | 3 * g + 1 ≤ (committee 2).totalStake} 1 ∧
    (committee 2).ThresholdsSafe 1 := by
  have htotal : (committee 2).totalStake = 4 := rfl
  have hf : IsGreatest {g | 3 * g + 1 ≤ (committee 2).totalStake} 1 :=
    isGreatest_iff.mpr (by omega)
  exact ⟨hf, (thresholdsSafe_iff (by omega) hf).mpr (by omega)⟩

end Committee.LargeStakes

end Bullshark
