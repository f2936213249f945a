import Mathlib.Algebra.BigOperators.Group.Finset.Basic
import Mathlib.Algebra.Order.BigOperators.Group.Finset

/-!
# Machinery/Weights — weighted sets that must meet

Two sets whose weights together exceed the total weight share a member of positive weight.
-/

namespace Weights

variable {α : Type*} [DecidableEq α] {w : α → ℕ} {N : ℕ}

/-- Two sets weigh at most their intersection and the total. -/
theorem add_le_inter_add (hN : ∀ U : Finset α, ∑ a ∈ U, w a ≤ N) (S T : Finset α) :
    ∑ a ∈ S, w a + ∑ a ∈ T, w a ≤ ∑ a ∈ S ∩ T, w a + N := by
  have hunion : ∑ a ∈ S ∪ T, w a + ∑ a ∈ S ∩ T, w a = ∑ a ∈ S, w a + ∑ a ∈ T, w a :=
    Finset.sum_union_inter
  have := hN (S ∪ T)
  omega

/-- **Two sets that together outweigh the total share a member of positive weight.** -/
theorem exists_mem_inter (hN : ∀ U : Finset α, ∑ a ∈ U, w a ≤ N) {S T : Finset α}
    (h : N < ∑ a ∈ S, w a + ∑ a ∈ T, w a) : ∃ a, a ∈ S ∧ a ∈ T ∧ 0 < w a := by
  have hinter := add_le_inter_add hN S T
  have hpos : 0 < ∑ a ∈ S ∩ T, w a := by omega
  obtain ⟨a, ha, hne⟩ := Finset.exists_ne_zero_of_sum_ne_zero (Nat.pos_iff_ne_zero.mp hpos)
  exact ⟨a, Finset.mem_of_mem_inter_left ha, Finset.mem_of_mem_inter_right ha,
    Nat.pos_of_ne_zero hne⟩

omit [DecidableEq α] in
/-- A set of positive weight has a member of positive weight. -/
theorem exists_pos_of_sum_pos {S : Finset α} (h : 0 < ∑ a ∈ S, w a) : ∃ a ∈ S, 0 < w a := by
  obtain ⟨a, ha, hne⟩ := Finset.exists_ne_zero_of_sum_ne_zero (Nat.pos_iff_ne_zero.mp h)
  exact ⟨a, ha, Nat.pos_of_ne_zero hne⟩

end Weights
