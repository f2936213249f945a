import Bullshark.Machinery.Collections
import Bullshark.Primary.Adversary

/-!
# Primary/SilentSet — as many authorities are silent as there are faults

Each authority finds out on its own whether it is silent in a round: it counts the others that come
before it by score and key, the steady leader apart.  Keys are distinct, so the order is strict
whatever the scores are, and the authorities with too few before them are the first ones of it.
-/

namespace Bullshark

namespace Adversary

variable {score : PublicKey → Digest} {authorities : List PublicKey} {steady : PublicKey}

/-- What the authorities are ordered by: ties of the score are broken by the key. -/
def position (score : PublicKey → Digest) (authority : PublicKey) : Digest ×ₗ PublicKey :=
  toLex (score authority, authority)

theorem position_injective (score : PublicKey → Digest) : Function.Injective (position score) :=
  fun _ _ h => congrArg Prod.snd (toLex.injective h)

/-- The steady leader is silent in any round with faults. -/
theorem selectedBy_steady {faults : ℕ} (h : 0 < min faults authorities.length) :
    selectedBy score steady authorities faults steady = true := by
  rw [selectedBy, if_neg h.ne', if_pos rfl]

/-- Another authority is silent when few others come before it. -/
theorem selectedBy_of_ne {faults : ℕ} (h : 0 < min faults authorities.length)
    {authority : PublicKey} (hne : authority ≠ steady) :
    selectedBy score authority authorities faults steady
      = decide (rank score authority authorities steady < min faults authorities.length - 1) := by
  rw [selectedBy, if_neg h.ne', if_neg hne]
  dsimp only
  split
  · next hzero => rw [hzero, decide_eq_false (Nat.not_lt_zero _)]
  · rfl

/-- The silent authorities besides the steady leader. -/
theorem length_filter_others (hnodup : authorities.Nodup) (slots : ℕ) :
    ((authorities.filter fun a => decide (a ≠ steady)).filter fun a =>
      decide (rank score a authorities steady < slots)).length
      = min slots (authorities.filter fun a => decide (a ≠ steady)).length :=
  List.length_filter_rank_lt (position_injective score) (hnodup.filter _) slots

/-- The authorities are the steady leader and the others. -/
theorem perm_cons_others (hnodup : authorities.Nodup) (hsteady : steady ∈ authorities) :
    authorities.Perm (steady :: authorities.filter fun a => decide (a ≠ steady)) := by
  have hothers : authorities.erase steady = authorities.filter fun a => decide (a ≠ steady) := by
    rw [hnodup.erase_eq_filter]
    exact List.filter_congr fun a _ => by simp [bne, beq_eq_decide]
  exact hothers ▸ List.perm_cons_erase hsteady

/-- As many authorities are silent as there are faults. -/
theorem length_filter_selectedBy (hnodup : authorities.Nodup) (hsteady : steady ∈ authorities)
    (faults : ℕ) :
    (authorities.filter fun a => selectedBy score a authorities faults steady).length
      = min faults authorities.length := by
  by_cases hzero : min faults authorities.length = 0
  · have hnone : ∀ a ∈ authorities, ¬ selectedBy score a authorities faults steady = true :=
      fun a _ => by rw [selectedBy, if_pos hzero]; exact Bool.false_ne_true
    rw [List.filter_eq_nil_iff.mpr hnone, hzero, List.length_nil]
  · have hpos : 0 < min faults authorities.length := Nat.pos_of_ne_zero hzero
    have hothers : ((authorities.filter fun a => decide (a ≠ steady)).filter fun a =>
        selectedBy score a authorities faults steady)
        = (authorities.filter fun a => decide (a ≠ steady)).filter fun a =>
          decide (rank score a authorities steady < min faults authorities.length - 1) :=
      List.filter_congr fun a ha =>
        selectedBy_of_ne hpos (of_decide_eq_true (List.mem_filter.mp ha).2)
    have hsplit := perm_cons_others hnodup hsteady
    have hlength := hsplit.length_eq
    rw [List.length_cons] at hlength
    rw [(hsplit.filter _).length_eq, List.filter_cons_of_pos (by exact selectedBy_steady hpos),
      List.length_cons, hothers, length_filter_others hnodup]
    omega

/-- **As many authorities are silent as there are faults, and the steady leader is one of them**: in
every round, under any score, whether or not it tells the authorities apart. -/
theorem faults_silent (score : PublicKey → UInt64 → UInt64 → Digest)
    {authorities : List PublicKey} (hnodup : authorities.Nodup) {steady : PublicKey}
    (hsteady : steady ∈ authorities) (round seed : UInt64) (faults : ℕ) :
    (authorities.filter fun a =>
        selectedBy (fun a => score a round seed) a authorities faults steady).length
      = min faults authorities.length ∧
    (1 ≤ faults →
      selectedBy (fun a => score a round seed) steady authorities faults steady = true) := by
  refine ⟨length_filter_selectedBy hnodup hsteady faults, fun hfaults => selectedBy_steady ?_⟩
  have := List.length_pos_of_mem hsteady
  omega

/-- Two of four authorities are silent, though all have the same score. -/
theorem two_silent_of_four :
    ([⟨1⟩, ⟨2⟩, ⟨3⟩, ⟨4⟩].filter fun a : PublicKey =>
      selectedBy (fun _ => ⟨0⟩) a [⟨1⟩, ⟨2⟩, ⟨3⟩, ⟨4⟩] 2 ⟨3⟩).length = min 2 4 ∧
    (1 ≤ 2 → selectedBy (fun _ => ⟨0⟩) ⟨3⟩ [⟨1⟩, ⟨2⟩, ⟨3⟩, ⟨4⟩] 2 ⟨3⟩ = true) :=
  faults_silent (fun _ _ _ => ⟨0⟩) (by decide) (by decide) 1 0 2

end Adversary

end Bullshark
