import Bullshark.Config.Committee
import Mathlib.Data.Fintype.EquivFin
import Mathlib.Data.Nat.ModEq
import Mathlib.Data.Nat.Prime.Basic

/-!
# Config/RoundRobin — who leads the even rounds

`Committee::leader` takes turns by the number of the round, and a steady leader is looked for in
every second round.  The authorities then all have their turn exactly when their number is odd
(`roundRobin_iff`): steps of `s` modulo `n` meet every index once exactly when `s` and `n` are
coprime (`Nat.bijective_stride_iff`).
-/

/-- **Steps of `s` modulo `n` meet every index once** exactly when `s` is coprime to `n`. -/
theorem Nat.bijective_stride_iff {n : ℕ} (hn : 0 < n) (a s : ℕ) :
    (Function.Bijective fun i : Fin n => (⟨(a + s * i) % n, Nat.mod_lt _ hn⟩ : Fin n)) ↔
      s.Coprime n := by
  rw [← Finite.injective_iff_bijective]
  constructor
  · intro h
    by_contra hcop
    have hd : 0 < s.gcd n := Nat.gcd_pos_of_pos_right s hn
    have hone : s.gcd n ≠ 1 := hcop
    have hlt : n / s.gcd n < n := Nat.div_lt_self hn (by omega)
    -- the step that many times is a multiple of `n`
    have hmul : s * (n / s.gcd n) = s / s.gcd n * n := by
      rw [← Nat.mul_div_assoc s (Nat.gcd_dvd_right s n), Nat.mul_comm s n,
        Nat.mul_div_assoc n (Nat.gcd_dvd_left s n), Nat.mul_comm]
    have heq := @h ⟨0, hn⟩ ⟨n / s.gcd n, hlt⟩ (by simp [hmul])
    have hzero : 0 = n / s.gcd n := Fin.mk.inj heq
    have hpos := Nat.div_pos (Nat.le_of_dvd hn (Nat.gcd_dvd_right s n)) hd
    omega
  · intro hcop i j hij
    have hmod : a + s * i ≡ a + s * j [MOD n] := Fin.mk.inj hij
    have hmod' := Nat.ModEq.cancel_left_of_coprime hcop.symm (Nat.ModEq.add_left_cancel' a hmod)
    exact Fin.ext (hmod'.eq_of_lt_of_lt i.isLt j.isLt)

namespace Bullshark

namespace Committee

variable (committee : Committee)

/-- As many consecutive even rounds as there are authorities, from `2 * k` on. -/
def leaderRounds (k : ℕ) : List ℕ := (List.range committee.size).map fun i => 2 * k + 2 * i

/-- **Leadership is round-robin over a window**: each authority leads exactly one of its rounds. -/
def RoundRobin (k : ℕ) : Prop :=
  ∀ name ∈ committee.authorities.keys,
    ∃! r, r ∈ committee.leaderRounds k ∧ committee.leader r = some name

variable {committee}

theorem size_eq_length_keys : committee.size = committee.authorities.keys.length :=
  (List.length_map _).symm

/-- The leader is the authority whose index is the round modulo the size. -/
theorem leader_eq_some_iff {r j : ℕ} (hj : j < committee.authorities.keys.length) :
    committee.leader r = some committee.authorities.keys[j] ↔ r % committee.size = j := by
  have hlt : r % committee.size < committee.authorities.keys.length := by
    rw [size_eq_length_keys]
    exact Nat.mod_lt _ (by omega)
  rw [leader, List.getElem?_eq_getElem hlt, Option.some_inj]
  exact committee.authorities.sorted.nodup.getElem_inj_iff

theorem mem_leaderRounds {k r : ℕ} :
    r ∈ committee.leaderRounds k ↔ ∃ i < committee.size, 2 * k + 2 * i = r := by
  simp [leaderRounds]

/-- One round of the window is led by an authority exactly when one step meets its index. -/
theorem existsUnique_leader_iff {k j : ℕ} (hj : j < committee.authorities.keys.length) :
    (∃! r, r ∈ committee.leaderRounds k ∧
      committee.leader r = some committee.authorities.keys[j]) ↔
        ∃! i : Fin committee.size, (2 * k + 2 * i) % committee.size = j := by
  simp only [leader_eq_some_iff hj, mem_leaderRounds]
  constructor
  · rintro ⟨r, ⟨⟨i, hi, rfl⟩, hmod⟩, huniq⟩
    refine ⟨⟨i, hi⟩, hmod, fun i' hi' => Fin.ext ?_⟩
    have := huniq _ ⟨⟨i', i'.isLt, rfl⟩, hi'⟩
    show i'.val = i
    omega
  · rintro ⟨i, hmod, huniq⟩
    refine ⟨_, ⟨⟨i, i.isLt, rfl⟩, hmod⟩, ?_⟩
    rintro r ⟨⟨i', hi', rfl⟩, hmod'⟩
    rw [← huniq ⟨i', hi'⟩ hmod']

/-- **Leadership is round-robin exactly in a committee of an odd number of authorities** (or of
none). -/
theorem roundRobin_iff (committee : Committee) (k : ℕ) :
    committee.RoundRobin k ↔ committee.size = 0 ∨ Odd committee.size := by
  rcases Nat.eq_zero_or_pos committee.size with hzero | hpos
  · refine iff_of_true (fun name hname => ?_) (Or.inl hzero)
    rw [size_eq_length_keys, List.length_eq_zero_iff] at hzero
    rw [hzero] at hname
    cases hname
  · rw [or_iff_right hpos.ne', ← Nat.coprime_two_left, ← Nat.bijective_stride_iff hpos (2 * k) 2,
      Function.bijective_iff_existsUnique]
    simp only [Fin.ext_iff]
    constructor
    · intro h j
      have hj : j < committee.authorities.keys.length := size_eq_length_keys ▸ j.isLt
      exact (existsUnique_leader_iff hj).mp (h _ (List.getElem_mem hj))
    · intro h name hname
      obtain ⟨j, hj, rfl⟩ := List.getElem_of_mem hname
      exact (existsUnique_leader_iff hj).mpr (h ⟨j, size_eq_length_keys ▸ hj⟩)

end Committee

/-! ## Four authorities -/

namespace Committee.FourAuthorities

/-- Four authorities of stake one. -/
def committee : Committee :=
  let address : SocketAddr := ⟨.v4 0, 0⟩
  let authority : Authority := ⟨1, ⟨address, address⟩, ∅⟩
  ⟨⟨[(⟨1⟩, authority), (⟨2⟩, authority), (⟨3⟩, authority), (⟨4⟩, authority)], by
    simp only [List.map]; decide⟩⟩

/-- **The second of four authorities never leads** in the rounds 2, 4, 6 and 8. -/
theorem not_roundRobin : ¬ committee.RoundRobin 1 := by
  intro h
  obtain ⟨r, ⟨hr, hleader⟩, -⟩ := h ⟨2⟩ (by decide)
  have hnever : ∀ r ∈ committee.leaderRounds 1, committee.leader r ≠ some ⟨2⟩ := by decide
  exact hnever r hr hleader

end Committee.FourAuthorities

end Bullshark
