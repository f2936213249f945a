import Bullshark.Consensus.Agreement
import Bullshark.Consensus.Quiet
import Bullshark.Primary.Sample

/-!
# Consensus/Support — leaders with enough votes

A certificate that `f+1` stake of the next round names as a parent is in the history of everything
two rounds up, and the DAG still holds that history above the last committed round: `linked` finds
it (`linked_of_supported`).  Conversely no leader is left with that much support and uncommitted
after a turn (`no_leader_left_behind`).

Both rest on sums that must not wrap.  Where the `u32` sum of all stakes does, `validity_threshold`
may be zero, and a leader without a single vote has enough of them (`WrappedStake`).  Where the
`u64` sum of a round and `gc_depth` does, the clean-up drops rounds above the last committed one,
and the search misses them (`LostRound.expects_round`).
-/

namespace Bullshark

namespace Consensus

section

variable [Crypto]

variable {self : Consensus} {G : Universe self.committee} {s : List Certificate} {state : State}

open Universe

/-- **A supported certificate is unavoidable**: where the certificates of the universe that name `l`
as a parent carry the stake of `validity_threshold`, and no sum of a round and `gc_depth` overflows,
`linked` finds a path to it from every certificate of the DAG two rounds up or more. -/
theorem linked_of_supported (hstake : self.committee.totalStake < 2 ^ 31) (hs : G.Delivery s)
    (hfits : self.machine.Along self.Fits s) (hstate : self.machine.state s = .ok state)
    {l c : Certificate} (hl : l ∈ G.certs) (habove : state.lastCommittedRound < l.round)
    {T : Finset PublicKey} (hT : self.committee.validityThreshold.toNat ≤ self.committee.stakeOf T)
    (hsup : G.Supports T l) {n : PublicKey} {d : Digest}
    (hc : state.dag.get c.round n = some (d, c)) (hround : l.round + 2 ≤ c.round) :
    linked c l state.dag = .ok true := by
  obtain ⟨state', hstate', hinv⟩ := @inv_run _ self G s hs hfits
  rw [hstate] at hstate'
  cases hstate'
  obtain ⟨-, -, -, hcG⟩ := hinv.entries _ _ _ hc
  have hknown := hinv.known c (hinv.entries.holds hc)
  have hreach : G.Reaches c l := reaches_of_supported hstake hT hsup hcG hround
  have hle : l.round ≤ c.round := by omega
  classical
  rw [linked_eq hinv.entries hcG hl hle (hinv.complete hs hknown habove)]
  exact congrArg Except.ok (decide_eq_true hreach)

/-- The stake of the certificates of round `r + 1` of the DAG that name the digest as a parent. -/
def voteStake (self : Consensus) (state : State) (r : ℕ) (leader : Digest) : ℕ :=
  (((visible state.dag (r + 1)).filter fun x => decide (leader ∈ x.header.parents)).map
    fun x => self.committee.weight x.origin).sum

/-- A certificate above round zero needs stake to stand on. -/
theorem totalStake_pos {c : Certificate} (hc : c ∈ G.certs) (hr : 1 ≤ c.round) :
    0 < self.committee.totalStake := by
  obtain ⟨S, hS, -⟩ := G.quorum c hc hr
  have hpos := self.committee.quorumThreshold_pos
  have hle : self.committee.stakeOf S ≤ self.committee.totalStake := Committee.stakeOf_le_totalStake S
  omega

/-- **No supported leader is left behind**: after every turn in steady mode, a leader in the DAG
above the last committed round has votes for less than `validity_threshold`. -/
theorem no_leader_left_behind (hsteady : self.dynamic = false)
    (hstake : self.committee.totalStake + 2 < 2 ^ 32) (hs : G.Delivery s)
    (hfits : self.machine.Along self.Fits s) (hstate : self.machine.state s = .ok state)
    {r : ℕ} (heven : r % 2 = 0) (htwo : 2 ≤ r) (habove : state.lastCommittedRound < r)
    {e : Digest × Certificate} (he : self.leader r state.dag = .ok (some e)) :
    self.voteStake state r e.1 < self.committee.validityThreshold.toNat := by
  obtain ⟨state', hstate', hinv⟩ := @inv_run _ self G s hs hfits
  rw [hstate] at hstate'
  cases hstate'
  obtain ⟨key, hkey, hget⟩ := Except.bind_eq_ok_iff.mp he
  have hget : state.dag.get r key = some e := Except.ok.inj hget
  obtain ⟨hdigest, hround, horigin, hmem⟩ := hinv.entries _ _ _ hget
  have hpos : 0 < self.committee.validityThreshold := by
    have := @totalStake_pos _ self G _ hmem (by omega)
    rw [UInt32.lt_iff_toNat_lt, Committee.toNat_validityThreshold hstake]
    simp only [UInt32.toNat_zero]
    omega
  have hdue : self.Due state (r + 1) r := by
    refine ⟨?_, habove, fun hdyn => ?_, fun hdyn => ?_⟩
    · have hpred : Round.pred (r + 1) = r := if_neg (Nat.succ_ne_zero r)
      rw [leaderRound, if_neg (by simp [hsteady]), hpred]
      exact if_neg (by omega)
    · rw [hsteady] at hdyn
      cases hdyn
    · rw [hsteady] at hdyn
      cases hdyn
  have hnot := (quiet_run (fun _ => hpos) hs hfits hstate (r + 1) r hdue).2 e.2
  -- enough votes would have made the leader a backed one
  by_contra hvotes
  have hauthors : self.voteStake state r e.1 = self.committee.stakeOf
      (authorsOf state.dag (r + 1) (self.StandsBehind G e.2)) := by
    rw [Committee.stakeOf, ← sum_filter_visible _ hinv.entries, voteStake]
    refine congrArg List.sum (congrArg _ (List.filter_congr fun x hx => ?_))
    obtain ⟨hold, -⟩ := (mem_visible hinv.entries).mp hx
    refine decide_eq_decide.mpr ?_
    rw [StandsBehind, if_neg (by simp [hsteady]), hdigest]
    exact ⟨fun h => ⟨(hinv.entries _ _ _ hold).2.2.2, hmem, h⟩, fun h => h.2.2⟩
  refine hnot ⟨?_, hround, hinv.entries.holds hget, ?_⟩
  · rw [elected, if_neg (by simp [hsteady]), hkey, horigin]
    rfl
  · rw [requiredSupport, if_neg (by simp [hsteady]), UInt32.le_iff_toNat_le,
      toNat_sum_stake_authors (by omega), ← hauthors]
    exact not_lt.mp hvotes

end

/-! ## A chain of one author, and a committee whose stakes wrap -/

namespace HeavyChain

open Sample

def committee : Committee := committee3 1 1 7

def task : Consensus := ⟨committee, 50, false⟩

def cert (author : ℕ) (round : UInt64) (parents : List Certificate) : Certificate :=
  certificate committee (key author) round parents

def h1 : Certificate := cert 3 1 (Certificate.genesis committee)
def h2 : Certificate := cert 3 2 [h1]
def h3 : Certificate := cert 3 3 [h2]
def h4 : Certificate := cert 3 4 [h3]

/-- The leader of round 4, which `h 5` does not vote for. -/
def a4 : Certificate := cert 2 4 [h3]

def h5 : Certificate := cert 3 5 [h4]

def received : List Certificate := [h1, h2, h3, h4, a4, h5]

def certs : List Certificate := Certificate.genesis committee ++ received

set_option maxRecDepth 100000 in
theorem deliverable : Universe.WellFormed committee certs ∧ (∀ x ∈ received, x ∈ certs) ∧
    Universe.ParentsFirst committee received ∧ h3.digest ∈ h4.header.parents ∧
    (task.reached received).lastCommittedRound < h3.round ∧ h3.round + 2 ≤ h5.round ∧
    (task.reached received).dag.get h5.round (key 3) = some (h5.digest, h5) ∧
    task.leader 4 (task.reached received).dag = .ok (some (a4.digest, a4)) ∧
    (task.reached received).lastCommittedRound < 4 ∧ task.machine.Along task.Fits received := by
  decide +kernel

theorem wellFormed : Universe.WellFormed committee certs := deliverable.1

theorem delivery : (Universe.ofList certs wellFormed).Delivery received :=
  Universe.delivery_ofList wellFormed deliverable.2.1 deliverable.2.2.1

/-- The author of the heavy chain supports `h 3`. -/
theorem supports_h3 : (Universe.ofList certs wellFormed).Supports {key 3} h3 := by
  intro a ha
  obtain rfl := Finset.mem_singleton.mp ha
  exact ⟨h4, rfl, by simp [certs, received, Universe.ofList],
    by simp [certs, received, Universe.ofList], deliverable.2.2.2.1⟩

theorem linked_of_supported_h5 :
    (task.reached received).lastCommittedRound < h3.round ∧ h3.round + 2 ≤ h5.round ∧
      linked h5 h3 (task.reached received).dag = .ok true := by
  obtain ⟨-, -, -, -, habove, hround, hholds, -, -, hfits⟩ := deliverable
  refine ⟨habove, hround, ?_⟩
  exact linked_of_supported (G := Universe.ofList certs wellFormed) (by decide) delivery hfits
    (state_eq_reached delivery hfits) (by simp [certs, received, Universe.ofList]) habove
    (T := {key 3}) (by decide) supports_h3 (n := key 3) (d := h5.digest) hholds hround

set_option maxRecDepth 100000 in
theorem no_leader_left_behind_a4 :
    task.leader 4 (task.reached received).dag = .ok (some (a4.digest, a4)) ∧
      (task.reached received).lastCommittedRound < 4 ∧
      task.voteStake (task.reached received) 4 a4.digest
        < task.committee.validityThreshold.toNat := by
  obtain ⟨-, -, -, -, -, -, -, hleader, habove, hfits⟩ := deliverable
  exact ⟨hleader, habove, no_leader_left_behind (G := Universe.ofList certs wellFormed) rfl
    (by decide) delivery hfits (state_eq_reached delivery hfits) rfl (by decide) habove hleader⟩

end HeavyChain

namespace WrappedStake

open Sample

/-- Two authorities whose stakes add up to `2 ^ 32`. -/
def committee : Committee :=
  ⟨⟨[(key 1, authority 0x80000000), (key 2, authority 0x80000000)], by decide⟩⟩

def task : Consensus := ⟨committee, 50, false⟩

def a1 : Certificate := certificate committee (key 1) 1 (Certificate.genesis committee)

/-- The leader of round 2, which nobody voted for. -/
def a2 : Certificate := certificate committee (key 1) 2 [a1]

def certs : List Certificate := Certificate.genesis committee ++ [a1, a2]

set_option maxRecDepth 100000 in
theorem deliverable : Universe.WellFormed committee certs ∧ (∀ x ∈ [a1, a2], x ∈ certs) ∧
    Universe.ParentsFirst committee [a1, a2] ∧ [a1, a2].Nodup ∧
    (task.reached [a1, a2]).lastCommittedRound < 2 ∧
    task.leader 2 (task.reached [a1, a2]).dag = .ok (some (a2.digest, a2)) ∧
    ¬ task.voteStake (task.reached [a1, a2]) 2 a2.digest
      < task.committee.validityThreshold.toNat ∧ task.machine.Along task.Fits [a1, a2] := by
  decide +kernel

theorem wellFormed : Universe.WellFormed committee certs := deliverable.1

theorem delivery : (Universe.ofList certs wellFormed).Delivery [a1, a2] :=
  Universe.delivery_ofList wellFormed deliverable.2.1 deliverable.2.2.1

/-- **A leader is left behind** with no votes, which are enough. -/
theorem leader_left_behind : (Universe.ofList certs wellFormed).Delivery [a1, a2] ∧
    [a1, a2].Nodup ∧ task.dynamic = false ∧
    task.machine.state [a1, a2] = .ok (task.reached [a1, a2]) ∧
    (task.reached [a1, a2]).lastCommittedRound < 2 ∧
    task.leader 2 (task.reached [a1, a2]).dag = .ok (some (a2.digest, a2)) ∧
    ¬ task.voteStake (task.reached [a1, a2]) 2 a2.digest
      < task.committee.validityThreshold.toNat := by
  obtain ⟨-, -, -, hnodup, habove, hleader, hvotes, hfits⟩ := deliverable
  exact ⟨delivery, hnodup, rfl, state_eq_reached delivery hfits, habove, hleader, hvotes⟩

end WrappedStake

/-! ## Rounds dropped above the last committed one

One authority with all the stake, and a `gc_depth` of `2 ^ 64 - 3`.  When the leader of round 2 is
committed, `3 + gc_depth` is 0 and the round of the third certificate is dropped. -/

namespace LostRound

open Sample

def task : Consensus := ⟨committee1, 2 ^ 64 - 3, false⟩

def received : List Certificate := [chain 1, chain 2, chain 3, chain 4, chain 5]

def certs : List Certificate := Certificate.genesis committee1 ++ received

set_option maxRecDepth 100000 in
theorem deliverable : Universe.WellFormed committee1 certs ∧ (∀ x ∈ received, x ∈ certs) ∧
    Universe.ParentsFirst committee1 received ∧
    (chain 3).digest ∈ (chain 4).header.parents ∧
    (task.machine.state received).isOk = true ∧
    (task.reached received).lastCommittedRound < (chain 3).round ∧
    (task.reached received).dag.get (chain 5).round (key 1) = some ((chain 5).digest, chain 5) ∧
    linked (chain 5) (chain 3) (task.reached received).dag = .error .wholeHistory := by
  decide +kernel

theorem wellFormed : Universe.WellFormed committee1 certs := deliverable.1

/-- The author supports its own certificate of round 3. -/
theorem supports_chain : (Universe.ofList certs wellFormed).Supports {key 1} (chain 3) := by
  intro a ha
  obtain rfl := Finset.mem_singleton.mp ha
  exact ⟨chain 4, rfl, by simp [certs, received, Universe.ofList],
    by simp [certs, received, Universe.ofList], deliverable.2.2.2.1⟩

/-- **The search hits its `expect`** on the way down to a supported certificate. -/
theorem expects_round :
    (Universe.ofList certs wellFormed).Delivery received ∧ task.dynamic = false ∧
      task.committee.totalStake < 2 ^ 31 ∧
      task.machine.state received = .ok (task.reached received) ∧
      (task.reached received).lastCommittedRound < (chain 3).round ∧
      task.committee.validityThreshold.toNat ≤ task.committee.stakeOf {key 1} ∧
      (Universe.ofList certs wellFormed).Supports {key 1} (chain 3) ∧
      (task.reached received).dag.get (chain 5).round (key 1)
        = some ((chain 5).digest, chain 5) ∧
      (chain 3).round + 2 ≤ (chain 5).round ∧
      linked (chain 5) (chain 3) (task.reached received).dag = .error .wholeHistory := by
  obtain ⟨-, hmem, hfirst, -, hok, habove, hget, hlinked⟩ := deliverable
  exact ⟨Universe.delivery_ofList wellFormed hmem hfirst, rfl, by decide,
    state_eq_reached_of_isOk hok, habove, by decide, supports_chain, hget, by decide, hlinked⟩

end LostRound

end Consensus

end Bullshark
