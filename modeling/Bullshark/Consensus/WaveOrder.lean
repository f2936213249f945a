import Bullshark.Consensus.Agreement

/-!
# Consensus/WaveOrder — every wave gets its outcome

In dynamic mode wave `k` has its fallback at round `4k + 2` and its support round at `4k + 5`; it is
resolved once, when a quorum of the support round becomes visible.  A certificate above that round
stands on such a quorum, so the wave is resolved by then, and waves are resolved in order
(`waves_run`).  A commit of wave `k` comes before anything above round `4k + 5` is received, so its
clean-up does not touch a later wave, whatever its sums of rounds and `gc_depth` are.

The visible stake is a `u32` sum: where it wraps, a quorum may go unnoticed
(`WrappedQuorum.wave_missed`).
-/

namespace Bullshark

namespace Consensus

section

variable [Crypto]

variable {self : Consensus} {G : Universe self.committee}

open Universe

variable {s : List Certificate} {state : State}

/-! ## The next wave -/

omit [Crypto] in
/-- The support round of the wave with the fallback at `lr`. -/
theorem leaderRound_dynamic (hdyn : self.dynamic = true) {round lr : ℕ} :
    self.leaderRound round = some lr ↔ ∃ k, round = 4 * k + 5 ∧ lr = 4 * k + 2 := by
  rw [leaderRound, if_pos hdyn]
  constructor
  · intro h
    split at h
    · cases h
    · next hround =>
      cases h
      exact ⟨(round - 5) / 4, by omega, by omega⟩
  · rintro ⟨k, rfl, rfl⟩
    rw [if_neg (by omega)]
    rfl

/-- The waves below `k` are resolved, no support round from wave `k` on has a quorum, and of the
rounds from the fallback of wave `k` on the DAG holds all that was received. -/
structure Waves (task : Consensus) (G : Universe task.committee) (s : List Certificate) (k : ℕ)
    (state : State) : Prop where
  entries : G.Entries state.dag
  known : ∀ c, Holds state.dag c → G.Known s c
  kept : ∀ c, G.Known s c → 4 * k + 2 ≤ c.round → Holds state.dag c
  max : state.RoundIsMax
  resolved : ∀ lr, lr ∈ state.resolvedFallbackRounds ↔ ∃ i < k, lr = 4 * i + 2
  above : state.lastCommittedRound < 4 * k + 2
  pending : ∀ i, k ≤ i → task.roundStake state (4 * i + 5) < task.committee.quorumThreshold

/-- A round without a certificate has no quorum. -/
theorem roundStake_lt_of_forall_ne (hE : G.Entries state.dag) {r : ℕ}
    (hnone : ∀ x, Holds state.dag x → x.round ≠ r) :
    self.roundStake state r < self.committee.quorumThreshold := by
  have hempty : authorsOf state.dag r (fun _ => True) = ∅ := by
    refine Finset.eq_empty_of_forall_notMem fun n hn => ?_
    obtain ⟨x, hx, hxr, -, -⟩ := (mem_authorsOf hE).mp hn
    exact hnone x hx hxr
  rw [roundStake_eq hE, hempty, Finset.sum_empty, UInt32.lt_iff_toNat_lt]
  exact Committee.quorumThreshold_pos

theorem waves_new : self.Waves G [] 0 (State.new (Certificate.genesis self.committee)) := by
  have hinv : self.Inv G [] [] (State.new (Certificate.genesis self.committee)) := inv_new
  have hzero : ∀ x, Holds (State.new (Certificate.genesis self.committee)).dag x → x.round = 0 :=
    fun x hx => (get_new.mp hx).1
  refine ⟨hinv.entries, hinv.known, fun c hc hr => ?_, hinv.max, fun lr => by simp [State.new],
    Nat.zero_lt_succ _, fun i _ => roundStake_lt_of_forall_ne hinv.entries fun x hx => ?_⟩
  · have := hc.resolve_left (by simp)
    omega
  · have := hzero x hx
    omega

/-- **A certificate stands on a quorum of every round below it.** -/
theorem quorum_le_roundStake (hstake : self.committee.totalStake < 2 ^ 32) (hs : G.Delivery s)
    (hE : G.Entries state.dag) {c : Certificate} (hc : G.Known s c) {r : ℕ} (hr : r + 1 ≤ c.round)
    (hkept : ∀ q, G.Known s q → q.round = r → Holds state.dag q) :
    self.committee.quorumThreshold ≤ self.roundStake state r := by
  obtain ⟨p, hcp, hpr⟩ := exists_reaches_round (c.round - (r + 1)) (hc.mem hs)
    (show c.round = r + 1 + (c.round - (r + 1)) by omega)
  have hp := hc.reaches hs hcp
  obtain ⟨S, hS, hpar⟩ := G.quorum p (hp.mem hs) (by omega)
  have hsub : S ⊆ authorsOf state.dag r fun _ => True := by
    intro a ha
    obtain ⟨q, hq, hqa, hqp⟩ := hpar a ha
    have hparent : G.Parent p q := ⟨hp.mem hs, hq, hqp⟩
    have hqr := hparent.round_succ
    exact (mem_authorsOf hE).mpr
      ⟨q, hkept q (hp.parent hs hparent) (by omega), by omega, trivial, hqa⟩
  rw [roundStake_eq hE, UInt32.le_iff_toNat_le, toNat_sum_stake_authors hstake]
  exact hS.trans (Finset.sum_le_sum_of_subset hsub)

/-- **Nothing above the support round of the next wave was received.** -/
theorem Waves.round_le {k : ℕ} (hstake : self.committee.totalStake < 2 ^ 32) (hs : G.Delivery s)
    (hw : self.Waves G s k state) {c : Certificate} (hc : G.Known s c) : c.round ≤ 4 * k + 5 := by
  by_contra hlt
  have hquorum := quorum_le_roundStake hstake hs hw.entries hc (r := 4 * k + 5) (by omega)
    fun q hq hqr => hw.kept q hq (by omega)
  exact absurd (hw.pending k le_rfl) (UInt32.not_lt.mpr hquorum)

/-! ## One turn of the loop -/

section Turn

variable {k : ℕ} {c : Certificate}

/-- **The wave that is due is the next one.** -/
theorem Waves.due (hdyn : self.dynamic = true) (hstake : self.committee.totalStake < 2 ^ 32)
    (hw : self.Waves G s k state) (hs : G.Delivery (s ++ [c])) {lr : ℕ}
    (hdue : self.Due (state.insert c) c.round lr) : c.round = 4 * k + 5 ∧ lr = 4 * k + 2 := by
  obtain ⟨i, hround, rfl⟩ := (leaderRound_dynamic hdyn).mp hdue.leaderRound
  have hki : k ≤ i := by
    by_contra hlt
    exact hdue.fresh hdyn ((hw.resolved _).mpr ⟨i, by omega, rfl⟩)
  -- a parent of the certificate is at or below the support round of wave `k`
  have hc : c ∈ G.certs := hs.mem c (List.mem_append_right _ List.mem_cons_self)
  obtain ⟨p, hp⟩ := exists_parent hc (by omega)
  have hpr := hp.round_succ
  have hpknown : G.Known s p :=
    (hs.parentsFirst s c List.prefix_rfl p hp).imp id fun h => ⟨hp.2.1, h⟩
  have hle := hw.round_le hstake (hs.of_prefix (List.prefix_append _ _)) hpknown
  have hik : i = k := by omega
  exact hik ▸ ⟨hround, rfl⟩

/-- The certificate received is added to what is kept. -/
theorem Waves.kept_insert (hw : self.Waves G s k state) (hc : c ∈ G.certs) (x : Certificate)
    (hx : G.Known (s ++ [c]) x) (hr : 4 * k + 2 ≤ x.round) : Holds (state.insert c).dag x := by
  rw [holds_insert hw.entries hc]
  rcases hx with hx | hx
  · rcases List.mem_append.mp hx with hx | hx
    · exact Or.inr (hw.kept x (Or.inl hx) hr)
    · exact Or.inl (List.mem_singleton.mp hx)
  · exact Or.inr (hw.kept x (Or.inr hx) hr)

/-- Where no wave is due, the certificate received completes no quorum. -/
theorem Waves.insert (hdyn : self.dynamic = true) (hw : self.Waves G s k state) (hc : c ∈ G.certs)
    (hwait : ∀ lr, ¬ self.Due (state.insert c) c.round lr) :
    self.Waves G (s ++ [c]) k (state.insert c) where
  entries := entries_insert hw.entries hc
  known := known_insert hw.entries hc hw.known
  kept := hw.kept_insert hc
  max := hw.max
  resolved := hw.resolved
  above := hw.above
  pending := by
    intro i hi
    by_cases hround : c.round = 4 * i + 5
    · by_contra hnot
      have habove := hw.above
      refine hwait (4 * i + 2) ⟨(leaderRound_dynamic hdyn).mpr ⟨i, hround, rfl⟩, ?_, fun _ hmem => ?_,
        fun _ => ?_⟩
      · show state.lastCommittedRound < _
        omega
      · obtain ⟨j, hj, hij⟩ := (hw.resolved _).mp hmem
        omega
      · rw [hround]
        exact UInt32.not_lt.mp hnot
    · rw [roundStake_insert hw.entries hc (Ne.symm hround)]
      exact hw.pending i hi

/-- Resolving the next wave: nothing was received yet of the rounds from the next fallback on, so
the state may have lost any certificate by then. -/
theorem Waves.next (hstake : self.committee.totalStake < 2 ^ 32) (hw : self.Waves G s k state)
    (hs : G.Delivery (s ++ [c])) (hround : c.round = 4 * k + 5) {state' : State}
    (hentries : G.Entries state'.dag)
    (hheld : ∀ x, Holds state'.dag x → Holds (state.insert c).dag x) (hmax : state'.RoundIsMax)
    (hresolved : state'.resolvedFallbackRounds
      = Insert.insert (4 * k + 2) state.resolvedFallbackRounds)
    (hlcr : state'.lastCommittedRound ≤ 4 * k + 2) :
    self.Waves G (s ++ [c]) (k + 1) state' := by
  have hc : c ∈ G.certs := hs.mem c (List.mem_append_right _ List.mem_cons_self)
  have hknown : ∀ x, Holds state'.dag x → G.Known (s ++ [c]) x := fun x hx =>
    known_insert hw.entries hc hw.known x (hheld x hx)
  have hle : ∀ x, G.Known (s ++ [c]) x → x.round ≤ 4 * k + 5 := by
    have hold : ∀ x, G.Known s x → x.round ≤ 4 * k + 5 := fun x hx =>
      hw.round_le hstake (hs.of_prefix (List.prefix_append _ _)) hx
    rintro x (hx | hx)
    · rcases List.mem_append.mp hx with hx | hx
      · exact hold x (Or.inl hx)
      · rw [List.mem_singleton.mp hx]
        exact hround.le
    · exact hold x (Or.inr hx)
  refine ⟨hentries, hknown, fun x hx hr => ?_, hmax, fun lr => ?_, by omega, fun i hi =>
    roundStake_lt_of_forall_ne hentries fun x hx => ?_⟩
  · have := hle x hx
    omega
  · rw [hresolved, Finset.mem_insert, hw.resolved]
    constructor
    · rintro (rfl | ⟨i, hi, rfl⟩)
      · exact ⟨k, by omega, rfl⟩
      · exact ⟨i, by omega, rfl⟩
    · rintro ⟨i, hi, rfl⟩
      by_cases hik : i = k
      · exact Or.inl (by rw [hik])
      · exact Or.inr ⟨i, by omega, rfl⟩
  · have := hle x (hknown x hx)
    omega

/-- **Every turn of the loop resolves at most one wave, the next one**, and does not panic. -/
theorem Waves.process (hdyn : self.dynamic = true) (hstake : self.committee.totalStake < 2 ^ 32)
    (hw : self.Waves G s k state) (hs : G.Delivery (s ++ [c])) :
    ∃ result, self.process state c = .ok result ∧
      ((outcomes result.2 = [] ∧ self.Waves G (s ++ [c]) k result.1) ∨
        (∃ b, outcomes result.2 = [(4 * k + 2, b)]) ∧
          self.Waves G (s ++ [c]) (k + 1) result.1) := by
  have hc : c ∈ G.certs := hs.mem c (List.mem_append_right _ List.mem_cons_self)
  have hE := entries_insert hw.entries hc
  have hhold : Holds (state.insert c).dag c := (holds_insert hw.entries hc).mpr (Or.inl rfl)
  have hcomplete : ∀ lr, self.Due (state.insert c) c.round lr →
      ∀ x, Holds (state.insert c).dag x → G.Complete (state.insert c).dag lr x := by
    intro lr hdue x hx p hp hlow _
    obtain ⟨-, rfl⟩ := hw.due hdyn hstake hs hdue
    exact hw.kept_insert hc p ((known_insert hw.entries hc hw.known x hx).reaches hs hp) hlow
  simp only [Consensus.process, bind, Except.bind]
  rcases verdict_spec_of_complete hE hhold hcomplete with
    ⟨hwait, hv⟩ | ⟨lr, hdue, ⟨leader, hb, hv⟩ | ⟨-, hv⟩⟩
  · exact ⟨_, by rw [hv]; rfl, Or.inl ⟨rfl, hw.insert hdyn hc hwait⟩⟩
  · obtain ⟨hround, rfl⟩ := hw.due hdyn hstake hs hdue
    refine ⟨_, by rw [hv, hdyn]; rfl, Or.inr ⟨⟨true, rfl⟩, ?_⟩⟩
    have hresolved : G.Entries (Consensus.resolve (state.insert c) (4 * k + 2)).dag := hE
    have hmax : (Consensus.resolve (state.insert c) (4 * k + 2)).RoundIsMax := hw.max
    have hle := lastCommittedRound_commitLeader_le hresolved hmax
      (hE _ _ _ hb.holds).2.2.2 (hb.atRound.symm ▸ hdue.above)
    have hheld : ∀ x, Holds (self.commitLeader _ leader).1.dag x →
        Holds (Consensus.resolve (state.insert c) (4 * k + 2)).dag x := fun x hx =>
      get_of_get_commitLeader hx
    exact hw.next hstake hs hround (entries_commitLeader hresolved) hheld
      (State.roundIsMax_updateAll _ hmax _)
      (State.resolved_updateAll _ _ _) (hle.trans hb.atRound.le)
  · obtain ⟨hround, rfl⟩ := hw.due hdyn hstake hs hdue
    have habove := hw.above
    exact ⟨_, by rw [hv, hdyn]; rfl, Or.inr ⟨⟨false, rfl⟩, hw.next hstake hs hround hE
      (fun _ hx => hx) hw.max rfl habove.le⟩⟩

end Turn

/-! ## Whole runs -/

omit [Crypto] in
theorem outcomes_append (l l' : List Emission) : outcomes (l ++ l') = outcomes l ++ outcomes l' :=
  List.filterMap_append

/-- The leader rounds of the waves resolved, in the order in which they are. -/
def resolvedWaves (self : Consensus) (s : List Certificate) : List ℕ :=
  (outcomes (self.machine.outputs s)).map Prod.fst

/-- **In dynamic mode waves are resolved in order**, each once, and no run panics. -/
theorem waves_run (hdyn : self.dynamic = true) (hstake : self.committee.totalStake < 2 ^ 32)
    {s : List Certificate} (hs : G.Delivery s) :
    ∃ state k, self.machine.state s = .ok state ∧ self.Waves G s k state ∧
      self.resolvedWaves s = (List.range k).map fun i => 4 * i + 2 := by
  induction s using List.reverseRecOn with
  | nil => exact ⟨_, 0, rfl, waves_new, rfl⟩
  | append_singleton s c ih =>
    obtain ⟨state, k, hstate, hw, hrounds⟩ := ih (hs.of_prefix (List.prefix_append _ _))
    obtain ⟨result, hok, hcase⟩ := hw.process hdyn hstake hs
    have hstep : self.machine.step (self.machine.state s) c = (.ok result.1, result.2) :=
      hstate ▸ step_of_process hok
    rw [resolvedWaves] at hrounds
    rw [Mealy.state_snoc, hstep, resolvedWaves, Mealy.outputs_snoc, hstep, outcomes_append,
      List.map_append, hrounds]
    rcases hcase with ⟨hnil, hw'⟩ | ⟨⟨b, hb⟩, hw'⟩
    · refine ⟨result.1, k, rfl, hw', ?_⟩
      rw [hnil]
      exact List.append_nil _
    · refine ⟨result.1, k + 1, rfl, hw', ?_⟩
      rw [hb, List.range_succ, List.map_append]
      rfl

/-- **Every wave gets one outcome, in order**: the leader rounds of the outcomes increase, and once
a certificate of round `4k + 6` or above was received, wave `k` has exactly one. -/
theorem waves_in_order (hdyn : self.dynamic = true) (hstake : self.committee.totalStake < 2 ^ 32)
    (hs : G.Delivery s) :
    (self.resolvedWaves s).Pairwise (· < ·) ∧ (∀ lr ∈ self.resolvedWaves s, ∃ k, lr = 4 * k + 2) ∧
      ∀ k, (self.resolvedWaves s).count (4 * k + 2) ≤ 1 ∧
        ((∃ c ∈ s, 4 * k + 6 ≤ c.round) → (self.resolvedWaves s).count (4 * k + 2) = 1) := by
  obtain ⟨state, k₀, -, hwaves, hresolved⟩ := @waves_run _ self G hdyn hstake s hs
  have horder : (self.resolvedWaves s).Pairwise (· < ·) := by
    rw [hresolved, List.pairwise_map]
    exact List.pairwise_lt_range.imp fun h => by omega
  have hnodup : (self.resolvedWaves s).Nodup := horder.imp fun h => h.ne
  refine ⟨horder, fun lr hlr => ?_, fun k => ⟨List.nodup_iff_count_le_one.mp hnodup _, ?_⟩⟩
  · rw [hresolved] at hlr
    obtain ⟨i, -, rfl⟩ := List.mem_map.mp hlr
    exact ⟨i, rfl⟩
  · rintro ⟨c, hc, hround⟩
    refine List.count_eq_one_of_mem hnodup ?_
    -- nothing above the support round of the next wave was received
    have hle := hwaves.round_le hstake hs (Or.inl hc)
    rw [hresolved]
    exact List.mem_map.mpr ⟨k, List.mem_range.mpr (by omega), rfl⟩

end

namespace WrappedQuorum

open Sample

/-- The stakes of the first two authorities add up to `2 ^ 32`. -/
def committee : Committee := committee3 1 0xFFFFFFFF 3

def task : Consensus := ⟨committee, 50, true⟩

def cert (author : ℕ) (round : UInt64) (parents : List Certificate) : Certificate :=
  certificate committee (key author) round parents

def b1 : Certificate := cert 2 1 (Certificate.genesis committee)
def b2 : Certificate := cert 2 2 [b1]
def b3 : Certificate := cert 2 3 [b2]
def b4 : Certificate := cert 2 4 [b3]
def a5 : Certificate := cert 1 5 [b4]
def b5 : Certificate := cert 2 5 [b4]
def b6 : Certificate := cert 2 6 [b5]

/-- Both certificates of round 5 arrive, and one of round 6. -/
def wrapped : List Certificate := [b1, b2, b3, b4, a5, b5, b6]

def certs : List Certificate := Certificate.genesis committee ++ wrapped

set_option maxRecDepth 100000 in
theorem deliverable : Universe.WellFormed committee certs ∧ (∀ x ∈ wrapped, x ∈ certs) ∧
    Universe.ParentsFirst committee wrapped ∧ wrapped.Nodup ∧
    (task.resolvedWaves wrapped).count (4 * 0 + 2) = 0 := by
  decide +kernel

theorem wellFormed : Universe.WellFormed committee certs := deliverable.1

/-- **A wave is missed.** -/
theorem wave_missed : (Universe.ofList certs wellFormed).Delivery wrapped ∧ wrapped.Nodup ∧
    task.dynamic = true ∧ b6 ∈ wrapped ∧ 4 * 0 + 6 ≤ b6.round ∧
    (task.resolvedWaves wrapped).count (4 * 0 + 2) = 0 :=
  ⟨Universe.delivery_ofList wellFormed deliverable.2.1 deliverable.2.2.1, deliverable.2.2.2.1,
    rfl, by simp [wrapped], le_rfl, deliverable.2.2.2.2⟩

end WrappedQuorum

namespace OneWave

open Sample

def committee : Committee := committee3 1 1 7

def task : Consensus := ⟨committee, 50, true⟩

def cert (round : UInt64) (parents : List Certificate) : Certificate :=
  certificate committee (key 3) round parents

def h1 : Certificate := cert 1 (Certificate.genesis committee)
def h2 : Certificate := cert 2 [h1]
def h3 : Certificate := cert 3 [h2]
def h4 : Certificate := cert 4 [h3]
def h5 : Certificate := cert 5 [h4]
def h6 : Certificate := cert 6 [h5]

def received : List Certificate := [h1, h2, h3, h4, h5, h6]

def certs : List Certificate := Certificate.genesis committee ++ received

set_option maxRecDepth 100000 in
theorem deliverable : Universe.WellFormed committee certs ∧ (∀ x ∈ received, x ∈ certs) ∧
    Universe.ParentsFirst committee received := by
  decide +kernel

theorem wellFormed : Universe.WellFormed committee certs := deliverable.1

theorem delivery : (Universe.ofList certs wellFormed).Delivery received :=
  Universe.delivery_ofList wellFormed deliverable.2.1 deliverable.2.2

theorem waves_in_order_received : (Universe.ofList certs wellFormed).Delivery received ∧
    (task.resolvedWaves received).count (4 * 0 + 2) = 1 := by
  have hwaves := waves_in_order (G := Universe.ofList certs wellFormed) (s := received)
    (show task.dynamic = true from rfl) (by decide) delivery
  exact ⟨delivery, (hwaves.2.2 0).2 ⟨h6, by simp [received], le_rfl⟩⟩

end OneWave

end Consensus

end Bullshark
