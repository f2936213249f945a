import Bullshark.Consensus.Steps

/-!
# Consensus/OnTime — runs in which no certificate arrives late

The main loop inserts whatever it receives.  A certificate whose author has been committed at a
higher round is `Late`: had it arrived earlier, the clean-up would have dropped it.  In a run
without late certificates the DAG is a function of what was received and of what was sent
(`Tidy.holds_iff`), so two such runs flatten a leader alike (`orderDag_eq`).
-/

namespace Bullshark

variable [Crypto]

namespace Consensus

variable {self : Consensus} {G : Universe self.committee}

open Universe

variable {s out : List Certificate} {state : State}

/-- The certificate is below its author's last committed round, and not yet below the horizon.  The
horizon is the one of ℕ: no sum of a run that `Fits` wraps. -/
def Late (self : Consensus) (state : State) (c : Certificate) : Prop :=
  state.lastCommittedRound ≤ c.round + self.gcDepth ∧ c.round < state.lastRound c.origin

instance (state : State) (c : Certificate) : Decidable (self.Late state c) :=
  inferInstanceAs (Decidable (_ ∧ _))

/-- The certificate received in this state is not late. -/
def OnTime (self : Consensus) : Except Panic State → Certificate → Prop
  | .ok state, c => ¬ self.Late state c
  | .error _, _ => True

instance (state : Except Panic State) (c : Certificate) : Decidable (self.OnTime state c) :=
  match state with
  | .ok state => inferInstanceAs (Decidable (¬ self.Late state c))
  | .error _ => inferInstanceAs (Decidable True)

/-- At or above the horizon, the DAG holds nothing below its author's last committed round. -/
def Tidy (self : Consensus) (state : State) : Prop :=
  ∀ c, Holds state.dag c → ¬ self.Late state c

/-- **The DAG of a tidy state is what was received and has not fallen behind.** -/
theorem Tidy.holds_iff (htidy : self.Tidy state) (hinv : self.Inv G s out state) {c : Certificate}
    (hc : G.Known s c) (hgc : state.lastCommittedRound ≤ c.round + self.gcDepth) :
    Holds state.dag c ↔ state.lastRound c.origin ≤ c.round := by
  constructor
  · intro hold
    exact not_lt.mp fun hlt => htidy c hold ⟨hgc, hlt⟩
  · intro hle
    exact hinv.kept c hc hle hgc

/-! ## Every turn keeps a state tidy -/

theorem Tidy.insert (htidy : self.Tidy state) (hinv : self.Inv G s out state) {c : Certificate}
    (hc : c ∈ G.certs) (hlate : ¬ self.Late state c) : self.Tidy (state.insert c) := by
  intro x hx
  rcases (holds_insert hinv.entries hc).mp hx with rfl | hx
  · exact hlate
  · exact htidy x hx

theorem tidy_commitLeader (hinv : self.Inv G s out state) (hs : G.Delivery s)
    {leader : Certificate} (hl : self.Committable G s state leader) :
    self.Tidy (self.commitLeader state leader).1 := by
  intro x hx hlate
  exact absurd hlate.2 (not_lt.mpr ((holds_commitLeader hinv hs hl).mp hx).2.1)

/-- **Every turn of the loop keeps a state tidy.** -/
theorem Turn.tidy {round : ℕ} {result : State × List Emission} (hs : G.Delivery s)
    (hinv : self.Inv G s out state) (htidy : self.Tidy state)
    (h : Turn self G s state round result) : self.Tidy result.1 := by
  cases h with
  | wait _ => exact htidy
  | skip _ _ _ => exact htidy
  | fallback _ hdue hb hsums =>
    exact tidy_commitLeader (hinv.resolve _) hs ((hb.committable hinv hdue hsums).resolve _)
  | steady _ hdue hb hsums _ hleaders =>
    exact (commitLeaders_induct hs (P := fun _ state => self.Tidy state)
      (fun _ _ _ hinv hl _ => tidy_commitLeader hinv hs hl) hinv htidy
      (hleaders.committable (hb.committable hinv hdue hsums)) hleaders.rises).2

/-- **A run without late certificates has tidy states.** -/
theorem tidy_run {s : List Certificate} (hs : G.Delivery s)
    (hfits : self.machine.Along self.Fits s) (hon : self.machine.Along self.OnTime s)
    {state : State} (hstate : self.machine.state s = .ok state) : self.Tidy state := by
  induction s using List.reverseRecOn generalizing state with
  | nil =>
    cases hstate
    intro c _ hlate
    refine absurd hlate.2 (not_lt.mpr (State.lastRound_le_iff.mpr fun r hr => ?_))
    rw [lookup_new hr]
    exact Nat.zero_le _
  | append_singleton s c ih =>
    obtain ⟨st, result, hst, hinv, hstep, hturn⟩ := turn_run hs hfits
    have hc : c ∈ G.certs := hs.mem c (List.mem_append_right _ List.mem_cons_self)
    have hpre : s <+: s ++ [c] := List.prefix_append _ _
    have htidy := ih (hs.of_prefix hpre) (hfits.of_prefix hpre) (hon.of_prefix hpre) hst
    have hlate : ¬ self.Late st c := by
      have := hon.last
      rwa [hst] at this
    rw [Mealy.state_snoc, hstep] at hstate
    cases hstate
    exact hturn.tidy hs (hinv.insert hc) (htidy.insert hinv hc hlate)

/-! ## Two runs -/

section TwoRuns

variable {t : List Certificate} {state' : State}

/-- Two states after the same certificates were sent have the same last committed rounds. -/
theorem Inv.lookup_eq (hinv : self.Inv G s out state) (hinv' : self.Inv G t out state')
    (n : PublicKey) : state.lastCommitted.lookup n = state'.lastCommitted.lookup n :=
  (hinv.history n).trans (hinv'.history n).symm

theorem Inv.lastCommittedRound_eq (hinv : self.Inv G s out state)
    (hinv' : self.Inv G t out state') : state.lastCommittedRound = state'.lastCommittedRound :=
  hinv.max.unique hinv'.max (hinv.lookup_eq hinv')

/-- **Two tidy states after the same output flatten a leader alike.** -/
theorem orderDag_eq (hs : G.Delivery s) (ht : G.Delivery t) (hinv : self.Inv G s out state)
    (hinv' : self.Inv G t out state') (htidy : self.Tidy state) (htidy' : self.Tidy state')
    {leader : Certificate} (hl : G.Known s leader) (hl' : G.Known t leader)
    (hfits : leader.round + self.gcDepth < 2 ^ 64) :
    self.orderDag leader state = self.orderDag leader state' := by
  refine orderDag_congr hinv.entries hinv'.entries (hinv.lastCommittedRound_eq hinv')
    (hinv.lookup_eq hinv') (hl.mem hs) hfits fun x hx p hxp hgc => ?_
  have hp := (SubDag.reaches hinv.entries hx).tail hxp
  rw [htidy.holds_iff hinv (hl.reaches hs hp) hgc, htidy'.holds_iff hinv' (hl'.reaches ht hp)
    (hinv.lastCommittedRound_eq hinv' ▸ hgc), State.lastRound, State.lastRound,
    hinv.lookup_eq hinv']

end TwoRuns

end Consensus

end Bullshark
