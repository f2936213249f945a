import Bullshark.Consensus.Steps

/-!
# Consensus/Quiet — no decision is left pending

The loop body looks at one round, that of the certificate it received.  That is enough: after every
turn, no round has a decision pending (`quiet_run`).  A leader cannot gain support by arriving
after its supporters, since those wait for their parents; what the clean-up drops lies below every
round still to be decided.
-/

namespace Bullshark

namespace Consensus

variable [Crypto]

variable {self : Consensus} {G : Universe self.committee}

open Universe

variable {s out : List Certificate} {state state' : State}

/-- No leader round is due at any round, or, in steady mode, those that are lack support. -/
def Quiet (self : Consensus) (G : Universe self.committee) (state : State) : Prop :=
  ∀ r lr, self.Due state r lr →
    self.dynamic = false ∧ ∀ leader, ¬ self.Backed G state r lr leader

omit [Crypto] in
/-- A round that is due stays so in a state with less committed and less resolved. -/
theorem Due.mono {r lr : ℕ} (h : self.Due state r lr)
    (hround : state'.lastCommittedRound ≤ state.lastCommittedRound)
    (hresolved : state'.resolvedFallbackRounds ⊆ state.resolvedFallbackRounds)
    (hstake : self.dynamic = true → self.roundStake state' r = self.roundStake state r) :
    self.Due state' r lr where
  leaderRound := h.leaderRound
  above := hround.trans_lt h.above
  fresh := fun hdyn hmem => h.fresh hdyn (hresolved hmem)
  quorum := fun hdyn => (hstake hdyn).symm ▸ h.quorum hdyn

/-- A leader stays backed in a state that holds it and the same certificates of the support
round. -/
theorem Backed.congr (hE : G.Entries state.dag) (hE' : G.Entries state'.dag) {r lr : ℕ}
    {leader : Certificate} (h : self.Backed G state r lr leader) (hhold : Holds state'.dag leader)
    (hround : ∀ c, c.round = r → (Holds state.dag c ↔ Holds state'.dag c)) :
    self.Backed G state' r lr leader :=
  ⟨h.elected, h.atRound, hhold, authorsOf_congr hE hE' hround ▸ h.stake⟩

/-- **A certificate does not make another round pending.** -/
theorem Quiet.insert_of_ne (hquiet : self.Quiet G state)
    (hpos : self.dynamic = false → 0 < self.committee.validityThreshold)
    (hinv : self.Inv G s out state) {c : Certificate} (hs : G.Delivery (s ++ [c])) {r lr : ℕ}
    (hr : r ≠ c.round) (hdue : self.Due (state.insert c) r lr) :
    self.dynamic = false ∧ ∀ leader, ¬ self.Backed G (state.insert c) r lr leader := by
  have hc : c ∈ G.certs := hs.mem c (List.mem_append_right _ List.mem_cons_self)
  have hinv' := hinv.insert hc
  obtain ⟨hsteady, hnot⟩ := hquiet r lr (hdue.mono le_rfl (fun _ h => h)
    fun _ => (roundStake_insert hinv.entries hc hr).symm)
  have hround : ∀ x, x.round = r → (Holds (state.insert c).dag x ↔ Holds state.dag x) := by
    intro x hx
    rw [holds_insert hinv.entries hc]
    exact or_iff_right fun hxc => hr (hx ▸ hxc ▸ rfl)
  refine ⟨hsteady, fun leader hb => hnot leader (hb.congr hinv'.entries hinv.entries ?_ hround)⟩
  rcases (holds_insert hinv.entries hc).mp hb.holds with rfl | hold
  · -- the leader has just arrived: a supporter would have come after it
    have hstake := hb.stake
    rw [requiredSupport, if_neg (by simp [hsteady])] at hstake
    have hne : authorsOf (state.insert leader).dag r (self.StandsBehind G leader) ≠ ∅ := by
      intro hempty
      rw [hempty, Finset.sum_empty] at hstake
      exact absurd (hpos hsteady) (UInt32.not_lt.mpr hstake)
    obtain ⟨n, hn⟩ := Finset.nonempty_iff_ne_empty.mpr hne
    obtain ⟨x, hx, hxr, hxl, -⟩ := (mem_authorsOf hinv'.entries).mp hn
    rw [StandsBehind, if_neg (by simp [hsteady])] at hxl
    have hxknown := hinv.known x ((hround x hxr).mp hx)
    exact hinv.holds_of_lt (hxknown.parent (hs.of_prefix (List.prefix_append _ _)) hxl)
      (hb.atRound.symm ▸ hdue.above)
  · exact hold

/-- The commit loop leaves the rounds above the last committed one as they are. -/
theorem holds_commitLeaders (hs : G.Delivery s) (hinv : self.Inv G s out state)
    {leaders : List Certificate}
    (hcommit : ∀ x ∈ leaders, self.Committable G s state x)
    (hrise : leaders.Pairwise fun x y => x.round < y.round) {x : Certificate}
    (hx : (self.commitLeaders state leaders).1.lastCommittedRound < x.round) :
    Holds (self.commitLeaders state leaders).1.dag x ↔ Holds state.dag x := by
  refine (commitLeaders_induct hs
    (P := fun _ st => ∀ x, st.lastCommittedRound < x.round → (Holds st.dag x ↔ Holds state.dag x))
    (fun out st leader hinv hl ih x hx => ?_) hinv (fun _ _ => Iff.rfl) hcommit hrise).2 x hx
  have hinv' := hinv.commitLeader hs hl
  have hlt := hl.above
  rw [lastCommittedRound_commitLeader hinv hs hl] at hx
  rw [holds_commitLeader hinv hs hl, ← ih x (by omega)]
  refine and_iff_left ⟨State.lastRound_le_iff.mpr fun r' hr' => ?_, by omega⟩
  have := hinv'.max.1 _ _ hr'
  rw [lastCommittedRound_commitLeader hinv hs hl] at this
  omega

/-- **Every turn of the loop leaves no decision pending.** -/
theorem Turn.quiet (hpos : self.dynamic = false → 0 < self.committee.validityThreshold)
    (hinv : self.Inv G s out state) {c : Certificate} (hs : G.Delivery (s ++ [c]))
    (hquiet : self.Quiet G state) {result : State × List Emission}
    (hturn : Turn self G (s ++ [c]) (state.insert c) c.round result) :
    self.Quiet G result.1 := by
  have hc : c ∈ G.certs := hs.mem c (List.mem_append_right _ List.mem_cons_self)
  have hinv' := hinv.insert hc
  have hother : ∀ {r lr}, r ≠ c.round → self.Due (state.insert c) r lr →
      self.dynamic = false ∧ ∀ leader, ¬ self.Backed G (state.insert c) r lr leader :=
    fun hr hdue => hquiet.insert_of_ne hpos hinv hs hr hdue
  cases hturn with
  | wait hwait =>
    intro r lr hdue
    by_cases hr : r = c.round
    · subst hr
      exact hwait lr hdue
    · exact hother hr hdue
  | @skip lr₀ hdyn hdue₀ _ =>
    intro r lr hdue
    have hdue' : self.Due (state.insert c) r lr :=
      hdue.mono le_rfl (Finset.subset_insert _ _) fun _ => rfl
    by_cases hr : r = c.round
    · subst hr
      obtain rfl := hdue₀.unique hdue'
      exact absurd (Finset.mem_insert_self _ _) (hdue.fresh hdyn)
    · have := (hother hr hdue').1
      rw [hdyn] at this
      cases this
  | @fallback lr₀ leader hdyn hdue₀ hb hsums =>
    intro r lr hdue
    replace hdue : self.Due (self.commitLeader (resolve (state.insert c) lr₀) leader).1 r lr := hdue
    have hl := (hb.committable hinv' hdue₀ hsums).resolve lr₀
    have hlt := hl.above
    have hlcr := lastCommittedRound_commitLeader (hinv'.resolve lr₀) hs hl
    have hlr := hdue.above
    rw [hlcr] at hlr
    have hdue' : self.Due (resolve (state.insert c) lr₀) r lr := by
      refine hdue.mono (by omega) ?_ fun _ => ?_
      · rw [commitLeader_fst, State.resolved_updateAll]
      · refine (roundStake_commitLeader (hinv'.resolve lr₀) hs hl ?_).symm
        exact hlr.trans (leaderRound_lt hdue.leaderRound)
    have hdue'' : self.Due (state.insert c) r lr :=
      hdue'.mono le_rfl (Finset.subset_insert _ _) fun _ => rfl
    by_cases hr : r = c.round
    · subst hr
      obtain rfl := hdue₀.unique hdue''
      exact absurd (Finset.mem_insert_self _ _) (hdue'.fresh hdyn)
    · have := (hother hr hdue'').1
      rw [hdyn] at this
      cases this
  | @steady lr₀ leader leaders hsteady hdue₀ hb hsums _ hleaders =>
    intro r lr hdue
    have hl := hb.committable hinv' hdue₀ hsums
    have hlcr := lastCommittedRound_commitLeaders hs hinv' hleaders hl
    have hlr := hdue.above
    rw [hlcr, hb.atRound] at hlr
    have hdue' : self.Due (state.insert c) r lr := by
      refine ⟨hdue.leaderRound, hdue₀.above.trans hlr, fun hdyn => ?_, fun hdyn => ?_⟩
      · rw [hsteady] at hdyn; cases hdyn
      · rw [hsteady] at hdyn; cases hdyn
    by_cases hr : r = c.round
    · subst hr
      obtain rfl := hdue₀.unique hdue'
      omega
    · refine ⟨hsteady, fun leader' hb' => (hother hr hdue').2 leader' ?_⟩
      have hinv'' := Turn.inv hs hinv' (.steady hsteady hdue₀ hb hsums ‹_› hleaders)
      have hholds : ∀ x, lr₀ < x.round → (Holds
          (self.commitLeaders (state.insert c) leaders.reverse).1.dag x ↔
            Holds (state.insert c).dag x) := fun x hx =>
        holds_commitLeaders hs hinv' (hleaders.committable hl) hleaders.rises
          (by rw [hlcr, hb.atRound]; exact hx)
      refine hb'.congr hinv''.entries hinv'.entries
        ((hholds leader' (by rw [hb'.atRound]; exact hlr)).mp hb'.holds) fun x hx => hholds x ?_
      rw [hx]
      exact hlr.trans (leaderRound_lt hdue.leaderRound)

/-- **No run leaves a decision pending**, where no sum overflows. -/
theorem quiet_run (hpos : self.dynamic = false → 0 < self.committee.validityThreshold)
    {s : List Certificate} (hs : G.Delivery s) (hfits : self.machine.Along self.Fits s)
    {state : State} (hstate : self.machine.state s = .ok state) : self.Quiet G state := by
  induction s using List.reverseRecOn generalizing state with
  | nil =>
    cases hstate
    have hinv : self.Inv G [] [] (State.new (Certificate.genesis self.committee)) := inv_new
    have hempty : ∀ {r : ℕ}, 0 < r → ∀ x, Holds
        (State.new (Certificate.genesis self.committee)).dag x → x.round ≠ r := by
      intro r hr x hx
      have := (get_new.mp hx).1
      omega
    intro r lr hdue
    have hlr := leaderRound_lt hdue.leaderRound
    cases hdyn : self.dynamic with
    | true =>
      have hquorum := hdue.quorum hdyn
      have hnone : authorsOf (State.new (Certificate.genesis self.committee)).dag r
          (fun _ => True) = ∅ := by
        refine Finset.eq_empty_of_forall_notMem fun n hn => ?_
        obtain ⟨x, hx, hxr, -, -⟩ := (mem_authorsOf hinv.entries).mp hn
        exact hempty (by omega) x hx hxr
      rw [roundStake_eq hinv.entries, hnone, Finset.sum_empty, UInt32.le_iff_toNat_le] at hquorum
      exact absurd Committee.quorumThreshold_pos (by simpa using hquorum)
    | false =>
      exact ⟨rfl, fun leader hb => hempty (hdue.above) leader hb.holds hb.atRound⟩
  | append_singleton s c ih =>
    obtain ⟨st, result, hst, hinv, hstep, hturn⟩ := turn_run hs hfits
    have hpre : s <+: s ++ [c] := List.prefix_append _ _
    have hquiet := ih (hs.of_prefix hpre) (hfits.of_prefix hpre) hst
    rw [Mealy.state_snoc, hstep] at hstate
    cases hstate
    exact hturn.quiet hpos hinv hs hquiet

end Consensus

end Bullshark
