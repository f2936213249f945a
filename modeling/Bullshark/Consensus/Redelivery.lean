import Bullshark.Consensus.Commits
import Bullshark.Consensus.OnTime
import Bullshark.Consensus.Quiet
import Bullshark.Primary.Sample

/-!
# Consensus/Redelivery — certificates that arrive again

The primary forwards a certificate each time it processes it.  A copy that arrives while the DAG
still holds the certificate, or after it fell below the horizon, changes nothing that is ever looked
at (`Similar`), and no decision was left pending for it to trigger.  A copy that arrives in between
puts a certificate back that was sent already, and a later leader sends it again.

`redelivery_harmless` holds of the runs in which no copy is late and no sum of a round and
`gc_depth` overflows.
-/

namespace Bullshark

namespace Consensus

section

variable [Crypto]

variable {self : Consensus} {G : Universe self.committee}

open Universe

variable {s t out : List Certificate} {state state' : State}

/-! ## States alike above the horizon -/

/-- Two states that differ at most in what their DAGs hold below the horizon. -/
structure Similar (task : Consensus) (state state' : State) : Prop where
  lookup : ∀ n, state.lastCommitted.lookup n = state'.lastCommitted.lookup n
  round : state.lastCommittedRound = state'.lastCommittedRound
  resolved : state.resolvedFallbackRounds = state'.resolvedFallbackRounds
  holds : ∀ p, state.lastCommittedRound ≤ p.round + task.gcDepth →
    (Holds state.dag p ↔ Holds state'.dag p)

theorem Similar.symm (h : self.Similar state state') : self.Similar state' state :=
  ⟨fun n => (h.lookup n).symm, h.round.symm, h.resolved.symm,
    fun p hp => (h.holds p (h.round ▸ hp)).symm⟩

/-- Similar states have the same entries above the last committed round. -/
theorem Similar.get_eq (h : self.Similar state state') (hE : G.Entries state.dag)
    (hE' : G.Entries state'.dag) {r : ℕ} (hr : state.lastCommittedRound < r) (n : PublicKey) :
    state.dag.get r n = state'.dag.get r n := by
  have key : ∀ {st st' : State}, self.Similar st st' → G.Entries st.dag →
      st.lastCommittedRound < r → ∀ e, st.dag.get r n = some e → st'.dag.get r n = some e := by
    intro st st' hsim hst hlt e he
    obtain ⟨h1, h2, h3, -⟩ := hst _ _ _ he
    have hold := (hsim.holds e.2 (by omega)).mp (hst.holds he)
    rw [Holds, h2, h3, ← h1] at hold
    exact hold
  exact Option.ext fun e => ⟨key h hE hr e, key h.symm hE' (h.round ▸ hr) e⟩

theorem Similar.due (h : self.Similar state state') (hE : G.Entries state.dag)
    (hE' : G.Entries state'.dag) {r lr : ℕ} (hdue : self.Due state r lr) :
    self.Due state' r lr := by
  refine hdue.mono h.round.ge h.resolved.ge fun _ => ?_
  have hlr := leaderRound_lt hdue.leaderRound
  have := hdue.above
  exact roundStake_congr hE' hE fun x hx => (h.holds x (by omega)).symm

theorem Similar.backed (h : self.Similar state state') (hE : G.Entries state.dag)
    (hE' : G.Entries state'.dag) {r lr : ℕ} {leader : Certificate} (hdue : self.Due state r lr)
    (hb : self.Backed G state r lr leader) : self.Backed G state' r lr leader := by
  have hlr := leaderRound_lt hdue.leaderRound
  have habove := hdue.above
  have hround := hb.atRound
  exact hb.congr hE hE' ((h.holds leader (by omega)).mp hb.holds) fun x hx =>
    h.holds x (by omega)

/-- **Similar states get the same verdict.** -/
theorem Similar.verdict_eq (h : self.Similar state state') (hs : G.Delivery s)
    (ht : G.Delivery t) (hinv : self.Inv G s out state) (hinv' : self.Inv G t out state')
    {c : Certificate} (hc : Holds state.dag c) (hc' : Holds state'.dag c) :
    self.verdict state c.round = self.verdict state' c.round := by
  have hE := hinv.entries
  have hE' := hinv'.entries
  rcases verdict_spec hinv hs hc with ⟨hdue, hv⟩ | ⟨lr, hdue, ⟨leader, hb, hv⟩ | ⟨hb, hv⟩⟩
  · rcases verdict_spec hinv' ht hc' with ⟨-, hv'⟩ | ⟨lr, hdue', -⟩
    · rw [hv, hv']
    · exact absurd (h.symm.due hE' hE hdue') (hdue lr)
  · rw [hv, verdict_eq_commit hinv' ht hc' (h.due hE hE' hdue) (h.backed hE hE' hdue hb)]
  · have hdue' := h.due hE hE' hdue
    have hb' : ∀ leader, ¬ self.Backed G state' c.round lr leader := fun leader hb' =>
      hb leader (h.symm.backed hE' hE hdue' hb')
    rcases verdict_spec hinv' ht hc' with ⟨hnone, -⟩ | ⟨lr', hdue'', ⟨leader, hb'', -⟩ | ⟨-, hv'⟩⟩
    · exact absurd hdue' (hnone lr)
    · obtain rfl := hdue'.unique hdue''
      exact absurd hb'' (hb' leader)
    · obtain rfl := hdue'.unique hdue''
      rw [hv, hv']

/-! ## The walk back and the commit loop on similar states -/

theorem Similar.foldlM_orderLeadersStep (h : self.Similar state state') (hs : G.Delivery s)
    (ht : G.Delivery t) (hinv : self.Inv G s out state) (hinv' : self.Inv G t out state')
    (hknown : ∀ x, G.Known s x → G.Known t x) :
    ∀ (rs : List ℕ) {acc : List Certificate × Certificate},
      Selected G s state.lastCommittedRound acc → rs.Pairwise (· > ·) →
      (∀ r ∈ rs, state.lastCommittedRound < r ∧ r < acc.2.round) →
      rs.foldlM (self.orderLeadersStep state.dag) acc
        = rs.foldlM (self.orderLeadersStep state'.dag) acc
  | [], _, _, _, _ => rfl
  | r :: rs, acc, hacc, hdesc, hbound => by
      obtain ⟨hlow, hr⟩ := hbound r List.mem_cons_self
      have hlatest := (hacc.known _ hacc.latest).1
      have hstep : self.orderLeadersStep state.dag acc r
          = self.orderLeadersStep state'.dag acc r := by
        obtain ⟨key, -, hleader⟩ := leader_eq (size_pos (hlatest.mem hs)) r
        have hget := h.get_eq hinv.entries hinv'.entries hlow key
        simp only [orderLeadersStep, hleader, bind, Except.bind, ← hget]
        cases he : state.dag.get r key with
        | none => rfl
        | some e =>
          obtain ⟨-, her, -, heG⟩ := hinv.entries _ _ _ he
          have hlinked := linked_eq hinv.entries (hlatest.mem hs) heG (by omega)
            (hinv.complete hs hlatest (by omega))
          have hlinked' := linked_eq hinv'.entries (hlatest.mem hs) heG (by omega)
            (hinv'.complete ht (hknown _ hlatest) (by have := h.round; omega))
          simp only [hlinked, hlinked']
      obtain ⟨acc₁, h₁, hacc₁, hle, -⟩ := orderLeadersStep_spec hinv hs hacc hlow hr
      obtain ⟨hhead, htail⟩ := List.pairwise_cons.mp hdesc
      rw [List.foldlM_cons, List.foldlM_cons, ← hstep, h₁]
      exact h.foldlM_orderLeadersStep hs ht hinv hinv' hknown rs hacc₁ htail fun r' hr' =>
        ⟨(hbound r' (List.mem_cons_of_mem _ hr')).1, (show r' < r from hhead r' hr').trans_le hle⟩

theorem Similar.orderLeaders_eq (h : self.Similar state state') (hs : G.Delivery s)
    (ht : G.Delivery t) (hinv : self.Inv G s out state) (hinv' : self.Inv G t out state')
    (hknown : ∀ x, G.Known s x → G.Known t x) {leader : Certificate} (hl : G.Known s leader)
    (hlt : state.lastCommittedRound < leader.round) :
    self.orderLeaders leader state = self.orderLeaders leader state' := by
  rw [orderLeaders, orderLeaders, ← h.round, h.foldlM_orderLeadersStep hs ht hinv hinv' hknown _
    (selected_leader hl hlt) (walkRounds_pairwise _ _) fun r hr => by
      have := mem_walkRounds hr
      exact ⟨by omega, this.2⟩]

/-- **Committing a leader on similar states** sends the same and leaves similar states. -/
theorem Similar.commitLeader (h : self.Similar state state') (hs : G.Delivery s)
    (ht : G.Delivery t) (hinv : self.Inv G s out state) (hinv' : self.Inv G t out state')
    {leader : Certificate} (hl : self.Committable G s state leader)
    (hl' : self.Committable G t state' leader) :
    (self.commitLeader state leader).2 = (self.commitLeader state' leader).2 ∧
      self.Similar (self.commitLeader state leader).1 (self.commitLeader state' leader).1 := by
  have horder : self.orderDag leader state = self.orderDag leader state' :=
    orderDag_congr hinv.entries hinv'.entries h.round h.lookup (hl.known.mem hs) hl.fits
      fun _ _ p _ hgc => h.holds p hgc
  have hlt := hl.above
  have hround := lastCommittedRound_commitLeader hinv hs hl
  have hlookup : ∀ n, (self.commitLeader state leader).1.lastCommitted.lookup n
      = (self.commitLeader state' leader).1.lastCommitted.lookup n := by
    intro n
    rw [commitLeader_fst, commitLeader_fst, ← horder]
    exact State.lookup_updateAll_congr _ h.lookup _ n
  refine ⟨?_, hlookup, ?_, ?_, fun p hp => ?_⟩
  · rw [Consensus.commitLeader, Consensus.commitLeader, horder, h.round]
  · rw [hround, lastCommittedRound_commitLeader hinv' ht hl']
  · rw [commitLeader_fst, commitLeader_fst, State.resolved_updateAll, State.resolved_updateAll,
      h.resolved]
  · rw [hround] at hp
    rw [holds_commitLeader hinv hs hl, holds_commitLeader hinv' ht hl', State.lastRound,
      State.lastRound, hlookup, h.holds p (by omega)]

theorem Similar.commitLeaders (hs : G.Delivery s) (ht : G.Delivery t) :
    ∀ {leaders : List Certificate} {state state' : State} {out : List Certificate},
      self.Similar state state' → self.Inv G s out state → self.Inv G t out state' →
      (∀ x ∈ leaders, self.Committable G s state x ∧ self.Committable G t state' x) →
      (leaders.Pairwise fun x y => x.round < y.round) →
      (self.commitLeaders state leaders).2 = (self.commitLeaders state' leaders).2 ∧
        self.Similar (self.commitLeaders state leaders).1 (self.commitLeaders state' leaders).1
  | [], _, _, _, h, _, _, _, _ => ⟨rfl, h⟩
  | leader :: leaders, state, state', out, h, hinv, hinv', hcommit, hrise => by
      obtain ⟨hl, hl'⟩ := hcommit leader List.mem_cons_self
      obtain ⟨hhead, htail⟩ := List.pairwise_cons.mp hrise
      obtain ⟨hemit, hsim⟩ := h.commitLeader hs ht hinv hinv' hl hl'
      have hout : self.orderDag leader state = self.orderDag leader state' := by
        have := congrArg Emission.certificates hemit
        exact this
      have key := Similar.commitLeaders hs ht hsim (hinv.commitLeader hs hl)
        (hout ▸ hinv'.commitLeader ht hl') (fun x hx => by
          obtain ⟨hx₁, hx₂⟩ := hcommit x (List.mem_cons_of_mem _ hx)
          exact ⟨hl.commitLeader hinv hs hx₁ (hhead x hx),
            hl'.commitLeader hinv' ht hx₂ (hhead x hx)⟩) htail
      exact ⟨congrArg₂ List.cons hemit key.1, key.2⟩

/-! ## A turn of the loop on similar states -/

theorem Similar.insert (h : self.Similar state state') (hinv : self.Inv G s out state)
    (hinv' : self.Inv G t out state') {c : Certificate} (hc : c ∈ G.certs) :
    self.Similar (state.insert c) (state'.insert c) :=
  ⟨h.lookup, h.round, h.resolved, fun p hp => by
    rw [holds_insert hinv.entries hc, holds_insert hinv'.entries hc]
    exact or_congr_right (h.holds p hp)⟩

theorem Similar.resolve (h : self.Similar state state') (lr : ℕ) :
    self.Similar (resolve state lr) (resolve state' lr) :=
  ⟨h.lookup, h.round, congrArg (Insert.insert lr) h.resolved, h.holds⟩

/-- **The same certificate on similar states**: the same is emitted, and the states stay similar. -/
theorem Similar.process (h : self.Similar state state') {c : Certificate}
    (hs : G.Delivery (s ++ [c])) (ht : G.Delivery (t ++ [c])) (hinv : self.Inv G s out state)
    (hinv' : self.Inv G t out state') (hknown : ∀ x, G.Known (s ++ [c]) x → G.Known (t ++ [c]) x)
    (hfits : self.Fits (.ok state) c) (hfits' : self.Fits (.ok state') c) :
    ∃ st st' emissions, self.process state c = .ok (st, emissions) ∧
      self.process state' c = .ok (st', emissions) ∧ self.Similar st st' := by
  have hc : c ∈ G.certs := hs.mem c (List.mem_append_right _ List.mem_cons_self)
  have hi := hinv.insert hc
  have hi' := hinv'.insert hc
  have hhold : Holds (state.insert c).dag c := (holds_insert hinv.entries hc).mpr (Or.inl rfl)
  have hhold' : Holds (state'.insert c).dag c := (holds_insert hinv'.entries hc).mpr (Or.inl rfl)
  have hsim := h.insert hinv hinv' hc
  have hverdict := hsim.verdict_eq hs ht hi hi' hhold hhold'
  simp only [Consensus.process, bind, Except.bind, ← hverdict]
  rcases verdict_spec hi hs hhold with ⟨-, hv⟩ | ⟨lr, hdue, ⟨leader, hb, hv⟩ | ⟨-, hv⟩⟩
  · exact ⟨_, _, _, by rw [hv]; rfl, by rw [hv]; rfl, hsim⟩
  · have hl := hb.committable hi hdue (hfits.sumsFit hv)
    have hl' : self.Committable G (t ++ [c]) (state'.insert c) leader :=
      ⟨hknown _ hl.known, hsim.round ▸ hl.above, hl.fits, hfits'.sumsFit (hverdict ▸ hv)⟩
    rw [hv]
    cases hdyn : self.dynamic with
    | true =>
      obtain ⟨hemit, hsim'⟩ := Similar.commitLeaders hs ht (hsim.resolve lr) (hi.resolve lr)
        (hi'.resolve lr) (fun x (hx : x ∈ [leader]) => by
          rw [List.mem_singleton.mp hx]
          exact ⟨hl.resolve lr, hl'.resolve lr⟩) (List.pairwise_singleton _ _)
      exact ⟨_, _, _, rfl, congrArg (fun l => Except.ok (_, _ :: l)) hemit.symm, hsim'⟩
    | false =>
      obtain ⟨leaders, hok, hleaders⟩ := orderLeaders_spec hi hs hl.known hl.above
      have hok' := hsim.orderLeaders_eq hs ht hi hi' hknown hl.known hl.above
      obtain ⟨hemit, hsim'⟩ := Similar.commitLeaders hs ht hsim hi hi' (fun x hx => by
        have hx := hleaders.committable hl x hx
        exact ⟨hx, hknown x hx.known, hsim.round ▸ hx.above, hx.fits, hl'.sums⟩) hleaders.rises
      simp only [← hok', hok]
      exact ⟨_, _, _, rfl, congrArg (fun l => Except.ok (_, l)) hemit.symm, hsim'⟩
  · rw [hv]
    cases hdyn : self.dynamic with
    | true => exact ⟨_, _, _, rfl, rfl, hsim.resolve lr⟩
    | false => exact ⟨_, _, _, rfl, rfl, hsim⟩

/-- **A copy on time changes nothing**: the state stays similar, and nothing is emitted. -/
theorem Similar.again (h : self.Similar state state') {c : Certificate}
    (ht : G.Delivery (t ++ [c])) (hinv' : self.Inv G t out state') (hquiet : self.Quiet G state')
    (hc : G.Known t c) (hon : ¬ self.Late state' c) :
    ∃ st', self.process state' c = .ok (st', []) ∧ self.Similar state st' := by
  have hcG : c ∈ G.certs := ht.mem c (List.mem_append_right _ List.mem_cons_self)
  have hi' := hinv'.insert hcG
  have hhold' : Holds (state'.insert c).dag c := (holds_insert hinv'.entries hcG).mpr (Or.inl rfl)
  have hsame : ∀ p, state'.lastCommittedRound ≤ p.round + self.gcDepth →
      (Holds (state'.insert c).dag p ↔ Holds state'.dag p) := by
    intro p hp
    rw [holds_insert hinv'.entries hcG]
    refine or_iff_right_of_imp fun hpc => ?_
    subst hpc
    exact hinv'.kept p hc (not_lt.mp fun hlt => hon ⟨hp, hlt⟩) hp
  have hsim : self.Similar state' (state'.insert c) :=
    ⟨fun _ => rfl, rfl, rfl, fun p hp => (hsame p hp).symm⟩
  refine ⟨state'.insert c, ?_, ?_⟩
  · have hwait : self.verdict (state'.insert c) c.round = .ok .wait := by
      rcases verdict_spec hi' ht hhold' with ⟨-, hv⟩ | ⟨lr, hdue, hcase⟩
      · exact hv
      · have hdue' := hsim.symm.due hi'.entries hinv'.entries hdue
        obtain ⟨hsteady, hnot⟩ := hquiet c.round lr hdue'
        rcases hcase with ⟨leader, hb, -⟩ | ⟨-, hv⟩
        · exact absurd (hsim.symm.backed hi'.entries hinv'.entries hdue hb) (hnot leader)
        · rw [hv, if_neg (by simp [hsteady])]
    simp only [Consensus.process, bind, Except.bind, hwait]
    rfl
  · exact ⟨h.lookup, h.round, h.resolved,
      fun p hp => (h.holds p hp).trans (hsame p (h.round ▸ hp)).symm⟩

/-! ## Sequences with copies -/

/-- `t` is `s` with further copies of certificates inserted after their delivery. -/
inductive Redelivers : List Certificate → List Certificate → Prop
  | nil : Redelivers [] []
  | deliver {s t : List Certificate} (c : Certificate) : Redelivers s t →
      Redelivers (s ++ [c]) (t ++ [c])
  | again {s t : List Certificate} {c : Certificate} : Redelivers s t → c ∈ s →
      Redelivers s (t ++ [c])

omit [Crypto] in
theorem Redelivers.mem_iff (h : Redelivers s t) : ∀ {c : Certificate}, c ∈ s ↔ c ∈ t := by
  induction h with
  | nil => exact Iff.rfl
  | deliver d _ ih => simp [ih]
  | again _ hd ih =>
    intro c
    rw [ih, List.mem_append, List.mem_singleton]
    exact ⟨Or.inl, fun h => h.elim id fun heq => heq ▸ ih.mp hd⟩

theorem Redelivers.known_iff (h : Redelivers s t) {c : Certificate} :
    G.Known s c ↔ G.Known t c := or_congr_left h.mem_iff

/-- Appending a certificate whose parents are known. -/
theorem delivery_snoc (hs : G.Delivery s) {c : Certificate} (hc : c ∈ G.certs)
    (hp : ∀ p, G.Parent c p → p ∈ s ∨ p.round = 0) : G.Delivery (s ++ [c]) := by
  refine ⟨fun x hx => ?_, fun pre x hpre => ?_⟩
  · rcases List.mem_append.mp hx with hx | hx
    · exact hs.mem x hx
    · exact List.mem_singleton.mp hx ▸ hc
  · rcases List.prefix_concat_iff.mp hpre with heq | hpre
    · obtain ⟨rfl, hx⟩ := List.append_inj' heq rfl
      obtain rfl := List.singleton_inj.mp hx
      exact hp
    · exact hs.parentsFirst pre x hpre

theorem Redelivers.delivery (h : Redelivers s t) (hs : G.Delivery s) : G.Delivery t := by
  induction h with
  | nil => exact hs
  | @deliver s t c h ih =>
    refine delivery_snoc (ih (hs.of_prefix (List.prefix_append _ _)))
      (hs.mem c (List.mem_append_right _ List.mem_cons_self)) fun p hp => ?_
    exact (hs.parentsFirst s c List.prefix_rfl p hp).imp_left h.mem_iff.mp
  | @again s t c h hc ih =>
    refine delivery_snoc (ih hs) (hs.mem c hc) fun p hp => ?_
    exact ((Known.parent hs (Or.inl hc) hp).imp_left h.mem_iff.mp).imp_right And.right

/-- Every certificate received again is on time. -/
def CopiesOnTime (self : Consensus) (t : List Certificate) : Prop :=
  ∀ pre c, pre ++ [c] <+: t → c ∈ pre → self.OnTime (self.machine.state pre) c

instance (t : List Certificate) : Decidable (self.CopiesOnTime t) :=
  decidable_of_iff' _ Mealy.forall_prefix_iff

/-- **Copies on time are harmless**: the run with copies emits what the run without them emits. -/
theorem Redelivers.outputs_eq
    (hpos : self.dynamic = false → 0 < self.committee.validityThreshold) (h : Redelivers s t)
    (hs : G.Delivery s) (hfits : self.machine.Along self.Fits s)
    (hfits' : self.machine.Along self.Fits t) (hon : self.CopiesOnTime t) :
    self.machine.outputs t = self.machine.outputs s ∧ ∃ state state',
      self.machine.state s = .ok state ∧ self.machine.state t = .ok state' ∧
        self.Similar state state' := by
  induction h with
  | nil => exact ⟨rfl, _, _, rfl, rfl, fun _ => rfl, rfl, rfl, fun _ _ => Iff.rfl⟩
  | @deliver s t c h ih =>
    have hpre : s <+: s ++ [c] := List.prefix_append _ _
    have hpre' : t <+: t ++ [c] := List.prefix_append _ _
    obtain ⟨hout, st, st', hst, hst', hsim⟩ := ih (hs.of_prefix hpre) (hfits.of_prefix hpre)
      (hfits'.of_prefix hpre') fun pre d hd => hon pre d (hd.trans hpre')
    obtain ⟨_, hst₁, hinv⟩ := inv_run (hs.of_prefix hpre) (hfits.of_prefix hpre)
    obtain rfl := Except.ok.inj (hst.symm.trans hst₁)
    obtain ⟨_, hst₁', hinv'⟩ := inv_run (h.delivery (hs.of_prefix hpre)) (hfits'.of_prefix hpre')
    obtain rfl := Except.ok.inj (hst'.symm.trans hst₁')
    have hsame : self.output t = self.output s := congrArg txOutput hout
    rw [hsame] at hinv'
    obtain ⟨r, r', emissions, hr, hr', hsim'⟩ := hsim.process hs ((h.deliver c).delivery hs) hinv
      hinv' (fun x hx => (h.deliver c).known_iff.mp hx) (hst ▸ hfits.last) (hst' ▸ hfits'.last)
    rw [Mealy.outputs_snoc, Mealy.outputs_snoc, Mealy.state_snoc, Mealy.state_snoc, hst, hst',
      step_of_process hr, step_of_process hr', hout]
    exact ⟨rfl, r, r', rfl, rfl, hsim'⟩
  | @again s t c h hc ih =>
    have hpre' : t <+: t ++ [c] := List.prefix_append _ _
    obtain ⟨hout, st, st', hst, hst', hsim⟩ := ih hs hfits (hfits'.of_prefix hpre')
      fun pre d hd => hon pre d (hd.trans hpre')
    have ht := h.delivery hs
    obtain ⟨_, hst₁', hinv'⟩ := inv_run ht (hfits'.of_prefix hpre')
    obtain rfl := Except.ok.inj (hst'.symm.trans hst₁')
    have hlate : ¬ self.Late st' c := by
      have := hon t c List.prefix_rfl (h.mem_iff.mp hc)
      rwa [hst'] at this
    obtain ⟨r', hr', hsim'⟩ := hsim.again ((h.again hc).delivery hs) hinv'
      (quiet_run hpos ht (hfits'.of_prefix hpre') hst') (Or.inl (h.mem_iff.mp hc)) hlate
    rw [Mealy.outputs_snoc, Mealy.state_snoc, hst', step_of_process hr', List.append_nil, hout]
    exact ⟨rfl, st, r', hst, rfl, hsim'⟩

/-! ## Nothing is sent twice

A clean-up may drop rounds that it should keep, but whatever it leaves is at or above its author's
last committed round: that nothing is sent twice does not depend on any sum. -/

/-- Nothing was sent twice, and what was sent and is still in the DAG is not late. -/
structure SentOnce (task : Consensus) (G : Universe task.committee) (s out : List Certificate)
    (state : State) : Prop where
  entries : G.Entries state.dag
  known : ∀ c, Holds state.dag c → G.Known s c
  max : state.RoundIsMax
  sent : ∀ x ∈ out, G.Known s x ∧ ∃ r, state.lastCommitted.lookup x.origin = some r ∧ x.round ≤ r
  nodup : out.Nodup
  onTime : ∀ y ∈ out, Holds state.dag y → ¬ task.Late state y

/-- A certificate arrives that is not a late copy of one that was sent. -/
theorem SentOnce.insert (h : self.SentOnce G s out state) {c : Certificate} (hc : c ∈ G.certs)
    (hon : c ∈ out → ¬ self.Late state c) : self.SentOnce G (s ++ [c]) out (state.insert c) where
  entries := entries_insert h.entries hc
  known := known_insert h.entries hc h.known
  max := h.max
  sent x hx := (h.sent x hx).imp_left fun hx => hx.mono _
  nodup := h.nodup
  onTime y hy hold := by
    rcases (holds_insert h.entries hc).mp hold with rfl | hold
    · exact hon hy
    · exact h.onTime y hy hold

/-- **A leader sends nothing that was sent already.** -/
theorem SentOnce.commitLeader (h : self.SentOnce G s out state) (hs : G.Delivery s)
    {leader : Certificate} (hl : G.Known s leader) (hlt : state.lastCommittedRound < leader.round) :
    self.SentOnce G s (out ++ self.orderDag leader state) (self.commitLeader state leader).1 where
  entries := entries_commitLeader h.entries
  known c hc := h.known c (get_of_get_commitLeader hc)
  max := State.roundIsMax_updateAll _ h.max _
  sent x hx := by
    rcases List.mem_append.mp hx with hx | hx
    · obtain ⟨hknown, r, hr, hle⟩ := h.sent x hx
      obtain ⟨r', hr', hle'⟩ := State.lookup_updateAll_mono self.gcDepth
        (self.orderDag leader state) state hr
      exact ⟨hknown, r', hr', hle.trans hle'⟩
    · have hsub := ((mem_orderDag h.entries (hl.mem hs)).mp hx).1
      exact ⟨hl.reaches hs (SubDag.reaches h.entries hsub),
        State.lookup_updateAll_of_mem self.gcDepth state hx⟩
  nodup := by
    refine List.nodup_append.mpr ⟨h.nodup, nodup_orderDag h.entries (hl.mem hs),
      fun x hx y hy hxy => ?_⟩
    subst hxy
    obtain ⟨hsub, hgc⟩ := (mem_orderDag h.entries (hl.mem hs)).mp hy
    obtain ⟨-, r, hr, hle⟩ := h.sent x hx
    rcases hsub.cases h.entries with rfl | ⟨hold, hac⟩
    · have := h.max.1 _ r hr
      omega
    · refine h.onTime x hx hold ⟨hgc.trans (Round.add_le _ _), ?_⟩
      rw [State.lastRound, hr, Option.getD_some]
      refine lt_of_le_of_ne hle fun heq => ?_
      rw [alreadyCommitted, hr, heq] at hac
      simp at hac
  onTime y hy hold := by
    by_cases hnil : self.orderDag leader state = []
    · rw [hnil, List.append_nil] at hy
      rw [commitLeader_fst, hnil] at hold ⊢
      exact h.onTime y hy hold
    · rintro ⟨-, hlate⟩
      have hkept := (State.get_updateAll self.gcDepth hnil).mp hold
      exact absurd (State.lastRound_le_iff.mpr hkept.2.1) (not_le.mpr hlate)

theorem SentOnce.commitLeaders (hs : G.Delivery s) :
    ∀ {leaders : List Certificate} {state : State} {out : List Certificate},
      self.SentOnce G s out state →
      (∀ x ∈ leaders, G.Known s x ∧ state.lastCommittedRound < x.round) →
      (leaders.Pairwise fun x y => x.round < y.round) →
      self.SentOnce G s (out ++ txOutput (self.commitLeaders state leaders).2)
        (self.commitLeaders state leaders).1
  | [], _, out, h, _, _ => (List.append_nil out).symm ▸ h
  | leader :: leaders, state, out, h, hleaders, hrise => by
      obtain ⟨⟨hl, hlt⟩, hrest⟩ := List.forall_mem_cons.mp hleaders
      obtain ⟨hhead, htail⟩ := List.pairwise_cons.mp hrise
      have hle : (self.commitLeader state leader).1.lastCommittedRound ≤ leader.round :=
        lastCommittedRound_commitLeader_le h.entries h.max (hl.mem hs) hlt
      have key := (h.commitLeader hs hl hlt).commitLeaders hs
        (fun x hx => ⟨(hrest x hx).1, hle.trans_lt (hhead x hx)⟩) htail
      rw [List.append_assoc] at key
      exact key

/-- A path of the DAG leads down. -/
theorem round_lt_of_descends {dag : Dag} (hE : G.Entries dag) {x p : Certificate}
    (hx : x ∈ G.certs) (h : Descends dag x p) : p ∈ G.certs ∧ p.round < x.round := by
  have hedge : ∀ {y q : Certificate}, y ∈ G.certs → Edge dag y q →
      q ∈ G.certs ∧ q.round < y.round := by
    rintro y q hy ⟨r, n, d, hget, hd⟩
    obtain ⟨hdigest, -, -, hq⟩ := hE _ _ _ hget
    have := Parent.round_succ (⟨hy, hq, hdigest ▸ hd⟩ : G.Parent y q)
    exact ⟨hq, by omega⟩
  induction h with
  | single h => exact hedge hx h
  | tail _ h ih => exact ⟨(hedge ih.1 h).1, (hedge ih.1 h).2.trans ih.2⟩

/-- **A turn of the loop sends nothing that was sent already.** -/
theorem SentOnce.commits (h : self.SentOnce G s out state) (hs : G.Delivery s)
    {result : State × List Emission} (hc : Commits self state result) :
    self.SentOnce G s (out ++ txOutput result.2) result.1 := by
  have hresolve : ∀ lr, self.SentOnce G s out (Consensus.resolve state lr) := fun _ =>
    ⟨h.entries, h.known, h.max, h.sent, h.nodup, h.onTime⟩
  have hline : ∀ {leaders}, Lineup state leaders →
      (∀ l ∈ leaders, G.Known s l ∧ state.lastCommittedRound < l.round) ∧
        leaders.Pairwise fun x y => x.round < y.round := by
    intro leaders hl
    have hknown : ∀ l ∈ leaders, G.Known s l := by
      intro l hmem
      obtain ⟨n, d, hget⟩ := hl.held l hmem
      exact h.known l (h.entries.holds hget)
    exact ⟨fun l hmem => ⟨hknown l hmem, hl.above l hmem⟩, hl.path.imp_of_mem fun _ hy hdesc =>
      (round_lt_of_descends h.entries ((hknown _ hy).mem hs) hdesc).2⟩
  cases hc with
  | wait => exact (List.append_nil out).symm ▸ h
  | skip lr => exact (List.append_nil out).symm ▸ hresolve lr
  | fallback lr hl => exact SentOnce.commitLeaders hs (hresolve lr) (hline hl).1 (hline hl).2
  | steady hl => exact SentOnce.commitLeaders hs h (hline hl).1 (hline hl).2

/-- **A run in which every copy is on time sends nothing twice.** -/
theorem nodup_output {s : List Certificate} (hs : G.Delivery s) (hround : ∀ c ∈ s, 1 ≤ c.round)
    (hon : self.CopiesOnTime s) : (self.output s).Nodup := by
  refine (output_induct (P := fun pre state out => self.SentOnce G pre out state)
    (Q := List.Nodup) ?_ ?_ fun _ _ _ h => h.nodup).2
  · have hinv : self.Inv G [] [] (State.new (Certificate.genesis self.committee)) := inv_new
    exact ⟨hinv.entries, hinv.known, hinv.max, fun _ hx => absurd hx List.not_mem_nil,
      List.nodup_nil, fun _ hx => absurd hx List.not_mem_nil⟩
  · intro pre c state result hpre hstate h hp
    have hpre' := hs.of_prefix hpre
    have hc : c ∈ pre ++ [c] := List.mem_append_right _ List.mem_cons_self
    have hkeyed : Keyed state.dag := fun r n e he =>
      have hentry := h.entries r n e he
      ⟨hentry.1, hentry.2.1, hentry.2.2.1⟩
    refine (h.insert (hpre'.mem c hc) fun hsent => ?_).commits hpre' (commits_process hkeyed hp)
    -- the certificate received was sent already, so it is a copy
    have hone := hround c (hpre.subset hc)
    have hmem : c ∈ pre := (h.sent c hsent).1.resolve_right fun h => by omega
    have hcopy := hon pre c hpre hmem
    rwa [hstate] at hcopy

/-- **Re-delivery is harmless**, in both modes, where every certificate received again is on time,
no sum overflows in either run and, in steady mode, a leader needs some support: the output is that
of the run without copies, and nothing is sent twice. -/
theorem redelivery_harmless
    (hpos : self.dynamic = false → 0 < self.committee.validityThreshold) (hs : G.Delivery s)
    (hfits : self.machine.Along self.Fits s) (hfits' : self.machine.Along self.Fits t)
    (hround : ∀ c ∈ s, 1 ≤ c.round) (h : Redelivers s t) (hon : self.CopiesOnTime t) :
    self.output t = self.output s ∧ (self.output t).Nodup := by
  exact ⟨congrArg txOutput (h.outputs_eq hpos hs hfits hfits' hon).1,
    nodup_output (h.delivery hs) (fun c hc => hround c (h.mem_iff.mpr hc)) hon⟩

end

/-! ## A copy that is sent again

Three authorities, one of which, `h`, is a quorum on its own and leads round 2.  A copy of `h 1`
arrives after `h 2` was committed; `a 2` names `h 1`, and is committed with the leader `a 4` of
round 4. -/

namespace SentAgain

open Sample

def committee : Committee := committee3 1 1 7

def task : Consensus := ⟨committee, 50, false⟩

def cert (author : ℕ) (round : UInt64) (parents : List Certificate) : Certificate :=
  certificate committee (key author) round parents

def h1 : Certificate := cert 3 1 (Certificate.genesis committee)
def h2 : Certificate := cert 3 2 [h1]
def h3 : Certificate := cert 3 3 [h2]
def a2 : Certificate := cert 2 2 [h1]
def a3 : Certificate := cert 2 3 [h2, a2]
def a4 : Certificate := cert 2 4 [h3, a3]
def h4 : Certificate := cert 3 4 [h3]
def h5 : Certificate := cert 3 5 [h4, a4]

def once : List Certificate := [h1, h2, h3, a2, a3, a4, h4, h5]

/-- A copy of `h 1` after `h 2` was committed. -/
def twice : List Certificate := [h1, h2, h3, h1, a2, a3, a4, h4, h5]

/-- Copies of `h 1` before `h 2` is committed, and of `h 3`. -/
def copied : List Certificate := [h1, h2, h1, h3, a2, h3, a3, a4, h4, h5]

def certs : List Certificate := Certificate.genesis committee ++ once

set_option maxRecDepth 100000 in
theorem deliverable : Universe.WellFormed committee certs ∧ (∀ x ∈ once, x ∈ certs) ∧
    Universe.ParentsFirst committee once ∧ (∀ x ∈ once, 1 ≤ x.round) ∧
    (task.output twice ≠ task.output once ∧ ¬ (task.output twice).Nodup) ∧
    task.output once ≠ [] ∧ task.CopiesOnTime copied ∧ task.machine.Along task.Fits once ∧
    task.machine.Along task.Fits copied := by
  decide +kernel

theorem wellFormed : Universe.WellFormed committee certs := deliverable.1

theorem delivery_once : (Universe.ofList certs wellFormed).Delivery once :=
  Universe.delivery_ofList wellFormed deliverable.2.1 deliverable.2.2.1

theorem redelivers_twice : Redelivers once twice :=
  have h : Redelivers [h1, h2, h3] [h1, h2, h3] := ((Redelivers.nil.deliver h1).deliver h2).deliver h3
  (((((h.again List.mem_cons_self).deliver a2).deliver a3).deliver a4).deliver h4).deliver h5

/-- **`h 1` is sent twice.** -/
theorem sent_twice :
    (Universe.ofList certs wellFormed).Delivery once ∧ (∀ c ∈ once, 1 ≤ c.round) ∧
      Redelivers once twice ∧ task.output twice ≠ task.output once ∧
      ¬ (task.output twice).Nodup := by
  obtain ⟨-, -, -, hround, htwice, -⟩ := deliverable
  exact ⟨delivery_once, hround, redelivers_twice, htwice⟩

theorem redelivers_copied : Redelivers once copied :=
  have h : Redelivers [h1, h2] [h1, h2] := (Redelivers.nil.deliver h1).deliver h2
  have h' : Redelivers [h1, h2, h3, a2] [h1, h2, h1, h3, a2] :=
    ((h.again List.mem_cons_self).deliver h3).deliver a2
  ((((h'.again (by simp)).deliver a3).deliver a4).deliver h4).deliver h5

/-- Copies that are on time leave the output as it is. -/
theorem redelivery_harmless_copied :
    task.output once ≠ [] ∧ task.CopiesOnTime copied ∧ task.machine.Along task.Fits once ∧
      task.machine.Along task.Fits copied ∧ task.output copied = task.output once ∧
      (task.output copied).Nodup := by
  obtain ⟨-, -, -, hround, -, hne, hon, hfits, hfits'⟩ := deliverable
  exact ⟨hne, hon, hfits, hfits', redelivery_harmless (fun _ => by decide) delivery_once hfits
    hfits' hround redelivers_copied hon⟩

end SentAgain

end Consensus

end Bullshark
