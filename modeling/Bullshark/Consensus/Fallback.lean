import Bullshark.Consensus.WaveOrder

/-!
# Consensus/Fallback — two validators in dynamic mode

Two validators resolve the same wave next (`waves_run`).  Whether they resolve it alike depends on
the quorums they saw: if one commits, the other sees at least `2Q - N` of the stake behind the
fallback, which need not be `Q`.  `fallback_agreement` holds of the runs that skip a fallback only
with less than `2Q - N` behind it, in which no certificate arrives late, and in which no sum of a
round and `gc_depth` overflows.
-/

namespace Bullshark

namespace Consensus

section

variable [Crypto]

variable {self : Consensus} {G : Universe self.committee}

open Universe

variable {s t out : List Certificate} {state state' : State}

/-! ## The condition on a step -/

/-- The visible stake of the support round that is linked to the fallback of `lr`; none, where the
DAG has no fallback. -/
def linkedStake (self : Consensus) (state : State) (round lr : ℕ) : ℕ :=
  match self.selected lr state.dag with
  | .ok (some leader) =>
    match self.supportStake state round leader with
    | .ok stake => stake.toNat
    | .error _ => 0
  | _ => 0

/-- If this verdict skips a fallback, then one with less than `2Q - N` behind it. -/
def SkipsClearly (self : Consensus) (state : State) (round : ℕ) : Except Panic Verdict → Prop
  | .ok (.skip lr) => self.linkedStake state round lr + self.committee.totalStake
      < 2 * self.committee.quorumThreshold.toNat
  | _ => True

/-- The step receives a certificate on time, and skips no fallback another validator may commit. -/
def Clear (self : Consensus) : Except Panic State → Certificate → Prop
  | .ok state, c => ¬ self.Late state c ∧
      self.SkipsClearly (state.insert c) c.round (self.verdict (state.insert c) c.round)
  | .error _, _ => True

instance (state : State) (round : ℕ) :
    ∀ verdict : Except Panic Verdict, Decidable (self.SkipsClearly state round verdict)
  | .ok (.skip _) => inferInstanceAs (Decidable (_ < _))
  | .ok (.commit _ _) => .isTrue trivial
  | .ok .wait => .isTrue trivial
  | .error _ => .isTrue trivial

instance : ∀ (state : Except Panic State) (c : Certificate), Decidable (self.Clear state c)
  | .ok _, _ => inferInstanceAs (Decidable (_ ∧ _))
  | .error _, _ => .isTrue trivial

theorem Clear.onTime {state : Except Panic State} {c : Certificate} (h : self.Clear state c) :
    self.OnTime state c := by
  cases state with
  | error p => trivial
  | ok state => exact h.1

/-- The linked stake is that of the authors whose certificates stand behind the fallback. -/
theorem linkedStake_eq (hstake : self.committee.totalStake < 2 ^ 32)
    (hinv : self.Inv G s out state) (hs : G.Delivery s) {c leader : Certificate}
    (hc : Holds state.dag c) (hl : Holds state.dag leader)
    (helected : self.elected leader.round = .ok (some leader.origin))
    (hlt : state.lastCommittedRound < leader.round) (hle : leader.round ≤ c.round) :
    self.linkedStake state c.round leader.round = self.committee.stakeOf
      (authorsOf state.dag c.round (self.StandsBehind G leader)) := by
  have hsel : self.selected leader.round state.dag = .ok (some (leader.digest, leader)) := by
    rw [selected_eq helected, Option.bind_some, hl]
  have hsupport := supportStake_eq hinv.entries hc fun x hx hxr =>
    supports_eq hinv.entries hl hx (hxr ▸ hle) (hinv.complete hs (hinv.known x hx) hlt)
  rw [linkedStake, hsel]
  simp only [hsupport]
  exact toNat_sum_stake_authors hstake _

/-! ## Two validators -/

/-- A run of clear steps on a delivery, in which no sum overflows. -/
structure ClearRun (task : Consensus) (G : Universe task.committee) (s : List Certificate) :
    Prop where
  delivery : G.Delivery s
  fits : task.machine.Along task.Fits s
  clear : task.machine.Along task.Clear s

theorem ClearRun.of_prefix (hpre : s <+: t) (h : self.ClearRun G t) : self.ClearRun G s :=
  ⟨h.delivery.of_prefix hpre, h.fits.of_prefix hpre, h.clear.of_prefix hpre⟩

/-- A wave being resolved: the state that holds the certificate received, and the wave. -/
structure Resolution (task : Consensus) (G : Universe task.committee) (s out : List Certificate)
    (k : ℕ) (state : State) : Prop where
  delivery : G.Delivery s
  inv : task.Inv G s out state
  tidy : task.Tidy state
  holds : ∃ c, Holds state.dag c ∧ c.round = 4 * k + 5
  due : task.Due state (4 * k + 5) (4 * k + 2)

/-- **What a step of a clear run emits**: nothing, or the outcome of the next wave. -/
theorem ClearRun.emits (hdyn : self.dynamic = true) (hstake : self.committee.totalStake < 2 ^ 32)
    {c : Certificate} (h : self.ClearRun G (s ++ [c])) :
    (self.machine.step (self.machine.state s) c).2 = [] ∨ ∃ k state,
      (outcomes (self.machine.outputs s)).length = k ∧
      self.Resolution G (s ++ [c]) (self.output s) k state ∧
      ((∃ leader, self.Backed G state (4 * k + 5) (4 * k + 2) leader ∧
          leader.round + self.gcDepth < 2 ^ 64 ∧
          (self.machine.step (self.machine.state s) c).2 = [.fallback (4 * k + 2) true,
            .subDag leader state.lastCommittedRound (self.orderDag leader (resolve state (4 * k + 2)))]) ∨
        ((∀ leader, ¬ self.Backed G state (4 * k + 5) (4 * k + 2) leader) ∧
          self.linkedStake state (4 * k + 5) (4 * k + 2) + self.committee.totalStake
            < 2 * self.committee.quorumThreshold.toNat ∧
          (self.machine.step (self.machine.state s) c).2 = [.fallback (4 * k + 2) false])) := by
  have hpre : s <+: s ++ [c] := List.prefix_append _ _
  obtain ⟨st, result, hst, hinv, hstep, hturn⟩ := turn_run h.delivery h.fits
  have hc : c ∈ G.certs := h.delivery.mem c (List.mem_append_right _ List.mem_cons_self)
  have hhold : Holds (st.insert c).dag c := (holds_insert hinv.entries hc).mpr (Or.inl rfl)
  have hclear : self.Clear (.ok st) c := hst ▸ h.clear.last
  have htidy := tidy_run (h.delivery.of_prefix hpre) (h.fits.of_prefix hpre)
    (fun pre i hi => (h.clear.of_prefix hpre pre i hi).onTime) hst
  obtain ⟨st', k, hst', hw, hrounds⟩ := waves_run hdyn hstake (h.delivery.of_prefix hpre)
  obtain rfl : st = st' := Except.ok.inj (hst.symm.trans hst')
  have hlength : (outcomes (self.machine.outputs s)).length = k := by
    simpa [resolvedWaves] using congrArg List.length hrounds
  have hresolution : c.round = 4 * k + 5 → self.Due (st.insert c) (4 * k + 5) (4 * k + 2) →
      self.Resolution G (s ++ [c]) (self.output s) k (st.insert c) := fun hround hdue =>
    ⟨h.delivery, hinv.insert hc, htidy.insert hinv hc hclear.1, ⟨c, hhold, hround⟩, hdue⟩
  rw [hstep]
  cases hturn with
  | wait _ => exact Or.inl rfl
  | skip _ hdue hb =>
    obtain ⟨hround, rfl⟩ := hw.due hdyn hstake h.delivery hdue
    have hskip : self.SkipsClearly (st.insert c) c.round (.ok (.skip (4 * k + 2))) := by
      have := hclear.2
      rwa [verdict_eq_skip hdyn (hinv.insert hc) h.delivery hhold hdue hb] at this
    rw [hround] at hdue hb hskip
    exact Or.inr ⟨k, st.insert c, hlength, hresolution hround hdue, Or.inr ⟨hb, hskip, rfl⟩⟩
  | @fallback lr leader _ hdue hb hsums =>
    obtain ⟨hround, rfl⟩ := hw.due hdyn hstake h.delivery hdue
    rw [hround] at hdue hb
    exact Or.inr ⟨k, st.insert c, hlength, hresolution hround hdue,
      Or.inl ⟨leader, hb, hsums.of_get hb.holds, rfl⟩⟩
  | steady hsteady _ _ _ _ _ => rw [hdyn] at hsteady; cases hsteady

/-- **A fallback one validator commits is not clearly skipped by another**: the two quorums of the
support round share `2Q - N` stake behind it. -/
theorem Resolution.not_skipped (hdyn : self.dynamic = true)
    (hstake : self.committee.totalStake < 2 ^ 32) {k : ℕ}
    (h : self.Resolution G s out k state) (h' : self.Resolution G t out k state')
    {leader : Certificate} (hb : self.Backed G state (4 * k + 5) (4 * k + 2) leader)
    (hskip : self.linkedStake state' (4 * k + 5) (4 * k + 2) + self.committee.totalStake
      < 2 * self.committee.quorumThreshold.toNat) : False := by
  have hbehind := UInt32.le_iff_toNat_le.mp hb.stake
  rw [requiredSupport, if_pos hdyn, toNat_sum_stake_authors hstake] at hbehind
  have hvisible := UInt32.le_iff_toNat_le.mp (h'.due.quorum hdyn)
  rw [roundStake_eq h'.inv.entries, toNat_sum_stake_authors hstake] at hvisible
  have hmeet := Weights.add_le_inter_add (w := self.committee.weight) Committee.stakeOf_le_totalStake
    (authorsOf state.dag (4 * k + 5) (self.StandsBehind G leader))
    (authorsOf state'.dag (4 * k + 5) fun _ => True)
  simp only [Committee.stakeOf] at hbehind hvisible
  -- the certificates both quorums share are the same, and stand behind the leader
  have hshared : ∀ a ∈ authorsOf state.dag (4 * k + 5) (self.StandsBehind G leader) ∩
      authorsOf state'.dag (4 * k + 5) (fun _ => True), ∃ x, Holds state'.dag x ∧
        x.round = 4 * k + 5 ∧ self.StandsBehind G leader x ∧ x.origin = a := by
    intro a ha
    obtain ⟨x, hx, hxr, hxl, hxa⟩ := (mem_authorsOf h.inv.entries).mp (Finset.mem_inter.mp ha).1
    obtain ⟨y, hy, hyr, -, hya⟩ := (mem_authorsOf h'.inv.entries).mp (Finset.mem_inter.mp ha).2
    have hxy : x = y := G.unique _ (h.inv.entries _ _ _ hx).2.2.2 _ (h'.inv.entries _ _ _ hy).2.2.2
      (hxr.trans hyr.symm) (hxa.trans hya.symm)
    exact ⟨y, hy, hyr, hxy ▸ hxl, hya⟩
  obtain ⟨a, ha, -⟩ := Weights.exists_pos_of_sum_pos (w := self.committee.weight)
    (S := authorsOf state.dag (4 * k + 5) (self.StandsBehind G leader) ∩
      authorsOf state'.dag (4 * k + 5) fun _ => True) (by omega)
  obtain ⟨x, hx, -, hxl, -⟩ := hshared a ha
  rw [StandsBehind, if_pos hdyn] at hxl
  have habove : state'.lastCommittedRound < leader.round := hb.atRound.symm ▸ h'.due.above
  have hl := h'.inv.holds_of_lt ((h'.inv.known x hx).reaches h'.delivery hxl) habove
  obtain ⟨c, hc, hcr⟩ := h'.holds
  have hlinked := linkedStake_eq hstake h'.inv h'.delivery hc hl
    (hb.atRound.symm ▸ hb.elected) habove (by have := hb.atRound; omega)
  rw [hcr, hb.atRound] at hlinked
  have hsub := Finset.sum_le_sum_of_subset (f := self.committee.weight)
    (show _ ⊆ authorsOf state'.dag (4 * k + 5) (self.StandsBehind G leader) from
      fun a ha => (mem_authorsOf h'.inv.entries).mpr (hshared a ha))
  rw [Committee.stakeOf] at hlinked
  omega

/-- **Two clear runs that emitted the same so far and both emit next emit the same.** -/
theorem ClearRun.next (hdyn : self.dynamic = true) (hstake : self.committee.totalStake < 2 ^ 32)
    {c d : Certificate} (h : self.ClearRun G (s ++ [c])) (h' : self.ClearRun G (t ++ [d]))
    (heq : self.machine.outputs s = self.machine.outputs t)
    (hne : (self.machine.step (self.machine.state s) c).2 ≠ [])
    (hne' : (self.machine.step (self.machine.state t) d).2 ≠ []) :
    (self.machine.step (self.machine.state s) c).2
      = (self.machine.step (self.machine.state t) d).2 := by
  obtain ⟨k, st, rfl, hres, hcase⟩ := (h.emits hdyn hstake).resolve_left hne
  obtain ⟨k', st', rfl, hres', hcase'⟩ := (h'.emits hdyn hstake).resolve_left hne'
  have hout : self.output s = self.output t := congrArg txOutput heq
  rw [← heq, ← hout] at hres'
  rw [← heq] at hcase'
  rcases hcase with ⟨leader, hb, hfit, hemit⟩ | ⟨hb, hskip, hemit⟩ <;>
    rcases hcase' with ⟨leader', hb', -, hemit'⟩ | ⟨hb', hskip', hemit'⟩
  · obtain rfl := hb.unique hres.inv.entries hres'.inv.entries hb'
    rw [hemit, hemit', hres.inv.lastCommittedRound_eq hres'.inv,
      orderDag_eq hres.delivery hres'.delivery (hres.inv.resolve _) (hres'.inv.resolve _) hres.tidy
        hres'.tidy (hres.inv.known _ hb.holds) (hres'.inv.known _ hb'.holds) hfit]
  · exact (hres.not_skipped hdyn hstake hres' hb hskip').elim
  · exact (hres'.not_skipped hdyn hstake hres hb' hskip).elim
  · rw [hemit, hemit']

/-- A run resolves each wave once. -/
theorem outcome_unique (hdyn : self.dynamic = true) (hstake : self.committee.totalStake < 2 ^ 32)
    (hs : G.Delivery s) {lr : ℕ} {b b' : Bool}
    (h : (lr, b) ∈ outcomes (self.machine.outputs s))
    (h' : (lr, b') ∈ outcomes (self.machine.outputs s)) : b = b' := by
  obtain ⟨-, k, -, -, hrounds⟩ := waves_run hdyn hstake hs
  have hnd : ((outcomes (self.machine.outputs s)).map Prod.fst).Nodup := by
    rw [resolvedWaves] at hrounds
    rw [hrounds]
    exact List.nodup_range.map fun i j hij => by simpa using hij
  exact congrArg Prod.snd (List.inj_on_of_nodup_map hnd h h' rfl)

/-- **Agreement of the fallback ordering**, for runs in which every certificate arrives on time, a
fallback is skipped only with less than `2Q - N` of the visible stake behind it, and no sum
overflows: two validators resolve no fallback round differently, and their outputs are
comparable. -/
theorem fallback_agreement (hdyn : self.dynamic = true)
    (hstake : self.committee.totalStake < 2 ^ 32) (hs : G.Delivery s) (ht : G.Delivery t)
    (hfits : self.machine.Along self.Fits s) (hfits' : self.machine.Along self.Fits t)
    (hclear : self.machine.Along self.Clear s) (hclear' : self.machine.Along self.Clear t) :
    (∀ lr b b', (lr, b) ∈ outcomes (self.machine.outputs s) →
        (lr, b') ∈ outcomes (self.machine.outputs t) → b = b') ∧
      (self.output s <+: self.output t ∨ self.output t <+: self.output s) := by
  have hcomparable := Mealy.outputs_comparable (P := self.ClearRun G)
    (fun _ _ hpre h => h.of_prefix hpre)
    (fun _ _ _ _ h h' heq hne hne' => h.next hdyn hstake h' heq hne hne')
    (⟨hs, hfits, hclear⟩ : self.ClearRun G s) ⟨ht, hfits', hclear'⟩
  refine ⟨fun lr b b' h h' => ?_, hcomparable.imp (fun h => h.flatMap _) fun h => h.flatMap _⟩
  rcases hcomparable with hpre | hpre
  · exact outcome_unique hdyn hstake ht ((hpre.filterMap _).subset h) h'
  · exact outcome_unique hdyn hstake hs h ((hpre.filterMap _).subset h')

end

/-! ## A fallback one validator commits and another skips

Four authorities.  The fallback of the first wave is `b 2`.  One certificate of round 3 names it,
one certificate of round 4 names that one, and three of the four certificates of round 5 name that
one.  Three certificates of round 5 are a quorum: a validator that sees the three linked ones
commits, one that sees the fourth among its first three skips. -/

namespace SplitQuorum

open Sample

def cert (author : ℕ) (round : UInt64) (parents : List Certificate) : Certificate :=
  certificate committee4 (key author) round parents

def task : Consensus := ⟨committee4, 50, true⟩

def a (n : ℕ) : Certificate := cert n 1 (Certificate.genesis committee4)

def b (n : ℕ) : Certificate := cert n 2 [a 1, a 2, a 3, a 4]

def c (n : ℕ) : Certificate := cert n 3 (if n = 1 then [b 1, b 2, b 3] else [b 1, b 3, b 4])

def d (n : ℕ) : Certificate := cert n 4 (if n = 1 then [c 1, c 2, c 3] else [c 2, c 3, c 4])

def e (n : ℕ) : Certificate := cert n 5 (if n = 4 then [d 2, d 3, d 4] else [d 1, d 2, d 3])

def common : List Certificate :=
  [a 1, a 2, a 3, a 4, b 1, b 2, b 3, b 4, c 1, c 2, c 3, c 4, d 1, d 2, d 3, d 4]

/-- A validator that sees the three linked certificates first. -/
def commits : List Certificate := common ++ [e 1, e 2, e 3]

/-- A validator that sees the unlinked certificate among its first three. -/
def skips : List Certificate := common ++ [e 1, e 2, e 4]

def certs : List Certificate := Certificate.genesis committee4 ++ common ++ [e 1, e 2, e 3, e 4]

/-- The certificates of `commits`, those of the support round in another order. -/
def swapped : List Certificate := common ++ [e 3, e 1, e 2]

set_option maxRecDepth 100000 in
theorem deliverable : Universe.WellFormed committee4 certs ∧
    ((∀ x ∈ commits, x ∈ certs) ∧ Universe.ParentsFirst committee4 commits ∧ commits.Nodup) ∧
    ((∀ x ∈ skips, x ∈ certs) ∧ Universe.ParentsFirst committee4 skips ∧ skips.Nodup) ∧
    ((∀ x ∈ swapped, x ∈ certs) ∧ Universe.ParentsFirst committee4 swapped) ∧
    (2, true) ∈ outcomes (task.machine.outputs commits) ∧
    (2, false) ∈ outcomes (task.machine.outputs skips) ∧
    task.machine.Along task.Clear commits ∧ task.machine.Along task.Clear swapped ∧
    task.machine.Along task.Fits commits ∧ task.machine.Along task.Fits swapped := by
  decide +kernel

theorem wellFormed : Universe.WellFormed committee4 certs := deliverable.1

theorem delivery_commits : (Universe.ofList certs wellFormed).Delivery commits :=
  Universe.delivery_ofList wellFormed deliverable.2.1.1 deliverable.2.1.2.1

theorem delivery_skips : (Universe.ofList certs wellFormed).Delivery skips :=
  Universe.delivery_ofList wellFormed deliverable.2.2.1.1 deliverable.2.2.1.2.1

theorem delivery_swapped : (Universe.ofList certs wellFormed).Delivery swapped :=
  Universe.delivery_ofList wellFormed deliverable.2.2.2.1.1 deliverable.2.2.2.1.2

/-- **The two validators resolve round 2 differently.** -/
theorem outcomes_differ :
    (Universe.ofList certs wellFormed).Delivery commits ∧ commits.Nodup ∧
      (Universe.ofList certs wellFormed).Delivery skips ∧ skips.Nodup ∧ task.dynamic = true ∧
      (2, true) ∈ outcomes (task.machine.outputs commits) ∧
      (2, false) ∈ outcomes (task.machine.outputs skips) := by
  obtain ⟨-, ⟨-, -, hcommits⟩, ⟨-, -, hskips⟩, -, htrue, hfalse, -⟩ := deliverable
  exact ⟨delivery_commits, hcommits, delivery_skips, hskips, rfl, htrue, hfalse⟩

/-- Two validators that see the linked certificates first commit alike. -/
theorem fallback_agreement_swapped :
    (2, true) ∈ outcomes (task.machine.outputs commits) ∧
      task.machine.Along task.Clear commits ∧ task.machine.Along task.Clear swapped ∧
      task.machine.Along task.Fits commits ∧ task.machine.Along task.Fits swapped ∧
      (∀ lr b b', (lr, b) ∈ outcomes (task.machine.outputs commits) →
        (lr, b') ∈ outcomes (task.machine.outputs swapped) → b = b') ∧
      (task.output commits <+: task.output swapped ∨
        task.output swapped <+: task.output commits) := by
  obtain ⟨-, -, -, -, hout, -, hcommits, hswapped, hfits, hfits'⟩ := deliverable
  exact ⟨hout, hcommits, hswapped, hfits, hfits', fallback_agreement rfl (by decide)
    delivery_commits delivery_swapped hfits hfits' hcommits hswapped⟩

end SplitQuorum

end Consensus

end Bullshark
