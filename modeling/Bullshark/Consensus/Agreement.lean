import Bullshark.Consensus.OnTime
import Bullshark.Primary.Sample

/-!
# Consensus/Agreement — two validators in steady mode

Two validators that send the same so far and both commit next commit the same leader: the one of
the lower round is supported by `f+1` stake, so it is in the causal history of the other, and the
walk back through past leaders meets it.  The walk of the code goes through the odd rounds below
the leader, and so misses it; `agreement` holds of the runs in which no past leader is there to be
met, in which no certificate arrives late, and in which no sum of a round and `gc_depth` overflows.
-/

namespace Bullshark

namespace Consensus

section

variable [Crypto]

variable {self : Consensus} {G : Universe self.committee}

open Universe

variable {s t out : List Certificate} {state state' : State}

/-! ## Rounds in steady mode -/

omit [Crypto] in
theorem leaderRound_even (hsteady : self.dynamic = false) {round lr : ℕ}
    (h : self.leaderRound round = some lr) : lr % 2 = 0 := by
  rw [leaderRound, if_neg (by simp [hsteady])] at h
  split at h
  · cases h
  · next hround =>
    cases h
    omega

/-- **In steady mode the last committed round is even.** -/
theorem lastCommittedRound_even (hsteady : self.dynamic = false) {s : List Certificate}
    (hs : G.Delivery s) (hfits : self.machine.Along self.Fits s) {state : State}
    (hstate : self.machine.state s = .ok state) :
    state.lastCommittedRound % 2 = 0 := by
  induction s using List.reverseRecOn generalizing state with
  | nil =>
    cases hstate
    rfl
  | append_singleton s c ih =>
    obtain ⟨st, result, hst, hinv, hstep, hturn⟩ := turn_run hs hfits
    have hc : c ∈ G.certs := hs.mem c (List.mem_append_right _ List.mem_cons_self)
    have hpre : s <+: s ++ [c] := List.prefix_append _ _
    have heven := ih (hs.of_prefix hpre) (hfits.of_prefix hpre) hst
    rw [Mealy.state_snoc, hstep] at hstate
    cases hstate
    cases hturn with
    | wait _ => exact heven
    | skip hdyn _ _ => rw [hsteady] at hdyn; cases hdyn
    | fallback hdyn _ _ _ => rw [hsteady] at hdyn; cases hdyn
    | steady _ hdue hb hsums _ hleaders =>
      have hl := hb.committable (hinv.insert hc) hdue hsums
      rw [lastCommittedRound_commitLeaders hs (hinv.insert hc) hleaders hl, hb.atRound]
      exact leaderRound_even hsteady hdue.leaderRound

/-! ## A leader with support is met by every later one -/

omit [Crypto] in
/-- The stake behind a leader, as a natural number. -/
theorem toNat_sum_stake_authors (hstake : self.committee.totalStake < 2 ^ 32)
    (S : Finset PublicKey) :
    (∑ n ∈ S, self.committee.stake n).toNat = self.committee.stakeOf S := by
  have h := Committee.toNat_sum_stake hstake S.nodup_toList
  rwa [Finset.sum_map_toList, Finset.toList_toFinset] at h

/-- **A leader backed in one validator's DAG is in the history of every certificate two rounds up
or more.** -/
theorem Backed.reaches (hstake : self.committee.totalStake < 2 ^ 31)
    (hsteady : self.dynamic = false) (hinv : self.Inv G s out state) {round lr : ℕ}
    {leader c : Certificate} (hb : self.Backed G state round lr leader) (hc : c ∈ G.certs)
    (hr : lr + 2 ≤ c.round) : G.Reaches c leader := by
  have hsupport := UInt32.le_iff_toNat_le.mp hb.stake
  rw [toNat_sum_stake_authors (by omega), requiredSupport, if_neg (by simp [hsteady])] at hsupport
  refine reaches_of_supported hstake hsupport (fun a ha => ?_) hc (hb.atRound ▸ hr)
  obtain ⟨x, -, -, hx, hxa⟩ := (mem_authorsOf hinv.entries).mp ha
  rw [StandsBehind, if_neg (by simp [hsteady])] at hx
  exact ⟨x, hxa, hx⟩

/-! ## The condition on a step -/

/-- The leader of round `r`, if there is one in the DAG, is not linked to this one. -/
def Unlinked (self : Consensus) (state : State) (leader : Certificate) (r : ℕ) : Prop :=
  match self.leader r state.dag with
  | .ok (some e) => linked leader e.2 state.dag = .ok false
  | _ => True

/-- No past leader since the last commit is linked to this one: there is nothing to be found on the
walk back. -/
def Isolated (self : Consensus) (state : State) (leader : Certificate) : Prop :=
  ∀ r < leader.round, state.lastCommittedRound + 2 ≤ r → self.Unlinked state leader r

/-- If this verdict commits a leader, then an isolated one. -/
def CommitsIsolated (self : Consensus) (state : State) : Except Panic Verdict → Prop
  | .ok (.commit _ leader) => self.Isolated state leader
  | _ => True

/-- The step receives a certificate on time, and commits no leader with a past leader to be
found. -/
def Plain (self : Consensus) : Except Panic State → Certificate → Prop
  | .ok state, c => ¬ self.Late state c ∧
      self.CommitsIsolated (state.insert c) (self.verdict (state.insert c) c.round)
  | .error _, _ => True

instance (state : State) (leader : Certificate) (r : ℕ) :
    Decidable (self.Unlinked state leader r) :=
  show Decidable (match self.leader r state.dag with
    | .ok (some e) => linked leader e.2 state.dag = .ok false
    | _ => True) from
  match self.leader r state.dag with
  | .ok (some e) => inferInstanceAs (Decidable (linked leader e.2 state.dag = .ok false))
  | .ok none => .isTrue trivial
  | .error _ => .isTrue trivial

instance (state : State) (leader : Certificate) : Decidable (self.Isolated state leader) :=
  inferInstanceAs (Decidable (∀ r < _, _))

instance (state : State) :
    ∀ verdict : Except Panic Verdict, Decidable (self.CommitsIsolated state verdict)
  | .ok (.commit _ leader) => inferInstanceAs (Decidable (self.Isolated state leader))
  | .ok (.skip _) => .isTrue trivial
  | .ok .wait => .isTrue trivial
  | .error _ => .isTrue trivial

instance : ∀ (state : Except Panic State) (c : Certificate), Decidable (self.Plain state c)
  | .ok _, _ => inferInstanceAs (Decidable (_ ∧ _))
  | .error _, _ => .isTrue trivial

omit [Crypto] in
theorem Isolated.linked_eq_false {leader : Certificate} (h : self.Isolated state leader) {r : ℕ}
    (hr : r < leader.round) (hlow : state.lastCommittedRound + 2 ≤ r) {e : Digest × Certificate}
    (he : self.leader r state.dag = .ok (some e)) : linked leader e.2 state.dag = .ok false := by
  have := h r hr hlow
  rwa [Unlinked, he] at this

theorem Plain.onTime {state : Except Panic State} {c : Certificate} (h : self.Plain state c) :
    self.OnTime state c := by
  cases state with
  | error p => trivial
  | ok state => exact h.1

/-- A run of plain steps on a delivery, in which no sum overflows. -/
structure PlainRun (task : Consensus) (G : Universe task.committee) (s : List Certificate) :
    Prop where
  delivery : G.Delivery s
  fits : task.machine.Along task.Fits s
  plain : task.machine.Along task.Plain s

theorem PlainRun.of_prefix (hpre : s <+: t) (h : self.PlainRun G t) : self.PlainRun G s :=
  ⟨h.delivery.of_prefix hpre, h.fits.of_prefix hpre, h.plain.of_prefix hpre⟩

/-- A commit of a plain run: the state that holds the certificate received, and the leader. -/
structure PlainCommit (task : Consensus) (G : Universe task.committee) (s out : List Certificate)
    (round : ℕ) (state : State) (leader : Certificate) : Prop where
  inv : task.Inv G s out state
  tidy : task.Tidy state
  even : state.lastCommittedRound % 2 = 0
  due : task.Due state round leader.round
  backed : task.Backed G state round leader.round leader
  sums : state.dag.SumsFit task.gcDepth
  isolated : task.Isolated state leader

/-- **What a step of a plain run emits**: nothing, or the sub-DAG of one leader. -/
theorem PlainRun.emits (hsteady : self.dynamic = false) {c : Certificate}
    (h : self.PlainRun G (s ++ [c])) :
    (self.machine.step (self.machine.state s) c).2 = [] ∨ ∃ state leader,
      self.PlainCommit G (s ++ [c]) (self.output s) c.round state leader ∧
        (self.machine.step (self.machine.state s) c).2
          = [.subDag leader state.lastCommittedRound (self.orderDag leader state)] := by
  have hpre : s <+: s ++ [c] := List.prefix_append _ _
  obtain ⟨st, result, hst, hinv, hstep, hturn⟩ := turn_run h.delivery h.fits
  have hc : c ∈ G.certs := h.delivery.mem c (List.mem_append_right _ List.mem_cons_self)
  have hhold : Holds (st.insert c).dag c := (holds_insert hinv.entries hc).mpr (Or.inl rfl)
  have hplain : self.Plain (.ok st) c := hst ▸ h.plain.last
  have htidy := tidy_run (h.delivery.of_prefix hpre) (h.fits.of_prefix hpre)
    (fun pre i hi => (h.plain.of_prefix hpre pre i hi).onTime) hst
  have heven := lastCommittedRound_even hsteady (h.delivery.of_prefix hpre)
    (h.fits.of_prefix hpre) hst
  rw [hstep]
  cases hturn with
  | wait _ => exact Or.inl rfl
  | skip hdyn _ _ => rw [hsteady] at hdyn; cases hdyn
  | fallback hdyn _ _ _ => rw [hsteady] at hdyn; cases hdyn
  | @steady lr leader leaders _ hdue hb hsums hok hleaders =>
    have hiso : self.Isolated (st.insert c) leader := by
      have := hplain.2
      rwa [verdict_eq_commit (hinv.insert hc) h.delivery hhold hdue hb] at this
    have hsingle := orderLeaders_eq_singleton (size_pos hc) fun r hr _ he =>
      hiso.linked_eq_false (mem_walkRounds hr).2 (mem_walkRounds hr).1 he
    obtain rfl := Except.ok.inj (hsingle.symm.trans hok)
    obtain rfl := hb.atRound
    exact Or.inr ⟨st.insert c, leader, ⟨hinv.insert hc, htidy.insert hinv hc hplain.1, heven, hdue,
      hb, hsums, hiso⟩, rfl⟩

/-- **The next leader of one run is not below the next leader of the other**: it would be a past
leader, linked to the other one. -/
theorem PlainCommit.le (hstake : self.committee.totalStake < 2 ^ 31)
    (hsteady : self.dynamic = false) (ht : G.Delivery t) {round round' : ℕ}
    {leader leader' : Certificate}
    (h : self.PlainCommit G s out round state leader)
    (h' : self.PlainCommit G t out round' state' leader') : leader'.round ≤ leader.round := by
  by_contra hlt
  have hlcr := h.inv.lastCommittedRound_eq h'.inv
  have hl' := h'.inv.known _ h'.backed.holds
  have habove := h.due.above
  have heven := leaderRound_even hsteady h.due.leaderRound
  have heven' := leaderRound_even hsteady h'.due.leaderRound
  have hreach := h.backed.reaches hstake hsteady h.inv (hl'.mem ht) (by omega)
  have hhold := h'.inv.holds_of_lt (hl'.reaches ht hreach) (by omega)
  have hlinked := linked_eq h'.inv.entries (hl'.mem ht) (hreach.mem (hl'.mem ht)) (by omega)
    (h'.inv.complete ht hl' (by omega))
  have hleader : self.leader leader.round state'.dag = .ok (some (leader.digest, leader)) := by
    obtain ⟨key, hkey, hok⟩ := leader_eq (size_pos (hl'.mem ht)) leader.round
    have helected := h.backed.elected
    rw [elected, if_neg (by simp [hsteady]), hkey] at helected
    cases helected
    rw [hok, hhold]
  have hfalse := h'.isolated.linked_eq_false (by omega) (by have := h.even; omega) hleader
  rw [hlinked] at hfalse
  simp [hreach] at hfalse

/-- **Two plain runs that sent the same so far and both send next send the same.** -/
theorem PlainRun.next (hstake : self.committee.totalStake < 2 ^ 31)
    (hsteady : self.dynamic = false) {c d : Certificate} (h : self.PlainRun G (s ++ [c]))
    (h' : self.PlainRun G (t ++ [d])) (heq : self.machine.outputs s = self.machine.outputs t)
    (hne : (self.machine.step (self.machine.state s) c).2 ≠ [])
    (hne' : (self.machine.step (self.machine.state t) d).2 ≠ []) :
    (self.machine.step (self.machine.state s) c).2
      = (self.machine.step (self.machine.state t) d).2 := by
  obtain ⟨st, leader, hcommit, hemit⟩ := (h.emits hsteady).resolve_left hne
  obtain ⟨st', leader', hcommit', hemit'⟩ := (h'.emits hsteady).resolve_left hne'
  have hout : self.output s = self.output t := congrArg txOutput heq
  rw [← hout] at hcommit'
  have hround : leader.round = leader'.round :=
    le_antisymm (hcommit'.le hstake hsteady h.delivery hcommit)
      (hcommit.le hstake hsteady h'.delivery hcommit')
  have hb' := hcommit'.backed
  rw [← hround] at hb'
  obtain rfl := hcommit.backed.unique hcommit.inv.entries hcommit'.inv.entries hb'
  rw [hemit, hemit', hcommit.inv.lastCommittedRound_eq hcommit'.inv,
    orderDag_eq h.delivery h'.delivery hcommit.inv hcommit'.inv hcommit.tidy hcommit'.tidy
      (hcommit.inv.known _ hcommit.backed.holds) (hcommit'.inv.known _ hcommit'.backed.holds)
      (hcommit.sums.of_get hcommit.backed.holds)]

/-- **Agreement of the steady-state ordering**, for runs in which every certificate arrives on time,
no leader is committed with a past leader to be found on the walk back, and no commit takes a sum of
a round and `gc_depth` that overflows: the outputs of any two validators are comparable. -/
theorem agreement (hstake : self.committee.totalStake < 2 ^ 31) (hsteady : self.dynamic = false)
    (hs : G.Delivery s) (ht : G.Delivery t) (hfits : self.machine.Along self.Fits s)
    (hfits' : self.machine.Along self.Fits t) (hplain : self.machine.Along self.Plain s)
    (hplain' : self.machine.Along self.Plain t) :
    self.output s <+: self.output t ∨ self.output t <+: self.output s := by
  have hcomparable := Mealy.outputs_comparable (P := self.PlainRun G)
    (fun _ _ hpre h => h.of_prefix hpre)
    (fun _ _ _ _ h h' heq hne hne' => h.next hstake hsteady h' heq hne hne')
    (⟨hs, hfits, hplain⟩ : self.PlainRun G s) ⟨ht, hfits', hplain'⟩
  exact hcomparable.imp (fun h => h.flatMap _) fun h => h.flatMap _

end

/-! ## A leader the walk misses

Four authorities.  Two certificates of round 3 support the leader `b 3` of round 2, so a validator
that sees them commits it.  The leader `d 1` of round 4 has it in its history too, but a validator
that first sees the support of `d 1` looks for past leaders at round 3 only. -/

namespace MissedLeader

open Sample

def cert (author : ℕ) (round : UInt64) (parents : List Certificate) : Certificate :=
  certificate committee4 (key author) round parents

def task : Consensus := ⟨committee4, 50, false⟩

def a (n : ℕ) : Certificate := cert n 1 (Certificate.genesis committee4)

def b (n : ℕ) : Certificate := cert n 2 (if n = 3 then [a 1, a 2, a 4] else [a 1, a 2, a 3])

/-- Of round 3: the first two support `b 3`, the others do not. -/
def c (n : ℕ) : Certificate := cert n 3 (if n ≤ 2 then [b 1, b 2, b 3] else [b 1, b 2, b 4])

def d (n : ℕ) : Certificate := cert n 4 [c 1, c 3, c 4]

def e (n : ℕ) : Certificate := cert n 5 [d 1, d 2, d 3]

def common : List Certificate := [a 1, a 2, a 3, a 4, b 1, b 2, b 3, b 4]

/-- A validator that sees the support of the leader of round 2. -/
def early : List Certificate := common ++ [c 1, c 2]

/-- A validator that commits at round 4 first. -/
def late : List Certificate := common ++ [c 1, c 3, c 4, d 1, d 2, d 3, e 1, e 2]

def certs : List Certificate :=
  Certificate.genesis committee4 ++ common ++ [c 1, c 2, c 3, c 4, d 1, d 2, d 3, e 1, e 2]

/-- The certificates of `early` in another order. -/
def swapped : List Certificate := [a 4, a 3, a 2, a 1, b 4, b 3, b 2, b 1, c 2, c 1]

set_option maxRecDepth 100000 in
theorem deliverable : Universe.WellFormed committee4 certs ∧
    ((∀ x ∈ early, x ∈ certs) ∧ Universe.ParentsFirst committee4 early ∧ early.Nodup) ∧
    ((∀ x ∈ late, x ∈ certs) ∧ Universe.ParentsFirst committee4 late ∧ late.Nodup) ∧
    ((∀ x ∈ swapped, x ∈ certs) ∧ Universe.ParentsFirst committee4 swapped) ∧
    task.output early ≠ [] ∧
    ¬ (task.output early <+: task.output late ∨ task.output late <+: task.output early) ∧
    task.machine.Along task.Plain early ∧ task.machine.Along task.Plain swapped ∧
    task.machine.Along task.Fits early ∧ task.machine.Along task.Fits swapped := by
  decide +kernel

theorem wellFormed : Universe.WellFormed committee4 certs := deliverable.1

theorem delivery_early : (Universe.ofList certs wellFormed).Delivery early :=
  Universe.delivery_ofList wellFormed deliverable.2.1.1 deliverable.2.1.2.1

theorem delivery_late : (Universe.ofList certs wellFormed).Delivery late :=
  Universe.delivery_ofList wellFormed deliverable.2.2.1.1 deliverable.2.2.1.2.1

theorem delivery_swapped : (Universe.ofList certs wellFormed).Delivery swapped :=
  Universe.delivery_ofList wellFormed deliverable.2.2.2.1.1 deliverable.2.2.2.1.2

/-- **The two validators disagree.** -/
theorem outputs_diverge :
    (Universe.ofList certs wellFormed).Delivery early ∧ early.Nodup ∧
      (Universe.ofList certs wellFormed).Delivery late ∧ late.Nodup ∧
      task.committee.totalStake < 2 ^ 31 ∧ task.dynamic = false ∧
      ¬ (task.output early <+: task.output late ∨ task.output late <+: task.output early) := by
  obtain ⟨-, ⟨-, -, hearly⟩, ⟨-, -, hlate⟩, -, -, hdiverge, -⟩ := deliverable
  exact ⟨delivery_early, hearly, delivery_late, hlate, by decide, rfl, hdiverge⟩

/-- Two validators that see the support of the leader of round 2 commit it alike. -/
theorem agreement_early_swapped :
    task.output early ≠ [] ∧ task.machine.Along task.Fits early ∧
      task.machine.Along task.Fits swapped ∧ task.machine.Along task.Plain early ∧
      task.machine.Along task.Plain swapped ∧
      (task.output early <+: task.output swapped ∨ task.output swapped <+: task.output early) := by
  obtain ⟨-, -, -, -, hne, -, hearly, hswapped, hfits, hfits'⟩ := deliverable
  exact ⟨hne, hfits, hfits', hearly, hswapped, agreement (by decide) rfl delivery_early
    delivery_swapped hfits hfits' hearly hswapped⟩

end MissedLeader

end Consensus

end Bullshark
