import Bullshark.Consensus.Agreement
import Bullshark.Consensus.Commits

/-!
# Consensus/Walk — which rounds `order_leaders` visits

`order_leaders` should walk back from a leader of even round `R` through the even rounds below it,
those that have leaders.  The range `(last_committed_round + 2..R)` is reversed before it is stepped
by two, so the walk starts at `R - 1` and visits the odd rounds (`mem_walkRounds_iff`).

What it should return is `pastLeaders` over `leaderRounds`.  A selection of odd rounds and one of
even rounds agree only if both are empty, whence `orderLeaders_walks_iff`: the walk is right exactly
where there is nothing to select on either.
-/

namespace Bullshark

namespace Consensus

variable {self : Consensus} {state : State}

/-! ## What the walk should select -/

/-- The even rounds strictly between the last committed one and that of the leader, in decreasing
order. -/
def leaderRounds (lastCommittedRound leaderRound : ℕ) : List ℕ :=
  ((List.range leaderRound).filter fun r =>
    decide (lastCommittedRound < r ∧ r % 2 = 0)).reverse

/-- The leaders of these rounds that are in the DAG and linked from the one selected before. -/
def pastLeaders (self : Consensus) (dag : Dag) : Certificate → List ℕ → List Certificate
  | _, [] => []
  | latest, r :: rounds =>
    match self.leader r dag with
    | .ok (some (_, prevLeader)) =>
      if linked latest prevLeader dag = .ok true then
        prevLeader :: pastLeaders self dag prevLeader rounds
      else pastLeaders self dag latest rounds
    | _ => pastLeaders self dag latest rounds

/-- `order_leaders` returns the leader and the past leaders of the even rounds, and selects no
certificate of an odd round. -/
def WalksLeaderRounds (self : Consensus) (leader : Certificate) (state : State) : Prop :=
  self.orderLeaders leader state = .ok (leader :: self.pastLeaders state.dag leader
    (leaderRounds state.lastCommittedRound leader.round)) ∧
  ∀ leaders, self.orderLeaders leader state = .ok leaders → ∀ x ∈ leaders, x.round % 2 = 0

theorem mem_leaderRounds {low high r : ℕ} :
    r ∈ leaderRounds low high ↔ low < r ∧ r < high ∧ r % 2 = 0 := by
  rw [leaderRounds, List.mem_reverse, List.mem_filter, List.mem_range, decide_eq_true_eq]
  tauto

/-! ## The rounds visited -/

theorem mem_stepByTwo_reverse_range' {r a : ℕ} : ∀ n : ℕ,
    r ∈ stepByTwo (List.range' a n).reverse ↔ a ≤ r ∧ r < a + n ∧ (a + n - r) % 2 = 1
  | 0 => by
      simp only [List.range'_zero, List.reverse_nil, stepByTwo, List.not_mem_nil, false_iff]
      omega
  | 1 => by
      simp only [List.range'_one, List.reverse_singleton, stepByTwo, List.mem_singleton]
      omega
  | n + 2 => by
      have htop : (List.range' a (n + 2)).reverse
          = (a + n + 1) :: (a + n) :: (List.range' a n).reverse := by
        rw [List.range'_concat, List.range'_concat]
        simp [Nat.add_assoc]
      rw [htop, stepByTwo, List.mem_cons, mem_stepByTwo_reverse_range' n]
      omega

/-- **The walk visits every second round, starting right below the leader.** -/
theorem mem_walkRounds_iff {low high r : ℕ} :
    r ∈ walkRounds low high ↔ low + 2 ≤ r ∧ r < high ∧ (high - r) % 2 = 1 := by
  rw [walkRounds, mem_stepByTwo_reverse_range']
  omega

/-! ## What is selected on a walk -/

/-- **A walk that ends appended the past leaders of its rounds**, and tested each link. -/
theorem foldlM_orderLeadersStep_eq {dag : Dag} : ∀ {rounds : List ℕ}
    {acc acc' : List Certificate × Certificate},
    rounds.foldlM (self.orderLeadersStep dag) acc = .ok acc' →
      acc'.1 = acc.1 ++ self.pastLeaders dag acc.2 rounds
  | [], acc, acc', h => by
      cases h
      exact (List.append_nil _).symm
  | r :: rounds, acc, acc', h => by
      obtain ⟨acc₁, hstep, hrest⟩ := Except.bind_eq_ok_iff.mp h
      rw [foldlM_orderLeadersStep_eq hrest, pastLeaders]
      rcases orderLeadersStep_cases hstep with ⟨hfound, rfl⟩ | ⟨e, linkedTo, hfound, hlinked, rfl⟩
      · rw [hfound]
      · rw [hfound]
        cases linkedTo with
        | false => simp [hlinked]
        | true => simp [hlinked]

theorem pastLeaders_eq_nil_iff {dag : Dag} {latest : Certificate} {rounds : List ℕ} :
    self.pastLeaders dag latest rounds = [] ↔ ∀ r ∈ rounds, ∀ e,
      self.leader r dag = .ok (some e) → linked latest e.2 dag ≠ .ok true := by
  induction rounds with
  | nil => simp [pastLeaders]
  | cons r rounds ih =>
    rw [pastLeaders, List.forall_mem_cons]
    split
    · next d prevLeader hleader =>
      by_cases hlinked : linked latest prevLeader dag = .ok true
      · simp [hleader, hlinked]
      · simp [hleader, hlinked, ih]
    · next hleader =>
      rw [ih]
      refine ⟨fun h => ⟨fun e he => absurd he (hleader e.1 e.2), h⟩, And.right⟩

/-- A walk that ends and selects nothing found no link. -/
theorem linked_eq_false_of_foldlM {dag : Dag} : ∀ {rounds : List ℕ}
    {acc acc' : List Certificate × Certificate},
    rounds.foldlM (self.orderLeadersStep dag) acc = .ok acc' →
    self.pastLeaders dag acc.2 rounds = [] → ∀ r ∈ rounds, ∀ e,
      self.leader r dag = .ok (some e) → linked acc.2 e.2 dag = .ok false
  | [], _, _, _, _, _, hr, _, _ => by cases hr
  | r :: rounds, acc, acc', h, hnil, r', hr', e, he => by
      obtain ⟨acc₁, hstep, hrest⟩ := Except.bind_eq_ok_iff.mp h
      have hnone := pastLeaders_eq_nil_iff.mp hnil
      -- the link of the first round is tested, and not found
      have hfirst : acc₁ = acc ∧
          ∀ e, self.leader r dag = .ok (some e) → linked acc.2 e.2 dag = .ok false := by
        rcases orderLeadersStep_cases hstep with ⟨hfound, rfl⟩ | ⟨e, linkedTo, hfound, hlinked, rfl⟩
        · refine ⟨rfl, fun e he => ?_⟩
          rw [hfound] at he
          cases he
        · cases linkedTo with
          | true => exact absurd hlinked (hnone r List.mem_cons_self e hfound)
          | false =>
            refine ⟨rfl, fun e' he' => ?_⟩
            rw [hfound] at he'
            cases he'
            exact hlinked
      obtain ⟨rfl, hfirst⟩ := hfirst
      rcases List.mem_cons.mp hr' with rfl | hr'
      · exact hfirst e he
      · refine linked_eq_false_of_foldlM hrest (pastLeaders_eq_nil_iff.mpr ?_) r' hr' e he
        exact fun r₁ hr₁ => hnone r₁ (List.mem_cons_of_mem _ hr₁)

theorem size_pos_of_leader {r : ℕ} {dag : Dag} {found : Option (Digest × Certificate)}
    (h : self.leader r dag = .ok found) : 0 < self.committee.size := by
  obtain ⟨key, hkey, -⟩ := Except.bind_eq_ok_iff.mp h
  rw [leaderKey] at hkey
  split at hkey
  · next hleader =>
    rw [Committee.size, List.length_pos_iff]
    rintro hnil
    simp [Committee.leader, BTreeMap.keys, hnil] at hleader
  · cases hkey

variable [Crypto]

/-- The past leaders selected are of the rounds walked through. -/
theorem round_mem_of_pastLeaders {dag : Dag} (hk : Keyed dag) {rounds : List ℕ}
    {latest x : Certificate} (hx : x ∈ self.pastLeaders dag latest rounds) : x.round ∈ rounds := by
  induction rounds generalizing latest with
  | nil => cases hx
  | cons r rounds ih =>
    rw [pastLeaders] at hx
    split at hx
    · next d prevLeader hleader =>
      split at hx
      · rcases List.mem_cons.mp hx with rfl | hx
        · obtain ⟨key, -, hget⟩ := Except.bind_eq_ok_iff.mp hleader
          have hround : x.round = r := (hk r key _ (Except.ok.inj hget)).2.1
          exact hround ▸ List.mem_cons_self
        · exact List.mem_cons_of_mem _ (ih hx)
      · exact List.mem_cons_of_mem _ (ih hx)
    · exact List.mem_cons_of_mem _ (ih hx)

/-- Selections of odd rounds and of even rounds agree only if both are empty. -/
theorem pastLeaders_eq_nil_of_parity {dag : Dag} (hk : Keyed dag) {latest : Certificate}
    {odds evens : List ℕ} (hodd : ∀ r ∈ odds, r % 2 = 1) (heven : ∀ r ∈ evens, r % 2 = 0)
    (heq : self.pastLeaders dag latest odds = self.pastLeaders dag latest evens) :
    self.pastLeaders dag latest odds = [] := by
  refine List.eq_nil_iff_forall_not_mem.mpr fun x hx => ?_
  have h1 := hodd _ (round_mem_of_pastLeaders hk hx)
  have h0 := heven _ (round_mem_of_pastLeaders hk (heq ▸ hx))
  omega

/-- A state of the main loop: between two turns, or once the certificate received is inserted. -/
def InLoop (self : Consensus) (state : State) : Prop :=
  ∃ s before, self.machine.state s = .ok before ∧ (state = before ∨ ∃ c, state = before.insert c)

theorem keyed_run {s : List Certificate} (h : self.machine.state s = .ok state) :
    Keyed state.dag := by
  refine (output_induct (P := fun _ state _ => Keyed state.dag) (Q := fun _ => True)
    (keyed_new _) ?_ fun _ _ _ _ => trivial).1 state h
  intro pre c state result _ _ hk hp
  exact (commits_process hk hp).keyed (hk.insert c)

theorem InLoop.keyed (h : self.InLoop state) : Keyed state.dag := by
  obtain ⟨s, before, hs, rfl | ⟨c, rfl⟩⟩ := h
  · exact keyed_run hs
  · exact (keyed_run hs).insert c

/-- **Exactly when the walk is right.**  In any state of the loop, for the leader of an even round
above the last committed one: the leader is followed by the past leaders of the even rounds, and no
certificate of an odd round is selected, if and only if no leader of an odd round from
`lastCommittedRound + 2` on and no leader of an even round above `lastCommittedRound` is in the DAG
and linked from it. -/
theorem orderLeaders_walks_iff (hloop : self.InLoop state) {leader : Certificate} {d : Digest}
    (hleader : self.leader leader.round state.dag = .ok (some (d, leader)))
    (heven : leader.round % 2 = 0) :
    self.WalksLeaderRounds leader state ↔
      (∀ r, state.lastCommittedRound + 2 ≤ r → r < leader.round → r % 2 = 1 → ∀ e,
        self.leader r state.dag = .ok (some e) → linked leader e.2 state.dag = .ok false) ∧
      ∀ r, state.lastCommittedRound < r → r < leader.round → r % 2 = 0 → ∀ e,
        self.leader r state.dag = .ok (some e) → linked leader e.2 state.dag ≠ .ok true := by
  have hwalk : ∀ {r}, r ∈ walkRounds state.lastCommittedRound leader.round ↔
      state.lastCommittedRound + 2 ≤ r ∧ r < leader.round ∧ r % 2 = 1 := by
    intro r
    rw [mem_walkRounds_iff]
    omega
  constructor
  · rintro ⟨hok, -⟩
    obtain ⟨acc, hfold, hacc⟩ := Except.bind_eq_ok_iff.mp hok
    have hsame := (foldlM_orderLeadersStep_eq hfold).symm.trans (Except.ok.inj hacc)
    simp only [List.singleton_append, List.cons.injEq, true_and] at hsame
    have hnil := pastLeaders_eq_nil_of_parity hloop.keyed (fun r hr => (hwalk.mp hr).2.2)
      (fun r hr => (mem_leaderRounds.mp hr).2.2) hsame
    refine ⟨fun r hlow hr hodd => ?_, fun r hlow hr hpar => ?_⟩
    · exact linked_eq_false_of_foldlM hfold hnil r (hwalk.mpr ⟨hlow, hr, hodd⟩)
    · exact pastLeaders_eq_nil_iff.mp (hsame ▸ hnil) r (mem_leaderRounds.mpr ⟨hlow, hr, hpar⟩)
  · rintro ⟨hodds, hevens⟩
    have hsingle : self.orderLeaders leader state = .ok [leader] :=
      orderLeaders_eq_singleton (size_pos_of_leader hleader) fun r hr =>
        hodds r (hwalk.mp hr).1 (hwalk.mp hr).2.1 (hwalk.mp hr).2.2
    have hnil : self.pastLeaders state.dag leader
        (leaderRounds state.lastCommittedRound leader.round) = [] :=
      pastLeaders_eq_nil_iff.mpr fun r hr => hevens r (mem_leaderRounds.mp hr).1
        (mem_leaderRounds.mp hr).2.1 (mem_leaderRounds.mp hr).2.2
    refine ⟨by rw [hsingle, hnil], fun leaders h x hx => ?_⟩
    rw [hsingle] at h
    cases h
    rw [List.mem_singleton.mp hx]
    exact heven

end Consensus

/-! ## A walk through round 3

The certificates of `Agreement`'s `MissedLeader`, in steady mode.  From the leader `d 1` of round 4
the leader `b 3` of round 2 is linked, and is not visited; `c 4`, of round 3, is selected.  From
`lone`, which reaches neither, the walk is right. -/

namespace Consensus.OddWalk

open Sample MissedLeader

/-- A leader of round 4 whose history has no leader of rounds 2 and 3. -/
def lone : Certificate := cert 1 4 [c 3]

def linkedRun : List Certificate := common ++ [c 1, c 3, c 4, d 1]

def loneRun : List Certificate := common ++ [c 3, lone]

set_option maxRecDepth 100000 in
theorem evaluated :
    ((task.machine.state linkedRun).toOption.isSome ∧
      (task.machine.state loneRun).toOption.isSome) ∧
    (task.leader (d 1).round (task.reached linkedRun).dag = .ok (some ((d 1).digest, d 1)) ∧
      (task.reached linkedRun).lastCommittedRound = 0 ∧
      task.orderLeaders (d 1) (task.reached linkedRun) = .ok [d 1, c 4] ∧
      task.pastLeaders (task.reached linkedRun).dag (d 1) [2] = [b 3]) ∧
    task.leader lone.round (task.reached loneRun).dag = .ok (some (lone.digest, lone)) ∧
      (task.reached loneRun).lastCommittedRound = 0 ∧
      task.leader 2 (task.reached loneRun).dag = .ok (some ((b 3).digest, b 3)) ∧
      task.Isolated (task.reached loneRun) lone := by
  decide +kernel

theorem inLoop_reached {s : List Certificate} (h : (task.machine.state s).toOption.isSome) :
    task.InLoop (task.reached s) := by
  cases hs : task.machine.state s with
  | error p =>
    rw [hs] at h
    cases h
  | ok state => exact ⟨s, state, hs, Or.inl (by rw [reached, hs])⟩

/-- **The walk misses the leader of round 2 and selects a certificate of round 3.** -/
theorem walk_selects_odd_round :
    task.dynamic = false ∧ task.InLoop (task.reached linkedRun) ∧
      task.leader (d 1).round (task.reached linkedRun).dag = .ok (some ((d 1).digest, d 1)) ∧
      (d 1).round % 2 = 0 ∧ (task.reached linkedRun).lastCommittedRound < (d 1).round ∧
      task.orderLeaders (d 1) (task.reached linkedRun) = .ok [d 1, c 4] ∧
      task.pastLeaders (task.reached linkedRun).dag (d 1) [2] = [b 3] ∧
      ¬ task.WalksLeaderRounds (d 1) (task.reached linkedRun) := by
  obtain ⟨⟨hsome, -⟩, ⟨hleader, hround, horder, hpast⟩, -⟩ := evaluated
  refine ⟨rfl, inLoop_reached hsome, hleader, rfl, by rw [hround]; decide, horder, hpast, ?_⟩
  rintro ⟨-, heven⟩
  exact absurd (heven _ horder (c 4) (by simp)) (by decide)

/-- Without a leader to be found on either side, the walk is right. -/
theorem walk_of_lone_leader :
    task.InLoop (task.reached loneRun) ∧
      task.leader lone.round (task.reached loneRun).dag = .ok (some (lone.digest, lone)) ∧
      lone.round % 2 = 0 ∧
      task.leader 2 (task.reached loneRun).dag = .ok (some ((b 3).digest, b 3)) ∧
      task.WalksLeaderRounds lone (task.reached loneRun) := by
  obtain ⟨⟨-, hsome⟩, -, hleader, hround, hpresent, hisolated⟩ := evaluated
  refine ⟨inLoop_reached hsome, hleader, rfl, hpresent,
    (orderLeaders_walks_iff (inLoop_reached hsome) hleader rfl).mpr ⟨fun r hlow hr _ e he => ?_,
      fun r hlow hr heven e he => ?_⟩⟩
  · exact hisolated.linked_eq_false hr hlow he
  · rw [hisolated.linked_eq_false hr (by omega) he]
    exact fun h => (by cases h)

end Consensus.OddWalk

end Bullshark
