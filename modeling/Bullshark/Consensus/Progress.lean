import Bullshark.Consensus.NeverPanics
import Bullshark.Consensus.Underflow

/-!
# Consensus/Progress — how the last committed round moves

Nothing is assumed of what is received but that its round is above zero: authors may equivocate,
certificates may be repeated or come late.  While a sub-DAG is flattened `last_committed_round` is
recomputed after every certificate; since nothing in it is above its leader (`round_le_of_orderDag`)
it settles on the leader's round (`lastCommittedRound_commitLeader_eq`), and after the commit loop
on that of the leader that triggered it, as long as the sum of that round and `gc_depth` does not
overflow.  Where it does, `order_dag` may leave out the leader itself, and the round stays where it
is (`LostTrigger.stays_behind`).  `progress` collects what follows for every run.
-/

namespace Bullshark

namespace Consensus

variable {self : Consensus} {state : State} {leader : Certificate}

/-! ## What has been sent of an author -/

/-- The highest round of an author among these certificates, zero where it has none. -/
def highest (n : PublicKey) : List Certificate → ℕ
  | [] => 0
  | y :: ys => if y.origin = n then max y.round (highest n ys) else highest n ys

theorem highest_append (n : PublicKey) : ∀ xs ys : List Certificate,
    highest n (xs ++ ys) = max (highest n xs) (highest n ys)
  | [], ys => (Nat.zero_max _).symm
  | x :: xs, ys => by
      rw [List.cons_append, highest, highest, highest_append n xs ys]
      by_cases hx : x.origin = n
      · rw [if_pos hx, if_pos hx, max_assoc]
      · rw [if_neg hx, if_neg hx]

theorem lookup_updateAll_eq (gc : ℕ) {n : PublicKey} : ∀ (ys : List Certificate) {state : State}
    {r : ℕ}, state.lastCommitted.lookup n = some r →
      (State.updateAll gc state ys).lastCommitted.lookup n = some (max r (highest n ys))
  | [], state, r, h => by rw [State.updateAll_nil, highest, Nat.max_zero, h]
  | y :: ys, state, r, h => by
      have hnext := State.lookup_update state y gc n
      rw [h] at hnext
      rw [State.updateAll_cons, highest]
      by_cases hy : y.origin = n
      · rw [if_pos hy.symm] at hnext
        rw [if_pos hy, lookup_updateAll_eq gc ys hnext, State.raised, max_assoc]
      · rw [if_neg (Ne.symm hy)] at hnext
        rw [if_neg hy, lookup_updateAll_eq gc ys hnext]

/-- **The commit loop records what it sends.** -/
theorem lookup_commitLeaders {n : PublicKey} : ∀ {leaders : List Certificate} {state : State}
    {r : ℕ}, state.lastCommitted.lookup n = some r →
      (self.commitLeaders state leaders).1.lastCommitted.lookup n
        = some (max r (highest n (txOutput (self.commitLeaders state leaders).2)))
  | [], _, r, h => by
      rw [commitLeaders]
      exact h.trans (congrArg some (Nat.max_zero r).symm)
  | leader :: leaders, state, r, h => by
      have hfirst := lookup_updateAll_eq self.gcDepth (self.orderDag leader state) h
      have hrest : (self.commitLeaders (self.commitLeader state leader).1
          leaders).1.lastCommitted.lookup n = _ := lookup_commitLeaders hfirst
      have hsent : txOutput (self.commitLeaders state (leader :: leaders)).2
          = self.orderDag leader state
            ++ txOutput (self.commitLeaders (self.commitLeader state leader).1 leaders).2 := rfl
      rw [hsent, highest_append, ← max_assoc]
      exact hrest

/-! ## The rounds of a sub-DAG -/

section Keyed

variable [Crypto]

/-- **Nothing in a sub-DAG is above its leader.** -/
theorem round_le_of_orderDag (hk : Keyed state.dag) (hr : Rooted state.dag)
    (hl : 1 ≤ leader.round) {y : Certificate} (hy : y ∈ self.orderDag leader state) :
    y.round ≤ leader.round := by
  rw [orderDag, List.mem_insertionSort, List.mem_filter] at hy
  obtain ⟨x, hx, hreach⟩ := (visits_orderDagLoop state leader).reach y hy.1
  obtain rfl := List.mem_singleton.mp hx
  -- along a path every certificate with parents is above round zero
  have hpath : ∀ z, Search.Reach (successors state) x z →
      z.round ≤ x.round ∧ (z.header.parents.elems ≠ [] → 1 ≤ z.round) := by
    intro z hz
    induction hz with
    | refl => exact ⟨le_rfl, fun _ => hl⟩
    | tail _ hstep ih =>
      obtain ⟨k, hk'⟩ := hstep
      obtain ⟨d, hd, hfound⟩ := List.mem_filterMap.mp hk'
      obtain ⟨-, n, hget⟩ := exists_get_of_findParent (Option.filter_eq_some_iff.mp hfound).1
      obtain ⟨hle, hone⟩ := ih
      have hpos := hone (List.ne_nil_of_mem hd)
      obtain ⟨-, hround, -⟩ := hk _ _ _ hget
      rw [Round.pred, if_neg (by omega)] at hround
      exact ⟨by dsimp only at hround; omega, hr _ _ _ hget⟩
  exact (hpath y hreach).1

/-- **After a sub-DAG the last committed round is that of its leader.** -/
theorem lastCommittedRound_commitLeader_eq (hk : Keyed state.dag) (hr : Rooted state.dag)
    (hmax : state.RoundIsMax) (hlt : state.lastCommittedRound < leader.round)
    (hfits : leader.round + self.gcDepth < 2 ^ 64) :
    (self.commitLeader state leader).1.lastCommittedRound = leader.round := by
  have hmax' := State.roundIsMax_updateAll self.gcDepth hmax (self.orderDag leader state)
  have hmem : leader ∈ self.orderDag leader state := leader_mem_orderDag hlt hfits
  obtain ⟨r, hlookup, hle⟩ := State.lookup_updateAll_of_mem self.gcDepth state hmem
  refine le_antisymm ?_ (hle.trans (hmax'.1 _ r hlookup))
  rcases hmax'.2 with hzero | ⟨n, hn⟩
  · exact hzero.le.trans (Nat.zero_le _)
  · rcases State.lookup_updateAll_cases self.gcDepth _ state hn with hold | ⟨y, hy, -, hround⟩
    · exact (hmax.1 n _ hold).trans hlt.le
    · exact hround.ge.trans (round_le_of_orderDag hk hr (by omega) hy)

/-- **After the commit loop the last committed round is that of the last leader.** -/
theorem lastCommittedRound_commitLeaders_eq : ∀ {leaders : List Certificate} {state : State},
    Keyed state.dag → Rooted state.dag → state.RoundIsMax →
    (∀ l ∈ leaders, state.lastCommittedRound < l.round) →
    (∀ l ∈ leaders, l.round + self.gcDepth < 2 ^ 64) →
    leaders.Pairwise (fun x y => x.round < y.round) → ∀ last ∈ leaders.getLast?,
      (self.commitLeaders state leaders).1.lastCommittedRound = last.round
  | [], _, _, _, _, _, _, _, last, hlast => by cases hlast
  | leader :: leaders, state, hk, hr, hmax, habove, hfits, hrise, last, hlast => by
      obtain ⟨hlt, -⟩ := List.forall_mem_cons.mp habove
      obtain ⟨hfit, hrest⟩ := List.forall_mem_cons.mp hfits
      obtain ⟨hhead, htail⟩ := List.pairwise_cons.mp hrise
      have hround : (self.commitLeader state leader).1.lastCommittedRound = leader.round :=
        lastCommittedRound_commitLeader_eq hk hr hmax hlt hfit
      rcases leaders with _ | ⟨next, leaders⟩
      · obtain rfl := Option.some.inj hlast
        exact hround
      · exact lastCommittedRound_commitLeaders_eq (hk.updateAll self.gcDepth _)
          (hr.updateAll self.gcDepth _) (State.roundIsMax_updateAll self.gcDepth hmax _)
          (fun l hl => hround.le.trans_lt (hhead l hl)) hrest htail last hlast

/-! ## The leaders of a commit -/

/-- The walk back selects leaders of falling rounds. -/
theorem foldlM_orderLeadersStep_falls (hk : Keyed state.dag) : ∀ {rounds : List ℕ}
    {acc acc' : List Certificate × Certificate}, rounds.Pairwise (· > ·) →
    (∀ r ∈ rounds, r < acc.2.round) → (∀ x ∈ acc.1, acc.2.round ≤ x.round) →
    acc.1.Pairwise (fun x y => y.round < x.round) →
    rounds.foldlM (self.orderLeadersStep state.dag) acc = .ok acc' →
      acc'.1.Pairwise (fun x y => y.round < x.round) ∧ acc.1 <+: acc'.1
  | [], acc, acc', _, _, _, hfalls, h => by
      cases h
      exact ⟨hfalls, List.prefix_rfl⟩
  | r :: rounds, acc, acc', hdesc, hbound, holdest, hfalls, h => by
      obtain ⟨hhead, htail⟩ := List.pairwise_cons.mp hdesc
      obtain ⟨hr, hrest⟩ := List.forall_mem_cons.mp hbound
      obtain ⟨acc₁, hstep, hfold⟩ := Except.bind_eq_ok_iff.mp h
      rcases orderLeadersStep_cases hstep with ⟨-, rfl⟩ | ⟨e, linkedTo, hfound, -, rfl⟩
      · exact foldlM_orderLeadersStep_falls hk htail hrest holdest hfalls hfold
      cases linkedTo with
      | false => exact foldlM_orderLeadersStep_falls hk htail hrest holdest hfalls hfold
      | true =>
        obtain ⟨n, hn⟩ := exists_get_of_leader hfound
        obtain ⟨-, hround, -⟩ := hk _ _ _ hn
        rw [if_pos rfl] at hfold
        have hnew : ∀ x ∈ acc.1, e.2.round < x.round := fun x hx =>
          hround.symm ▸ hr.trans_le (holdest x hx)
        have hlow : ∀ x ∈ acc.1 ++ [e.2], e.2.round ≤ x.round := by
          intro x hx
          rcases List.mem_append.mp hx with hx | hx
          · exact (hnew x hx).le
          · exact (congrArg Certificate.round (List.mem_singleton.mp hx)).ge
        have hfall : (acc.1 ++ [e.2]).Pairwise fun x y => y.round < x.round :=
          List.pairwise_append.mpr ⟨hfalls, List.pairwise_singleton _ _, fun x hx y hy =>
            List.mem_singleton.mp hy ▸ hnew x hx⟩
        obtain ⟨hfalls', hprefix⟩ := foldlM_orderLeadersStep_falls hk htail
          (fun r' hr' => hround.symm ▸ hhead r' hr') hlow hfall hfold
        exact ⟨hfalls', (List.prefix_append _ _).trans hprefix⟩

/-- **`order_leaders` starts with the trigger and goes down.** -/
theorem orderLeaders_falls (hk : Keyed state.dag) {leaders : List Certificate}
    (h : self.orderLeaders leader state = .ok leaders) :
    leaders.Pairwise (fun x y => y.round < x.round) ∧ [leader] <+: leaders := by
  obtain ⟨acc, hacc, ho⟩ := Except.bind_eq_ok_iff.mp h
  cases ho
  exact foldlM_orderLeadersStep_falls hk (walkRounds_pairwise _ _)
    (fun r hr => (mem_walkRounds hr).2) (fun x hx => by rw [List.mem_singleton.mp hx])
    (List.pairwise_singleton _ _) hacc

end Keyed

/-! ## Triggers -/

section Triggers

variable [Crypto]

/-- The leader whose support the certificate received completes. -/
def trigger (self : Consensus) (state : State) (c : Certificate) : Option Certificate :=
  match self.verdict (state.insert c) c.round with
  | .ok (.commit _ leader) => some leader
  | _ => none

/-- The main loop, with the leaders that trigger a commit for its outputs. -/
def triggering (self : Consensus) : Mealy (Except Panic State) Certificate Certificate where
  init := self.machine.init
  step state c := ((self.machine.step state c).1, match state with
    | .ok state => (self.trigger state c).toList
    | .error _ => [])

/-- The leaders that trigger a commit, in order. -/
def triggers (self : Consensus) (s : List Certificate) : List Certificate :=
  self.triggering.outputs s

theorem state_triggering (s : List Certificate) :
    self.triggering.state s = self.machine.state s := by
  induction s using List.reverseRecOn with
  | nil => rfl
  | append_singleton s c ih =>
    rw [Mealy.state_snoc, Mealy.state_snoc, ih]
    rfl

theorem triggers_snoc {s : List Certificate} {c : Certificate}
    (h : self.machine.state s = .ok state) :
    self.triggers (s ++ [c]) = self.triggers s ++ (self.trigger state c).toList := by
  rw [triggers, Mealy.outputs_snoc, state_triggering, h]
  rfl

/-- The last committed round after the triggers so far: that of the last one. -/
def settledRound (triggers : List Certificate) : ℕ :=
  (triggers.getLast?.map Certificate.round).getD 0

/-- Where a commit can be: even rounds, and in dynamic mode the second of every four. -/
def OnSchedule (self : Consensus) (round : ℕ) : Prop :=
  if self.dynamic then round % 4 = 2 else round % 2 = 0

theorem trigger_eq_some_iff {c : Certificate} : self.trigger state c = some leader ↔
    ∃ lr, self.verdict (state.insert c) c.round = .ok (.commit lr leader) := by
  rw [trigger]
  split
  · next lr leader' hv =>
    rw [hv]
    simp
  · next hv => exact iff_of_false (by simp) fun ⟨lr, hlr⟩ => hv lr leader hlr

omit [Crypto] in
theorem onSchedule_of_leaderRound {round lr : ℕ}
    (h : self.leaderRound round = some lr) : self.OnSchedule lr := by
  rw [leaderRound] at h
  rw [OnSchedule]
  split at h
  · next hdyn =>
    rw [if_pos hdyn]
    obtain ⟨hlate, heq⟩ := Option.ite_none_left_eq_some.mp h
    have := Option.some.inj heq
    omega
  · next hdyn =>
    rw [if_neg hdyn]
    obtain ⟨heven, heq⟩ := Option.ite_none_left_eq_some.mp h
    have := Option.some.inj heq
    omega

/-- A trigger is on schedule, above the last committed round. -/
theorem onSchedule_of_trigger (hk : Keyed state.dag) {c : Certificate}
    (h : self.trigger state c = some leader) :
    self.OnSchedule leader.round ∧ state.lastCommittedRound < leader.round := by
  obtain ⟨lr, hv⟩ := trigger_eq_some_iff.mp h
  obtain ⟨hlr, habove, n, d, hget⟩ := exists_get_of_verdict hv
  obtain ⟨-, hround, -⟩ := hk.insert c _ _ _ hget
  rw [show leader.round = lr from hround]
  exact ⟨onSchedule_of_leaderRound hlr, habove⟩

/-- The sum of `gc_depth` and the round of the leader that triggers a commit does not overflow. -/
def TriggerFits (self : Consensus) : Except Panic State → Certificate → Prop
  | .ok state, c => ∀ leader ∈ self.trigger state c, leader.round + self.gcDepth < 2 ^ 64
  | .error _, _ => True

instance : ∀ (state : Except Panic State) (c : Certificate), Decidable (self.TriggerFits state c)
  | .ok state, c => inferInstanceAs (Decidable (∀ leader ∈ self.trigger state c, _))
  | .error _, _ => .isTrue trivial

/-- **What a turn does to the rounds**: without a trigger nothing, with one it settles on its
round; and it records what it sends. -/
theorem process_settles (hk : Keyed state.dag) (hr : Rooted state.dag) (hmax : state.RoundIsMax)
    {c : Certificate} (hc : 1 ≤ c.round) (hfits : self.TriggerFits (.ok state) c)
    {result : State × List Emission} (h : self.process state c = .ok result) :
    result.1.lastCommittedRound
        = ((self.trigger state c).map Certificate.round).getD state.lastCommittedRound ∧
      ∀ n r, state.lastCommitted.lookup n = some r →
        result.1.lastCommitted.lookup n = some (max r (highest n (txOutput result.2))) := by
  have hquiet : ∀ (n : PublicKey) (r : ℕ), state.lastCommitted.lookup n = some r →
      state.lastCommitted.lookup n = some (max r (highest n (txOutput []))) := fun n r hn =>
    hn.trans (congrArg some (Nat.max_zero r).symm)
  obtain ⟨v, hv, h⟩ := Except.bind_eq_ok_iff.mp h
  cases v with
  | wait =>
    have hnone : self.trigger state c = none := by rw [trigger, hv]
    cases h
    rw [hnone]
    exact ⟨rfl, hquiet⟩
  | skip lr =>
    have hnone : self.trigger state c = none := by rw [trigger, hv]
    cases h
    rw [hnone]
    exact ⟨rfl, hquiet⟩
  | commit lr leader =>
    have hsome := trigger_eq_some_iff.mpr ⟨lr, hv⟩
    have hl := lineup_of_verdict (hk.insert c) hv
    have hfit := hfits leader hsome
    rw [hsome]
    dsimp only at h
    split at h
    · cases h
      -- resolving a round touches neither the DAG nor what is committed
      have hkeyed : Keyed (resolve (state.insert c) lr).dag := hk.insert c
      have hrooted : Rooted (resolve (state.insert c) lr).dag := hr.insert hc
      refine ⟨lastCommittedRound_commitLeaders_eq hkeyed hrooted hmax hl.above (fun l hl => ?_)
        (List.pairwise_singleton _ _) leader rfl, fun n r hn => lookup_commitLeaders hn⟩
      rwa [List.mem_singleton.mp hl]
    · obtain ⟨leaders, ho, h⟩ := Except.bind_eq_ok_iff.mp h
      cases h
      obtain ⟨hfalls, older, rfl⟩ := orderLeaders_falls (hk.insert c) ho
      have hlast : leader ∈ ([leader] ++ older).reverse.getLast? := by
        rw [List.getLast?_reverse]
        rfl
      -- the trigger is the highest of the leaders
      have hall : ∀ l ∈ ([leader] ++ older).reverse, l.round + self.gcDepth < 2 ^ 64 := by
        intro l hl
        rcases List.mem_cons.mp (List.mem_reverse.mp hl) with rfl | hl
        · exact hfit
        · have := (List.pairwise_cons.mp hfalls).1 l hl
          omega
      exact ⟨lastCommittedRound_commitLeaders_eq (hk.insert c) (hr.insert hc) hmax
        (lineup_orderLeaders (hk.insert c) hl ho).above hall (List.pairwise_reverse.mpr hfalls)
        leader hlast, fun n r hn => lookup_commitLeaders hn⟩

/-! ## What a trigger commits -/

/-- The leaders whose sub-DAGs are among these. -/
def committedLeaders (emissions : List Emission) : List Certificate :=
  emissions.filterMap fun
    | .subDag leader _ _ => some leader
    | .fallback _ _ => none

omit [Crypto] in
theorem committedLeaders_commitLeaders : ∀ (leaders : List Certificate) (state : State),
    committedLeaders (self.commitLeaders state leaders).2 = leaders
  | [], _ => rfl
  | leader :: leaders, state =>
    congrArg (leader :: ·)
      (committedLeaders_commitLeaders leaders (self.commitLeader state leader).1)

/-- **The last leader that a turn commits is the one that triggered it**; without a trigger it
commits none. -/
theorem getLast?_committedLeaders (hk : Keyed state.dag) {c : Certificate}
    {result : State × List Emission} (h : self.process state c = .ok result) :
    (committedLeaders result.2).getLast? = self.trigger state c := by
  obtain ⟨v, hv, h⟩ := Except.bind_eq_ok_iff.mp h
  rw [trigger, hv]
  cases v with
  | wait =>
    cases h
    rfl
  | skip lr =>
    cases h
    rfl
  | commit lr leader =>
    dsimp only at h
    split at h
    · cases h
      rfl
    · obtain ⟨leaders, ho, h⟩ := Except.bind_eq_ok_iff.mp h
      cases h
      obtain ⟨older, rfl⟩ := (orderLeaders_falls (hk.insert c) ho).2
      rw [committedLeaders_commitLeaders, List.getLast?_reverse]
      rfl

/-! ## Whole runs -/

omit [Crypto] in
theorem settledRound_append (ts : List Certificate) (t : Option Certificate) :
    settledRound (ts ++ t.toList) = (t.map Certificate.round).getD (settledRound ts) := by
  cases t with
  | none => rw [Option.toList_none, List.append_nil, Option.map_none, Option.getD_none]
  | some t => rw [settledRound, Option.toList_some, List.getLast?_concat]; rfl

omit [Crypto] in
theorem round_le_settledRound {ts : List Certificate}
    (h : ts.Pairwise fun x y => x.round < y.round) {t : Certificate} (ht : t ∈ ts) :
    t.round ≤ settledRound ts := by
  rcases List.eq_nil_or_concat ts with rfl | ⟨before, last, rfl⟩
  · cases ht
  · rw [List.concat_eq_append] at h ht
    rw [List.concat_eq_append, settledRound, List.getLast?_concat]
    rcases List.mem_append.mp ht with ht | ht
    · exact ((List.pairwise_append.mp h).2.2 t ht last (List.mem_singleton.mpr rfl)).le
    · exact (congrArg Certificate.round (List.mem_singleton.mp ht)).le

omit [Crypto] in
/-- Where the last commit is: nowhere, or on schedule. -/
theorem onSchedule_settledRound {ts : List Certificate} (h : ∀ t ∈ ts, self.OnSchedule t.round) :
    settledRound ts = 0 ∨ self.OnSchedule (settledRound ts) := by
  rcases List.eq_nil_or_concat ts with rfl | ⟨before, last, rfl⟩
  · exact Or.inl rfl
  · rw [List.concat_eq_append] at h
    rw [List.concat_eq_append, settledRound, List.getLast?_concat]
    exact Or.inr (h last (List.mem_append_right _ (List.mem_singleton.mpr rfl)))

/-- What every turn keeps, with the triggers so far and the certificates sent. -/
structure Settled (task : Consensus) (triggers sent : List Certificate) (state : State) :
    Prop where
  keyed : Keyed state.dag
  rooted : Rooted state.dag
  max : state.RoundIsMax
  round_eq : state.lastCommittedRound = settledRound triggers
  onSchedule : ∀ t ∈ triggers, task.OnSchedule t.round
  increasing : triggers.Pairwise fun x y => x.round < y.round
  lookup_eq : ∀ n ∈ task.committee.authorities.keys,
    state.lastCommitted.lookup n = some (highest n sent)

theorem settled_new : Settled self [] [] (State.new (Certificate.genesis self.committee)) where
  keyed := keyed_new _
  rooted := rooted_new _
  max := ⟨fun n r hr => (lookup_new hr).le, Or.inl rfl⟩
  round_eq := rfl
  onSchedule t ht := by cases ht
  increasing := List.Pairwise.nil
  lookup_eq n hn := lookup_new_eq_some_iff.mpr ⟨hn, rfl⟩

/-- **A turn keeps it.** -/
theorem Settled.process {ts sent : List Certificate} (hs : Settled self ts sent state)
    {c : Certificate} (hc : 1 ≤ c.round) (hfits : self.TriggerFits (.ok state) c)
    {result : State × List Emission} (h : self.process state c = .ok result) :
    Settled self (ts ++ (self.trigger state c).toList) (sent ++ txOutput result.2) result.1 := by
  have hcommits := commits_process hs.keyed h
  have hmax : (state.insert c).RoundIsMax := hs.max
  obtain ⟨hround, hlookup⟩ := process_settles hs.keyed hs.rooted hs.max hc hfits h
  have hnew : ∀ t ∈ (self.trigger state c).toList,
      self.OnSchedule t.round ∧ state.lastCommittedRound < t.round := fun t ht =>
    onSchedule_of_trigger hs.keyed (Option.mem_toList.mp ht)
  refine ⟨hcommits.keyed (hs.keyed.insert c), hcommits.rooted (hs.rooted.insert hc),
    (hcommits.advances hmax).max, ?_, ?_, ?_, fun n hn => ?_⟩
  · rw [hround, settledRound_append, hs.round_eq]
  · intro t ht
    rcases List.mem_append.mp ht with ht | ht
    · exact hs.onSchedule t ht
    · exact (hnew t ht).1
  · refine List.pairwise_append.mpr ⟨hs.increasing, ?_, fun x hx y hy => ?_⟩
    · cases self.trigger state c with
      | none => exact List.Pairwise.nil
      | some t => exact List.pairwise_singleton _ t
    · exact ((round_le_settledRound hs.increasing hx).trans hs.round_eq.ge).trans_lt (hnew y hy).2
  · rw [highest_append]
    exact hlookup n _ (hs.lookup_eq n hn)

theorem settled_run {s : List Certificate} (hs : ∀ c ∈ s, 1 ≤ c.round)
    (hfits : self.machine.Along self.TriggerFits s) (h : self.machine.state s = .ok state) :
    Settled self (self.triggers s) (self.output s) state := by
  refine (output_induct (P := fun pre state out => Settled self (self.triggers pre) out state)
    (Q := fun _ => True) settled_new ?_ fun _ _ _ _ => trivial).1 state h
  intro pre c state result hpre hstate hsettled hp
  rw [triggers_snoc hstate]
  exact hsettled.process (hs c (hpre.subset (by simp))) (hstate ▸ hfits pre c hpre) hp

/-- Where the task stands when these leaders have triggered a commit, in order, and these
certificates have been sent. -/
structure Progress (task : Consensus) (triggers sent : List Certificate) (state : State) :
    Prop where
  /-- It stands at the last trigger. -/
  settled : state.lastCommittedRound = settledRound triggers
  maximum : state.lastCommittedRound = state.lastCommitted.values.foldl max 0
  steady : task.dynamic = false → state.lastCommittedRound % 2 = 0
  fallback : task.dynamic = true → state.lastCommittedRound = 0 ∨ state.lastCommittedRound % 4 = 2
  increasing : triggers.Pairwise fun x y => x.round < y.round
  /-- The task knows the highest round sent of every authority. -/
  recorded : ∀ n ∈ task.committee.authorities.keys,
    state.lastCommitted.lookup n = some (highest n sent)

/-- **Commit progress**, in every run on certificates above round zero that does not panic and in
which no trigger's sum overflows. -/
theorem progress {s : List Certificate} (hs : ∀ c ∈ s, 1 ≤ c.round)
    (hfits : self.machine.Along self.TriggerFits s) (h : self.machine.state s = .ok state) :
    Progress self (self.triggers s) (self.output s) state := by
  have hsettled := settled_run hs hfits h
  have hwhere := onSchedule_settledRound hsettled.onSchedule
  rw [← hsettled.round_eq, OnSchedule] at hwhere
  refine ⟨hsettled.round_eq, hsettled.max.eq_foldl_max, fun hsteady => ?_, fun hdynamic => ?_,
    hsettled.increasing, hsettled.lookup_eq⟩
  · rw [hsteady, if_neg Bool.false_ne_true] at hwhere
    omega
  · rw [hdynamic, if_pos rfl] at hwhere
    exact hwhere

end Triggers

/-! ## A run with a repetition and an equivocation -/

namespace Untidy

open Sample

def task : Consensus := ⟨committee4, 50, false⟩

set_option maxRecDepth 100000 in
theorem triggers_history : (∀ x ∈ history, 1 ≤ x.round) ∧ task.triggers history = [b 3] ∧
    task.machine.Along task.TriggerFits history ∧ (task.machine.state history).isOk = true := by
  decide +kernel

theorem progress_history : ∃ state, task.machine.state history = .ok state ∧
    Progress task [b 3] (task.output history) state := by
  obtain ⟨hpositive, htriggers, hfits, hok⟩ := triggers_history
  have hstate := state_eq_reached_of_isOk hok
  exact ⟨_, hstate, htriggers ▸ progress hpositive hfits hstate⟩

end Untidy

/-! ## A trigger that is left out of its own sub-DAG

One authority with all the stake, and a `gc_depth` of `2 ^ 64 - 3`: `4 + gc_depth` is 1, below the
last committed round. -/

namespace LostTrigger

open Sample

def task : Consensus := ⟨committee1, 2 ^ 64 - 3, false⟩

def received : List Certificate := [chain 1, chain 2, chain 3, chain 4, chain 5]

set_option maxRecDepth 100000 in
theorem evaluated : (∀ x ∈ received, 1 ≤ x.round) ∧ (task.machine.state received).isOk = true ∧
    task.triggers received = [chain 2, chain 4] ∧
    (task.reached received).lastCommittedRound = 2 := by
  decide +kernel

/-- **The last committed round is not that of the last trigger.** -/
theorem stays_behind : (∀ x ∈ received, 1 ≤ x.round) ∧
    task.machine.state received = .ok (task.reached received) ∧
    ¬ Progress task (task.triggers received) (task.output received) (task.reached received) := by
  obtain ⟨hpositive, hok, htriggers, hround⟩ := evaluated
  refine ⟨hpositive, state_eq_reached_of_isOk hok, fun h => ?_⟩
  have hsettled := h.settled
  rw [htriggers, hround] at hsettled
  exact absurd hsettled (by decide)

end LostTrigger

end Consensus

end Bullshark
