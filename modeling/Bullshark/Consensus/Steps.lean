import Bullshark.Consensus.Verdict
import Bullshark.Machinery.Fallible

/-!
# Consensus/Steps — one turn of the main loop, and whole runs

`process_spec` says what one turn does, in both modes and without panics; `inv_run` carries the
invariant along every delivery of certificates in which no commit takes a sum of a round and
`gc_depth` that overflows (`Fits`).
-/

namespace Bullshark

variable [Crypto]

namespace Consensus

variable {self : Consensus} {G : Universe self.committee}

open Universe

variable {s out : List Certificate} {state : State}

/-! ## The condition on a step -/

/-- If this verdict commits a leader, no sum of a round of the DAG and `gc_depth` overflows. -/
def CommitsFit (self : Consensus) (state : State) : Except Panic Verdict → Prop
  | .ok (.commit _ _) => state.dag.SumsFit self.gcDepth
  | _ => True

/-- No sum of a round of the DAG and `gc_depth` overflows where the step commits a leader: these are
the sums that `order_dag` and `update` take. -/
def Fits (self : Consensus) : Except Panic State → Certificate → Prop
  | .ok state, c => self.CommitsFit (state.insert c) (self.verdict (state.insert c) c.round)
  | .error _, _ => True

instance (state : State) :
    ∀ verdict : Except Panic Verdict, Decidable (self.CommitsFit state verdict)
  | .ok (.commit _ _) => inferInstanceAs (Decidable (state.dag.SumsFit self.gcDepth))
  | .ok (.skip _) => .isTrue trivial
  | .ok .wait => .isTrue trivial
  | .error _ => .isTrue trivial

instance : ∀ (state : Except Panic State) (c : Certificate), Decidable (self.Fits state c)
  | .ok state, c => inferInstanceAs (Decidable (self.CommitsFit (state.insert c) _))
  | .error _, _ => .isTrue trivial

theorem Fits.sumsFit {c leader : Certificate} {lr : ℕ} (h : self.Fits (.ok state) c)
    (hv : self.verdict (state.insert c) c.round = .ok (.commit lr leader)) :
    (state.insert c).dag.SumsFit self.gcDepth := by
  rwa [Fits, hv] at h

/-- A backed leader of a due round may be committed, where no sum overflows. -/
theorem Backed.committable (hinv : self.Inv G s out state) {round lr : ℕ} {leader : Certificate}
    (hb : self.Backed G state round lr leader) (hdue : self.Due state round lr)
    (hsums : state.dag.SumsFit self.gcDepth) : self.Committable G s state leader where
  known := hinv.known _ hb.holds
  above := hb.atRound.symm ▸ hdue.above
  fits := hsums.of_get hb.holds
  sums := hsums

/-! ## The walk back through past leaders -/

omit [Crypto] in
theorem stepByTwo_sublist {α : Type*} : ∀ l : List α, (stepByTwo l).Sublist l
  | [] => .slnil
  | [_] => .refl _
  | a :: b :: l => ((stepByTwo_sublist l).cons b).cons_cons a

omit [Crypto] in
theorem walkRounds_pairwise (low high : ℕ) : (walkRounds low high).Pairwise (· > ·) := by
  refine List.Pairwise.sublist (stepByTwo_sublist _) (List.pairwise_reverse.mpr ?_)
  exact List.pairwise_lt_range'

omit [Crypto] in
theorem mem_walkRounds {low high r : ℕ} (h : r ∈ walkRounds low high) : low + 2 ≤ r ∧ r < high := by
  have := List.mem_range'_1.mp (List.mem_reverse.mp ((stepByTwo_sublist _).subset h))
  omega

omit [Crypto] in
theorem leader_eq (hsize : 0 < self.committee.size) (r : ℕ) :
    ∃ key, self.leaderKey r = .ok key ∧ ∀ dag : Dag, self.leader r dag = .ok (dag.get r key) := by
  obtain ⟨key, hkey⟩ := leaderKey_ok hsize r
  exact ⟨key, hkey, fun dag => by rw [leader, hkey]; rfl⟩

omit [Crypto] in
theorem orderLeadersStep_none {dag : Dag} {acc : List Certificate × Certificate} {r : ℕ}
    (h : self.leader r dag = .ok none) : self.orderLeadersStep dag acc r = .ok acc := by
  rw [orderLeadersStep, h]
  rfl

omit [Crypto] in
theorem orderLeadersStep_some {dag : Dag} {acc : List Certificate × Certificate} {r : ℕ}
    {e : Digest × Certificate} (h : self.leader r dag = .ok (some e)) {linkedTo : Bool}
    (hlinked : linked acc.2 e.2 dag = .ok linkedTo) :
    self.orderLeadersStep dag acc r
      = .ok (if linkedTo then (acc.1 ++ [e.2], e.2) else acc) := by
  rw [orderLeadersStep, h]
  simp only [bind, Except.bind, hlinked]
  cases linkedTo <;> rfl

omit [Crypto] in
/-- **What a turn of the walk does**: it selects the leader of the round if there is one and it is
linked. -/
theorem orderLeadersStep_cases {dag : Dag} {acc acc' : List Certificate × Certificate} {r : ℕ}
    (h : self.orderLeadersStep dag acc r = .ok acc') :
    (self.leader r dag = .ok none ∧ acc' = acc) ∨
      ∃ e linkedTo, self.leader r dag = .ok (some e) ∧ linked acc.2 e.2 dag = .ok linkedTo ∧
        acc' = if linkedTo then (acc.1 ++ [e.2], e.2) else acc := by
  obtain ⟨found, hfound, hrest⟩ := Except.bind_eq_ok_iff.mp h
  cases found with
  | none =>
    rw [orderLeadersStep_none hfound] at h
    exact Or.inl ⟨hfound, (Except.ok.inj h).symm⟩
  | some e =>
    obtain ⟨linkedTo, hlinked, -⟩ := Except.bind_eq_ok_iff.mp hrest
    rw [orderLeadersStep_some hfound hlinked] at h
    exact Or.inr ⟨e, linkedTo, hfound, hlinked, (Except.ok.inj h).symm⟩

/-- The leaders selected by the walk: known, above the last committed round, from the newest to
the oldest. -/
structure Selected {committee : Committee} (G : Universe committee) (s : List Certificate)
    (low : ℕ) (acc : List Certificate × Certificate) : Prop where
  known : ∀ x ∈ acc.1, G.Known s x ∧ low < x.round
  descends : acc.1.Pairwise fun x y => y.round < x.round
  latest : acc.2 ∈ acc.1
  oldest : ∀ x ∈ acc.1, acc.2.round ≤ x.round

/-- The walk starts with the trigger. -/
theorem selected_leader {committee : Committee} {H : Universe committee} {low : ℕ}
    {leader : Certificate} (hl : H.Known s leader) (hlt : low < leader.round) :
    Selected H s low ([leader], leader) := by
  refine ⟨fun x hx => ?_, List.pairwise_singleton _ _, List.mem_cons_self, fun x hx => ?_⟩
  · rw [List.mem_singleton.mp hx]
    exact ⟨hl, hlt⟩
  · rw [List.mem_singleton.mp hx]

/-- One turn of the walk does not panic, and selects at most the leader of the round. -/
theorem orderLeadersStep_spec (hinv : self.Inv G s out state) (hs : G.Delivery s)
    {acc : List Certificate × Certificate} (hacc : Selected G s state.lastCommittedRound acc)
    {r : ℕ} (hlow : state.lastCommittedRound < r) (hr : r < acc.2.round) :
    ∃ acc', self.orderLeadersStep state.dag acc r = .ok acc' ∧
      Selected G s state.lastCommittedRound acc' ∧ r ≤ acc'.2.round ∧ acc.1 <+: acc'.1 := by
  have hlatest := (hacc.known _ hacc.latest).1
  obtain ⟨key, -, hleader⟩ := leader_eq (size_pos (hlatest.mem hs)) r
  replace hleader := hleader state.dag
  cases hget : state.dag.get r key with
  | none =>
    rw [hget] at hleader
    exact ⟨acc, orderLeadersStep_none hleader, hacc, hr.le, List.prefix_rfl⟩
  | some e =>
    rw [hget] at hleader
    obtain ⟨-, her, -, heG⟩ := hinv.entries _ _ _ hget
    have heknown := hinv.known _ (hinv.entries.holds hget)
    have hlinked := linked_eq hinv.entries (hlatest.mem hs) heG (by omega)
      (hinv.complete hs hlatest (by omega))
    have hstep := orderLeadersStep_some hleader hlinked
    by_cases hreach : G.Reaches acc.2 e.2
    · simp only [hreach, decide_true, if_true] at hstep
      refine ⟨_, hstep, ⟨?_, ?_, ?_, ?_⟩, her.ge, List.prefix_append _ _⟩
      · intro x hx
        rcases List.mem_append.mp hx with hx | hx
        · exact hacc.known x hx
        · rw [List.mem_singleton.mp hx]
          exact ⟨heknown, by omega⟩
      · refine List.pairwise_append.mpr ⟨hacc.descends, List.pairwise_singleton _ _, ?_⟩
        intro x hx y hy
        have := hacc.oldest x hx
        rw [List.mem_singleton.mp hy]
        omega
      · exact List.mem_append_right _ List.mem_cons_self
      · intro x hx
        rcases List.mem_append.mp hx with hx | hx
        · have := hacc.oldest x hx
          exact (show e.2.round ≤ x.round by omega)
        · rw [List.mem_singleton.mp hx]
    · simp only [hreach, decide_false, Bool.false_eq_true, if_false] at hstep
      exact ⟨acc, hstep, hacc, hr.le, List.prefix_rfl⟩

theorem foldlM_orderLeadersStep (hinv : self.Inv G s out state) (hs : G.Delivery s) :
    ∀ (rs : List ℕ) {acc : List Certificate × Certificate},
      Selected G s state.lastCommittedRound acc → rs.Pairwise (· > ·) →
      (∀ r ∈ rs, state.lastCommittedRound < r ∧ r < acc.2.round) →
      ∃ acc', rs.foldlM (self.orderLeadersStep state.dag) acc = .ok acc' ∧
        Selected G s state.lastCommittedRound acc' ∧ acc.1 <+: acc'.1
  | [], acc, hacc, _, _ => ⟨acc, rfl, hacc, List.prefix_rfl⟩
  | r :: rs, acc, hacc, hdesc, hbound => by
      obtain ⟨hlow, hr⟩ := hbound r List.mem_cons_self
      obtain ⟨acc₁, h₁, hacc₁, hle, hpre⟩ := orderLeadersStep_spec hinv hs hacc hlow hr
      obtain ⟨hhead, htail⟩ := List.pairwise_cons.mp hdesc
      obtain ⟨acc₂, h₂, hacc₂, hpre₂⟩ := foldlM_orderLeadersStep hinv hs rs hacc₁ htail
        fun r' hr' => ⟨(hbound r' (List.mem_cons_of_mem _ hr')).1,
          (show r' < r from hhead r' hr').trans_le hle⟩
      refine ⟨acc₂, ?_, hacc₂, hpre.trans hpre₂⟩
      rw [List.foldlM_cons, h₁]
      exact h₂

/-- The leaders `order_leaders` returns: from the trigger down, each older than the one before. -/
structure Leaders {committee : Committee} (G : Universe committee) (s : List Certificate)
    (low : ℕ) (leader : Certificate) (leaders : List Certificate) : Prop where
  known : ∀ x ∈ leaders, G.Known s x ∧ low < x.round
  descends : leaders.Pairwise fun x y => y.round < x.round
  first : [leader] <+: leaders

section

variable {committee : Committee} {H : Universe committee} {low : ℕ} {leader : Certificate}
  {leaders : List Certificate}

theorem Leaders.known_reverse (h : Leaders H s low leader leaders) :
    ∀ x ∈ leaders.reverse, H.Known s x ∧ low < x.round := fun x hx =>
  h.known x (List.mem_reverse.mp hx)

theorem Leaders.rises (h : Leaders H s low leader leaders) :
    leaders.reverse.Pairwise fun x y => x.round < y.round := List.pairwise_reverse.mpr h.descends

theorem Leaders.round_le (h : Leaders H s low leader leaders) : ∀ x ∈ leaders,
    x.round ≤ leader.round := by
  obtain ⟨older, rfl⟩ := h.first
  intro x hx
  rcases List.mem_cons.mp hx with rfl | hx
  · exact le_rfl
  · exact ((List.pairwise_cons.mp h.descends).1 x hx).le

end

/-- With the trigger, all of the leaders may be committed. -/
theorem Leaders.committable {leader : Certificate} {leaders : List Certificate}
    (h : Leaders G s state.lastCommittedRound leader leaders)
    (hl : self.Committable G s state leader) :
    ∀ x ∈ leaders.reverse, self.Committable G s state x := by
  intro x hx
  obtain ⟨hknown, habove⟩ := h.known_reverse x hx
  have hle := h.round_le x (List.mem_reverse.mp hx)
  exact ⟨hknown, habove, (Nat.add_le_add_right hle _).trans_lt hl.fits, hl.sums⟩

/-- **`order_leaders` does not panic**, and returns leaders above the last committed round. -/
theorem orderLeaders_spec (hinv : self.Inv G s out state) (hs : G.Delivery s)
    {leader : Certificate} (hl : G.Known s leader) (hlt : state.lastCommittedRound < leader.round) :
    ∃ leaders, self.orderLeaders leader state = .ok leaders ∧
      Leaders G s state.lastCommittedRound leader leaders := by
  obtain ⟨acc, h, hacc, hpre⟩ := foldlM_orderLeadersStep hinv hs _
    (selected_leader hl hlt)
    (walkRounds_pairwise state.lastCommittedRound leader.round) fun r hr => by
      have := mem_walkRounds hr
      exact ⟨by omega, this.2⟩
  exact ⟨acc.1, by rw [orderLeaders, h]; rfl, hacc.known, hacc.descends, hpre⟩

omit [Crypto] in
/-- **Where no past leader on the walk is linked, only the trigger is committed.** -/
theorem orderLeaders_eq_singleton (hsize : 0 < self.committee.size) {leader : Certificate}
    (h : ∀ r ∈ walkRounds state.lastCommittedRound leader.round, ∀ e,
      self.leader r state.dag = .ok (some e) → linked leader e.2 state.dag = .ok false) :
    self.orderLeaders leader state = .ok [leader] := by
  have key : ∀ rs : List ℕ, (∀ r ∈ rs, ∀ e, self.leader r state.dag = .ok (some e) →
      linked leader e.2 state.dag = .ok false) →
      rs.foldlM (self.orderLeadersStep state.dag) ([leader], leader) = .ok ([leader], leader) := by
    intro rs
    induction rs with
    | nil => exact fun _ => rfl
    | cons r rs ih =>
      intro hrs
      have hstep : self.orderLeadersStep state.dag ([leader], leader) r
          = .ok ([leader], leader) := by
        obtain ⟨key, -, hleader⟩ := leader_eq hsize r
        replace hleader := hleader state.dag
        cases hget : state.dag.get r key with
        | none => exact orderLeadersStep_none (hget ▸ hleader)
        | some e =>
          have hfound : self.leader r state.dag = .ok (some e) := hget ▸ hleader
          have hlinked : linked ([leader], leader).2 e.2 state.dag = .ok false :=
            hrs r List.mem_cons_self e hfound
          exact orderLeadersStep_some hfound hlinked
      rw [List.foldlM_cons, hstep]
      exact ih fun r' hr' => hrs r' (List.mem_cons_of_mem _ hr')
  rw [orderLeaders, key _ h]
  rfl

/-! ## Committing several leaders -/

omit [Crypto] in
theorem txOutput_append (l l' : List Emission) : txOutput (l ++ l') = txOutput l ++ txOutput l' :=
  List.flatMap_append

/-- **Induction over the commit loop**: what every commit of a leader keeps, the loop keeps. -/
theorem commitLeaders_induct (hs : G.Delivery s) {P : List Certificate → State → Prop}
    (hP : ∀ out state leader, self.Inv G s out state → self.Committable G s state leader →
      P out state → P (out ++ self.orderDag leader state) (self.commitLeader state leader).1) :
    ∀ {leaders : List Certificate} {state : State} {out : List Certificate},
      self.Inv G s out state → P out state →
      (∀ x ∈ leaders, self.Committable G s state x) →
      (leaders.Pairwise fun x y => x.round < y.round) →
      self.Inv G s (out ++ txOutput (self.commitLeaders state leaders).2)
          (self.commitLeaders state leaders).1 ∧
        P (out ++ txOutput (self.commitLeaders state leaders).2)
          (self.commitLeaders state leaders).1
  | [], _, out, hinv, hp, _, _ => (List.append_nil out).symm ▸ ⟨hinv, hp⟩
  | leader :: leaders, state, out, hinv, hp, hcommit, hrise => by
      obtain ⟨hl, hrest⟩ := List.forall_mem_cons.mp hcommit
      obtain ⟨hhead, htail⟩ := List.pairwise_cons.mp hrise
      have key := commitLeaders_induct hs hP (hinv.commitLeader hs hl)
        (hP out state leader hinv hl hp)
        (fun x hx => hl.commitLeader hinv hs (hrest x hx) (hhead x hx)) htail
      rw [List.append_assoc] at key
      exact key

/-- The last leader of the commit loop is the one in force after it. -/
theorem lastCommittedRound_commitLeaders (hs : G.Delivery s) (hinv : self.Inv G s out state)
    {leader : Certificate} {leaders : List Certificate}
    (h : Leaders G s state.lastCommittedRound leader leaders)
    (hl : self.Committable G s state leader) :
    (self.commitLeaders state leaders.reverse).1.lastCommittedRound = leader.round := by
  obtain ⟨older, rfl⟩ := h.first
  have key : ∀ (ls : List Certificate) {state : State} {out : List Certificate},
      self.Inv G s out state →
      (∀ x ∈ ls ++ [leader], self.Committable G s state x) →
      ((ls ++ [leader]).Pairwise fun x y => x.round < y.round) →
      (self.commitLeaders state (ls ++ [leader])).1.lastCommittedRound = leader.round := by
    intro ls
    induction ls with
    | nil =>
      intro state out hinv hcommit _
      exact lastCommittedRound_commitLeader hinv hs (hcommit leader List.mem_cons_self)
    | cons x ls ih =>
      intro state out hinv hcommit hrise
      obtain ⟨hx, hrest⟩ := List.forall_mem_cons.mp hcommit
      obtain ⟨hhead, htail⟩ := List.pairwise_cons.mp hrise
      exact ih (hinv.commitLeader hs hx)
        (fun y hy => hx.commitLeader hinv hs (hrest y hy) (hhead y hy)) htail
  have hreverse : ([leader] ++ older).reverse = older.reverse ++ [leader] := by simp
  have hcommit := h.committable hl
  have hrises := h.rises
  rw [hreverse] at hcommit hrises ⊢
  exact key older.reverse hinv hcommit hrises

/-! ## The stake of a round -/

/-- The stake of a round depends on what the DAG holds at that round. -/
theorem roundStake_congr {state' : State} (hE : G.Entries state.dag)
    (hE' : G.Entries state'.dag) {r : ℕ}
    (h : ∀ c, c.round = r → (Holds state.dag c ↔ Holds state'.dag c)) :
    self.roundStake state r = self.roundStake state' r := by
  rw [roundStake_eq hE, roundStake_eq hE', authorsOf_congr hE hE' h]

theorem roundStake_insert (hE : G.Entries state.dag) {c : Certificate} (hc : c ∈ G.certs)
    {r : ℕ} (hr : r ≠ c.round) : self.roundStake (state.insert c) r = self.roundStake state r := by
  refine roundStake_congr (entries_insert hE hc) hE fun x hx => ?_
  rw [holds_insert hE hc]
  exact or_iff_right fun hxc => hr (hx ▸ hxc ▸ rfl)

/-- Committing a leader leaves the rounds above it as they are. -/
theorem roundStake_commitLeader (hinv : self.Inv G s out state) (hs : G.Delivery s)
    {leader : Certificate} (hl : self.Committable G s state leader) {r : ℕ}
    (hr : leader.round < r) :
    self.roundStake (self.commitLeader state leader).1 r = self.roundStake state r := by
  have hinv' := hinv.commitLeader hs hl
  refine roundStake_congr hinv'.entries hinv.entries fun x hx => ?_
  rw [holds_commitLeader hinv hs hl]
  refine and_iff_left ⟨State.lastRound_le_iff.mpr fun r' hr' => ?_, by omega⟩
  have := hinv'.max.1 _ _ hr'
  rw [lastCommittedRound_commitLeader hinv hs hl] at this
  omega

/-! ## One turn of the loop -/

/-- Marking a fallback round resolved concerns no other part of the state. -/
theorem Inv.resolve (hinv : self.Inv G s out state) (lr : ℕ) :
    self.Inv G s out (resolve state lr) :=
  ⟨hinv.entries, hinv.known, hinv.kept, hinv.max, hinv.history, hinv.output⟩

theorem Committable.resolve {leader : Certificate} (hl : self.Committable G s state leader)
    (lr : ℕ) : self.Committable G s (resolve state lr) leader :=
  ⟨hl.known, hl.above, hl.fits, hl.sums⟩

/-- What one turn of the loop does with the state `state` that already holds the certificate. -/
inductive Turn (task : Consensus) (G : Universe task.committee) (s : List Certificate)
    (state : State) (round : ℕ) : State × List Emission → Prop
  /-- No leader round is due, or, in steady mode, the leader lacks support. -/
  | wait : (∀ lr, task.Due state round lr → task.dynamic = false ∧
        ∀ leader, ¬ task.Backed G state round lr leader) →
      Turn task G s state round (state, [])
  /-- A fallback round is resolved without a commit. -/
  | skip {lr : ℕ} : task.dynamic = true → task.Due state round lr →
      (∀ leader, ¬ task.Backed G state round lr leader) →
      Turn task G s state round (resolve state lr, [.fallback lr false])
  /-- A fallback is committed. -/
  | fallback {lr : ℕ} {leader : Certificate} : task.dynamic = true → task.Due state round lr →
      task.Backed G state round lr leader → state.dag.SumsFit task.gcDepth →
      Turn task G s state round ((task.commitLeader (resolve state lr) leader).1,
        [.fallback lr true, (task.commitLeader (resolve state lr) leader).2])
  /-- A steady leader is committed, after the past leaders `order_leaders` found. -/
  | steady {lr : ℕ} {leader : Certificate} {leaders : List Certificate} : task.dynamic = false →
      task.Due state round lr → task.Backed G state round lr leader →
      state.dag.SumsFit task.gcDepth → task.orderLeaders leader state = .ok leaders →
      Leaders G s state.lastCommittedRound leader leaders →
      Turn task G s state round (task.commitLeaders state leaders.reverse)

/-- **One turn of the loop**: it does not panic, and it is one of the turns above. -/
theorem process_spec (hinv : self.Inv G s out state) {c : Certificate}
    (hs : G.Delivery (s ++ [c])) (hfits : self.Fits (.ok state) c) :
    ∃ result, self.process state c = .ok result ∧
      Turn self G (s ++ [c]) (state.insert c) c.round result := by
  have hc : c ∈ G.certs := hs.mem c (List.mem_append_right _ List.mem_cons_self)
  have hinv' := hinv.insert hc
  have hhold : Holds (state.insert c).dag c := (holds_insert hinv.entries hc).mpr (Or.inl rfl)
  simp only [process, bind, Except.bind]
  rcases verdict_spec hinv' hs hhold with ⟨hdue, hv⟩ | ⟨lr, hdue, ⟨leader, hb, hv⟩ | ⟨hb, hv⟩⟩
  · exact ⟨_, by rw [hv]; rfl, .wait fun lr hlr => absurd hlr (hdue lr)⟩
  · have hsums := hfits.sumsFit hv
    cases hdyn : self.dynamic with
    | true =>
      refine ⟨_, ?_, .fallback hdyn hdue hb hsums⟩
      rw [hv]
      rfl
    | false =>
      obtain ⟨leaders, hok, hleaders⟩ := orderLeaders_spec hinv' hs (hinv'.known _ hb.holds)
        (hb.atRound.symm ▸ hdue.above)
      refine ⟨_, ?_, .steady hdyn hdue hb hsums hok hleaders⟩
      rw [hv]
      simp only [hok]
      rfl
  · cases hdyn : self.dynamic with
    | true => exact ⟨_, by rw [hv, hdyn]; rfl, .skip hdyn hdue hb⟩
    | false =>
      refine ⟨_, by rw [hv, hdyn]; rfl, .wait fun lr' hlr' => ⟨hdyn, ?_⟩⟩
      have hlr : lr' = lr := by
        have := hlr'.leaderRound
        rw [hdue.leaderRound] at this
        exact (Option.some.inj this).symm
      exact hlr ▸ hb

/-- **Every turn of the loop keeps the invariant.** -/
theorem Turn.inv {round : ℕ} {result : State × List Emission} (hs : G.Delivery s)
    (hinv : self.Inv G s out state) (h : Turn self G s state round result) :
    self.Inv G s (out ++ txOutput result.2) result.1 := by
  cases h with
  | wait _ => exact (List.append_nil out).symm ▸ hinv
  | skip _ _ _ => exact (List.append_nil out).symm ▸ hinv.resolve _
  | @fallback lr leader _ hdue hb hsums =>
    have key := (hinv.resolve lr).commitLeader hs ((hb.committable hinv hdue hsums).resolve lr)
    have hout : txOutput [.fallback lr true, (self.commitLeader (resolve state lr) leader).2]
        = self.orderDag leader (resolve state lr) := List.append_nil _
    rw [hout]
    exact key
  | steady _ hdue hb hsums _ hleaders =>
    exact (commitLeaders_induct hs (P := fun _ _ => True) (fun _ _ _ _ _ _ => trivial) hinv
      trivial (hleaders.committable (hb.committable hinv hdue hsums)) hleaders.rises).1

/-! ## Whole runs -/

theorem step_of_process {c : Certificate} {result : State × List Emission}
    (h : self.process state c = .ok result) :
    self.machine.step (.ok state) c = (.ok result.1, result.2) := by
  simp only [machine, h]

/-- **Every run** in which no sum overflows: the task does not panic, and its state keeps the
invariant. -/
theorem inv_run {s : List Certificate} (hs : G.Delivery s)
    (hfits : self.machine.Along self.Fits s) :
    ∃ state, self.machine.state s = .ok state ∧ self.Inv G s (self.output s) state := by
  induction s using List.reverseRecOn with
  | nil => exact ⟨_, rfl, inv_new⟩
  | append_singleton s c ih =>
    have hpre : s <+: s ++ [c] := List.prefix_append _ _
    obtain ⟨state, hstate, hinv⟩ := ih (hs.of_prefix hpre) (hfits.of_prefix hpre)
    obtain ⟨result, hok, hturn⟩ := process_spec hinv hs (hstate ▸ hfits.last)
    have hstep := step_of_process hok
    refine ⟨result.1, by rw [Mealy.state_snoc, hstate, hstep], ?_⟩
    rw [output, Mealy.outputs_snoc, txOutput_append, hstate, hstep]
    exact hturn.inv hs (hinv.insert (hs.mem c (List.mem_append_right _ List.mem_cons_self)))

/-- The state a run reaches; the initial one, where it panics. -/
def reached (self : Consensus) (s : List Certificate) : State :=
  match self.machine.state s with
  | .ok state => state
  | .error _ => State.new (Certificate.genesis self.committee)

theorem state_eq_reached_of_isOk {s : List Certificate} (h : (self.machine.state s).isOk) :
    self.machine.state s = .ok (self.reached s) := by
  rw [reached]
  cases hstate : self.machine.state s with
  | error p => rw [hstate] at h; cases h
  | ok state => rfl

theorem state_eq_reached {s : List Certificate} (hs : G.Delivery s)
    (hfits : self.machine.Along self.Fits s) : self.machine.state s = .ok (self.reached s) := by
  obtain ⟨state, hstate, -⟩ := inv_run hs hfits
  exact state_eq_reached_of_isOk (by rw [hstate]; rfl)

/-- The last turn of a run. -/
theorem turn_run {s : List Certificate} {c : Certificate} (hs : G.Delivery (s ++ [c]))
    (hfits : self.machine.Along self.Fits (s ++ [c])) :
    ∃ state result, self.machine.state s = .ok state ∧ self.Inv G s (self.output s) state ∧
      self.machine.step (self.machine.state s) c = (.ok result.1, result.2) ∧
      Turn self G (s ++ [c]) (state.insert c) c.round result := by
  have hpre : s <+: s ++ [c] := List.prefix_append _ _
  obtain ⟨state, hstate, hinv⟩ := inv_run (hs.of_prefix hpre) (hfits.of_prefix hpre)
  obtain ⟨result, hok, hturn⟩ := process_spec hinv hs (hstate ▸ hfits.last)
  exact ⟨state, result, hstate, hinv, by rw [hstate, step_of_process hok], hturn⟩

end Consensus

end Bullshark
