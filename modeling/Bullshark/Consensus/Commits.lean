import Bullshark.Consensus.Steps
import Bullshark.Machinery.Fallible

/-!
# Consensus/Commits — what a turn commits, on any input

`Steps` describes the turns of a run on a universe of certificates.  Here nothing is assumed of what
is received: a turn still commits a line of leaders that the DAG holds, above the last committed
round, each with a path to the one before it (`commits_process`), and what it flattens lies on
paths down from them (`descends_of_mem_orderDag`).
-/

namespace Bullshark

namespace Consensus

variable {self : Consensus} {state : State}

/-- An edge of the DAG: it holds `p`, under a digest that `x` names as a parent. -/
def Edge (dag : Dag) (x p : Certificate) : Prop :=
  ∃ r n d, dag.get r n = some (d, p) ∧ d ∈ x.header.parents

/-- A path down the DAG of one edge or more. -/
abbrev Descends (dag : Dag) : Certificate → Certificate → Prop := Relation.TransGen (Edge dag)

/-! ## Flattening -/

/-- What `order_dag` may push. -/
theorem mem_successors {x : Certificate} {e : Digest × Certificate} (h : e ∈ successors state x) :
    e.1 ∈ x.header.parents ∧ (∃ r n, state.dag.get r n = some e) ∧
      alreadyCommitted state e.2 = false := by
  obtain ⟨d, hd, hfound⟩ := List.mem_filterMap.mp h
  obtain ⟨hfind, hnew⟩ := Option.filter_eq_some_iff.mp hfound
  obtain ⟨authorities, hlookup, hvalues⟩ := Option.bind_eq_some_iff.mp hfind
  obtain ⟨n, hn⟩ := AList.mem_values.mp (List.mem_of_find?_eq_some hvalues)
  refine ⟨?_, ⟨_, n, Option.bind_eq_some_iff.mpr ⟨authorities, hlookup, hn⟩⟩, by simpa using hnew⟩
  have hdigest : e.1 = d := by simpa using List.find?_some hvalues
  rw [hdigest]
  exact hd

theorem edge_of_mem_successors {x : Certificate} {e : Digest × Certificate}
    (h : e ∈ successors state x) : Edge state.dag x e.2 := by
  obtain ⟨hparent, ⟨r, n, hget⟩, -⟩ := mem_successors h
  exact ⟨r, n, e.1, hget, hparent⟩

theorem descends_of_reach {x y z : Certificate} {k : Digest} (hy : (k, y) ∈ successors state x)
    (h : Search.Reach (successors state) y z) : Descends state.dag x z := by
  induction h with
  | refl => exact .single (edge_of_mem_successors hy)
  | tail _ hstep ih =>
    obtain ⟨k, hk⟩ := hstep
    exact ih.tail (edge_of_mem_successors hk)

/-- **What a leader commits**: itself, and what lies below it in the DAG and is not the last
committed certificate of its author. -/
theorem descends_of_mem_orderDag {leader y : Certificate} (h : y ∈ self.orderDag leader state) :
    y = leader ∨ (Descends state.dag leader y ∧ (∃ r n d, state.dag.get r n = some (d, y)) ∧
      alreadyCommitted state y = false) := by
  rw [orderDag, List.mem_insertionSort, List.mem_filter] at h
  obtain ⟨x, hx, hreach⟩ := (visits_orderDagLoop state leader).reach y h.1
  obtain rfl := List.mem_singleton.mp hx
  rcases Relation.ReflTransGen.cases_head hreach with heq | ⟨z, ⟨k, hk⟩, hzy⟩
  · exact Or.inl heq.symm
  · refine Or.inr ⟨descends_of_reach hk hzy, ?_⟩
    rcases Relation.ReflTransGen.cases_tail hreach with heq | ⟨w, -, k', hk'⟩
    · subst heq
      obtain ⟨w, -, k', hk'⟩ := Relation.TransGen.tail'_iff.mp (.head' ⟨k, hk⟩ hzy)
      obtain ⟨-, ⟨r, n, hget⟩, hnew⟩ := mem_successors hk'
      exact ⟨⟨r, n, k', hget⟩, hnew⟩
    · obtain ⟨-, ⟨r, n, hget⟩, hnew⟩ := mem_successors hk'
      exact ⟨⟨r, n, k', hget⟩, hnew⟩

/-! ## The leaders -/

theorem two_le_leaderRound {round lr : ℕ} (h : self.leaderRound round = some lr) : 2 ≤ lr := by
  rw [leaderRound] at h
  split at h
  · split at h
    · cases h
    · next hround =>
      cases h
      omega
  · split at h
    · cases h
    · next hround =>
      cases h
      omega

/-- A leader is an entry of the DAG at its round. -/
theorem exists_get_of_leader {r : ℕ} {e : Digest × Certificate}
    (h : self.leader r state.dag = .ok (some e)) : ∃ n, state.dag.get r n = some e := by
  obtain ⟨key, -, hget⟩ := Except.bind_eq_ok_iff.mp h
  exact ⟨key, Except.ok.inj hget⟩

theorem exists_get_of_selected {r : ℕ} {e : Digest × Certificate}
    (h : self.selected r state.dag = .ok (some e)) : ∃ n, state.dag.get r n = some e := by
  rw [selected] at h
  split at h
  · obtain ⟨key, -, hget⟩ := Except.bind_eq_ok_iff.mp h
    obtain ⟨n, -, hn⟩ := Option.bind_eq_some_iff.mp (Except.ok.inj hget)
    exact ⟨n, hn⟩
  · exact exists_get_of_leader h

/-- A leader to commit is in the DAG, at the leader round of the certificate and above the last
committed round. -/
theorem exists_get_of_verdict {round lr : ℕ} {leader : Certificate}
    (hv : self.verdict state round = .ok (.commit lr leader)) :
    self.leaderRound round = some lr ∧ state.lastCommittedRound < lr ∧
      ∃ n d, state.dag.get lr n = some (d, leader) := by
  rw [verdict] at hv
  cases hlr : self.leaderRound round with
  | none =>
    rw [hlr] at hv
    cases hv
  | some lr' =>
    rw [hlr] at hv
    dsimp only at hv
    split at hv
    · cases hv
    next habove =>
    split at hv
    · cases hv
    split at hv
    · cases hv
    obtain ⟨selected, hselected, hv⟩ := Except.bind_eq_ok_iff.mp hv
    cases selected with
    | none =>
      have heq := Except.ok.inj hv
      split at heq <;> cases heq
    | some e =>
      obtain ⟨stake, -, hv⟩ := Except.bind_eq_ok_iff.mp hv
      obtain ⟨n, hn⟩ := exists_get_of_selected hselected
      split at hv
      · have heq := Except.ok.inj hv
        split at heq <;> cases heq
      · cases hv
        exact ⟨rfl, not_le.mp habove, n, e.1, hn⟩

/-- The DAG files every certificate under its digest, its round and its author. -/
def Keyed [Crypto] (dag : Dag) : Prop :=
  ∀ r n e, dag.get r n = some e → e.1 = e.2.digest ∧ e.2.round = r ∧ e.2.origin = n

section Keyed

variable [Crypto]

theorem keyed_new (committee : Committee) :
    Keyed (State.new (Certificate.genesis committee)).dag := by
  intro r n e he
  obtain ⟨rfl, c, hc, horigin, rfl⟩ := get_new.mp he
  exact ⟨rfl, round_genesis hc, horigin⟩

theorem Keyed.insert (h : Keyed state.dag) (c : Certificate) : Keyed (state.insert c).dag := by
  intro r n e he
  rw [State.get_insert] at he
  split at he
  · next hkey =>
    cases he
    exact ⟨rfl, hkey.1.symm, hkey.2.symm⟩
  · exact h r n e he

theorem Keyed.updateAll (h : Keyed state.dag) (gc : ℕ) (ys : List Certificate) :
    Keyed (State.updateAll gc state ys).dag := fun r n e he =>
  h r n e (State.get_of_get_updateAll gc he)

omit [Crypto] in
/-- The layers that `linked` walks through lie below the leader. -/
theorem descends_of_foldlM_linkedStep {dag : Dag} {leader : Certificate} :
    ∀ {rounds : List ℕ} {parents : List Certificate}, rounds ≠ [] →
      rounds.foldlM (linkedStep dag) [leader] = .ok parents →
      ∀ x ∈ parents, Descends dag leader x ∧ ∃ r n d, dag.get r n = some (d, x) := by
  intro rounds
  have hstep : ∀ {r : ℕ} {ps qs : List Certificate}, linkedStep dag ps r = .ok qs →
      (∀ y ∈ ps, y = leader ∨ Descends dag leader y) →
      ∀ x ∈ qs, Descends dag leader x ∧ ∃ r n d, dag.get r n = some (d, x) := by
    intro r ps qs hqs hps x hx
    rw [linkedStep] at hqs
    cases hlookup : dag.lookup r with
    | none =>
      rw [hlookup] at hqs
      cases hqs
    | some authorities =>
      rw [hlookup] at hqs
      cases hqs
      obtain ⟨e, he, rfl⟩ := List.mem_map.mp hx
      obtain ⟨he, hany⟩ := List.mem_filter.mp he
      obtain ⟨y, hy, hd⟩ := List.any_eq_true.mp hany
      obtain ⟨n, hn⟩ := AList.mem_values.mp he
      have hget : dag.get r n = some e := Option.bind_eq_some_iff.mpr ⟨authorities, hlookup, hn⟩
      have hedge : Edge dag y e.2 := ⟨r, n, e.1, hget, of_decide_eq_true hd⟩
      refine ⟨?_, r, n, e.1, hget⟩
      rcases hps y hy with rfl | hdesc
      · exact .single hedge
      · exact hdesc.tail hedge
  have hfold : ∀ (rounds : List ℕ) (ps parents : List Certificate),
      (∀ y ∈ ps, Descends dag leader y ∧ ∃ r n d, dag.get r n = some (d, y)) →
      rounds.foldlM (linkedStep dag) ps = .ok parents →
      ∀ x ∈ parents, Descends dag leader x ∧ ∃ r n d, dag.get r n = some (d, x) := by
    intro rounds
    induction rounds with
    | nil =>
      intro ps parents hps h
      cases h
      exact hps
    | cons r rounds ih =>
      intro ps parents hps h
      obtain ⟨qs, hqs, h⟩ := Except.bind_eq_ok_iff.mp h
      exact ih qs parents (hstep hqs fun y hy => Or.inr (hps y hy).1) h
  intro parents hne h
  cases rounds with
  | nil => exact absurd rfl hne
  | cons r rounds =>
    obtain ⟨qs, hqs, h⟩ := Except.bind_eq_ok_iff.mp h
    exact hfold rounds qs parents
      (hstep hqs fun y hy => Or.inl (List.mem_singleton.mp hy)) h

/-- **A path that `linked` finds is a path of the DAG.** -/
theorem descends_of_linked {dag : Dag} (hk : Keyed dag) {x y : Certificate} {n : PublicKey}
    {d : Digest} (hy : dag.get y.round n = some (d, y)) (hlt : y.round < x.round)
    (h : linked x y dag = .ok true) : Descends dag x y := by
  obtain ⟨parents, hparents, h⟩ := Except.bind_eq_ok_iff.mp h
  have hne : (List.range' y.round (x.round - y.round)).reverse ≠ [] := by
    simp only [ne_eq, List.reverse_eq_nil_iff, List.range'_eq_nil_iff]
    omega
  obtain ⟨z, hz, heq⟩ := List.any_eq_true.mp (Except.ok.inj h)
  obtain ⟨hdesc, r, m, d', hget⟩ := descends_of_foldlM_linkedStep hne hparents z hz
  simp only [Certificate.partialEq, Bool.and_eq_true, decide_eq_true_eq] at heq
  obtain ⟨-, hround, horigin⟩ := hk _ _ _ hget
  obtain ⟨-, -, horigin'⟩ := hk _ _ _ hy
  have hr : r = y.round := hround.symm.trans heq.1.2
  have hm : m = n := horigin.symm.trans (heq.2.trans horigin')
  rw [hr, hm, hy] at hget
  cases hget
  exact hdesc

end Keyed

/-- The leaders of a commit, the oldest first: in the DAG, above the last committed round, each with
a path to those before it. -/
structure Lineup (state : State) (leaders : List Certificate) : Prop where
  held : ∀ l ∈ leaders, ∃ n d, state.dag.get l.round n = some (d, l)
  above : ∀ l ∈ leaders, state.lastCommittedRound < l.round
  two_le : ∀ l ∈ leaders, 2 ≤ l.round
  path : leaders.Pairwise fun x y => Descends state.dag y x

/-- What a turn does to the state that holds the certificate received, and what it sends. -/
inductive Commits (task : Consensus) (state : State) : State × List Emission → Prop
  | wait : Commits task state (state, [])
  | skip (lr : ℕ) : Commits task state (resolve state lr, [.fallback lr false])
  | fallback (lr : ℕ) {leader : Certificate} (h : Lineup state [leader]) :
      Commits task state ((task.commitLeaders (resolve state lr) [leader]).1,
        .fallback lr true :: (task.commitLeaders (resolve state lr) [leader]).2)
  | steady {leaders : List Certificate} (h : Lineup state leaders) :
      Commits task state (task.commitLeaders state leaders)

variable [Crypto]

theorem Keyed.commitLeaders {leaders : List Certificate} : ∀ {state : State}, Keyed state.dag →
    Keyed (self.commitLeaders state leaders).1.dag := by
  induction leaders with
  | nil => exact fun h => h
  | cons leader leaders ih =>
    exact fun {state} h => ih (h.updateAll self.gcDepth (self.orderDag leader state))

theorem Commits.keyed {result : State × List Emission} (h : Commits self state result)
    (hk : Keyed state.dag) : Keyed result.1.dag := by
  cases h with
  | wait => exact hk
  | skip lr => exact hk
  | fallback lr _ =>
    have hresolved : Keyed (resolve state lr).dag := hk
    exact hresolved.commitLeaders
  | steady _ => exact hk.commitLeaders

/-- The leaders that the walk back selected so far are a line down to the latest of them. -/
structure Backtracked (state : State) (acc : List Certificate × Certificate) : Prop where
  line : Lineup state acc.1.reverse
  path : ∀ x ∈ acc.1, x = acc.2 ∨ Descends state.dag x acc.2

theorem Backtracked.step (hk : Keyed state.dag) {acc acc' : List Certificate × Certificate}
    (h : Backtracked state acc) {r : ℕ} (hlow : state.lastCommittedRound + 2 ≤ r)
    (hhigh : r < acc.2.round) (hstep : self.orderLeadersStep state.dag acc r = .ok acc') :
    Backtracked state acc' ∧ (acc' = acc ∨ acc'.2.round = r) := by
  rcases orderLeadersStep_cases hstep with ⟨-, rfl⟩ | ⟨e, linkedTo, hfound, hlinked, rfl⟩
  · exact ⟨h, Or.inl rfl⟩
  cases linkedTo with
  | false => exact ⟨h, Or.inl rfl⟩
  | true =>
    obtain ⟨n, hn⟩ := exists_get_of_leader hfound
    obtain ⟨-, hround, -⟩ := hk _ _ _ hn
    have hheld : state.dag.get e.2.round n = some (e.1, e.2) := hround ▸ hn
    have hnew : Descends state.dag acc.2 e.2 := descends_of_linked hk hheld (by omega) hlinked
    have hpath : ∀ x ∈ acc.1, Descends state.dag x e.2 := by
      intro x hx
      rcases h.path x hx with rfl | hx
      · exact hnew
      · exact hx.trans hnew
    refine ⟨⟨?_, fun x hx => ?_⟩, Or.inr hround⟩
    · rw [if_pos rfl, List.reverse_append, List.reverse_singleton, List.singleton_append]
      refine ⟨?_, ?_, ?_, ?_⟩
      · exact List.forall_mem_cons.mpr ⟨⟨n, e.1, hheld⟩, h.line.held⟩
      · exact List.forall_mem_cons.mpr ⟨by omega, h.line.above⟩
      · exact List.forall_mem_cons.mpr ⟨by omega, h.line.two_le⟩
      · exact List.pairwise_cons.mpr ⟨fun x hx => hpath x (List.mem_reverse.mp hx), h.line.path⟩
    · rcases List.mem_append.mp hx with hx | hx
      · exact Or.inr (hpath x hx)
      · exact Or.inl (List.mem_singleton.mp hx)

theorem Backtracked.foldlM (hk : Keyed state.dag) : ∀ {rounds : List ℕ}
    {acc acc' : List Certificate × Certificate}, Backtracked state acc →
    rounds.Pairwise (· > ·) → (∀ r ∈ rounds, state.lastCommittedRound + 2 ≤ r ∧ r < acc.2.round) →
    rounds.foldlM (self.orderLeadersStep state.dag) acc = .ok acc' → Backtracked state acc'
  | [], _, _, h, _, _, ho => by
      cases ho
      exact h
  | r :: rounds, acc, acc', h, hdesc, hbound, ho => by
      obtain ⟨hhead, htail⟩ := List.pairwise_cons.mp hdesc
      obtain ⟨⟨hlow, hhigh⟩, hrest⟩ := List.forall_mem_cons.mp hbound
      obtain ⟨acc₁, hstep, ho⟩ := Except.bind_eq_ok_iff.mp ho
      obtain ⟨hline, hround⟩ := h.step hk hlow hhigh hstep
      refine hline.foldlM hk htail (fun r' hr' => ⟨(hrest r' hr').1, ?_⟩) ho
      rcases hround with rfl | hround
      · exact (hrest r' hr').2
      · exact hround ▸ hhead r' hr'

/-- **The walk back selects a line of leaders.** -/
theorem lineup_orderLeaders (hk : Keyed state.dag) {leader : Certificate}
    {leaders : List Certificate} (hl : Lineup state [leader])
    (h : self.orderLeaders leader state = .ok leaders) : Lineup state leaders.reverse := by
  obtain ⟨acc, hacc, ho⟩ := Except.bind_eq_ok_iff.mp h
  cases ho
  have hstart : Backtracked state ([leader], leader) :=
    ⟨hl, fun x hx => Or.inl (List.mem_singleton.mp hx)⟩
  exact (hstart.foldlM hk (walkRounds_pairwise _ _) (fun r hr => mem_walkRounds hr) hacc).line

/-- The leader a turn decides to commit is a line of its own. -/
theorem lineup_of_verdict (hk : Keyed state.dag) {round lr : ℕ} {leader : Certificate}
    (hv : self.verdict state round = .ok (.commit lr leader)) : Lineup state [leader] := by
  obtain ⟨hlr, habove, n, d, hget⟩ := exists_get_of_verdict hv
  obtain ⟨-, hround, -⟩ := hk _ _ _ hget
  refine ⟨?_, ?_, ?_, List.pairwise_singleton _ _⟩
  · simpa using ⟨n, d, hround ▸ hget⟩
  · simpa using hround.symm ▸ habove
  · simpa using hround.symm ▸ two_le_leaderRound hlr

/-- **What a turn of the main loop does**, whatever it receives. -/
theorem commits_process (hk : Keyed state.dag) {c : Certificate} {result : State × List Emission}
    (h : self.process state c = .ok result) : Commits self (state.insert c) result := by
  obtain ⟨v, hv, h⟩ := Except.bind_eq_ok_iff.mp h
  cases v with
  | wait =>
    cases h
    exact .wait
  | skip lr =>
    cases h
    exact .skip lr
  | commit lr leader =>
    have hl := lineup_of_verdict (hk.insert c) hv
    dsimp only at h
    split at h
    · cases h
      exact .fallback lr hl
    · obtain ⟨leaders, ho, h⟩ := Except.bind_eq_ok_iff.mp h
      cases h
      exact .steady (lineup_orderLeaders (hk.insert c) hl ho)

/-! ## The horizon -/

/-- **What a turn sends is at or above the horizon it starts with**, and at or below the last
committed round it ends with. -/
structure Advances (task : Consensus) (state : State) (result : State × List Emission) : Prop where
  max : result.1.RoundIsMax
  round_le : state.lastCommittedRound ≤ result.1.lastCommittedRound
  sent : ∀ y ∈ txOutput result.2, state.lastCommittedRound ≤ y.round + task.gcDepth ∧
    y.round ≤ result.1.lastCommittedRound

omit [Crypto] in
theorem advances_commitLeaders {leaders : List Certificate} : ∀ {state : State}, state.RoundIsMax →
    Advances self state (self.commitLeaders state leaders) := by
  induction leaders with
  | nil => exact fun h => ⟨h, le_rfl, fun y hy => by cases hy⟩
  | cons leader leaders ih =>
    intro state h
    have hmax := State.roundIsMax_updateAll self.gcDepth h (self.orderDag leader state)
    have hle := State.lastCommittedRound_le_updateAll self.gcDepth h (self.orderDag leader state)
    have hrest := ih hmax
    refine ⟨hrest.max, hle.trans hrest.round_le, fun y hy => ?_⟩
    rcases List.mem_append.mp hy with hy | hy
    · have hfilter : y ∈ self.orderDag leader state := hy
      obtain ⟨r, hr, hyr⟩ := State.lookup_updateAll_of_mem self.gcDepth state hfilter
      rw [orderDag, List.mem_insertionSort, List.mem_filter] at hfilter
      have hgc : state.lastCommittedRound ≤ Round.add y.round self.gcDepth :=
        of_decide_eq_true hfilter.2
      exact ⟨hgc.trans (Round.add_le _ _), (hyr.trans (hmax.1 _ r hr)).trans hrest.round_le⟩
    · exact ⟨hle.trans (hrest.sent y hy).1, (hrest.sent y hy).2⟩

omit [Crypto] in
theorem Commits.advances {result : State × List Emission} (h : Commits self state result)
    (hmax : state.RoundIsMax) : Advances self state result := by
  cases h with
  | wait => exact ⟨hmax, le_rfl, fun y hy => by cases hy⟩
  | skip lr => exact ⟨hmax, le_rfl, fun y hy => by cases hy⟩
  | fallback lr _ =>
    have hresolved : (resolve state lr).RoundIsMax := hmax
    obtain ⟨h1, h2, h3⟩ := @advances_commitLeaders self _ _ hresolved
    exact ⟨h1, h2, h3⟩
  | steady _ => exact advances_commitLeaders hmax

/-! ## Whole runs -/

/-- **Induction over the runs of the task**: `P` is kept by every turn, and says `Q` of what was
sent; a task that died sends nothing more. -/
theorem output_induct {P : List Certificate → State → List Certificate → Prop}
    {Q : List Certificate → Prop} {s : List Certificate}
    (hnew : P [] (State.new (Certificate.genesis self.committee)) [])
    (hstep : ∀ pre c state result, pre ++ [c] <+: s → self.machine.state pre = .ok state →
      P pre state (self.output pre) → self.process state c = .ok result →
        P (pre ++ [c]) result.1 (self.output pre ++ txOutput result.2))
    (hQ : ∀ pre state out, P pre state out → Q out) :
    (∀ state, self.machine.state s = .ok state → P s state (self.output s)) ∧
      Q (self.output s) := by
  induction s using List.reverseRecOn with
  | nil =>
    refine ⟨fun state h => ?_, hQ _ _ _ hnew⟩
    cases h
    exact hnew
  | append_singleton s c ih =>
    obtain ⟨hstate, hout⟩ := ih fun pre c' state result hpre =>
      hstep pre c' state result (hpre.trans (List.prefix_append _ _))
    have hdead : Q (txOutput (self.machine.outputs s) ++ txOutput []) := by
      have hnil : txOutput [] = [] := rfl
      rw [hnil, List.append_nil]
      exact hout
    rw [output, Mealy.state_snoc, Mealy.outputs_snoc, txOutput_append]
    cases hcur : self.machine.state s with
    | error p => exact ⟨fun state h => (by cases h), hdead⟩
    | ok state =>
      cases hp : self.process state c with
      | error p =>
        have hstop : self.machine.step (.ok state) c = (.error p, []) := by simp only [machine, hp]
        rw [hstop]
        exact ⟨fun state h => (by cases h), hdead⟩
      | ok result =>
        have hnext := hstep s c state result List.prefix_rfl hcur (hstate state hcur) hp
        rw [step_of_process hp]
        refine ⟨fun state' h => ?_, hQ _ _ _ hnext⟩
        cases h
        exact hnext

end Consensus

end Bullshark
