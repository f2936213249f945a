import Bullshark.Consensus.Commits

/-!
# Consensus/Underflow — the two subtractions from a round

`Consensus::run` subtracts one from the round of every certificate received, and `order_dag` from
the round of every certificate it pops that has parents.  Where nothing of round zero is received
neither goes below zero: the DAG starts with the genesis certificates, which have no parents, and
everything else in it is above round zero (`safe_of_positive`).
-/

namespace Bullshark

namespace Consensus

/-- The certificates that the loop of `order_dag` pops. -/
def popped (state : State) (leader : Certificate) : List Certificate :=
  orderDagLoop state (dagSize state.dag + 1) [leader] []

/-- No `x.round() - 1` of a call of `order_dag` underflows: it is computed for each parent of each
certificate popped. -/
def FlattensSafely (state : State) (leader : Certificate) : Prop :=
  ∀ x ∈ popped state leader, x.header.parents.elems ≠ [] → 1 ≤ x.round

/-- No call of `order_dag` in the commit loop does. -/
def CommitsSafely (self : Consensus) : State → List Certificate → Prop
  | _, [] => True
  | state, leader :: leaders =>
    FlattensSafely state leader ∧ CommitsSafely self (self.commitLeader state leader).1 leaders

section

variable [Crypto]

/-- No subtraction of a turn of the main loop underflows. -/
structure TurnsSafely (task : Consensus) (state : State) (c : Certificate) : Prop where
  /-- `round - 1`. -/
  received : 1 ≤ c.round
  fallback : task.dynamic = true → ∀ lr leader,
    task.verdict (state.insert c) c.round = .ok (.commit lr leader) →
      task.CommitsSafely (resolve (state.insert c) lr) [leader]
  steady : task.dynamic = false → ∀ lr leader leaders,
    task.verdict (state.insert c) c.round = .ok (.commit lr leader) →
      task.orderLeaders leader (state.insert c) = .ok leaders →
        task.CommitsSafely (state.insert c) leaders.reverse

/-- The same, of a task that is alive. -/
def SafeTurn (self : Consensus) : Except Panic State → Certificate → Prop
  | .ok state, c => self.TurnsSafely state c
  | .error _, _ => True

end

/-- The certificates of round zero in the DAG have no parents. -/
def Rooted (dag : Dag) : Prop :=
  ∀ r n e, dag.get r n = some e → e.2.header.parents.elems ≠ [] → 1 ≤ e.2.round

variable {self : Consensus} {state : State}

/-- A certificate popped is the leader or in the DAG. -/
theorem exists_get_of_popped {leader x : Certificate} (h : x ∈ popped state leader) :
    x = leader ∨ ∃ r n d, state.dag.get r n = some (d, x) := by
  obtain ⟨y, hy, hreach⟩ := (visits_orderDagLoop state leader).reach x h
  obtain rfl := List.mem_singleton.mp hy
  rcases Relation.ReflTransGen.cases_tail hreach with heq | ⟨z, -, k, hk⟩
  · exact Or.inl heq
  · obtain ⟨-, ⟨r, n, hget⟩, -⟩ := mem_successors hk
    exact Or.inr ⟨r, n, k, hget⟩

theorem Rooted.flattensSafely (h : Rooted state.dag) {leader : Certificate}
    (hl : 1 ≤ leader.round) : FlattensSafely state leader := by
  intro x hx hparents
  rcases exists_get_of_popped hx with rfl | ⟨r, n, d, hget⟩
  · exact hl
  · exact h r n _ hget hparents

theorem Rooted.updateAll (h : Rooted state.dag) (gc : ℕ) (ys : List Certificate) :
    Rooted (State.updateAll gc state ys).dag := fun r n e he =>
  h r n e (State.get_of_get_updateAll gc he)

/-- **The commit loop**: no call of `order_dag` underflows, and the DAG stays rooted. -/
theorem Rooted.commitLeaders {leaders : List Certificate} : ∀ {state : State}, Rooted state.dag →
    (∀ l ∈ leaders, 2 ≤ l.round) → self.CommitsSafely state leaders ∧
      Rooted (self.commitLeaders state leaders).1.dag := by
  induction leaders with
  | nil => exact fun h _ => ⟨trivial, h⟩
  | cons leader leaders ih =>
    intro state h hl
    obtain ⟨hleader, hleaders⟩ := List.forall_mem_cons.mp hl
    obtain ⟨hsafe, hrooted⟩ :=
      ih (h.updateAll self.gcDepth (self.orderDag leader state)) hleaders
    exact ⟨⟨h.flattensSafely (by omega), hsafe⟩, hrooted⟩

variable [Crypto]

theorem rooted_new (committee : Committee) :
    Rooted (State.new (Certificate.genesis committee)).dag := by
  intro r n e he hparents
  obtain ⟨-, c, hc, -, rfl⟩ := get_new.mp he
  refine absurd ?_ hparents
  rw [Universe.genesis_parents hc]
  rfl

theorem Rooted.insert (h : Rooted state.dag) {c : Certificate} (hc : 1 ≤ c.round) :
    Rooted (state.insert c).dag := by
  intro r n e he hparents
  rw [State.get_insert] at he
  split at he
  · cases he
    exact hc
  · exact h r n e he hparents

/-- **A turn that receives nothing of round zero**, on a rooted DAG. -/
theorem turnsSafely_of_rooted (hk : Keyed state.dag) (h : Rooted state.dag) {c : Certificate}
    (hc : 1 ≤ c.round) : self.TurnsSafely state c := by
  refine ⟨hc, fun _ lr leader hv => ?_, fun _ lr leader leaders hv ho => ?_⟩
  · have hresolved : Rooted (resolve (state.insert c) lr).dag := h.insert hc
    exact (hresolved.commitLeaders (lineup_of_verdict (hk.insert c) hv).two_le).1
  · have hline := lineup_orderLeaders (hk.insert c) (lineup_of_verdict (hk.insert c) hv) ho
    exact ((h.insert hc).commitLeaders hline.two_le).1

omit [Crypto] in
theorem Commits.rooted {result : State × List Emission} (h : Commits self state result)
    (hr : Rooted state.dag) : Rooted result.1.dag := by
  cases h with
  | wait => exact hr
  | skip lr => exact hr
  | fallback lr hl =>
    have hresolved : Rooted (resolve state lr).dag := hr
    exact (hresolved.commitLeaders hl.two_le).2
  | steady hl => exact (hr.commitLeaders hl.two_le).2

/-- **Where nothing of round zero is received, no subtraction underflows**, in any turn. -/
theorem safe_of_positive {s : List Certificate} (hs : ∀ c ∈ s, 1 ≤ c.round) :
    self.machine.Along self.SafeTurn s := by
  intro pre c hpre
  cases hcur : self.machine.state pre with
  | error p => trivial
  | ok state =>
    obtain ⟨hkeyed, hrooted⟩ := (output_induct (P := fun _ state _ =>
        Keyed state.dag ∧ Rooted state.dag) (Q := fun _ => True) (s := pre)
      ⟨keyed_new _, rooted_new _⟩ (fun pre' c' state result hpre' _ ⟨hk, hr⟩ hp => by
        have hc' : c' ∈ s := hpre.subset (List.mem_append_left _ (hpre'.subset (by simp)))
        have hcommits := commits_process hk hp
        exact ⟨hcommits.keyed (hk.insert c'), hcommits.rooted (hr.insert (hs c' hc'))⟩)
      fun _ _ _ _ => trivial).1 state hcur
    exact turnsSafely_of_rooted hkeyed hrooted (hs c (hpre.subset (by simp)))

/-- A task that is alive and receives something of round zero underflows. -/
theorem not_safe_of_zero {s : List Certificate} {pre : List Certificate} {c : Certificate}
    {state : State} (hpre : pre ++ [c] <+: s) (hstate : self.machine.state pre = .ok state)
    (hc : c.round = 0) : ¬ self.machine.Along self.SafeTurn s := by
  intro hsafe
  have hturn : self.SafeTurn (self.machine.state pre) c := hsafe pre c hpre
  rw [hstate] at hturn
  have hone : 1 ≤ c.round := hturn.received
  omega

end Consensus

end Bullshark
