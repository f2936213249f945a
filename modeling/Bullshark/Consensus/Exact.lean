import Bullshark.Consensus.Flatten
import Bullshark.Primary.Sample

/-!
# Consensus/Exact — `order_dag` terminates and returns what the leader reaches

No universe here: the DAG is any map whose entries sit at their round and author, in which a digest
names one certificate and round-0 certificates have no parents (`Dag.WellFormed`).  From a leader it
holds, the search follows `ParentStep`; rounds descend along it, so it never comes back to the
leader, and it emits each certificate it meets once.

`OrdersExactly` is the whole statement: the `while` loop ends (`OrderDagWhile`), and what is left
after the filter and the sort is exactly the reachable part at or above the horizon.  The filter adds
two `u64`, so it holds exactly where no such sum wraps below the last committed round
(`orderDag_exact_iff`).
-/

namespace Bullshark

/-- Entries sit at their round and author, a digest identifies at most one certificate, and
certificates of round 0 have no parents. -/
structure Dag.WellFormed (dag : Dag) : Prop where
  place : ∀ r n e, dag.get r n = some e → e.2.round = r ∧ e.2.origin = n
  digest : ∀ r n r' n' d c c', dag.get r n = some (d, c) → dag.get r' n' = some (d, c') → c = c'
  root : ∀ r n e, dag.get r n = some e → e.2.round = 0 → e.2.header.parents = BTreeSet.empty

/-- The DAG holds this certificate, under some digest. -/
def Dag.Has (dag : Dag) (c : Certificate) : Prop := ∃ d, dag.get c.round c.origin = some (d, c)

/-- Every entry of the DAG, with its round and its author. -/
def Dag.slots (dag : Dag) : List (ℕ × PublicKey × Digest × Certificate) :=
  dag.entries.flatMap fun x => x.2.entries.map fun y => (x.1, y.1, y.2)

theorem Dag.mem_slots {dag : Dag} {r : ℕ} {n : PublicKey} {e : Digest × Certificate} :
    (r, n, e) ∈ dag.slots ↔ dag.get r n = some e := by
  rw [Dag.get, Option.bind_eq_some_iff, slots, List.mem_flatMap]
  constructor
  · rintro ⟨⟨r', authorities⟩, hr, he⟩
    obtain ⟨⟨n', e'⟩, hn, heq⟩ := List.mem_map.mp he
    cases heq
    exact ⟨authorities, AList.mem_lookup_iff.mpr hr, AList.mem_lookup_iff.mpr hn⟩
  · rintro ⟨authorities, hr, hn⟩
    exact ⟨⟨r, authorities⟩, AList.mem_lookup_iff.mp hr,
      List.mem_map.mpr ⟨⟨n, e⟩, AList.mem_lookup_iff.mp hn, rfl⟩⟩

/-- Well-formedness, as a check on the entries. -/
instance (dag : Dag) : Decidable dag.WellFormed :=
  decidable_of_iff
    (∀ x ∈ dag.slots, (x.2.2.2.round = x.1 ∧ x.2.2.2.origin = x.2.1) ∧
      (∀ y ∈ dag.slots, x.2.2.1 = y.2.2.1 → x.2.2.2 = y.2.2.2) ∧
      (x.2.2.2.round = 0 → x.2.2.2.header.parents = BTreeSet.empty))
    ⟨fun h => ⟨fun r n e he => (h _ (Dag.mem_slots.mpr he)).1,
        fun _ _ _ _ _ _ _ hc hc' =>
          (h _ (Dag.mem_slots.mpr hc)).2.1 _ (Dag.mem_slots.mpr hc') rfl,
        fun r n e he => (h _ (Dag.mem_slots.mpr he)).2.2⟩,
      fun h ⟨r, n, e⟩ hx => ⟨h.place r n e (Dag.mem_slots.mp hx),
        fun ⟨r', n', e'⟩ hy hd => h.digest r n r' n' e.1 e.2 e'.2 (Dag.mem_slots.mp hx)
          (by rw [Dag.mem_slots.mp hy]; exact congrArg some (Prod.ext hd.symm rfl)),
        h.root r n e (Dag.mem_slots.mp hx)⟩⟩

theorem Dag.WellFormed.has {dag : Dag} (h : dag.WellFormed) {r : ℕ} {n : PublicKey}
    {e : Digest × Certificate} (he : dag.get r n = some e) :
    dag.get e.2.round e.2.origin = some e := by
  obtain ⟨hr, hn⟩ := h.place r n e he
  rwa [hr, hn]

namespace Consensus

/-- The `while` loop of `order_dag`: from this buffer and these digests it ends, having ordered
`ordered`. -/
inductive OrderDagWhile (state : State) :
    List Certificate → List Digest → List Certificate → Prop
  | exit (alreadyOrdered : List Digest) : OrderDagWhile state [] alreadyOrdered []
  | turn {x : Certificate} {buffer : List Certificate} {alreadyOrdered : List Digest}
      {ordered : List Certificate} :
      OrderDagWhile state
        (x.header.parents.elems.foldl (pushParent state x) (buffer, alreadyOrdered)).1
        (x.header.parents.elems.foldl (pushParent state x) (buffer, alreadyOrdered)).2 ordered →
      OrderDagWhile state (x :: buffer) alreadyOrdered (x :: ordered)

/-- A step to a parent that the DAG holds at the previous round and whose round is not the last
committed one of its author. -/
def ParentStep (state : State) (x y : Certificate) : Prop :=
  1 ≤ x.round ∧ (∃ d ∈ x.header.parents, state.dag.get (x.round - 1) y.origin = some (d, y)) ∧
    state.lastCommitted.lookup y.origin ≠ some y.round

variable {state : State}

/-! ## The loop ends -/

theorem OrderDagWhile.of_visits {buffer : List Certificate} {alreadyOrdered : List Digest}
    {ordered : List Certificate}
    (h : Search.Visits (successors state) buffer alreadyOrdered ordered) :
    OrderDagWhile state buffer alreadyOrdered ordered := by
  induction h with
  | done visited => exact .exit visited
  | @step x buffer alreadyOrdered ordered _ ih =>
    refine .turn ?_
    rw [foldl_pushParent]
    exact ih

/-! ## The edges of the search are the steps to parents -/

/-- In a well-formed DAG, `findParent` looks up the digests of a round. -/
theorem findParent_eq_some_iff (h : state.dag.WellFormed) {x : Certificate} {d : Digest}
    {e : Digest × Certificate} : findParent state x d = some e ↔
      e.1 = d ∧ state.dag.get (Round.pred x.round) e.2.origin = some e := by
  constructor
  · intro he
    obtain ⟨hd, n, hget⟩ := exists_get_of_findParent he
    exact ⟨hd, by rwa [(h.place _ _ _ hget).2]⟩
  · rintro ⟨rfl, hget⟩
    refine findParent_of_get hget fun n' e' hget' hd => Prod.ext hd ?_
    refine h.digest (Round.pred x.round) n' _ _ e.1 e'.2 e.2 ?_ hget
    rw [← hd]
    exact hget'

/-- **An edge of the search from a certificate of the DAG is a step to a parent.** -/
theorem mem_successors_iff (h : state.dag.WellFormed) {x : Certificate} (hx : state.dag.Has x)
    {y : Certificate} : Search.Step (successors state) x y ↔ ParentStep state x y := by
  obtain ⟨dx, hdx⟩ := hx
  have hpred : ∀ d ∈ x.header.parents, 1 ≤ x.round ∧ Round.pred x.round = x.round - 1 := by
    intro d hd
    have hpos : x.round ≠ 0 := by
      intro h0
      rw [h.root _ _ _ hdx h0] at hd
      cases hd
    exact ⟨by omega, if_neg hpos⟩
  constructor
  · rintro ⟨k, hk⟩
    obtain ⟨d, hd, he⟩ := List.mem_filterMap.mp hk
    obtain ⟨hfind, hnot⟩ := Option.filter_eq_some_iff.mp he
    obtain ⟨rfl, hget⟩ := (findParent_eq_some_iff h).mp hfind
    obtain ⟨hone, hr⟩ := hpred k hd
    rw [hr] at hget
    refine ⟨hone, ⟨k, hd, hget⟩, ?_⟩
    simpa [alreadyCommitted] using hnot
  · rintro ⟨hone, ⟨d, hd, hget⟩, hnot⟩
    rw [← (hpred d hd).2] at hget
    refine ⟨d, List.mem_filterMap.mpr ⟨d, hd, ?_⟩⟩
    exact Option.filter_eq_some_iff.mpr
      ⟨(findParent_eq_some_iff h).mpr ⟨rfl, hget⟩, by simpa [alreadyCommitted] using hnot⟩

theorem ParentStep.has (h : state.dag.WellFormed) {x y : Certificate} (hxy : ParentStep state x y) :
    state.dag.Has y := by
  obtain ⟨-, ⟨d, -, hget⟩, -⟩ := hxy
  exact ⟨d, h.has hget⟩

theorem ParentStep.round_succ (h : state.dag.WellFormed) {x y : Certificate}
    (hxy : ParentStep state x y) : y.round + 1 = x.round := by
  obtain ⟨hone, ⟨d, -, hget⟩, -⟩ := hxy
  have := (h.place _ _ _ hget).1
  simp only at this
  omega

/-- From a certificate of the DAG, the search reaches what steps to parents reach. -/
theorem reach_iff (h : state.dag.WellFormed) {x : Certificate} (hx : state.dag.Has x)
    {y : Certificate} :
    Search.Reach (successors state) x y ↔ Relation.ReflTransGen (ParentStep state) x y := by
  have hhas : ∀ {z}, Relation.ReflTransGen (ParentStep state) x z → state.dag.Has z := by
    intro z hz
    rcases Relation.ReflTransGen.cases_tail hz with rfl | ⟨w, -, hwz⟩
    · exact hx
    · exact hwz.has h
  constructor
  · intro hy
    induction hy with
    | refl => exact .refl
    | tail _ hstep ih => exact ih.tail ((mem_successors_iff h (hhas ih)).mp hstep)
  · intro hy
    induction hy with
    | refl => exact .refl
    | tail hxz hstep ih => exact ih.tail ((mem_successors_iff h (hhas hxz)).mpr hstep)

theorem round_le_of_steps (h : state.dag.WellFormed) {x y : Certificate}
    (hxy : Relation.ReflTransGen (ParentStep state) x y) : y.round ≤ x.round := by
  induction hxy with
  | refl => exact le_rfl
  | tail _ hstep ih =>
    have := hstep.round_succ h
    omega

/-! ## Exactness -/

variable {self : Consensus}

/-- The digest the DAG keeps a certificate under. -/
def keptUnder (state : State) (default : Digest) (c : Certificate) : Digest :=
  ((state.dag.get c.round c.origin).map Prod.fst).getD default

/-- **No certificate is ordered twice.** -/
theorem nodup_orderDagLoop (h : state.dag.WellFormed) {leader : Certificate}
    (hl : state.dag.Has leader) :
    (orderDagLoop state (dagSize state.dag + 1) [leader] []).Nodup := by
  obtain ⟨dl, hdl⟩ := hl
  have hkey : ∀ x, ∀ e ∈ successors state x, e.1 = keptUnder state dl e.2 := by
    intro x e he
    obtain ⟨d, -, hd⟩ := List.mem_filterMap.mp he
    have hget := ((findParent_eq_some_iff h).mp (Option.filter_eq_some_iff.mp hd).1).2
    rw [keptUnder, h.has hget]
    rfl
  refine (visits_orderDagLoop state leader).nodup_of_acyclic hkey fun e he hback => ?_
  have hstep := (mem_successors_iff h ⟨dl, hdl⟩).mp ⟨e.1, he⟩
  have hle := round_le_of_steps h ((reach_iff h (hstep.has h)).mp hback)
  have := hstep.round_succ h
  omega

/-- **The loop orders exactly what the leader reaches.** -/
theorem mem_orderDagLoop (h : state.dag.WellFormed) {leader : Certificate}
    (hl : state.dag.Has leader) {x : Certificate} :
    x ∈ orderDagLoop state (dagSize state.dag + 1) [leader] [] ↔
      Relation.ReflTransGen (ParentStep state) leader x := by
  have hunique : ∀ x x' k y y', (k, y) ∈ successors state x → (k, y') ∈ successors state x' →
      y = y' := by
    intro x x' k y y' hy hy'
    obtain ⟨d, -, hd⟩ := List.mem_filterMap.mp hy
    obtain ⟨d', -, hd'⟩ := List.mem_filterMap.mp hy'
    have hget := ((findParent_eq_some_iff h).mp (Option.filter_eq_some_iff.mp hd).1).2
    have hget' := ((findParent_eq_some_iff h).mp (Option.filter_eq_some_iff.mp hd').1).2
    exact h.digest _ _ _ _ k y y' hget hget'
  rw [(visits_orderDagLoop state leader).mem_iff hunique, reach_iff h hl]

/-- In a list sorted by round, a certificate of a lower round stands earlier. -/
theorem mem_of_round_lt {l pre post : List Certificate} {x y : Certificate}
    (hsorted : l.Pairwise fun x y => x.round ≤ y.round) (hsplit : l = pre ++ x :: post)
    (hy : y ∈ l) (hlt : y.round < x.round) : y ∈ pre := by
  subst hsplit
  rcases List.mem_append.mp hy with hy | hy
  · exact hy
  · have hafter := List.pairwise_cons.mp (List.pairwise_append.mp hsorted).2.1
    rcases List.mem_cons.mp hy with rfl | hy
    · omega
    · have := hafter.1 y hy
      omega

/-- `order_dag` terminates and is exact: the loop ends; the list returned has no duplicates, is sorted
by round with every returned parent before its children, and its members are the certificates at or
above the horizon that are the leader or reachable from it by steps to parents. -/
structure OrdersExactly (task : Consensus) (state : State) (leader : Certificate) : Prop where
  terminates : ∃ ordered, OrderDagWhile state [leader] [] ordered ∧
    task.orderDag leader state = (ordered.filter fun x =>
      decide (Round.add x.round task.gcDepth ≥ state.lastCommittedRound)).insertionSort
        fun x y => x.round ≤ y.round
  nodup : (task.orderDag leader state).Nodup
  sorted : (task.orderDag leader state).Pairwise fun x y => x.round ≤ y.round
  parentsFirst : ∀ pre x post, task.orderDag leader state = pre ++ x :: post →
    ∀ y ∈ task.orderDag leader state, ParentStep state x y → y ∈ pre
  members : ∀ x, x ∈ task.orderDag leader state ↔
    x.round + task.gcDepth ≥ state.lastCommittedRound ∧
      Relation.ReflTransGen (ParentStep state) leader x

/-- No certificate that the leader reaches, itself included, has a sum of its round and `gc_depth`
that reaches the last committed round but wraps below it. -/
def HorizonFits (self : Consensus) (state : State) (leader : Certificate) : Prop :=
  ∀ x, Relation.ReflTransGen (ParentStep state) leader x →
    x.round + self.gcDepth ≥ state.lastCommittedRound →
      Round.add x.round self.gcDepth ≥ state.lastCommittedRound

theorem horizonFits_of_round (h : state.dag.WellFormed) {leader : Certificate}
    (hfits : leader.round + self.gcDepth < 2 ^ 64) : self.HorizonFits state leader := by
  intro x hx hgc
  have := round_le_of_steps h hx
  rwa [Round.add_eq (by omega)]

/-- **`order_dag` terminates and is exact**, on a well-formed DAG that holds the leader, exactly where
no sum of a round and `gc_depth` wraps below the last committed round. -/
theorem orderDag_exact_iff (self : Consensus) {state : State} (h : state.dag.WellFormed)
    {leader : Certificate} (hl : state.dag.Has leader) :
    self.OrdersExactly state leader ↔ self.HorizonFits state leader := by
  have hmem : ∀ x, x ∈ self.orderDag leader state ↔
      Round.add x.round self.gcDepth ≥ state.lastCommittedRound ∧
        Relation.ReflTransGen (ParentStep state) leader x := fun x => by
    rw [orderDag, List.mem_insertionSort, List.mem_filter, mem_orderDagLoop h hl,
      decide_eq_true_eq, and_comm]
  constructor
  · intro hexact x hx hgc
    exact ((hmem x).mp ((hexact.members x).mpr ⟨hgc, hx⟩)).1
  · intro hfits
    have hsorted : (self.orderDag leader state).Pairwise fun x y => x.round ≤ y.round :=
      Universe.pairwise_orderDag leader state
    refine ⟨⟨_, .of_visits (visits_orderDagLoop state leader), rfl⟩, ?_, hsorted, ?_, fun x => ?_⟩
    · rw [orderDag, (List.perm_insertionSort _ _).nodup_iff]
      exact (nodup_orderDagLoop h hl).filter _
    · intro pre x post hsplit y hy hstep
      have := hstep.round_succ h
      exact mem_of_round_lt hsorted hsplit hy (by omega)
    · rw [hmem]
      exact and_congr_left fun hx => ⟨fun hgc => hgc.trans (Round.add_le _ _), hfits x hx⟩

/-- The DAGs of certificates of a universe are well formed. -/
theorem wellFormed_of_entries [Crypto] {committee : Committee} {G : Universe committee} {dag : Dag}
    (hE : G.Entries dag) : dag.WellFormed where
  place r n e he := ⟨(hE r n e he).2.1, (hE r n e he).2.2.1⟩
  digest r n r' n' d c c' hc hc' := by
    obtain ⟨hd, -, -, hmem⟩ := hE _ _ _ hc
    obtain ⟨hd', -, -, hmem'⟩ := hE _ _ _ hc'
    exact G.collisionFree hmem hmem' (hd.symm.trans hd')
  root r n e he h0 :=
    Universe.genesis_parents ((G.genesis e.2).mpr ⟨(hE r n e he).2.2.2, h0⟩)

/-! ## A leader over three certificates -/

namespace ThreeParents

open Sample

def task : Consensus := ⟨committee4, 50, false⟩

def a (n : ℕ) : Certificate :=
  certificate committee4 (key n) 1 (Certificate.genesis committee4)

def leader : Certificate := certificate committee4 (key 3) 2 [a 1, a 2, a 4]

/-- The leader and the certificates of round 1, one of which it does not name. -/
def received : State :=
  [a 1, a 2, a 3, a 4, leader].foldl State.insert (State.new (Certificate.genesis committee4))

set_option maxRecDepth 100000 in
theorem evaluated : received.dag.WellFormed ∧
    received.dag.get leader.round leader.origin = some (leader.digest, leader) ∧
    (task.orderDag leader received).map Certificate.round = [1, 1, 1, 2] := by
  decide +kernel

theorem orderDag_leader :
    received.dag.WellFormed ∧ received.dag.Has leader ∧
      (task.orderDag leader received).map Certificate.round = [1, 1, 1, 2] ∧
      task.OrdersExactly received leader := by
  obtain ⟨hwf, hget, horder⟩ := evaluated
  have hfits : task.HorizonFits received leader := horizonFits_of_round hwf (by decide +kernel)
  exact ⟨hwf, ⟨leader.digest, hget⟩, horder,
    (orderDag_exact_iff task hwf ⟨leader.digest, hget⟩).mpr hfits⟩

end ThreeParents

/-! ## A sum that wraps

One authority and a depth three below `2 ^ 64`.  The leader of round 2 is committed when the
certificate of round 3 arrives, and the one of round 4 is the next leader: `4 + gc_depth` is 1, which
is below the last committed round, so `order_dag` returns nothing. -/

namespace WrappedHorizon

open Sample

def task : Consensus := ⟨committee1, 2 ^ 64 - 3, false⟩

/-- The state after the certificates of rounds 1 to `n`. -/
def reached (n : ℕ) : State :=
  match task.machine.state ((List.range n).map fun i => chain (i + 1)) with
  | .ok state => state
  | .error _ => State.new (Certificate.genesis committee1)

set_option maxRecDepth 100000 in
theorem evaluated : (reached 4).dag.WellFormed ∧
    (reached 4).dag.get (chain 4).round (chain 4).origin = some ((chain 4).digest, chain 4) ∧
    (reached 4).lastCommittedRound = 2 ∧ task.orderDag (chain 4) (reached 4) = [] := by
  decide +kernel

/-- **The leader is not in its own sub-DAG.** -/
theorem orders_nothing : (reached 4).dag.WellFormed ∧ (reached 4).dag.Has (chain 4) ∧
    ¬ task.OrdersExactly (reached 4) (chain 4) := by
  obtain ⟨hwf, hget, hround, hnil⟩ := evaluated
  refine ⟨hwf, ⟨_, hget⟩, fun hexact => ?_⟩
  have hmem := (hexact.members (chain 4)).mpr ⟨?_, .refl⟩
  · rw [hnil] at hmem
    cases hmem
  · rw [hround]
    decide +kernel

end WrappedHorizon

end Consensus

end Bullshark
