import Bullshark.Consensus.Universe

/-!
# Consensus/Flatten — what `order_dag` returns

`order_dag` is the depth-first search of `Machinery/Search` along the parents the DAG still holds
and that are not the last committed certificate of their author.  On a DAG of certificates of a
universe it returns, sorted by round and without duplicates, the certificates at or above the
horizon that the leader reaches that way (`mem_orderDag_iff`), as long as the sum of the leader's
round and `gc_depth` does not overflow.

The list depends only on what the search meets: two states with the same committed rounds that
hold the same of it, above the horizon, are flattened alike (`orderDag_congr`).
-/

namespace Bullshark

namespace Consensus

variable {state : State}

/-! ## The loop is a search -/

/-- The parents `order_dag` may push: those the DAG holds and that are not yet committed. -/
def successors (state : State) (x : Certificate) : List (Digest × Certificate) :=
  x.header.parents.elems.filterMap fun d =>
    (findParent state x d).filter fun e => !alreadyCommitted state e.2

theorem foldl_pushParent (x : Certificate) (l : List Digest)
    (acc : List Certificate × List Digest) :
    l.foldl (pushParent state x) acc
      = Search.pushAll (l.filterMap fun d =>
          (findParent state x d).filter fun e => !alreadyCommitted state e.2) acc := by
  induction l generalizing acc with
  | nil => rfl
  | cons d l ih =>
    rw [List.foldl_cons, ih, List.filterMap_cons, pushParent]
    cases hfind : findParent state x d with
    | none => rfl
    | some e =>
      rw [Option.filter_some]
      cases hc : alreadyCommitted state e.2 with
      | true => simp [hc]
      | false =>
        rw [if_pos (by rfl)]
        by_cases hmem : e.1 ∈ acc.2
        · simp [hmem, Search.pushAll_cons_of_mem acc hmem]
        · simp [hc, hmem, Search.pushAll_cons_of_notMem acc hmem]

theorem orderDagLoop_eq_run : ∀ (n : ℕ) (buffer : List Certificate) (already : List Digest),
    orderDagLoop state n buffer already = Search.run (successors state) n buffer already
  | 0, _, _ => rfl
  | _ + 1, [], _ => rfl
  | n + 1, x :: buffer, already => by
      rw [orderDagLoop, Search.run, foldl_pushParent, orderDagLoop_eq_run n]
      rfl

/-- The digests the DAG is keyed by. -/
def dagDigests (dag : Dag) : List Digest :=
  dag.values.flatMap fun authorities => authorities.values.map Prod.fst

theorem length_dagDigests (dag : Dag) : (dagDigests dag).length = dagSize dag := by
  rw [dagDigests, List.length_flatMap, dagSize]
  simp only [List.length_map]

theorem mem_dagDigests_of_findParent {x : Certificate} {d : Digest} {e : Digest × Certificate}
    (h : findParent state x d = some e) : e.1 ∈ dagDigests state.dag := by
  obtain ⟨authorities, hlookup, hfind⟩ := Option.bind_eq_some_iff.mp h
  exact List.mem_flatMap.mpr ⟨authorities, AList.mem_values.mpr ⟨_, hlookup⟩,
    List.mem_map.mpr ⟨e, List.mem_of_find?_eq_some hfind, rfl⟩⟩

/-- **The loop of `order_dag` ends within its fuel**, on any state. -/
theorem visits_orderDagLoop (state : State) (leader : Certificate) :
    Search.Visits (successors state) [leader] []
      (orderDagLoop state (dagSize state.dag + 1) [leader] []) := by
  rw [orderDagLoop_eq_run]
  refine Search.visits_run (K := (dagDigests state.dag).toFinset) (fun x e he => ?_) _ _ _ ?_
  · obtain ⟨d, -, hd⟩ := List.mem_filterMap.mp he
    exact List.mem_toFinset.mpr (mem_dagDigests_of_findParent (Option.filter_eq_some_iff.mp hd).1)
  · have hcard : (Search.unvisited (dagDigests state.dag).toFinset []).card ≤ dagSize state.dag :=
      (Finset.card_filter_le _ _).trans
        ((List.toFinset_card_le _).trans (length_dagDigests state.dag).le)
    simp only [List.length_cons, List.length_nil]
    omega

/-- What `findParent` finds is an entry of the round it looks at, under the digest asked for. -/
theorem exists_get_of_findParent {x : Certificate} {d : Digest} {e : Digest × Certificate}
    (h : findParent state x d = some e) :
    e.1 = d ∧ ∃ n, state.dag.get (Round.pred x.round) n = some e := by
  obtain ⟨authorities, hlookup, hfind⟩ := Option.bind_eq_some_iff.mp h
  obtain ⟨n, hn⟩ := AList.mem_values.mp (List.mem_of_find?_eq_some hfind)
  refine ⟨by simpa using List.find?_some hfind, n, ?_⟩
  rw [Dag.get, hlookup]
  exact hn

/-- `findParent` finds every entry of the round it looks at that is the only one under its
digest. -/
theorem findParent_of_get {x : Certificate} {e : Digest × Certificate} {n : PublicKey}
    (h : state.dag.get (Round.pred x.round) n = some e)
    (hunique : ∀ n' e', state.dag.get (Round.pred x.round) n' = some e' → e'.1 = e.1 → e' = e) :
    findParent state x e.1 = some e := by
  obtain ⟨authorities, hlookup, hn⟩ := Option.bind_eq_some_iff.mp h
  cases hfind : findParent state x e.1 with
  | none =>
    rw [findParent, hlookup, Option.bind_some] at hfind
    exact absurd (List.find?_eq_none.mp hfind e (AList.mem_values.mpr ⟨n, hn⟩)) (by simp)
  | some e' =>
    obtain ⟨hd, n', hn'⟩ := exists_get_of_findParent hfind
    rw [hunique n' e' hn' hd]

end Consensus

/-! ## On a universe -/

variable [Crypto]

namespace Universe

variable {committee : Committee} (G : Universe committee)

/-- The DAG holds certificates of the universe, each under its digest, its round and its author. -/
def Entries (dag : Dag) : Prop :=
  ∀ r n e, dag.get r n = some e →
    e.1 = e.2.digest ∧ e.2.round = r ∧ e.2.origin = n ∧ e.2 ∈ G.certs

/-- The DAG holds this certificate. -/
def Holds (dag : Dag) (c : Certificate) : Prop := dag.get c.round c.origin = some (c.digest, c)

variable {G} {state : State}

theorem Entries.holds {dag : Dag} (hE : G.Entries dag) {r : ℕ} {n : PublicKey}
    {e : Digest × Certificate} (h : dag.get r n = some e) : Holds dag e.2 := by
  obtain ⟨h1, h2, h3, -⟩ := hE r n e h
  rw [Holds, h2, h3, h, ← h1]

/-- **`findParent` finds the parent of a digest exactly where the DAG holds it.** -/
theorem findParent_eq_some_iff (hE : G.Entries state.dag) {x : Certificate} {d : Digest}
    {e : Digest × Certificate} :
    Consensus.findParent state x d = some e ↔
      e.1 = d ∧ e.1 = e.2.digest ∧ e.2.round = Round.pred x.round ∧ Holds state.dag e.2 := by
  constructor
  · intro h
    obtain ⟨hd, n, hget⟩ := Consensus.exists_get_of_findParent h
    obtain ⟨h1, h2, -, -⟩ := hE _ _ _ hget
    exact ⟨hd, h1, h2, hE.holds hget⟩
  · rintro ⟨rfl, h1, h2, hold⟩
    have hget : state.dag.get (Round.pred x.round) e.2.origin = some e := by
      rw [Holds, h2, ← h1] at hold
      exact hold
    refine Consensus.findParent_of_get hget fun n' e' hget' hd => Prod.ext hd ?_
    -- the digest identifies the certificate
    obtain ⟨h1', -, -, hmem'⟩ := hE _ _ _ hget'
    exact G.collisionFree hmem' (hE _ _ _ hget).2.2.2 (by rw [← h1', ← h1, hd])

open Classical in
/-- The edges `order_dag` follows inside the universe. -/
noncomputable def edges (G : Universe committee) (state : State) (x : Certificate) :
    List (Digest × Certificate) :=
  if x ∈ G.certs then Consensus.successors state x else []

/-- **An edge leads to a parent that the DAG holds and that is not committed yet.** -/
theorem mem_edges (hE : G.Entries state.dag) {x : Certificate} {e : Digest × Certificate} :
    e ∈ G.edges state x ↔
      e.1 = e.2.digest ∧ G.Parent x e.2 ∧ Holds state.dag e.2 ∧
        Consensus.alreadyCommitted state e.2 = false := by
  by_cases hx : x ∈ G.certs
  · rw [edges, if_pos hx, Consensus.successors, List.mem_filterMap]
    simp only [Option.filter_eq_some_iff, findParent_eq_some_iff hE, Bool.not_eq_true']
    constructor
    · rintro ⟨d, hd, ⟨rfl, h1, -, hold⟩, hc⟩
      exact ⟨h1, ⟨hx, (hE _ _ _ hold).2.2.2, h1 ▸ hd⟩, hold, hc⟩
    · rintro ⟨h1, hp, hold, hc⟩
      refine ⟨e.1, h1 ▸ hp.2.2, ⟨rfl, h1, ?_, hold⟩, hc⟩
      have hr := hp.round_succ
      rw [Round.pred, if_neg (by omega)]
      omega
  · rw [edges, if_neg hx]
    simp only [List.not_mem_nil, false_iff]
    exact fun h => hx h.2.1.1

theorem edges_key (hE : G.Entries state.dag) (x : Certificate) :
    ∀ e ∈ G.edges state x, e.1 = e.2.digest := fun _ he => ((mem_edges hE).mp he).1

theorem edges_key_unique (hE : G.Entries state.dag) (x x' : Certificate) (k : Digest)
    (y y' : Certificate) (h : (k, y) ∈ G.edges state x) (h' : (k, y') ∈ G.edges state x') :
    y = y' := by
  obtain ⟨h1, hp, -, -⟩ := (mem_edges hE).mp h
  obtain ⟨h1', hp', -, -⟩ := (mem_edges hE).mp h'
  exact G.collisionFree hp.2.1 hp'.2.1 (h1.symm.trans h1')

theorem edges_round_lt (hE : G.Entries state.dag) (x : Certificate) :
    ∀ e ∈ G.edges state x, e.2.round < x.round := by
  intro e he
  have := ((mem_edges hE).mp he).2.1.round_succ
  omega

/-- The certificates a leader reaches along the edges of a state. -/
abbrev SubDag (G : Universe committee) (state : State) (leader : Certificate) :
    Certificate → Prop := Search.Reach (G.edges state) leader

theorem SubDag.reaches (hE : G.Entries state.dag) {leader y : Certificate}
    (h : G.SubDag state leader y) : G.Reaches leader y := by
  induction h with
  | refl => exact .refl
  | tail _ hstep ih =>
    obtain ⟨k, hk⟩ := hstep
    exact ih.tail ((mem_edges hE).mp hk).2.1

/-- A certificate of the sub-DAG is the leader, or held by the DAG and not committed yet. -/
theorem SubDag.cases (hE : G.Entries state.dag) {leader y : Certificate}
    (h : G.SubDag state leader y) :
    y = leader ∨ (Holds state.dag y ∧ Consensus.alreadyCommitted state y = false) := by
  rcases Relation.ReflTransGen.cases_tail h with rfl | ⟨z, -, k, hk⟩
  · exact Or.inl rfl
  · exact Or.inr ((mem_edges hE).mp hk).2.2

/-- The search of `order_dag`, along the edges of the universe. -/
theorem visits_edges (hE : G.Entries state.dag) {leader : Certificate} (hl : leader ∈ G.certs) :
    Search.Visits (G.edges state) [leader] []
      (Consensus.orderDagLoop state (Consensus.dagSize state.dag + 1) [leader] []) := by
  have hsucc : ∀ x ∈ G.certs, Consensus.successors state x = G.edges state x := fun x hx => by
    rw [edges, if_pos hx]
  refine (Consensus.visits_orderDagLoop state leader).congr hsucc (fun x hx e he => ?_) fun x hx => ?_
  · rw [hsucc x hx] at he
    exact ((mem_edges hE).mp he).2.1.2.1
  · rw [List.mem_singleton.mp hx]
    exact hl

variable {self : Consensus}

/-- **`order_dag` is exact**: it returns the certificates of the sub-DAG at or above the horizon, as
far as the sum of their round and `gc_depth` tells. -/
theorem mem_orderDag (hE : G.Entries state.dag) {leader y : Certificate} (hl : leader ∈ G.certs) :
    y ∈ self.orderDag leader state ↔
      G.SubDag state leader y ∧ state.lastCommittedRound ≤ Round.add y.round self.gcDepth := by
  rw [Consensus.orderDag, List.mem_insertionSort, List.mem_filter,
    (visits_edges hE hl).mem_iff (edges_key_unique hE)]
  simp

/-- Where the sum of the leader does not overflow, none of its sub-DAG does. -/
theorem mem_orderDag_iff (hE : G.Entries state.dag) {leader y : Certificate} (hl : leader ∈ G.certs)
    (hfits : leader.round + self.gcDepth < 2 ^ 64) :
    y ∈ self.orderDag leader state ↔
      G.SubDag state leader y ∧ state.lastCommittedRound ≤ y.round + self.gcDepth := by
  rw [mem_orderDag hE hl]
  refine and_congr_right fun hy => ?_
  have hle := (SubDag.reaches hE hy).round_le
  rw [Round.add_eq (by omega)]

theorem nodup_orderDag (hE : G.Entries state.dag) {leader : Certificate} (hl : leader ∈ G.certs) :
    (self.orderDag leader state).Nodup := by
  have hnd := (visits_edges hE hl).nodup (edges_key hE) (edges_round_lt hE)
  rw [Consensus.orderDag, (List.perm_insertionSort _ _).nodup_iff]
  exact hnd.filter _

omit [Crypto] in
theorem pairwise_orderDag (leader : Certificate) (state : State) :
    (self.orderDag leader state).Pairwise fun x y => x.round ≤ y.round := by
  have : Std.Total fun x y : Certificate => x.round ≤ y.round := ⟨fun x y => le_total _ _⟩
  have : IsTrans Certificate fun x y => x.round ≤ y.round := ⟨fun x y z => le_trans⟩
  exact List.pairwise_insertionSort _ _

/-- Where the sum of the leader does not overflow, `order_dag` keeps what is at or above the
horizon. -/
theorem orderDag_eq_filter (hE : G.Entries state.dag) {leader : Certificate} (hl : leader ∈ G.certs)
    (hfits : leader.round + self.gcDepth < 2 ^ 64) :
    self.orderDag leader state
      = ((Consensus.orderDagLoop state (Consensus.dagSize state.dag + 1) [leader] []).filter fun x =>
          decide (state.lastCommittedRound ≤ x.round + self.gcDepth)).insertionSort
            fun x y => x.round ≤ y.round := by
  rw [Consensus.orderDag]
  refine congrArg _ (List.filter_congr fun x hx => ?_)
  have hsub : G.SubDag state leader x := ((visits_edges hE hl).mem_iff (edges_key_unique hE)).mp hx
  have hle := (SubDag.reaches hE hsub).round_le
  rw [Round.add_eq (by omega)]

/-- **Two DAGs that agree along the search are flattened alike**: two states with the same committed
rounds which hold the same parents, at or above the horizon, of what the leader reaches. -/
theorem orderDag_congr {state' : State} (hE : G.Entries state.dag) (hE' : G.Entries state'.dag)
    (hround : state.lastCommittedRound = state'.lastCommittedRound)
    (hlast : ∀ n, state.lastCommitted.lookup n = state'.lastCommitted.lookup n)
    {leader : Certificate} (hl : leader ∈ G.certs)
    (hfits : leader.round + self.gcDepth < 2 ^ 64)
    (hagree : ∀ x, G.SubDag state leader x → ∀ p, G.Parent x p →
      state.lastCommittedRound ≤ p.round + self.gcDepth →
        (Holds state.dag p ↔ Holds state'.dag p)) :
    self.orderDag leader state = self.orderDag leader state' := by
  let live : Certificate → Bool := fun x =>
    decide (state.lastCommittedRound ≤ x.round + self.gcDepth)
  have hdead : ∀ s : State, G.Entries s.dag → ∀ x, live x = false → ∀ e ∈ G.edges s x,
      live e.2 = false := by
    intro s hs x hx e he
    have hlt := edges_round_lt hs x e he
    simp only [live, decide_eq_false_iff_not] at hx ⊢
    omega
  have hcommitted : ∀ y, Consensus.alreadyCommitted state y = Consensus.alreadyCommitted state' y :=
    fun y => by rw [Consensus.alreadyCommitted, Consensus.alreadyCommitted, hlast]
  have hcut : ∀ x, G.SubDag state leader x →
      Search.cut live (G.edges state) x = Search.cut live (G.edges state') x := by
    intro x hx
    have hxG := (SubDag.reaches hE hx).mem hl
    simp only [Search.cut, edges, if_pos hxG, Consensus.successors, List.filter_filterMap]
    refine List.filterMap_congr fun d hd => Option.ext fun e => ?_
    simp only [Option.filter_eq_some_iff, findParent_eq_some_iff hE, findParent_eq_some_iff hE',
      hcommitted]
    constructor
    · rintro ⟨⟨⟨rfl, h1, h2, hold⟩, hc⟩, hlive⟩
      have hp : G.Parent x e.2 := ⟨hxG, (hE _ _ _ hold).2.2.2, h1 ▸ hd⟩
      exact ⟨⟨⟨rfl, h1, h2, (hagree x hx _ hp (by simpa [live] using hlive)).mp hold⟩, hc⟩,
        hlive⟩
    · rintro ⟨⟨⟨rfl, h1, h2, hold⟩, hc⟩, hlive⟩
      have hp : G.Parent x e.2 := ⟨hxG, (hE' _ _ _ hold).2.2.2, h1 ▸ hd⟩
      exact ⟨⟨⟨rfl, h1, h2, (hagree x hx _ hp (by simpa [live] using hlive)).mpr hold⟩, hc⟩,
        hlive⟩
  have hsearch := (visits_edges hE hl).filter (edges_key_unique hE) (hdead state hE) []
    fun _ _ _ _ => Iff.rfl
  have hsearch' := (visits_edges hE' hl).filter (edges_key_unique hE') (hdead state' hE') []
    fun _ _ _ _ => Iff.rfl
  have hclosed : ∀ x, G.SubDag state leader x → ∀ e ∈ Search.cut live (G.edges state) x,
      G.SubDag state leader e.2 := fun x hx e he => hx.tail ⟨e.1, (List.mem_filter.mp he).1⟩
  have hstart : ∀ x ∈ [leader].filter live, x ∈ {x | G.SubDag state leader x} := by
    intro x hx
    rw [List.mem_singleton.mp (List.mem_of_mem_filter hx)]
    exact .refl
  have heq := (hsearch.congr (H := {x | G.SubDag state leader x}) hcut hclosed hstart).unique
    hsearch'
  rw [orderDag_eq_filter hE hl hfits, orderDag_eq_filter hE' hl hfits, ← hround]
  exact congrArg _ heq

end Universe

end Bullshark
