import Bullshark.Consensus.Exact

/-!
# Consensus/Paths — `linked` decides whether there is a path

No universe here: the DAG is any map whose entries sit at their round and author, and of the two
certificates it need only hold the lower one.  Where it has every round from the lower one up to
below the upper one, `linked` does not panic; after each turn of its loop `parents` are the
certificates of that round at the end of a chain from the upper one (`foldlM_linkedStep_eq`), so
the answer is whether there is a chain, or the two are equal as `PartialEq` has it
(`linked_decides`).
-/

namespace Bullshark

namespace Consensus

variable {dag : Dag}

/-- Every entry sits at its round and its author. -/
def Placed (dag : Dag) : Prop :=
  ∀ r n e, dag.get r n = some e → e.2.round = r ∧ e.2.origin = n

/-- One link of a chain: a certificate of the DAG, of the round just below, whose digest is among
the parents. -/
def Link (dag : Dag) (x y : Certificate) : Prop :=
  (∃ d ∈ x.header.parents, dag.get y.round y.origin = some (d, y)) ∧ y.round + 1 = x.round

/-- A chain of one link or more. -/
abbrev Chain (dag : Dag) : Certificate → Certificate → Prop := Relation.TransGen (Link dag)

theorem round_le_of_links {x y : Certificate} (h : Relation.ReflTransGen (Link dag) x y) :
    y.round ≤ x.round := by
  induction h with
  | refl => exact le_rfl
  | tail _ hlink ih =>
    have := hlink.2
    omega

theorem Chain.round_lt {x y : Certificate} (h : Chain dag x y) : y.round < x.round := by
  obtain ⟨z, hxz, hlink⟩ := Relation.TransGen.tail'_iff.mp h
  have hle := round_le_of_links hxz
  have := hlink.2
  omega

theorem Chain.has {x y : Certificate} (h : Chain dag x y) : dag.Has y := by
  obtain ⟨z, -, ⟨d, -, hget⟩, -⟩ := Relation.TransGen.tail'_iff.mp h
  exact ⟨d, hget⟩

/-- One turn of the loop, at a round that the DAG has. -/
theorem linkedStep_eq (hplace : Placed dag) {r : ℕ} (hr : (dag.lookup r).isSome)
    (parents : List Certificate) : ∃ l, linkedStep dag parents r = .ok l ∧ ∀ x, x ∈ l ↔
      x.round = r ∧ ∃ y ∈ parents, ∃ d ∈ y.header.parents,
        dag.get x.round x.origin = some (d, x) := by
  obtain ⟨authorities, hlookup⟩ := Option.isSome_iff_exists.mp hr
  refine ⟨_, by rw [linkedStep, hlookup], fun x => ?_⟩
  simp only [List.mem_map, List.mem_filter, List.any_eq_true, decide_eq_true_eq]
  constructor
  · rintro ⟨e, ⟨he, y, hy, hd⟩, rfl⟩
    obtain ⟨n, hn⟩ := AList.mem_values.mp he
    have hget : dag.get r n = some e := by rw [Dag.get, hlookup]; exact hn
    obtain ⟨rfl, rfl⟩ := hplace _ _ _ hget
    exact ⟨rfl, y, hy, e.1, hd, hget⟩
  · rintro ⟨rfl, y, hy, d, hd, hget⟩
    rw [Dag.get, hlookup] at hget
    exact ⟨(d, x), ⟨AList.mem_values.mpr ⟨_, hget⟩, y, hy, hd⟩, rfl⟩

/-- **After the loop, `parents` are the ends of the chains down to the round.** -/
theorem foldlM_linkedStep_eq (hplace : Placed dag) {a : Certificate} : ∀ (k r : ℕ),
    a.round = r + k → (∀ r', r ≤ r' → r' < a.round → (dag.lookup r').isSome) →
      ∃ l, (List.range' r k).reverse.foldlM (linkedStep dag) [a] = .ok l ∧
        ∀ x, x ∈ l ↔ Relation.ReflTransGen (Link dag) a x ∧ x.round = r
  | 0, r, hr, _ => by
      refine ⟨[a], rfl, fun x => ?_⟩
      rw [List.mem_singleton, Relation.reflTransGen_iff_eq_or_transGen]
      constructor
      · rintro rfl
        exact ⟨Or.inl rfl, hr⟩
      · rintro ⟨rfl | hx, hround⟩
        · rfl
        · have := Chain.round_lt hx
          omega
  | k + 1, r, hr, hrounds => by
      obtain ⟨l, hl, hmem⟩ := foldlM_linkedStep_eq hplace k (r + 1) (by omega)
        fun r' hr' => hrounds r' (by omega)
      obtain ⟨l', hl', hmem'⟩ := linkedStep_eq hplace (hrounds r le_rfl (by omega)) l
      refine ⟨l', ?_, fun x => ?_⟩
      · rw [List.range'_succ, List.reverse_cons, List.foldlM_append, hl]
        show List.foldlM (linkedStep dag) l [r] = .ok l'
        rw [List.foldlM_cons, hl']
        rfl
      · rw [hmem']
        constructor
        · rintro ⟨hround, y, hy, d, hd, hget⟩
          obtain ⟨hay, hyround⟩ := (hmem y).mp hy
          exact ⟨hay.tail ⟨⟨d, hd, hget⟩, by omega⟩, hround⟩
        · rintro ⟨hax, hround⟩
          rcases Relation.ReflTransGen.cases_tail hax with rfl | ⟨y, hay, ⟨d, hd, hget⟩, hyround⟩
          · omega
          · exact ⟨hround, y, (hmem y).mpr ⟨hay, by omega⟩, d, hd, hget⟩

/-- Two certificates of the DAG that are equal for `PartialEq` are the same. -/
theorem eq_of_partialEq {x b : Certificate} (hx : dag.Has x) (hb : dag.Has b)
    (h : x.partialEq b = true) : x = b := by
  obtain ⟨d, hx⟩ := hx
  obtain ⟨d', hb⟩ := hb
  simp only [Certificate.partialEq, Bool.and_eq_true, decide_eq_true_eq] at h
  rw [h.1.2, h.2, hb] at hx
  exact (Prod.mk.inj (Option.some.inj hx)).2.symm

/-- **`linked` decides reachability**: where the DAG holds `b`, and every round from that of `b` up
to below that of `a`, it answers whether `a == b` or there is a chain down from `a` to `b`. -/
theorem linked_decides (hplace : Placed dag) {a b : Certificate} (hb : dag.Has b)
    (hrounds : ∀ r, b.round ≤ r → r < a.round → (dag.lookup r).isSome) :
    ∃ answer, linked a b dag = .ok answer ∧
      (answer = true ↔ a.partialEq b = true ∨ Chain dag a b) := by
  rcases Nat.lt_or_ge b.round a.round with hlt | hge
  · obtain ⟨l, hl, hmem⟩ :=
      foldlM_linkedStep_eq hplace (a.round - b.round) b.round (by omega) hrounds
    have hne : a.partialEq b ≠ true := by
      intro heq
      simp only [Certificate.partialEq, Bool.and_eq_true, decide_eq_true_eq] at heq
      omega
    refine ⟨_, by rw [linked, hl]; rfl, ?_⟩
    rw [List.any_eq_true, or_iff_right hne]
    constructor
    · rintro ⟨x, hx, heq⟩
      obtain ⟨hax, hround⟩ := (hmem x).mp hx
      rcases Relation.reflTransGen_iff_eq_or_transGen.mp hax with rfl | hax
      · exact absurd heq hne
      · rwa [eq_of_partialEq (Chain.has hax) hb heq] at hax
    · intro hab
      refine ⟨b, (hmem b).mpr ⟨hab.to_reflTransGen, rfl⟩, ?_⟩
      simp [Certificate.partialEq]
  · -- no turn of the loop: `a` is compared with `b`, and every chain goes down
    have hnone : a.round - b.round = 0 := by omega
    refine ⟨a.partialEq b, ?_, ?_⟩
    · rw [linked, hnone]
      exact congrArg Except.ok (Bool.or_false _)
    · rw [or_iff_left fun hab => by have := Chain.round_lt hab; omega]

end Consensus

/-! ## A leader over three certificates -/

namespace Consensus.OneRoundDown

open Sample

/-- A certificate of the first round. -/
def lower : Certificate := certificate committee4 (key 2) 1 (Certificate.genesis committee4)

/-- A certificate of the second round, on the first one alone. -/
def upper : Certificate := certificate committee4 (key 3) 2 [lower]

def dag : Dag := (((State.new (Certificate.genesis committee4)).insert lower).insert upper).dag

set_option maxRecDepth 100000 in
theorem linked_upper : dag.WellFormed ∧
    dag.get lower.round lower.origin = some (lower.digest, lower) ∧
    linked upper lower dag = .ok true ∧ upper.round = 2 ∧ lower.round = 1 ∧
      (dag.lookup 1).isSome := by
  decide +kernel

/-- The answer on the upper certificate, as the theorem reads it. -/
theorem chain_upper : Chain dag upper lower := by
  obtain ⟨hwell, hget, hlinked, hupper, hlower, hone⟩ := linked_upper
  obtain ⟨answer, hanswer, hiff⟩ := linked_decides (fun r n e h => hwell.place r n e h)
    ⟨_, hget⟩ (a := upper) fun r hr hr' => by
      rwa [show r = 1 by omega]
  rw [hlinked] at hanswer
  rcases hiff.mp (Except.ok.inj hanswer).symm with heq | hchain
  · simp only [Certificate.partialEq, Bool.and_eq_true, decide_eq_true_eq] at heq
    omega
  · exact hchain

end Consensus.OneRoundDown

end Bullshark
