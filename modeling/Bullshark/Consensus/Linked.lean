import Bullshark.Consensus.Flatten

/-!
# Consensus/Linked — what `linked` tells

`linked` walks down the DAG one round at a time, keeping the certificates named as parents by the
ones above.  Where the DAG holds the whole history of the upper certificate down to the round of
the lower one, it does not panic, and it answers whether the lower one is in the causal history of
the upper one (`linked_eq`).
-/

namespace Bullshark

namespace Universe

variable [Crypto] {committee : Committee} {G : Universe committee}

/-- The DAG holds the causal history of `c` down to round `low`. -/
def Complete (G : Universe committee) (dag : Dag) (low : ℕ) (c : Certificate) : Prop :=
  ∀ p, G.Reaches c p → low ≤ p.round → p.round < c.round → Holds dag p

theorem Complete.mono {dag : Dag} {low low' : ℕ} {c : Certificate} (h : G.Complete dag low c)
    (hle : low ≤ low') : G.Complete dag low' c := fun p hp hr => h p hp (hle.trans hr)

/-- One turn of the loop: the certificates of the round that `parents` name. -/
theorem linkedStep_spec {dag : Dag} (hE : G.Entries dag) {r : ℕ} {p : Certificate}
    (hp : Holds dag p) (hpr : p.round = r) (parents : List Certificate) :
    ∃ l, Consensus.linkedStep dag parents r = .ok l ∧
      ∀ x, x ∈ l ↔ Holds dag x ∧ x.round = r ∧ ∃ y ∈ parents, x.digest ∈ y.header.parents := by
  subst hpr
  obtain ⟨authorities, hlookup, -⟩ := Option.bind_eq_some_iff.mp hp
  refine ⟨_, by rw [Consensus.linkedStep, hlookup], fun x => ?_⟩
  simp only [List.mem_map, List.mem_filter, List.any_eq_true, decide_eq_true_eq]
  constructor
  · rintro ⟨e, ⟨he, y, hy, hd⟩, rfl⟩
    obtain ⟨n, hn⟩ := AList.mem_values.mp he
    have hget : dag.get p.round n = some e := by rw [Dag.get, hlookup]; exact hn
    obtain ⟨h1, h2, -, -⟩ := hE _ _ _ hget
    exact ⟨hE.holds hget, h2, y, hy, h1 ▸ hd⟩
  · rintro ⟨hx, hxr, y, hy, hd⟩
    rw [Holds, Dag.get, hxr, hlookup] at hx
    exact ⟨(x.digest, x), ⟨AList.mem_values.mpr ⟨_, hx⟩, y, hy, hd⟩, rfl⟩

/-- **After the loop, `parents` are the certificates of the round in the causal history.** -/
theorem foldlM_linkedStep {dag : Dag} (hE : G.Entries dag) {c : Certificate} (hc : c ∈ G.certs) :
    ∀ (k r : ℕ), c.round = r + k → G.Complete dag r c →
      ∃ l, (List.range' r k).reverse.foldlM (Consensus.linkedStep dag) [c] = .ok l ∧
        ∀ x, x ∈ l ↔ G.Reaches c x ∧ x.round = r
  | 0, r, hr, _ => by
      refine ⟨[c], rfl, fun x => ?_⟩
      rw [List.mem_singleton]
      constructor
      · rintro rfl
        exact ⟨.refl, hr⟩
      · rintro ⟨hx, hxr⟩
        exact hx.eq_of_round_eq (by omega)
  | k + 1, r, hr, hcomplete => by
      obtain ⟨l, hl, hmem⟩ := foldlM_linkedStep hE hc k (r + 1) (by omega)
        (hcomplete.mono (Nat.le_succ r))
      obtain ⟨p, hp, hpr⟩ := exists_reaches_round (k + 1) hc hr
      obtain ⟨l', hl', hmem'⟩ := linkedStep_spec hE
        (hcomplete p hp hpr.ge (by omega)) hpr l
      refine ⟨l', ?_, fun x => ?_⟩
      · rw [List.range'_succ, List.reverse_cons, List.foldlM_append, hl]
        show List.foldlM (Consensus.linkedStep dag) l [r] = .ok l'
        rw [List.foldlM_cons, hl']
        rfl
      · rw [hmem']
        constructor
        · rintro ⟨hx, hxr, y, hy, hd⟩
          have hcy := ((hmem y).mp hy).1
          exact ⟨hcy.tail ⟨hcy.mem hc, (hE _ _ _ hx).2.2.2, hd⟩, hxr⟩
        · rintro ⟨hx, hxr⟩
          refine ⟨hcomplete x hx hxr.ge (by omega), hxr, ?_⟩
          rcases Relation.ReflTransGen.cases_tail hx with rfl | ⟨y, hcy, hyx⟩
          · omega
          · have := hyx.round_succ
            exact ⟨y, (hmem y).mpr ⟨hcy, by omega⟩, hyx.2.2⟩

/-- Within a universe, `==` on certificates is equality. -/
theorem partialEq_iff {c c' : Certificate} (hc : c ∈ G.certs) (hc' : c' ∈ G.certs) :
    c.partialEq c' = true ↔ c = c' := by
  constructor
  · intro h
    simp only [Certificate.partialEq, Bool.and_eq_true, decide_eq_true_eq] at h
    exact G.unique c hc c' hc' h.1.2 h.2
  · rintro rfl
    simp [Certificate.partialEq]

open Classical in
/-- **`linked` decides the causal history**, where the DAG holds it. -/
theorem linked_eq {dag : Dag} (hE : G.Entries dag) {c p : Certificate} (hc : c ∈ G.certs)
    (hp : p ∈ G.certs) (hle : p.round ≤ c.round) (hcomplete : G.Complete dag p.round c) :
    Consensus.linked c p dag = .ok (decide (G.Reaches c p)) := by
  obtain ⟨l, hl, hmem⟩ := foldlM_linkedStep hE hc (c.round - p.round) p.round (by omega) hcomplete
  rw [Consensus.linked, hl]
  refine congrArg Except.ok (Bool.eq_iff_iff.mpr ?_)
  rw [List.any_eq_true, decide_eq_true_eq]
  constructor
  · rintro ⟨x, hx, heq⟩
    have hcx := ((hmem x).mp hx).1
    rwa [(partialEq_iff (hcx.mem hc) hp).mp heq] at hcx
  · intro h
    exact ⟨p, (hmem p).mpr ⟨h, rfl⟩, (partialEq_iff hp hp).mpr rfl⟩

end Universe

end Bullshark
