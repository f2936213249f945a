import Mathlib.Data.Finset.Card
import Mathlib.Data.List.Nodup
import Mathlib.Logic.Relation

/-!
# Machinery/Search — depth-first search with a stack and a set of visited keys

The loop pops a node, emits it, and pushes those of its successors whose key is not visited yet,
marking them on the way.  `run` is the loop with fuel; `Visits` is the same loop as a relation,
without fuel.  Every key is pushed at most once, so fuel for the start and for each key is enough
(`visits_run`).

* `Visits.reach` / `Visits.closed` — the emitted nodes are the reachable ones.
* `Visits.nodup` — no node is emitted twice.
* `Visits.filter` — on the nodes of a class closed under predecessors, the search is the search of
  the graph cut down to that class.
-/

namespace Search

variable {α κ : Type*} [DecidableEq κ]

/-- Push the successors whose key is not visited yet, marking each. -/
def pushAll (l : List (κ × α)) (acc : List α × List κ) : List α × List κ :=
  l.foldl (fun acc e => if e.1 ∈ acc.2 then acc else (e.2 :: acc.1, e.1 :: acc.2)) acc

/-- The search loop, cut off after `n` turns. -/
def run (succ : α → List (κ × α)) : ℕ → List α → List κ → List α
  | 0, _, _ => []
  | _ + 1, [], _ => []
  | n + 1, x :: stack, visited =>
    let acc := pushAll (succ x) (stack, visited)
    x :: run succ n acc.1 acc.2

/-- The search loop as a relation: from `stack` and `visited` it ends, having emitted `out`. -/
inductive Visits (succ : α → List (κ × α)) : List α → List κ → List α → Prop
  | done (visited : List κ) : Visits succ [] visited []
  | step {x : α} {stack : List α} {visited : List κ} {out : List α} :
      Visits succ (pushAll (succ x) (stack, visited)).1 (pushAll (succ x) (stack, visited)).2 out →
      Visits succ (x :: stack) visited (x :: out)

@[simp] theorem pushAll_nil (acc : List α × List κ) : pushAll [] acc = acc := rfl

theorem pushAll_cons_of_mem {e : κ × α} {l : List (κ × α)} (acc : List α × List κ)
    (h : e.1 ∈ acc.2) : pushAll (e :: l) acc = pushAll l acc := by
  simp only [pushAll, List.foldl_cons, if_pos h]

theorem pushAll_cons_of_notMem {e : κ × α} {l : List (κ × α)} (acc : List α × List κ)
    (h : e.1 ∉ acc.2) : pushAll (e :: l) acc = pushAll l (e.2 :: acc.1, e.1 :: acc.2) := by
  simp only [pushAll, List.foldl_cons, if_neg h]

/-! ## What a turn does to the stack and to the marks -/

theorem visited_subset_pushAll (l : List (κ × α)) (acc : List α × List κ) :
    acc.2 ⊆ (pushAll l acc).2 := by
  induction l generalizing acc with
  | nil => simp
  | cons e l ih =>
    by_cases h : e.1 ∈ acc.2
    · rw [pushAll_cons_of_mem acc h]; exact ih acc
    · rw [pushAll_cons_of_notMem acc h]
      exact fun k hk => ih _ (List.mem_cons_of_mem _ hk)

theorem key_mem_pushAll {l : List (κ × α)} {e : κ × α} (he : e ∈ l) (acc : List α × List κ) :
    e.1 ∈ (pushAll l acc).2 := by
  induction l generalizing acc with
  | nil => cases he
  | cons e' l ih =>
    by_cases h : e'.1 ∈ acc.2
    · rw [pushAll_cons_of_mem acc h]
      rcases List.mem_cons.mp he with rfl | he
      · exact visited_subset_pushAll l acc h
      · exact ih he acc
    · rw [pushAll_cons_of_notMem acc h]
      rcases List.mem_cons.mp he with rfl | he
      · exact visited_subset_pushAll l _ List.mem_cons_self
      · exact ih he _

/-- A turn pushes fresh successors on top of the stack and marks exactly those. -/
theorem exists_pushed (l : List (κ × α)) (acc : List α × List κ) :
    ∃ p : List (κ × α), p ⊆ l ∧ (p.map Prod.fst).Nodup ∧ (∀ e ∈ p, e.1 ∉ acc.2) ∧
      (pushAll l acc).1 = p.map Prod.snd ++ acc.1 ∧
      (pushAll l acc).2 = p.map Prod.fst ++ acc.2 := by
  induction l generalizing acc with
  | nil => exact ⟨[], by simp⟩
  | cons e l ih =>
    by_cases h : e.1 ∈ acc.2
    · obtain ⟨p, hsub, hnd, hfresh, h1, h2⟩ := ih acc
      rw [pushAll_cons_of_mem acc h]
      exact ⟨p, fun x hx => List.mem_cons_of_mem _ (hsub hx), hnd, hfresh, h1, h2⟩
    · obtain ⟨p, hsub, hnd, hfresh, h1, h2⟩ := ih (e.2 :: acc.1, e.1 :: acc.2)
      rw [pushAll_cons_of_notMem acc h]
      refine ⟨p ++ [e], ?_, ?_, ?_, by simpa using h1, by simpa using h2⟩
      · intro x hx
        rcases List.mem_append.mp hx with hx | hx
        · exact List.mem_cons_of_mem _ (hsub hx)
        · rw [List.mem_singleton.mp hx]; exact List.mem_cons_self
      · rw [List.map_append, List.nodup_append]
        refine ⟨hnd, by simp, fun a ha b hb => ?_⟩
        obtain ⟨x, hx, rfl⟩ := List.mem_map.mp ha
        rw [List.map_singleton, List.mem_singleton] at hb
        exact fun hab => hfresh x hx (by rw [hab, hb]; exact List.mem_cons_self)
      · intro x hx
        rcases List.mem_append.mp hx with hx | hx
        · exact fun hmem => hfresh x hx (List.mem_cons_of_mem _ hmem)
        · rw [List.mem_singleton.mp hx]; exact h

/-! ## Enough fuel -/

/-- The keys of `K` that carry no mark. -/
def unvisited (K : Finset κ) (visited : List κ) : Finset κ := K.filter (· ∉ visited)

/-- A turn moves work from the unmarked keys to the stack, one for one. -/
theorem card_unvisited_pushAll {K : Finset κ} {l : List (κ × α)} (hK : ∀ e ∈ l, e.1 ∈ K)
    (acc : List α × List κ) :
    (pushAll l acc).1.length + (unvisited K (pushAll l acc).2).card
      = acc.1.length + (unvisited K acc.2).card := by
  induction l generalizing acc with
  | nil => simp
  | cons e l ih =>
    have hK' : ∀ e ∈ l, e.1 ∈ K := fun x hx => hK x (List.mem_cons_of_mem _ hx)
    by_cases h : e.1 ∈ acc.2
    · rw [pushAll_cons_of_mem acc h]; exact ih hK' acc
    · rw [pushAll_cons_of_notMem acc h, ih hK' (e.2 :: acc.1, e.1 :: acc.2)]
      have herase : unvisited K (e.1 :: acc.2) = (unvisited K acc.2).erase e.1 := by
        ext k
        simp only [unvisited, Finset.mem_filter, Finset.mem_erase, List.mem_cons, not_or]
        tauto
      have hmem : e.1 ∈ unvisited K acc.2 :=
        Finset.mem_filter.mpr ⟨hK e List.mem_cons_self, h⟩
      have hpos := Finset.card_pos.mpr ⟨_, hmem⟩
      rw [herase, Finset.card_erase_of_mem hmem, List.length_cons]
      omega

/-- **With a turn for each node of the stack and each unmarked key, the loop ends.** -/
theorem visits_run {succ : α → List (κ × α)} {K : Finset κ} (hK : ∀ x, ∀ e ∈ succ x, e.1 ∈ K) :
    ∀ (n : ℕ) (stack : List α) (visited : List κ),
      stack.length + (unvisited K visited).card ≤ n →
        Visits succ stack visited (run succ n stack visited)
  | 0, [], visited, _ => .done visited
  | 0, _ :: _, _, h => by simp at h
  | _ + 1, [], visited, _ => .done visited
  | n + 1, x :: stack, visited, h => by
      refine .step (visits_run hK n _ _ ?_)
      have hcard := card_unvisited_pushAll (hK x) (stack, visited)
      simp only [List.length_cons] at h hcard ⊢
      omega

/-- The relation is a function of the stack and the marks. -/
theorem Visits.unique {succ : α → List (κ × α)} {stack : List α} {visited : List κ}
    {out out' : List α} (h : Visits succ stack visited out) (h' : Visits succ stack visited out') :
    out = out' := by
  induction h generalizing out' with
  | done visited => cases h'; rfl
  | step _ ih =>
    cases h' with
    | step h' => rw [ih h']

/-! ## The emitted nodes are the reachable ones -/

/-- One step along the graph. -/
def Step (succ : α → List (κ × α)) (x y : α) : Prop := ∃ k, (k, y) ∈ succ x

/-- Reachability along the graph. -/
abbrev Reach (succ : α → List (κ × α)) : α → α → Prop := Relation.ReflTransGen (Step succ)

variable {succ : α → List (κ × α)}

theorem Visits.reach {stack : List α} {visited : List κ} {out : List α}
    (h : Visits succ stack visited out) : ∀ y ∈ out, ∃ x ∈ stack, Reach succ x y := by
  induction h with
  | done => intro y hy; cases hy
  | @step x stack visited out _ ih =>
    intro y hy
    rcases List.mem_cons.mp hy with rfl | hy
    · exact ⟨y, List.mem_cons_self, .refl⟩
    · obtain ⟨z, hz, hzy⟩ := ih y hy
      obtain ⟨p, hsub, -, -, hstack, -⟩ := exists_pushed (succ x) (stack, visited)
      rw [hstack] at hz
      rcases List.mem_append.mp hz with hz | hz
      · obtain ⟨⟨k, z'⟩, he, rfl⟩ := List.mem_map.mp hz
        exact ⟨x, List.mem_cons_self, .head ⟨k, hsub he⟩ hzy⟩
      · exact ⟨z, List.mem_cons_of_mem _ hz, hzy⟩

theorem Visits.stack_subset {stack : List α} {visited : List κ} {out : List α}
    (h : Visits succ stack visited out) : stack ⊆ out := by
  induction h with
  | done => simp
  | @step x stack visited out _ ih =>
    intro y hy
    rcases List.mem_cons.mp hy with rfl | hy
    · exact List.mem_cons_self
    · obtain ⟨p, -, -, -, hstack, -⟩ := exists_pushed (succ x) (stack, visited)
      exact List.mem_cons_of_mem _ (ih (by rw [hstack]; exact List.mem_append_right _ hy))

/-- **The emitted nodes, with those already done, are closed under successors** — `done` are nodes
whose successors all carry a mark, and a marked node is done or waits on the stack. -/
theorem Visits.closed (hkey : ∀ x x' k y y', (k, y) ∈ succ x → (k, y') ∈ succ x' → y = y')
    {stack : List α} {visited : List κ} {out : List α} (h : Visits succ stack visited out) :
    ∀ D : Set α, (∀ x k y, (k, y) ∈ succ x → k ∈ visited → y ∈ D ∨ y ∈ stack) →
      (∀ d ∈ D, ∀ e ∈ succ d, e.1 ∈ visited) →
        ∀ d, d ∈ D ∨ d ∈ out → ∀ e ∈ succ d, e.2 ∈ D ∨ e.2 ∈ out := by
  induction h with
  | done visited =>
    intro D hmark hD d hd e he
    rcases hd with hd | hd
    · exact (hmark d e.1 e.2 he (hD d hd e he)).imp id fun h => by cases h
    · cases hd
  | @step x stack visited out _ ih =>
    intro D hmark hD d hd e he
    obtain ⟨p, hsub, -, -, hstack, hvis⟩ := exists_pushed (succ x) (stack, visited)
    have key := ih (D ∪ {x}) ?_ ?_ d ?_ e he
    · rcases key with (hD | hx) | hout
      · exact Or.inl hD
      · exact Or.inr (by rw [Set.mem_singleton_iff.mp hx]; exact List.mem_cons_self)
      · exact Or.inr (List.mem_cons_of_mem _ hout)
    · intro z k y hy hk
      rw [hvis] at hk
      rw [hstack]
      rcases List.mem_append.mp hk with hk | hk
      · -- a key marked in this turn: its node has just been pushed
        obtain ⟨⟨k', y'⟩, he', rfl⟩ := List.mem_map.mp hk
        rw [hkey z x k' y y' hy (hsub he')]
        exact Or.inr (List.mem_append_left _ (List.mem_map.mpr ⟨_, he', rfl⟩))
      · rcases hmark z k y hy hk with hyD | hystack
        · exact Or.inl (Or.inl hyD)
        · rcases List.mem_cons.mp hystack with rfl | hystack
          · exact Or.inl (Or.inr rfl)
          · exact Or.inr (List.mem_append_right _ hystack)
    · rintro d' (hd' | hd') e' he'
      · exact visited_subset_pushAll _ _ (hD d' hd' e' he')
      · rw [Set.mem_singleton_iff.mp hd'] at he'
        exact key_mem_pushAll he' _
    · rcases hd with hd | hd
      · exact Or.inl (Or.inl hd)
      · rcases List.mem_cons.mp hd with rfl | hd
        · exact Or.inl (Or.inr rfl)
        · exact Or.inr hd

/-- **A search from one node emits exactly the nodes it reaches.** -/
theorem Visits.mem_iff (hkey : ∀ x x' k y y', (k, y) ∈ succ x → (k, y') ∈ succ x' → y = y')
    {root : α} {out : List α} (h : Visits succ [root] [] out) {y : α} :
    y ∈ out ↔ Reach succ root y := by
  constructor
  · intro hy
    obtain ⟨x, hx, hxy⟩ := h.reach y hy
    rwa [List.mem_singleton.mp hx] at hxy
  · intro hy
    have hclosed := h.closed hkey ∅ (fun _ _ _ _ hk => by cases hk) (fun _ hd => by cases hd)
    induction hy with
    | refl => exact h.stack_subset List.mem_cons_self
    | tail _ hstep ih =>
      obtain ⟨k, hk⟩ := hstep
      exact (hclosed _ (Or.inr ih) _ hk).resolve_left fun h => by cases h

/-! ## No node is emitted twice -/

/-- From a stack of distinct marked nodes, every node is emitted once. -/
theorem Visits.nodup_of_marked {key : α → κ} (hkey : ∀ x, ∀ e ∈ succ x, e.1 = key e.2)
    {stack : List α} {visited : List κ} {out : List α} (h : Visits succ stack visited out) :
    stack.Nodup → (∀ y ∈ stack, key y ∈ visited) →
      out.Nodup ∧ ∀ y ∈ out, y ∈ stack ∨ key y ∉ visited := by
  induction h with
  | done => exact fun _ _ => ⟨List.nodup_nil, fun y hy => by cases hy⟩
  | @step x stack visited out _ ih =>
    intro hnd hmark
    obtain ⟨p, hsub, hpnd, hfresh, hstack, hvis⟩ := exists_pushed (succ x) (stack, visited)
    obtain ⟨hx, hnd'⟩ := List.nodup_cons.mp hnd
    have hpkey : ∀ e ∈ p, e.1 = key e.2 := fun e he => hkey x e (hsub he)
    have hmap : p.map Prod.fst = (p.map Prod.snd).map key := by
      rw [List.map_map]
      exact List.map_congr_left hpkey
    have hfreshNode : ∀ y ∈ p.map Prod.snd, key y ∉ visited := by
      intro y hy
      obtain ⟨e, he, rfl⟩ := List.mem_map.mp hy
      rw [← hpkey e he]
      exact hfresh e he
    have hstackNodup : (p.map Prod.snd ++ stack).Nodup := by
      rw [List.nodup_append]
      refine ⟨List.Nodup.of_map key (hmap ▸ hpnd), hnd', fun a ha b hb hab => ?_⟩
      exact hfreshNode a ha (by rw [hab]; exact hmark b (List.mem_cons_of_mem _ hb))
    have hstackMarked : ∀ y ∈ p.map Prod.snd ++ stack, key y ∈ p.map Prod.fst ++ visited := by
      intro y hy
      rcases List.mem_append.mp hy with hy | hy
      · rw [hmap]
        exact List.mem_append_left _ (List.mem_map.mpr ⟨y, hy, rfl⟩)
      · exact List.mem_append_right _ (hmark y (List.mem_cons_of_mem _ hy))
    rw [hstack, hvis] at ih
    obtain ⟨hout, hfrom⟩ := ih hstackNodup hstackMarked
    refine ⟨List.nodup_cons.mpr ⟨fun hxout => ?_, hout⟩, fun y hy => ?_⟩
    · rcases hfrom x hxout with hmem | hmem
      · rcases List.mem_append.mp hmem with hmem | hmem
        · exact hfreshNode x hmem (hmark x List.mem_cons_self)
        · exact hx hmem
      · exact hmem (List.mem_append_right _ (hmark x List.mem_cons_self))
    · rcases List.mem_cons.mp hy with rfl | hy
      · exact Or.inl List.mem_cons_self
      · rcases hfrom y hy with hmem | hmem
        · rcases List.mem_append.mp hmem with hmem | hmem
          · exact Or.inr (hfreshNode y hmem)
          · exact Or.inl (List.mem_cons_of_mem _ hmem)
        · exact Or.inr fun hk => hmem (List.mem_append_right _ hk)

omit [DecidableEq κ] in
/-- A node reached along edges that descend lies below. -/
theorem rank_le_of_reach {rank : α → ℕ} (hrank : ∀ x, ∀ e ∈ succ x, rank e.2 < rank x) {x y : α}
    (h : Reach succ x y) : rank y ≤ rank x := by
  induction h with
  | refl => exact le_rfl
  | tail _ hstep ih =>
    obtain ⟨k, hk⟩ := hstep
    exact (hrank _ _ hk).le.trans ih

/-- **A search that does not come back to its root emits no node twice.** -/
theorem Visits.nodup_of_acyclic {key : α → κ} (hkey : ∀ x, ∀ e ∈ succ x, e.1 = key e.2) {root : α}
    (hroot : ∀ e ∈ succ root, ¬ Reach succ e.2 root) {out : List α}
    (h : Visits succ [root] [] out) : out.Nodup := by
  cases h with
  | @step _ _ _ out h =>
    obtain ⟨p, hsub, hpnd, -, hstack, hvis⟩ := exists_pushed (succ root) ([], [])
    have hnot : root ∉ out := by
      intro hmem
      obtain ⟨x, hx, hreach⟩ := h.reach root hmem
      rw [hstack, List.append_nil] at hx
      obtain ⟨e, he, rfl⟩ := List.mem_map.mp hx
      exact hroot e (hsub he) hreach
    rw [hstack, hvis, List.append_nil, List.append_nil] at h
    have hmap : p.map Prod.fst = (p.map Prod.snd).map key := by
      rw [List.map_map]
      exact List.map_congr_left fun e he => hkey root e (hsub he)
    refine List.nodup_cons.mpr ⟨hnot, (h.nodup_of_marked hkey ?_ fun y hy => ?_).1⟩
    · exact List.Nodup.of_map key (hmap ▸ hpnd)
    · rw [hmap]
      exact List.mem_map.mpr ⟨y, hy, rfl⟩

/-- A search along edges that descend emits no node twice. -/
theorem Visits.nodup {key : α → κ} (hkey : ∀ x, ∀ e ∈ succ x, e.1 = key e.2) {rank : α → ℕ}
    (hrank : ∀ x, ∀ e ∈ succ x, rank e.2 < rank x) {root : α} {out : List α}
    (h : Visits succ [root] [] out) : out.Nodup :=
  h.nodup_of_acyclic hkey fun e he hreach =>
    absurd (rank_le_of_reach hrank hreach) (not_le.mpr (hrank root e he))

/-! ## Searching a part of the graph -/

/-- The graph cut down to the nodes of a class. -/
def cut (p : α → Bool) (succ : α → List (κ × α)) (x : α) : List (κ × α) :=
  (succ x).filter fun e => p e.2

/-- The marks of two searches agree on the keys of a class. -/
def AgreeOn (p : α → Bool) (succ : α → List (κ × α)) (visited visited' : List κ) : Prop :=
  ∀ x, ∀ e ∈ succ x, p e.2 → (e.1 ∈ visited ↔ e.1 ∈ visited')

/-- A turn of the search, seen on the nodes of the class. -/
theorem pushAll_filter {p : α → Bool}
    (hkey : ∀ x x' k y y', (k, y) ∈ succ x → (k, y') ∈ succ x' → y = y') {x : α} :
    ∀ {l : List (κ × α)}, l ⊆ succ x → ∀ (stack : List α) (visited visited' : List κ),
      AgreeOn p succ visited visited' →
        (pushAll l (stack, visited)).1.filter p
            = (pushAll (l.filter fun e => p e.2) (stack.filter p, visited')).1 ∧
          AgreeOn p succ (pushAll l (stack, visited)).2
            (pushAll (l.filter fun e => p e.2) (stack.filter p, visited')).2 := by
  intro l
  induction l with
  | nil => exact fun _ _ _ _ hagree => ⟨rfl, hagree⟩
  | cons e l ih =>
    intro hsub stack visited visited' hagree
    have hmem : e ∈ succ x := hsub List.mem_cons_self
    have hsub' : l ⊆ succ x := fun y hy => hsub (List.mem_cons_of_mem _ hy)
    cases hp : p e.2 with
    | true =>
      rw [List.filter_cons_of_pos (by exact hp)]
      by_cases h : e.1 ∈ visited
      · rw [pushAll_cons_of_mem (stack, visited) h,
          pushAll_cons_of_mem (stack.filter p, visited') ((hagree x e hmem hp).mp h)]
        exact ih hsub' stack visited visited' hagree
      · rw [pushAll_cons_of_notMem (stack, visited) h,
          pushAll_cons_of_notMem (stack.filter p, visited')
            (fun h' => h ((hagree x e hmem hp).mpr h'))]
        have key := ih hsub' (e.2 :: stack) (e.1 :: visited) (e.1 :: visited')
          fun z f hf hpf => by
            simp only [List.mem_cons, hagree z f hf hpf]
        rwa [List.filter_cons_of_pos hp] at key
    | false =>
      rw [List.filter_cons_of_neg (by simp [hp])]
      by_cases h : e.1 ∈ visited
      · rw [pushAll_cons_of_mem (stack, visited) h]
        exact ih hsub' stack visited visited' hagree
      · rw [pushAll_cons_of_notMem (stack, visited) h]
        have key := ih hsub' (e.2 :: stack) (e.1 :: visited) visited' fun z f hf hpf => by
            rw [List.mem_cons, ← hagree z f hf hpf]
            refine or_iff_right fun hfe => ?_
            have : f.2 = e.2 := hkey z x f.1 f.2 e.2 hf (hfe ▸ hmem)
            rw [this, hp] at hpf
            cases hpf
        rwa [List.filter_cons_of_neg (by simp [hp])] at key

/-- **The search, seen on the nodes of a class closed under predecessors**, is the search of the
graph cut down to the class. -/
theorem Visits.filter {p : α → Bool}
    (hkey : ∀ x x' k y y', (k, y) ∈ succ x → (k, y') ∈ succ x' → y = y')
    (hdead : ∀ x, p x = false → ∀ e ∈ succ x, p e.2 = false)
    {stack : List α} {visited : List κ} {out : List α} (h : Visits succ stack visited out) :
    ∀ visited', AgreeOn p succ visited visited' →
      Visits (cut p succ) (stack.filter p) visited' (out.filter p) := by
  induction h with
  | done => exact fun visited' _ => .done visited'
  | @step x stack visited out _ ih =>
    intro visited' hagree
    obtain ⟨hstack, hvis⟩ := pushAll_filter hkey (List.Subset.refl (succ x)) stack visited visited' hagree
    cases hp : p x with
    | true =>
      rw [List.filter_cons_of_pos hp, List.filter_cons_of_pos hp]
      refine .step ?_
      have key := ih _ hvis
      rwa [hstack] at key
    | false =>
      have hnil : ((succ x).filter fun e => p e.2) = [] :=
        List.filter_eq_nil_iff.mpr fun e he => by simp [hdead x hp e he]
      rw [List.filter_cons_of_neg (by simp [hp]), List.filter_cons_of_neg (by simp [hp])]
      rw [hnil, pushAll_nil] at hstack hvis
      have key := ih _ hvis
      rwa [hstack] at key

/-- Two graphs with the same successors on a closed set of nodes are searched alike. -/
theorem Visits.congr {succ' : α → List (κ × α)} {H : Set α} (heq : ∀ x ∈ H, succ x = succ' x)
    (hH : ∀ x ∈ H, ∀ e ∈ succ x, e.2 ∈ H) {stack : List α} {visited : List κ} {out : List α}
    (h : Visits succ stack visited out) :
    (∀ x ∈ stack, x ∈ H) → Visits succ' stack visited out := by
  induction h with
  | done => exact fun _ => .done _
  | @step x stack visited out _ ih =>
    intro hstack
    have hx := hstack x List.mem_cons_self
    refine .step ?_
    rw [← heq x hx]
    refine ih fun y hy => ?_
    obtain ⟨p, hsub, -, -, hpush, -⟩ := exists_pushed (succ x) (stack, visited)
    rw [hpush] at hy
    rcases List.mem_append.mp hy with hy | hy
    · obtain ⟨e, he, rfl⟩ := List.mem_map.mp hy
      exact hH x hx e (hsub he)
    · exact hstack y (List.mem_cons_of_mem _ hy)

end Search
