import Bullshark.Consensus.Vetted
import Bullshark.Primary.Sample

/-!
# Consensus/Once — no certificate is committed twice

A certificate sent is covered by its author's last committed round.  If the DAG still holds it, that
round is its own, and the equality test of `order_dag` skips it; if its author moved on, the purge
dropped it (`Spent`).  Leaders are pushed without a test, but they are above the last committed
round, and a leader never lies below one committed before it in the same turn, because parents are
received before their children.  On an input without repetitions this is enough
(`no_double_commit`); no quorum and no round number is asked of the certificates.
-/

namespace Bullshark

namespace Consensus

section

variable [Crypto]

/-- A parent-closed sequence without repetitions, of at most one certificate per round and author,
whose digests do not collide. -/
structure Fresh (committee : Committee) (s : List Certificate) : Prop where
  nodup : s.Nodup
  parentsFirst : Universe.ParentsFirst committee s
  unique : ∀ c ∈ s, ∀ c' ∈ s, c.round = c'.round → c.origin = c'.origin → c = c'
  collisionFree : ∀ c ∈ s ++ Certificate.genesis committee, ∀ c' ∈ s ++ Certificate.genesis committee,
    c.digest = c'.digest → c = c'

instance (committee : Committee) (s : List Certificate) : Decidable (Fresh committee s) :=
  decidable_of_iff (s.Nodup ∧ Universe.ParentsFirst committee s ∧
    (∀ c ∈ s, ∀ c' ∈ s, c.round = c'.round → c.origin = c'.origin → c = c') ∧
    ∀ c ∈ s ++ Certificate.genesis committee, ∀ c' ∈ s ++ Certificate.genesis committee,
      c.digest = c'.digest → c = c')
    ⟨fun h => ⟨h.1, h.2.1, h.2.2.1, h.2.2.2⟩, fun h => ⟨h.1, h.2, h.3, h.4⟩⟩

variable {self : Consensus} {state : State} {s pre out : List Certificate}

/-! ## Paths lead back in time -/

/-- The DAG holds what was received, and genesis. -/
def Supplied (committee : Committee) (s : List Certificate) (dag : Dag) : Prop :=
  ∀ r n e, dag.get r n = some e → e.2 ∈ s ++ Certificate.genesis committee

theorem Supplied.insert {committee : Committee} (h : Supplied committee s state.dag)
    {c : Certificate} (hc : c ∈ s) : Supplied committee s (state.insert c).dag := by
  intro r n e he
  rw [State.get_insert] at he
  split at he
  · cases he
    exact List.mem_append_left _ hc
  · exact h r n e he

omit [Crypto] in
theorem Supplied.updateAll {committee : Committee} (h : Supplied committee s state.dag) (gc : ℕ)
    (ys : List Certificate) : Supplied committee s (State.updateAll gc state ys).dag :=
  fun r n e he => h r n e (State.get_of_get_updateAll gc he)

/-- An edge leads to genesis, or to a certificate received before. -/
theorem idxOf_lt_of_edge {committee : Committee} (hs : Fresh committee s) {dag : Dag}
    (hk : Keyed dag) (hdag : Supplied committee s dag) {x p : Certificate} (hx : x ∈ s)
    (h : Edge dag x p) : p ∈ Certificate.genesis committee ∨ (p ∈ s ∧ s.idxOf p < s.idxOf x) := by
  obtain ⟨r, n, d, hget, hd⟩ := h
  have hlt := List.idxOf_lt_length_of_mem hx
  have hgetx : s.get ⟨s.idxOf x, hlt⟩ = x := List.idxOf_get hlt
  obtain ⟨q, hq, hdigest⟩ := hs.parentsFirst ⟨s.idxOf x, hlt⟩ d (hgetx.symm ▸ hd)
  have hqs : q ∈ s ++ Certificate.genesis committee :=
    (List.mem_append.mp hq).elim (fun h => List.mem_append_left _ (List.mem_of_mem_take h))
      (List.mem_append_right _)
  obtain rfl : q = p := hs.collisionFree q hqs p (hdag r n _ hget)
    (hdigest.trans (hk r n _ hget).1)
  rcases List.mem_append.mp hq with hq | hq
  · have hmem := List.mem_of_mem_take hq
    exact Or.inr ⟨hmem, (List.mem_take_iff_idxOf_lt hmem).mp hq⟩
  · exact Or.inl hq

/-- **So does a path.** -/
theorem idxOf_lt_of_descends {committee : Committee} (hs : Fresh committee s) {dag : Dag}
    (hk : Keyed dag) (hdag : Supplied committee s dag) {x p : Certificate} (hx : x ∈ s)
    (h : Descends dag x p) :
    p ∈ Certificate.genesis committee ∨ (p ∈ s ∧ s.idxOf p < s.idxOf x) := by
  induction h with
  | single hedge => exact idxOf_lt_of_edge hs hk hdag hx hedge
  | tail _ hedge ih =>
    rcases ih with hgenesis | ⟨hmem, hlt⟩
    · obtain ⟨r, n, d, -, hd⟩ := hedge
      rw [Universe.genesis_parents hgenesis] at hd
      cases hd
    · exact (idxOf_lt_of_edge hs hk hdag hmem hedge).imp_right fun h => ⟨h.1, h.2.trans hlt⟩

/-! ## What was sent is spent -/

/-- After receiving certificates of `s` and sending `out`: what was sent is covered, and skipped
where the DAG still holds it. -/
structure Spent (task : Consensus) (s out : List Certificate) (state : State) : Prop where
  keyed : Keyed state.dag
  supplied : Supplied task.committee s state.dag
  max : state.RoundIsMax
  covered : ∀ x ∈ out, ∃ r, state.lastCommitted.lookup x.origin = some r ∧ x.round ≤ r
  skipped : ∀ x ∈ out, ∀ e, state.dag.get x.round x.origin = some e →
    state.lastCommitted.lookup x.origin = some x.round
  nodup : out.Nodup

/-- A certificate that is not sent yet arrives. -/
theorem Spent.insert (h : self.Spent s out state) {c : Certificate} (hc : c ∈ s)
    (hnew : ∀ x ∈ out, ¬ (x.round = c.round ∧ x.origin = c.origin)) :
    self.Spent s out (state.insert c) where
  keyed := h.keyed.insert c
  supplied := h.supplied.insert hc
  max := h.max
  covered := h.covered
  skipped x hx e he := by
    rw [State.get_insert, if_neg (hnew x hx)] at he
    exact h.skipped x hx e he
  nodup := h.nodup

/-- **Committing a leader** that was not sent, and that is no genesis certificate. -/
theorem Spent.commitLeader (hs : Fresh self.committee s) (h : self.Spent s out state)
    {leader : Certificate} (hl : leader ∈ s) (hround : leader.round ≠ 0) (hnew : leader ∉ out) :
    self.Spent s (out ++ self.orderDag leader state)
      (State.updateAll self.gcDepth state (self.orderDag leader state)) := by
  have hback : ∀ {y}, Descends state.dag leader y →
      y ∈ Certificate.genesis self.committee ∨ (y ∈ s ∧ s.idxOf y < s.idxOf leader) :=
    idxOf_lt_of_descends hs h.keyed h.supplied hl
  have hkey : ∀ x, ∀ e ∈ successors state x, e.1 = Certificate.digest e.2 := by
    intro x e he
    obtain ⟨-, ⟨r, n, hget⟩, -⟩ := mem_successors he
    exact (h.keyed r n e hget).1
  have hnodup : (self.orderDag leader state).Nodup := by
    rw [orderDag, (List.perm_insertionSort _ _).nodup_iff]
    refine List.Nodup.filter _ ((visits_orderDagLoop state leader).nodup_of_acyclic hkey
      fun e he hreach => ?_)
    rcases hback (descends_of_reach he hreach) with hgenesis | ⟨-, hlt⟩
    · exact hround (round_genesis hgenesis)
    · exact lt_irrefl _ hlt
  have hdisjoint : ∀ x ∈ out, ∀ y ∈ self.orderDag leader state, x ≠ y := by
    rintro x hx y hy rfl
    rcases descends_of_mem_orderDag hy with rfl | ⟨-, ⟨r, n, d, hget⟩, hopen⟩
    · exact hnew hx
    · obtain ⟨-, hr, hn⟩ := h.keyed r n _ hget
      have hlast := h.skipped x hx (d, x) (by rw [hr, hn]; exact hget)
      rw [alreadyCommitted, hlast] at hopen
      simp at hopen
  have hcovered : ∀ x ∈ out ++ self.orderDag leader state,
      ∃ r, (State.updateAll self.gcDepth state (self.orderDag leader state)).lastCommitted.lookup
        x.origin = some r ∧ x.round ≤ r := by
    intro x hx
    rcases List.mem_append.mp hx with hx | hx
    · obtain ⟨r, hr, hle⟩ := h.covered x hx
      obtain ⟨r', hr', hle'⟩ := State.lookup_updateAll_mono self.gcDepth
        (self.orderDag leader state) state hr
      exact ⟨r', hr', hle.trans hle'⟩
    · exact State.lookup_updateAll_of_mem self.gcDepth state hx
  by_cases hnil : self.orderDag leader state = []
  · rw [hnil, List.append_nil]
    exact h
  · exact
      { keyed := h.keyed.updateAll _ _
        supplied := h.supplied.updateAll _ _
        max := State.roundIsMax_updateAll self.gcDepth h.max _
        covered := hcovered
        skipped := by
          intro x hx e he
          obtain ⟨r, hr, hle⟩ := hcovered x hx
          rw [hr, le_antisymm (((State.get_updateAll self.gcDepth hnil).mp he).2.1 r hr) hle]
        nodup := List.nodup_append.mpr ⟨h.nodup, hnodup, hdisjoint⟩ }

/-- **Committing a line of leaders**: none of them was sent before its turn. -/
theorem Spent.commitLeaders (hs : Fresh self.committee s) :
    ∀ {leaders : List Certificate} {state : State} {out : List Certificate},
      self.Spent s out state → (∀ l ∈ leaders, l ∈ s ∧ l.round ≠ 0 ∧ l ∉ out) →
      (leaders.Pairwise fun x y => s.idxOf x < s.idxOf y) →
      self.Spent s (out ++ txOutput (self.commitLeaders state leaders).2)
        (self.commitLeaders state leaders).1
  | [], _, out, h, _, _ => (List.append_nil out).symm ▸ h
  | leader :: leaders, state, out, h, hleaders, hpath => by
      obtain ⟨⟨hl, hround, hnew⟩, hrest⟩ := List.forall_mem_cons.mp hleaders
      obtain ⟨hfirst, hpath⟩ := List.pairwise_cons.mp hpath
      have hstep := h.commitLeader hs hl hround hnew
      have hlater : ∀ l ∈ leaders, l ∈ s ∧ l.round ≠ 0 ∧ l ∉ out ++ self.orderDag leader state := by
        intro l hl'
        obtain ⟨hmem, hr, hout⟩ := hrest l hl'
        refine ⟨hmem, hr, fun hsent => ?_⟩
        have hlt := hfirst l hl'
        rcases List.mem_append.mp hsent with hsent | hsent
        · exact hout hsent
        · rcases descends_of_mem_orderDag hsent with rfl | ⟨hdesc, -, -⟩
          · exact lt_irrefl _ hlt
          · rcases idxOf_lt_of_descends hs h.keyed h.supplied hl hdesc with hgenesis | ⟨-, hgt⟩
            · exact hr (round_genesis hgenesis)
            · exact lt_asymm hlt hgt
      have hall := hstep.commitLeaders hs hlater hpath
      rwa [List.append_assoc] at hall

/-- **One turn of the main loop.** -/
theorem Spent.commits (hs : Fresh self.committee s) (h : self.Spent s out state)
    {result : State × List Emission} (hc : Commits self state result) :
    self.Spent s (out ++ txOutput result.2) result.1 := by
  have hlineup : ∀ {leaders}, Lineup state leaders →
      (∀ l ∈ leaders, l ∈ s ∧ l.round ≠ 0 ∧ l ∉ out) ∧
        leaders.Pairwise fun x y => s.idxOf x < s.idxOf y := by
    intro leaders hleaders
    have hmem : ∀ l ∈ leaders, l ∈ s ∧ l.round ≠ 0 := by
      intro l hl
      obtain ⟨n, d, hget⟩ := hleaders.held l hl
      have hround := hleaders.two_le l hl
      refine ⟨(List.mem_append.mp (h.supplied _ _ _ hget)).resolve_right fun hgenesis => ?_,
        by omega⟩
      rw [round_genesis hgenesis] at hround
      omega
    refine ⟨fun l hl => ⟨(hmem l hl).1, (hmem l hl).2, fun hsent => ?_⟩, ?_⟩
    · obtain ⟨r, hr, hle⟩ := h.covered l hsent
      have := h.max.1 _ r hr
      have := hleaders.above l hl
      omega
    · refine hleaders.path.imp_of_mem fun {x y} hx hy hdesc => ?_
      rcases idxOf_lt_of_descends hs h.keyed h.supplied (hmem y hy).1 hdesc with hgenesis | ⟨-, hlt⟩
      · exact absurd (round_genesis hgenesis) (hmem x hx).2
      · exact hlt
  cases hc with
  | wait => exact (List.append_nil out).symm ▸ h
  | skip lr =>
    have hresolved : self.Spent s out (resolve state lr) := ⟨h.1, h.2, h.3, h.4, h.5, h.6⟩
    exact (List.append_nil out).symm ▸ hresolved
  | fallback lr hl =>
    have hresolved : self.Spent s out (resolve state lr) := ⟨h.1, h.2, h.3, h.4, h.5, h.6⟩
    exact hresolved.commitLeaders hs (hlineup hl).1 (hlineup hl).2
  | steady hl => exact h.commitLeaders hs (hlineup hl).1 (hlineup hl).2

/-- **No certificate is committed twice**, in either mode, on a parent-closed sequence without
repetitions of at most one certificate per round and author. -/
theorem no_double_commit (self : Consensus) (s : List Certificate)
    (hs : Fresh self.committee s) : (self.output s).Nodup := by
  refine (output_induct (P := fun pre state out => self.Spent s out state ∧
      Vetted (· ∈ pre) state ∧ ∀ x ∈ out, x ∈ pre) (Q := List.Nodup) ?_ ?_
      fun _ _ _ h => h.1.nodup).2
  · refine ⟨⟨keyed_new _, ?_, ?_, ?_, ?_, List.nodup_nil⟩, vetted_new _, fun x hx => by cases hx⟩
    · intro r n e he
      obtain ⟨-, c, hc, -, rfl⟩ := get_new.mp he
      exact List.mem_append_right _ hc
    · exact ⟨fun n r hr => by rw [lookup_new hr]; exact Nat.zero_le _, Or.inl rfl⟩
    · exact fun x hx => by cases hx
    · exact fun x hx => by cases hx
  · rintro pre c state result hpre - ⟨hspent, hvetted, hout⟩ hp
    have hcs : c ∈ s := hpre.subset (by simp)
    have hnotin : c ∉ pre := by
      have := hs.nodup.sublist hpre.sublist
      rw [List.nodup_append] at this
      exact fun hmem => this.2.2 c hmem c List.mem_cons_self rfl
    have hfresh : ∀ x ∈ self.output pre, ¬ (x.round = c.round ∧ x.origin = c.origin) := by
      rintro x hx ⟨hround, horigin⟩
      have hxpre := hout x hx
      have hxs : x ∈ s := hpre.subset (List.mem_append_left _ hxpre)
      exact hnotin (hs.unique x hxs c hcs hround horigin ▸ hxpre)
    have hvetted' : Vetted (· ∈ pre ++ [c]) (state.insert c) := by
      refine Vetted.insert (fun r n e he => ?_) (Or.inl (by simp))
      exact (hvetted r n e he).imp_left (List.mem_append_left _)
    have hc := commits_process hspent.keyed hp
    obtain ⟨hnext, hsent⟩ := hvetted'.commits hc
    refine ⟨(hspent.insert hcs hfresh).commits hs hc, hnext, fun x hx => ?_⟩
    rcases List.mem_append.mp hx with hx | hx
    · exact List.mem_append_left _ (hout x hx)
    · exact hsent x hx

end

namespace Repetition

open Sample

/-- Four authorities, and a chain of full rounds. -/
def cert (author : ℕ) (round : UInt64) (parents : List Certificate) : Certificate :=
  certificate committee4 (key author) round parents

def a : List Certificate := [1, 2, 3, 4].map fun n => cert n 1 (Certificate.genesis committee4)
def b : List Certificate := [1, 2, 3, 4].map fun n => cert n 2 a
def c : List Certificate := [1, 2, 3, 4].map fun n => cert n 3 b

def task : Consensus := ⟨committee4, 50, false⟩

set_option maxRecDepth 100000 in
theorem fresh : Fresh committee4 (a ++ b ++ c) ∧ task.output (a ++ b ++ c) ≠ [] := by
  decide +kernel

theorem no_double_commit_chain : Fresh committee4 (a ++ b ++ c) ∧
    task.output (a ++ b ++ c) ≠ [] ∧ (task.output (a ++ b ++ c)).Nodup :=
  ⟨fresh.1, fresh.2, no_double_commit task (a ++ b ++ c) fresh.1⟩

end Repetition

end Consensus

end Bullshark
