import Bullshark.Consensus.Commits

/-!
# Consensus/Vetted — what goes in is what comes out

The DAG starts with the genesis certificates, which are never ordered: the equality test with
`last_committed` skips them, and the purge after a commit drops them.  So where every certificate
received above round zero satisfies `P`, and one of round zero arrives only while nothing of its
author was committed, every certificate sent on `tx_output` satisfies `P` (`vetted_output`).
Nothing is assumed of the order of arrival, of equivocations or of missing parents.
-/

namespace Bullshark

namespace Consensus

/-- The entries satisfy `P`; those of round zero that do not are skipped by `order_dag`. -/
def Vetted (P : Certificate → Prop) (state : State) : Prop :=
  ∀ r n e, state.dag.get r n = some e → P e.2 ∨
    (r = 0 ∧ e.2.round = 0 ∧ e.2.origin = n ∧ state.lastCommitted.lookup n = some 0)

variable {self : Consensus} {P : Certificate → Prop} {state : State}

theorem Vetted.holds (h : Vetted P state) {r : ℕ} {n : PublicKey} {e : Digest × Certificate}
    (he : state.dag.get r n = some e) (hr : r ≠ 0) : P e.2 :=
  (h r n e he).resolve_right fun h0 => hr h0.1

/-- **The sub-DAG of a vetted leader is vetted.** -/
theorem Vetted.orderDag (h : Vetted P state) {leader : Certificate} (hl : P leader) :
    ∀ y ∈ self.orderDag leader state, P y := by
  intro y hy
  rcases descends_of_mem_orderDag hy with rfl | ⟨-, ⟨r, n, d, hget⟩, hnew⟩
  · exact hl
  · rcases h r n _ hget with hP | ⟨-, hround, horigin, hlast⟩
    · exact hP
    · rw [alreadyCommitted, horigin, hlast, hround] at hnew
      simp at hnew

/-- A commit above round zero drops the genesis certificate of its author. -/
theorem Vetted.update (h : Vetted P state) (c : Certificate) (gc : ℕ) :
    Vetted P (state.update c gc) := by
  intro r n e he
  obtain ⟨hget, hlast, -⟩ := State.get_update.mp he
  refine (h r n e hget).imp_right ?_
  rintro ⟨rfl, hround, horigin, hzero⟩
  refine ⟨rfl, hround, horigin, ?_⟩
  rw [State.lookup_update] at hlast ⊢
  split
  · next hn =>
    rw [if_pos hn] at hlast
    rw [Nat.le_zero.mp (hlast _ rfl)]
  · exact hzero

theorem Vetted.updateAll (gc : ℕ) (ys : List Certificate) (h : Vetted P state) :
    Vetted P (State.updateAll gc state ys) := by
  induction ys generalizing state with
  | nil => exact h
  | cons y ys ih => exact ih (h.update y gc)

theorem Vetted.commitLeaders {leaders : List Certificate} : ∀ {state : State}, Vetted P state →
    (∀ l ∈ leaders, P l) → Vetted P (self.commitLeaders state leaders).1 ∧
      ∀ y ∈ txOutput (self.commitLeaders state leaders).2, P y := by
  induction leaders with
  | nil => exact fun h _ => ⟨h, fun y hy => by cases hy⟩
  | cons leader leaders ih =>
    intro state h hl
    obtain ⟨hleader, hleaders⟩ := List.forall_mem_cons.mp hl
    obtain ⟨hrest, hout⟩ := ih (h.updateAll self.gcDepth (self.orderDag leader state)) hleaders
    refine ⟨hrest, fun y hy => ?_⟩
    rcases List.mem_append.mp hy with hy | hy
    · exact h.orderDag hleader y hy
    · exact hout y hy

/-- **One turn of the main loop**: the state stays vetted and so is what is sent. -/
theorem Vetted.commits (h : Vetted P state) {result : State × List Emission}
    (hc : Commits self state result) : Vetted P result.1 ∧ ∀ y ∈ txOutput result.2, P y := by
  have hlineup : ∀ {leaders}, Lineup state leaders → ∀ l ∈ leaders, P l := by
    intro leaders hleaders l hl
    obtain ⟨n, d, hget⟩ := hleaders.held l hl
    have := hleaders.two_le l hl
    exact h.holds hget (by omega)
  cases hc with
  | wait => exact ⟨h, fun y hy => by cases hy⟩
  | skip lr => exact ⟨h, fun y hy => by cases hy⟩
  | fallback lr hl =>
    have hresolved : Vetted P (resolve state lr) := h
    exact hresolved.commitLeaders (hlineup hl)
  | steady hl => exact h.commitLeaders (hlineup hl)

/-! ## Whole runs -/

variable [Crypto]

/-- A certificate of round zero arrives while nothing of its author was committed. -/
def GenesisOnTime : Except Panic State → Certificate → Prop
  | .ok state, c => c.round = 0 → state.lastCommitted.lookup c.origin = some 0
  | .error _, _ => True

instance (r : Except Panic State) (c : Certificate) : Decidable (GenesisOnTime r c) :=
  match r with
  | .ok state =>
    inferInstanceAs (Decidable (c.round = 0 → state.lastCommitted.lookup c.origin = some 0))
  | .error _ => inferInstanceAs (Decidable True)

theorem Vetted.insert (h : Vetted P state) {c : Certificate}
    (hc : P c ∨ (c.round = 0 ∧ state.lastCommitted.lookup c.origin = some 0)) :
    Vetted P (state.insert c) := by
  intro r n e he
  rw [State.get_insert] at he
  split at he
  · next hkey =>
    cases he
    obtain ⟨hr, hn⟩ := hkey
    refine hc.imp_right fun ⟨hround, hlast⟩ => ?_
    exact ⟨hr.trans hround, hround, hn.symm, hn ▸ hlast⟩
  · exact h r n e he

theorem vetted_new (committee : Committee) :
    Vetted P (State.new (Certificate.genesis committee)) := by
  intro r n e he
  obtain ⟨rfl, c, hc, horigin, rfl⟩ := get_new.mp he
  have hround := round_genesis hc
  refine Or.inr ⟨rfl, hround, horigin, ?_⟩
  have hnd : (((Certificate.genesis committee).map fun c => (c.origin, c.round)).map
      Prod.fst).Nodup := by
    rw [List.map_map]
    exact (map_origin_genesis committee).symm ▸ committee.authorities.nodup_keys
  rw [State.new, AList.lookup_collect_eq_some_iff hnd, List.mem_map]
  exact ⟨c, hc, by rw [horigin, hround]⟩

/-- **What goes in is what comes out**: where every certificate received above round zero satisfies
`P`, and those of round zero are on time, every certificate sent satisfies `P`. -/
theorem vetted_output {s : List Certificate} (hs : ∀ c ∈ s, c.round ≠ 0 → P c)
    (hzero : self.machine.Along GenesisOnTime s) : ∀ c ∈ self.output s, P c := by
  refine (output_induct (P := fun _ state out => Keyed state.dag ∧ Vetted P state ∧ ∀ c ∈ out, P c)
    (Q := fun out => ∀ c ∈ out, P c) ⟨keyed_new _, vetted_new _, fun c hc => by cases hc⟩ ?_
    fun _ _ _ h => h.2.2).2
  rintro pre c state result hpre hstate ⟨hkeyed, hvetted, hout⟩ hp
  have hc := commits_process hkeyed hp
  have hontime := hzero pre c hpre
  rw [hstate] at hontime
  have hinsert : Vetted P (state.insert c) := by
    refine hvetted.insert ?_
    by_cases hround : c.round = 0
    · exact Or.inr ⟨hround, hontime hround⟩
    · exact Or.inl (hs c (hpre.subset (by simp)) hround)
  obtain ⟨hnext, hsent⟩ := hinsert.commits hc
  exact ⟨hc.keyed (hkeyed.insert c), hnext, fun y hy =>
    (List.mem_append.mp hy).elim (hout y) (hsent y)⟩

end Consensus

end Bullshark
