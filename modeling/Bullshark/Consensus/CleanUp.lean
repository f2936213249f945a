import Bullshark.Consensus.State
import Bullshark.Primary.Sample

/-!
# Consensus/CleanUp — `State::update`, whatever the order of the maps

The maps of `State` are hash maps, and `update` walks all of them: `last_committed` for the maximum
and for the loop, and in each turn of the loop the DAG and the rounds it holds.  Here none of the
walks has a fixed order: `State.UpdatesTo` relates a state to each one that `update` may leave, and
`State.update` is the one where every map is walked as it stands (`updatesTo_update`).  All of them
are the same: the rounds raised, their maximum, and one filter on the DAG.

The filter should keep what is at or above its author's last committed round and the horizon.
`round + gc_depth` is a sum of two `u64`, so it does exactly where no such sum wraps below the last
committed round (`update_cleans_iff`).
-/

namespace Bullshark

/-! ## Maps in another order -/

/-- The same rounds with the same entries, in any order. -/
structure Dag.Same (dag dag' : Dag) : Prop where
  rounds : ∀ r, (dag'.lookup r).isSome = (dag.lookup r).isSome
  entries : ∀ r n, dag'.get r n = dag.get r n

/-- No round map is empty. -/
def Dag.NoneEmpty (dag : Dag) : Prop := ∀ r, (dag.lookup r).isSome → ∃ n, (dag.get r n).isSome

/-- No sum of a round of the DAG and `gc_depth` overflows. -/
def Dag.SumsFit (gcDepth : ℕ) (dag : Dag) : Prop := ∀ r ∈ dag.keys, r + gcDepth < 2 ^ 64

instance (gcDepth : ℕ) (dag : Dag) : Decidable (dag.SumsFit gcDepth) :=
  inferInstanceAs (Decidable (∀ r ∈ dag.keys, _))

theorem Dag.SumsFit.of_get {gcDepth : ℕ} {dag : Dag} (h : dag.SumsFit gcDepth) {r : ℕ}
    {n : PublicKey} {e : Digest × Certificate} (he : dag.get r n = some e) :
    r + gcDepth < 2 ^ 64 := by
  obtain ⟨authorities, hlookup, -⟩ := Option.bind_eq_some_iff.mp he
  exact h r (AList.lookup_isSome.mp (Option.isSome_iff_exists.mpr ⟨authorities, hlookup⟩))

theorem Dag.Same.refl (dag : Dag) : dag.Same dag := ⟨fun _ => rfl, fun _ _ => rfl⟩

theorem Dag.Same.noneEmpty {dag dag' : Dag} (h : dag.Same dag') (hne : dag.NoneEmpty) :
    dag'.NoneEmpty := by
  intro r hr
  rw [h.rounds] at hr
  obtain ⟨n, hn⟩ := hne r hr
  exact ⟨n, by rwa [h.entries]⟩

namespace State

variable {gc lcr : ℕ}

/-! ## The loop -/

/-- **A turn of the loop drops what its author made before the round**, and what is below the
horizon. -/
theorem get_retainFrom {gc lcr : ℕ} {dag : Dag} {name : PublicKey} {round r : ℕ}
    {n : PublicKey} {e : Digest × Certificate} :
    (retainFrom gc lcr dag name round).get r n = some e ↔
      dag.get r n = some e ∧ (n = name → round ≤ r) ∧ lcr ≤ Round.add r gc := by
  simp only [Dag.get, retainFrom, AList.lookup_retain, Option.bind_eq_some_iff]
  constructor
  · rintro ⟨authorities, ⟨authorities', hlookup, hkeep⟩, hn⟩
    split at hkeep
    · next hcond =>
      cases hkeep
      rw [AList.lookup_retain, Option.bind_eq_some_iff] at hn
      obtain ⟨x, hx, hsome⟩ := hn
      split at hsome
      · next hname =>
        cases hsome
        exact ⟨⟨authorities', hlookup, hx⟩, fun hn => hname.resolve_left (not_not.mpr hn), hcond.2⟩
      · cases hsome
    · cases hkeep
  · rintro ⟨⟨authorities, hlookup, hn⟩, hname, hgc⟩
    have hmem : (authorities.retain fun n x =>
        if n ≠ name ∨ r ≥ round then some x else none).lookup n = some e := by
      rw [AList.lookup_retain, hn, Option.bind_some]
      exact if_pos (or_iff_not_imp_left.mpr fun h => hname (not_not.mp h))
    refine ⟨_, ⟨authorities, hlookup, if_pos ⟨fun hnil => ?_, hgc⟩⟩, hmem⟩
    rw [AList.values_eq_nil_iff.mp hnil n] at hmem
    cases hmem

/-- **A turn of the loop leaves no round map empty.** -/
theorem noneEmpty_retainFrom (gc lcr : ℕ) (dag : Dag) (name : PublicKey) (round : ℕ) :
    (retainFrom gc lcr dag name round).NoneEmpty := by
  intro r hr
  obtain ⟨authorities, hauthorities⟩ := Option.isSome_iff_exists.mp hr
  have hkept := hauthorities
  rw [retainFrom, AList.lookup_retain, Option.bind_eq_some_iff] at hkept
  obtain ⟨before, -, hkept⟩ := hkept
  obtain ⟨⟨hvalues, -⟩, hsame⟩ := Option.ite_none_right_eq_some.mp hkept
  obtain ⟨e, he⟩ := List.exists_mem_of_ne_nil _ hvalues
  obtain ⟨n, hn⟩ := AList.mem_values.mp he
  refine ⟨n, Option.isSome_iff_exists.mpr ⟨e, ?_⟩⟩
  rw [Dag.get, hauthorities, ← Option.some.inj hsame]
  exact hn

/-- The loop of `update` over some entries of `last_committed`: before each turn, and after the
last one, the maps of the DAG may stand in any order. -/
inductive CleanUp (gc lcr : ℕ) : List (Σ _ : PublicKey, ℕ) → Dag → Dag → Prop
  | nil {dag dag' : Dag} : dag.Same dag' → CleanUp gc lcr [] dag dag'
  | cons {x : Σ _ : PublicKey, ℕ} {l : List (Σ _ : PublicKey, ℕ)} {dag dag₁ dag' : Dag} :
      dag.Same dag₁ → CleanUp gc lcr l (retainFrom gc lcr dag₁ x.1 x.2) dag' →
        CleanUp gc lcr (x :: l) dag dag'

theorem cleanUp_foldl : ∀ (l : List (Σ _ : PublicKey, ℕ)) (dag : Dag),
    CleanUp gc lcr l dag (l.foldl (fun dag x => retainFrom gc lcr dag x.1 x.2) dag)
  | [], dag => CleanUp.nil (Dag.Same.refl dag)
  | _ :: l, dag => CleanUp.cons (Dag.Same.refl dag) (cleanUp_foldl l _)

/-- **The loop is one filter on the entries.** -/
theorem CleanUp.get_iff {l : List (Σ _ : PublicKey, ℕ)} {dag dag' : Dag}
    (h : CleanUp gc lcr l dag dag') {r : ℕ} {n : PublicKey} {e : Digest × Certificate} :
    dag'.get r n = some e ↔
      dag.get r n = some e ∧ (∀ x ∈ l, n = x.1 → x.2 ≤ r) ∧
        (l ≠ [] → lcr ≤ Round.add r gc) := by
  induction h with
  | nil hsame => simp [hsame.entries]
  | cons hsame _ ih =>
    rw [ih, get_retainFrom, hsame.entries]
    simp only [List.mem_cons, forall_eq_or_imp, ne_eq, reduceCtorEq, not_false_eq_true,
      true_implies]
    tauto

theorem CleanUp.noneEmpty {l : List (Σ _ : PublicKey, ℕ)} {dag dag' : Dag}
    (h : CleanUp gc lcr l dag dag') (hdag : l = [] → dag.NoneEmpty) : dag'.NoneEmpty := by
  induction h with
  | nil hsame => exact hsame.noneEmpty (hdag rfl)
  | cons _ _ ih => exact ih fun _ => noneEmpty_retainFrom _ _ _ _ _

/-! ## The update -/

/-- The last committed round of an authority, zero where it has none. -/
def lastRound (state : State) (n : PublicKey) : ℕ := (state.lastCommitted.lookup n).getD 0

theorem lastRound_le_iff {state : State} {n : PublicKey} {k : ℕ} :
    state.lastRound n ≤ k ↔ ∀ r, state.lastCommitted.lookup n = some r → r ≤ k := by
  rw [lastRound]
  cases state.lastCommitted.lookup n with
  | none => simp
  | some r => simp

theorem le_foldl_max (l : List ℕ) (a : ℕ) :
    a ≤ l.foldl max a ∧ ∀ r ∈ l, r ≤ l.foldl max a := by
  induction l generalizing a with
  | nil => simp
  | cons b l ih =>
    obtain ⟨hle, hall⟩ := ih (max a b)
    refine ⟨(le_max_left a b).trans hle, fun r hr => ?_⟩
    rcases List.mem_cons.mp hr with rfl | hr
    · exact (le_max_right a r).trans hle
    · exact hall r hr

theorem foldl_max_mem (l : List ℕ) (a : ℕ) : l.foldl max a = a ∨ l.foldl max a ∈ l := by
  induction l generalizing a with
  | nil => exact Or.inl rfl
  | cons b l ih =>
    rw [List.foldl_cons]
    rcases ih (max a b) with h | h
    · rcases le_total a b with hab | hab
      · exact Or.inr (by rw [h, max_eq_right hab]; exact List.mem_cons_self)
      · exact Or.inl (by rw [h, max_eq_left hab])
    · exact Or.inr (List.mem_cons_of_mem _ h)

/-- `last_committed` with the round of a certificate recorded: `entry`, `and_modify` and
`or_insert_with`. -/
def recorded (state : State) (c : Certificate) : HashMap PublicKey ℕ :=
  state.lastCommitted.insert c.origin
    (match state.lastCommitted.lookup c.origin with
      | some r => max r c.round
      | none => c.round)

/-- The states `update` may leave, the maps walked in any order. -/
structure UpdatesTo (state : State) (c : Certificate) (gc : ℕ) (state' : State) : Prop where
  lastCommitted : state'.lastCommitted.entries.Perm (state.recorded c).entries
  lastCommittedRound : state'.lastCommittedRound = state'.lastCommitted.values.foldl max 0
  dag : CleanUp gc state'.lastCommittedRound state'.lastCommitted.entries state.dag state'.dag
  resolved : state'.resolvedFallbackRounds = state.resolvedFallbackRounds

/-- Every map walked as it stands. -/
theorem updatesTo_update (state : State) (c : Certificate) (gc : ℕ) :
    state.UpdatesTo c gc (state.update c gc) where
  lastCommitted := List.Perm.refl _
  lastCommittedRound := rfl
  dag := cleanUp_foldl _ _
  resolved := rfl

variable {state state' : State} {c : Certificate}

theorem UpdatesTo.lookup (h : state.UpdatesTo c gc state') (n : PublicKey) :
    state'.lastCommitted.lookup n
      = if n = c.origin then some (max (state.lastRound n) c.round)
        else state.lastCommitted.lookup n := by
  rw [AList.perm_lookup h.lastCommitted, recorded, AList.lookup_insert_eq, lastRound]
  by_cases hn : n = c.origin
  · subst hn
    rcases hold : state.lastCommitted.lookup c.origin with _ | r
    · simp
    · simp
  · rw [if_neg hn, if_neg hn]

theorem UpdatesTo.isGreatest (h : state.UpdatesTo c gc state') :
    IsGreatest {r | ∃ n, state'.lastCommitted.lookup n = some r} state'.lastCommittedRound := by
  have hvalues : ∀ r, r ∈ state'.lastCommitted.values ↔
      ∃ n, state'.lastCommitted.lookup n = some r := fun _ => AList.mem_values
  have hbound := (le_foldl_max state'.lastCommitted.values 0).2
  rw [← h.lastCommittedRound] at hbound
  refine ⟨?_, fun r hr => hbound r ((hvalues r).mpr hr)⟩
  rcases foldl_max_mem state'.lastCommitted.values 0 with hzero | hmem
  · -- the round of the certificate itself is not above zero
    rw [← h.lastCommittedRound] at hzero
    have hself := (h.lookup c.origin).trans (if_pos rfl)
    have hle := hbound _ ((hvalues _).mpr ⟨_, hself⟩)
    exact ⟨c.origin, hself.trans (congrArg some (by omega))⟩
  · rw [← h.lastCommittedRound] at hmem
    exact (hvalues _).mp hmem

/-- The loop takes at least one turn, that of the author. -/
theorem UpdatesTo.entries_ne_nil (h : state.UpdatesTo c gc state') :
    state'.lastCommitted.entries ≠ [] := by
  intro hnil
  have hmem := AList.mem_lookup_iff.mp (Option.mem_def.mpr
    ((h.lookup c.origin).trans (if_pos rfl)))
  rw [hnil] at hmem
  cases hmem

theorem UpdatesTo.get_iff (h : state.UpdatesTo c gc state') {r : ℕ} {n : PublicKey}
    {e : Digest × Certificate} : state'.dag.get r n = some e ↔ state.dag.get r n = some e ∧
      (∀ r', state'.lastCommitted.lookup n = some r' → r' ≤ r) ∧
        state'.lastCommittedRound ≤ Round.add r gc := by
  rw [h.dag.get_iff, forall_prop_of_true h.entries_ne_nil]
  refine and_congr_right fun _ => and_congr_left fun _ =>
    ⟨fun hl r' hr' => ?_, fun hl x hx hn => ?_⟩
  · exact hl ⟨n, r'⟩ (AList.mem_lookup_iff.mp hr') rfl
  · subst hn
    exact hl x.2 (AList.mem_lookup_iff.mpr hx)

theorem UpdatesTo.noneEmpty (h : state.UpdatesTo c gc state') : state'.dag.NoneEmpty :=
  h.dag.noneEmpty fun hnil => absurd hnil h.entries_ne_nil

/-! ## What the update is for -/

/-- `update` cleans up as intended: it raises the last committed round of the author, takes the
maximum, and keeps the entries at or above their author's last committed round and at or above the
horizon, and no empty round. -/
structure Cleans (state : State) (c : Certificate) (gc : ℕ) (state' : State) : Prop where
  rounds : ∀ n, state'.lastCommitted.lookup n
    = if n = c.origin then some (max (state.lastRound n) c.round)
      else state.lastCommitted.lookup n
  greatest : IsGreatest {r | ∃ n, state'.lastCommitted.lookup n = some r} state'.lastCommittedRound
  entries : ∀ r n e, state'.dag.get r n = some e ↔ state.dag.get r n = some e ∧
    (∀ r', state'.lastCommitted.lookup n = some r' → r' ≤ r) ∧
      state'.lastCommittedRound ≤ r + gc
  noneEmpty : state'.dag.NoneEmpty

/-- The round of the certificate and the last committed rounds are all at or below this one. -/
def Bounded (state : State) (c : Certificate) (k : ℕ) : Prop :=
  c.round ≤ k ∧ ∀ n r, state.lastCommitted.lookup n = some r → r ≤ k

/-- No entry at or above its author's last committed round has a sum of its round and `gc_depth`
that reaches the horizon but wraps below it. -/
def HorizonFits (state : State) (c : Certificate) (gc : ℕ) : Prop :=
  ∀ r n e, state.dag.get r n = some e → state.lastRound n ≤ r → (n = c.origin → c.round ≤ r) →
    state.Bounded c (r + gc) → state.Bounded c (Round.add r gc)

theorem horizonFits_of_sumsFit (h : state.dag.SumsFit gc) : state.HorizonFits c gc := by
  intro r n e he _ _ hbounded
  rwa [Round.add_eq (h.of_get he)]

theorem UpdatesTo.lastCommittedRound_le_iff (h : state.UpdatesTo c gc state') {k : ℕ} :
    state'.lastCommittedRound ≤ k ↔ state.Bounded c k := by
  have hself := (h.lookup c.origin).trans (if_pos rfl)
  constructor
  · intro hle
    have hbound : ∀ n r, state'.lastCommitted.lookup n = some r → r ≤ k := fun n r hr =>
      (h.isGreatest.2 ⟨n, hr⟩).trans hle
    refine ⟨(le_max_right _ _).trans (hbound _ _ hself), fun n r hr => ?_⟩
    by_cases hn : n = c.origin
    · subst hn
      rw [lastRound, hr] at hself
      exact (le_max_left _ _).trans (hbound _ _ hself)
    · exact hbound n r ((h.lookup n).trans ((if_neg hn).trans hr))
  · rintro ⟨hround, hlast⟩
    obtain ⟨n, hn⟩ := h.isGreatest.1
    rw [h.lookup] at hn
    split at hn
    · rw [← Option.some.inj hn]
      exact max_le (lastRound_le_iff.mpr fun r hr => hlast n r hr) hround
    · exact hlast n _ hn

/-- At or above its author's last committed round, once that of the certificate is recorded. -/
theorem UpdatesTo.lookup_le_iff (h : state.UpdatesTo c gc state') {n : PublicKey} {k : ℕ} :
    (∀ r, state'.lastCommitted.lookup n = some r → r ≤ k) ↔
      state.lastRound n ≤ k ∧ (n = c.origin → c.round ≤ k) := by
  rw [h.lookup]
  by_cases hn : n = c.origin
  · simp [hn]
  · simp [hn, lastRound_le_iff]

/-- **`update` cleans up as intended exactly where no sum of a round and `gc_depth` wraps below the
horizon**, in any order of the maps. -/
theorem update_cleans_iff (h : state.UpdatesTo c gc state') :
    state.Cleans c gc state' ↔ state.HorizonFits c gc := by
  constructor
  · intro hcleans r n e he hlast horigin hbounded
    have hkept := (hcleans.entries r n e).mpr ⟨he, h.lookup_le_iff.mpr ⟨hlast, horigin⟩,
      h.lastCommittedRound_le_iff.mpr hbounded⟩
    exact h.lastCommittedRound_le_iff.mp (h.get_iff.mp hkept).2.2
  · intro hfits
    refine ⟨h.lookup, h.isGreatest, fun r n e => ?_, h.noneEmpty⟩
    rw [h.get_iff]
    refine and_congr_right fun he => and_congr_right fun hlast => ?_
    obtain ⟨hr, horigin⟩ := h.lookup_le_iff.mp hlast
    refine ⟨fun hle => hle.trans (Round.add_le r gc), fun hle => ?_⟩
    exact h.lastCommittedRound_le_iff.mpr
      (hfits r n e he hr horigin (h.lastCommittedRound_le_iff.mp hle))

end State

/-! ## A horizon that moves -/

namespace State.FirstRound

open Sample

/-- A certificate of the first round. -/
def first : Certificate := certificate committee4 (key 2) 1 (Certificate.genesis committee4)

def received : State := (State.new (Certificate.genesis committee4)).insert first

set_option maxRecDepth 100000 in
theorem lastCommittedRound_first : (received.update first 0).lastCommittedRound = 1 := by
  decide +kernel

set_option maxRecDepth 100000 in
theorem received_wrapped : received.dag.get 1 (key 2) = some (first.digest, first) ∧
    (received.update first (2 ^ 64 - 1)).lastCommitted.lookup (key 2) = some 1 ∧
    (received.update first (2 ^ 64 - 1)).lastCommittedRound = 1 ∧
    (received.update first (2 ^ 64 - 1)).dag.get 1 (key 2) = none := by
  decide +kernel

/-- **With the largest depth, the certificate recorded is dropped**: `1 + gc_depth` wraps to zero. -/
theorem drops_first : received.UpdatesTo first (2 ^ 64 - 1) (received.update first (2 ^ 64 - 1)) ∧
    ¬ received.Cleans first (2 ^ 64 - 1) (received.update first (2 ^ 64 - 1)) := by
  obtain ⟨hfirst, hlast, hround, hdropped⟩ := received_wrapped
  refine ⟨updatesTo_update _ _ _, fun hcleans => ?_⟩
  have hkept := (hcleans.entries 1 (key 2) _).mpr ⟨hfirst, fun r hr => ?_, by omega⟩
  · rw [hdropped] at hkept
    cases hkept
  · rw [hlast] at hr
    cases hr
    rfl

set_option maxRecDepth 100000 in
theorem sumsFit_received : received.dag.SumsFit 0 := by
  decide +kernel

/-- With no garbage collection depth, the genesis is dropped. -/
theorem drops_genesis : (received.update first 0).dag.get 0 (key 1) = none := by
  have hcleans := (update_cleans_iff (updatesTo_update received first 0)).mpr
    (horizonFits_of_sumsFit sumsFit_received)
  refine Option.eq_none_iff_forall_ne_some.mpr fun e he => ?_
  have hhorizon := ((hcleans.entries 0 (key 1) e).mp he).2.2
  rw [lastCommittedRound_first] at hhorizon
  omega

end State.FirstRound

end Bullshark
