import Bullshark.Consensus.CleanUp
import Bullshark.Consensus.Run

/-!
# Consensus/Update — what recording committed certificates does to the state

`State.update` raises the last committed round of one author, recomputes the maximum, and drops the
entries that fell behind (`Consensus/CleanUp`).  It leaves exactly the entries at or above their
author's last committed round and at or above the horizon, with a sum that may wrap (`get_update`);
a list of updates acts like its last one on the DAG (`get_updateAll`).
-/

namespace Bullshark

namespace State

/-! ## The last committed rounds -/

/-- The last committed round of an author after one of its certificates was committed. -/
def raised (old : Option ℕ) (r : ℕ) : ℕ :=
  match old with
  | some r' => max r' r
  | none => r

theorem le_raised (old : Option ℕ) (r : ℕ) : r ≤ raised old r := by
  cases old with
  | none => exact le_rfl
  | some r' => exact le_max_right _ _

theorem raised_cases (old : Option ℕ) (r : ℕ) :
    raised old r = r ∨ old = some (raised old r) := by
  cases old with
  | none => exact Or.inl rfl
  | some r' =>
    rcases le_total r' r with h | h
    · exact Or.inl (max_eq_right h)
    · exact Or.inr (congrArg some (max_eq_left h).symm)

theorem lookup_update (state : State) (c : Certificate) (gc : ℕ) (n : PublicKey) :
    (state.update c gc).lastCommitted.lookup n
      = if n = c.origin then some (raised (state.lastCommitted.lookup n) c.round)
        else state.lastCommitted.lookup n := by
  rw [update, AList.lookup_insert_eq]
  split
  · next h => subst h; rfl
  · rfl

/-- The last committed round is the maximum of the last committed rounds of the authors. -/
def RoundIsMax (state : State) : Prop :=
  (∀ n r, state.lastCommitted.lookup n = some r → r ≤ state.lastCommittedRound) ∧
    (state.lastCommittedRound = 0 ∨
      ∃ n, state.lastCommitted.lookup n = some state.lastCommittedRound)

theorem roundIsMax_update (state : State) (c : Certificate) (gc : ℕ) :
    (state.update c gc).RoundIsMax := by
  have hmax := (updatesTo_update state c gc).isGreatest
  exact ⟨fun n r hr => hmax.2 ⟨n, hr⟩, Or.inr hmax.1⟩

theorem RoundIsMax.eq_foldl_max {state : State} (h : state.RoundIsMax) :
    state.lastCommittedRound = state.lastCommitted.values.foldl max 0 := by
  obtain ⟨hbound, hattained⟩ := h
  refine le_antisymm ?_ ?_
  · rcases hattained with hzero | ⟨n, hn⟩
    · exact hzero.le.trans (Nat.zero_le _)
    · exact (le_foldl_max _ 0).2 _ (AList.mem_values.mpr ⟨n, hn⟩)
  · rcases foldl_max_mem state.lastCommitted.values 0 with hzero | hmem
    · exact hzero.le.trans (Nat.zero_le _)
    · obtain ⟨n, hn⟩ := AList.mem_values.mp hmem
      exact hbound n _ hn

/-- Two states that agree on the authors' rounds agree on their maximum. -/
theorem RoundIsMax.unique {state state' : State} (h : state.RoundIsMax) (h' : state'.RoundIsMax)
    (heq : ∀ n, state.lastCommitted.lookup n = state'.lastCommitted.lookup n) :
    state.lastCommittedRound = state'.lastCommittedRound := by
  have hle : ∀ {s t : State}, s.RoundIsMax → t.RoundIsMax →
      (∀ n, s.lastCommitted.lookup n = t.lastCommitted.lookup n) →
        s.lastCommittedRound ≤ t.lastCommittedRound := by
    intro s t hs ht hst
    rcases hs.2 with h0 | ⟨n, hn⟩
    · rw [h0]; exact Nat.zero_le _
    · exact ht.1 n _ ((hst n).symm.trans hn)
  exact le_antisymm (hle h h' heq) (hle h' h fun n => (heq n).symm)

/-! ## The DAG after the clean-up -/

/-- **The clean-up keeps exactly the entries at or above their author's last committed round and
at or above the horizon**, whatever the order of the authors. -/
theorem get_update {state : State} {c : Certificate} {gc r : ℕ} {n : PublicKey}
    {e : Digest × Certificate} :
    (state.update c gc).dag.get r n = some e ↔
      state.dag.get r n = some e ∧
        (∀ r', (state.update c gc).lastCommitted.lookup n = some r' → r' ≤ r) ∧
          (state.update c gc).lastCommittedRound ≤ Round.add r gc :=
  (updatesTo_update state c gc).get_iff

/-- The clean-up adds no round. -/
theorem sumsFit_update {state : State} {gc : ℕ} (h : state.dag.SumsFit gc) (c : Certificate) :
    (state.update c gc).dag.SumsFit gc := by
  intro r hr
  obtain ⟨n, hn⟩ := (updatesTo_update state c gc).noneEmpty r (AList.lookup_isSome.mpr hr)
  obtain ⟨e, he⟩ := Option.isSome_iff_exists.mp hn
  exact h.of_get (get_update.mp he).1

/-! ## Recording a list of certificates -/

/-- Record the certificates of a flattened sub-DAG one after the other. -/
def updateAll (gc : ℕ) (state : State) (ys : List Certificate) : State :=
  ys.foldl (fun state y => state.update y gc) state

@[simp] theorem updateAll_nil (gc : ℕ) (state : State) : updateAll gc state [] = state := rfl

@[simp] theorem updateAll_cons (gc : ℕ) (state : State) (y : Certificate)
    (ys : List Certificate) :
    updateAll gc state (y :: ys) = updateAll gc (state.update y gc) ys := rfl

variable (gc : ℕ)

theorem updateAll_append (state : State) (ys zs : List Certificate) :
    updateAll gc state (ys ++ zs) = updateAll gc (updateAll gc state ys) zs := List.foldl_append

theorem resolved_updateAll (ys : List Certificate) (state : State) :
    (updateAll gc state ys).resolvedFallbackRounds = state.resolvedFallbackRounds := by
  induction ys generalizing state with
  | nil => rfl
  | cons y ys ih => exact ih (state.update y gc)

/-- The rounds of an author only rise. -/
theorem lookup_updateAll_mono : ∀ (ys : List Certificate) (state : State) {n : PublicKey}
    {r : ℕ}, state.lastCommitted.lookup n = some r →
      ∃ r', (updateAll gc state ys).lastCommitted.lookup n = some r' ∧ r ≤ r'
  | [], _, _, r, h => ⟨r, h, le_rfl⟩
  | y :: ys, state, n, r, h => by
      have hstep : ∃ r₁, (state.update y gc).lastCommitted.lookup n = some r₁ ∧ r ≤ r₁ := by
        rw [lookup_update]
        split
        · exact ⟨_, rfl, by rw [h]; exact le_max_left _ _⟩
        · exact ⟨r, h, le_rfl⟩
      obtain ⟨r₁, h₁, hle₁⟩ := hstep
      obtain ⟨r₂, h₂, hle₂⟩ := lookup_updateAll_mono ys (state.update y gc) h₁
      exact ⟨r₂, h₂, hle₁.trans hle₂⟩

/-- A recorded certificate is covered by its author's round. -/
theorem lookup_updateAll_of_mem : ∀ {ys : List Certificate} (state : State) {y : Certificate},
    y ∈ ys → ∃ r, (updateAll gc state ys).lastCommitted.lookup y.origin = some r ∧ y.round ≤ r
  | [], _, _, h => by cases h
  | x :: ys, state, y, h => by
      rcases List.mem_cons.mp h with rfl | h
      · have hraise : (state.update y gc).lastCommitted.lookup y.origin
            = some (raised (state.lastCommitted.lookup y.origin) y.round) := by
          rw [lookup_update, if_pos rfl]
        obtain ⟨r, hr, hle⟩ := lookup_updateAll_mono gc ys (state.update y gc) hraise
        exact ⟨r, hr, (le_raised _ _).trans hle⟩
      · exact lookup_updateAll_of_mem (state.update x gc) h

/-- A round of an author was there before, or is that of a recorded certificate. -/
theorem lookup_updateAll_cases : ∀ (ys : List Certificate) (state : State) {n : PublicKey}
    {r : ℕ}, (updateAll gc state ys).lastCommitted.lookup n = some r →
      state.lastCommitted.lookup n = some r ∨ ∃ y ∈ ys, y.origin = n ∧ y.round = r
  | [], _, _, _, h => Or.inl h
  | y :: ys, state, n, r, h => by
      rcases lookup_updateAll_cases ys (state.update y gc) h with h | ⟨y', hy', hn, hr⟩
      · rw [lookup_update] at h
        split at h
        · next hn =>
          rcases raised_cases (state.lastCommitted.lookup n) y.round with hr | hr
          · exact Or.inr ⟨y, List.mem_cons_self, hn.symm, by rw [← hr]; exact Option.some.inj h⟩
          · exact Or.inl (hr.trans h)
        · exact Or.inl h
      · exact Or.inr ⟨y', List.mem_cons_of_mem _ hy', hn, hr⟩

theorem roundIsMax_updateAll {state : State} (h : state.RoundIsMax) (ys : List Certificate) :
    (updateAll gc state ys).RoundIsMax := by
  induction ys generalizing state with
  | nil => exact h
  | cons y ys ih => exact ih (roundIsMax_update state y gc)

theorem lastCommittedRound_le_updateAll {state : State} (h : state.RoundIsMax)
    (ys : List Certificate) :
    state.lastCommittedRound ≤ (updateAll gc state ys).lastCommittedRound := by
  rcases h.2 with h0 | ⟨n, hn⟩
  · rw [h0]; exact Nat.zero_le _
  · obtain ⟨r, hr, hle⟩ := lookup_updateAll_mono gc ys state hn
    exact hle.trans ((roundIsMax_updateAll gc h ys).1 n r hr)

/-- **A list of updates cleans up like its last one.** -/
theorem get_updateAll {r : ℕ} {n : PublicKey} {e : Digest × Certificate} :
    ∀ {ys : List Certificate} {state : State}, ys ≠ [] →
      ((updateAll gc state ys).dag.get r n = some e ↔
        state.dag.get r n = some e ∧
          (∀ r', (updateAll gc state ys).lastCommitted.lookup n = some r' → r' ≤ r) ∧
            (updateAll gc state ys).lastCommittedRound ≤ Round.add r gc)
  | [], _, h => absurd rfl h
  | [y], state, _ => get_update
  | y :: z :: ys, state, _ => by
      rw [updateAll_cons, get_updateAll (List.cons_ne_nil z ys), get_update]
      refine ⟨fun h => ⟨h.1.1, h.2⟩, fun h => ⟨⟨h.1, fun r' hr' => ?_, ?_⟩, h.2⟩⟩
      · obtain ⟨r'', hr'', hle⟩ := lookup_updateAll_mono gc (z :: ys) (state.update y gc) hr'
        exact hle.trans (h.2.1 r'' hr'')
      · exact (lastCommittedRound_le_updateAll gc (roundIsMax_update state y gc) _).trans h.2.2

/-- The clean-up adds nothing. -/
theorem get_of_get_updateAll {ys : List Certificate} {state : State} {r : ℕ} {n : PublicKey}
    {e : Digest × Certificate} (h : (updateAll gc state ys).dag.get r n = some e) :
    state.dag.get r n = some e := by
  cases ys with
  | nil => exact h
  | cons y ys => exact ((get_updateAll gc (List.cons_ne_nil y ys)).mp h).1

theorem sumsFit_updateAll {state : State} (h : state.dag.SumsFit gc) (ys : List Certificate) :
    (updateAll gc state ys).dag.SumsFit gc := by
  induction ys generalizing state with
  | nil => exact h
  | cons y ys ih => exact ih (sumsFit_update h y)

/-- The authors' rounds after a list of updates depend on those before and on the list alone. -/
theorem lookup_updateAll_congr {state state' : State}
    (h : ∀ n, state.lastCommitted.lookup n = state'.lastCommitted.lookup n)
    (ys : List Certificate) (n : PublicKey) :
    (updateAll gc state ys).lastCommitted.lookup n
      = (updateAll gc state' ys).lastCommitted.lookup n := by
  induction ys generalizing state state' with
  | nil => exact h n
  | cons y ys ih =>
    refine ih fun n => ?_
    rw [lookup_update, lookup_update, h n]

end State

/-! ## Inserting a certificate -/

namespace State

variable [Crypto]

theorem get_insert (state : State) (c : Certificate) (r : ℕ) (n : PublicKey) :
    (state.insert c).dag.get r n
      = if r = c.round ∧ n = c.origin then some (c.digest, c) else state.dag.get r n := by
  simp only [insert, Dag.get, AList.lookup_insert_eq]
  by_cases hr : r = c.round
  · subst hr
    rw [if_pos rfl, Option.bind_some, AList.lookup_insert_eq]
    by_cases hn : n = c.origin
    · simp [hn]
    · rw [if_neg hn, if_neg (by simp [hn])]
      cases state.dag.lookup c.round with
      | none => simp
      | some authorities => rfl
  · rw [if_neg hr, if_neg (by simp [hr])]

end State

end Bullshark
