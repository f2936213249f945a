import Mathlib.Data.List.Infix
import Mathlib.Data.List.Induction

/-!
# Machinery/Mealy — machines that read inputs and emit outputs

A machine steps on one input at a time and emits a list of outputs.  `state` and `outputs` are what
a whole input sequence leads to; `invariant` is the induction over a run, `Along` says that a
condition on the state before a step and its input holds at every step of a run, `Since` that it
held at one, and `exists_head` is how a message gets through a channel.
-/

structure Mealy (σ ι ο : Type*) where
  init : σ
  step : σ → ι → σ × List ο

namespace Mealy

variable {σ ι ο : Type*} (m : Mealy σ ι ο)

/-- The state reached and the outputs emitted on a sequence of inputs. -/
def run (is : List ι) : σ × List ο :=
  is.foldl (fun acc i => ((m.step acc.1 i).1, acc.2 ++ (m.step acc.1 i).2)) (m.init, [])

def state (is : List ι) : σ := (m.run is).1

def outputs (is : List ι) : List ο := (m.run is).2

@[simp] theorem state_nil : m.state [] = m.init := rfl

@[simp] theorem outputs_nil : m.outputs [] = [] := rfl

theorem state_snoc (is : List ι) (i : ι) : m.state (is ++ [i]) = (m.step (m.state is) i).1 := by
  rw [state, run, List.foldl_append]
  rfl

theorem outputs_snoc (is : List ι) (i : ι) :
    m.outputs (is ++ [i]) = m.outputs is ++ (m.step (m.state is) i).2 := by
  rw [outputs, run, List.foldl_append]
  rfl

/-- **A run only appends to what it emitted.** -/
theorem outputs_prefix {is js : List ι} (h : is <+: js) : m.outputs is <+: m.outputs js := by
  obtain ⟨t, rfl⟩ := h
  induction t using List.reverseRecOn with
  | nil => rw [List.append_nil]
  | append_singleton t i ih =>
    rw [← List.append_assoc, outputs_snoc]
    exact ih.trans (List.prefix_append _ _)

/-- What a run emitted, one of its steps emitted. -/
theorem exists_step_of_mem {is : List ι} {o : ο} (ho : o ∈ m.outputs is) :
    ∃ pre i, pre ++ [i] <+: is ∧ o ∈ (m.step (m.state pre) i).2 := by
  induction is using List.reverseRecOn with
  | nil => cases ho
  | append_singleton is i ih =>
    rw [outputs_snoc] at ho
    rcases List.mem_append.mp ho with ho | ho
    · obtain ⟨pre, j, hpre, hj⟩ := ih ho
      exact ⟨pre, j, hpre.trans (List.prefix_append _ _), hj⟩
    · exact ⟨is, i, List.prefix_rfl, ho⟩

/-- The condition `C` on a state and the input read there holds at every step of the run. -/
def Along (C : σ → ι → Prop) (is : List ι) : Prop := ∀ pre i, pre ++ [i] <+: is → C (m.state pre) i

variable {m}

theorem Along.of_prefix {C : σ → ι → Prop} {is js : List ι} (h : m.Along C js) (hp : is <+: js) :
    m.Along C is := fun pre i hpre => h pre i (hpre.trans hp)

theorem Along.last {C : σ → ι → Prop} {is : List ι} {i : ι} (h : m.Along C (is ++ [i])) :
    C (m.state is) i := h is i List.prefix_rfl

/-- A condition on each input and those before it, as a check on the indices. -/
theorem forall_prefix_iff {P : List ι → ι → Prop} {is : List ι} :
    (∀ pre i, pre ++ [i] <+: is → P pre i) ↔ ∀ k : Fin is.length, P (is.take k) (is.get k) := by
  constructor
  · intro h k
    refine h _ _ ?_
    rw [List.get_eq_getElem, List.take_append_getElem]
    exact List.take_prefix _ _
  · rintro h pre i ⟨post, rfl⟩
    have hk : pre.length < (pre ++ [i] ++ post).length := by simp
    simpa using h ⟨pre.length, hk⟩

instance {P : List ι → ι → Prop} [∀ pre i, Decidable (P pre i)] (is : List ι) :
    Decidable (∀ pre i, pre ++ [i] <+: is → P pre i) := decidable_of_iff' _ forall_prefix_iff

instance {C : σ → ι → Prop} [∀ s i, Decidable (C s i)] (is : List ι) :
    Decidable (m.Along C is) := inferInstanceAs (Decidable (∀ pre i, _ → C (m.state pre) i))

/-- **Induction over a run**: what holds before any input and is kept by every step holds of every
run. -/
theorem invariant {P : List ι → σ → List ο → Prop} (h0 : P [] m.init [])
    (hstep : ∀ is i, P is (m.state is) (m.outputs is) →
      P (is ++ [i]) (m.step (m.state is) i).1 (m.outputs is ++ (m.step (m.state is) i).2))
    (is : List ι) : P is (m.state is) (m.outputs is) := by
  induction is using List.reverseRecOn with
  | nil => exact h0
  | append_singleton is i ih =>
    rw [state_snoc, outputs_snoc]
    exact hstep is i ih

/-! ## What happened since -/

/-- Between the runs `is` and `js`, a step was taken for which `C` holds. -/
def Since (m : Mealy σ ι ο) (C : σ → ι → Prop) (is js : List ι) : Prop :=
  ∃ pre i, is <+: pre ∧ pre ++ [i] <+: js ∧ C (m.state pre) i

theorem Since.snoc {C : σ → ι → Prop} {is js : List ι} (h : m.Since C is js) (i : ι) :
    m.Since C is (js ++ [i]) := by
  obtain ⟨pre, i', hpre, hjs, hC⟩ := h
  exact ⟨pre, i', hpre, hjs.trans (List.prefix_append _ _), hC⟩

theorem Since.last {C : σ → ι → Prop} {is js : List ι} (hp : is <+: js) {i : ι}
    (h : C (m.state js) i) : m.Since C is (js ++ [i]) := ⟨js, i, hp, List.prefix_rfl, h⟩

/-- **What waits in a channel is read**: a machine that reads a channel `q` at the inputs `p`, and
only adds to it otherwise, comes to the message with number `k` after `k` of these inputs. -/
theorem exists_head {α : Type*} {q : σ → List α} {p : ι → Bool} {a : α}
    (hadd : ∀ s i, p i = false → q s <+: q (m.step s i).1)
    (hread : ∀ s i, p i = true → q (m.step s i).1 = (q s).tail) (js : List ι) :
    ∀ {is : List ι} {k : ℕ}, (q (m.state is))[k]? = some a → k < js.countP p →
      ∃ js' i, js' ++ [i] <+: js ∧ p i = true ∧ (q (m.state (is ++ js'))).head? = some a := by
  induction js with
  | nil =>
    intro is k _ hk
    exact absurd hk (Nat.not_lt_zero k)
  | cons j js ih =>
    intro is k ha hk
    have next : ∀ {k' : ℕ}, (q (m.step (m.state is) j).1)[k']? = some a → k' < js.countP p →
        ∃ js' i, js' ++ [i] <+: j :: js ∧ p i = true ∧
          (q (m.state (is ++ js'))).head? = some a := by
      intro k' ha' hk'
      obtain ⟨js', i, hpre, hi, hhead⟩ := ih (m.state_snoc is j ▸ ha') hk'
      refine ⟨j :: js', i, (List.cons_prefix_cons).mpr ⟨rfl, hpre⟩, hi, ?_⟩
      rwa [List.append_assoc] at hhead
    cases hj : p j with
    | false =>
      rw [List.countP_cons_of_neg (by simp [hj])] at hk
      obtain ⟨t, ht⟩ := hadd (m.state is) j hj
      refine next ?_ hk
      rw [← ht, List.getElem?_append_left (List.getElem?_eq_some_iff.mp ha).1]
      exact ha
    | true =>
      rw [List.countP_cons_of_pos hj] at hk
      cases k with
      | zero =>
        refine ⟨[], j, List.prefix_append [j] js, hj, ?_⟩
        rwa [List.append_nil, List.head?_eq_getElem?]
      | succ k =>
        refine next ?_ (Nat.lt_of_succ_lt_succ hk)
        rw [hread _ j hj, List.getElem?_tail]
        exact ha

/-! ## Two runs that agree on what comes next -/

/-- A run that emitted more than at some point before has a first input after it that emits. -/
theorem outputs_eq_or_exists_step {is js : List ι} (h : is <+: js) :
    m.outputs js = m.outputs is ∨ ∃ ks j, ks ++ [j] <+: js ∧ m.outputs ks = m.outputs is ∧
      (m.step (m.state ks) j).2 ≠ [] := by
  obtain ⟨t, rfl⟩ := h
  induction t using List.reverseRecOn with
  | nil => exact Or.inl (by rw [List.append_nil])
  | append_singleton t j ih =>
    rw [← List.append_assoc]
    rcases ih with heq | ⟨ks, k, hpre, hks, hne⟩
    · by_cases hj : (m.step (m.state (is ++ t)) j).2 = []
      · exact Or.inl (by rw [outputs_snoc, hj, List.append_nil, heq])
      · exact Or.inr ⟨is ++ t, j, List.prefix_rfl, heq, hj⟩
    · exact Or.inr ⟨ks, k, hpre.trans (List.prefix_append _ _), hks, hne⟩

/-- **Two runs that agree on what comes next never diverge**: where any two runs of the class `P`
that emitted the same so far and both emit next emit the same, one of any two runs of the class
has emitted what the other had at some point. -/
theorem outputs_aligned {P : List ι → Prop} (hP : ∀ is js, is <+: js → P js → P is)
    (hnext : ∀ is i js j, P (is ++ [i]) → P (js ++ [j]) → m.outputs is = m.outputs js →
      (m.step (m.state is) i).2 ≠ [] → (m.step (m.state js) j).2 ≠ [] →
        (m.step (m.state is) i).2 = (m.step (m.state js) j).2)
    {is js : List ι} (hi : P is) (hj : P js) :
    (∃ ks, ks <+: js ∧ m.outputs ks = m.outputs is) ∨
      ∃ ks, ks <+: is ∧ m.outputs ks = m.outputs js := by
  induction is using List.reverseRecOn with
  | nil => exact Or.inl ⟨[], List.nil_prefix, rfl⟩
  | append_singleton is i ih =>
    rcases ih (hP _ _ (List.prefix_append _ _) hi) with ⟨ks, hks, heq⟩ | ⟨ks, hks, heq⟩
    · by_cases hemit : (m.step (m.state is) i).2 = []
      · exact Or.inl ⟨ks, hks, by rw [outputs_snoc, hemit, List.append_nil, heq]⟩
      · rcases m.outputs_eq_or_exists_step hks with hall | ⟨ls, j, hls, hls', hne⟩
        · exact Or.inr ⟨is, List.prefix_append _ _, by rw [hall, heq]⟩
        · refine Or.inl ⟨ls ++ [j], hls, ?_⟩
          have hsame := hls'.trans heq
          rw [outputs_snoc, outputs_snoc, hsame,
            hnext is i ls j hi (hP _ _ hls hj) hsame.symm hemit hne]
    · exact Or.inr ⟨ks, hks.trans (List.prefix_append _ _), heq⟩

/-- One of two such runs emitted a prefix of what the other emitted. -/
theorem outputs_comparable {P : List ι → Prop} (hP : ∀ is js, is <+: js → P js → P is)
    (hnext : ∀ is i js j, P (is ++ [i]) → P (js ++ [j]) → m.outputs is = m.outputs js →
      (m.step (m.state is) i).2 ≠ [] → (m.step (m.state js) j).2 ≠ [] →
        (m.step (m.state is) i).2 = (m.step (m.state js) j).2)
    {is js : List ι} (hi : P is) (hj : P js) :
    m.outputs is <+: m.outputs js ∨ m.outputs js <+: m.outputs is := by
  rcases outputs_aligned hP hnext hi hj with ⟨ks, hks, heq⟩ | ⟨ks, hks, heq⟩
  · exact Or.inl (heq ▸ m.outputs_prefix hks)
  · exact Or.inr (heq ▸ m.outputs_prefix hks)

end Mealy
