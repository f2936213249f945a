import Mathlib.Logic.Basic

/-!
# Machinery/Fallible — when a computation that may fail succeeds

A sequence of fallible steps succeeds exactly when each of them does: `bind` takes one step,
`forM` one step per element of a list.  Its error is that of one of the steps: where no step fails
with `e`, nor does the sequence.
-/

namespace Except

variable {ε α β : Type}

/-- A step and what follows succeed exactly when both do. -/
theorem bind_eq_ok_iff {x : Except ε α} {f : α → Except ε β} {b : β} :
    (x >>= f) = .ok b ↔ ∃ a, x = .ok a ∧ f a = .ok b := by
  cases x with
  | error e => exact ⟨fun h => (by cases h), fun ⟨a, h, _⟩ => (by cases h)⟩
  | ok a => exact ⟨fun h => ⟨a, rfl, h⟩, fun ⟨a', h, hf⟩ => (by cases h; exact hf)⟩

/-- The same, where the step returns nothing. -/
theorem bind_unit_eq_ok_iff {x : Except ε Unit} {f : Unit → Except ε β} {b : β} :
    (x >>= f) = .ok b ↔ x = .ok () ∧ f () = .ok b :=
  bind_eq_ok_iff.trans ⟨fun ⟨_, h, hf⟩ => ⟨h, hf⟩, fun h => ⟨(), h⟩⟩

theorem toOption_eq_some_iff {x : Except ε α} {a : α} : x.toOption = some a ↔ x = .ok a := by
  cases x with
  | error e => exact ⟨fun h => (by cases h), fun h => (by cases h)⟩
  | ok b => exact ⟨fun h => (by cases h; rfl), fun h => (by cases h; rfl)⟩

theorem map_eq_ok_iff {x : Except ε α} {f : α → β} {b : β} :
    x.map f = .ok b ↔ ∃ a, x = .ok a ∧ f a = b := by
  cases x with
  | error e => simp [Except.map]
  | ok a => simp [Except.map]

instance decidableExistsOk (x : Except ε α) : Decidable (∃ a, x = .ok a) :=
  match x with
  | .error _ => isFalse (by simp)
  | .ok a => isTrue ⟨a, rfl⟩

/-- What is read off a result that is there. -/
theorem exists_of_map_toOption {x : Except ε α} {f : α → β} {b : β}
    (h : x.toOption.map f = some b) : ∃ a, x = .ok a ∧ f a = b := by
  obtain ⟨a, ha, hb⟩ := Option.map_eq_some_iff.mp h
  exact ⟨a, toOption_eq_some_iff.mp ha, hb⟩

/-- A loop succeeds exactly when each of its turns does. -/
theorem forM_eq_ok_iff {f : α → Except ε Unit} :
    ∀ {l : List α}, l.forM f = .ok () ↔ ∀ a ∈ l, f a = .ok ()
  | [] => ⟨fun _ _ h => (by cases h), fun _ => rfl⟩
  | a :: l => by
      rw [show (a :: l).forM f = (f a >>= fun _ => l.forM f) from rfl, bind_unit_eq_ok_iff,
        forM_eq_ok_iff, List.forall_mem_cons]

theorem bind_ne_error {x : Except ε α} {f : α → Except ε β} {e : ε} (hx : x ≠ .error e)
    (hf : ∀ a, f a ≠ .error e) : (x >>= f) ≠ .error e := by
  cases x with
  | error e' => exact fun h => hx (by cases h; rfl)
  | ok a => exact hf a

theorem forM_ne_error {f : α → Except ε Unit} {e : ε} (hf : ∀ a, f a ≠ .error e) :
    ∀ l : List α, l.forM f ≠ .error e
  | [] => fun h => (by cases h)
  | a :: l => bind_ne_error (hf a) fun _ => forM_ne_error hf l

theorem foldlM_ne_error {f : β → α → Except ε β} {e : ε} (hf : ∀ b a, f b a ≠ .error e) :
    ∀ (l : List α) (b : β), l.foldlM f b ≠ .error e
  | [], b => fun h => (by cases h)
  | a :: l, b => by
      rw [List.foldlM_cons]
      exact bind_ne_error (hf b a) fun b' => foldlM_ne_error hf l b'

/-- **A fold of steps that succeed and keep `P` succeeds**, and its result satisfies `P`. -/
theorem foldlM_exists_ok {f : β → α → Except ε β} {P : β → Prop} :
    ∀ {l : List α} {b : β}, (∀ b, P b → ∀ a ∈ l, ∃ b', f b a = .ok b' ∧ P b') → P b →
      ∃ b', l.foldlM f b = .ok b' ∧ P b'
  | [], b, _, hb => ⟨b, rfl, hb⟩
  | a :: l, b, hf, hb => by
      obtain ⟨b₁, h₁, hb₁⟩ := hf b hb a List.mem_cons_self
      obtain ⟨b₂, h₂, hb₂⟩ := foldlM_exists_ok
        (fun b hb a ha => hf b hb a (List.mem_cons_of_mem _ ha)) hb₁
      refine ⟨b₂, ?_, hb₂⟩
      rw [List.foldlM_cons, h₁]
      exact h₂

/-- **Induction over a counting loop that succeeded**: `P` holds at its start and each turn takes it
to the next count. -/
theorem foldlM_range'_induct {f : β → Nat → Except ε β} {P : Nat → β → Prop} {b : β} {a : Nat}
    (h0 : P 0 b) (hstep : ∀ i c c', P i c → f c (a + i) = .ok c' → P (i + 1) c') :
    ∀ {n : Nat} {b' : β}, (List.range' a n).foldlM f b = .ok b' → P n b'
  | 0, b', h => by
      cases h
      exact h0
  | n + 1, b', h => by
      rw [List.range'_concat, List.foldlM_append] at h
      obtain ⟨c, hc, hlast⟩ := bind_eq_ok_iff.mp h
      obtain ⟨c', hc', hnil⟩ := bind_eq_ok_iff.mp hlast
      obtain rfl : c' = b' := Except.ok.inj hnil
      rw [Nat.one_mul] at hc'
      exact hstep n c c' (foldlM_range'_induct h0 hstep hc) hc'

/-- A counting loop whose turns succeed from `P` and keep it succeeds. -/
theorem foldlM_range'_exists_ok {f : β → Nat → Except ε β} {P : Nat → β → Prop} {b : β} {a : Nat}
    (h0 : P 0 b) : ∀ {n : Nat},
      (∀ i c, i < n → P i c → ∃ c', f c (a + i) = .ok c' ∧ P (i + 1) c') →
      ∃ b', (List.range' a n).foldlM f b = .ok b' ∧ P n b'
  | 0, _ => ⟨b, rfl, h0⟩
  | n + 1, hstep => by
      obtain ⟨c, hc, hP⟩ := foldlM_range'_exists_ok h0 fun i c hi =>
        hstep i c (Nat.lt_succ_of_lt hi)
      obtain ⟨c', hc', hP'⟩ := hstep n c (Nat.lt_succ_self n) hP
      refine ⟨c', ?_, hP'⟩
      rw [List.range'_concat, List.foldlM_append, hc, Nat.one_mul]
      exact bind_eq_ok_iff.mpr ⟨c, rfl, bind_eq_ok_iff.mpr ⟨c', hc', rfl⟩⟩

/-- A map of steps that succeed. -/
theorem mapM_eq_ok {f : α → Except ε β} {g : α → β} :
    ∀ {l : List α}, (∀ a ∈ l, f a = .ok (g a)) → l.mapM f = .ok (l.map g)
  | [], _ => rfl
  | a :: l, h => by
      rw [List.mapM_cons, h a List.mem_cons_self,
        mapM_eq_ok fun b hb => h b (List.mem_cons_of_mem _ hb)]
      rfl

/-- **A fold commutes with a map of its state**, where each step does. -/
theorem foldlM_map {γ : Type} {f : β → α → Except ε β} {f' : γ → α → Except ε γ} {g : β → γ}
    (h : ∀ b a, f' (g b) a = (f b a).map g) :
    ∀ (l : List α) (b : β), l.foldlM f' (g b) = (l.foldlM f b).map g
  | [], b => rfl
  | a :: l, b => by
      rw [List.foldlM_cons, List.foldlM_cons, h]
      cases f b a with
      | error e => rfl
      | ok b' => exact foldlM_map h l b'

end Except
