import Mathlib.Data.Set.Function
import Mathlib.Order.MinMax

/-!
# Machinery/LastWriter — a register that keeps the value of the highest key

A write is dropped if the register holds a higher key already.  Whatever the order of the writes and
however often each is repeated, the register ends on one of the highest key among them
(`writeAll_cases`); where no two values share a key, the set of the values alone decides which one
(`writeAll_congr`).
-/

namespace LastWriter

variable {α κ : Type*} [LinearOrder κ] (key : α → κ)

/-- A write: `x` replaces what is there unless that has a higher key. -/
def write (cur x : α) : α := if key cur ≤ key x then x else cur

/-- The writes of a list, one after the other. -/
def writeAll (cur : α) (l : List α) : α := l.foldl (write key) cur

theorem key_write (cur x : α) : key (write key cur x) = max (key cur) (key x) := by
  rw [write]
  split
  · next hle => exact (max_eq_right hle).symm
  · next hlt => exact (max_eq_left (not_le.mp hlt).le).symm

variable {key} {cur : α} {l : List α}

@[simp] theorem writeAll_nil : writeAll key cur [] = cur := rfl

theorem writeAll_cons (x : α) : writeAll key cur (x :: l) = writeAll key (write key cur x) l := rfl

theorem writeAll_append (l' : List α) :
    writeAll key cur (l ++ l') = writeAll key (writeAll key cur l) l' := List.foldl_append

/-- **The key never falls**, and no value written has a higher one. -/
theorem key_le_writeAll : key cur ≤ key (writeAll key cur l) ∧
    ∀ x ∈ l, key x ≤ key (writeAll key cur l) := by
  induction l generalizing cur with
  | nil => exact ⟨le_rfl, fun x hx => by cases hx⟩
  | cons x l ih =>
    obtain ⟨hcur, hall⟩ := @ih (write key cur x)
    rw [key_write key cur x] at hcur
    exact ⟨(le_max_left _ _).trans hcur,
      List.forall_mem_cons.mpr ⟨(le_max_right _ _).trans hcur, hall⟩⟩

/-- The register ends on a value written, unless every key is below the one at the start. -/
theorem writeAll_cases : writeAll key cur l ∈ l ∨
    (writeAll key cur l = cur ∧ ∀ x ∈ l, key x < key cur) := by
  induction l generalizing cur with
  | nil => exact Or.inr ⟨rfl, fun x hx => by cases hx⟩
  | cons x l ih =>
    rcases @ih (write key cur x) with hmem | ⟨heq, hall⟩
    · exact Or.inl (List.mem_cons_of_mem _ hmem)
    rw [writeAll_cons, heq]
    by_cases hle : key cur ≤ key x
    · exact Or.inl (by rw [write, if_pos hle]; exact List.mem_cons_self)
    · rw [write, if_neg hle] at hall ⊢
      exact Or.inr ⟨rfl, List.forall_mem_cons.mpr ⟨not_le.mp hle, hall⟩⟩

/-- **Where no two values share a key, the register ends on the highest.** -/
theorem writeAll_eq_of_highest (h : Set.InjOn key {x | x ∈ l}) {x : α} (hx : x ∈ l)
    (hmax : ∀ y ∈ l, key y ≤ key x) (hcur : key cur ≤ key x) : writeAll key cur l = x := by
  rcases @writeAll_cases _ _ _ key cur l with hmem | ⟨-, hall⟩
  · exact h hmem hx (le_antisymm (hmax _ hmem) (key_le_writeAll.2 x hx))
  · exact absurd (hall x hx) hcur.not_gt

/-- **Neither order nor repetition matters.** -/
theorem writeAll_congr (h : Set.InjOn key {x | x ∈ l}) (hcur : ∀ x ∈ l, key cur ≤ key x)
    {l' : List α} (hsame : ∀ x, x ∈ l' ↔ x ∈ l) : writeAll key cur l' = writeAll key cur l := by
  have hset : {x | x ∈ l'} = {x | x ∈ l} := Set.ext hsame
  rcases @writeAll_cases _ _ _ key cur l with hmem | ⟨heq, hall⟩
  · exact writeAll_eq_of_highest (hset ▸ h) ((hsame _).mpr hmem)
      (fun y hy => key_le_writeAll.2 y ((hsame y).mp hy)) key_le_writeAll.1
  · -- nothing was written
    have hnil : ∀ x, x ∉ l := fun x hx => absurd (hall x hx) (hcur x hx).not_gt
    obtain rfl : l' = [] := List.eq_nil_iff_forall_not_mem.mpr fun x hx => hnil x ((hsame x).mp hx)
    exact heq.symm

end LastWriter
