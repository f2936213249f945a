import Mathlib.Data.List.Infix

/-!
# Machinery/Interleaving — the runs of many parties as one trace

A trace says which party receives what, in the order in which it happens.  `inputsOf` is what one
party receives; whatever it has received at some point, it has received after some part of the
trace (`exists_prefix_of_mem_inputsOf`).
-/

namespace Interleaving

variable {α ι : Type*} [DecidableEq α] {a : α} {i : ι} {trace trace' : List (α × ι)}

/-- What the party receives. -/
def inputsOf (a : α) (trace : List (α × ι)) : List ι :=
  trace.filterMap fun e => if e.1 = a then some e.2 else none

@[simp] theorem inputsOf_nil (a : α) : inputsOf a ([] : List (α × ι)) = [] := rfl

theorem inputsOf_append (a : α) (trace trace' : List (α × ι)) :
    inputsOf a (trace ++ trace') = inputsOf a trace ++ inputsOf a trace' := List.filterMap_append

theorem inputsOf_snoc_self (a : α) (trace : List (α × ι)) (i : ι) :
    inputsOf a (trace ++ [(a, i)]) = inputsOf a trace ++ [i] := by
  rw [inputsOf_append]
  simp [inputsOf]

theorem inputsOf_snoc_of_ne {b : α} (h : b ≠ a) (trace : List (α × ι)) (i : ι) :
    inputsOf a (trace ++ [(b, i)]) = inputsOf a trace := by
  rw [inputsOf_append]
  simp [inputsOf, h]

theorem mem_inputsOf : i ∈ inputsOf a trace ↔ (a, i) ∈ trace := by
  rw [inputsOf, List.mem_filterMap]
  constructor
  · rintro ⟨⟨b, j⟩, hmem, heq⟩
    obtain ⟨rfl, hj⟩ := Option.ite_none_right_eq_some.mp heq
    cases hj
    exact hmem
  · exact fun hmem => ⟨_, hmem, if_pos rfl⟩

theorem prefix_inputsOf (a : α) (h : trace <+: trace') : inputsOf a trace <+: inputsOf a trace' :=
  h.filterMap _

/-- **What a party receives, it receives after some part of the trace.** -/
theorem exists_prefix_of_mem_inputsOf (h : i ∈ inputsOf a trace) :
    ∃ pre, pre ++ [(a, i)] <+: trace := by
  obtain ⟨pre, post, rfl⟩ := List.append_of_mem (mem_inputsOf.mp h)
  exact ⟨pre, post, by rw [List.append_assoc, List.singleton_append]⟩

end Interleaving
