import Mathlib.Algebra.BigOperators.Group.List.Basic
import Mathlib.Algebra.GroupWithZero.Nat

/-! Totals and contents of a list of cells, one of which is replaced. -/

set_option autoImplicit false

namespace HpsSf.Foundation

variable {A B : Type}

/-- A list around one of its cells, whether that is replaced or erased. -/
theorem split_at_cell {cells : List A} {place : Nat} {cell : A} (found : cells[place]? = some cell) :
    ∃ before after, cells = before ++ cell :: after ∧ cells.eraseIdx place = before ++ after ∧
      ∀ value, cells.set place value = before ++ value :: after := by
  obtain ⟨inside, rfl⟩ := List.getElem?_eq_some_iff.mp found
  refine ⟨cells.take place, cells.drop (place + 1), ?_, List.eraseIdx_eq_take_drop_succ .., fun value => ?_⟩
  · rw [List.getElem_cons_drop, List.take_append_drop]
  · rw [List.set_eq_take_append_cons_drop, if_pos inside]

/-- The total of the other cells does not depend on the replaced one. -/
theorem sum_set_cell (reading : A → Nat) {cells : List A} {place : Nat} {cell : A}
    (found : cells[place]? = some cell) :
    ∃ rest, (cells.map reading).sum = rest + reading cell ∧
      ∀ value, ((cells.set place value).map reading).sum = rest + reading value := by
  obtain ⟨before, after, whole, -, replaced⟩ := split_at_cell found
  refine ⟨(before.map reading).sum + (after.map reading).sum, ?_, fun value => ?_⟩
  · rw [whole]
    simp only [List.map_append, List.map_cons, List.sum_append, List.sum_cons]
    omega
  · rw [replaced]
    simp only [List.map_append, List.map_cons, List.sum_append, List.sum_cons]
    omega

/-- The contents of the other cells do not depend on the replaced one. -/
theorem flatMap_set_cell (content : A → List B) {cells : List A} {place : Nat} {cell : A}
    (found : cells[place]? = some cell) :
    ∃ rest, (cells.flatMap content).Perm (content cell ++ rest) ∧
      ∀ value, ((cells.set place value).flatMap content).Perm (content value ++ rest) := by
  obtain ⟨before, after, whole, -, replaced⟩ := split_at_cell found
  refine ⟨before.flatMap content ++ after.flatMap content, ?_, fun value => ?_⟩
  · rw [whole, List.flatMap_append, List.flatMap_cons]
    exact List.perm_append_comm_assoc _ _ _
  · rw [replaced, List.flatMap_append, List.flatMap_cons]
    exact List.perm_append_comm_assoc _ _ _

/-- What holds of every cell and of the new value holds after the replacement. -/
theorem forall_set_cell {P : A → Prop} {cells : List A} {place : Nat} {value : A}
    (before : ∀ cell ∈ cells, P cell) (new : P value) : ∀ cell ∈ cells.set place value, P cell := by
  intro cell member
  obtain old | rfl := List.mem_or_eq_of_mem_set member
  · exact before cell old
  · exact new

end HpsSf.Foundation
