import Mathlib.Algebra.BigOperators.Group.List.Basic
import Mathlib.Algebra.Order.BigOperators.Group.List
import Mathlib.Algebra.Order.Group.Nat
import Mathlib.Algebra.Ring.Nat
/-!
# Tables with rows of different lengths

Where the elements of a table are numbered row by row, but the rows themselves are counted, every
row must have one element.
-/

namespace Dimemas.Library.Tables

variable {β : Type*}

/-- Positive numbers whose sum is not greater than their number are all one. -/
theorem eq_one_of_sum_le_length {counts : List Nat} (hpos : ∀ count ∈ counts, 0 < count)
    (hle : counts.sum ≤ counts.length) : ∀ count ∈ counts, count = 1 := by
  induction counts with
  | nil => simp
  | cons count counts ih =>
      obtain ⟨hcount, hcounts⟩ := List.forall_mem_cons.mp hpos
      have hsum := List.length_le_sum_of_one_le counts hcounts
      rw [List.sum_cons, List.length_cons] at hle
      rw [List.forall_mem_cons]
      exact ⟨by omega, ih hcounts (by omega)⟩

theorem length_eq_one_of_length_flatten_le {rows : List (List β)} (hne : ∀ row ∈ rows, row ≠ [])
    (hle : rows.flatten.length ≤ rows.length) : ∀ row ∈ rows, row.length = 1 := by
  rw [List.length_flatten, ← List.length_map List.length] at hle
  have hpos : ∀ count ∈ rows.map List.length, 0 < count := by
    intro count hcount
    obtain ⟨row, hrow, rfl⟩ := List.mem_map.mp hcount
    exact List.length_pos_iff.mpr (hne row hrow)
  intro row hrow
  exact eq_one_of_sum_le_length hpos hle row.length (List.mem_map_of_mem hrow)

theorem exists_elements {rows : List (List β)} (h : ∀ row ∈ rows, row.length = 1) :
    ∃ elements, rows = elements.map ([·]) ∧ rows.flatten = elements := by
  induction rows with
  | nil => exact ⟨[], rfl, rfl⟩
  | cons row rows ih =>
      obtain ⟨hrow, hrows⟩ := List.forall_mem_cons.mp h
      obtain ⟨x, rfl⟩ := List.length_eq_one_iff.mp hrow
      obtain ⟨elements, helements, hflatten⟩ := ih hrows
      refine ⟨x :: elements, ?_, ?_⟩
      · rw [helements, List.map_cons]
      · rw [List.flatten_cons, hflatten, List.singleton_append]

end Dimemas.Library.Tables
