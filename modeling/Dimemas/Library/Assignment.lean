import Dimemas.Library.SearchedQueue
import Mathlib.Data.List.Forall2
import Mathlib.Data.List.Perm.Subperm
/-!
# Assignments that use no element twice

If a list has, of every colour, at most as many elements as another one, each of
its elements can be assigned an element of that colour from the other list, and no
element is used twice: the assigned elements form a sub-multiset.
-/

namespace Dimemas.Library.Assignment

open Dimemas.Library.SearchedQueue

variable {α β γ : Type*}

theorem exists_assignment [DecidableEq γ] (colour : α → γ) (colour' : β → γ) {xs : List α}
    {ys : List β}
    (h : ∀ k, (xs.countP fun x => colour x = k) ≤ ys.countP fun y => colour' y = k) :
    ∃ zs, List.Subperm zs ys ∧
      List.Forall₂ (fun x z => x ∈ xs ∧ z ∈ ys ∧ colour x = colour' z) xs zs := by
  induction xs generalizing ys with
  | nil => exact ⟨[], List.nil_subperm, .nil⟩
  | cons x xs ih =>
      have hpos : 0 < ys.countP fun y => colour' y = colour x := by
        have hx := h (colour x)
        rw [List.countP_cons_of_pos (by simp)] at hx
        omega
      cases hfirst : takeFirst (fun y => decide (colour' y = colour x)) ys with
      | none =>
          obtain ⟨y, hy, hcolour⟩ := List.countP_pos_iff.mp hpos
          exact absurd hcolour (takeFirst_eq_none.mp hfirst y hy)
      | some p =>
          obtain ⟨y, rest⟩ := p
          have hy : colour' y = colour x := by simpa using takeFirst_pos hfirst
          have hmem : ∀ z, z ∈ ys ↔ z = y ∨ z ∈ rest := fun z => mem_of_takeFirst hfirst
          have hrest : ∀ k, (xs.countP fun x => colour x = k) ≤
              rest.countP fun y => colour' y = k := by
            intro k
            have hk := h k
            rw [List.countP_cons, countP_takeFirst hfirst, hy] at hk
            omega
          obtain ⟨zs, hsub, hforall⟩ := ih hrest
          refine ⟨y :: zs, ?_, .cons ⟨List.mem_cons_self, (hmem y).mpr (.inl rfl), hy.symm⟩ ?_⟩
          · exact (List.subperm_cons y).mpr hsub |>.trans (perm_takeFirst hfirst).subperm
          · exact hforall.imp fun _ z hz =>
              ⟨List.mem_cons_of_mem _ hz.1, (hmem z).mpr (.inr hz.2.1), hz.2.2⟩

theorem exists_of_forall₂ {R : α → β → Prop} {xs : List α} {ys : List β} {x : α}
    (h : List.Forall₂ R xs ys) (hx : x ∈ xs) : ∃ y ∈ ys, R x y := by
  induction h with
  | nil => cases hx
  | @cons w y xs ys hwy _ ih =>
      rcases List.mem_cons.mp hx with rfl | hx
      · exact ⟨y, List.mem_cons_self, hwy⟩
      · obtain ⟨z, hz, hrel⟩ := ih hx
        exact ⟨z, List.mem_cons_of_mem y hz, hrel⟩

/-- An assignment maps a class into any class that contains the images of its elements. -/
theorem countP_le_of_forall₂ {R : α → β → Prop} {xs : List α} {ys : List β} {p : α → Bool}
    {q : β → Bool} (h : List.Forall₂ R xs ys)
    (hpq : ∀ x y, y ∈ ys → R x y → p x → q y) : xs.countP p ≤ ys.countP q := by
  induction h with
  | nil => simp
  | @cons x y xs ys hxy _ ih =>
      have htail := ih fun x y hy => hpq x y (List.mem_cons_of_mem _ hy)
      rw [List.countP_cons, List.countP_cons]
      by_cases hp : p x
      · rw [if_pos hp, if_pos (hpq x y (by simp) hxy hp)]
        omega
      · rw [if_neg hp]
        omega

/-- Where a class has as many elements as the class of the images, it has the elements whose images
are in that class. -/
theorem forall₂_of_countP_eq {R : α → β → Prop} {xs : List α} {ys : List β} {p : α → Bool}
    {q : β → Bool} (h : List.Forall₂ R xs ys) (hpq : ∀ x y, R x y → p x = true → q y = true)
    (heq : ys.countP q ≤ xs.countP p) :
    List.Forall₂ (fun x y => R x y ∧ (q y = true → p x = true)) xs ys := by
  induction h with
  | nil => exact .nil
  | @cons x y xs ys hxy hrest ih =>
      have htail : xs.countP p ≤ ys.countP q :=
        countP_le_of_forall₂ hrest fun x y _ => hpq x y
      rw [List.countP_cons, List.countP_cons] at heq
      by_cases hp : p x = true
      · rw [if_pos hp, if_pos (hpq x y hxy hp)] at heq
        exact .cons ⟨hxy, fun _ => hp⟩ (ih (Nat.le_of_add_le_add_right heq))
      · rw [if_neg hp] at heq
        have hq : ¬ q y = true := by
          intro hq
          rw [if_pos hq] at heq
          omega
        rw [if_neg hq] at heq
        exact .cons ⟨hxy, fun hin => absurd hin hq⟩ (ih heq)

end Dimemas.Library.Assignment
