import Mathlib.Data.List.Basic
/-!
# Queues searched by a predicate

`takeFirst p q` takes the first element that satisfies `p` out of the queue `q`.
The lemmas say what that does to the other elements: to membership, to counts and
to the subsequence of a class.
-/

namespace Dimemas.Library.SearchedQueue

variable {α : Type*}

def takeFirst (p : α → Bool) : List α → Option (α × List α)
  | [] => none
  | x :: xs => if p x then some (x, xs) else (takeFirst p xs).map fun (y, ys) => (y, x :: ys)

variable {p c : α → Bool} {q q' : List α} {x y : α}

theorem takeFirst_eq_none : takeFirst p q = none ↔ ∀ x ∈ q, ¬ p x := by
  induction q with
  | nil => simp [takeFirst]
  | cons z q ih =>
      by_cases hz : p z <;> simp [takeFirst, hz, ih]

/-- Nothing before the taken element satisfies the predicate. -/
theorem takeFirst_eq_some (h : takeFirst p q = some (x, q')) :
    p x ∧ ∃ before after, q = before ++ x :: after ∧ q' = before ++ after ∧
      ∀ y ∈ before, ¬ p y := by
  induction q generalizing q' with
  | nil => cases h
  | cons z q ih =>
      by_cases hz : p z
      · obtain ⟨rfl, rfl⟩ : z = x ∧ q = q' := by simpa [takeFirst, hz] using h
        exact ⟨hz, [], q, rfl, rfl, by simp⟩
      · simp only [takeFirst, hz, Bool.false_eq_true, if_false, Option.map_eq_some_iff,
          Prod.exists, Prod.mk.injEq] at h
        obtain ⟨w, rest, hrest, rfl, rfl⟩ := h
        obtain ⟨hx, before, after, rfl, rfl, hbefore⟩ := ih hrest
        refine ⟨hx, z :: before, after, rfl, rfl, fun y hy => ?_⟩
        rcases List.mem_cons.mp hy with rfl | hy
        · exact hz
        · exact hbefore y hy

theorem takeFirst_pos (h : takeFirst p q = some (x, q')) : p x := (takeFirst_eq_some h).1

/-- The list left by `takeFirst` with the taken element in front is a permutation. -/
theorem perm_takeFirst {p : α → Bool} {q q' : List α} {x : α}
    (h : takeFirst p q = some (x, q')) : (x :: q').Perm q := by
  obtain ⟨-, before, after, rfl, rfl, -⟩ := takeFirst_eq_some h
  exact List.perm_middle.symm

theorem mem_of_takeFirst (h : takeFirst p q = some (x, q')) : y ∈ q ↔ y = x ∨ y ∈ q' := by
  obtain ⟨-, before, after, rfl, rfl, -⟩ := takeFirst_eq_some h
  simp only [List.mem_append, List.mem_cons]
  tauto

theorem countP_takeFirst (h : takeFirst p q = some (x, q')) (c : α → Bool) :
    q.countP c = q'.countP c + if c x then 1 else 0 := by
  obtain ⟨-, before, after, rfl, rfl, -⟩ := takeFirst_eq_some h
  simp only [List.countP_append, List.countP_cons]
  omega

theorem sublist_takeFirst (h : takeFirst p q = some (x, q')) : q'.Sublist q := by
  obtain ⟨-, before, after, rfl, rfl, -⟩ := takeFirst_eq_some h
  exact (List.Sublist.refl before).append (List.sublist_cons_self x after)

/-- In an ordered queue the taken element comes before all others that satisfy the predicate. -/
theorem first_of_takeFirst {R : α → α → Prop} (h : takeFirst p q = some (x, q'))
    (hq : q.Pairwise R) (hy : y ∈ q) (hp : p y) : y = x ∨ R x y := by
  obtain ⟨-, before, after, rfl, rfl, hbefore⟩ := takeFirst_eq_some h
  rcases List.mem_append.mp hy with hy | hy
  · exact absurd hp (hbefore y hy)
  · rcases List.mem_cons.mp hy with rfl | hy
    · exact .inl rfl
    · have hafter := (List.pairwise_append.mp hq).2.1
      exact .inr ((List.pairwise_cons.mp hafter).1 y hy)

/-- In a queue without repetitions the taken element is not left. -/
theorem mem_rest_takeFirst (h : takeFirst p q = some (x, q')) (hq : q.Nodup) :
    y ∈ q' ↔ y ∈ q ∧ y ≠ x := by
  have hnodup := (perm_takeFirst h).nodup_iff.mpr hq
  have hx := (List.nodup_cons.mp hnodup).1
  rw [mem_of_takeFirst h]
  constructor
  · intro hy
    exact ⟨.inr hy, fun heq => hx (heq ▸ hy)⟩
  · rintro ⟨rfl | hy, hne⟩
    · exact absurd rfl hne
    · exact hy

/-- A class that contains only elements satisfying the predicate loses its first one. -/
theorem filter_takeFirst_pos (h : takeFirst p q = some (x, q')) (hc : ∀ y, c y → p y)
    (hx : c x) : q.filter c = x :: q'.filter c := by
  obtain ⟨-, before, after, rfl, rfl, hbefore⟩ := takeFirst_eq_some h
  have hnone : before.filter c = [] := by
    rw [List.filter_eq_nil_iff]
    exact fun y hy hcy => hbefore y hy (hc y hcy)
  rw [List.filter_append, List.filter_cons_of_pos hx, List.filter_append, hnone]
  rfl

theorem filter_takeFirst_neg (h : takeFirst p q = some (x, q')) (hx : ¬ c x) :
    q.filter c = q'.filter c := by
  obtain ⟨-, before, after, rfl, rfl, -⟩ := takeFirst_eq_some h
  rw [List.filter_append, List.filter_cons_of_neg hx, List.filter_append]

end Dimemas.Library.SearchedQueue
