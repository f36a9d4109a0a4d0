import Mathlib.Data.List.Basic
/-!
# Streams that share a table

A machine reads items of several keys and keeps the state of each key in a cell of one table. What
it gives for a key is what it gives for the items of this key alone, if no two keys share a cell.
-/

namespace Dimemas.Library.Demultiplexing

variable {κ σ α β : Type*}

def outputs (step : σ → α → σ × List β) : σ → List α → List β
  | _, [] => []
  | s, a :: as => (step s a).2 ++ outputs step (step s a).1 as

/-- What the items of all keys give. A cell that is not there is in the initial state. -/
def sharedOutputs (step : σ → α → σ × List β) (index : κ → Nat) (initial : σ) :
    List σ → List (κ × α) → List (κ × β)
  | _, [] => []
  | table, x :: xs =>
      (step (table.getD (index x.1) initial) x.2).2.map (x.1, ·) ++
        sharedOutputs step index initial
          (table.set (index x.1) (step (table.getD (index x.1) initial) x.2).1) xs

section

variable [DecidableEq κ]

def ofKey (k : κ) (xs : List (κ × α)) : List α :=
  xs.filterMap fun x => if x.1 = k then some x.2 else none

theorem ofKey_append (k : κ) (xs ys : List (κ × α)) :
    ofKey k (xs ++ ys) = ofKey k xs ++ ofKey k ys := List.filterMap_append

theorem ofKey_cons_self (k : κ) (a : α) (xs : List (κ × α)) :
    ofKey k ((k, a) :: xs) = a :: ofKey k xs := by
  rw [ofKey, List.filterMap_cons, if_pos rfl]
  rfl

theorem ofKey_cons_of_ne {k k' : κ} (h : k' ≠ k) (a : α) (xs : List (κ × α)) :
    ofKey k ((k', a) :: xs) = ofKey k xs := by
  rw [ofKey, List.filterMap_cons, if_neg h]
  rfl

theorem ofKey_map_self (k : κ) (bs : List β) : ofKey k (bs.map (k, ·)) = bs := by
  induction bs with
  | nil => rfl
  | cons b bs ih => rw [List.map_cons, ofKey_cons_self, ih]

theorem ofKey_map_of_ne {k k' : κ} (h : k' ≠ k) (bs : List β) : ofKey k (bs.map (k', ·)) = [] := by
  induction bs with
  | nil => rfl
  | cons b bs ih => rw [List.map_cons, ofKey_cons_of_ne h, ih]

theorem ofKey_sharedOutputs (step : σ → α → σ × List β) {index : κ → Nat} (initial : σ) {k : κ}
    {table : List σ} {xs : List (κ × α)} (hcell : ∀ x ∈ xs, index x.1 < table.length)
    (hkey : ∀ x ∈ xs, index x.1 = index k → x.1 = k) :
    ofKey k (sharedOutputs step index initial table xs) =
      outputs step (table.getD (index k) initial) (ofKey k xs) := by
  induction xs generalizing table with
  | nil => rfl
  | cons x xs ih =>
      obtain ⟨k', a⟩ := x
      have hfirst := hcell (k', a) List.mem_cons_self
      have hrest : ∀ x ∈ xs, index x.1 <
          (table.set (index k') (step (table.getD (index k') initial) a).1).length := by
        intro x hx
        rw [List.length_set]
        exact hcell x (List.mem_cons_of_mem _ hx)
      have htail := ih hrest fun x hx => hkey x (List.mem_cons_of_mem _ hx)
      rw [sharedOutputs, ofKey_append, htail]
      by_cases hk : k' = k
      · subst hk
        rw [ofKey_map_self, ofKey_cons_self, outputs]
        simp only [List.getD_eq_getElem?_getD, List.getElem?_set_self hfirst, Option.getD_some]
      · have hne : index k' ≠ index k := fun heq => hk (hkey (k', a) List.mem_cons_self heq)
        rw [ofKey_map_of_ne hk, ofKey_cons_of_ne hk, List.nil_append]
        congr 1
        simp only [List.getD_eq_getElem?_getD, List.getElem?_set_ne hne]

end

/-! ## Cells of a rectangle -/

theorem row_injective {width i j i' j' : Nat} (hj : j < width) (hj' : j' < width)
    (h : i * width + j = i' * width + j') : i = i' ∧ j = j' := by
  have hi : i = i' := by
    have hdiv := congrArg (· / width) h
    have hpos : 0 < width := Nat.lt_of_le_of_lt (Nat.zero_le j) hj
    simpa [Nat.mul_comm _ width, Nat.mul_add_div hpos, Nat.div_eq_of_lt hj,
      Nat.div_eq_of_lt hj'] using hdiv
  subst hi
  exact ⟨rfl, Nat.add_left_cancel h⟩

theorem row_lt {width height i j : Nat} (hi : i < height) (hj : j < width) :
    i * width + j < height * width := by
  calc i * width + j < i * width + width := Nat.add_lt_add_left hj _
    _ = (i + 1) * width := (Nat.succ_mul i width).symm
    _ ≤ height * width := Nat.mul_le_mul_right _ hi

end Dimemas.Library.Demultiplexing
