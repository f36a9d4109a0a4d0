import Mathlib.Data.List.Basic
import Mathlib.Order.Lattice
/-!
# Shares in order

A number of items in order is spread over a number of places that is not greater: the item `k` of
`n` goes to the place `k * m / n` of `m`.
-/

namespace Dimemas.Library.Shares

/-- The place of the item `k`. -/
def place (m n k : Nat) : Nat := k * m / n

variable {j k m n : Nat}

theorem place_lt (hk : k < n) (hm : 0 < m) : place m n k < m := by
  have hn : 0 < n := Nat.zero_lt_of_lt hk
  rw [place, Nat.div_lt_iff_lt_mul hn, Nat.mul_comm]
  exact Nat.mul_lt_mul_of_pos_left hk hm

theorem place_mono (h : j ≤ k) : place m n j ≤ place m n k :=
  Nat.div_le_div_right (Nat.mul_le_mul_right m h)

/-- The first item that has passed the place `j` is at it. -/
theorem exists_place (hj : j < m) (hmn : m ≤ n) : ∃ k < n, place m n k = j := by
  have hm : 0 < m := Nat.zero_lt_of_lt hj
  have hn : 0 < n := Nat.lt_of_lt_of_le hm hmn
  -- the least item `k` with `j * n ≤ k * m`
  have hdiv := Nat.div_add_mod (j * n + (m - 1)) m
  have hmod := Nat.mod_lt (j * n + (m - 1)) hm
  set k := (j * n + (m - 1)) / m
  have hcomm : m * k = k * m := Nat.mul_comm m k
  have hlow : j * n ≤ k * m := by omega
  have hhigh : k * m < j * n + n := by omega
  have hbound : j * n + n ≤ m * n := by
    calc j * n + n = (j + 1) * n := (Nat.succ_mul j n).symm
      _ ≤ m * n := Nat.mul_le_mul_right n hj
  refine ⟨k, ?_, ?_⟩
  · apply Nat.lt_of_mul_lt_mul_right (a := m)
    calc k * m < j * n + n := hhigh
      _ ≤ m * n := hbound
      _ = n * m := Nat.mul_comm m n
  · apply Nat.div_eq_of_lt_le hlow
    rw [Nat.succ_mul]
    exact hhigh

def places (m n : Nat) : List Nat := (List.range n).map (place m n)

theorem lt_of_mem_places (hm : 0 < m) (h : j ∈ places m n) : j < m := by
  obtain ⟨k, hk, heq⟩ := List.mem_map.mp h
  rw [← heq]
  exact place_lt (List.mem_range.mp hk) hm

theorem places_sorted (m n : Nat) : (places m n).Pairwise fun i j => i ≤ j := by
  apply List.pairwise_map.mpr
  exact List.pairwise_lt_range.imp fun hlt => place_mono hlt.le

theorem mem_places (hj : j < m) (hmn : m ≤ n) : j ∈ places m n := by
  obtain ⟨k, hk, heq⟩ := exists_place hj hmn
  exact List.mem_map.mpr ⟨k, List.mem_range.mpr hk, heq⟩

end Dimemas.Library.Shares
