import Mathlib.Algebra.Order.Floor.Div
import Mathlib.Algebra.BigOperators.Group.List.Basic
import Mathlib.Algebra.Order.BigOperators.Group.List
import Mathlib.Algebra.BigOperators.Ring.List
import Mathlib.Data.Nat.Log
import Mathlib.GroupTheory.GroupAction.Ring
import Mathlib.Tactic.Ring
/-!
# Binomial trees

A tree that joins all of its nodes in stages: the groups of a stage are joined in pairs, so their
number is halved. Each edge belongs to one stage. A stage is done in rounds when only some of its
pairs fit at a time.
-/

namespace Dimemas.Library.BinomialTree

/-- The pairs of a stage in a tree with `edges` edges. -/
def pairs (edges stage : Nat) : Nat := (edges + 2 ^ stage) / 2 ^ (stage + 1)

theorem pairs_zero (edges : Nat) : pairs edges 0 = (edges + 1) / 2 := rfl

theorem pairs_succ (edges stage : Nat) : pairs edges (stage + 1) = pairs (edges / 2) stage := by
  unfold pairs
  have hpow : 2 ^ (stage + 1 + 1) = 2 * 2 ^ (stage + 1) := by ring
  have hhalf : (edges + 2 ^ (stage + 1)) / 2 = edges / 2 + 2 ^ stage := by
    rw [Nat.pow_succ]
    omega
  rw [hpow, ← Nat.div_div_eq_div_mul, hhalf]

theorem sum_pairs {edges stages : Nat} (h : edges < 2 ^ stages) :
    ((List.range stages).map (pairs edges)).sum = edges := by
  induction stages generalizing edges with
  | zero =>
      rw [Nat.pow_zero] at h
      simp only [List.range_zero, List.map_nil, List.sum_nil]
      omega
  | succ stages ih =>
      have hhalf : edges / 2 < 2 ^ stages := by
        rw [Nat.pow_succ] at h
        omega
      have hrest : (fun stage => pairs edges (stage + 1)) = pairs (edges / 2) := by
        ext stage
        exact pairs_succ edges stage
      calc
        ((List.range (stages + 1)).map (pairs edges)).sum
            = pairs edges 0 + ((List.range stages).map fun stage => pairs edges (stage + 1)).sum := by
              rw [List.range_succ_eq_map, List.map_cons, List.map_map, List.sum_cons]
              rfl
        _ = (edges + 1) / 2 + edges / 2 := by rw [hrest, ih hhalf, pairs_zero]
        _ = edges := by omega

theorem pairs_le (edges stage : Nat) : pairs edges stage ≤ (edges + 1) / 2 := by
  have hpow : 2 ^ (stage + 1) = 2 ^ stage * 2 := Nat.pow_succ 2 stage
  have hdiv : (edges + 2 ^ stage) / 2 ^ stage = edges / 2 ^ stage + 1 :=
    Nat.add_div_right edges (Nat.two_pow_pos stage)
  have hle : edges / 2 ^ stage ≤ edges := Nat.div_le_self edges _
  rw [pairs, hpow, ← Nat.div_div_eq_div_mul, hdiv]
  omega

theorem pairs_pos {edges stage : Nat} (h : 2 ^ stage ≤ edges) : 0 < pairs edges stage := by
  apply Nat.div_pos
  · rw [Nat.pow_succ]
    omega
  · exact Nat.two_pow_pos _

/-- How often a pair of a stage is the next one: the pairs end behind every edge of the stage. -/
theorem pairs_step (edges stage : Nat) :
    pairs (edges + 1) stage = pairs edges stage +
      if 2 ^ stage - 1 ≤ edges ∧ (edges - (2 ^ stage - 1)) % 2 ^ (stage + 1) = 0 then 1 else 0 := by
  have hpos := Nat.two_pow_pos stage
  have hdvd : 2 ^ (stage + 1) ∣ edges + 2 ^ stage + 1 ↔
      2 ^ stage - 1 ≤ edges ∧ (edges - (2 ^ stage - 1)) % 2 ^ (stage + 1) = 0 := by
    rw [Nat.pow_succ]
    constructor
    · rintro ⟨q, hq⟩
      cases q with
      | zero => omega
      | succ q =>
          have hq' : edges + 2 ^ stage + 1 = 2 ^ stage * 2 * q + 2 ^ stage * 2 := by
            rw [hq]
            ring
          refine ⟨by omega, Nat.mod_eq_zero_of_dvd ⟨q, by omega⟩⟩
    · rintro ⟨hle, hmod⟩
      obtain ⟨q, hq⟩ := Nat.dvd_of_mod_eq_zero hmod
      refine ⟨q + 1, ?_⟩
      rw [Nat.mul_add, ← hq]
      omega
  have harg : edges + 1 + 2 ^ stage = edges + 2 ^ stage + 1 := by omega
  rw [pairs, harg, Nat.succ_div, pairs]
  simp only [hdvd]

/-- The rounds of all stages when `width` pairs fit in a round. -/
def rounds (stages : List Nat) (width : Nat) : Nat := (stages.map (· ⌈/⌉ width)).sum

theorem rounds_one (stages : List Nat) : rounds stages 1 = stages.sum := by
  simp [rounds]

theorem rounds_anti {stages : List Nat} {width width' : Nat} (hpos : 0 < width)
    (hle : width ≤ width') : rounds stages width' ≤ rounds stages width := by
  apply List.sum_le_sum
  intro n _
  rw [ceilDiv_le_iff_le_mul (by omega : 0 < width')]
  calc
    n ≤ width * (n ⌈/⌉ width) := le_smul_ceilDiv hpos
    _ ≤ width' * (n ⌈/⌉ width) := Nat.mul_le_mul_right _ hle

theorem length_le_rounds {stages : List Nat} {width : Nat} (hpos : 0 < width)
    (h : ∀ n ∈ stages, 0 < n) : stages.length ≤ rounds stages width := by
  have hone : ∀ n ∈ stages, 1 ≤ n ⌈/⌉ width := by
    intro n hn
    rw [Nat.one_le_iff_ne_zero]
    intro hzero
    have hle := le_smul_ceilDiv (b := n) hpos
    rw [hzero, smul_zero] at hle
    have := h n hn
    omega
  calc
    stages.length = (stages.map fun _ => 1).sum := by simp
    _ ≤ rounds stages width := List.sum_le_sum hone

theorem rounds_eq_length {stages : List Nat} {width : Nat} (hpos : 0 < width)
    (h : ∀ n ∈ stages, 0 < n ∧ n ≤ width) : rounds stages width = stages.length := by
  apply Nat.le_antisymm
  · have hone : ∀ n ∈ stages, n ⌈/⌉ width ≤ 1 := by
      intro n hn
      rw [ceilDiv_le_iff_le_mul hpos, Nat.mul_one]
      exact (h n hn).2
    calc
      rounds stages width ≤ (stages.map fun _ => 1).sum := List.sum_le_sum hone
      _ = stages.length := by simp
  · exact length_le_rounds hpos fun n hn => (h n hn).1

end Dimemas.Library.BinomialTree
