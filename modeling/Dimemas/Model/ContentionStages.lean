import Dimemas.Library.BinomialTree
import Dimemas.Model.CollectiveCost
/-!
# Contention stages of a collective operation

The parallel communications of `compute_contention_stage` are the pairs of a binomial tree over the
tasks, so their number does not depend on the buses. Fewer buses need more rounds.
-/

namespace Dimemas.Model.ContentionStages

open Dimemas.Library.BinomialTree
open Dimemas.Model.CollectiveCost

theorem parallelComm_eq_pairs (ntasks stage : Nat) :
    parallelComm ntasks stage = pairs (ntasks - 1) stage := by
  unfold parallelComm
  generalize ntasks - 1 = edges
  induction edges with
  | zero =>
      have hpow : 2 ^ stage < 2 ^ (stage + 1) := Nat.pow_lt_pow_right (by omega) (by omega)
      rw [pairs, Nat.zero_add, Nat.div_eq_of_lt hpow]
      rfl
  | succ edges ih =>
      rw [List.range_succ, List.countP_append, ih, pairs_step]
      simp [List.countP_singleton]

theorem provideLog_eq_clog {n : Nat} (h : 0 < n) : provideLog n = Nat.clog 2 n := by
  have hfind : (List.range n).find? (fun i => decide (n ≤ 2 ^ i)) = some (Nat.clog 2 n) := by
    rw [List.find?_range_eq_some]
    refine ⟨?_, ?_, ?_⟩
    · exact decide_eq_true (Nat.le_pow_clog (by omega) n)
    · have hself : n - 1 < 2 ^ (n - 1) := Nat.lt_two_pow_self
      have hle : Nat.clog 2 n ≤ n - 1 := Nat.clog_le_of_le_pow (by omega)
      rw [List.mem_range]
      omega
    · intro j hj
      have hlt : 2 ^ j < n := (Nat.lt_clog_iff_pow_lt (by omega)).mp hj
      simpa using hlt
  rw [provideLog, hfind]
  rfl

theorem lt_two_pow_provideLog {n : Nat} (h : 0 < n) : n - 1 < 2 ^ provideLog n := by
  rw [provideLog_eq_clog h]
  have hle := Nat.le_pow_clog (by omega : 1 < 2) n
  omega

theorem sum_parallelComm {n : Nat} (h : 0 < n) :
    ((List.range (provideLog n)).map (parallelComm n)).sum = n - 1 := by
  have hpairs : parallelComm n = pairs (n - 1) := by
    ext stage
    exact parallelComm_eq_pairs n stage
  rw [hpairs]
  exact sum_pairs (lt_two_pow_provideLog h)

def stageComms (n : Nat) : List Nat := (List.range (provideLog n)).map (parallelComm n)

theorem length_stageComms (n : Nat) : (stageComms n).length = provideLog n := by
  simp [stageComms]

theorem stageComms_bounds {n comm : Nat} (hn : 0 < n) (h : comm ∈ stageComms n) :
    0 < comm ∧ comm ≤ n / 2 := by
  obtain ⟨stage, hstage, rfl⟩ := List.mem_map.mp h
  rw [List.mem_range, provideLog_eq_clog hn] at hstage
  have hlt : 2 ^ stage < n := Nat.pow_lt_of_lt_clog hstage
  rw [parallelComm_eq_pairs]
  constructor
  · apply pairs_pos
    omega
  · have hle := pairs_le (n - 1) stage
    have hsucc : n - 1 + 1 = n := by omega
    rwa [hsucc] at hle

theorem computeContentionStage_eq_rounds {n numBusos : Nat} (h : 0 < numBusos) :
    computeContentionStage n numBusos = rounds (stageComms n) numBusos := by
  rw [computeContentionStage, if_neg (by omega), rounds, stageComms, List.map_map]
  congr 1
  apply List.map_congr_left
  intro stage _
  show _ = parallelComm n stage ⌈/⌉ numBusos
  rw [Nat.ceilDiv_eq_add_pred_div]
  generalize parallelComm n stage = comm
  have hdiv := Nat.div_add_mod comm numBusos
  split
  · rename_i hmod
    rw [eq_comm, Nat.div_eq_iff h]
    rw [hmod, Nat.add_zero] at hdiv
    rw [Nat.mul_comm] at hdiv
    omega
  · rename_i hmod
    have hlt := Nat.mod_lt comm h
    rw [eq_comm, Nat.div_eq_iff h, Nat.add_mul, Nat.one_mul]
    rw [Nat.mul_comm] at hdiv
    omega

/-- The stages of a collective operation among `n` tasks, with any number of buses. The numbers of
the loops are `int`s that do not overflow. -/
theorem contention_stages (n : Nat) (hpos : 1 ≤ n) (hmax : n ≤ 2 ^ 30) :
    ((List.range (provideLog n)).map (parallelComm n)).sum = n - 1 ∧
      computeContentionStage n 1 = n - 1 ∧
      (∀ numBusos numBusos', 1 ≤ numBusos → numBusos ≤ numBusos' →
        computeContentionStage n numBusos' ≤ computeContentionStage n numBusos) ∧
      (∀ numBusos, Nat.clog 2 n ≤ computeContentionStage n numBusos) ∧
      computeContentionStage n 0 = Nat.clog 2 n ∧
      (∀ numBusos, n / 2 ≤ numBusos → computeContentionStage n numBusos = Nat.clog 2 n) ∧
      (2 ^ provideLog n < 2 ^ 31 ∧ ∀ stage < provideLog n, ∀ j < n - 1,
        j + 2 ^ (stage + 1) < 2 ^ 31) := by
  have hzero : computeContentionStage n 0 = Nat.clog 2 n := provideLog_eq_clog hpos
  have hlength : (stageComms n).length = Nat.clog 2 n := by
    rw [length_stageComms, provideLog_eq_clog hpos]
  have hlog : provideLog n ≤ 30 := by
    rw [provideLog_eq_clog hpos]
    exact Nat.clog_le_of_le_pow hmax
  refine ⟨sum_parallelComm hpos, ?_, ?_, ?_, hzero, ?_, ?_, ?_⟩
  · rw [computeContentionStage_eq_rounds Nat.one_pos, rounds_one]
    exact sum_parallelComm hpos
  · intro numBusos numBusos' hone hle
    rw [computeContentionStage_eq_rounds hone,
      computeContentionStage_eq_rounds (by omega : 0 < numBusos')]
    exact rounds_anti hone hle
  · intro numBusos
    rcases Nat.eq_zero_or_pos numBusos with rfl | hbusos
    · exact hzero.ge
    · rw [computeContentionStage_eq_rounds hbusos, ← hlength]
      exact length_le_rounds hbusos fun comm hcomm => (stageComms_bounds hpos hcomm).1
  · intro numBusos hle
    rcases Nat.eq_zero_or_pos numBusos with rfl | hbusos
    · exact hzero
    · rw [computeContentionStage_eq_rounds hbusos, ← hlength]
      apply rounds_eq_length hbusos
      intro comm hcomm
      have hbounds := stageComms_bounds hpos hcomm
      exact ⟨hbounds.1, hbounds.2.trans hle⟩
  · exact Nat.pow_lt_pow_right (by omega) (by omega)
  · intro stage hstage j hj
    have hpow : 2 ^ (stage + 1) ≤ 2 ^ 30 := Nat.pow_le_pow_right (by omega) (by omega)
    omega

/-- The stages of six tasks. -/
theorem contention_stages_six :
    ((List.range (provideLog 6)).map (parallelComm 6)).sum = 6 - 1 ∧
      computeContentionStage 6 1 = 6 - 1 :=
  ⟨(contention_stages 6 (by omega) (by omega)).1, (contention_stages 6 (by omega) (by omega)).2.1⟩

end Dimemas.Model.ContentionStages
