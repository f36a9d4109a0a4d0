import Dimemas.Library.SearchDepth
import Dimemas.Utils.DeadlockAnalysis
/-!
# The buffer of the deadlock chain

`_is_deadlocked` allocates the chain that the search for a cycle writes. A chain that goes through
all ranks is closed by one more entry than there are ranks.
-/

namespace Dimemas.Utils.ChainBuffer

open Relation
open Dimemas.Library.CycleSearch
open Dimemas.Library.SearchDepth
open Dimemas.Library.Transitions
open Dimemas.Utils.Graph
open Dimemas.Utils.DeadlockAnalysis

/-- `malloc(sizeof(int)*total_ranks+1)`. -/
def chainBytes (totalRanks : Nat) : Nat := 4 * totalRanks + 1

def chainInts (totalRanks : Nat) : Nat := chainBytes totalRanks / 4

variable {n : Nat}

/-- The positions that `GRAPH_look_for_cycle` and `__look_for_cycle` write. -/
def chainWrites (g : GraphMap n) (root : Fin n) : Option (List Nat) :=
  (writesCycle (targets g) root (n + 1)).map Prod.snd

/-- The search ends, and every position that it writes is in the buffer. -/
def FitsChain (g : GraphMap n) (root : Fin n) : Prop :=
  ∃ ps, chainWrites g root = some ps ∧ ∀ i ∈ ps, i < chainInts n

theorem chainInts_eq (totalRanks : Nat) : chainInts totalRanks = totalRanks := by
  unfold chainInts chainBytes
  omega

theorem fitsChain_iff_of_acyclic {g : GraphMap n} {root : Fin n}
    (hacyclic : ∀ i, ¬ TransGen (ArcOff (targets g) root) i i) :
    FitsChain g root ↔ ¬ Closes (targets g) root n := by
  have hcard : Fintype.card (Fin n) = n := Fintype.card_fin n
  have hfuel : Fintype.card (Fin n) < n + 1 := by
    rw [hcard]
    exact Nat.lt_succ_self n
  obtain ⟨⟨found, ps⟩, hwrites⟩ :=
    Option.isSome_iff_exists.mp (writesCycle_isSome hacyclic hfuel)
  have hps : chainWrites g root = some ps := by
    rw [chainWrites, hwrites]
    rfl
  have hiff := card_mem_writesCycle_iff hacyclic hwrites
  rw [hcard] at hiff
  rw [← hiff]
  constructor
  · rintro ⟨ps', hps', hlt⟩ hmem
    rw [hps] at hps'
    cases hps'
    have hn := hlt n hmem
    rw [chainInts_eq] at hn
    exact Nat.lt_irrefl n hn
  · intro hnot
    refine ⟨ps, hps, fun i hi => ?_⟩
    have hle : i ≤ n := hcard ▸ le_card_of_writesCycle hacyclic hwrites hi
    rw [chainInts_eq]
    apply Nat.lt_of_le_of_ne hle
    rintro rfl
    exact hnot hi

/-- The search behind an event stays in the buffer exactly if the first blocking dependencies do not
lead from the rank of the event through all ranks back to it. -/
theorem fitsChain_iff {communicator : Nat → List (Fin n)} {g g' : GraphMap n} {o : Outcome}
    {tr : List (Transition (GraphMap n) (Fin n × Operation n))}
    (hrun : Run (ofPartial (deadlockNext communicator)) .empty tr g) (task : Fin n)
    (op : Operation n) (hupdate : update communicator g task op = some (g', o)) :
    FitsChain g' task ↔ ¬ Closes (targets g') task n := by
  have hinv : DeadlockInv g := hrun.invariant deadlockInv_empty
    fun _ _ _ h hstep => deadlockInv_step h hstep
  exact fitsChain_iff_of_acyclic ((updates_update hupdate).acyclic_off hinv.acyclic)

def twoWaiting (i j k : Fin 3) :
    Option (List (Transition (GraphMap 3) (Fin 3 × Operation 3)) × GraphMap 3) :=
  exec (deadlockNext fun _ => []) .empty [(i, .recv j (5, 1)), (j, .recv k (6, 1))]

/-- Rank 2 waits for rank 1. The cycle that is found leaves out rank 0. -/
theorem fitsChain_twoOfThree :
    FitsChain ((update (fun _ => []) ((twoWaiting 0 1 2).get rfl).2 2
      (.recv 1 (7, 1))).get rfl).1 2 := by
  have hrun : Run (ofPartial (deadlockNext fun _ => [])) .empty ((twoWaiting 0 1 2).get rfl).1
    ((twoWaiting 0 1 2).get rfl).2 := run_exec_get rfl
  apply (fitsChain_iff hrun 2 (.recv 1 (7, 1)) (Option.some_get rfl).symm).mpr
  rintro ⟨hwalk, -⟩
  revert hwalk
  decide

/-- The chain of two ranks that send to each other has three entries. -/
theorem not_fitsChain :
    ¬ ∀ (n : Nat) (communicator : Nat → List (Fin n)) (g g' : GraphMap n) (o : Outcome)
        (tr : List (Transition (GraphMap n) (Fin n × Operation n))),
      Run (ofPartial (deadlockNext communicator)) .empty tr g → ∀ (task : Fin n) (op : Operation n),
        update communicator g task op = some (g', o) → FitsChain g' task := by
  intro h
  have hrun := @run_exec_get _ _ (deadlockNext fun _ => ([] : List (Fin 2)))
    [(0, .send 1 (5, 1) true)] .empty rfl
  obtain ⟨ps, hps, hlt⟩ := h 2 (fun _ => []) _ _ _ _ hrun 1 (.send 0 (5, 1) true) rfl
  have hwrites : ps = [0, 1, 2] := (Option.some.inj hps).symm
  rw [hwrites] at hlt
  cases Nat.lt_irrefl 2 (hlt 2 (by decide))

end Dimemas.Utils.ChainBuffer
