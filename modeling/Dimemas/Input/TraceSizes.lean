import Dimemas.Input.Streams
import Dimemas.Library.BinaryRounding
import Dimemas.Library.Tables
import Mathlib.Algebra.Order.Field.Rat
import Mathlib.Data.Fintype.Card
import Mathlib.Data.List.Nodup
import Mathlib.Data.List.Perm.Subperm
/-!
# The sizes of the records of the threads

The sizes are taken from the offsets of the first threads of the tasks, as differences with the
entry that is written next. The array is written and read with two different indices.
-/

namespace Dimemas.Input.TraceSizes

open Dimemas.Library.BinaryRounding
open Dimemas.Library.Tables
open Dimemas.Input.Streams

def toInt (i : Int) : Int := i.bmod 4294967296

def toFloat (q : ℚ) : ℚ := roundTo 24 q

/-- `thread_trace_sizes`, with `total_threads_count` entries. One that was not written is not
initialized. -/
abbrev Sizes := List (Option Int)

/-- The entries that are written for the first offset of a task. There is none out of the array. -/
def storeTraceSize (offsetsOffset : Nat) (sizes : Sizes) (index offset : Nat) : Option Sizes :=
  if index < sizes.length then
    let size := toInt offset
    let sizes := sizes.set index (some size)
    let sizes :=
      if 0 < index then
        sizes.set (index - 1) ((sizes.getD (index - 1) none).map fun last => toInt (size - last))
      else sizes
    some
      (if index = sizes.length - 1 then sizes.set index (some (toInt (offsetsOffset - size)))
      else sizes)
  else none

/-- The turns of the loop in `DAP_read_offsets`, for the tasks from `currentTask` on. -/
def storeTraceSizes (offsetsOffset : Nat) (firstOffset : Nat → Nat) :
    Nat → Sizes → List Nat → Option Sizes
  | _, sizes, [] => some sizes
  | currentTask, sizes, count :: counts =>
      (storeTraceSize offsetsOffset sizes (count * currentTask) (firstOffset currentTask)).bind
        fun sizes => storeTraceSizes offsetsOffset firstOffset (currentTask + 1) sizes counts

variable {α : Type*}

/-- The array behind `DAP_read_offsets`. -/
def readOffsets (trace : Trace α) (offsetsOffset : Nat) : Option Sizes :=
  storeTraceSizes offsetsOffset (fun task => trace.threadsOffsets (task, 0)) 0
    (List.replicate trace.threadsCount.sum none) trace.threadsCount

/-- The index with which `DAP_get_progression` reads the array. -/
def progressionIndex (trace : Trace α) (id : ThreadId) : Nat :=
  trace.threadsCount.getD id.1 0 * (id.1 + id.2)

/-- `DAP_get_progression`, for an entry that was written. Both numbers are converted before they are
divided. -/
def getProgression (trace : Trace α) (sizes : Sizes) (r : Reader) (id : ThreadId) : Option ℚ :=
  (sizes[progressionIndex trace id]?).join.map fun totalSize =>
    let progressFp := (r.currentThreadsOffsets id : Int) - trace.threadsOffsets id
    toFloat (toFloat progressFp / toFloat totalSize)

section

variable {trace : Trace α} {offsetsOffset index offset currentTask : Nat} {sizes sizes' : Sizes}
  {firstOffset : Nat → Nat} {counts : List Nat}

/-! ## Numbers in an `int` -/

theorem toInt_of_lt {n : Nat} (h : n < 2147483648) : toInt n = n := by
  apply Int.bmod_eq_of_le <;> omega

theorem toInt_lt (i : Int) : toInt i < 2147483648 :=
  @Int.bmod_lt i 4294967296 (by decide)

theorem toInt_sub_toInt (a b : Int) : toInt (a - toInt b) = toInt (a - b) := Int.sub_bmod_bmod

theorem toInt_toInt_sub (a b : Int) : toInt (toInt a - b) = toInt (a - b) := Int.bmod_sub_bmod

/-! ## The threads -/

theorem mem_threads {id : ThreadId} :
    id ∈ trace.threads ↔ ∃ count, trace.threadsCount[id.1]? = some count ∧ id.2 < count := by
  unfold Trace.threads
  rw [List.mem_flatMap]
  constructor
  · rintro ⟨⟨count, task⟩, hmem, hid⟩
    obtain ⟨thread, hthread, rfl⟩ := List.mem_map.mp hid
    exact ⟨count, List.mem_zipIdx_iff_getElem?.mp hmem, List.mem_range.mp hthread⟩
  · rintro ⟨count, hcount, hlt⟩
    exact ⟨(count, id.1), List.mem_zipIdx_iff_getElem?.mpr hcount,
      List.mem_map.mpr ⟨id.2, List.mem_range.mpr hlt, rfl⟩⟩

theorem length_threads : trace.threads.length = trace.threadsCount.sum := by
  unfold Trace.threads
  rw [List.length_flatMap]
  have hcounts : trace.threadsCount.zipIdx.map Prod.fst = trace.threadsCount := by
    simp
  conv_rhs => rw [← hcounts]
  simp

theorem nodup_threads : trace.threads.Nodup := by
  unfold Trace.threads
  rw [List.nodup_flatMap]
  constructor
  · rintro ⟨count, task⟩ -
    exact List.nodup_range.map fun a b h => (Prod.mk.inj h).2
  · have htasks : (trace.threadsCount.zipIdx.map Prod.snd).Nodup := by
      rw [List.zipIdx_map_snd]
      exact List.nodup_range'
    apply (List.pairwise_map.mp htasks).imp
    rintro ⟨count, task⟩ ⟨count', task'⟩ hne id hid hid'
    obtain ⟨thread, -, rfl⟩ := List.mem_map.mp hid
    obtain ⟨thread', -, heq⟩ := List.mem_map.mp hid'
    exact hne (Prod.mk.inj heq).1.symm

/-! ## The entries that are written -/

theorem storeTraceSize_eq (h : index < sizes.length) :
    ∃ sizes', storeTraceSize offsetsOffset sizes index offset = some sizes' ∧
      sizes'.length = sizes.length ∧ ∀ i < sizes.length, sizes'[i]? =
        if i = index then
          some (some (if index + 1 = sizes.length then toInt (offsetsOffset - offset)
            else toInt offset))
        else if i + 1 = index then
          some ((sizes.getD i none).map fun last => toInt (offset - last))
        else sizes[i]? := by
  unfold storeTraceSize
  rw [if_pos h]
  refine ⟨_, rfl, ?_, ?_⟩
  · split <;> split <;> simp
  · intro i hi
    cases index with
    | zero =>
        have hend : 0 = sizes.length - 1 ↔ 0 + 1 = sizes.length := by omega
        by_cases hlast : 0 + 1 = sizes.length
        · have hzero : i = 0 := by omega
          simp [hend, hlast, hzero, h, toInt_sub_toInt]
        · by_cases hzero : i = 0
          · simp [hend, hlast, hzero, h]
          · simp [hend, hlast, hzero, Ne.symm hzero]
    | succ j =>
        have hend : j + 1 = sizes.length - 1 ↔ j + 1 + 1 = sizes.length := by omega
        by_cases hindex : i = j + 1
        · subst hindex
          by_cases hlast : j + 1 + 1 = sizes.length
          · simp [hend, hlast, h, toInt_sub_toInt]
          · simp [hend, hlast, h]
        · by_cases hprevious : i = j
          · subst hprevious
            by_cases hlast : i + 1 + 1 = sizes.length <;> simp [hend, hlast, hi, toInt_toInt_sub]
          · by_cases hlast : j + 1 + 1 = sizes.length <;>
              simp [hend, hlast, hindex, hprevious, Ne.symm hindex, Ne.symm hprevious]

/-- An entry that is written has a number in an `int`. Its index is that of the task, or the entry
was written before. -/
theorem storeTraceSize_written (h : storeTraceSize offsetsOffset sizes index offset = some sizes')
    {i : Nat} {size : Int} (hsize : sizes'[i]? = some (some size)) :
    (size < 2147483648 ∨ sizes[i]? = some (some size)) ∧
      (i = index ∨ ∃ last, sizes[i]? = some (some last)) := by
  have hindex : index < sizes.length := by
    unfold storeTraceSize at h
    split at h
    · assumption
    · cases h
  obtain ⟨stored, hstored, hlength, hentry⟩ := @storeTraceSize_eq offsetsOffset _ offset _ hindex
  obtain rfl := Option.some.inj (hstored.symm.trans h)
  have hi : i < sizes.length := by
    rw [← hlength]
    exact (List.getElem?_eq_some_iff.mp hsize).1
  rw [hentry i hi] at hsize
  split at hsize
  · next heq =>
      refine ⟨.inl ?_, .inl heq⟩
      rw [← Option.some.inj (Option.some.inj hsize)]
      split <;> exact toInt_lt _
  · split at hsize
    · obtain ⟨last, hlast, hvalue⟩ := Option.map_eq_some_iff.mp (Option.some.inj hsize)
      refine ⟨.inl (hvalue ▸ toInt_lt _), .inr ⟨last, ?_⟩⟩
      rw [List.getD_eq_getElem?_getD, List.getElem?_eq_getElem hi, Option.getD_some] at hlast
      rw [List.getElem?_eq_getElem hi, hlast]
    · exact ⟨.inr hsize, .inr ⟨size, hsize⟩⟩

theorem storeTraceSizes_written
    (h : storeTraceSizes offsetsOffset firstOffset currentTask sizes counts = some sizes')
    {i : Nat} {size : Int} (hsize : sizes'[i]? = some (some size)) :
    (size < 2147483648 ∨ sizes[i]? = some (some size)) ∧
      ((∃ task count, counts[task]? = some count ∧ i = count * (currentTask + task)) ∨
        ∃ last, sizes[i]? = some (some last)) := by
  induction counts generalizing currentTask sizes size with
  | nil =>
      obtain rfl := Option.some.inj h
      exact ⟨.inr hsize, .inr ⟨size, hsize⟩⟩
  | cons count counts ih =>
      obtain ⟨stored, hstored, hrest⟩ := Option.bind_eq_some_iff.mp h
      obtain ⟨hvalue, hindex⟩ := ih hrest hsize
      constructor
      · rcases hvalue with hlt | heq
        · exact .inl hlt
        · exact (storeTraceSize_written hstored heq).1
      · rcases hindex with ⟨task, other, hother, heq⟩ | ⟨last, hlast⟩
        · refine .inl ⟨task + 1, other, hother, ?_⟩
          rw [heq, Nat.add_assoc, Nat.add_comm 1 task]
        · rcases (storeTraceSize_written hstored hlast).2 with heq | hbefore
          · exact .inl ⟨0, count, rfl, heq⟩
          · exact .inr hbefore

theorem readOffsets_written (h : readOffsets trace offsetsOffset = some sizes) {i : Nat} {size : Int}
    (hsize : sizes[i]? = some (some size)) :
    size < 2147483648 ∧
      ∃ task count, trace.threadsCount[task]? = some count ∧ i = count * task := by
  obtain ⟨hvalue, hindex⟩ := storeTraceSizes_written h hsize
  have hnone : ∀ size, (List.replicate trace.threadsCount.sum (none : Option Int))[i]? ≠
      some (some size) := by
    intro size heq
    rw [List.getElem?_replicate] at heq
    split at heq
    · cases Option.some.inj heq
    · cases heq
  constructor
  · exact hvalue.resolve_right (hnone size)
  · rcases hindex with ⟨task, count, hcount, heq⟩ | ⟨last, hlast⟩
    · rw [Nat.zero_add] at heq
      exact ⟨task, count, hcount, heq⟩
    · exact absurd hlast (hnone last)

/-- If all entries that are read are written and differ, every task has one thread. -/
theorem forall_eq_one_of_injOn (h : readOffsets trace offsetsOffset = some sizes)
    (hcounts : ∀ count ∈ trace.threadsCount, 0 < count)
    (hread : ∀ id ∈ trace.threads, ∃ size, sizes[progressionIndex trace id]? = some (some size))
    (hinj : ∀ a ∈ trace.threads, ∀ b ∈ trace.threads,
      progressionIndex trace a = progressionIndex trace b → a = b) :
    ∀ count ∈ trace.threadsCount, count = 1 := by
  have hsubset : trace.threads.map (progressionIndex trace) ⊆
      trace.threadsCount.zipIdx.map fun x => x.1 * x.2 := by
    intro i hi
    obtain ⟨id, hid, rfl⟩ := List.mem_map.mp hi
    obtain ⟨size, hsize⟩ := hread id hid
    obtain ⟨-, task, count, hcount, heq⟩ := readOffsets_written h hsize
    exact List.mem_map.mpr ⟨(count, task), List.mem_zipIdx_iff_getElem?.mpr hcount, heq.symm⟩
  have hnodup : (trace.threads.map (progressionIndex trace)).Nodup :=
    nodup_threads.map_on fun a ha b hb heq => hinj a ha b hb heq
  have hle := (List.subperm_of_subset hnodup hsubset).length_le
  rw [List.length_map, length_threads, List.length_map, List.length_zipIdx] at hle
  exact eq_one_of_sum_le_length hcounts hle

/-! ## One thread for each task -/

def nextOffset (offsetsOffset : Nat) (firstOffset : Nat → Nat) (total task : Nat) : Nat :=
  if task + 1 = total then offsetsOffset else firstOffset (task + 1)

/-- The entries when the offsets of the first tasks are read. -/
structure Stored (offsetsOffset : Nat) (firstOffset : Nat → Nat) (tasks : Nat) (sizes : Sizes) :
    Prop where
  closed : ∀ i, i + 1 < tasks ∨ i + 1 = sizes.length → i < tasks → sizes[i]? = some (some
    (toInt (nextOffset offsetsOffset firstOffset sizes.length i - firstOffset i)))
  last : ∀ i, i + 1 = tasks → tasks ≠ sizes.length → sizes[i]? = some (some (toInt (firstOffset i)))

theorem stored_step (h : Stored offsetsOffset firstOffset currentTask sizes)
    (htask : currentTask < sizes.length) :
    ∃ sizes', storeTraceSize offsetsOffset sizes (1 * currentTask) (firstOffset currentTask) =
        some sizes' ∧ sizes'.length = sizes.length ∧
      Stored offsetsOffset firstOffset (currentTask + 1) sizes' := by
  rw [Nat.one_mul]
  obtain ⟨sizes', hstore, hlength, hentry⟩ :=
    @storeTraceSize_eq offsetsOffset _ (firstOffset currentTask) _ htask
  refine ⟨sizes', hstore, hlength, ?_⟩
  constructor
  · intro i hclosed hi
    rw [hlength] at hclosed ⊢
    rw [hentry i (by omega)]
    rcases Nat.lt_or_eq_of_le (Nat.le_of_lt_succ hi) with hlt | rfl
    · rw [if_neg (by omega)]
      split
      · next heq =>
          have hlast := h.last i heq (by omega)
          rw [List.getD_eq_getElem?_getD, hlast]
          simp [nextOffset, heq, toInt_sub_toInt, show currentTask ≠ sizes.length by omega]
      · exact h.closed i (by omega) hlt
    · have hend : i + 1 = sizes.length := by omega
      simp [nextOffset, hend]
  · intro i hi hne
    obtain rfl : i = currentTask := by omega
    rw [hentry i htask, if_pos rfl, if_neg (by omega)]

theorem storeTraceSizes_stored (hcounts : ∀ count ∈ counts, count = 1)
    (h : Stored offsetsOffset firstOffset currentTask sizes)
    (hlength : currentTask + counts.length = sizes.length) :
    ∃ sizes', storeTraceSizes offsetsOffset firstOffset currentTask sizes counts = some sizes' ∧
      sizes'.length = sizes.length ∧
      Stored offsetsOffset firstOffset sizes.length sizes' := by
  induction counts generalizing currentTask sizes with
  | nil =>
      refine ⟨sizes, rfl, rfl, ?_⟩
      rwa [← hlength]
  | cons count counts ih =>
      rw [List.length_cons] at hlength
      obtain ⟨stored, hstore, hstored, hnext⟩ := stored_step h (by omega)
      obtain ⟨sizes', hrest, hlength', hsizes'⟩ :=
        ih (fun count hcount => hcounts count (List.mem_cons_of_mem _ hcount)) hnext (by omega)
      rw [hstored] at hlength' hsizes'
      refine ⟨sizes', ?_, hlength', hsizes'⟩
      rw [storeTraceSizes, hcounts count List.mem_cons_self, hstore]
      exact hrest

theorem readOffsets_single (hcounts : ∀ count ∈ trace.threadsCount, count = 1) :
    ∃ sizes, readOffsets trace offsetsOffset = some sizes ∧
      ∀ task < trace.threadsCount.length, sizes[task]? = some (some (toInt
        (nextOffset offsetsOffset (fun task => trace.threadsOffsets (task, 0))
          trace.threadsCount.length task - trace.threadsOffsets (task, 0)))) := by
  have hsum : trace.threadsCount.sum = trace.threadsCount.length := by
    rw [List.eq_replicate_of_mem hcounts]
    simp
  have hinitial : Stored offsetsOffset (fun task => trace.threadsOffsets (task, 0)) 0
      (List.replicate trace.threadsCount.sum none) := by
    constructor <;> omega
  obtain ⟨sizes, hstore, hlength, hstored⟩ :=
    storeTraceSizes_stored hcounts hinitial (by simp [hsum])
  rw [List.length_replicate, hsum] at hlength hstored
  refine ⟨sizes, hstore, ?_⟩
  intro task htask
  have hclosed := hstored.closed task (by omega) htask
  rwa [hlength] at hclosed

theorem progressionIndex_single (hcounts : ∀ count ∈ trace.threadsCount, count = 1) {id : ThreadId}
    (hid : id ∈ trace.threads) :
    id.1 < trace.threadsCount.length ∧ id = (id.1, 0) ∧ progressionIndex trace id = id.1 := by
  obtain ⟨count, hcount, hlt⟩ := mem_threads.mp hid
  obtain ⟨htask, -⟩ := List.getElem?_eq_some_iff.mp hcount
  obtain rfl := hcounts count (List.mem_of_getElem? hcount)
  have hthread : id.2 = 0 := by omega
  refine ⟨htask, Prod.ext rfl hthread, ?_⟩
  unfold progressionIndex
  rw [List.getD_eq_getElem?_getD, hcount, hthread, Option.getD_some, Nat.one_mul, Nat.add_zero]

end

end Dimemas.Input.TraceSizes
