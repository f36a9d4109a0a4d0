import Dimemas.Library.Meter
import Dimemas.Prv2dim.TaskTranslation
import Mathlib.Algebra.Order.Field.Rat
/-!
# Computation time of a translated task

The CPU bursts of a task against the time outside its MPI blocks. They are the same as long as no
event writes time of an MPI block, and no event takes time away without a burst.
-/

namespace Dimemas.Prv2dim.ComputationTime

open Dimemas.Library.Meter
open Dimemas.Prv2dim.TaskTranslation
open Dimemas.Prv2dim.TaskTranslation.TaskTranslationInfo

inductive BlockKind
  | mpi
  | user
  | cluster
deriving DecidableEq, Repr

def BlockKind.isBlock : BlockKind → Int → Bool
  | .mpi => isMPIBlock
  | .user => isUserBlock
  | .cluster => isClusterBlock

def opens (k : BlockKind) (e : Event) : Bool := k.isBlock e.type && isBlockBegin e.value

def closes (k : BlockKind) (e : Event) : Bool := k.isBlock e.type && !isBlockBegin e.value

/-- The number of open blocks of each kind behind an event. An end without its begin closes no
block. -/
def openBlocks (depth : BlockKind → Nat) (e : Event) (k : BlockKind) : Nat :=
  if opens k e then depth k + 1 else if closes k e then depth k - 1 else depth k

def outsideMPI (depth : BlockKind → Nat) : Bool := depth .mpi == 0

def timeOutsideMPI (firstBlockEnd : Nat) (events : List Event) : Nat :=
  timeIn Event.timestamp openBlocks outsideMPI (fun _ => 0) firstBlockEnd events

/-- An event that opens a block, or closes one that is open behind the events in front of it. -/
def OpensOrCloses (events : List Event) (e : Event) : Prop :=
  ∃ k, opens k e ∨ closes k e ∧ 0 < events.foldl openBlocks (fun _ => 0) k

def duration : Written → ℚ
  | .cpuBurst time => time
  | _ => 0

def bursts (s : TaskTranslationInfo) : ℚ := (s.written.map duration).sum

def stack (s : TaskTranslationInfo) : BlockKind → List Block
  | .mpi => s.mpiBlockIdStack
  | .user => s.userBlockIdStack
  | .cluster => s.clusterBlockIdStack

def depth (s : TaskTranslationInfo) (k : BlockKind) : Nat := (stack s k).length

/-- The time since the last block end, outside MPI blocks. -/
def openTime (s : TaskTranslationInfo) (now : Nat) : Nat :=
  if s.mpiBlockIdStack = [] then now - s.lastBlockEnd else 0

def measured (timeFactor : ℚ) (s : TaskTranslationInfo) (now : Nat) : ℚ :=
  bursts s + openTime s now * timeFactor

/-- The burst in front of this `MPI_Iprobe` or `MPI_Test` has been written. -/
def BurstFlushed (s : TaskTranslationInfo) (e : Event) : Prop :=
  e.value = mpiIprobeVal ∧ s.iprobeBurstFlushed ∨ e.value = mpiTestVal ∧ s.testBurstFlushed

/-- The soft counters of `MPI_Iprobe` and `MPI_Test` that end a burst. -/
def SoftCounter (s : TaskTranslationInfo) (e : Event) : Prop :=
  e.type = probeSoftCounter ∧ (e.value = 0 ∨ s.ongoingIprobe) ∨
    e.type = testSoftCounter ∧ (e.value = 0 ∨ s.ongoingTest)

def TimeCounter (s : TaskTranslationInfo) (e : Event) : Prop :=
  e.type = probeTimeCounter ∧ e.value ≠ 0 ∧ s.ongoingIprobe

/-- The events that write a burst of the time since the last block end, wherever they are. -/
def WritesElapsed (s : TaskTranslationInfo) (e : Event) : Prop :=
  SoftCounter s e ∨
  closes .cluster e ∧ s.clusterBlockIdStack ≠ [] ∨
  opens .mpi e ∧ ¬ BurstFlushed s e ∨
  opens .user e ∨
  closes .user e ∧ s.userBlockIdStack ≠ []

/-- The events that leave the time since the last block end without a burst. -/
def SkipsElapsed (s : TaskTranslationInfo) (e : Event) : Prop :=
  opens .cluster e ∨ opens .mpi e ∧ BurstFlushed s e

/-- An event that is translated without a change of the computation time. -/
structure Accounted (timeFactor : ℚ) (s : TaskTranslationInfo) (e : Event) : Prop where
  /-- What is written has elapsed outside MPI blocks. -/
  written : WritesElapsed s e → s.mpiBlockIdStack = [] ∨ e.timestamp ≤ s.lastBlockEnd
  /-- What is not written has elapsed inside MPI blocks. -/
  skipped : SkipsElapsed s e → s.mpiBlockIdStack = [] → e.timestamp ≤ s.lastBlockEnd
  /-- The time counter of `MPI_Iprobe` gives the elapsed time. -/
  timeCounter : TimeCounter s e →
    (e.value : ℚ) / timeFactor = openTime s e.timestamp * timeFactor
  /-- A cluster block that is written at the end of an MPI block is still open. -/
  flushed : closes .mpi e ∧ s.mpiBlockIdStack ≠ [] ∧ s.flushClusterStack →
    s.clusterBlockIdStack ≠ []

instance (s : TaskTranslationInfo) (e : Event) : Decidable (BurstFlushed s e) :=
  inferInstanceAs (Decidable (_ ∨ _))

instance (s : TaskTranslationInfo) (e : Event) : Decidable (SoftCounter s e) :=
  inferInstanceAs (Decidable (_ ∨ _))

instance (s : TaskTranslationInfo) (e : Event) : Decidable (TimeCounter s e) :=
  inferInstanceAs (Decidable (_ ∧ _))

instance (s : TaskTranslationInfo) (e : Event) : Decidable (WritesElapsed s e) :=
  inferInstanceAs (Decidable (_ ∨ _))

instance (s : TaskTranslationInfo) (e : Event) : Decidable (SkipsElapsed s e) :=
  inferInstanceAs (Decidable (_ ∨ _))

theorem accounted_iff {timeFactor : ℚ} {s : TaskTranslationInfo} {e : Event} :
    Accounted timeFactor s e ↔
      (WritesElapsed s e → s.mpiBlockIdStack = [] ∨ e.timestamp ≤ s.lastBlockEnd) ∧
      (SkipsElapsed s e → s.mpiBlockIdStack = [] → e.timestamp ≤ s.lastBlockEnd) ∧
      (TimeCounter s e → (e.value : ℚ) / timeFactor = openTime s e.timestamp * timeFactor) ∧
      (closes .mpi e ∧ s.mpiBlockIdStack ≠ [] ∧ s.flushClusterStack →
        s.clusterBlockIdStack ≠ []) :=
  ⟨fun ⟨h₁, h₂, h₃, h₄⟩ => ⟨h₁, h₂, h₃, h₄⟩, fun ⟨h₁, h₂, h₃, h₄⟩ => ⟨h₁, h₂, h₃, h₄⟩⟩

instance (timeFactor : ℚ) (s : TaskTranslationInfo) (e : Event) :
    Decidable (Accounted timeFactor s e) :=
  decidable_of_iff _ accounted_iff.symm

section

variable {timeFactor : ℚ} {s s' : TaskTranslationInfo} {e : Event} {now : Nat}

@[simp] theorem bursts_write (s : TaskTranslationInfo) (record : Written) :
    bursts (s.write record) = bursts s + duration record := by
  simp [bursts, write]

/-- A type that no counter and no pseudo event has. -/
def IsBlock (type : Int) : Prop :=
  isMPIBlock type ∨ isUserBlock type ∨ isClusterBlock type

theorem IsBlock.ne (h : IsBlock e.type) : isPseudoLogicRecv e.type = false ∧
    e.type ≠ probeSoftCounter ∧ e.type ≠ probeTimeCounter ∧ e.type ≠ testSoftCounter := by
  simp only [IsBlock, isMPIBlock, isUserBlock, isClusterBlock, Bool.or_eq_true, beq_iff_eq] at h
  rcases h with (((h | h) | h) | h) | ((h | h) | h) | h <;> rw [h] <;> decide

theorem checkIprobeCounters_of_ne (hsoft : e.type ≠ probeSoftCounter)
    (htime : e.type ≠ probeTimeCounter) : s.checkIprobeCounters timeFactor e = s := by
  simp [checkIprobeCounters, hsoft, htime]

theorem checkTestCounters_of_ne (h : e.type ≠ testSoftCounter) :
    s.checkTestCounters timeFactor e = s := by
  simp [checkTestCounters, h]

theorem toDimemas_of_isBlock (h : IsBlock e.type) :
    s.toDimemas timeFactor e = ((s.clusterBlock timeFactor e).mpiBlock timeFactor e).map
      fun s => s.userBlock timeFactor e := by
  obtain ⟨hpseudo, hsoft, htime, htest⟩ := h.ne
  have hgeneric : s.genericEvent timeFactor e = s := by
    unfold IsBlock at h
    unfold genericEvent
    rw [if_pos]
    rcases h with h | h | h <;> simp [h]
  simp only [toDimemas, hpseudo, checkIprobeCounters_of_ne hsoft htime,
    checkTestCounters_of_ne htest, hgeneric]
  rfl

theorem toDimemas_of_mpi (h : isMPIBlock e.type) :
    s.toDimemas timeFactor e = s.mpiBlock timeFactor e := by
  have huser : isUserBlock e.type = false ∧ isClusterBlock e.type = false := by
    simp only [isMPIBlock, Bool.or_eq_true, beq_iff_eq] at h
    rcases h with ((h | h) | h) | h <;> rw [h] <;> decide
  rw [toDimemas_of_isBlock (.inl h)]
  simp [clusterBlock, userBlock, huser]

theorem toDimemas_of_user (h : isUserBlock e.type) :
    s.toDimemas timeFactor e = some (s.userBlock timeFactor e) := by
  have hmpi : isMPIBlock e.type = false ∧ isClusterBlock e.type = false := by
    simp only [isUserBlock, Bool.or_eq_true, beq_iff_eq] at h
    rcases h with (h | h) | h <;> rw [h] <;> decide
  rw [toDimemas_of_isBlock (.inr (.inl h))]
  simp [clusterBlock, mpiBlock, hmpi]

theorem toDimemas_of_cluster (h : isClusterBlock e.type) :
    s.toDimemas timeFactor e = some (s.clusterBlock timeFactor e) := by
  have hmpi : isMPIBlock e.type = false ∧ isUserBlock e.type = false := by
    rw [isClusterBlock, beq_iff_eq] at h
    rw [h]
    decide
  rw [toDimemas_of_isBlock (.inr (.inr h))]
  simp [mpiBlock, userBlock, hmpi]

theorem toDimemas_of_not_isBlock (h : ¬ IsBlock e.type) (hpseudo : isPseudoLogicRecv e.type = false) :
    s.toDimemas timeFactor e = some (((s.checkIprobeCounters timeFactor e).checkTestCounters
      timeFactor e).genericEvent timeFactor e) := by
  simp only [IsBlock, not_or, Bool.not_eq_true] at h
  simp [toDimemas, hpseudo, clusterBlock, mpiBlock, userBlock, h]

/-- Behind a burst of the elapsed time nothing is open. -/
structure BurstWritten (timeFactor : ℚ) (s : TaskTranslationInfo) (now : Nat)
    (s' : TaskTranslationInfo) : Prop where
  sum : bursts s' = bursts s + ((now - s.lastBlockEnd : Nat) : ℚ) * timeFactor
  settled : openTime s' now = 0

/-- Nothing is open behind an event without a burst either. -/
structure BurstSkipped (s : TaskTranslationInfo) (now : Nat) (s' : TaskTranslationInfo) : Prop where
  sum : bursts s' = bursts s
  settled : openTime s' now = 0

theorem measured_of_openTime (h : openTime s now = 0) : measured timeFactor s now = bursts s := by
  rw [measured, h, Nat.cast_zero, zero_mul, add_zero]

theorem BurstWritten.measured_eq (h : BurstWritten timeFactor s now s')
    (hin : s.mpiBlockIdStack = [] ∨ now ≤ s.lastBlockEnd) :
    measured timeFactor s' now = measured timeFactor s now := by
  rw [measured_of_openTime h.settled, h.sum, measured, openTime]
  rcases hin with hout | hle
  · rw [if_pos hout]
  · simp [Nat.sub_eq_zero_of_le hle]

theorem BurstWritten.of_measured_eq (h : BurstWritten timeFactor s now s') (hfactor : timeFactor ≠ 0)
    (heq : measured timeFactor s' now = measured timeFactor s now) :
    s.mpiBlockIdStack = [] ∨ now ≤ s.lastBlockEnd := by
  rw [measured_of_openTime h.settled, h.sum, measured, add_right_inj,
    mul_left_inj' hfactor, Nat.cast_inj, openTime] at heq
  split at heq
  · exact .inl (by assumption)
  · exact .inr (Nat.sub_eq_zero_iff_le.mp heq)

theorem BurstSkipped.measured_eq (h : BurstSkipped s now s')
    (hin : s.mpiBlockIdStack = [] → now ≤ s.lastBlockEnd) :
    measured timeFactor s' now = measured timeFactor s now := by
  rw [measured_of_openTime h.settled, h.sum, measured, openTime]
  split
  · rename_i hout
    simp [Nat.sub_eq_zero_of_le (hin hout)]
  · simp

theorem BurstSkipped.of_measured_eq (h : BurstSkipped s now s') (hfactor : timeFactor ≠ 0)
    (heq : measured timeFactor s' now = measured timeFactor s now)
    (hout : s.mpiBlockIdStack = []) : now ≤ s.lastBlockEnd := by
  rw [measured_of_openTime h.settled, h.sum, measured, left_eq_add, mul_eq_zero,
    or_iff_left hfactor, Nat.cast_eq_zero, openTime, if_pos hout] at heq
  exact Nat.sub_eq_zero_iff_le.mp heq

theorem BlockKind.isBlock_unique {k k' : BlockKind} {type : Int} (h : k.isBlock type)
    (h' : k'.isBlock type) : k = k' := by
  cases k <;> cases k' <;> first
    | rfl
    | (simp [BlockKind.isBlock, isMPIBlock, isUserBlock, isClusterBlock, clusterIdEv] at h h'
       omega)

theorem openBlocks_of_opens {k : BlockKind} {d : BlockKind → Nat} (h : opens k e) :
    openBlocks d e = Function.update d k (d k + 1) := by
  simp only [opens, Bool.and_eq_true] at h
  ext1 k'
  by_cases hk : k' = k
  · subst hk
    simp [openBlocks, opens, h]
  · have hother : k'.isBlock e.type = false :=
      Bool.eq_false_iff.mpr fun h' => hk (BlockKind.isBlock_unique h' h.1)
    simp [openBlocks, opens, closes, hother, hk]

theorem openBlocks_of_closes {k : BlockKind} {d : BlockKind → Nat} (h : closes k e) :
    openBlocks d e = Function.update d k (d k - 1) := by
  simp only [closes, Bool.and_eq_true, Bool.not_eq_true'] at h
  ext1 k'
  by_cases hk : k' = k
  · subst hk
    simp [openBlocks, opens, closes, h]
  · have hother : k'.isBlock e.type = false :=
      Bool.eq_false_iff.mpr fun h' => hk (BlockKind.isBlock_unique h' h.1)
    simp [openBlocks, opens, closes, hother, hk]

theorem isBlock_of_kind {k : BlockKind} {type : Int} (h : k.isBlock type) : IsBlock type := by
  cases k with
  | mpi => exact .inl h
  | user => exact .inr (.inl h)
  | cluster => exact .inr (.inr h)

theorem openBlocks_of_not_isBlock {d : BlockKind → Nat} (h : ¬ IsBlock e.type) :
    openBlocks d e = d := by
  ext1 k
  have hk : k.isBlock e.type = false := Bool.eq_false_iff.mpr fun hk => h (isBlock_of_kind hk)
  simp [openBlocks, opens, closes, hk]

/-- What every event does to the stacks and to the end of the last block. -/
structure Handles (s : TaskTranslationInfo) (e : Event) (s' : TaskTranslationInfo) : Prop where
  depth : depth s' = openBlocks (depth s) e
  last : s.lastBlockEnd ≤ e.timestamp → s'.lastBlockEnd ≤ e.timestamp

theorem mpiBlock_of_opens (timeFactor : ℚ) (h : opens .mpi e) :
    ∃ s', s.toDimemas timeFactor e = some s' ∧ Handles s e s' ∧
      (BurstFlushed s e → BurstSkipped s e.timestamp s') ∧
      (¬ BurstFlushed s e → BurstWritten timeFactor s e.timestamp s') := by
  have hopens := openBlocks_of_opens (d := depth s) h
  simp only [opens, BlockKind.isBlock, Bool.and_eq_true] at h
  rw [toDimemas_of_mpi h.1, mpiBlock, if_pos h.1, if_pos h.2]
  refine ⟨_, rfl, ⟨?_, ?_⟩, ?_, ?_⟩
  · rw [hopens]
    ext1 k
    cases k <;> simp [depth, stack, write, generateBurst, apply_ite]
  · simp [write, generateBurst, apply_ite]
  · intro hflushed
    constructor
    · rw [if_neg (by unfold BurstFlushed at hflushed; tauto)]
      simp [bursts, write, duration]
    · simp [openTime, write]
  · intro hflushed
    simp only [BurstFlushed, not_or] at hflushed
    constructor
    · by_cases hlt : s.lastBlockEnd < e.timestamp
      · simp [hflushed, hlt, bursts, write, generateBurst, duration]
      · have hle := Nat.sub_eq_zero_of_le (Nat.le_of_not_lt hlt)
        simp [hlt, hle, bursts, write, duration]
    · simp [openTime, write]

/-- The end of an MPI block. Nothing is known behind it if the cluster block that it is to write has
been closed. -/
theorem mpiBlock_of_closes (timeFactor : ℚ) (h : closes .mpi e) (hopen : s.mpiBlockIdStack ≠ [])
    (hflush : s.flushClusterStack → s.clusterBlockIdStack ≠ []) :
    ∃ s', s.toDimemas timeFactor e = some s' ∧ Handles s e s' ∧
      BurstSkipped s e.timestamp s' := by
  have hcloses := openBlocks_of_closes (d := depth s) h
  simp only [closes, BlockKind.isBlock, Bool.and_eq_true, Bool.not_eq_true'] at h
  obtain ⟨b, blocks, hstack⟩ := List.exists_cons_of_ne_nil hopen
  have hsteps : ∃ written flush, (s.mpiBlock timeFactor e) = some { s with
      lastBlockEnd := e.timestamp
      mpiBlockIdStack := blocks
      flushClusterStack := flush
      written := s.written ++ written } ∧ (written.map duration).sum = 0 := by
    rw [mpiBlock, if_pos h.1, h.2, if_neg Bool.false_ne_true]
    simp only [hstack]
    cases hf : s.flushClusterStack with
    | false => exact ⟨[.blockEnd e.type], false, by simp [write, setLastBlockEnd, duration]⟩
    | true =>
        obtain ⟨⟨type, value⟩, clusters, hclusters⟩ := List.exists_cons_of_ne_nil (hflush hf)
        exact ⟨[.blockEnd e.type, .blockBegin type value], false, by
          simp [write, setLastBlockEnd, hclusters, duration]⟩
  obtain ⟨written, flush, heq, hsum⟩ := hsteps
  rw [toDimemas_of_mpi h.1, heq]
  refine ⟨_, rfl, ⟨?_, fun _ => Nat.le_refl _⟩, ?_, ?_⟩
  · rw [hcloses]
    ext1 k
    cases k <;> simp [depth, stack, hstack]
  · simp [bursts, hsum]
  · simp [openTime]

theorem mpiBlock_eq_none (h : closes .mpi e) (hopen : s.mpiBlockIdStack ≠ [])
    (hflush : s.flushClusterStack) (hempty : s.clusterBlockIdStack = []) :
    s.toDimemas timeFactor e = none := by
  simp only [closes, BlockKind.isBlock, Bool.and_eq_true, Bool.not_eq_true'] at h
  obtain ⟨b, blocks, hstack⟩ := List.exists_cons_of_ne_nil hopen
  rw [toDimemas_of_mpi h.1, mpiBlock, if_pos h.1, h.2, if_neg Bool.false_ne_true]
  simp [hstack, write, setLastBlockEnd, hflush, hempty]

theorem userBlock_of_opens (timeFactor : ℚ) (h : opens .user e) :
    ∃ s', s.toDimemas timeFactor e = some s' ∧ Handles s e s' ∧
      BurstWritten timeFactor s e.timestamp s' := by
  have hopens := openBlocks_of_opens (d := depth s) h
  simp only [opens, BlockKind.isBlock, Bool.and_eq_true] at h
  rw [toDimemas_of_user h.1, userBlock, if_pos h.1, if_pos h.2]
  refine ⟨_, rfl, ⟨?_, ?_⟩, ?_, ?_⟩
  · rw [hopens]
    ext1 k
    cases k <;> simp [depth, stack, write, setLastBlockEnd, generateBurst, apply_ite]
  · simp [write, setLastBlockEnd]
  · by_cases hlt : s.lastBlockEnd < e.timestamp
    · simp [hlt, bursts, write, setLastBlockEnd, generateBurst, duration]
    · have hle := Nat.sub_eq_zero_of_le (Nat.le_of_not_lt hlt)
      simp [hlt, hle, bursts, write, setLastBlockEnd, duration]
  · simp [openTime, write, setLastBlockEnd]

theorem userBlock_of_closes (timeFactor : ℚ) (h : closes .user e) (hopen : s.userBlockIdStack ≠ []) :
    ∃ s', s.toDimemas timeFactor e = some s' ∧ Handles s e s' ∧
      BurstWritten timeFactor s e.timestamp s' := by
  have hcloses := openBlocks_of_closes (d := depth s) h
  simp only [closes, BlockKind.isBlock, Bool.and_eq_true, Bool.not_eq_true'] at h
  obtain ⟨b, blocks, hstack⟩ := List.exists_cons_of_ne_nil hopen
  rw [toDimemas_of_user h.1, userBlock, if_pos h.1, h.2, if_neg Bool.false_ne_true]
  simp only [hstack]
  refine ⟨_, rfl, ⟨?_, ?_⟩, ?_, ?_⟩
  · rw [hcloses]
    ext1 k
    cases k <;> simp [depth, stack, hstack, write, setLastBlockEnd, generateBurst, apply_ite]
  · simp [write, setLastBlockEnd]
  · by_cases hlt : s.lastBlockEnd < e.timestamp
    · simp [hlt, bursts, write, setLastBlockEnd, generateBurst, duration]
    · have hle := Nat.sub_eq_zero_of_le (Nat.le_of_not_lt hlt)
      simp [hlt, hle, bursts, write, setLastBlockEnd, duration]
  · simp [openTime, write, setLastBlockEnd]

theorem clusterBlock_of_opens (timeFactor : ℚ) (h : opens .cluster e) :
    ∃ s', s.toDimemas timeFactor e = some s' ∧ Handles s e s' ∧
      BurstSkipped s e.timestamp s' := by
  have hopens := openBlocks_of_opens (d := depth s) h
  simp only [opens, BlockKind.isBlock, Bool.and_eq_true] at h
  rw [toDimemas_of_cluster h.1, clusterBlock, if_pos h.1, if_pos h.2]
  refine ⟨_, rfl, ⟨?_, ?_⟩, ?_, ?_⟩
  · rw [hopens]
    ext1 k
    cases k <;> simp [depth, stack, write, setLastBlockEnd, apply_ite]
  · simp [setLastBlockEnd]
  · by_cases hmpi : s.mpiBlockIdStack = [] <;>
      simp [hmpi, bursts, write, setLastBlockEnd, duration]
  · simp [openTime, setLastBlockEnd]

theorem clusterBlock_of_closes (timeFactor : ℚ) (h : closes .cluster e)
    (hopen : s.clusterBlockIdStack ≠ []) :
    ∃ s', s.toDimemas timeFactor e = some s' ∧ Handles s e s' ∧
      BurstWritten timeFactor s e.timestamp s' := by
  have hcloses := openBlocks_of_closes (d := depth s) h
  simp only [closes, BlockKind.isBlock, Bool.and_eq_true, Bool.not_eq_true'] at h
  obtain ⟨b, blocks, hstack⟩ := List.exists_cons_of_ne_nil hopen
  rw [toDimemas_of_cluster h.1, clusterBlock, if_pos h.1, h.2, if_neg Bool.false_ne_true]
  simp only [hstack]
  refine ⟨_, rfl, ⟨?_, ?_⟩, ?_, ?_⟩
  · rw [hcloses]
    ext1 k
    cases k <;> simp [depth, stack, hstack, write, setLastBlockEnd, generateBurst, apply_ite]
  · intro hlast
    by_cases hlt : s.lastBlockEnd < e.timestamp <;>
      simp [hlt, hlast, write, setLastBlockEnd, generateBurst]
  · by_cases hlt : s.lastBlockEnd < e.timestamp
    · simp [hlt, bursts, write, setLastBlockEnd, generateBurst, duration]
    · have hle := Nat.sub_eq_zero_of_le (Nat.le_of_not_lt hlt)
      simp [hlt, hle, bursts, write, duration]
  · by_cases hlt : s.lastBlockEnd < e.timestamp
    · simp [hlt, openTime, write, setLastBlockEnd, generateBurst]
    · have hle := Nat.sub_eq_zero_of_le (Nat.le_of_not_lt hlt)
      simp [hlt, hle, openTime, write]

theorem closes_of_empty (timeFactor : ℚ) {k : BlockKind} (h : closes k e) (hempty : stack s k = []) :
    s.toDimemas timeFactor e = some s ∧ Handles s e s := by
  have hdepth : depth s = openBlocks (depth s) e := by
    rw [openBlocks_of_closes h]
    simp [depth, hempty]
  refine ⟨?_, hdepth, id⟩
  simp only [closes, Bool.and_eq_true, Bool.not_eq_true'] at h
  cases k with
  | mpi =>
      have hstack : s.mpiBlockIdStack = [] := hempty
      have htype : isMPIBlock e.type := h.1
      rw [toDimemas_of_mpi htype, mpiBlock, if_pos htype, h.2, if_neg Bool.false_ne_true]
      simp only [hstack]
  | user =>
      have hstack : s.userBlockIdStack = [] := hempty
      have htype : isUserBlock e.type := h.1
      rw [toDimemas_of_user htype, userBlock, if_pos htype, h.2, if_neg Bool.false_ne_true]
      simp only [hstack]
  | cluster =>
      have hstack : s.clusterBlockIdStack = [] := hempty
      have htype : isClusterBlock e.type := h.1
      rw [toDimemas_of_cluster htype, clusterBlock, if_pos htype, h.2, if_neg Bool.false_ne_true]
      simp only [hstack]

/-- A burst is broken outside MPI blocks only. -/
theorem measured_genericEvent :
    measured timeFactor (s.genericEvent timeFactor e) e.timestamp =
      measured timeFactor s e.timestamp := by
  unfold genericEvent
  split
  · rfl
  · by_cases hbreak : (s.lastBlockEnd ≠ e.timestamp ∨ s.lastBlockEnd = 0 ∧ e.timestamp = 0) ∧
        s.mpiBlockIdStack = [] ∧ e.type ≠ flushingEv ∧ e.type ≠ probeSoftCounter ∧
        e.type ≠ probeTimeCounter
    · rw [if_pos hbreak]
      simp [hbreak.2.1, measured, openTime, bursts, write, setLastBlockEnd,
        generateBurst, duration]
    · rw [if_neg hbreak, measured, bursts_write]
      exact congrArg (· + _) (add_zero _)

theorem handles_genericEvent : depth (s.genericEvent timeFactor e) = depth s ∧
    (s.lastBlockEnd ≤ e.timestamp →
      (s.genericEvent timeFactor e).lastBlockEnd ≤ e.timestamp) := by
  unfold genericEvent
  split
  · exact ⟨rfl, id⟩
  · constructor
    · ext1 k
      cases k <;> simp [depth, stack, write, setLastBlockEnd, generateBurst, apply_ite]
    · intro hlast
      simp only [write, setLastBlockEnd]
      split
      · exact Nat.le_refl _
      · exact hlast

/-- What the soft counters leave to the rest of the translation. -/
def counted (timeFactor : ℚ) (s : TaskTranslationInfo) (e : Event) : TaskTranslationInfo :=
  (s.checkIprobeCounters timeFactor e).checkTestCounters timeFactor e

theorem handles_counted : depth (counted timeFactor s e) = depth s ∧
    (s.lastBlockEnd ≤ e.timestamp →
      (counted timeFactor s e).lastBlockEnd ≤ e.timestamp) := by
  constructor
  · simp only [counted, checkTestCounters, checkIprobeCounters, write, setLastBlockEnd,
      generateBurst]
    ext1 k
    split_ifs <;> cases k <;> rfl
  · intro hlast
    simp only [counted, checkTestCounters, checkIprobeCounters, write, setLastBlockEnd,
      generateBurst]
    split_ifs <;> first | exact Nat.le_refl _ | exact hlast

theorem counted_of_softCounter (h : SoftCounter s e) :
    BurstWritten timeFactor s e.timestamp (counted timeFactor s e) := by
  rcases h with ⟨htype, hvalue⟩ | ⟨htype, hvalue⟩
  · have htest : e.type ≠ testSoftCounter := by
      rw [htype]
      decide
    have htime : ¬ probeSoftCounter = probeTimeCounter := by decide
    rw [counted, checkTestCounters_of_ne htest]
    by_cases hzero : e.value = 0
    · constructor <;> simp [checkIprobeCounters, htype, hzero, bursts, openTime, write,
        setLastBlockEnd, generateBurst, duration]
    · have hongoing := hvalue.resolve_left hzero
      constructor <;> simp [checkIprobeCounters, htype, htime, hzero, hongoing, bursts, openTime,
        write, setLastBlockEnd, generateBurst, duration]
  · have hprobe : e.type ≠ probeSoftCounter ∧ e.type ≠ probeTimeCounter := by
      rw [htype]
      decide
    rw [counted, checkIprobeCounters_of_ne hprobe.1 hprobe.2]
    by_cases hzero : e.value = 0
    · constructor <;> simp [checkTestCounters, htype, hzero, bursts, openTime, write,
        setLastBlockEnd, generateBurst, duration]
    · have hongoing := hvalue.resolve_left hzero
      constructor <;> simp [checkTestCounters, htype, hzero, hongoing, bursts, openTime, write,
        setLastBlockEnd, generateBurst, duration]

theorem counted_of_timeCounter (timeFactor : ℚ) (h : TimeCounter s e) :
    bursts (counted timeFactor s e) = bursts s + e.value / timeFactor ∧
      openTime (counted timeFactor s e) e.timestamp = 0 := by
  obtain ⟨htype, hzero, hongoing⟩ := h
  have htest : e.type ≠ testSoftCounter := by
    rw [htype]
    decide
  have hsoft : ¬ probeTimeCounter = probeSoftCounter := by decide
  rw [counted, checkTestCounters_of_ne htest]
  constructor <;> simp [checkIprobeCounters, htype, hsoft, hzero, hongoing, bursts, openTime,
    write, setLastBlockEnd, duration]

theorem counted_of_neither (hsoft : ¬ SoftCounter s e) (htime : ¬ TimeCounter s e) :
    counted timeFactor s e = s := by
  simp only [SoftCounter, not_or, not_and] at hsoft
  simp only [TimeCounter, not_and] at htime
  have hiprobe : s.checkIprobeCounters timeFactor e = s := by
    have hzero : ¬ (e.type = probeSoftCounter ∧ e.value = 0) := fun h => (hsoft.1 h.1).1 h.2
    unfold checkIprobeCounters
    simp only [if_neg hzero]
    rw [if_neg]
    intro h
    rcases h.1 with htype | htype
    · exact (hsoft.1 htype).2 h.2.2
    · exact htime htype h.2.1 h.2.2
  have hzero : ¬ (e.type = testSoftCounter ∧ e.value = 0) := fun h => (hsoft.2 h.1).1 h.2
  rw [counted, hiprobe]
  unfold checkTestCounters
  simp only [if_neg hzero]
  rw [if_neg]
  exact fun h => (hsoft.2 h.1).2 h.2.2

/-- An event that is no block leaves what the soft counters have measured. -/
theorem toDimemas_generic (timeFactor : ℚ) (h : ¬ IsBlock e.type)
    (hpseudo : isPseudoLogicRecv e.type = false) :
    ∃ s', s.toDimemas timeFactor e = some s' ∧ Handles s e s' ∧
      measured timeFactor s' e.timestamp =
        measured timeFactor (counted timeFactor s e) e.timestamp := by
  refine ⟨_, toDimemas_of_not_isBlock h hpseudo, ⟨?_, ?_⟩, measured_genericEvent⟩
  · rw [handles_genericEvent.1, openBlocks_of_not_isBlock h]
    exact handles_counted.1
  · exact fun hlast => handles_genericEvent.2 (handles_counted.2 hlast)

theorem isBlock_cases (h : IsBlock e.type) : ∃ k : BlockKind, opens k e ∨ closes k e := by
  have hkind : ∃ k : BlockKind, k.isBlock e.type := by
    rcases h with h | h | h
    · exact ⟨.mpi, h⟩
    · exact ⟨.user, h⟩
    · exact ⟨.cluster, h⟩
  obtain ⟨k, hk⟩ := hkind
  refine ⟨k, ?_⟩
  cases hvalue : isBlockBegin e.value
  · exact .inr (by simp [closes, hk, hvalue])
  · exact .inl (by simp [opens, hk, hvalue])

theorem openTime_of_block {k : BlockKind} (h : opens k e ∨ closes k e ∧ stack s k ≠ [])
    (hs' : s.toDimemas timeFactor e = some s') : openTime s' e.timestamp = 0 := by
  rcases h with h | ⟨h, hopen⟩
  · cases k with
    | mpi =>
        obtain ⟨s₁, hs₁, -, hskipped, hwritten⟩ := mpiBlock_of_opens timeFactor h
        obtain rfl := Option.some_injective _ (hs'.symm.trans hs₁)
        by_cases hflushed : BurstFlushed s e
        · exact (hskipped hflushed).settled
        · exact (hwritten hflushed).settled
    | user =>
        obtain ⟨s₁, hs₁, -, hwritten⟩ := userBlock_of_opens timeFactor h
        obtain rfl := Option.some_injective _ (hs'.symm.trans hs₁)
        exact hwritten.settled
    | cluster =>
        obtain ⟨s₁, hs₁, -, hskipped⟩ := clusterBlock_of_opens timeFactor h
        obtain rfl := Option.some_injective _ (hs'.symm.trans hs₁)
        exact hskipped.settled
  · cases k with
    | mpi =>
        have hflush : s.flushClusterStack → s.clusterBlockIdStack ≠ [] := by
          intro hflush hempty
          rw [mpiBlock_eq_none h hopen hflush hempty] at hs'
          cases hs'
        obtain ⟨s₁, hs₁, -, hskipped⟩ := mpiBlock_of_closes timeFactor h hopen hflush
        obtain rfl := Option.some_injective _ (hs'.symm.trans hs₁)
        exact hskipped.settled
    | user =>
        obtain ⟨s₁, hs₁, -, hwritten⟩ :=
          userBlock_of_closes timeFactor h hopen
        obtain rfl := Option.some_injective _ (hs'.symm.trans hs₁)
        exact hwritten.settled
    | cluster =>
        obtain ⟨s₁, hs₁, -, hwritten⟩ :=
          clusterBlock_of_closes timeFactor h hopen
        obtain rfl := Option.some_injective _ (hs'.symm.trans hs₁)
        exact hwritten.settled

theorem toDimemas_of_accounted (h : Accounted timeFactor s e) :
    ∃ s', s.toDimemas timeFactor e = some s' ∧ Handles s e s' ∧
      measured timeFactor s' e.timestamp = measured timeFactor s e.timestamp := by
  by_cases hblock : IsBlock e.type
  · obtain ⟨k, hopens | hcloses⟩ := isBlock_cases hblock
    · cases k with
      | mpi =>
          obtain ⟨s', hs', hhandles, hskipped, hwritten⟩ :=
            mpiBlock_of_opens (s := s) timeFactor hopens
          refine ⟨s', hs', hhandles, ?_⟩
          by_cases hflushed : BurstFlushed s e
          · exact (hskipped hflushed).measured_eq (h.skipped (.inr ⟨hopens, hflushed⟩))
          · exact (hwritten hflushed).measured_eq
              (h.written (.inr (.inr (.inl ⟨hopens, hflushed⟩))))
      | user =>
          obtain ⟨s', hs', hhandles, hwritten⟩ :=
            userBlock_of_opens (s := s) timeFactor hopens
          exact ⟨s', hs', hhandles, hwritten.measured_eq
            (h.written (.inr (.inr (.inr (.inl hopens)))))⟩
      | cluster =>
          obtain ⟨s', hs', hhandles, hskipped⟩ :=
            clusterBlock_of_opens (s := s) timeFactor hopens
          exact ⟨s', hs', hhandles, hskipped.measured_eq (h.skipped (.inl hopens))⟩
    · by_cases hempty : stack s k = []
      · obtain ⟨hs', hhandles⟩ := closes_of_empty timeFactor hcloses hempty
        exact ⟨s, hs', hhandles, rfl⟩
      · cases k with
        | mpi =>
            obtain ⟨s', hs', hhandles, hskipped⟩ := mpiBlock_of_closes timeFactor
              hcloses hempty fun hflush => h.flushed ⟨hcloses, hempty, hflush⟩
            exact ⟨s', hs', hhandles, hskipped.measured_eq fun hout => absurd hout hempty⟩
        | user =>
            obtain ⟨s', hs', hhandles, hwritten⟩ :=
              userBlock_of_closes timeFactor hcloses hempty
            exact ⟨s', hs', hhandles, hwritten.measured_eq
              (h.written (.inr (.inr (.inr (.inr ⟨hcloses, hempty⟩)))))⟩
        | cluster =>
            obtain ⟨s', hs', hhandles, hwritten⟩ :=
              clusterBlock_of_closes timeFactor hcloses hempty
            exact ⟨s', hs', hhandles, hwritten.measured_eq
              (h.written (.inr (.inl ⟨hcloses, hempty⟩)))⟩
  · by_cases hpseudo : isPseudoLogicRecv e.type
    · refine ⟨s, if_pos hpseudo, ⟨(openBlocks_of_not_isBlock hblock).symm, id⟩, rfl⟩
    · obtain ⟨s', hs', hhandles, hmeasured⟩ := toDimemas_generic (s := s)
        timeFactor hblock (Bool.not_eq_true _ ▸ hpseudo)
      refine ⟨s', hs', hhandles, hmeasured.trans ?_⟩
      by_cases hsoft : SoftCounter s e
      · exact (counted_of_softCounter hsoft).measured_eq (h.written (.inl hsoft))
      · by_cases htime : TimeCounter s e
        · obtain ⟨hsum, hsettled⟩ := counted_of_timeCounter timeFactor htime
          rw [measured_of_openTime hsettled, hsum, h.timeCounter htime, measured]
        · rw [counted_of_neither hsoft htime]

theorem SoftCounter.plain (h : SoftCounter s e) :
    ¬ IsBlock e.type ∧ isPseudoLogicRecv e.type = false := by
  rcases h with ⟨htype, _⟩ | ⟨htype, _⟩
  · exact ⟨fun hblock => hblock.ne.2.1 htype, htype ▸ rfl⟩
  · exact ⟨fun hblock => hblock.ne.2.2.2 htype, htype ▸ rfl⟩

theorem TimeCounter.plain (h : TimeCounter s e) :
    ¬ IsBlock e.type ∧ isPseudoLogicRecv e.type = false :=
  ⟨fun hblock => hblock.ne.2.2.1 h.1, h.1 ▸ rfl⟩

theorem accounted_of_measured (hfactor : timeFactor ≠ 0)
    (hs' : s.toDimemas timeFactor e = some s')
    (hmeasured : measured timeFactor s' e.timestamp = measured timeFactor s e.timestamp) :
    Accounted timeFactor s e where
  written hwrites := by
    rcases hwrites with hsoft | ⟨hcloses, hopen⟩ | ⟨hopens, hflushed⟩ | hopens | ⟨hcloses, hopen⟩
    · obtain ⟨s₁, hs₁, -, hsame⟩ := toDimemas_generic timeFactor hsoft.plain.1 hsoft.plain.2
      obtain rfl := Option.some_injective _ (hs'.symm.trans hs₁)
      exact (counted_of_softCounter hsoft).of_measured_eq hfactor (hsame.symm.trans hmeasured)
    · obtain ⟨s₁, hs₁, -, hwritten⟩ := clusterBlock_of_closes timeFactor hcloses hopen
      obtain rfl := Option.some_injective _ (hs'.symm.trans hs₁)
      exact hwritten.of_measured_eq hfactor hmeasured
    · obtain ⟨s₁, hs₁, -, -, hwritten⟩ := mpiBlock_of_opens (s := s) timeFactor hopens
      obtain rfl := Option.some_injective _ (hs'.symm.trans hs₁)
      exact (hwritten hflushed).of_measured_eq hfactor hmeasured
    · obtain ⟨s₁, hs₁, -, hwritten⟩ := userBlock_of_opens (s := s) timeFactor hopens
      obtain rfl := Option.some_injective _ (hs'.symm.trans hs₁)
      exact hwritten.of_measured_eq hfactor hmeasured
    · obtain ⟨s₁, hs₁, -, hwritten⟩ := userBlock_of_closes timeFactor hcloses hopen
      obtain rfl := Option.some_injective _ (hs'.symm.trans hs₁)
      exact hwritten.of_measured_eq hfactor hmeasured
  skipped hskips hout := by
    rcases hskips with hopens | ⟨hopens, hflushed⟩
    · obtain ⟨s₁, hs₁, -, hskipped⟩ := clusterBlock_of_opens (s := s) timeFactor hopens
      obtain rfl := Option.some_injective _ (hs'.symm.trans hs₁)
      exact hskipped.of_measured_eq hfactor hmeasured hout
    · obtain ⟨s₁, hs₁, -, hskipped, -⟩ := mpiBlock_of_opens (s := s) timeFactor hopens
      obtain rfl := Option.some_injective _ (hs'.symm.trans hs₁)
      exact (hskipped hflushed).of_measured_eq hfactor hmeasured hout
  timeCounter htime := by
    obtain ⟨s₁, hs₁, -, hsame⟩ := toDimemas_generic timeFactor htime.plain.1 htime.plain.2
    obtain rfl := Option.some_injective _ (hs'.symm.trans hs₁)
    obtain ⟨hsum, hsettled⟩ := counted_of_timeCounter timeFactor htime
    rw [hmeasured, measured_of_openTime hsettled, hsum, measured, add_right_inj] at hsame
    exact hsame.symm
  flushed := by
    rintro ⟨hcloses, hopen, hflush⟩ hempty
    rw [mpiBlock_eq_none hcloses hopen hflush hempty] at hs'
    cases hs'

/-- The open time grows outside MPI blocks. -/
theorem measured_later (s : TaskTranslationInfo) (now later : Nat) (hlast : s.lastBlockEnd ≤ now)
    (hle : now ≤ later) : s.lastBlockEnd ≤ later ∧
      measured timeFactor s later = measured timeFactor s now +
        bif outsideMPI (depth s) then ((later - now : Nat) : ℚ) * timeFactor else 0 := by
  refine ⟨hlast.trans hle, ?_⟩
  simp only [measured, openTime]
  by_cases hout : s.mpiBlockIdStack = []
  · have hdepth : outsideMPI (depth s) = true := by simp [outsideMPI, depth, stack, hout]
    rw [if_pos hout, if_pos hout, hdepth, cond_true, add_assoc, ← add_mul, ← Nat.cast_add]
    have hsum : later - s.lastBlockEnd = now - s.lastBlockEnd + (later - now) := by omega
    rw [hsum]
  · have hdepth : outsideMPI (depth s) = false := by simp [outsideMPI, depth, stack, hout]
    rw [if_neg hout, if_neg hout, hdepth, cond_false, add_zero]

end

theorem depth_initial (threadId initialTime : Nat) (generateFirstIdle emptyTask : Bool) :
    depth (.initial threadId initialTime generateFirstIdle emptyTask) = fun _ => 0 := by
  ext1 k
  cases k <;> rfl

section

variable {timeFactor : ℚ} {s : TaskTranslationInfo} {events : List Event} {e : Event}

theorem measured_of_accounted (htime : NonDecreasing Event.timestamp s.lastBlockEnd events)
    (haccounted : AtEvents (toDimemas timeFactor) (Accounted timeFactor) s events) :
    ∃ s', events.foldlM (toDimemas timeFactor) s = some s' ∧
      depth s' = events.foldl openBlocks (depth s) ∧
      measured timeFactor s' (lastTime Event.timestamp s.lastBlockEnd events) =
        bursts s + (timeIn Event.timestamp openBlocks outsideMPI (depth s) s.lastBlockEnd events : ℚ)
          * timeFactor := by
  have hhandle : ∀ (s : TaskTranslationInfo) (e : Event), s.lastBlockEnd ≤ e.timestamp →
      Accounted timeFactor s e → ∃ s', s.toDimemas timeFactor e = some s' ∧
        s'.lastBlockEnd ≤ e.timestamp ∧ depth s' = openBlocks (depth s) e ∧
        measured timeFactor s' e.timestamp = measured timeFactor s e.timestamp := by
    intro s e hlast h
    obtain ⟨s', hs', hhandles, hmeasured⟩ := toDimemas_of_accounted h
    exact ⟨s', hs', hhandles.last hlast, hhandles.depth, hmeasured⟩
  obtain ⟨s', hs', _, hdepth, hmeasured⟩ := measured_foldlM depth (measured timeFactor)
    (fun s now => s.lastBlockEnd ≤ now) measured_later hhandle (Nat.le_refl _) htime haccounted
  refine ⟨s', hs', hdepth, hmeasured.trans ?_⟩
  simp [measured, openTime]

end

/-- The CPU bursts up to an event that opens or closes a block are the time outside MPI blocks. -/
def ConservesTime (timeFactor : ℚ) (threadId initialTime : Nat)
    (generateFirstIdle emptyTask : Bool) (events : List Event) (e : Event) : Prop :=
  let first := TaskTranslationInfo.initial threadId initialTime generateFirstIdle emptyTask
  ∃ s, (events ++ [e]).foldlM (toDimemas timeFactor) first = some s ∧
    bursts s = timeFactor * timeOutsideMPI first.lastBlockEnd (events ++ [e])

theorem conservesTime_iff {timeFactor : ℚ} {threadId initialTime : Nat}
    {generateFirstIdle emptyTask : Bool} {events : List Event} {e : Event} :
    ConservesTime timeFactor threadId initialTime generateFirstIdle emptyTask events e ↔
      ((events ++ [e]).foldlM (toDimemas timeFactor)
        (.initial threadId initialTime generateFirstIdle emptyTask)).map bursts =
      some (timeFactor * timeOutsideMPI
        (TaskTranslationInfo.initial threadId initialTime generateFirstIdle
          emptyTask).lastBlockEnd (events ++ [e])) :=
  Option.map_eq_some_iff.symm

/-- Time is conserved up to every block, as long as all events are accounted. -/
theorem conservesTime_of_accounted (timeFactor : ℚ) (threadId initialTime : Nat)
    (generateFirstIdle emptyTask : Bool) (events : List Event) (e : Event)
    (htime : NonDecreasing Event.timestamp
      (TaskTranslationInfo.initial threadId initialTime generateFirstIdle emptyTask).lastBlockEnd
      (events ++ [e]))
    (hblock : OpensOrCloses events e)
    (haccounted : AtEvents (toDimemas timeFactor) (Accounted timeFactor)
      (.initial threadId initialTime generateFirstIdle emptyTask) (events ++ [e])) :
    ConservesTime timeFactor threadId initialTime generateFirstIdle emptyTask events e := by
  obtain ⟨s₁, hs₁, hdepth, _⟩ := measured_of_accounted htime.of_append haccounted.of_append
  obtain ⟨s, hs, _, hmeasured⟩ := measured_of_accounted htime haccounted
  have hlast : s₁.toDimemas timeFactor e = some s := by
    rw [List.foldlM_append, hs₁] at hs
    simpa using hs
  have hopen : openTime s e.timestamp = 0 := by
    obtain ⟨k, hopens | ⟨hcloses, hpos⟩⟩ := hblock
    · exact openTime_of_block (.inl hopens) hlast
    · apply openTime_of_block (.inr ⟨hcloses, ?_⟩) hlast
      rw [depth_initial] at hdepth
      rw [← hdepth] at hpos
      exact List.ne_nil_of_length_pos hpos
  rw [lastTime_append_singleton, measured_of_openTime hopen, depth_initial] at hmeasured
  refine ⟨s, hs, ?_⟩
  rw [hmeasured, timeOutsideMPI, mul_comm timeFactor]
  exact zero_add _

def functionWithSend : List Event :=
  [⟨60000019, 5, 10⟩, ⟨50000001, 1, 30⟩, ⟨50000001, 0, 70⟩]

/-- A trace where `MPI_Iprobe` has a time counter. -/
def iprobeWithCounter : List Event :=
  [⟨probeSoftCounter, 0, 10⟩, ⟨probeTimeCounter, 20, 30⟩]

theorem conservesTime_functionWithSend :
    ConservesTime (1 / 1000000000) 1 0 false false functionWithSend ⟨60000019, 0, 100⟩ := by
  apply conservesTime_of_accounted
  · decide
  · exact ⟨.user, .inr (by decide)⟩
  · decide +kernel

/-- The time counter is converted with the wrong unit. -/
theorem not_conservesTime :
    ¬ ∀ (timeFactor : ℚ) (threadId initialTime : Nat) (generateFirstIdle emptyTask : Bool)
      (events : List Event) (e : Event), NonDecreasing Event.timestamp
        (TaskTranslationInfo.initial threadId initialTime generateFirstIdle
          emptyTask).lastBlockEnd (events ++ [e]) → OpensOrCloses events e →
      ConservesTime timeFactor threadId initialTime generateFirstIdle emptyTask events e := by
  intro h
  have hsum := conservesTime_iff.mp (h (1 / 1000000000) 1 0 false false iprobeWithCounter
    ⟨50000003, 62, 30⟩ (by decide) ⟨.mpi, .inl rfl⟩)
  revert hsum
  decide +kernel

end Dimemas.Prv2dim.ComputationTime
