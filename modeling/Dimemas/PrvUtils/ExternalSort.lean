import Dimemas.Library.Merging
import Dimemas.PrvUtils.ParaverRecords
/-!
# The external sort of a trace

States and communications are sorted in runs, which are temporary files. The files are merged two at
a time, from one family of names to the other and back, until two are left. The final trace is the
merge of their result with the events, which are not sorted.
-/

namespace Dimemas.PrvUtils.ExternalSort

open Dimemas.Library.Merging
open Dimemas.PrvUtils.ParaverRecords

def maxInFlightRecords : Nat := 10000

/-- The temporary files: `TmpFilesPrefix` followed by `.k` and by `A.k` in the families. -/
inductive FileName
  | events
  | statesAndComms
  | tmp (k : Nat)
  | tmpA (k : Nat)
deriving DecidableEq, Repr

abbrev Files := FileName → Option (List (List Char))

end Dimemas.PrvUtils.ExternalSort

namespace Dimemas.PrvUtils

open Dimemas.PrvUtils.ExternalSort Dimemas.PrvUtils.ParaverRecords

/-- `StatesAndCommsFile` is the file `tmp numFiles`. -/
structure ExternalSort where
  files : Files
  records : List SimpleParaverRecord
  numFiles : Nat

end Dimemas.PrvUtils

namespace Dimemas.PrvUtils.ExternalSort

open Dimemas.Library.Merging
open Dimemas.PrvUtils.ParaverRecords

/-! ## The files -/

def write (files : Files) (name : FileName) (rs : List SimpleParaverRecord) : Files :=
  Function.update files name (some ((files name).getD [] ++ rs.map SimpleParaverRecord.serialize))

def unlink (files : Files) (name : FileName) : Files := Function.update files name none

/-- `rename`, which fails for a file that does not exist. -/
def rename (files : Files) (name newName : FileName) : Option Files :=
  (files name).map fun lines =>
    Function.update (Function.update files name none) newName (some lines)

/-- The records of `Merge` for two files that are opened. -/
def mergeNames (size : Nat) (files : Files) (name₁ name₂ : FileName) :
    Option (List SimpleParaverRecord) := do
  let file₁ ← files name₁
  let file₂ ← files name₂
  mergeFiles size deserialize less file₁ file₂

def merge (size : Nat) (files : Files) (name₁ name₂ outName : FileName) : Option Files := do
  let rs ← mergeNames size files name₁ name₂
  pure (Function.update files outName (some (rs.map SimpleParaverRecord.serialize)))

/-! ## The records -/

def init (files : Files) : ExternalSort where
  files := Function.update (Function.update files .events (some [])) (.tmp 0) (some [])
  records := []
  numFiles := 0

variable (size : Nat) (stableSort : List SimpleParaverRecord → List SimpleParaverRecord)

def flushRecords (s : ExternalSort) : ExternalSort where
  files := Function.update (write s.files (.tmp s.numFiles) (stableSort s.records))
    (.tmp (s.numFiles + 1)) (some [])
  records := []
  numFiles := s.numFiles + 1

def newRecord (s : ExternalSort) (r : SimpleParaverRecord) : ExternalSort :=
  if r.type = prvEvent then { s with files := write s.files .events [r] }
  else
    let s := if s.records.length = size then s.flushRecords stableSort else s
    { s with records := s.records ++ [r] }

/-- Half a turn of the loop in `SortStatesAndComms`: the files of one family are merged into those
of the other. -/
def mergePass (src dst : Nat → FileName) (order : Nat → Nat) (numFiles : Nat) (files : Files) :
    Option Files := do
  let numPairs := numFiles / 2
  let files ← (List.range numPairs).foldlM (fun files k =>
    merge size files (src (order (2 * k))) (src (order (2 * k + 1))) (dst k)) files
  let files ← if 2 * numPairs < numFiles then rename files (src (order (2 * numPairs))) (dst numPairs)
    else some files
  pure ((List.range numFiles).foldl (fun files k => unlink files (src k)) files)

def mergeLast (family : Nat → FileName) (files : Files) : Option Files := do
  let files ← merge size files (family 0) (family 1) .statesAndComms
  pure (unlink (unlink files (family 0)) (family 1))

/-- The loop while there are more than two files. The second half of a turn starts with the last
file. -/
def mergePasses : Nat → Nat → Files → Option Files
  | 0, _, _ => none
  | fuel + 1, numFiles, files =>
      if 2 < numFiles then do
        let files ← mergePass size .tmp .tmpA id numFiles files
        let numFiles := numFiles / 2 + numFiles % 2
        if numFiles = 2 then mergeLast size .tmpA files
        else do
          let files ← mergePass size .tmpA .tmp (fun i => numFiles - 1 - i) numFiles files
          let numFiles := numFiles / 2 + numFiles % 2
          if numFiles = 2 then mergeLast size .tmp files else mergePasses fuel numFiles files
      else some files

/-- Each turn of the loop leaves less files. -/
def sortStatesAndComms (s : ExternalSort) : Option Files :=
  let s := if s.records.length ≠ 0 then s.flushRecords stableSort else s
  let files := unlink s.files (.tmp s.numFiles)
  if s.numFiles = 1 then rename files (.tmp 0) .statesAndComms
  else if s.numFiles = 2 then mergeLast size .tmp files
  else mergePasses size (s.numFiles + 1) s.numFiles files

def generateFinalTrace (s : ExternalSort) : Option (List (List Char)) := do
  let files ← s.sortStatesAndComms size stableSort
  let rs ← mergeNames size files .statesAndComms .events
  pure (rs.map SimpleParaverRecord.toTracefile)

section

variable {size : Nat} {files files' : Files} {runs : List (List SimpleParaverRecord)}
variable {src dst : Nat → FileName} {order : Nat → Nat}

def HasRun (files : Files) (name : FileName) (run : List SimpleParaverRecord) : Prop :=
  files name = some (run.map SimpleParaverRecord.serialize)

def HasRuns (files : Files) (family : Nat → FileName) (runs : List (List SimpleParaverRecord)) :
    Prop :=
  ∀ k run, runs[k]? = some run → HasRun files (family k) run

theorem hasRun_update (files : Files) (name : FileName) (run : List SimpleParaverRecord) :
    HasRun (Function.update files name (some (run.map SimpleParaverRecord.serialize))) name run :=
  Function.update_self ..

theorem update_of_ne {name name' : FileName} (hname : name' ≠ name)
    (lines : Option (List (List Char))) (files : Files) :
    Function.update files name lines name' = files name' :=
  Function.update_of_ne hname ..

theorem HasRun.frame {name : FileName} {run : List SimpleParaverRecord} (h : HasRun files name run)
    (hframe : files' name = files name) : HasRun files' name run :=
  hframe.trans h

theorem mergeNames_eq (hsize : 0 < size) {name₁ name₂ : FileName}
    {run₁ run₂ : List SimpleParaverRecord} (h₁ : HasRun files name₁ run₁)
    (h₂ : HasRun files name₂ run₂) :
    mergeNames size files name₁ name₂ = some (List.merge run₁ run₂ less) := by
  unfold mergeNames
  rw [h₁, h₂]
  exact mergeFiles_eq deserialize_serialize hsize run₁ run₂

theorem merge_eq (hsize : 0 < size) {name₁ name₂ : FileName} (outName : FileName)
    {run₁ run₂ : List SimpleParaverRecord} (h₁ : HasRun files name₁ run₁)
    (h₂ : HasRun files name₂ run₂) :
    merge size files name₁ name₂ outName = some (Function.update files outName
      (some ((List.merge run₁ run₂ less).map SimpleParaverRecord.serialize))) := by
  unfold merge
  rw [mergeNames_eq hsize h₁ h₂]
  rfl

theorem rename_eq {name : FileName} (newName : FileName) {run : List SimpleParaverRecord}
    (h : HasRun files name run) :
    rename files name newName = some (Function.update (Function.update files name none) newName
      (some (run.map SimpleParaverRecord.serialize))) := by
  unfold rename
  rw [h]
  rfl

structure Families (src dst : Nat → FileName) : Prop where
  disjoint : ∀ i j, src i ≠ dst j
  injective : Function.Injective dst

/-- The merges of a pass leave the files that they read as they are. -/
theorem mergePairs_spec (hsize : 0 < size) (hfamilies : Families src dst)
    (h : HasRuns files (fun i => src (order i)) runs) (m : Nat) (hm : 2 * m ≤ runs.length) :
    ∃ files', (List.range m).foldlM (fun files k =>
        merge size files (src (order (2 * k))) (src (order (2 * k + 1))) (dst k)) files =
        some files' ∧
      (∀ k < m, ∀ run, (pairUp less runs)[k]? = some run → HasRun files' (dst k) run) ∧
      ∀ name, (∀ k, name ≠ dst k) → files' name = files name := by
  induction m with
  | zero => exact ⟨files, rfl, by simp, fun _ _ => rfl⟩
  | succ m ih =>
      obtain ⟨files', hloop, hruns, hframe⟩ := ih (by omega)
      obtain ⟨run₁, run₂, hrun₁, hrun₂, hpair⟩ :=
        (@getElem?_pairUp SimpleParaverRecord less runs m).1 (by omega)
      have h₁ : HasRun files' (src (order (2 * m))) run₁ := by
        rw [HasRun, hframe _ (hfamilies.disjoint _)]
        exact h _ _ hrun₁
      have h₂ : HasRun files' (src (order (2 * m + 1))) run₂ := by
        rw [HasRun, hframe _ (hfamilies.disjoint _)]
        exact h _ _ hrun₂
      refine ⟨Function.update files' (dst m)
        (some ((List.merge run₁ run₂ less).map SimpleParaverRecord.serialize)), ?_, ?_, ?_⟩
      · rw [List.range_succ, List.foldlM_append, hloop]
        simp only [List.foldlM_cons, List.foldlM_nil, Option.bind_eq_bind, Option.bind_some,
          merge_eq hsize (dst m) h₁ h₂, Option.pure_def]
      · intro k hk run hrun
        by_cases heq : k = m
        · subst heq
          obtain rfl := Option.some.inj (hpair.symm.trans hrun)
          exact Function.update_self ..
        · rw [HasRun, Function.update_of_ne fun hdst => heq (hfamilies.injective hdst)]
          exact hruns k (by omega) run hrun
      · intro name hname
        rw [Function.update_of_ne (hname m)]
        exact hframe name hname

theorem unlinks_of_ne {name : FileName} (hname : ∀ k, name ≠ src k) (ks : List Nat)
    (files : Files) : ks.foldl (fun files k => unlink files (src k)) files name = files name := by
  induction ks generalizing files with
  | nil => rfl
  | cons k ks ih =>
      rw [List.foldl_cons, ih, unlink, Function.update_of_ne (hname k)]

/-- A pass loses no run, and writes none over another one. -/
theorem mergePass_spec (hsize : 0 < size) (hfamilies : Families src dst)
    (h : HasRuns files (fun i => src (order i)) runs) :
    ∃ files', mergePass size src dst order runs.length files = some files' ∧
      HasRuns files' dst (pairUp less runs) ∧
      ∀ name, (∀ k, name ≠ src k) → (∀ k, name ≠ dst k) → files' name = files name := by
  obtain ⟨pairs, hpairs, hruns, hframe⟩ :=
    mergePairs_spec hsize hfamilies h (runs.length / 2) (by omega)
  have hlength := @length_pairUp SimpleParaverRecord less runs
  by_cases hodd : 2 * (runs.length / 2) < runs.length
  · have hlast : 2 * (runs.length / 2) + 1 = runs.length := by omega
    obtain ⟨run, hrun⟩ : ∃ run, runs[2 * (runs.length / 2)]? = some run :=
      ⟨_, List.getElem?_eq_getElem hodd⟩
    have hfile : HasRun pairs (src (order (2 * (runs.length / 2)))) run := by
      rw [HasRun, hframe _ (hfamilies.disjoint _)]
      exact h _ _ hrun
    have hrename := rename_eq (dst (runs.length / 2)) hfile
    refine ⟨(List.range runs.length).foldl (fun files k => unlink files (src k))
      (Function.update (Function.update pairs (src (order (2 * (runs.length / 2)))) none)
        (dst (runs.length / 2)) (some (run.map SimpleParaverRecord.serialize))), ?_, ?_, ?_⟩
    · simp only [mergePass, hpairs, Option.bind_eq_bind, Option.bind_some, if_pos hodd, hrename]
      rfl
    · intro k run' hrun'
      rw [HasRun, unlinks_of_ne fun i => (hfamilies.disjoint i k).symm]
      by_cases heq : k = runs.length / 2
      · subst heq
        rw [(getElem?_pairUp runs _).2 hlast, hrun, Option.some.injEq] at hrun'
        rw [Function.update_self, hrun']
      · have hk : k < (pairUp less runs).length := (List.getElem?_eq_some_iff.mp hrun').1
        rw [Function.update_of_ne fun hdst => heq (hfamilies.injective hdst),
          Function.update_of_ne (hfamilies.disjoint _ _).symm]
        exact hruns k (by omega) run' hrun'
    · intro name hsrc hdst
      rw [unlinks_of_ne hsrc, Function.update_of_ne (hdst _), Function.update_of_ne (hsrc _)]
      exact hframe name hdst
  · refine ⟨(List.range runs.length).foldl (fun files k => unlink files (src k)) pairs,
      ?_, ?_, ?_⟩
    · simp only [mergePass, hpairs, Option.bind_eq_bind, Option.bind_some, if_neg hodd]
      rfl
    · intro k run hrun
      have hk : k < (pairUp less runs).length := (List.getElem?_eq_some_iff.mp hrun).1
      rw [HasRun, unlinks_of_ne fun i => (hfamilies.disjoint i k).symm]
      exact hruns k (by omega) run hrun
    · intro name hsrc hdst
      rw [unlinks_of_ne hsrc]
      exact hframe name hdst

theorem families_tmp : Families .tmp .tmpA :=
  ⟨fun _ _ => FileName.noConfusion, fun _ _ => FileName.tmpA.inj⟩

theorem families_tmpA : Families .tmpA .tmp :=
  ⟨fun _ _ => FileName.noConfusion, fun _ _ => FileName.tmp.inj⟩

/-- The runs hold some records, and each of them is in order. -/
structure Sorts (rs : List SimpleParaverRecord) (runs : List (List SimpleParaverRecord)) :
    Prop where
  perm : runs.flatten.Perm rs
  ordered : ∀ run ∈ runs, Ordered time run

theorem Sorts.pairUp {rs : List SimpleParaverRecord} (h : Sorts rs runs) :
    Sorts rs (pairUp less runs) where
  perm := (pairUp_perm runs).trans h.perm
  ordered := pairUp_ordered respects_less runs h.ordered

theorem Sorts.reverse {rs : List SimpleParaverRecord} (h : Sorts rs runs) :
    Sorts rs runs.reverse where
  perm := (List.reverse_perm runs).flatten.trans h.perm
  ordered run hrun := h.ordered run (List.mem_reverse.mp hrun)

/-- A sort ends with a run in its file, and leaves the events. -/
def EndsWith (files : Files) (result : Option Files) (run : List SimpleParaverRecord) : Prop :=
  ∃ files', result = some files' ∧ HasRun files' .statesAndComms run ∧ files' .events = files .events

theorem EndsWith.frame {result : Option Files} {run : List SimpleParaverRecord}
    (h : EndsWith files result run) (hframe : files .events = files' .events) :
    EndsWith files' result run := by
  obtain ⟨files₁, heq, hrun, hevents⟩ := h
  exact ⟨files₁, heq, hrun, hevents.trans hframe⟩

theorem mergeLast_spec (hsize : 0 < size) {family : Nat → FileName}
    (hstates : ∀ k, FileName.statesAndComms ≠ family k) (hevents : ∀ k, FileName.events ≠ family k)
    {run₁ run₂ : List SimpleParaverRecord} (h : HasRuns files family [run₁, run₂]) :
    EndsWith files (mergeLast size family files) (List.merge run₁ run₂ less) := by
  have hmerge := merge_eq hsize .statesAndComms (h 0 run₁ rfl) (h 1 run₂ rfl)
  refine ⟨unlink (unlink (Function.update files .statesAndComms
      (some ((List.merge run₁ run₂ less).map SimpleParaverRecord.serialize))) (family 0))
    (family 1), ?_, ?_, ?_⟩
  · simp only [mergeLast, hmerge, Option.bind_eq_bind, Option.bind_some]
    rfl
  · rw [HasRun, unlink, unlink, update_of_ne (hstates 1), update_of_ne (hstates 0)]
    exact hasRun_update ..
  · rw [unlink, unlink, update_of_ne (hevents 1), update_of_ne (hevents 0),
      update_of_ne (by decide)]

theorem Sorts.merge {rs run₁ run₂ : List SimpleParaverRecord} (h : Sorts rs [run₁, run₂]) :
    (List.merge run₁ run₂ less).Perm rs ∧ Ordered time (List.merge run₁ run₂ less) := by
  constructor
  · have hperm := h.perm
    rw [List.flatten_cons, List.flatten_cons, List.flatten_nil, List.append_nil] at hperm
    exact (List.merge_perm_append less).trans hperm
  · apply ordered_merge respects_less
    · exact h.ordered run₁ List.mem_cons_self
    · exact h.ordered run₂ (List.mem_cons_of_mem _ (List.mem_singleton_self run₂))

theorem HasRuns.reverse {family : Nat → FileName} (h : HasRuns files family runs) :
    HasRuns files (fun i => family (runs.length - 1 - i)) runs.reverse := by
  intro k run hrun
  have hk : k < runs.length := by
    have hk := (List.getElem?_eq_some_iff.mp hrun).1
    rwa [List.length_reverse] at hk
  apply h
  rwa [List.getElem?_reverse hk] at hrun

theorem mergePasses_spec (hsize : 0 < size) {rs : List SimpleParaverRecord} (fuel : Nat)
    (hfuel : runs.length ≤ fuel) (hlength : 2 < runs.length) (hsorts : Sorts rs runs) :
    ∃ run : List SimpleParaverRecord, run.Perm rs ∧ Ordered time run ∧
      ∀ files, HasRuns files .tmp runs →
        EndsWith files (mergePasses size fuel runs.length files) run := by
  induction fuel generalizing runs with
  | zero => omega
  | succ fuel ih =>
      have hlength₁ := @length_pairUp SimpleParaverRecord less runs
      have hfirst (files : Files) (h : HasRuns files .tmp runs) :=
        @mergePass_spec size files runs .tmp .tmpA id hsize families_tmp h
      by_cases htwo₁ : (pairUp less runs).length = 2
      · obtain ⟨run₁, run₂, heq⟩ := List.length_eq_two.mp htwo₁
        have hsorts₁ : Sorts rs [run₁, run₂] := heq ▸ hsorts.pairUp
        refine ⟨List.merge run₁ run₂ less, hsorts₁.merge.1, hsorts₁.merge.2, ?_⟩
        intro files h
        obtain ⟨files₁, hpass, hruns, hframe⟩ := hfirst files h
        simp only [mergePasses, if_pos hlength, hpass, Option.bind_eq_bind, Option.bind_some,
          ← hlength₁, if_pos htwo₁]
        apply (mergeLast_spec hsize (fun _ => FileName.noConfusion)
          (fun _ => FileName.noConfusion) (heq ▸ hruns)).frame
        exact hframe _ (fun _ => FileName.noConfusion) fun _ => FileName.noConfusion
      have hlength₂ := @length_pairUp SimpleParaverRecord less (pairUp less runs).reverse
      rw [List.length_reverse] at hlength₂
      have hsorts₂ := hsorts.pairUp.reverse.pairUp
      have hturn (files : Files) (h : HasRuns files .tmp runs) : ∃ files₂,
          HasRuns files₂ .tmp (pairUp less (pairUp less runs).reverse) ∧
          files₂ .events = files .events ∧
          mergePasses size (fuel + 1) runs.length files =
            if (pairUp less (pairUp less runs).reverse).length = 2 then mergeLast size .tmp files₂
            else mergePasses size fuel (pairUp less (pairUp less runs).reverse).length files₂ := by
        obtain ⟨files₁, hpass₁, hruns₁, hframe₁⟩ := hfirst files h
        obtain ⟨files₂, hpass₂, hruns₂, hframe₂⟩ :=
          @mergePass_spec size files₁ (pairUp less runs).reverse .tmpA .tmp
            (fun i => (pairUp less runs).length - 1 - i) hsize families_tmpA hruns₁.reverse
        rw [List.length_reverse] at hpass₂
        refine ⟨files₂, hruns₂, ?_, ?_⟩
        · calc files₂ .events
            _ = files₁ .events :=
              hframe₂ _ (fun _ => FileName.noConfusion) fun _ => FileName.noConfusion
            _ = files .events :=
              hframe₁ _ (fun _ => FileName.noConfusion) fun _ => FileName.noConfusion
        · simp only [mergePasses, if_pos hlength, hpass₁, Option.bind_eq_bind, Option.bind_some,
            ← hlength₁, if_neg htwo₁, hpass₂, ← hlength₂]
      by_cases htwo₂ : (pairUp less (pairUp less runs).reverse).length = 2
      · obtain ⟨run₁, run₂, heq⟩ := List.length_eq_two.mp htwo₂
        rw [heq] at hsorts₂
        refine ⟨List.merge run₁ run₂ less, hsorts₂.merge.1, hsorts₂.merge.2, ?_⟩
        intro files h
        obtain ⟨files₂, hruns₂, hframe, hpasses⟩ := hturn files h
        rw [hpasses, if_pos htwo₂]
        exact (mergeLast_spec hsize (fun _ => FileName.noConfusion)
          (fun _ => FileName.noConfusion) (heq ▸ hruns₂)).frame hframe
      · obtain ⟨run, hperm, hordered, hrun⟩ := ih (by omega) (by omega) hsorts₂
        refine ⟨run, hperm, hordered, ?_⟩
        intro files h
        obtain ⟨files₂, hruns₂, hframe, hpasses⟩ := hturn files h
        rw [hpasses, if_neg htwo₂]
        exact (hrun files₂ hruns₂).frame hframe

/-! ## The calls -/

structure StableSort (stableSort : List SimpleParaverRecord → List SimpleParaverRecord) : Prop where
  perm : ∀ rs, (stableSort rs).Perm rs
  ordered : ∀ rs, Ordered time (stableSort rs)

/-- The runs and the records in memory, without the files. -/
structure Runs where
  runs : List (List SimpleParaverRecord)
  records : List SimpleParaverRecord
  events : List SimpleParaverRecord

def Runs.flushRecords (stableSort : List SimpleParaverRecord → List SimpleParaverRecord)
    (a : Runs) : Runs where
  runs := a.runs ++ [stableSort a.records]
  records := []
  events := a.events

def Runs.newRecord (size : Nat)
    (stableSort : List SimpleParaverRecord → List SimpleParaverRecord) (a : Runs)
    (r : SimpleParaverRecord) : Runs :=
  if r.type = prvEvent then { a with events := a.events ++ [r] }
  else
    let a := if a.records.length = size then a.flushRecords stableSort else a
    { a with records := a.records ++ [r] }

def Runs.all (a : Runs) : List SimpleParaverRecord := a.runs.flatten ++ a.records

/-- Each run is in its file, and the next file is empty. -/
structure Represents (s : ExternalSort) (a : Runs) : Prop where
  length : a.runs.length = s.numFiles
  records : a.records = s.records
  files : HasRuns s.files .tmp a.runs
  current : HasRun s.files (.tmp s.numFiles) []
  events : HasRun s.files .events a.events

variable {stableSort : List SimpleParaverRecord → List SimpleParaverRecord}
variable {s : ExternalSort} {a : Runs}

theorem represents_init (files : Files) : Represents (init files) ⟨[], [], []⟩ where
  length := rfl
  records := rfl
  files := fun k run hrun => by simp at hrun
  current := hasRun_update _ _ []
  events := by
    have hne : FileName.events ≠ .tmp 0 := FileName.noConfusion
    exact (hasRun_update files .events []).frame
      (update_of_ne hne (some []) (Function.update files .events (some [])))

theorem flushRecords_files {name : FileName} (hname : name ≠ .tmp (s.numFiles + 1)) :
    (s.flushRecords stableSort).files name =
      write s.files (.tmp s.numFiles) (stableSort s.records) name :=
  Function.update_of_ne hname _ _

theorem write_of_ne {name name' : FileName} (hname : name' ≠ name) (rs : List SimpleParaverRecord) :
    write files name rs name' = files name' :=
  Function.update_of_ne hname _ _

theorem HasRun.write {name : FileName} {run : List SimpleParaverRecord} (h : HasRun files name run)
    (rs : List SimpleParaverRecord) : HasRun (write files name rs) name (run ++ rs) := by
  rw [HasRun, ExternalSort.write, Function.update_self, h, Option.getD_some, List.map_append]

theorem Represents.flushRecords (h : Represents s a) :
    Represents (s.flushRecords stableSort) (a.flushRecords stableSort) := by
  have hother (name : FileName) (h₁ : name ≠ .tmp s.numFiles) (h₂ : name ≠ .tmp (s.numFiles + 1)) :
      (s.flushRecords stableSort).files name = s.files name := by
    rw [flushRecords_files h₂, write_of_ne h₁]
  have hlength := h.length
  constructor
  case length => rw [Runs.flushRecords, List.length_append, h.length]; rfl
  case records => rfl
  case files =>
    intro k run hrun
    rw [Runs.flushRecords] at hrun
    by_cases hk : k < a.runs.length
    · rw [List.getElem?_append_left hk] at hrun
      apply (h.files k run hrun).frame
      apply hother
      · intro heq
        have := FileName.tmp.inj heq
        omega
      · intro heq
        have := FileName.tmp.inj heq
        omega
    · have hlast : k = s.numFiles := by
        have hlt := (List.getElem?_eq_some_iff.mp hrun).1
        rw [List.length_append, List.length_singleton] at hlt
        omega
      subst hlast
      have hnext : FileName.tmp s.numFiles ≠ .tmp (s.numFiles + 1) :=
        fun heq => by simpa using FileName.tmp.inj heq
      rw [← h.length, List.getElem?_concat_length, Option.some.injEq] at hrun
      subst hrun
      rw [HasRun, flushRecords_files hnext, h.records]
      exact h.current.write _
  case current => exact hasRun_update _ _ []
  case events =>
    apply h.events.frame
    exact hother _ FileName.noConfusion FileName.noConfusion

theorem Represents.newRecord (h : Represents s a) (r : SimpleParaverRecord) :
    Represents (s.newRecord size stableSort r) (a.newRecord size stableSort r) := by
  unfold ExternalSort.newRecord Runs.newRecord
  by_cases htype : r.type = prvEvent
  · simp only [if_pos htype]
    have hother (name : FileName) (hname : name ≠ .events) :
        ExternalSort.write s.files .events [r] name = s.files name := write_of_ne hname [r]
    refine ⟨h.length, h.records, ?_, ?_, h.events.write [r]⟩
    · intro k run hrun
      exact (h.files k run hrun).frame (hother (.tmp k) FileName.noConfusion)
    · exact h.current.frame (hother (.tmp s.numFiles) FileName.noConfusion)
  · simp only [if_neg htype]
    have hadd {s : ExternalSort} {a : Runs} (h : Represents s a) :
        Represents { s with records := s.records ++ [r] } { a with records := a.records ++ [r] } := by
      refine ⟨h.length, ?_, h.files, h.current, h.events⟩
      rw [h.records]
    rw [h.records]
    split
    · exact hadd h.flushRecords
    · exact hadd h

theorem Represents.newRecords (h : Represents s a) (rs : List SimpleParaverRecord) :
    Represents (rs.foldl (ExternalSort.newRecord size stableSort) s)
      (rs.foldl (Runs.newRecord size stableSort) a) := by
  induction rs generalizing s a with
  | nil => exact h
  | cons r rs ih => exact ih (h.newRecord r)

/-- Every state and communication of a list is in the runs or in memory, and its events are kept in
their order. -/
structure Runs.Keeps (a : Runs) (rs : List SimpleParaverRecord) : Prop where
  perm : a.all.Perm (rs.filter (·.type ≠ prvEvent))
  ordered : ∀ run ∈ a.runs, Ordered time run
  events : a.events = rs.filter (·.type = prvEvent)

theorem Runs.Keeps.flushRecords {rs : List SimpleParaverRecord} (hsort : StableSort stableSort)
    (h : a.Keeps rs) : (a.flushRecords stableSort).Keeps rs where
  perm := by
    have hperm : (a.runs.flatten ++ stableSort a.records).Perm (a.runs.flatten ++ a.records) :=
      (hsort.perm _).append_left _
    simpa [Runs.all, Runs.flushRecords] using hperm.trans h.perm
  ordered := by
    intro run hrun
    rcases List.mem_append.mp hrun with hrun | hrun
    · exact h.ordered run hrun
    · rw [List.mem_singleton.mp hrun]
      exact hsort.ordered _
  events := h.events

theorem Runs.Keeps.newRecord {rs : List SimpleParaverRecord} (hsort : StableSort stableSort)
    (h : a.Keeps rs) (r : SimpleParaverRecord) :
    (a.newRecord size stableSort r).Keeps (rs ++ [r]) := by
  unfold Runs.newRecord
  by_cases htype : r.type = prvEvent
  · simp only [if_pos htype]
    refine ⟨?_, h.ordered, ?_⟩
    · simpa [Runs.all, htype] using h.perm
    · simpa [htype] using h.events
  · simp only [if_neg htype]
    have hadd {a : Runs} (h : a.Keeps rs) :
        Runs.Keeps { a with records := a.records ++ [r] } (rs ++ [r]) := by
      refine ⟨?_, h.ordered, ?_⟩
      · have hperm := h.perm.append_right [r]
        rw [Runs.all, List.append_assoc] at hperm
        simpa [Runs.all, htype] using hperm
      · simpa [htype] using h.events
    split
    · exact hadd (h.flushRecords hsort)
    · exact hadd h

theorem Runs.Keeps.newRecords {rs : List SimpleParaverRecord} (hsort : StableSort stableSort)
    (h : a.Keeps rs) (rs' : List SimpleParaverRecord) :
    (rs'.foldl (Runs.newRecord size stableSort) a).Keeps (rs ++ rs') := by
  induction rs' generalizing a rs with
  | nil => simpa using h
  | cons r rs' ih => simpa using ih (h.newRecord hsort r)

theorem keeps_nil : Runs.Keeps ⟨[], [], []⟩ [] :=
  ⟨.refl _, fun run hrun => by simp at hrun, rfl⟩

/-- The result of `SortStatesAndComms` when there is no record in memory. -/
theorem exists_sortRuns (hsize : 0 < size) {rs : List SimpleParaverRecord}
    (hsorts : Sorts rs runs) (hne : runs ≠ []) :
    ∃ run : List SimpleParaverRecord, run.Perm rs ∧ Ordered time run ∧
      ∀ files, HasRuns files .tmp runs → EndsWith files
        (if runs.length = 1 then rename files (.tmp 0) .statesAndComms
        else if runs.length = 2 then mergeLast size .tmp files
        else mergePasses size (runs.length + 1) runs.length files) run := by
  have hpos := List.length_pos_iff.mpr hne
  by_cases hone : runs.length = 1
  · obtain ⟨run, rfl⟩ := List.length_eq_one_iff.mp hone
    have hperm := hsorts.perm
    rw [List.flatten_singleton] at hperm
    refine ⟨run, hperm, hsorts.ordered run (List.mem_singleton_self run), ?_⟩
    intro files h
    rw [if_pos hone, rename_eq _ (h 0 run rfl)]
    refine ⟨_, rfl, hasRun_update .., ?_⟩
    rw [update_of_ne FileName.noConfusion, update_of_ne FileName.noConfusion]
  simp only [if_neg hone]
  by_cases htwo : runs.length = 2
  · obtain ⟨run₁, run₂, rfl⟩ := List.length_eq_two.mp htwo
    refine ⟨List.merge run₁ run₂ less, hsorts.merge.1, hsorts.merge.2, ?_⟩
    intro files h
    rw [if_pos htwo]
    exact mergeLast_spec hsize (fun _ => FileName.noConfusion) (fun _ => FileName.noConfusion) h
  · simp only [if_neg htwo]
    exact mergePasses_spec hsize _ (Nat.le_succ _) (by omega) hsorts

theorem exists_generateFinalTrace (hsize : 0 < size) (hsort : StableSort stableSort)
    {rs : List SimpleParaverRecord} (h : a.Keeps rs) (hstate : ∃ r ∈ rs, r.type ≠ prvEvent) :
    ∃ run : List SimpleParaverRecord,
      run.Perm (rs.filter (·.type ≠ prvEvent)) ∧ Ordered time run ∧
      ∀ s, Represents s a → s.generateFinalTrace size stableSort =
        some ((List.merge run (rs.filter (·.type = prvEvent)) less).map
          SimpleParaverRecord.toTracefile) := by
  -- The memory is empty when the files are merged.
  obtain ⟨a', h', hrecords, hflush⟩ : ∃ a' : Runs, a'.Keeps rs ∧ a'.records = [] ∧
      ∀ s, Represents s a → Represents
        (if s.records.length ≠ 0 then s.flushRecords stableSort else s) a' := by
    by_cases hrecords : a.records.length ≠ 0
    · refine ⟨a.flushRecords stableSort, h.flushRecords hsort, rfl, ?_⟩
      intro s hs
      rw [if_pos (hs.records ▸ hrecords)]
      exact hs.flushRecords
    · refine ⟨a, h, List.length_eq_zero_iff.mp (not_not.mp hrecords), ?_⟩
      intro s hs
      rw [if_neg (hs.records ▸ hrecords)]
      exact hs
  have hperm := h'.perm
  rw [Runs.all, hrecords, List.append_nil] at hperm
  have hne : a'.runs ≠ [] := by
    intro hnil
    obtain ⟨r, hr, htype⟩ := hstate
    rw [hnil] at hperm
    have hmem := hperm.mem_iff.mpr (List.mem_filter.mpr ⟨hr, by simpa using htype⟩)
    simp at hmem
  obtain ⟨run, hrun, hordered, hends⟩ := exists_sortRuns hsize ⟨hperm, h'.ordered⟩ hne
  refine ⟨run, hrun, hordered, ?_⟩
  intro s hs
  have hs' := hflush s hs
  unfold ExternalSort.generateFinalTrace ExternalSort.sortStatesAndComms
  generalize (if s.records.length ≠ 0 then s.flushRecords stableSort else s) = s' at hs' ⊢
  have hother (name : FileName) (hname : name ≠ .tmp s'.numFiles) :
      unlink s'.files (.tmp s'.numFiles) name = s'.files name := update_of_ne hname ..
  have hfiles : HasRuns (unlink s'.files (.tmp s'.numFiles)) .tmp a'.runs := by
    intro k run hrun
    apply (hs'.files k run hrun).frame
    apply hother
    intro heq
    have hk := (List.getElem?_eq_some_iff.mp hrun).1
    rw [hs'.length, FileName.tmp.inj heq] at hk
    exact lt_irrefl _ hk
  obtain ⟨files', heq, hstates, hevents⟩ := hends _ hfiles
  have hfile : HasRun files' .events (rs.filter (·.type = prvEvent)) := by
    rw [← h'.events]
    apply hs'.events.frame
    exact hevents.trans (hother _ FileName.noConfusion)
  rw [hs'.length] at heq
  simp only [heq, Option.bind_eq_bind, Option.bind_some, mergeNames_eq hsize hstates hfile]
  rfl

theorem Runs.Keeps.exists_trace (hsize : 0 < size) (hsort : StableSort stableSort)
    {rs : List SimpleParaverRecord} (h : a.Keeps rs) (hs : Represents s a)
    (hstate : ∃ r ∈ rs, r.type ≠ prvEvent)
    (hevents : Ordered time (rs.filter (·.type = prvEvent))) :
    ∃ body : List SimpleParaverRecord, s.generateFinalTrace size stableSort =
      some (body.map SimpleParaverRecord.toTracefile) ∧ body.Perm rs ∧ Ordered time body := by
  obtain ⟨run, hperm, hordered, htrace⟩ := exists_generateFinalTrace hsize hsort h hstate
  refine ⟨List.merge run (rs.filter (·.type = prvEvent)) less, htrace s hs, ?_, ?_⟩
  · calc List.Perm (List.merge run (rs.filter (·.type = prvEvent)) less)
          (run ++ rs.filter (·.type = prvEvent)) := List.merge_perm_append less
      List.Perm _ (rs.filter (·.type ≠ prvEvent) ++ rs.filter (·.type = prvEvent)) :=
        hperm.append_right _
      List.Perm _ rs := by
        have hsplit := List.filter_append_perm (fun r => decide (r.type = prvEvent)) rs
        simp only [← decide_not] at hsplit
        exact List.perm_append_comm.trans hsplit
  · exact ordered_merge respects_less hordered hevents

theorem keeps_newRecords (hsort : StableSort stableSort) (rs : List SimpleParaverRecord) :
    (rs.foldl (Runs.newRecord size stableSort) ⟨[], [], []⟩).Keeps rs := by
  have hkeeps := @Runs.Keeps.newRecords size stableSort _ _ hsort keeps_nil rs
  rwa [List.nil_append] at hkeeps

/-- Every record is written exactly once, and in the order of the times. -/
theorem generateFinalTrace_newRecords (hsize : 0 < size) (hsort : StableSort stableSort)
    (files : Files) (rs : List SimpleParaverRecord) (hstate : ∃ r ∈ rs, r.type ≠ prvEvent)
    (hevents : Ordered time (rs.filter (·.type = prvEvent))) :
    ∃ body : List SimpleParaverRecord,
      (rs.foldl (ExternalSort.newRecord size stableSort) (init files)).generateFinalTrace size
        stableSort = some (body.map SimpleParaverRecord.toTracefile) ∧
      body.Perm rs ∧ Ordered time body :=
  (keeps_newRecords hsort rs).exists_trace hsize hsort ((represents_init files).newRecords rs)
    hstate hevents

theorem stableSort_mergeSort : StableSort fun rs => rs.mergeSort fun a b => time a ≤ time b where
  perm rs := List.mergeSort_perm rs _
  ordered rs := by
    have hpairwise := @List.pairwise_mergeSort _ (fun a b => decide (time a ≤ time b))
      (by simpa using fun a b c => Nat.le_trans) (by simpa using fun a b => Nat.le_total _ _) rs
    exact hpairwise.imp fun h => by simpa using h

/-- With room for one record the states and communications are in five files, which take two passes
and a last merge. -/
theorem generateFinalTrace_passes :
    let word : Word := ⟨['1'], List.cons_ne_nil _ _, fun _ hc => by
      rw [List.mem_singleton.mp hc]
      rfl⟩
    let rs : List SimpleParaverRecord :=
      [⟨prvState, 0, 0, 0, 0, 9, word⟩, ⟨prvComm, 0, 0, 0, 0, 3, word⟩,
        ⟨prvEvent, 0, 0, 0, 0, 4, word⟩, ⟨prvState, 0, 0, 0, 0, 7, word⟩,
        ⟨prvComm, 0, 0, 0, 0, 1, word⟩, ⟨prvEvent, 0, 0, 0, 0, 8, word⟩,
        ⟨prvState, 0, 0, 0, 0, 5, word⟩]
    let stableSort : List SimpleParaverRecord → List SimpleParaverRecord :=
      fun rs => rs.mergeSort fun a b => time a ≤ time b
    let s := rs.foldl (ExternalSort.newRecord 1 stableSort) (init fun _ => none)
    (s.numFiles = 4 ∧ s.records.length = 1) ∧
      ∃ body : List SimpleParaverRecord,
        s.generateFinalTrace 1 stableSort = some (body.map SimpleParaverRecord.toTracefile) ∧
          body.Perm rs ∧ Ordered time body := by
  intro word rs stableSort s
  refine ⟨⟨rfl, rfl⟩, ?_⟩
  have hevents : rs.filter (fun r => r.type = prvEvent) =
      [⟨prvEvent, 0, 0, 0, 0, 4, word⟩, ⟨prvEvent, 0, 0, 0, 0, 8, word⟩] := rfl
  apply generateFinalTrace_newRecords (by decide) stableSort_mergeSort
  · exact ⟨_, List.mem_cons_self, by decide⟩
  · rw [hevents]
    exact List.pairwise_pair.mpr (by decide)

end

end Dimemas.PrvUtils.ExternalSort
