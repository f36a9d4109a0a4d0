import Dimemas.Library.Marks
import Dimemas.Prv2dim.TaskTranslation
/-!
# The blocks of the translated trace

The events of a task or accelerator thread open and close blocks of five kinds, each with a stack of
its own. A cluster block that begins inside an MPI block is written behind it.
-/

namespace Dimemas.Prv2dim.BlockBalance

open Dimemas.Library.Marks Dimemas.Prv2dim.TaskTranslation

/-! ## The translation -/

inductive AcceleratorThread
  | null | host | kernel
deriving DecidableEq

def cudaThreadSynchronizeVal : Int := 4

def cudaStreamSynchronizeVal : Int := 5

def oclFinishVal : Int := 25

/-- What a thread with accelerator blocks has in addition. GPU bursts and the records of
communications and synchronizations are left out. -/
structure AcceleratorInfo extends TaskTranslationInfo where
  cudaBlockIdStack : List Block
  oclBlockIdStack : List Block

namespace AcceleratorInfo

def initial (threadId initialTime : Nat) (generateFirstIdle emptyTask : Bool) :
    AcceleratorInfo where
  toTaskTranslationInfo :=
    TaskTranslationInfo.initial threadId initialTime generateFirstIdle emptyTask
  cudaBlockIdStack := []
  oclBlockIdStack := []

def write (s : AcceleratorInfo) (record : Written) : AcceleratorInfo :=
  { s with toTaskTranslationInfo := s.toTaskTranslationInfo.write record }

def setLastBlockEnd (timestamp : Nat) (s : AcceleratorInfo) : AcceleratorInfo :=
  { s with toTaskTranslationInfo := s.toTaskTranslationInfo.setLastBlockEnd timestamp }

def generateBurst (timeFactor : ℚ) (timestamp : Nat) (s : AcceleratorInfo) : AcceleratorInfo :=
  { s with toTaskTranslationInfo := s.toTaskTranslationInfo.generateBurst timeFactor timestamp }

/-- An event that is no block. It breaks a burst outside of MPI, CUDA and OpenCL blocks. -/
def genericEvent (timeFactor : ℚ) (s : AcceleratorInfo) (e : Event) : AcceleratorInfo :=
  if isMPIBlock e.type || isUserBlock e.type || isClusterBlock e.type || isCUDABlock e.type ||
      isOCLBlock e.type then s
  else
    let s :=
      if (s.lastBlockEnd ≠ e.timestamp ∨ s.lastBlockEnd = 0 ∧ e.timestamp = 0) ∧
          s.mpiBlockIdStack = [] ∧ s.cudaBlockIdStack = [] ∧ s.oclBlockIdStack = [] ∧
          e.type ≠ flushingEv ∧ e.type ≠ probeSoftCounter ∧ e.type ≠ probeTimeCounter then
        (s.generateBurst timeFactor e.timestamp).setLastBlockEnd e.timestamp
      else s
    s.write (.userEvent e.type e.value)

/-- The burst in front of an accelerator block. Device threads have none. -/
def hostBurst (timeFactor : ℚ) (thread : AcceleratorThread) (timestamp : Nat)
    (s : AcceleratorInfo) : AcceleratorInfo :=
  if s.lastBlockEnd < timestamp ∧ thread = .host then s.generateBurst timeFactor timestamp else s

/-- The idle block of a device thread in front of a block. It ends with a block begin of value zero,
which is written as a block end is. -/
def idleBlock (s : AcceleratorInfo) : AcceleratorInfo :=
  (s.write (.blockBegin 0 1)).write (.blockEnd 0)

def pushCUDA (s : AcceleratorInfo) (block : Block) : AcceleratorInfo :=
  { s with cudaBlockIdStack := block :: s.cudaBlockIdStack }

def popCUDA (s : AcceleratorInfo) : AcceleratorInfo :=
  { s with cudaBlockIdStack := s.cudaBlockIdStack.tail }

def pushOCL (s : AcceleratorInfo) (block : Block) : AcceleratorInfo :=
  { s with oclBlockIdStack := block :: s.oclBlockIdStack }

def popOCL (s : AcceleratorInfo) : AcceleratorInfo :=
  { s with oclBlockIdStack := s.oclBlockIdStack.tail }

/-- The end of a block is written also when there is none on the stack: that is only warned of. -/
def cudaBlock (timeFactor : ℚ) (thread : AcceleratorThread) (s : AcceleratorInfo) (e : Event) :
    AcceleratorInfo :=
  if isCUDABlock e.type ∧ thread ≠ .null then
    if isBlockBegin e.value then
      let s := s.hostBurst timeFactor thread e.timestamp
      let s :=
        if thread = .kernel ∧ e.value ≠ cudaThreadSynchronizeVal ∧
            e.value ≠ cudaStreamSynchronizeVal then
          s.idleBlock
        else s
      let s := (s.write (.blockBegin e.type e.value)).pushCUDA (e.type, e.value)
      s.setLastBlockEnd e.timestamp
    else (s.popCUDA.write (.blockEnd e.type)).setLastBlockEnd e.timestamp
  else s

def oclBlock (timeFactor : ℚ) (thread : AcceleratorThread) (s : AcceleratorInfo) (e : Event) :
    AcceleratorInfo :=
  if isOCLBlock e.type ∧ thread ≠ .null then
    if isBlockBegin e.value then
      let s := s.hostBurst timeFactor thread e.timestamp
      let s := if thread = .kernel ∧ e.value ≠ oclFinishVal then s.idleBlock else s
      let s := (s.write (.blockBegin e.type e.value)).pushOCL (e.type, e.value)
      s.setLastBlockEnd e.timestamp
    else (s.popOCL.write (.blockEnd e.type)).setLastBlockEnd e.timestamp
  else s

def toDimemas (timeFactor : ℚ) (thread : AcceleratorThread) (s : AcceleratorInfo) (e : Event) :
    Option AcceleratorInfo :=
  if isPseudoLogicRecv e.type then some s
  else
    let counted := (s.toTaskTranslationInfo.checkIprobeCounters timeFactor e).checkTestCounters
      timeFactor e
    let s := { s with toTaskTranslationInfo := counted }
    let s := s.genericEvent timeFactor e
    let s := s.cudaBlock timeFactor thread e
    let s := s.oclBlock timeFactor thread e
    ((s.toTaskTranslationInfo.clusterBlock timeFactor e).mpiBlock timeFactor e).map fun info =>
      { s with toTaskTranslationInfo := info.userBlock timeFactor e }

def run (timeFactor : ℚ) (thread : AcceleratorThread) :
    AcceleratorInfo → List Event → Option AcceleratorInfo
  | s, [] => some s
  | s, e :: es => (s.toDimemas timeFactor thread e).bind (run timeFactor thread · es)

end AcceleratorInfo

/-! ## Blocks and their stacks -/

inductive Kind
  | mpi | user | cluster | cuda | ocl
deriving DecidableEq

def kindOf (type : Int) : Option Kind :=
  if isMPIBlock type then some .mpi
  else if isUserBlock type then some .user
  else if isClusterBlock type then some .cluster
  else if isCUDABlock type then some .cuda
  else if isOCLBlock type then some .ocl
  else none

def Kind.isAccelerator : Kind → Bool
  | .cuda | .ocl => true
  | _ => false

def markOf : Written → Option (Mark Int)
  | .blockBegin type _ => some (.opened type)
  | .blockEnd type => some (.closed type)
  | _ => none

def eventMark (e : Event) : Option (Mark Int) :=
  (kindOf e.type).map fun _ => if isBlockBegin e.value then .opened e.type else .closed e.type

structure Blocks where
  stack : Kind → List Block
  held : Bool
  marks : List (Mark Int)

def blocks (s : AcceleratorInfo) : Blocks where
  stack
    | .mpi => s.mpiBlockIdStack
    | .user => s.userBlockIdStack
    | .cluster => s.clusterBlockIdStack
    | .cuda => s.cudaBlockIdStack
    | .ocl => s.oclBlockIdStack
  held := s.flushClusterStack
  marks := s.written.filterMap markOf

namespace Blocks

def push (b : Blocks) (kind : Kind) (block : Block) : Blocks :=
  { b with stack := Function.update b.stack kind (block :: b.stack kind) }

def pop (b : Blocks) (kind : Kind) : Blocks :=
  { b with stack := Function.update b.stack kind (b.stack kind).tail }

def mark (b : Blocks) (m : Mark Int) : Blocks := { b with marks := b.marks ++ [m] }

/-- Whether a device thread is idle in front of a block. -/
def idle (thread : AcceleratorThread) (kind : Kind) (value : Int) : Bool :=
  thread = .kernel ∧
    (kind = .cuda ∧ value ≠ cudaThreadSynchronizeVal ∧ value ≠ cudaStreamSynchronizeVal ∨
      kind = .ocl ∧ value ≠ oclFinishVal)

def openBlock (thread : AcceleratorThread) (b : Blocks) (kind : Kind) (e : Event) : Blocks :=
  if kind = .cluster then
    if b.stack .mpi = [] then
      { (b.mark (.opened e.type)).push kind (e.type, e.value) with held := false }
    else { b.push kind (e.type, e.value) with held := true }
  else
    let b := if idle thread kind e.value then (b.mark (.opened 0)).mark (.closed 0) else b
    (b.mark (.opened e.type)).push kind (e.type, e.value)

/-- The cluster block that was held back is written. -/
def release (b : Blocks) : Option Blocks :=
  if b.held then
    match b.stack .cluster with
    | [] => none
    | (type, _) :: _ => some { b.mark (.opened type) with held := false }
  else some b

def closeBlock (b : Blocks) (kind : Kind) (e : Event) : Blocks :=
  if b.stack kind = [] ∧ kind.isAccelerator = false then b else (b.mark (.closed e.type)).pop kind

def turn (thread : AcceleratorThread) (b : Blocks) (kind : Kind) (e : Event) : Blocks :=
  if isBlockBegin e.value then b.openBlock thread kind e else b.closeBlock kind e

def step (thread : AcceleratorThread) (b : Blocks) (e : Event) : Option Blocks :=
  match kindOf e.type with
  | none => some b
  | some kind =>
      if kind.isAccelerator ∧ thread = .null then some b
      else if kind = .mpi ∧ e.value = 0 ∧ b.stack .mpi ≠ [] then (b.turn thread kind e).release
      else some (b.turn thread kind e)

theorem closeBlock_of_nil {b : Blocks} {kind : Kind} (h : b.stack kind = [])
    (hkind : kind.isAccelerator = false) (e : Event) : b.closeBlock kind e = b :=
  if_pos ⟨h, hkind⟩

theorem closeBlock_of_ne {b : Blocks} {kind : Kind} (h : b.stack kind ≠ []) (e : Event) :
    b.closeBlock kind e = (b.mark (.closed e.type)).pop kind :=
  if_neg fun hnil => h hnil.1

/-- Blocks of the host are not held back, and no device thread is idle in front of them. -/
theorem openBlock_host (thread : AcceleratorThread) (b : Blocks) {kind : Kind}
    (hkind : kind = .mpi ∨ kind = .user) (e : Event) :
    b.openBlock thread kind e = (b.mark (.opened e.type)).push kind (e.type, e.value) := by
  unfold openBlock idle
  rcases hkind with hmpi | huser
  · simp [hmpi]
  · simp [huser]

end Blocks

/-! ## The events change the blocks so -/

theorem blocks_generateBurst (timeFactor : ℚ) (timestamp : Nat) (s : AcceleratorInfo) :
    blocks (s.generateBurst timeFactor timestamp) = blocks s := by
  simp [blocks, AcceleratorInfo.generateBurst, TaskTranslationInfo.generateBurst,
    TaskTranslationInfo.write, markOf]

theorem blocks_setLastBlockEnd (timestamp : Nat) (s : AcceleratorInfo) :
    blocks (s.setLastBlockEnd timestamp) = blocks s := rfl

theorem blocks_write (s : AcceleratorInfo) (record : Written) :
    blocks (s.write record) =
      { blocks s with marks := (blocks s).marks ++ (markOf record).toList } := by
  unfold blocks AcceleratorInfo.write TaskTranslationInfo.write
  rw [List.filterMap_append]
  cases record <;> rfl

/-- The counters of `MPI_Iprobe` and `MPI_Test` are about bursts. -/
theorem blocks_checkCounters (timeFactor : ℚ) (s : AcceleratorInfo) (e : Event) :
    blocks { s with
      toTaskTranslationInfo :=
        (s.toTaskTranslationInfo.checkIprobeCounters timeFactor e).checkTestCounters timeFactor e } =
      blocks s := by
  have hiprobe (t : AcceleratorInfo) : blocks { t with
      toTaskTranslationInfo := t.toTaskTranslationInfo.checkIprobeCounters timeFactor e } =
        blocks t := by
    simp only [TaskTranslationInfo.checkIprobeCounters]
    split_ifs <;> simp [blocks, TaskTranslationInfo.generateBurst,
      TaskTranslationInfo.setLastBlockEnd, TaskTranslationInfo.write, markOf]
  have htest (t : AcceleratorInfo) : blocks { t with
      toTaskTranslationInfo := t.toTaskTranslationInfo.checkTestCounters timeFactor e } =
        blocks t := by
    simp only [TaskTranslationInfo.checkTestCounters]
    split_ifs <;> simp [blocks, TaskTranslationInfo.generateBurst,
      TaskTranslationInfo.setLastBlockEnd, TaskTranslationInfo.write, markOf]
  exact (htest { s with
    toTaskTranslationInfo := s.toTaskTranslationInfo.checkIprobeCounters timeFactor e }).trans
    (hiprobe s)

theorem blocks_genericEvent (timeFactor : ℚ) (s : AcceleratorInfo) (e : Event) :
    blocks (s.genericEvent timeFactor e) = blocks s := by
  simp only [AcceleratorInfo.genericEvent]
  split_ifs
  · rfl
  · rw [blocks_write, blocks_setLastBlockEnd, blocks_generateBurst]
    simp [markOf]
  · rw [blocks_write]
    simp [markOf]

theorem blocks_hostBurst (timeFactor : ℚ) (thread : AcceleratorThread) (timestamp : Nat)
    (s : AcceleratorInfo) : blocks (s.hostBurst timeFactor thread timestamp) = blocks s := by
  unfold AcceleratorInfo.hostBurst
  split
  · exact blocks_generateBurst timeFactor timestamp s
  · rfl

theorem blocks_idleBlock (s : AcceleratorInfo) :
    blocks s.idleBlock = ((blocks s).mark (.opened 0)).mark (.closed 0) := by
  unfold AcceleratorInfo.idleBlock
  rw [blocks_write, blocks_write]
  rfl

theorem Blocks.ext_stack {b b' : Blocks} (hstack : ∀ kind, b.stack kind = b'.stack kind)
    (hheld : b.held = b'.held) (hmarks : b.marks = b'.marks) : b = b' := by
  cases b
  cases b'
  rw [Blocks.mk.injEq]
  exact ⟨funext hstack, hheld, hmarks⟩

theorem blocks_pushCUDA (s : AcceleratorInfo) (block : Block) :
    blocks (s.pushCUDA block) = (blocks s).push .cuda block := by
  apply Blocks.ext_stack
  · intro kind
    cases kind <;> rfl
  · rfl
  · rfl

theorem blocks_popCUDA (s : AcceleratorInfo) : blocks s.popCUDA = (blocks s).pop .cuda := by
  apply Blocks.ext_stack
  · intro kind
    cases kind <;> rfl
  · rfl
  · rfl

theorem blocks_pushOCL (s : AcceleratorInfo) (block : Block) :
    blocks (s.pushOCL block) = (blocks s).push .ocl block := by
  apply Blocks.ext_stack
  · intro kind
    cases kind <;> rfl
  · rfl
  · rfl

theorem blocks_popOCL (s : AcceleratorInfo) : blocks s.popOCL = (blocks s).pop .ocl := by
  apply Blocks.ext_stack
  · intro kind
    cases kind <;> rfl
  · rfl
  · rfl

theorem blocks_idle (s : AcceleratorInfo) {idle : Prop} [Decidable idle] :
    blocks (if idle then s.idleBlock else s) =
      if idle then ((blocks s).mark (.opened 0)).mark (.closed 0) else blocks s := by
  split
  · exact blocks_idleBlock s
  · rfl

theorem blocks_begin (s : AcceleratorInfo) (e : Event) :
    blocks (s.write (.blockBegin e.type e.value)) = (blocks s).mark (.opened e.type) :=
  blocks_write s _

theorem blocks_end (s : AcceleratorInfo) (type : Int) :
    blocks (s.write (.blockEnd type)) = (blocks s).mark (.closed type) :=
  blocks_write s _

theorem blocks_cudaBlock (timeFactor : ℚ) (thread : AcceleratorThread) (s : AcceleratorInfo)
    (e : Event) :
    blocks (s.cudaBlock timeFactor thread e) =
      if isCUDABlock e.type ∧ thread ≠ .null then (blocks s).turn thread .cuda e
      else blocks s := by
  simp only [AcceleratorInfo.cudaBlock, Blocks.turn]
  split
  · split
    · rw [blocks_setLastBlockEnd, blocks_pushCUDA, blocks_begin, blocks_idle, blocks_hostBurst]
      simp [Blocks.openBlock, Blocks.idle]
    · unfold Blocks.closeBlock
      rw [if_neg fun h => Bool.noConfusion h.2, blocks_setLastBlockEnd, blocks_end, blocks_popCUDA]
      rfl
  · rfl

theorem blocks_oclBlock (timeFactor : ℚ) (thread : AcceleratorThread) (s : AcceleratorInfo)
    (e : Event) :
    blocks (s.oclBlock timeFactor thread e) =
      if isOCLBlock e.type ∧ thread ≠ .null then (blocks s).turn thread .ocl e
      else blocks s := by
  simp only [AcceleratorInfo.oclBlock, Blocks.turn]
  split
  · split
    · rw [blocks_setLastBlockEnd, blocks_pushOCL, blocks_begin, blocks_idle, blocks_hostBurst]
      simp [Blocks.openBlock, Blocks.idle]
    · unfold Blocks.closeBlock
      rw [if_neg fun h => Bool.noConfusion h.2, blocks_setLastBlockEnd, blocks_end, blocks_popOCL]
      rfl
  · rfl

/-- The rest of the state stays as it is while the host part of a thread changes. -/
def withInfo (s : AcceleratorInfo) (info : TaskTranslationInfo) : AcceleratorInfo :=
  { s with toTaskTranslationInfo := info }

theorem marks_append_burst (written : List Written) {m : Mark Int} {record : Written}
    (hm : markOf record = some m) (time : ℚ) :
    (written ++ [Written.cpuBurst time] ++ [record]).filterMap markOf =
      written.filterMap markOf ++ [m] := by
  rw [List.filterMap_append, List.filterMap_append]
  have hburst : [Written.cpuBurst time].filterMap markOf = [] := rfl
  rw [hburst, List.append_nil, List.filterMap_cons, hm]
  rfl

theorem marks_append (written : List Written) {m : Mark Int} {record : Written}
    (hm : markOf record = some m) :
    (written ++ [record]).filterMap markOf = written.filterMap markOf ++ [m] := by
  simp [hm]

theorem blocks_clusterBlock (timeFactor : ℚ) (thread : AcceleratorThread) (s : AcceleratorInfo)
    (e : Event) :
    blocks (withInfo s (s.toTaskTranslationInfo.clusterBlock timeFactor e)) =
      if isClusterBlock e.type then (blocks s).turn thread .cluster e else blocks s := by
  simp only [TaskTranslationInfo.clusterBlock, Blocks.turn]
  split
  · split
    · unfold Blocks.openBlock
      rw [if_pos rfl]
      have hmpi : (blocks s).stack .mpi = s.mpiBlockIdStack := rfl
      rw [hmpi]
      split
      · apply Blocks.ext_stack
        · intro kind
          cases kind <;> rfl
        · rfl
        · exact marks_append s.written rfl
      · apply Blocks.ext_stack
        · intro kind
          cases kind <;> rfl
        · rfl
        · rfl
    · split
      next hstack =>
        have hempty : (blocks s).stack .cluster = [] := hstack
        rw [Blocks.closeBlock_of_nil hempty rfl]
        rfl
      next block rest hstack =>
        have hcons : (blocks s).stack .cluster = block :: rest := hstack
        have htail : ((blocks s).stack .cluster).tail = rest := by rw [hcons, List.tail_cons]
        have hne : (blocks s).stack .cluster ≠ [] := by
          rw [hcons]
          exact List.cons_ne_nil _ _
        rw [Blocks.closeBlock_of_ne hne]
        split
        · apply Blocks.ext_stack
          · intro kind
            cases kind <;> first | rfl | exact htail.symm
          · rfl
          · exact marks_append_burst s.written (by rfl) _
        · apply Blocks.ext_stack
          · intro kind
            cases kind <;> first | rfl | exact htail.symm
          · rfl
          · exact marks_append s.written rfl
  · rfl

theorem blocks_userBlock (timeFactor : ℚ) (thread : AcceleratorThread) (s : AcceleratorInfo)
    (e : Event) :
    blocks (withInfo s (s.toTaskTranslationInfo.userBlock timeFactor e)) =
      if isUserBlock e.type then (blocks s).turn thread .user e else blocks s := by
  simp only [TaskTranslationInfo.userBlock, Blocks.turn]
  split
  · split
    · rw [Blocks.openBlock_host thread _ (Or.inr rfl)]
      split
      · apply Blocks.ext_stack
        · intro kind
          cases kind <;> rfl
        · rfl
        · exact marks_append_burst s.written (by rfl) _
      · apply Blocks.ext_stack
        · intro kind
          cases kind <;> rfl
        · rfl
        · exact marks_append s.written rfl
    · split
      next hstack =>
        have hempty : (blocks s).stack .user = [] := hstack
        rw [Blocks.closeBlock_of_nil hempty rfl]
        rfl
      next block rest hstack =>
        have hcons : (blocks s).stack .user = block :: rest := hstack
        have htail : ((blocks s).stack .user).tail = rest := by rw [hcons, List.tail_cons]
        have hne : (blocks s).stack .user ≠ [] := by
          rw [hcons]
          exact List.cons_ne_nil _ _
        rw [Blocks.closeBlock_of_ne hne]
        split
        · apply Blocks.ext_stack
          · intro kind
            cases kind <;> first | rfl | exact htail.symm
          · rfl
          · exact marks_append_burst s.written (by rfl) _
        · apply Blocks.ext_stack
          · intro kind
            cases kind <;> first | rfl | exact htail.symm
          · rfl
          · exact marks_append s.written rfl
  · rfl

theorem blocks_release (s : AcceleratorInfo) (info : TaskTranslationInfo) :
    Option.map (fun info => blocks (withInfo s info))
      (if info.flushClusterStack then
        match info.clusterBlockIdStack with
        | [] => none
        | (type, value) :: _ =>
            some { info.write (.blockBegin type value) with flushClusterStack := false }
      else some info) = (blocks (withInfo s info)).release := by
  unfold Blocks.release
  have hheld : (blocks (withInfo s info)).held = info.flushClusterStack := rfl
  have hcluster : (blocks (withInfo s info)).stack .cluster = info.clusterBlockIdStack := rfl
  rw [hheld, hcluster]
  split
  · split
    · rfl
    · apply congrArg some
      apply Blocks.ext_stack
      · intro kind
        cases kind <;> rfl
      · rfl
      · exact marks_append info.written rfl
  · rfl

theorem blocks_mpiBlock (timeFactor : ℚ) (thread : AcceleratorThread) (s : AcceleratorInfo)
    (e : Event) :
    (s.toTaskTranslationInfo.mpiBlock timeFactor e).map (fun info => blocks (withInfo s info)) =
      if isMPIBlock e.type then
        if e.value = 0 ∧ (blocks s).stack .mpi ≠ [] then ((blocks s).turn thread .mpi e).release
        else some ((blocks s).turn thread .mpi e)
      else some (blocks s) := by
  simp only [TaskTranslationInfo.mpiBlock, Blocks.turn]
  split
  · split
    next hbegin =>
      have hvalue : ¬(e.value = 0 ∧ (blocks s).stack .mpi ≠ []) := by
        simp [isBlockBegin] at hbegin
        exact fun h => hbegin h.1
      rw [if_neg hvalue]
      rw [Blocks.openBlock_host thread _ (Or.inl rfl)]
      apply congrArg some
      split
      · apply Blocks.ext_stack
        · intro kind
          cases kind <;> rfl
        · rfl
        · exact marks_append_burst s.written (by rfl) _
      · apply Blocks.ext_stack
        · intro kind
          cases kind <;> rfl
        · rfl
        · exact marks_append s.written rfl
    next hend =>
      have hvalue : e.value = 0 := by simpa [isBlockBegin] using hend
      split
      next hstack =>
        have hempty : (blocks s).stack .mpi = [] := hstack
        rw [if_neg fun h => h.2 hempty, Blocks.closeBlock_of_nil hempty rfl]
        rfl
      next block rest hstack =>
        have hcons : (blocks s).stack .mpi = block :: rest := hstack
        have htail : ((blocks s).stack .mpi).tail = rest := by rw [hcons, List.tail_cons]
        have hne : (blocks s).stack .mpi ≠ [] := by
          rw [hcons]
          exact List.cons_ne_nil _ _
        rw [Blocks.closeBlock_of_ne hne]
        refine Eq.trans ?_ (if_pos ⟨hvalue, hne⟩).symm
        refine (blocks_release s _).trans (congrArg Blocks.release ?_)
        apply Blocks.ext_stack
        · intro kind
          cases kind <;> first | rfl | exact htail.symm
        · rfl
        · exact marks_append s.written rfl
  · rfl

theorem isBlock_of_kindOf (type : Int) :
    isMPIBlock type = decide (kindOf type = some .mpi) ∧
      isUserBlock type = decide (kindOf type = some .user) ∧
      isClusterBlock type = decide (kindOf type = some .cluster) ∧
      isCUDABlock type = decide (kindOf type = some .cuda) ∧
      isOCLBlock type = decide (kindOf type = some .ocl) := by
  unfold kindOf
  split_ifs with hmpi huser hcluster hcuda hocl
  all_goals
    simp only [isMPIBlock, isUserBlock, isClusterBlock, isCUDABlock, isOCLBlock, clusterIdEv,
      Bool.or_eq_true, beq_iff_eq] at *
    simp
    omega

theorem kindOf_of_isPseudoLogicRecv {type : Int} (h : isPseudoLogicRecv type = true) :
    kindOf type = none := by
  unfold kindOf
  split_ifs with hmpi huser hcluster hcuda hocl
  all_goals
    simp only [isMPIBlock, isUserBlock, isClusterBlock, isCUDABlock, isOCLBlock, clusterIdEv,
      isPseudoLogicRecv, Bool.or_eq_true, Bool.and_eq_true, decide_eq_true_eq, beq_iff_eq] at *
  all_goals omega

theorem blocks_toDimemas (timeFactor : ℚ) (thread : AcceleratorThread) (s : AcceleratorInfo)
    (e : Event) :
    (s.toDimemas timeFactor thread e).map blocks = (blocks s).step thread e := by
  simp only [AcceleratorInfo.toDimemas]
  split
  next hpseudo =>
    unfold Blocks.step
    rw [kindOf_of_isPseudoLogicRecv hpseudo]
    rfl
  next =>
    set counted : AcceleratorInfo := AcceleratorInfo.genericEvent timeFactor { s with
      toTaskTranslationInfo :=
        (s.toTaskTranslationInfo.checkIprobeCounters timeFactor e).checkTestCounters timeFactor e }
      e with hcounted
    have hblocks : blocks counted = blocks s := by
      rw [hcounted, blocks_genericEvent]
      exact blocks_checkCounters timeFactor s e
    have hcuda := blocks_cudaBlock timeFactor thread counted e
    set cuda := counted.cudaBlock timeFactor thread e
    have hocl := blocks_oclBlock timeFactor thread cuda e
    set ocl := cuda.oclBlock timeFactor thread e
    have hcluster := blocks_clusterBlock timeFactor thread ocl e
    set cluster := withInfo ocl (ocl.toTaskTranslationInfo.clusterBlock timeFactor e)
    have hmpi := blocks_mpiBlock timeFactor thread cluster e
    have hturns : (Option.map (fun info => AcceleratorInfo.mk (info.userBlock timeFactor e)
        ocl.cudaBlockIdStack ocl.oclBlockIdStack)
          (cluster.toTaskTranslationInfo.mpiBlock timeFactor e)).map blocks =
        ((cluster.toTaskTranslationInfo.mpiBlock timeFactor e).map
          fun info => blocks (withInfo cluster info)).map fun b =>
            if isUserBlock e.type then b.turn thread .user e else b := by
      rw [Option.map_map, Option.map_map]
      apply congrFun
      apply congrArg
      funext info
      exact blocks_userBlock timeFactor thread (withInfo cluster info) e
    refine hturns.trans ?_
    rw [hmpi, hcluster, hocl, hcuda, hblocks]
    obtain ⟨hisMPI, hisUser, hisCluster, hisCUDA, hisOCL⟩ := isBlock_of_kindOf e.type
    rw [hisMPI, hisUser, hisCluster, hisCUDA, hisOCL]
    unfold Blocks.step
    cases hkind : kindOf e.type with
    | none => simp
    | some kind =>
      cases kind with
      | mpi => simp [Kind.isAccelerator]
      | user => simp [Kind.isAccelerator]
      | cluster => simp [Kind.isAccelerator]
      | cuda => by_cases hthread : thread = .null <;> simp [Kind.isAccelerator, hthread]
      | ocl => by_cases hthread : thread = .null <;> simp [Kind.isAccelerator, hthread]

/-! ## Open blocks -/

/-- How many blocks of a type are on the stacks. -/
def countOn (stack : Kind → List Block) (type : Int) : Nat :=
  match kindOf type with
  | none => 0
  | some kind => ((stack kind).map Prod.fst).count type

def Blocks.written (b : Blocks) (kind : Kind) : List Block :=
  if kind = .cluster ∧ b.held then (b.stack kind).tail else b.stack kind

theorem countOn_cons {stack stack' : Kind → List Block} {kind : Kind} {type value : Int}
    (hkind : kindOf type = some kind) (hcons : stack' kind = (type, value) :: stack kind)
    (hother : ∀ other ≠ kind, stack' other = stack other) (u : Int) :
    countOn stack' u = countOn stack u + if u = type then 1 else 0 := by
  unfold countOn
  cases hu : kindOf u with
  | none =>
    have hne : u ≠ type := by
      intro h
      rw [h, hkind] at hu
      exact Option.some_ne_none kind hu
    simp [hne]
  | some other =>
    by_cases hsame : other = kind
    · rw [hsame]
      simp only [hcons, List.map_cons, List.count_cons, beq_iff_eq]
      by_cases htype : u = type
      · simp [htype]
      · simp [htype, Ne.symm htype]
    · have hne : u ≠ type := by
        intro h
        rw [h, hkind] at hu
        exact hsame (Option.some.inj hu).symm
      simp [hother other hsame, hne]

/-- The stacks hold blocks of their kinds, a cluster block is held back inside an MPI block only, and
the blocks whose begin has been written and that are on a stack are the open ones. -/
structure Blocks.Inv (thread : AcceleratorThread) (b : Blocks) : Prop where
  kinds : ∀ kind, ∀ block ∈ b.stack kind, kindOf block.1 = some kind
  held : b.held = true → b.stack .cluster ≠ [] ∧ b.stack .mpi ≠ []
  noAccelerator : thread = .null → ∀ kind, kind.isAccelerator = true → b.stack kind = []
  leaves : Leaves b.marks (countOn b.written)

/-- The end of a block finds no block of its kind or one of its type as the last, that of a CUDA or
OpenCL block finds one, and no cluster block begins or ends while another one is held back. -/
structure Orderly (thread : AcceleratorThread) (b : Blocks) (e : Event) : Prop where
  innermost : ∀ kind, kindOf e.type = some kind → e.value = 0 →
    ∀ block ∈ (b.stack kind).head?, block.1 = e.type
  accelerator : ∀ kind, kindOf e.type = some kind → kind.isAccelerator = true → thread ≠ .null →
    e.value = 0 → b.stack kind ≠ []
  notHeld : kindOf e.type = some .cluster → b.held = false

namespace Blocks

theorem stack_openBlock (thread : AcceleratorThread) (b : Blocks) (kind : Kind) (e : Event) :
    (b.openBlock thread kind e).stack =
      Function.update b.stack kind ((e.type, e.value) :: b.stack kind) := by
  simp only [openBlock]
  split_ifs <;> rfl

theorem written_of_not_held {b : Blocks} (h : b.held = false) : b.written = b.stack := by
  funext kind
  unfold written
  rw [if_neg]
  simp [h]

theorem kinds_push {b : Blocks} (hkinds : ∀ kind, ∀ block ∈ b.stack kind, kindOf block.1 = some kind)
    {kind : Kind} {block : Block} (hkind : kindOf block.1 = some kind) (other : Kind) :
    ∀ block' ∈ Function.update b.stack kind (block :: b.stack kind) other,
      kindOf block'.1 = some other := by
  by_cases h : other = kind
  · rw [h, Function.update_self]
    exact List.forall_mem_cons.mpr ⟨hkind, hkinds kind⟩
  · rw [Function.update_of_ne h]
    exact hkinds other

theorem kinds_pop {b : Blocks} (hkinds : ∀ kind, ∀ block ∈ b.stack kind, kindOf block.1 = some kind)
    (kind other : Kind) :
    ∀ block ∈ Function.update b.stack kind (b.stack kind).tail other,
      kindOf block.1 = some other := by
  by_cases h : other = kind
  · rw [h, Function.update_self]
    exact fun block hblock => hkinds kind block (List.mem_of_mem_tail hblock)
  · rw [Function.update_of_ne h]
    exact hkinds other

theorem countOn_push {b b' : Blocks} {kind : Kind} {type value : Int}
    (hkind : kindOf type = some kind) (hheld : kind = .cluster → b.held = false)
    (hstack : b'.stack = Function.update b.stack kind ((type, value) :: b.stack kind))
    (hheld' : b'.held = b.held) (u : Int) :
    countOn b'.written u = countOn b.written u + if u = type then 1 else 0 := by
  apply countOn_cons hkind
  · have hno : ¬(kind = .cluster ∧ b.held = true) := by
      rintro ⟨hcluster, htrue⟩
      rw [hheld hcluster] at htrue
      exact Bool.false_ne_true htrue
    unfold written
    rw [hheld', if_neg hno, if_neg hno, hstack, Function.update_self]
  · intro other hne
    unfold written
    rw [hheld', hstack, Function.update_of_ne hne]

/-- A block is popped whose begin has been written. -/
theorem countOn_pop {b b' : Blocks} {kind : Kind} {type value : Int} {rest : List Block}
    (hkind : kindOf type = some kind) (hheld : kind = .cluster → b.held = false)
    (hcons : b.stack kind = (type, value) :: rest)
    (hstack : b'.stack = Function.update b.stack kind (b.stack kind).tail)
    (hheld' : b'.held = b.held) (u : Int) :
    countOn b.written u = countOn b'.written u + if u = type then 1 else 0 := by
  apply countOn_cons hkind
  · have hno : ¬(kind = .cluster ∧ b.held = true) := by
      rintro ⟨hcluster, htrue⟩
      rw [hheld hcluster] at htrue
      exact Bool.false_ne_true htrue
    unfold written
    rw [hheld', if_neg hno, if_neg hno, hstack, Function.update_self, hcons]
    rfl
  · intro other hne
    unfold written
    rw [hheld', hstack, Function.update_of_ne hne]

theorem Inv.openBlock {thread : AcceleratorThread} {b : Blocks} {e : Event} {kind : Kind}
    (h : b.Inv thread) (hkind : kindOf e.type = some kind)
    (hthread : ¬(kind.isAccelerator = true ∧ thread = .null))
    (hheld : kind = .cluster → b.held = false) : (b.openBlock thread kind e).Inv thread := by
  have hstack := stack_openBlock thread b kind e
  have hkinds (other : Kind) : ∀ block ∈ (b.openBlock thread kind e).stack other,
      kindOf block.1 = some other := by
    rw [hstack]
    exact kinds_push h.kinds hkind other
  have hnone (hnull : thread = .null) (other : Kind) (hother : other.isAccelerator = true) :
      (b.openBlock thread kind e).stack other = [] := by
    have hne : other ≠ kind := by
      intro heq
      exact hthread ⟨heq ▸ hother, hnull⟩
    rw [hstack, Function.update_of_ne hne]
    exact h.noAccelerator hnull other hother
  by_cases hcluster : kind = .cluster
  · have hfalse := hheld hcluster
    have hopen : (b.openBlock thread kind e) =
        if b.stack .mpi = [] then
          { (b.mark (.opened e.type)).push kind (e.type, e.value) with held := false }
        else { b.push kind (e.type, e.value) with held := true } := if_pos hcluster
    by_cases hmpi : b.stack .mpi = []
    · rw [if_pos hmpi] at hopen
      refine ⟨hkinds, fun htrue => ?_, hnone, ?_⟩
      · rw [hopen] at htrue
        exact absurd htrue Bool.false_ne_true
      · rw [hopen]
        exact h.leaves.opened (countOn_push hkind hheld rfl hfalse.symm)
    · rw [if_neg hmpi] at hopen
      refine ⟨hkinds, fun _ => ⟨?_, ?_⟩, hnone, ?_⟩
      · rw [hstack, hcluster, Function.update_self]
        exact List.cons_ne_nil _ _
      · rw [hstack, hcluster, Function.update_of_ne (by decide)]
        exact hmpi
      · -- the block on top of the stack is not counted
        have hwritten : (b.openBlock thread kind e).written = b.written := by
          rw [written_of_not_held hfalse, hopen, hcluster]
          funext other
          by_cases hother : other = .cluster
          · rw [hother]
            rfl
          · unfold written
            rw [if_neg fun hand => hother hand.1]
            exact Function.update_of_ne hother _ _
        rw [hwritten, hopen]
        exact h.leaves
  · have hopen : (b.openBlock thread kind e) =
        ((if idle thread kind e.value then (b.mark (.opened 0)).mark (.closed 0) else b).mark
          (.opened e.type)).push kind (e.type, e.value) := by
      unfold Blocks.openBlock
      rw [if_neg hcluster]
    have hidle : Leaves (if idle thread kind e.value then (b.mark (.opened 0)).mark (.closed 0)
        else b).marks (countOn b.written) := by
      split
      · have hpair := h.leaves.pair 0
        rw [← List.singleton_append, ← List.append_assoc] at hpair
        exact hpair
      · exact h.leaves
    have hheld' : (b.openBlock thread kind e).held = b.held := by
      rw [hopen]
      split <;> rfl
    refine ⟨hkinds, fun htrue => ?_, hnone, ?_⟩
    · rw [hheld'] at htrue
      rw [hstack, Function.update_of_ne (Ne.symm hcluster)]
      refine ⟨(h.held htrue).1, ?_⟩
      by_cases hmpi : Kind.mpi = kind
      · rw [← hmpi, Function.update_self]
        exact List.cons_ne_nil _ _
      · rw [Function.update_of_ne hmpi]
        exact (h.held htrue).2
    · have hmarks : (b.openBlock thread kind e).marks =
          (if idle thread kind e.value then (b.mark (.opened 0)).mark (.closed 0) else b).marks ++
            [.opened e.type] := by
        rw [hopen]
        rfl
      rw [hmarks]
      exact hidle.opened (countOn_push hkind hheld hstack hheld')

theorem stack_closeBlock {b : Blocks} {kind : Kind} (hne : b.stack kind ≠ []) (e : Event) :
    (b.closeBlock kind e).stack = Function.update b.stack kind (b.stack kind).tail := by
  rw [closeBlock_of_ne hne]
  rfl

theorem held_closeBlock {b : Blocks} {kind : Kind} (hne : b.stack kind ≠ []) (e : Event) :
    (b.closeBlock kind e).held = b.held := by
  rw [closeBlock_of_ne hne]
  rfl

theorem marks_closeBlock {b : Blocks} {kind : Kind} (hne : b.stack kind ≠ []) (e : Event) :
    (b.closeBlock kind e).marks = b.marks ++ [.closed e.type] := by
  rw [closeBlock_of_ne hne]
  rfl

theorem leaves_closeBlock {thread : AcceleratorThread} {b : Blocks} {e : Event} {kind : Kind}
    (h : b.Inv thread) (hkind : kindOf e.type = some kind)
    (hheld : kind = .cluster → b.held = false) (hne : b.stack kind ≠ [])
    (htop : ∀ block ∈ (b.stack kind).head?, block.1 = e.type) :
    Leaves (b.closeBlock kind e).marks (countOn (b.closeBlock kind e).written) := by
  obtain ⟨block, rest, hcons⟩ := List.exists_cons_of_ne_nil hne
  have htype : block.1 = e.type := htop block (by rw [hcons]; rfl)
  have hpair : b.stack kind = (e.type, block.2) :: rest := by rw [hcons, ← htype]
  rw [marks_closeBlock hne]
  exact h.leaves.closed
    (countOn_pop hkind hheld hpair (stack_closeBlock hne e) (held_closeBlock hne e))

theorem kinds_closeBlock {thread : AcceleratorThread} {b : Blocks} {kind : Kind}
    (h : b.Inv thread) (hne : b.stack kind ≠ []) (e : Event) (other : Kind) :
    ∀ block ∈ (b.closeBlock kind e).stack other, kindOf block.1 = some other := by
  rw [stack_closeBlock hne]
  exact kinds_pop h.kinds kind other

theorem noAccelerator_closeBlock {thread : AcceleratorThread} {b : Blocks} {kind : Kind}
    (h : b.Inv thread) (hne : b.stack kind ≠ []) (e : Event) (hnull : thread = .null) (other : Kind)
    (hother : other.isAccelerator = true) : (b.closeBlock kind e).stack other = [] := by
  have hsame : other ≠ kind := by
    intro heq
    rw [← heq] at hne
    exact hne (h.noAccelerator hnull other hother)
  rw [stack_closeBlock hne, Function.update_of_ne hsame]
  exact h.noAccelerator hnull other hother

theorem Inv.closeBlock {thread : AcceleratorThread} {b : Blocks} {e : Event} {kind : Kind}
    (h : b.Inv thread) (hkind : kindOf e.type = some kind)
    (hheld : kind = .cluster → b.held = false) (hmpi : kind ≠ .mpi) (hne : b.stack kind ≠ [])
    (htop : ∀ block ∈ (b.stack kind).head?, block.1 = e.type) :
    (b.closeBlock kind e).Inv thread := by
  refine ⟨kinds_closeBlock h hne e, fun htrue => ?_, noAccelerator_closeBlock h hne e,
    leaves_closeBlock h hkind hheld hne htop⟩
  rw [held_closeBlock hne] at htrue
  have hcluster : Kind.cluster ≠ kind := by
    intro heq
    exact absurd (htrue.symm.trans (hheld heq.symm)) (by decide)
  rw [stack_closeBlock hne, Function.update_of_ne hcluster, Function.update_of_ne hmpi.symm]
  exact h.held htrue

/-- At the end of an MPI block the cluster block that is held back is on the stack. -/
theorem Inv.release {thread : AcceleratorThread} {b : Blocks} {e : Event} (h : b.Inv thread)
    (hkind : kindOf e.type = some .mpi) (hne : b.stack .mpi ≠ [])
    (htop : ∀ block ∈ (b.stack .mpi).head?, block.1 = e.type) :
    ∃ b', (b.closeBlock .mpi e).release = some b' ∧ b'.Inv thread ∧
      b'.stack = (b.closeBlock .mpi e).stack := by
  have hkinds := kinds_closeBlock h hne e
  have hnone := noAccelerator_closeBlock h hne e
  have hleaves := leaves_closeBlock h hkind (fun heq => Kind.noConfusion heq) hne htop
  have hheld : (b.closeBlock .mpi e).held = b.held := held_closeBlock hne e
  unfold Blocks.release
  split
  next htrue =>
    have hcluster : (b.closeBlock .mpi e).stack .cluster = b.stack .cluster := by
      rw [stack_closeBlock hne]
      rfl
    rw [hheld] at htrue
    obtain ⟨block, rest, hcons⟩ := List.exists_cons_of_ne_nil (h.held htrue).1
    rw [hcons] at hcluster
    rw [hcluster]
    refine ⟨_, rfl, ⟨hkinds, fun hfalse => absurd hfalse Bool.false_ne_true, hnone, ?_⟩, rfl⟩
    apply hleaves.opened
    have htype : kindOf block.1 = some .cluster := by
      apply h.kinds .cluster block
      rw [hcons]
      exact List.mem_cons_self
    have hrest : (b.closeBlock .mpi e).written .cluster = rest := by
      unfold written
      rw [if_pos ⟨rfl, hheld.trans htrue⟩, hcluster, List.tail_cons]
    rw [written_of_not_held rfl]
    apply countOn_cons htype
    · rw [hrest]
      exact hcluster
    · intro other hother
      unfold written
      rw [if_neg fun hand => hother hand.1]
      rfl
  next hfalse => exact ⟨_, rfl, ⟨hkinds, fun htrue => absurd htrue hfalse, hnone, hleaves⟩, rfl⟩

theorem step_of_none {thread : AcceleratorThread} {b : Blocks} {e : Event}
    (hkind : kindOf e.type = none) : b.step thread e = some b := by
  unfold step
  rw [hkind]

theorem step_of_null {thread : AcceleratorThread} {b : Blocks} {e : Event} {kind : Kind}
    (hkind : kindOf e.type = some kind) (hthread : kind.isAccelerator = true ∧ thread = .null) :
    b.step thread e = some b := by
  simp only [step, hkind, if_pos hthread]

theorem step_begin {thread : AcceleratorThread} {b : Blocks} {e : Event} {kind : Kind}
    (hkind : kindOf e.type = some kind) (hthread : ¬(kind.isAccelerator = true ∧ thread = .null))
    (hvalue : e.value ≠ 0) : b.step thread e = some (b.openBlock thread kind e) := by
  have hbegin : isBlockBegin e.value = true := by simpa [isBlockBegin] using hvalue
  simp only [step, hkind, if_neg hthread, turn, if_pos hbegin]
  exact if_neg fun h => hvalue h.2.1

theorem step_end {thread : AcceleratorThread} {b : Blocks} {e : Event} {kind : Kind}
    (hkind : kindOf e.type = some kind) (hthread : ¬(kind.isAccelerator = true ∧ thread = .null))
    (hvalue : e.value = 0) (hmpi : kind = .mpi → b.stack .mpi = []) :
    b.step thread e = some (b.closeBlock kind e) := by
  have hend : ¬isBlockBegin e.value = true := by simpa [isBlockBegin] using hvalue
  simp only [step, hkind, if_neg hthread, turn, if_neg hend]
  exact if_neg fun h => h.2.2 (hmpi h.1)

theorem step_endMPI {thread : AcceleratorThread} {b : Blocks} {e : Event}
    (hkind : kindOf e.type = some .mpi) (hvalue : e.value = 0) (hne : b.stack .mpi ≠ []) :
    b.step thread e = (b.closeBlock .mpi e).release := by
  have hend : ¬isBlockBegin e.value = true := by simpa [isBlockBegin] using hvalue
  have hthread : ¬(Kind.mpi.isAccelerator = true ∧ thread = .null) :=
    fun h => Bool.false_ne_true h.1
  simp only [step, hkind, if_neg hthread, turn, if_neg hend]
  exact if_pos ⟨trivial, hvalue, hne⟩

theorem Inv.step {thread : AcceleratorThread} {b : Blocks} {e : Event} (h : b.Inv thread)
    (ho : Orderly thread b e) : ∃ b', b.step thread e = some b' ∧ b'.Inv thread := by
  cases hkind : kindOf e.type with
  | none => exact ⟨b, step_of_none hkind, h⟩
  | some kind =>
    have hheld (hcluster : kind = .cluster) : b.held = false := ho.notHeld (hcluster ▸ hkind)
    by_cases hthread : kind.isAccelerator = true ∧ thread = .null
    · exact ⟨b, step_of_null hkind hthread, h⟩
    by_cases hvalue : e.value = 0
    · have htop := ho.innermost kind hkind hvalue
      by_cases hempty : b.stack kind = []
      · have hhost : kind.isAccelerator = false := by
          by_contra hacc
          rw [Bool.not_eq_false] at hacc
          exact ho.accelerator kind hkind hacc (fun hnull => hthread ⟨hacc, hnull⟩) hvalue hempty
        have hmpi (heq : kind = .mpi) : b.stack .mpi = [] := heq ▸ hempty
        refine ⟨b, ?_, h⟩
        rw [step_end hkind hthread hvalue hmpi, closeBlock_of_nil hempty hhost]
      · by_cases hmpi : kind = .mpi
        · rw [hmpi] at hkind hempty htop
          obtain ⟨b', hb', hinv, -⟩ := h.release hkind hempty htop
          exact ⟨b', (step_endMPI hkind hvalue hempty).trans hb', hinv⟩
        · exact ⟨_, step_end hkind hthread hvalue (absurd · hmpi),
            h.closeBlock hkind hheld hmpi hempty htop⟩
    · exact ⟨_, step_begin hkind hthread hvalue, h.openBlock hkind hthread hheld⟩

/-! ## Balanced events -/

/-- As many blocks are open in the events as on the stacks. -/
def Counted (thread : AcceleratorThread) (input : List (Mark Int)) (b : Blocks) : Prop :=
  ∀ type, (∀ kind, kindOf type = some kind → ¬(kind.isAccelerator = true ∧ thread = .null)) →
    opens type input = closes type input + countOn b.stack type

theorem countOn_pos {b : Blocks} {type : Int} {kind : Kind} (hkind : kindOf type = some kind)
    (h : 0 < countOn b.stack type) : b.stack kind ≠ [] := by
  intro hempty
  unfold countOn at h
  rw [hkind] at h
  simp [hempty] at h

theorem eventMark_begin {e : Event} {kind : Kind} (hkind : kindOf e.type = some kind)
    (hvalue : e.value ≠ 0) : (eventMark e).toList = [.opened e.type] := by
  simp [eventMark, hkind, isBlockBegin, hvalue]

theorem eventMark_end {e : Event} {kind : Kind} (hkind : kindOf e.type = some kind)
    (hvalue : e.value = 0) : (eventMark e).toList = [.closed e.type] := by
  simp [eventMark, hkind, isBlockBegin, hvalue]

theorem Counted.opened {thread : AcceleratorThread} {input : List (Mark Int)} {b : Blocks}
    {e : Event} {kind : Kind} (h : Counted thread input b) (hkind : kindOf e.type = some kind) :
    Counted thread (input ++ [.opened e.type]) (b.openBlock thread kind e) := by
  intro type htype
  have hcount : countOn (b.openBlock thread kind e).stack type =
      countOn b.stack type + if type = e.type then 1 else 0 := by
    rw [stack_openBlock]
    apply countOn_cons hkind
    · exact Function.update_self _ _ _
    · exact fun other hne => Function.update_of_ne hne _ _
  rw [opens_opened, closes_opened, h type htype, hcount]
  omega

theorem Counted.closed {thread : AcceleratorThread} {input : List (Mark Int)} {b : Blocks}
    {e : Event} {kind : Kind} (h : Counted thread input b) (hkind : kindOf e.type = some kind)
    (hne : b.stack kind ≠ []) (htop : ∀ block ∈ (b.stack kind).head?, block.1 = e.type) :
    Counted thread (input ++ [.closed e.type]) (b.closeBlock kind e) := by
  intro type htype
  obtain ⟨block, rest, hcons⟩ := List.exists_cons_of_ne_nil hne
  have htype' : block.1 = e.type := htop block (by rw [hcons]; rfl)
  have hcount : countOn b.stack type =
      countOn (b.closeBlock kind e).stack type + if type = e.type then 1 else 0 := by
    rw [stack_closeBlock hne]
    apply countOn_cons hkind
    · rw [Function.update_self, hcons, ← htype']
      rfl
    · exact fun other hother => (Function.update_of_ne hother _ _).symm
  rw [opens_closed, closes_closed, h type htype, hcount]
  omega

/-- The end of a block that has begun finds its stack not empty. -/
theorem Counted.stack_ne {thread : AcceleratorThread} {input : List (Mark Int)} {b : Blocks}
    {e : Event} {kind : Kind} (h : Counted thread input b) (hkind : kindOf e.type = some kind)
    (hthread : ¬(kind.isAccelerator = true ∧ thread = .null))
    (hinput : Preceded (input ++ [.closed e.type])) : b.stack kind ≠ [] := by
  apply countOn_pos hkind
  have hlt := hinput input e.type [] rfl
  have hcount := h e.type fun other hother => by
    rw [hkind] at hother
    rw [← Option.some.inj hother]
    exact hthread
  omega

/-- The stacks follow the events while no block ends that has not begun. -/
theorem Counted.step {thread : AcceleratorThread} {input : List (Mark Int)} {b b' : Blocks}
    {e : Event} (h : Counted thread input b) (hinv : b.Inv thread) (ho : Orderly thread b e)
    (hstep : b.step thread e = some b') (hinput : Preceded (input ++ (eventMark e).toList)) :
    Counted thread (input ++ (eventMark e).toList) b' := by
  cases hkind : kindOf e.type with
  | none =>
    have hmark : eventMark e = none := by simp [eventMark, hkind]
    rw [step_of_none hkind] at hstep
    rw [← Option.some.inj hstep, hmark, Option.toList_none, List.append_nil]
    exact h
  | some kind =>
    by_cases hthread : kind.isAccelerator = true ∧ thread = .null
    · rw [step_of_null hkind hthread] at hstep
      rw [← Option.some.inj hstep]
      intro type htype
      have hne : type ≠ e.type := by
        intro heq
        exact htype kind (heq ▸ hkind) hthread
      by_cases hvalue : e.value = 0
      · rw [eventMark_end hkind hvalue, opens_closed, closes_closed, if_neg hne]
        exact h type htype
      · rw [eventMark_begin hkind hvalue, opens_opened, closes_opened, if_neg hne]
        exact h type htype
    by_cases hvalue : e.value = 0
    · rw [eventMark_end hkind hvalue] at hinput ⊢
      have hne := h.stack_ne hkind hthread hinput
      have htop := ho.innermost kind hkind hvalue
      by_cases hmpi : kind = .mpi
      · rw [hmpi] at hkind hne htop
        rw [step_endMPI hkind hvalue hne] at hstep
        obtain ⟨c, hc, -, hstack⟩ := hinv.release hkind hne htop
        rw [hc] at hstep
        rw [← Option.some.inj hstep]
        unfold Counted
        rw [hstack]
        exact h.closed hkind hne htop
      · rw [step_end hkind hthread hvalue (absurd · hmpi)] at hstep
        rw [← Option.some.inj hstep]
        exact h.closed hkind hne htop
    · rw [eventMark_begin hkind hvalue]
      rw [step_begin hkind hthread hvalue] at hstep
      rw [← Option.some.inj hstep]
      exact h.opened hkind

end Blocks

/-! ## Whole runs -/

/-- Every event of a thread is orderly in the state in which it is translated. -/
def AllOrderly (timeFactor : ℚ) (thread : AcceleratorThread) : AcceleratorInfo → List Event → Prop
  | _, [] => True
  | s, e :: es =>
      Orderly thread (blocks s) e ∧
        ∀ s', s.toDimemas timeFactor thread e = some s' → AllOrderly timeFactor thread s' es

/-- The events are translated without a look at an empty stack, each end that is written has its begin
before it, and nothing stays open if the events are balanced. -/
def BlocksBalanced (timeFactor : ℚ) (thread : AcceleratorThread) (s : AcceleratorInfo)
    (events : List Event) : Prop :=
  ∃ s', s.run timeFactor thread events = some s' ∧ Preceded (s'.written.filterMap markOf) ∧
    (Balanced (events.filterMap eventMark) → Balanced (s'.written.filterMap markOf))

theorem inv_initial (thread : AcceleratorThread) (threadId initialTime : Nat)
    (generateFirstIdle emptyTask : Bool) :
    (blocks (AcceleratorInfo.initial threadId initialTime generateFirstIdle emptyTask)).Inv
      thread := by
  have hstack (kind : Kind) :
      (blocks (AcceleratorInfo.initial threadId initialTime generateFirstIdle emptyTask)).stack
        kind = [] := by
    cases kind <;> rfl
  refine ⟨fun kind => ?_, fun htrue => absurd htrue Bool.false_ne_true, fun _ kind _ => hstack kind,
    ?_⟩
  · rw [hstack kind]
    exact fun _ hblock => absurd hblock List.not_mem_nil
  · have hcount (type : Int) : countOn (blocks (AcceleratorInfo.initial threadId initialTime
        generateFirstIdle emptyTask)).written type = 0 := by
      rw [Blocks.written_of_not_held rfl]
      unfold countOn
      split
      · rfl
      · rw [hstack]
        rfl
    rw [funext hcount]
    exact Leaves.nil

theorem run_inv {timeFactor : ℚ} {thread : AcceleratorThread} {events : List Event} :
    ∀ {s : AcceleratorInfo}, (blocks s).Inv thread → AllOrderly timeFactor thread s events →
      ∃ s', s.run timeFactor thread events = some s' ∧ (blocks s').Inv thread := by
  induction events with
  | nil => exact fun h _ => ⟨_, rfl, h⟩
  | cons e events ih =>
    intro s h ho
    obtain ⟨b', hb', hinv⟩ := h.step ho.1
    rw [← blocks_toDimemas timeFactor] at hb'
    obtain ⟨t, ht, hblocks⟩ := Option.map_eq_some_iff.mp hb'
    rw [← hblocks] at hinv
    obtain ⟨s', hrun, hinv'⟩ := ih hinv (ho.2 t ht)
    refine ⟨s', ?_, hinv'⟩
    unfold AcceleratorInfo.run
    rw [ht]
    exact hrun

theorem run_counted {timeFactor : ℚ} {thread : AcceleratorThread} {events : List Event} :
    ∀ {s s' : AcceleratorInfo} {input : List (Mark Int)}, (blocks s).Inv thread →
      AllOrderly timeFactor thread s events → s.run timeFactor thread events = some s' →
      Blocks.Counted thread input (blocks s) →
      Preceded (input ++ events.filterMap eventMark) →
      Blocks.Counted thread (input ++ events.filterMap eventMark) (blocks s') := by
  induction events with
  | nil =>
    intro s s' input _ _ hrun hcount _
    rw [← Option.some.inj hrun, List.filterMap_nil, List.append_nil]
    exact hcount
  | cons e events ih =>
    intro s s' input h ho hrun hcount hinput
    have hmarks : (e :: events).filterMap eventMark =
        (eventMark e).toList ++ events.filterMap eventMark := by
      cases hmark : eventMark e <;> simp [hmark]
    rw [hmarks, ← List.append_assoc] at hinput ⊢
    obtain ⟨b', hb', hinv⟩ := h.step ho.1
    have hnext := hcount.step h ho.1 hb' hinput.of_append
    rw [← blocks_toDimemas timeFactor] at hb'
    obtain ⟨t, ht, hblocks⟩ := Option.map_eq_some_iff.mp hb'
    rw [← hblocks] at hinv hnext
    unfold AcceleratorInfo.run at hrun
    rw [ht] at hrun
    exact ih hinv (ho.2 t ht) hrun hnext hinput

theorem stack_eq_nil {thread : AcceleratorThread} {input : List (Mark Int)} {b : Blocks}
    (hinv : b.Inv thread) (hcount : Blocks.Counted thread input b) (hinput : Balanced input)
    (kind : Kind) : b.stack kind = [] := by
  by_contra hne
  obtain ⟨block, rest, hcons⟩ := List.exists_cons_of_ne_nil hne
  have hkind : kindOf block.1 = some kind := by
    apply hinv.kinds kind block
    rw [hcons]
    exact List.mem_cons_self
  have hthread : ¬(kind.isAccelerator = true ∧ thread = .null) :=
    fun h => hne (hinv.noAccelerator h.2 kind h.1)
  have hopen := hcount block.1 fun other hother => by
    rw [hkind] at hother
    rw [← Option.some.inj hother]
    exact hthread
  have hclosed := hinput.closed block.1
  have hpos : 0 < countOn b.stack block.1 := by
    unfold countOn
    rw [hkind]
    simp [hcons]
  omega

theorem balanced_of_balanced {thread : AcceleratorThread} {input : List (Mark Int)} {b : Blocks}
    (hinv : b.Inv thread) (hcount : Blocks.Counted thread input b) (hinput : Balanced input) :
    Balanced b.marks := by
  have hstack := stack_eq_nil hinv hcount hinput
  have hheld : b.held = false := by
    by_contra htrue
    exact (hinv.held (Bool.eq_true_of_not_eq_false htrue)).1 (hstack .cluster)
  apply hinv.leaves.balanced
  intro type
  rw [Blocks.written_of_not_held hheld]
  unfold countOn
  split
  · rfl
  · rw [hstack]
    rfl

/-- The blocks of a thread are balanced if all its events are orderly. -/
theorem blocksBalanced_of_allOrderly {timeFactor : ℚ} {thread : AcceleratorThread}
    {threadId initialTime : Nat} {generateFirstIdle emptyTask : Bool} {events : List Event}
    (ho : AllOrderly timeFactor thread
      (AcceleratorInfo.initial threadId initialTime generateFirstIdle emptyTask) events) :
    BlocksBalanced timeFactor thread
      (AcceleratorInfo.initial threadId initialTime generateFirstIdle emptyTask) events := by
  have hinitial := inv_initial thread threadId initialTime generateFirstIdle emptyTask
  obtain ⟨s', hrun, hinv⟩ := run_inv hinitial ho
  refine ⟨s', hrun, hinv.leaves.preceded, fun hinput => ?_⟩
  have hnothing : Blocks.Counted thread []
      (blocks (AcceleratorInfo.initial threadId initialTime generateFirstIdle emptyTask)) := by
    intro type _
    unfold countOn
    split
    · rfl
    next kind _ => cases kind <;> rfl
  have hcount : Blocks.Counted thread (events.filterMap eventMark) (blocks s') :=
    run_counted hinitial ho hrun hnothing hinput.preceded
  exact balanced_of_balanced hinv hcount hinput

theorem allOrderly_cons {timeFactor : ℚ} {thread : AcceleratorThread} {s s' : AcceleratorInfo}
    {e : Event} {events : List Event} (ho : Orderly thread (blocks s) e)
    (hs : s.toDimemas timeFactor thread e = some s')
    (hrest : AllOrderly timeFactor thread s' events) :
    AllOrderly timeFactor thread s (e :: events) := by
  refine ⟨ho, fun t ht => ?_⟩
  rw [hs] at ht
  rw [← Option.some.inj ht]
  exact hrest

theorem orderly_begin {thread : AcceleratorThread} {b : Blocks} {e : Event} (hvalue : e.value ≠ 0)
    (hheld : kindOf e.type = some .cluster → b.held = false) : Orderly thread b e :=
  ⟨fun _ _ hzero => absurd hzero hvalue, fun _ _ _ _ hzero => absurd hzero hvalue, hheld⟩

theorem orderly_end {thread : AcceleratorThread} {b : Blocks} {e : Event} {kind : Kind}
    {last : Block} (hkind : kindOf e.type = some kind)
    (hheld : kind = .cluster → b.held = false)
    (hlast : (b.stack kind).head? = some last) (htype : last.1 = e.type) :
    Orderly thread b e := by
  constructor
  · intro other hother _ block hblock
    rw [hkind] at hother
    rw [← Option.some.inj hother, hlast] at hblock
    rw [← Option.some.inj hblock]
    exact htype
  · intro other hother _ _ _ hempty
    rw [hkind] at hother
    rw [Option.some.inj hother, hempty] at hlast
    cases hlast
  · intro hother
    rw [hkind] at hother
    exact hheld (Option.some.inj hother)

/-- An `MPI_Send` with a cluster block that ends behind it. -/
def clusterBehindSend : List Event :=
  [⟨50000001, 1, 10⟩, ⟨90000001, 1, 20⟩, ⟨50000001, 0, 30⟩, ⟨90000001, 0, 40⟩]

theorem blocksBalanced_clusterBehindSend :
    BlocksBalanced 1 .null (AcceleratorInfo.initial 1 0 false false) clusterBehindSend := by
  apply blocksBalanced_of_allOrderly
  apply allOrderly_cons (orderly_begin (by decide) (by decide)) rfl
  apply allOrderly_cons (orderly_begin (by decide) fun _ => rfl) rfl
  apply allOrderly_cons (orderly_end rfl (by decide) rfl rfl) rfl
  apply allOrderly_cons (orderly_end rfl (fun _ => rfl) rfl rfl) rfl
  trivial

/-- A cluster block that begins and ends inside an `MPI_Send`. -/
def clusterInSend : List Event :=
  [⟨50000001, 1, 10⟩, ⟨90000001, 1, 20⟩, ⟨90000001, 0, 30⟩, ⟨50000001, 0, 40⟩]

/-- The end of the send looks at the empty stack of cluster blocks. -/
theorem not_blocksBalanced :
    ¬ ∀ timeFactor thread threadId initialTime generateFirstIdle emptyTask events,
      BlocksBalanced timeFactor thread
        (AcceleratorInfo.initial threadId initialTime generateFirstIdle emptyTask) events := by
  intro h
  obtain ⟨s', hrun, -⟩ := h 1 .null 1 0 false false clusterInSend
  have hnone : ((AcceleratorInfo.initial 1 0 false false).run 1 .null clusterInSend).isNone = true :=
    rfl
  rw [hrun] at hnone
  exact Bool.false_ne_true hnone

end Dimemas.Prv2dim.BlockBalance
