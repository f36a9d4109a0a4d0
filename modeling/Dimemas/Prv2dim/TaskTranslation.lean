import Mathlib.Data.Rat.Cast.Defs
import Mathlib.Algebra.BigOperators.Group.List.Basic
/-!
# The translation of the events of a task

How `TaskTranslationInfo` writes the events of a task without accelerator: bursts of CPU, blocks and
user events. Burst counters are off, and the thresholds of `MPI_Iprobe` and `MPI_Test` are zero. The
records of communication primitives are left out.
-/

namespace Dimemas.Prv2dim.TaskTranslation

structure Event where
  type : Int
  value : Int
  timestamp : Nat
deriving DecidableEq, Repr

def probeSoftCounter : Int := 50000300

def probeTimeCounter : Int := 50000301

def testSoftCounter : Int := 50000080

def flushingEv : Int := 40000003

def clusterIdEv : Int := 90000001

def mpiIprobeVal : Int := 62

def mpiTestVal : Int := 39

/-- The types in `MPIType_Table`: point-to-point, collective, other and one-sided. -/
def isMPIBlock (type : Int) : Bool :=
  type == 50000001 || type == 50000002 || type == 50000003 || type == 50000004

def isUserBlock (type : Int) : Bool := type == 60000019 || type == 60000020 || type == 60000021

def isClusterBlock (type : Int) : Bool := type == clusterIdEv

def isCUDABlock (type : Int) : Bool := type == 63000001

/-- The types in `OCLType_Table`. -/
def isOCLBlock (type : Int) : Bool := type == 64000000 || type == 64100000

/-- `MPIEND_VAL` and `CLUSTEREND_VAL` are zero. -/
def isBlockBegin (value : Int) : Bool := value != 0

def isPseudoLogicRecv (type : Int) : Bool := 9 ≤ type && type ≤ 16

/-- A record of the output trace. -/
inductive Written
  | cpuBurst (time : ℚ)
  | userEvent (type value : Int)
  | blockBegin (type value : Int)
  | blockEnd (type : Int)
deriving DecidableEq, Repr

abbrev Block := Int × Int

/-- The last block of a stack is its first element here. -/
structure TaskTranslationInfo where
  lastBlockEnd : Nat
  mpiBlockIdStack : List Block
  userBlockIdStack : List Block
  clusterBlockIdStack : List Block
  flushClusterStack : Bool
  ongoingIprobe : Bool
  ongoingTest : Bool
  iprobeBurstFlushed : Bool
  testBurstFlushed : Bool
  written : List Written

/-- Behind the constructor. The burst in front of the first record is not part of `written`. -/
def TaskTranslationInfo.initial (threadId initialTime : Nat) (generateFirstIdle emptyTask : Bool) :
    TaskTranslationInfo where
  lastBlockEnd :=
    if !emptyTask && (!generateFirstIdle || threadId == 1) then initialTime else 0
  mpiBlockIdStack := []
  userBlockIdStack := []
  clusterBlockIdStack := []
  flushClusterStack := false
  ongoingIprobe := false
  ongoingTest := false
  iprobeBurstFlushed := false
  testBurstFlushed := false
  written := []

namespace TaskTranslationInfo

def write (s : TaskTranslationInfo) (record : Written) : TaskTranslationInfo :=
  { s with written := s.written ++ [record] }

def generateBurst (timeFactor : ℚ) (timestamp : Nat) (s : TaskTranslationInfo) :
    TaskTranslationInfo :=
  s.write (.cpuBurst ((timestamp - s.lastBlockEnd : Nat) * timeFactor))

def setLastBlockEnd (timestamp : Nat) (s : TaskTranslationInfo) : TaskTranslationInfo :=
  { s with lastBlockEnd := timestamp }

def checkIprobeCounters (timeFactor : ℚ) (s : TaskTranslationInfo) (e : Event) :
    TaskTranslationInfo :=
  let s :=
    if e.type = probeSoftCounter ∧ e.value = 0 then
      { (s.generateBurst timeFactor e.timestamp).setLastBlockEnd e.timestamp with
        ongoingIprobe := true }
    else s
  if (e.type = probeSoftCounter ∨ e.type = probeTimeCounter) ∧ e.value ≠ 0 ∧ s.ongoingIprobe then
    let s :=
      -- the time counter is divided by the factor
      if e.type = probeTimeCounter then s.write (.cpuBurst (e.value / timeFactor))
      else s.generateBurst timeFactor e.timestamp
    { s.setLastBlockEnd e.timestamp with
      ongoingIprobe := false
      iprobeBurstFlushed := true }
  else s

def checkTestCounters (timeFactor : ℚ) (s : TaskTranslationInfo) (e : Event) :
    TaskTranslationInfo :=
  let s :=
    if e.type = testSoftCounter ∧ e.value = 0 then
      { (s.generateBurst timeFactor e.timestamp).setLastBlockEnd e.timestamp with
        ongoingTest := true }
    else s
  if e.type = testSoftCounter ∧ e.value ≠ 0 ∧ s.ongoingTest then
    { (s.generateBurst timeFactor e.timestamp).setLastBlockEnd e.timestamp with
      ongoingTest := false
      testBurstFlushed := true }
  else s

def genericEvent (timeFactor : ℚ) (s : TaskTranslationInfo) (e : Event) : TaskTranslationInfo :=
  if isMPIBlock e.type || isUserBlock e.type || isClusterBlock e.type || isCUDABlock e.type ||
      isOCLBlock e.type then s
  else
    let s :=
      if (s.lastBlockEnd ≠ e.timestamp ∨ s.lastBlockEnd = 0 ∧ e.timestamp = 0) ∧
          s.mpiBlockIdStack = [] ∧ e.type ≠ flushingEv ∧ e.type ≠ probeSoftCounter ∧
          e.type ≠ probeTimeCounter then
        (s.generateBurst timeFactor e.timestamp).setLastBlockEnd e.timestamp
      else s
    s.write (.userEvent e.type e.value)

def clusterBlock (timeFactor : ℚ) (s : TaskTranslationInfo) (e : Event) : TaskTranslationInfo :=
  if isClusterBlock e.type then
    if isBlockBegin e.value then
      let s :=
        if s.mpiBlockIdStack = [] then
          { s.write (.blockBegin e.type e.value) with flushClusterStack := false }
        else { s with flushClusterStack := true }
      { s.setLastBlockEnd e.timestamp with
        clusterBlockIdStack := (e.type, e.value) :: s.clusterBlockIdStack }
    else
      match s.clusterBlockIdStack with
      | [] => s
      | _ :: blocks =>
          let s := { s with clusterBlockIdStack := blocks }
          let s :=
            if s.lastBlockEnd < e.timestamp then
              (s.generateBurst timeFactor e.timestamp).setLastBlockEnd e.timestamp
            else s
          s.write (.blockEnd e.type)
  else s

/-- Nothing is known behind the end of an MPI block when a cluster block is to be written, and the
stack is empty. -/
def mpiBlock (timeFactor : ℚ) (s : TaskTranslationInfo) (e : Event) : Option TaskTranslationInfo :=
  if isMPIBlock e.type then
    if isBlockBegin e.value then
      let s := { s with ongoingIprobe := false, ongoingTest := false }
      let s :=
        if ¬ (e.value = mpiIprobeVal ∧ s.iprobeBurstFlushed) ∧
            ¬ (e.value = mpiTestVal ∧ s.testBurstFlushed) ∧ s.lastBlockEnd < e.timestamp then
          s.generateBurst timeFactor e.timestamp
        else s
      let s := { s with iprobeBurstFlushed := false, testBurstFlushed := false }
      let s := s.write (.blockBegin e.type e.value)
      some { s with mpiBlockIdStack := (e.type, e.value) :: s.mpiBlockIdStack }
    else
      match s.mpiBlockIdStack with
      | [] => some s
      | _ :: blocks =>
          let s := { s with mpiBlockIdStack := blocks }
          let s := (s.setLastBlockEnd e.timestamp).write (.blockEnd e.type)
          if s.flushClusterStack then
            match s.clusterBlockIdStack with
            | [] => none
            | (type, value) :: _ =>
                some { s.write (.blockBegin type value) with flushClusterStack := false }
          else some s
  else some s

def userBlock (timeFactor : ℚ) (s : TaskTranslationInfo) (e : Event) : TaskTranslationInfo :=
  if isUserBlock e.type then
    let burst (s : TaskTranslationInfo) :=
      (if s.lastBlockEnd < e.timestamp then s.generateBurst timeFactor e.timestamp
        else s).setLastBlockEnd e.timestamp
    if isBlockBegin e.value then
      let s := burst { s with ongoingIprobe := false, ongoingTest := false }
      let s := s.write (.blockBegin e.type e.value)
      { s with userBlockIdStack := (e.type, e.value) :: s.userBlockIdStack }
    else
      match s.userBlockIdStack with
      | [] => s
      | _ :: blocks => (burst { s with userBlockIdStack := blocks }).write (.blockEnd e.type)
  else s

def toDimemas (timeFactor : ℚ) (s : TaskTranslationInfo) (e : Event) :
    Option TaskTranslationInfo :=
  if isPseudoLogicRecv e.type then some s
  else
    let s := s.checkIprobeCounters timeFactor e
    let s := s.checkTestCounters timeFactor e
    let s := s.genericEvent timeFactor e
    let s := s.clusterBlock timeFactor e
    (s.mpiBlock timeFactor e).map fun s => s.userBlock timeFactor e

end TaskTranslationInfo

end Dimemas.Prv2dim.TaskTranslation
