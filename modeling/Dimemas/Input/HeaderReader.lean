import Dimemas.Library.Lines
import Dimemas.Library.Scanning
import Dimemas.Library.StableQueue
import Mathlib.Algebra.Order.Group.Nat
/-!
# Reading the header of a trace

The header, the definitions and the offsets are read when an application is added. The accelerator
tasks are read from the header by a function of its own.
-/

namespace Dimemas.Input.HeaderReader

open Dimemas.Library.Formats
open Dimemas.Library.Lines
open Dimemas.Library.Scanning
open Dimemas.Library.StableQueue

/-- `struct t_communicator`. -/
structure Communicator where
  communicatorId : Int
  size : Int
  globalRanks : List Int
deriving DecidableEq

structure App where
  appName : List Char
  tasksCount : Int
  threadsCount : List Int
  commsCount : Int
  offsetsOffset : Nat
  comms : List Communicator
  threadsOffsets : List (List Nat)
  threadTraceSizes : List Int

def App.totalThreadsCount (app : App) : Int := app.threadsCount.sum

/-! ## The header -/

/-- `#DIMEMAS:"%[^"]":%[^:]:%s`. -/
def headerFormat : List Conversion :=
  literals ['#', 'D', 'I', 'M', 'E', 'M', 'A', 'S', ':', '"'] ++ .upTo '"' true ::
    .literal '"' :: .literal ':' :: .upTo ':' true :: .literal ':' :: [.word]

/-- `%d,%zu`, or `%d` alone: whether offsets are present, and where. -/
def readOffsetsHint (text : List Char) : Option (Int × Nat) :=
  match scan [.integer .int true, .literal ',', .integer .unsignedLongLong true] text with
  | [.integer present, .integer offset] => some (present, offset.toNat)
  | _ =>
      match scan [.integer .int true] text with
      | [.integer present] => some (present, 0)
      | _ => none

def checkOffsetsHint (hint : Int × Nat) : Bool :=
  if hint.1 = 1 then hint.2 ≠ 0 else if hint.1 = 0 then hint.2 = 0 else false

def initializeApp (appName : List Char) (tasksCount : Int) (threadsCount : List Int)
    (commsCount : Int) (offsetsOffset : Nat) : App where
  appName := appName
  tasksCount := tasksCount
  threadsCount := threadsCount
  commsCount := commsCount
  offsetsOffset := offsetsOffset
  comms := []
  threadsOffsets := []
  threadTraceSizes := []

/-- `DAP_read_header` for the first line. -/
def readHeader (header : List Char) : Option App :=
  match scan headerFormat header with
  | [.text appName, .text offsets, .text ptaskInfo] =>
      (readOffsetsHint offsets).bind fun hint =>
        if checkOffsetsHint hint then
          match scan [.integer .int true, .literal '(', .upTo ')' true, .literal ')', .literal ',',
              .integer .int true] ptaskInfo with
          | [.integer tasksCount, .text threads, .integer commsCount] =>
              let threadsCount := (tokens ',' threads).map atoi
              if threadsCount.length = tasksCount then
                some (initializeApp appName tasksCount threadsCount commsCount hint.2)
              else none
          | _ => none
        else none
  | _ => none

/-! ## The definitions -/

/-- `DAP_read_communicator`. Its result is not checked. -/
def readCommunicator (comms : List Communicator) (fields : List Char) : List Communicator :=
  match scan [.integer .int true, .literal ':', .integer .int true, .literal ':', .word] fields with
  | [.integer commId, .integer tasksCount, .text tasks] =>
      let globalRanks := (tokens ':' tasks).map atoi
      if globalRanks.length = tasksCount then
        insertAfter Communicator.communicatorId ⟨commId, tasksCount, globalRanks⟩ comms
      else comms
  | _ => comms

/-- `DAP_read_definitions`, up to the first record. -/
def readDefinitions : List Communicator → List (List Char) → Option (List Communicator)
  | _, [] => none
  | comms, line :: lines =>
      match scan [.literal 'd', .literal ':', .integer .int true, .literal ':',
          .upTo newline true] line with
      | [.integer objectType, .text fields] =>
          if objectType = 1 then readDefinitions (readCommunicator comms fields) lines
          else if objectType = 2 ∨ objectType = 3 then readDefinitions comms lines
          else none
      | _ => some comms

/-! ## The offsets -/

/-- The sizes of the traces of the threads, which are an array of `total_threads_count` integers. A
place that the array does not have is not written. -/
def storeTraceSize (app : App) (sizes : List Int) (index : Int) (offset : List Char) :
    Option (List Int) :=
  if 0 ≤ index ∧ index < app.totalThreadsCount then
    let size := atoi offset
    let sizes := sizes.set index.toNat size
    let sizes := if 0 < index then
        sizes.set (index.toNat - 1) (size - sizes.getD (index.toNat - 1) 0) else sizes
    let sizes := if index = app.totalThreadsCount - 1 then
        sizes.set index.toNat (app.offsetsOffset - size) else sizes
    some sizes
  else none

/-- The turns of the loop in `DAP_read_offsets`, for the tasks from `currentTask` on. -/
def readTaskOffsets (app : App) : Int → List Int → List Int → List (List Char) →
    Option (List (List Nat) × List Int)
  | _, sizes, [], _ => some ([], sizes)
  | _, _, _ :: _, [] => none
  | currentTask, sizes, threadsCount :: tasks, line :: lines =>
      match scan [.literal 's', .literal ':', .integer .int true, .literal ':',
          .upTo newline true] line with
      | [.integer currentTaskRead, .text offsets] =>
          if currentTaskRead = currentTask then
            match tokens ':' offsets with
            | [] => none
            | first :: others =>
                (storeTraceSize app sizes (threadsCount * currentTask) first).bind fun sizes =>
                  if (others.length : Int) + 1 = threadsCount then
                    (readTaskOffsets app (currentTask + 1) sizes tasks lines).map fun result =>
                      ((first :: others).map strtoul :: result.1, result.2)
                  else none
          else none
      | _ => none

/-- `DAP_read_offsets`. The array of the sizes is not initialised. -/
def readOffsets (app : App) (text : List Char) : Option App :=
  (readTaskOffsets app 0 (List.replicate app.totalThreadsCount.toNat 0) app.threadsCount
    (splitLines newline (text.drop app.offsetsOffset))).map fun result =>
      { app with threadsOffsets := result.1, threadTraceSizes := result.2 }

/-- The calls of `DAP_add_ptask` for a trace whose header has a place for the offsets. -/
def addPtask (text : List Char) : Option App :=
  match splitLines newline text with
  | [] => none
  | header :: lines =>
      (readHeader header).bind fun app =>
        (readDefinitions app.comms lines).bind fun comms =>
          if app.offsetsOffset = 0 then none else readOffsets { app with comms := comms } text

/-! ## The accelerator tasks -/

/-- `(int) strtod` of a token. -/
def readAccTask (token : List Char) : Option Int :=
  (readReal (token.dropWhile isSpace)).map fun (q, _) => q.num.tdiv q.den

def getAccTasks (text : List Char) : Option (List Int) :=
  match splitLines newline text with
  | [] => none
  | header :: _ =>
      match scan (literals ['#', 'D', 'I', 'M', 'E', 'M', 'A', 'S', ':', '"'] ++
          [.upTo '"' false, .literal '"', .literal ':', .upTo ':' false, .literal ':',
            .integer .int false, .literal '(', .upTo ')' false, .literal ')', .literal ',',
            .integer .int false, .literal ',', .integer .int true, .literal '(',
            .upTo ')' true]) header with
      | [.integer count, .text tasks] =>
          if count ≤ 0 then none
          else
            let tasksList := tasks.splitOn ','
            if tasksList.length = count then tasksList.mapM readAccTask else none
      | [.integer count] => if count = 0 then some [] else none
      | _ => some []

end Dimemas.Input.HeaderReader
