import Dimemas.Library.Grouping
import Dimemas.PrvUtils.ExternalSort
import Mathlib.Algebra.Order.Field.Rat
/-!
# The Paraver trace of a simulation

The calls that write states, communications and events, within the window of the trace. The events
of one object at one time are collapsed into one record, which is given to the external sort when an
event of another group comes.
-/

namespace Dimemas.PrvUtils.Paraver

open Dimemas.Library.Formats
open Dimemas.Library.Grouping
open Dimemas.PrvUtils.ParaverRecords
open Dimemas.PrvUtils.ExternalSort

structure Object where
  cpu : Int32
  ptask : Int32
  task : Int32
  thread : Int32
deriving DecidableEq

/-- `TIMER_TO_PRV_TIME_T` of a time that is not negative: halves are rounded up. -/
def toPrvTime (time : ℚ) : UInt64 :=
  UInt64.ofNat ((2 * time.num.natAbs + time.den) / (2 * time.den))

def idleEventType : UInt64 := 0
def prioritySetEvent : UInt64 := 6999
def preemptionSetEvent : UInt64 := 6998
def prvRunningSt : Int := 1

def joined (first : Int) (rest : List Int) : List Char :=
  decimal first ++ rest.flatMap fun i => ':' :: decimal i

theorem not_space_of_mem_joined {c : Char} {first : Int} {rest : List Int}
    (h : c ∈ joined first rest) : isSpace c = false := by
  rcases List.mem_append.mp h with h | h
  · exact not_space_of_mem_decimal first h
  · obtain ⟨i, -, h⟩ := List.mem_flatMap.mp h
    rcases List.mem_cons.mp h with rfl | h
    · rfl
    · exact not_space_of_mem_decimal i h

def joinedWord (first : Int) (rest : List Int) : Word where
  text := joined first rest
  ne_nil := List.append_ne_nil_of_left_ne_nil (decimal_ne_nil first) _
  noSpace _ := not_space_of_mem_joined

/-! ## Events -/

structure EventCollapser where
  object : Object
  timestamp : UInt64
  events : List (UInt64 × UInt64)

def EventCollapser.isLastEvent (c : EventCollapser) (object : Object) (timestamp : UInt64) : Bool :=
  c.object = object && c.timestamp = timestamp

def EventCollapser.addEvent (c : EventCollapser) (type value : UInt64) : EventCollapser :=
  { c with events := c.events ++ [(type, value)] }

/-- `reset` of the collapser. -/
def emptied (object : Object) (timestamp : UInt64) : EventCollapser := ⟨object, timestamp, []⟩

/-- `toString`, when the collapser is not void. -/
def eventText : List (UInt64 × UInt64) → Option Word
  | [] => none
  | (type, value) :: events =>
      some (joinedWord type.toNat (value.toNat ::
        events.flatMap fun e => [(e.1.toNat : Int), (e.2.toNat : Int)]))

def record (type : Int32) (object : Object) (timestamp : UInt64) (asciiRecord : Word) :
    SimpleParaverRecord :=
  ⟨type, object.cpu, object.ptask, object.task, object.thread, timestamp, asciiRecord⟩

def EventCollapser.flush (c : EventCollapser) : List SimpleParaverRecord :=
  match eventText c.events with
  | none => []
  | some text => [record prvEvent c.object c.timestamp text]

def EventCollapser.newEvent (c : EventCollapser) (object : Object) (timestamp type value : UInt64) :
    EventCollapser × List SimpleParaverRecord :=
  if c.isLastEvent object timestamp then (c.addEvent type value, [])
  else ((emptied object timestamp).addEvent type value, c.flush)

/-! ## The window -/

/-- `paraver_initial_timer` and `paraver_final_timer` with their times, and `generar_paraver`. -/
structure Settings where
  generarParaver : Bool
  paraverInitialTimer : Bool
  startParaver : ℚ
  paraverFinalTimer : Bool
  stopParaver : ℚ

def Settings.eventTime (s : Settings) (time : ℚ) : Option ℚ :=
  if s.paraverFinalTimer ∧ s.stopParaver < time then none
  else if s.paraverInitialTimer then
    if time < s.startParaver then none else some (time - s.startParaver)
  else some time

def Settings.stateTimes (s : Settings) (initTime endTime : ℚ) : Option (ℚ × ℚ) :=
  if s.paraverFinalTimer ∧ s.stopParaver < initTime then none
  else
    let endTime := if s.paraverFinalTimer ∧ s.stopParaver < endTime then s.stopParaver else endTime
    if s.paraverInitialTimer then
      if initTime < s.startParaver ∧ endTime < s.startParaver then none
      else
        let initTime := if initTime < s.startParaver then s.startParaver else initTime
        some (initTime - s.startParaver, endTime - s.startParaver)
    else some (initTime, endTime)

def Settings.commTimes (s : Settings) (send recv : ℚ) : Option (ℚ × ℚ) :=
  if s.paraverFinalTimer ∧ s.stopParaver < send then none
  else
    let recv := if s.paraverFinalTimer ∧ s.stopParaver < recv then s.stopParaver else recv
    if s.paraverInitialTimer then
      if send < s.startParaver ∧ recv < s.startParaver then none
      else
        let send := if send < s.startParaver then s.startParaver else send
        let recv := if recv < s.startParaver then s.startParaver else recv
        some (send - s.startParaver, recv - s.startParaver)
    else some (send, recv)

/-! ## The calls -/

inductive Call
  | event (object : Object) (time : ℚ) (type value : UInt64)
  | startOp (object : Object) (time : ℚ)
  | state (object : Object) (initTime endTime : ℚ) (state : Int)
  | comm (sender : Object) (logS phyS : ℚ) (receiver : Object) (logR phyR : ℚ) (size tag : Int32)

def Settings.newState (s : Settings) (object : Object) (initTime endTime : ℚ) (state : Int) :
    List SimpleParaverRecord :=
  match s.stateTimes initTime endTime with
  | none => []
  | some (initTime, endTime) =>
      let stateType := if state = prvRunningSt then prvStateRun else prvState
      [record stateType object (toPrvTime initTime)
        (joinedWord (toPrvTime endTime).toNat [state])]

def Settings.p2pComm (s : Settings) (sender : Object) (logS phyS : ℚ) (receiver : Object)
    (logR phyR : ℚ) (size tag : Int32) : List SimpleParaverRecord :=
  match s.commTimes logS logR, s.commTimes phyS phyR with
  | some (logS, logR), some (phyS, phyR) =>
      [record prvComm sender (toPrvTime logS) (joinedWord (toPrvTime phyS).toNat
        [receiver.cpu.toInt, receiver.ptask.toInt + 1, receiver.task.toInt + 1,
          receiver.thread.toInt + 1, (toPrvTime logR).toNat, (toPrvTime phyR).toNat,
          size.toInt, tag.toInt])]
  | _, _ => []

def isInternal (type : UInt64) : Bool :=
  type = idleEventType || type = prioritySetEvent || type = preemptionSetEvent

def Settings.paraverEvent (s : Settings) (c : EventCollapser) (object : Object) (time : ℚ)
    (type value : UInt64) : EventCollapser × List SimpleParaverRecord :=
  if isInternal type then (c, [])
  else
    match s.eventTime time with
    | none => (c, [])
    | some time => c.newEvent object (toPrvTime time) type value

def Settings.startOp (s : Settings) (c : EventCollapser) (object : Object) (time : ℚ) :
    EventCollapser × List SimpleParaverRecord :=
  match s.eventTime time with
  | none => (c, [])
  | some time =>
      if c.isLastEvent object (toPrvTime time) then (emptied object (toPrvTime time), c.flush)
      else (c, [])

def Settings.output (s : Settings) (c : EventCollapser) : Call →
    EventCollapser × List SimpleParaverRecord
  | .event object time type value => s.paraverEvent c object time type value
  | .startOp object time => s.startOp c object time
  | .state object initTime endTime state => (c, s.newState object initTime endTime state)
  | .comm sender logS phyS receiver logR phyR size tag =>
      (c, s.p2pComm sender logS phyS receiver logR phyR size tag)

structure State where
  settings : Settings
  collapser : EventCollapser
  traceMerger : ExternalSort

/-- The arguments of `PARAVER_Init` that the records depend on. -/
structure Arguments where
  outputTrace : Bool
  startTime : ℚ
  endTime : ℚ

def Settings.init (s : Settings) (args : Arguments) : Settings :=
  let s := if 0 < args.startTime then
      { s with paraverInitialTimer := true, startParaver := args.startTime }
    else { s with startParaver := 0 }
  if 0 < args.endTime then { s with paraverFinalTimer := true, stopParaver := args.endTime } else s

/-- `PARAVER_Init`, which gives up for an empty window. -/
def State.init (p : State) (args : Arguments) : Option State :=
  let settings := { p.settings with
    generarParaver := args.outputTrace || p.settings.generarParaver }
  if settings.generarParaver then
    let settings := settings.init args
    if settings.paraverInitialTimer ∧ settings.paraverFinalTimer ∧
        settings.stopParaver ≤ settings.startParaver then none
    else some { p with settings := settings, traceMerger := ExternalSort.init p.traceMerger.files }
  else some p

variable (stableSort : List SimpleParaverRecord → List SimpleParaverRecord)

def State.newRecords (p : State) (rs : List SimpleParaverRecord) : State :=
  let newRecord := ExternalSort.newRecord maxInFlightRecords stableSort
  { p with traceMerger := rs.foldl newRecord p.traceMerger }

def State.call (p : State) (call : Call) : State :=
  if p.settings.generarParaver then
    let (collapser, rs) := p.settings.output p.collapser call
    { p.newRecords stableSort rs with collapser := collapser }
  else p

/-- `PARAVER_End`. When nothing is printed, it closes the temporary files that are open. -/
def State.finish (p : State) (print : Bool) : State × Option (List (List Char)) :=
  if print && p.settings.generarParaver then
    let p := p.newRecords stableSort p.collapser.flush
    (p, p.traceMerger.generateFinalTrace maxInFlightRecords stableSort)
  else (p, none)

end Dimemas.PrvUtils.Paraver
