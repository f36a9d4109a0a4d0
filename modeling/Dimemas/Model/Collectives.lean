import Dimemas.Library.StableQueue
import Mathlib.Logic.Function.Basic
/-!
# Non blocking collective operations

The part of `GLOBAL_operation` and of `SCHEDULER_general` that groups the non blocking
collective operations of the tasks: every operation is given the next index of its
thread and joins the first queue of its communicator with that index.
-/

namespace Dimemas.Model.Collectives

open Dimemas.Library.StableQueue

/-- The actions of a thread. `SCHEDULER_general` goes on behind a NOOP or an EVENT at once, and
behind all `other` actions in an event of its own. -/
inductive Action
  | event
  | globalOp (commId : Nat)
  | other
deriving DecidableEq, Repr

/-- The communicators with their tasks, the results of `compute_startup` for a task and a
communicator, and the actions of every task, which only uses communicators that it is in. -/
structure Ptask where
  communicator : Nat → List Nat
  startup : Nat → Nat → Nat
  actions : Nat → List Action
  nodup : ∀ commId, (communicator commId).Nodup
  valid : ∀ task commId, .globalOp commId ∈ actions task → task ∈ communicator commId

/-- A copy of a thread in a non blocking operation, the `nth` of its task on the communicator. -/
structure CopyThread where
  task : Nat
  commId : Nat
  nth : Nat
  nbGlobIndex : Nat
deriving DecidableEq, Repr

structure Thread where
  actions : List Action
  doingStartup : Bool
  startupDone : Bool
  nbGlobIndexMaster : Nat
  /-- How many non blocking operations it has issued on each communicator. -/
  issued : Nat → Nat

/-- A queue in memory is known by its address. `nonblockGlobalOpThreads` are the queues of
queues of the communicators, by index. `joined` records which queue a copy was put into,
`initiated` the copies that an operation was started with, and `inFlight` the communicator and
index of the operations that have not been closed. -/
structure GlopState where
  thread : Nat → Thread
  nonblockGlobalOpThreads : Nat → List (Nat × Nat)
  threadsQueue : Nat → List CopyThread
  malloc : Nat
  joined : List (CopyThread × Nat)
  initiated : List (Nat × List CopyThread)
  inFlight : List (Nat × Nat)

variable (P : Ptask)

def GlopState.init : GlopState where
  thread t := ⟨P.actions t, false, false, 0, fun _ => 0⟩
  nonblockGlobalOpThreads _ := []
  threadsQueue _ := []
  malloc := 0
  joined := []
  initiated := []
  inFlight := []

def GlopState.setThread (s : GlopState) (t : Nat) (thread : Thread) : GlopState :=
  { s with thread := Function.update s.thread t thread }

/-- `query_prio_queue` in the queues of a communicator. -/
def GlopState.queryPrioQueue (s : GlopState) (commId index : Nat) : Option Nat :=
  ((s.nonblockGlobalOpThreads commId).find? fun x => x.1 = index).map Prod.snd

/-- `insert_queue` of a new queue in the queues of a communicator. -/
def GlopState.insertNewQueue (s : GlopState) (commId index : Nat) : GlopState :=
  { s with
    nonblockGlobalOpThreads := Function.update s.nonblockGlobalOpThreads commId
      (insertAfter Prod.fst (index, s.malloc) (s.nonblockGlobalOpThreads commId))
    threadsQueue := Function.update s.threadsQueue s.malloc []
    malloc := s.malloc + 1 }

/-- A copy joins the queue of its index. The operation starts with the last task of the
communicator. -/
def blockOrInitiate (s : GlopState) (copy : CopyThread) : Option GlopState := do
  let threadsQueue ← s.queryPrioQueue copy.commId copy.nbGlobIndex
  let threads := s.threadsQueue threadsQueue ++ [copy]
  let s := { s with
    threadsQueue := Function.update s.threadsQueue threadsQueue threads
    joined := s.joined ++ [(copy, threadsQueue)] }
  if (P.communicator copy.commId).length ≠ threads.length then some s
  else
    some { s with
      initiated := s.initiated ++ [(copy.commId, threads)]
      inFlight := s.inFlight ++ [(copy.commId, copy.nbGlobIndex)] }

/-- `GLOBAL_operation` behind the call of `SCHEDULER_general` for the original thread. -/
def handOutIndex (s : GlopState) (t commId nth : Nat) : Option GlopState :=
  let thread := s.thread t
  let copy : CopyThread := ⟨t, commId, nth, thread.nbGlobIndexMaster⟩
  let s := s.setThread t { thread with nbGlobIndexMaster := thread.nbGlobIndexMaster + 1 }
  blockOrInitiate P (s.insertNewQueue commId copy.nbGlobIndex) copy

/-- `SCHEDULER_general` from `next_op` on, for a thread with these actions. A GLOBAL_OP whose
startup is done calls it again for the actions behind it. -/
def nextOp (t : Nat) : List Action → GlopState → Option GlopState
  | [], s => some (s.setThread t { s.thread t with actions := [] })
  | .event :: rest, s => nextOp t rest s
  | .other :: rest, s => some (s.setThread t { s.thread t with actions := rest })
  | .globalOp commId :: rest, s =>
      let thread := s.thread t
      if t ∉ P.communicator commId then none
      else if thread.startupDone = false ∧ P.startup t commId ≠ 0 then
        some (s.setThread t
          { thread with actions := .globalOp commId :: rest, doingStartup := true })
      else do
        let nth := thread.issued commId
        let s ← nextOp t rest (s.setThread t { thread with
          startupDone := false
          issued := Function.update thread.issued commId (nth + 1) })
        handOutIndex P s t commId nth

/-- `SCHEDULER_general` when the timer of the thread is out. -/
def schTimerOut (s : GlopState) (t : Nat) : Option GlopState :=
  let thread := s.thread t
  if thread.doingStartup then
    nextOp P t thread.actions
      (s.setThread t { thread with startupDone := true, doingStartup := false })
  else nextOp P t thread.actions s

def closeGlobalNonblockCommunication (s : GlopState) (commId index : Nat) : Option GlopState := do
  let nbGlobThreads ← s.queryPrioQueue commId index
  if (s.threadsQueue nbGlobThreads).length = (P.communicator commId).length then
    some { s with
      threadsQueue := Function.update s.threadsQueue nbGlobThreads []
      nonblockGlobalOpThreads := Function.update s.nonblockGlobalOpThreads commId
        ((s.nonblockGlobalOpThreads commId).eraseP fun x => x.2 = nbGlobThreads)
      inFlight := s.inFlight.erase (commId, index) }
  else none

inductive GlopLabel
  | timerOut (t : Nat)
  | close (commId index : Nat)
deriving DecidableEq, Repr

/-- The timer of a thread is out, or an operation in flight ends. -/
def glopNext (s : GlopState) : GlopLabel → Option GlopState
  | .timerOut t => schTimerOut P s t
  | .close commId index =>
      if (commId, index) ∈ s.inFlight then closeGlobalNonblockCommunication P s commId index
      else none

end Dimemas.Model.Collectives
