import Dimemas.Sched.Dispatch
/-!
# The events of the scheduler

The parts of `SCHEDULER_general` for the event of a thread, and the busy wait of a thread that
cannot go on. What an operation of the thread does is left to the modules that execute it.
-/

namespace Dimemas.Sched.General

open Dimemas.Sched.Threads
open Dimemas.Sched.Dispatch

/-- How `SCH_TIMER_OUT` goes on: the thread runs behind its context switch, it blocks behind a busy
wait, or its next action follows. -/
inductive TimeOut
  | runs
  | blocks
  | nextOp
deriving DecidableEq, Repr

/-- `SCH_TIMER_OUT` up to `next_op`. The event left its queue, and `to_be_preempted` is never
set. -/
def timerOut (sched : Scheduler) (now : ℚ) (t : Nat) (node : Node) : Option (Node × TimeOut) :=
  let th := { node.threads t with event := none }
  let node := node.release th.cpu
  if th.doingContextSwitch then
    (getExecutionTime sched { th with doingContextSwitch := false }).map fun (ti, th) =>
      let th := { th with minTimeToBePreempted := minimumQuantum + now }
      ((node.resume th.cpu t).setThread t (th.timer (now + ti)), .runs)
  else if th.doingBusyWait then
    some (node.setThread t { th with doingBusyWait := false }, .blocks)
  else some (node.setThread t th, .nextOp)

def threadToBusyWait (sched : Scheduler) (now : ℚ) (t : Nat) (node : Node) : Node :=
  let th := { node.threads t with doingBusyWait := true, minTimeToBePreempted := now }
  (node.resume th.cpu t).setThread t (th.timer (now + sched.contextSwitch))

/-- `modify_priority`, which only SS_MPI_CP has. -/
def modifyPriority (sched : Scheduler) (priority : ℚ) (th : Thread) : Thread :=
  match sched.policy with
  | .ssMpiCp => { th with priority := priority }
  | _ => th

/-- `modify_preemption`, which only SS_MPI_CP has. -/
def modifyPreemption (sched : Scheduler) (preemption : ℚ) (th : Thread) : Thread :=
  match sched.policy with
  | .ssMpiCp => { th with forcesPreemption := preemption }
  | _ => th

def treatEvent (sched : Scheduler) (type : EventType) (value : Nat) (th : Thread) : Thread :=
  match type with
  | .prioritySet =>
      if value = 0 then modifyPreemption sched 1 (modifyPriority sched 0 th)
      else modifyPriority sched (1 / value) th
  | .taskId => { th with sstaskId := value }
  | .taskType => { th with sstaskType := value }
  | .user => th

def endAction (sched : Scheduler) (th : Thread) : Option Thread :=
  match th.action with
  | .event type value :: rest => some { treatEvent sched type value th with action := rest }
  | .noop :: rest => some { th with action := rest }
  | .operation _ :: rest => some { th with action := rest }
  | .work _ :: _ => none
  | [] => none

/-- Two threads are the same for the processors and the events of their node. -/
structure SameRun (th th' : Thread) : Prop where
  cpu : th'.cpu = th.cpu
  event : th'.event = th.event
  contextSwitch : th'.doingContextSwitch = th.doingContextSwitch
  busyWait : th'.doingBusyWait = th.doingBusyWait
  minTime : th'.minTimeToBePreempted = th.minTimeToBePreempted
  timer : th'.nextEventTimer = th.nextEventTimer

section

variable {sched : Scheduler} {now : ℚ} {t : Nat} {node node' : Node} {th th' : Thread}

theorem SameRun.refl (th : Thread) : SameRun th th := ⟨rfl, rfl, rfl, rfl, rfl, rfl⟩

theorem SameRun.trans {th'' : Thread} (h : SameRun th th') (h' : SameRun th' th'') :
    SameRun th th'' where
  cpu := h'.cpu.trans h.cpu
  event := h'.event.trans h.event
  contextSwitch := h'.contextSwitch.trans h.contextSwitch
  busyWait := h'.busyWait.trans h.busyWait
  minTime := h'.minTime.trans h.minTime
  timer := h'.timer.trans h.timer

theorem sameRun_modifyPriority (sched : Scheduler) (priority : ℚ) (th : Thread) :
    SameRun th (modifyPriority sched priority th) := by
  unfold modifyPriority
  constructor <;> split <;> rfl

theorem sameRun_modifyPreemption (sched : Scheduler) (preemption : ℚ) (th : Thread) :
    SameRun th (modifyPreemption sched preemption th) := by
  unfold modifyPreemption
  constructor <;> split <;> rfl

theorem sameRun_treatEvent (sched : Scheduler) (type : EventType) (value : Nat) (th : Thread) :
    SameRun th (treatEvent sched type value th) := by
  unfold treatEvent
  cases type with
  | prioritySet =>
      simp only
      split
      · apply (sameRun_modifyPriority sched 0 th).trans
        exact sameRun_modifyPreemption sched 1 _
      · exact sameRun_modifyPriority sched _ th
  | taskId => constructor <;> rfl
  | taskType => constructor <;> rfl
  | user => constructor <;> rfl

theorem endAction_spec (h : endAction sched th = some th') :
    SameRun th th' ∧ pendingWork th'.action = pendingWork th.action := by
  unfold endAction at h
  split at h
  · next type value rest hact =>
      obtain rfl := Option.some.inj h
      have hsame := sameRun_treatEvent sched type value th
      constructor
      · exact ⟨hsame.cpu, hsame.event, hsame.contextSwitch, hsame.busyWait, hsame.minTime,
          hsame.timer⟩
      · rw [hact, pendingWork_event]
  · next rest hact =>
      obtain rfl := Option.some.inj h
      rw [hact, pendingWork_noop]
      exact ⟨by constructor <;> rfl, rfl⟩
  · next ident rest hact =>
      obtain rfl := Option.some.inj h
      rw [hact, pendingWork_operation]
      exact ⟨by constructor <;> rfl, rfl⟩
  · cases h
  · cases h

/-- What `SCH_TIMER_OUT` does up to `next_op`. -/
inductive TimerOutCase (sched : Scheduler) (now : ℚ) (t : Nat) (node : Node) :
    Node → TimeOut → Prop
  | runs {ti : ℚ} {th' : Thread} (hswitch : (node.threads t).doingContextSwitch = true)
      (hgives : Gives { node.threads t with event := none, doingContextSwitch := false } ti th') :
      TimerOutCase sched now t node
        (((node.release (node.threads t).cpu).resume th'.cpu t).setThread t
          (Thread.timer { th' with minTimeToBePreempted := minimumQuantum + now } (now + ti)))
        .runs
  | blocks (hswitch : (node.threads t).doingContextSwitch = false)
      (hbusy : (node.threads t).doingBusyWait = true) :
      TimerOutCase sched now t node
        ((node.release (node.threads t).cpu).setThread t
          { node.threads t with event := none, doingBusyWait := false }) .blocks
  | nextOp (hswitch : (node.threads t).doingContextSwitch = false)
      (hbusy : (node.threads t).doingBusyWait = false) :
      TimerOutCase sched now t node
        ((node.release (node.threads t).cpu).setThread t { node.threads t with event := none })
        .nextOp

theorem timerOut_cases {next : TimeOut} (h : timerOut sched now t node = some (node', next)) :
    TimerOutCase sched now t node node' next := by
  unfold timerOut at h
  simp only at h
  split at h
  · next hswitch =>
      obtain ⟨⟨ti, th'⟩, hget, hpair⟩ := Option.map_eq_some_iff.mp h
      obtain ⟨rfl, rfl⟩ := Prod.mk.inj hpair
      exact .runs hswitch (gives_getExecutionTime hget)
  · next hswitch =>
      have hswitch : (node.threads t).doingContextSwitch = false := by simpa using hswitch
      split at h
      · next hbusy =>
          obtain ⟨rfl, rfl⟩ := Prod.mk.inj (Option.some.inj h)
          exact .blocks hswitch hbusy
      · next hbusy =>
          obtain ⟨rfl, rfl⟩ := Prod.mk.inj (Option.some.inj h)
          exact .nextOp hswitch (by simpa using hbusy)

end

end Dimemas.Sched.General
