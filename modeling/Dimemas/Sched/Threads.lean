import Dimemas.Library.StableQueue
import Mathlib.Algebra.Field.Rat
import Mathlib.Algebra.Order.Ring.Rat
import Mathlib.Tactic.Ring
/-!
# Threads, processors and ready queues

The data of the scheduler, the insertions of `list.c` that it uses for the ready queue of a node,
and the time that each policy gives to a thread. Times and priorities are rational numbers here.
The nodes have no accelerators: no processor is a GPU, and no thread is a kernel.
-/

namespace Dimemas.Sched.Threads

open Dimemas.Library.StableQueue

/-- The scheduling policies of `SCH`. -/
inductive Policy
  | fifo
  | rr
  | prioFifo
  | svr4
  | boost
  | ssMpiCp
deriving DecidableEq, Repr

/-- `machine->scheduler`. A context switch of 0 is `NO_CONTEXT_SWITCH`, the policies read no cost
below it, and `quantumFactor` is the parameter of UNIX_SVR4. -/
structure Scheduler where
  policy : Policy
  priorityPreemptive : Bool
  lostCpuOnSend : Bool
  contextSwitch : ℚ
  quantum : ℚ
  quantumFactor : ℚ
  contextSwitch_nonneg : 0 ≤ contextSwitch
deriving DecidableEq, Repr

theorem noContextSwitch_nonneg : (0 : ℚ) ≤ 0 := le_refl 0

/-- `machine->scheduler.minimum_quantum`, which is set when a machine is created and never again. -/
def minimumQuantum : ℚ := 0

/-- The events that the scheduler looks at: `PRIORITY_SET_EVENT`,
`USER_EVENT_TYPE_TASKID_START_TASK` and `USER_EVENT_TYPE_TASKTYPE_START_TASK`. -/
inductive EventType
  | prioritySet
  | taskId
  | taskType
  | user
deriving DecidableEq, Repr

/-- An action of a thread. The scheduler leaves an operation to another module. -/
inductive Action
  | work (cpuTime : ℚ)
  | event (type : EventType) (value : Nat)
  | noop
  | operation (ident : Nat)
deriving DecidableEq, Repr

/-- The fields of `struct t_thread` that the scheduler reads and writes, with the parameters of all
policies. `event` is the time of its event of `M_SCH`. -/
structure Thread where
  action : List Action
  looseCpu : Bool
  doingContextSwitch : Bool
  doingBusyWait : Bool
  minTimeToBePreempted : ℚ
  nextEventTimer : ℚ
  event : Option ℚ
  cpu : Nat
  sstaskId : Nat
  sstaskType : Nat
  priority : ℚ
  forcesPreemption : ℚ
  lastQuantum : ℚ
  tsUmdpri : Nat
  fullQuantum : Bool
deriving DecidableEq, Repr

/-- `struct t_cpu`. -/
structure Cpu where
  currentThread : Option Nat
  currentThreadContext : Option Nat
deriving DecidableEq, Repr

/-- A node with its processors and its ready queue. An item of the queue has a priority. -/
structure Node where
  threads : Nat → Thread
  cpus : List Cpu
  ready : List (ℚ × Nat)

def Node.setThread (node : Node) (t : Nat) (th : Thread) : Node :=
  { node with threads := Function.update node.threads t th }

@[simp] theorem Node.setThread_self (node : Node) (t : Nat) (th : Thread) :
    (node.setThread t th).threads t = th := Function.update_self ..

theorem Node.setThread_of_ne {t t' : Nat} (h : t' ≠ t) (node : Node) (th : Thread) :
    (node.setThread t th).threads t' = node.threads t' := Function.update_of_ne h ..

@[simp] theorem Node.setThread_setThread (node : Node) (t : Nat) (th th' : Thread) :
    (node.setThread t th).setThread t th' = node.setThread t th' := by
  unfold Node.setThread
  rw [Function.update_idem]

@[simp] theorem Node.setThread_threads (node : Node) (t : Nat) :
    node.setThread t (node.threads t) = node := by
  unfold Node.setThread
  rw [Function.update_eq_self]

@[simp] theorem Node.setThread_cpus (node : Node) (t : Nat) (th : Thread) :
    (node.setThread t th).cpus = node.cpus := rfl

@[simp] theorem Node.setThread_ready (node : Node) (t : Nat) (th : Thread) :
    (node.setThread t th).ready = node.ready := rfl

/-- `EVENT_timer` for a thread and `M_SCH`. -/
def Thread.timer (th : Thread) (when : ℚ) : Thread :=
  { th with event := some when, looseCpu := true, nextEventTimer := when }

def Node.occupy (node : Node) (i t : Nat) : Node :=
  { node with cpus := node.cpus.modify i fun _ => ⟨some t, some t⟩ }

/-- A thread goes on with the processor that it just left. -/
def Node.resume (node : Node) (i t : Nat) : Node :=
  { node with cpus := node.cpus.modify i fun c => { c with currentThread := some t } }

/-- A processor gets free. It keeps its context. -/
def Node.release (node : Node) (i : Nat) : Node :=
  { node with cpus := node.cpus.modify i fun c => { c with currentThread := none } }

@[simp] theorem Node.occupy_threads (node : Node) (i t : Nat) :
    (node.occupy i t).threads = node.threads := rfl

@[simp] theorem Node.occupy_ready (node : Node) (i t : Nat) :
    (node.occupy i t).ready = node.ready := rfl

@[simp] theorem Node.resume_threads (node : Node) (i t : Nat) :
    (node.resume i t).threads = node.threads := rfl

@[simp] theorem Node.resume_ready (node : Node) (i t : Nat) :
    (node.resume i t).ready = node.ready := rfl

@[simp] theorem Node.release_threads (node : Node) (i : Nat) :
    (node.release i).threads = node.threads := rfl

@[simp] theorem Node.release_ready (node : Node) (i : Nat) :
    (node.release i).ready = node.ready := rfl

def Node.at (node : Node) (i : Nat) : Option Nat := node.cpus[i]?.bind Cpu.currentThread

theorem Node.at_occupy {node : Node} {i : Nat} (hi : i < node.cpus.length) (t j : Nat) :
    (node.occupy i t).at j = if j = i then some t else node.at j := by
  unfold Node.at Node.occupy
  rw [List.getElem?_modify]
  by_cases hj : j = i
  · subst hj
    simp [hi]
  · simp [hj, Ne.symm hj]

theorem Node.at_resume {node : Node} {i : Nat} (hi : i < node.cpus.length) (t j : Nat) :
    (node.resume i t).at j = if j = i then some t else node.at j := by
  unfold Node.at Node.resume
  rw [List.getElem?_modify]
  by_cases hj : j = i
  · subst hj
    simp [hi]
  · simp [hj, Ne.symm hj]

theorem Node.at_release (node : Node) (i j : Nat) :
    (node.release i).at j = if j = i then none else node.at j := by
  unfold Node.at Node.release
  rw [List.getElem?_modify]
  by_cases hj : j = i
  · subst hj
    cases node.cpus[j]? <;> simp
  · simp [hj, Ne.symm hj]

theorem Node.release_of_free {node : Node} {i : Nat} (h : node.at i = none) :
    node.release i = node := by
  have hcpus : node.cpus.modify i (fun c => { c with currentThread := none }) = node.cpus := by
    apply List.ext_getElem?
    intro j
    by_cases hj : i = j
    · subst hj
      rw [List.getElem?_modify_eq]
      cases hc : node.cpus[i]? with
      | none => rfl
      | some c =>
          have hfree : c.currentThread = none := by rwa [Node.at, hc, Option.bind_some] at h
          rw [← hfree]
          rfl
    · rw [List.getElem?_modify_ne _ _ hj]
  rw [Node.release, hcpus]

@[simp] theorem Node.at_setThread (node : Node) (t : Nat) (th : Thread) (j : Nat) :
    (node.setThread t th).at j = node.at j := rfl

def Node.running (node : Node) : List Nat := node.cpus.filterMap Cpu.currentThread

theorem Node.mem_running {node : Node} {t : Nat} :
    t ∈ node.running ↔ ∃ i, node.at i = some t := by
  unfold Node.running Node.at
  rw [List.mem_filterMap]
  constructor
  · intro ⟨c, hmem, hc⟩
    obtain ⟨i, hi⟩ := List.mem_iff_getElem?.mp hmem
    exact ⟨i, by rw [hi, Option.bind_some, hc]⟩
  · intro ⟨i, hi⟩
    obtain ⟨c, hmem, hc⟩ := Option.bind_eq_some_iff.mp hi
    exact ⟨c, List.mem_of_getElem? hmem, hc⟩

theorem Node.lt_of_at {node : Node} {i t : Nat} (h : node.at i = some t) :
    i < node.cpus.length := by
  by_contra hge
  rw [Node.at, List.getElem?_eq_none (not_lt.mp hge)] at h
  cases h

/-! ## Queues of `list.c` -/

/-- `inFIFO_queue`. The item has no priority. -/
def inFifoQueue (q : List (ℚ × Nat)) (t : Nat) : List (ℚ × Nat) := q ++ [(0, t)]

def inLifoQueue (q : List (ℚ × Nat)) (t : Nat) : List (ℚ × Nat) := (0, t) :: q

/-- `insert_queue`: behind the items of the same priority. -/
def insertQueue (q : List (ℚ × Nat)) (t : Nat) (prio : ℚ) : List (ℚ × Nat) :=
  insertAfter Prod.fst (prio, t) q

/-- `insert_first_queue`: in front of the items of the same priority. -/
def insertFirstQueue (q : List (ℚ × Nat)) (t : Nat) (prio : ℚ) : List (ℚ × Nat) :=
  (q.takeWhile fun x => x.1 < prio) ++ (prio, t) :: q.dropWhile fun x => x.1 < prio

def insertQueueFromBack (q : List (ℚ × Nat)) (t : Nat) (prio : ℚ) : List (ℚ × Nat) :=
  (q.reverse.dropWhile fun x => prio < x.1).reverse ++
    (prio, t) :: (q.reverse.takeWhile fun x => prio < x.1).reverse

section

variable {q : List (ℚ × Nat)} {t : Nat} {prio : ℚ}

theorem perm_insertQueue : (insertQueue q t prio).Perm ((prio, t) :: q) := by
  unfold insertQueue insertAfter
  have hsplit := List.takeWhile_append_dropWhile
    (p := fun y : ℚ × Nat => decide (y.1 ≤ (prio, t).1)) (l := q)
  conv_rhs => rw [← hsplit]
  exact List.perm_middle

theorem perm_insertFirstQueue : (insertFirstQueue q t prio).Perm ((prio, t) :: q) := by
  unfold insertFirstQueue
  have hsplit := List.takeWhile_append_dropWhile (p := fun x : ℚ × Nat => decide (x.1 < prio))
    (l := q)
  conv_rhs => rw [← hsplit]
  exact List.perm_middle

theorem perm_insertQueueFromBack : (insertQueueFromBack q t prio).Perm ((prio, t) :: q) := by
  unfold insertQueueFromBack
  have hsplit := List.takeWhile_append_dropWhile (p := fun x : ℚ × Nat => decide (prio < x.1))
    (l := q.reverse)
  have hq : (q.reverse.dropWhile fun x => decide (prio < x.1)).reverse ++
      (q.reverse.takeWhile fun x => decide (prio < x.1)).reverse = q := by
    rw [← List.reverse_append, hsplit, List.reverse_reverse]
  conv_rhs => rw [← hq]
  exact List.perm_middle

end

/-! ## The execution time of a policy -/

def spendBurst (exTime : ℚ) : List Action → List Action
  | .work d :: rest => if d - exTime = 0 then rest else .work (d - exTime) :: rest
  | as => as

def wholeBurst (th : Thread) : Option (ℚ × Thread) :=
  match th.action with
  | .work d :: rest => some (d, { th with action := rest })
  | _ => none

/-- At most a quantum is given to the thread, or the rest of one if it did not loose its
processor. -/
def quantumBurst (quantum : ℚ) (th : Thread) : Option (ℚ × Thread) :=
  match th.action with
  | .work d :: _ =>
      if th.looseCpu || th.lastQuantum = quantum then
        let exTime := min d quantum
        some (exTime, { th with
          action := spendBurst exTime th.action
          lastQuantum := exTime
          looseCpu := true })
      else
        let exTime := min (quantum - th.lastQuantum) d
        some (exTime, { th with
          action := spendBurst exTime th.action
          lastQuantum := th.lastQuantum + exTime
          looseCpu := true })
  | _ => none

def fifoGetExecutionTime (th : Thread) : Option (ℚ × Thread) := wholeBurst th

def prioFifoGetExecutionTime (th : Thread) : Option (ℚ × Thread) := wholeBurst th

def ssMpiCpGetExecutionTime (th : Thread) : Option (ℚ × Thread) := wholeBurst th

def rrGetExecutionTime (sched : Scheduler) (th : Thread) : Option (ℚ × Thread) :=
  quantumBurst sched.quantum th

def boostGetExecutionTime (sched : Scheduler) (th : Thread) : Option (ℚ × Thread) :=
  quantumBurst sched.quantum th

/-- `ts_quantum` in `config_ts_dptbl`. -/
def tsQuantum (tsUmdpri : Nat) : ℚ :=
  if tsUmdpri < 10 then 200000
  else if tsUmdpri < 20 then 160000
  else if tsUmdpri < 30 then 120000
  else if tsUmdpri < 40 then 80000
  else if tsUmdpri < 59 then 40000
  else 20000

/-- `ts_tqexp` in `config_ts_dptbl`. -/
def tsTqexp (tsUmdpri : Nat) : Nat := tsUmdpri - 10

/-- The conversion to `long`, which drops the fraction. -/
def toLong (q : ℚ) : Int := q.num.tdiv q.den

/-- `svr4_get_execution_time`. The last quantum is of type `long`. -/
def svr4GetExecutionTime (sched : Scheduler) (th : Thread) : Option (ℚ × Thread) :=
  let quantum := tsQuantum th.tsUmdpri * sched.quantumFactor / 100
  match th.action with
  | .work d :: _ =>
      if th.lastQuantum < quantum && !th.looseCpu then
        let exTime := min d (quantum - th.lastQuantum)
        let lastQuantum : ℚ := toLong (th.lastQuantum + exTime)
        some (exTime, { th with
          action := spendBurst exTime th.action
          lastQuantum := lastQuantum
          fullQuantum := if lastQuantum = quantum then true else th.fullQuantum })
      else
        let exTime := min d quantum
        let lastQuantum : ℚ := toLong exTime
        some (exTime, { th with
          action := spendBurst exTime th.action
          lastQuantum := lastQuantum
          fullQuantum := if lastQuantum = quantum then true else th.fullQuantum })
  | _ => none

/-- `SCHEDULER_get_execution_time`. `none` is a panic. -/
def getExecutionTime (sched : Scheduler) (th : Thread) : Option (ℚ × Thread) :=
  match sched.policy with
  | .fifo => fifoGetExecutionTime th
  | .rr => rrGetExecutionTime sched th
  | .prioFifo => prioFifoGetExecutionTime th
  | .svr4 => svr4GetExecutionTime sched th
  | .boost => boostGetExecutionTime sched th
  | .ssMpiCp => ssMpiCpGetExecutionTime th

def pendingWork (as : List Action) : ℚ :=
  (as.map fun
    | .work d => d
    | _ => 0).sum

@[simp] theorem pendingWork_nil : pendingWork [] = 0 := rfl

@[simp] theorem pendingWork_work (d : ℚ) (as : List Action) :
    pendingWork (.work d :: as) = d + pendingWork as := List.sum_cons

@[simp] theorem pendingWork_event (type : EventType) (value : Nat) (as : List Action) :
    pendingWork (.event type value :: as) = pendingWork as := by
  rw [pendingWork, List.map_cons, List.sum_cons, zero_add]
  rfl

@[simp] theorem pendingWork_noop (as : List Action) :
    pendingWork (.noop :: as) = pendingWork as := by
  rw [pendingWork, List.map_cons, List.sum_cons, zero_add]
  rfl

@[simp] theorem pendingWork_operation (ident : Nat) (as : List Action) :
    pendingWork (.operation ident :: as) = pendingWork as := by
  rw [pendingWork, List.map_cons, List.sum_cons, zero_add]
  rfl

section

variable {sched : Scheduler} {th th' : Thread} {ti d : ℚ} {rest : List Action}

theorem pendingWork_spendBurst (h : th.action = .work d :: rest) (exTime : ℚ) :
    exTime + pendingWork (spendBurst exTime th.action) = pendingWork th.action := by
  rw [h, spendBurst]
  by_cases hzero : d - exTime = 0
  · rw [if_pos hzero, pendingWork_work, sub_eq_zero.mp hzero]
  · rw [if_neg hzero, pendingWork_work, pendingWork_work]
    ring

/-- What a policy does with a thread: the time that it gives is taken from the bursts of the
thread, which begin with one. -/
structure Gives (th : Thread) (ti : ℚ) (th' : Thread) : Prop where
  work : ∃ d rest, th.action = .work d :: rest
  pending : ti + pendingWork th'.action = pendingWork th.action
  contextSwitch : th'.doingContextSwitch = th.doingContextSwitch
  busyWait : th'.doingBusyWait = th.doingBusyWait
  minTime : th'.minTimeToBePreempted = th.minTimeToBePreempted
  cpu : th'.cpu = th.cpu
  priority : th'.priority = th.priority
  tsUmdpri : th'.tsUmdpri = th.tsUmdpri

theorem gives_wholeBurst (h : wholeBurst th = some (ti, th')) : Gives th ti th' := by
  unfold wholeBurst at h
  split at h
  · next d rest hact =>
      obtain ⟨rfl, rfl⟩ := Prod.mk.inj (Option.some.inj h)
      exact ⟨⟨_, _, hact⟩, by rw [hact, pendingWork_work], rfl, rfl, rfl, rfl, rfl, rfl⟩
  · cases h

theorem gives_quantumBurst {quantum : ℚ} (h : quantumBurst quantum th = some (ti, th')) :
    Gives th ti th' := by
  unfold quantumBurst at h
  split at h
  · next d rest hact =>
      split at h
      · obtain ⟨rfl, rfl⟩ := Prod.mk.inj (Option.some.inj h)
        exact ⟨⟨_, _, hact⟩, pendingWork_spendBurst hact _, rfl, rfl, rfl, rfl, rfl, rfl⟩
      · obtain ⟨rfl, rfl⟩ := Prod.mk.inj (Option.some.inj h)
        exact ⟨⟨_, _, hact⟩, pendingWork_spendBurst hact _, rfl, rfl, rfl, rfl, rfl, rfl⟩
  · cases h

theorem gives_svr4GetExecutionTime (h : svr4GetExecutionTime sched th = some (ti, th')) :
    Gives th ti th' := by
  unfold svr4GetExecutionTime at h
  simp only at h
  split at h
  · next d rest hact =>
      split at h
      · obtain ⟨rfl, rfl⟩ := Prod.mk.inj (Option.some.inj h)
        exact ⟨⟨_, _, hact⟩, pendingWork_spendBurst hact _, rfl, rfl, rfl, rfl, rfl, rfl⟩
      · obtain ⟨rfl, rfl⟩ := Prod.mk.inj (Option.some.inj h)
        exact ⟨⟨_, _, hact⟩, pendingWork_spendBurst hact _, rfl, rfl, rfl, rfl, rfl, rfl⟩
  · cases h

theorem gives_getExecutionTime (h : getExecutionTime sched th = some (ti, th')) :
    Gives th ti th' := by
  unfold getExecutionTime at h
  cases hpolicy : sched.policy with
  | fifo =>
      rw [hpolicy] at h
      exact gives_wholeBurst h
  | rr =>
      rw [hpolicy] at h
      exact gives_quantumBurst h
  | prioFifo =>
      rw [hpolicy] at h
      exact gives_wholeBurst h
  | svr4 =>
      rw [hpolicy] at h
      exact gives_svr4GetExecutionTime h
  | boost =>
      rw [hpolicy] at h
      exact gives_quantumBurst h
  | ssMpiCp =>
      rw [hpolicy] at h
      exact gives_wholeBurst h

theorem quantumBurst_isSome {quantum : ℚ} (h : th.action = .work d :: rest) :
    (quantumBurst quantum th).isSome := by
  unfold quantumBurst
  rw [h]
  simp only
  split <;> rfl

theorem svr4GetExecutionTime_isSome (h : th.action = .work d :: rest) :
    (svr4GetExecutionTime sched th).isSome := by
  unfold svr4GetExecutionTime
  rw [h]
  simp only
  split <;> rfl

/-- A thread whose next action is a burst gets an execution time. -/
theorem getExecutionTime_isSome (h : th.action = .work d :: rest) :
    (getExecutionTime sched th).isSome := by
  have hwhole : (wholeBurst th).isSome := by
    unfold wholeBurst
    rw [h]
    rfl
  unfold getExecutionTime
  cases sched.policy with
  | fifo => exact hwhole
  | rr => exact quantumBurst_isSome h
  | prioFifo => exact hwhole
  | svr4 => exact svr4GetExecutionTime_isSome h
  | boost => exact quantumBurst_isSome h
  | ssMpiCp => exact hwhole

end

end Dimemas.Sched.Threads
