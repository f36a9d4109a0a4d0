import Dimemas.Library.SearchedQueue
/-!
# Messages, tasks and their queues

The fields of `t_send`, `t_recv` and `t_task` that point-to-point matching reads, for
real MPI transfers (`dest_thread` and `ori_thread` are -1), and the matching test
that `communic.c` repeats at each of its queues.
-/

namespace Dimemas.Model.Messages

/-- `struct t_send`. -/
structure TSend where
  dest : Int
  messTag : Int
  communicId : Int
  messSize : Nat
  rendezVous : Bool
  immediate : Bool
deriving DecidableEq, Repr

/-- `struct t_recv`; `ori = -1` receives from any task. -/
structure TRecv where
  ori : Int
  messTag : Int
  communicId : Int
  messSize : Nat
deriving DecidableEq, Repr

/-- A thread, or the copy that `duplicate_thread` makes of it, whose current action is a
SEND. `serial` numbers the executions of SEND actions; the code has the pointer. -/
structure SendThread where
  threadid : Nat
  taskid : Nat
  originalThread : Bool
  serial : Nat
  mess : TSend
deriving DecidableEq, Repr

/-- A thread or thread copy whose current action is a RECV, an IRECV or a WAIT. -/
structure RecvThread where
  threadid : Nat
  taskid : Nat
  isIrecv : Bool
  serial : Nat
  mess : TRecv
deriving DecidableEq, Repr

/-- `(ori == taskid || ori == -1) && tag == tag && communic_id == communic_id`. -/
def matchesMess (mess : TRecv) (sender : SendThread) : Bool :=
  (mess.ori = sender.taskid || mess.ori = -1) && mess.messTag = sender.mess.messTag &&
    mess.communicId = sender.mess.communicId

/-- The queues of `struct t_task`. -/
structure TTask where
  recv : List RecvThread
  send : List SendThread
  messRecv : List SendThread
  recvWithoutSend : List RecvThread
  sendWithoutRecv : List SendThread
deriving DecidableEq, Repr

def TTask.empty : TTask := ⟨[], [], [], [], []⟩

/-- `struct t_Ptask`: the tasks of one application. -/
structure TPtask where
  tasksCount : Nat
  tasks : Nat → TTask

namespace TPtask

/-- `locate_task`; an identifier out of range is a panic. -/
def locateTask (p : TPtask) (taskid : Int) : Option Nat :=
  if 0 ≤ taskid ∧ taskid < p.tasksCount then some taskid.toNat else none

def setTask (p : TPtask) (taskid : Nat) (t : TTask) : TPtask :=
  { p with tasks := fun i => if i = taskid then t else p.tasks i }

variable (p : TPtask) (taskid : Nat) (t : TTask)

@[simp] theorem tasksCount_setTask : (p.setTask taskid t).tasksCount = p.tasksCount := rfl

@[simp] theorem tasks_setTask_self : (p.setTask taskid t).tasks taskid = t := by
  simp [setTask]

theorem tasks_setTask (i : Nat) :
    (p.setTask taskid t).tasks i = if i = taskid then t else p.tasks i := rfl

theorem tasks_setTask_of_ne {i : Nat} (hne : i ≠ taskid) :
    (p.setTask taskid t).tasks i = p.tasks i := by
  simp [setTask, hne]

theorem locateTask_eq_some {p : TPtask} {taskid : Int} {i : Nat} :
    p.locateTask taskid = some i ↔ taskid = i ∧ i < p.tasksCount := by
  unfold locateTask
  split
  · next h =>
      rw [Option.some.injEq]
      omega
  · next h =>
      simp only [false_iff, reduceCtorEq]
      omega

end TPtask

/-! ## Channels -/

/-- What identifies a message stream: source task, destination task, tag and
communicator. -/
structure Channel where
  src : Nat
  dst : Nat
  tag : Int
  comm : Int
deriving DecidableEq, Repr

def Channel.ofSend (c : Channel) (s : SendThread) : Bool :=
  s.taskid = c.src && s.mess.dest = c.dst && s.mess.messTag = c.tag && s.mess.communicId = c.comm

def Channel.ofRecv (c : Channel) (r : RecvThread) : Bool :=
  r.taskid = c.dst && r.mess.ori = c.src && r.mess.messTag = c.tag && r.mess.communicId = c.comm

def Channel.ofWildcard (c : Channel) (r : RecvThread) : Bool :=
  r.taskid = c.dst && r.mess.ori = -1 && r.mess.messTag = c.tag && r.mess.communicId = c.comm

theorem matchesMess_iff {mess : TRecv} {x : SendThread} :
    matchesMess mess x ↔ (mess.ori = x.taskid ∨ mess.ori = -1) ∧
      mess.messTag = x.mess.messTag ∧ mess.communicId = x.mess.communicId := by
  simp only [matchesMess, Bool.and_eq_true, Bool.or_eq_true, decide_eq_true_eq, and_assoc]

theorem Channel.ofSend_iff {c : Channel} {x : SendThread} :
    c.ofSend x ↔ x.taskid = c.src ∧ x.mess.dest = c.dst ∧ x.mess.messTag = c.tag ∧
      x.mess.communicId = c.comm := by
  simp only [ofSend, Bool.and_eq_true, decide_eq_true_eq, and_assoc]

theorem Channel.ofRecv_iff {c : Channel} {r : RecvThread} :
    c.ofRecv r ↔ r.taskid = c.dst ∧ r.mess.ori = c.src ∧ r.mess.messTag = c.tag ∧
      r.mess.communicId = c.comm := by
  simp only [ofRecv, Bool.and_eq_true, decide_eq_true_eq, and_assoc]

/-- A receive of the destination matches a message of the channel exactly when it names
the source or is a wildcard. -/
theorem matchesMess_ofSend {c : Channel} {s : SendThread} {r : RecvThread}
    (hs : c.ofSend s) (hr : r.taskid = c.dst) :
    matchesMess r.mess s = (c.ofRecv r || c.ofWildcard r) := by
  obtain ⟨hsrc, -, htag, hcomm⟩ := Channel.ofSend_iff.mp hs
  simp only [matchesMess, Channel.ofRecv, Channel.ofWildcard, hsrc, htag, hcomm, hr,
    decide_true, Bool.true_and]
  by_cases h₁ : r.mess.ori = (c.src : Int) <;> by_cases h₂ : r.mess.ori = -1 <;> simp [h₁, h₂]

end Dimemas.Model.Messages
