import Dimemas.Library.Draining
import Dimemas.Model.Links
import Mathlib.Algebra.Order.BigOperators.Group.List
import Mathlib.Algebra.Order.Group.Nat
/-!
# The reset of the simulator

`SIMULATOR_reset_state`, which is called when a simulation starts again after a deadlock. The links,
queues and flags of the resources are those of any moment of a simulation.
-/

namespace Dimemas.Model.ResetState

open Dimemas.Library.Draining
open Dimemas.Model.Links

structure Identifiers where
  ptaskid : Nat
  taskid : Nat
  threadid : Nat
deriving DecidableEq, Repr

/-- An element of a queue: a thread of the application, a copy of one, or a record of another type,
such as a `t_bus_utilization` or a notification. -/
inductive Element
  | thread (id : Identifiers)
  | copy (n : Nat)
  | record (n : Nat)
deriving DecidableEq, Repr

/-- `free_in_links` to `busy_out_links`. -/
inductive LinkQueue
  | free (type : LinkType)
  | busy (type : LinkType)
deriving DecidableEq, Repr

def LinkQueue.type : LinkQueue → LinkType
  | .free type => type
  | .busy type => type

/-- The links of a node, a task, a machine or a connection. Each link that was created is in one of
the two queues of its type. -/
structure Links where
  created : LinkType → List Nat
  queues : LinkQueue → List Nat
  accounted : ∀ type, (queues (.free type) ++ queues (.busy type)).Perm (created type)

inductive NodeQueue
  | thForIn | thForOut | waitForMemBus | threadsInMemory | ready | waitOutlinkPort | waitInlinkPort
  | waitInCopySegment | waitOutCopySegment | ioDisksThreads | accThreadsInLink | accWaitForLink
deriving DecidableEq, Repr

/-- `cur_memory_messages`, and `cur_messages` of the accelerator. -/
inductive NodeCounter
  | curMemoryMessages | accCurMessages
deriving DecidableEq, Repr

structure Node where
  links : Links
  queues : NodeQueue → List Element
  counters : NodeCounter → Nat
  /-- `IO_disks`, a token for each disk that is free. -/
  ioDisks : List Nat
  concurrentRequests : Nat
  /-- `current_thread` of each CPU. -/
  cpus : List (Option Element)
  /-- `lost_cpu_on_send` of its machine. -/
  lostCpuOnSend : Bool

inductive MachineQueue
  | threadsOnNetwork | queue | thForIn | thForOut
deriving DecidableEq, Repr

structure Machine where
  links : Links
  queues : MachineQueue → List Element
  currOnNetwork : Nat

/-- A dedicated connection, with `th_for_in` and `th_for_out`. -/
structure Connection where
  links : Links
  thFor : LinkType → List Element

inductive CommunicatorQueue
  | threads | machinesThreads | mThreadsWithLinks | nonblockCurrentRoot
deriving DecidableEq, Repr

inductive NonblockQueue
  | globalOpThreads | globalOpMachineThreads | mThreadsWithLinks
deriving DecidableEq, Repr

structure Communicator where
  queues : CommunicatorQueue → List Element
  /-- A queue for each asynchronous operation. -/
  nonblock : NonblockQueue → List (List Element)
  nodesPerMachine : Nat → List Nat
  tasksPerNode : List (Nat × Nat)
  currentRoot : Option Element
  inFlightOp : Bool

inductive WindowQueue
  | fenceTasks | fenceOperations | threadsWithLock | threadsWaitingLock | threadsWaitingUnlock
  | lockOperations | postDone | startDone | pendingOfPost | pendingRmaToComplete | completeDone
  | pendingWaitToComplete | postOperations
deriving DecidableEq, Repr

inductive WindowMode
  | none | fence | lock | post
deriving DecidableEq, Repr

structure Window where
  mode : WindowMode
  queues : WindowQueue → List Element
  taskWithLock : Option Nat

/-- The threads in a collective operation on a file, `t_fh_commid`. -/
structure FhCommid where
  threads : List Element
  copy : List Element

/-- `t_port`, with `send` and `recv`. -/
structure Port where
  send : List Element
  recv : List Element
  sending : Nat

inductive ThreadQueue
  | messRecv | recv | send | recvWithoutSend | sendWithoutRecv | irecvsExecuted
  | nonblockGlopDoneThreads
deriving DecidableEq, Repr

inductive Flag
  | looseCpu | doingContextSwitch | toBePreempted | doingBusyWait | doingStartup | startupDone
  | doingCopy | copyDone | doingRoundtrip | roundtripDone
  | eeeSendDone | linkTransmitDone | nwSwitchDone | eeeDoneResetVar
  | globalOpDone | markedForDeletion | idleBlock
  | accRecvSync | accSndrSync | doingAccComm | blckdInGlobalOp
deriving DecidableEq, Repr

inductive ThreadLink
  | localLink | partnerLink | localHdLink | partnerHdLink
  | portSendLink | portRecvLink
  | copySegmentLinkSource | copySegmentLinkDest
  | acceleratorLink
deriving DecidableEq, Repr

/-- `number_buses`, and the counters of the nonblocking operations. -/
inductive ThreadCounter
  | numberBuses
  | nonblockInFlight | nonblockWaiting | nonblockDone | nbGlobIndex | nbGlobIndexMaster
deriving DecidableEq, Repr

/-- A thread of the application on one of `n` nodes. -/
structure Thread (n : Nat) where
  id : Identifiers
  node : Fin n
  queues : ThreadQueue → List Element
  twinThread : Option Element
  links : ThreadLink → Option Nat
  flags : Flag → Bool
  counters : ThreadCounter → Nat

inductive TaskQueue
  | thForIn | thForOut | recv | send | recvWithoutSend | sendWithoutRecv | messRecv
  | irecvsExecuted | semaphores
deriving DecidableEq, Repr

structure Task (n : Nat) where
  links : Links
  queues : TaskQueue → List Element
  currentWait : Option Element
  hostSync : Option Element
  kernelSync : Option Element
  kernelByComm : Int
  threads : List (Thread n)

structure Ptask (n : Nat) where
  communicators : List Communicator
  windows : List Window
  mpiIOFhToCommid : List FhCommid
  mpiIORequestThread : List Element
  globalOperation : List Element
  tasks : List (Task n)

structure State (n : Nat) where
  wanThreadsOnNetwork : List Element
  finishedThreadsCount : Nat
  nodes : Fin n → Node
  machines : List Machine
  connections : List Connection
  ports : List Port
  ptasks : List (Ptask n)

variable {n : Nat}

def State.tasks (s : State n) : List (Task n) := s.ptasks.flatMap Ptask.tasks

def State.threads (s : State n) : List (Thread n) := s.tasks.flatMap Task.threads

/-! ## The functions of the queues -/

def removeQueueElements (queue : List Element) : Option (List Element) := some queue

/-- The copies are freed. A record has no `original_thread`. -/
def removeQueueThreads : List Element → Option (List Element)
  | [] => some []
  | .thread _ :: queue => removeQueueThreads queue
  | .copy copy :: queue => (removeQueueThreads queue).map (.copy copy :: ·)
  | .record _ :: _ => none

theorem moved_accounted {links : Links} {src dst : LinkQueue} (htype : src.type = dst.type)
    {fuel : Nat} {queues : LinkQueue → List Nat}
    (h : drain src dst fuel links.queues = some queues) (type : LinkType) :
    (queues (.free type) ++ queues (.busy type)).Perm (links.created type) := by
  have haccounted := links.accounted type
  by_cases hne : src = dst
  · subst hne
    by_cases hnil : links.queues src = []
    · cases fuel with
      | zero => cases h
      | succ fuel =>
          rw [drain_nil hnil, Option.some.injEq] at h
          rw [← h]
          exact haccounted
    · rw [drain_self hnil] at h
      cases h
  · obtain ⟨hperm, hother⟩ := drain_perm h hne
    by_cases hsrc : src.type = type
    · have hdst : dst.type = type := htype.symm.trans hsrc
      cases src with
      | free t =>
          cases dst with
          | free t' => exact absurd (congrArg LinkQueue.free (hsrc.trans hdst.symm)) hne
          | busy t' =>
              obtain rfl : t = type := hsrc
              obtain rfl : t' = t := hdst
              exact (List.perm_append_comm.trans hperm).trans
                (List.perm_append_comm.trans haccounted)
      | busy t =>
          cases dst with
          | free t' =>
              obtain rfl : t = type := hsrc
              obtain rfl : t' = t := hdst
              exact hperm.trans haccounted
          | busy t' => exact absurd (congrArg LinkQueue.busy (hsrc.trans hdst.symm)) hne
    · have hneq : ∀ q : LinkQueue, q.type = type → queues q = links.queues q := by
        intro q hq
        apply hother
        · intro heq
          exact hsrc (heq ▸ hq)
        · intro heq
          exact hsrc (htype.trans (heq ▸ hq))
      rw [hneq _ rfl, hneq _ rfl]
      exact haccounted

/-- `move_queue_elements` of two queues of the same type. -/
def Links.moveQueueElements (links : Links) (src dst : LinkQueue) (htype : src.type = dst.type)
    (fuel : Nat) : Option Links :=
  match h : drain src dst fuel links.queues with
  | none => none
  | some queues => some ⟨links.created, queues, moved_accounted htype h⟩

/-! ## The loops of the reset -/

def resetNode (fuel : Nat) (node : Node) : Option (Node × List Element) := do
  let links ← node.links.moveQueueElements (.busy .inLink) (.free .inLink) rfl fuel
  let links ← links.moveQueueElements (.busy .outLink) (.free .outLink) rfl fuel
  let (queues, freed) ← clear removeQueueThreads
    [.thForIn, .thForOut, .waitForMemBus, .threadsInMemory, .ready] node.queues
  pure ({ node with links := links, queues := queues, cpus := node.cpus.map fun _ => none }, freed)

def resetCommunicator (communicator : Communicator) : Option (Communicator × List Element) := do
  let (queues, freed) ← clear removeQueueElements [.threads] communicator.queues
  pure ({ communicator with queues := queues, inFlightOp := false }, freed)

def clearedFlags : List Flag :=
  [.looseCpu, .doingContextSwitch, .toBePreempted, .doingBusyWait, .doingStartup, .startupDone,
    .doingCopy, .copyDone, .doingRoundtrip, .roundtripDone]

def resetThread (thread : Thread n) : Option (Thread n × List Element) := do
  let (queues, freed) ← clear removeQueueThreads
    [.recvWithoutSend, .sendWithoutRecv, .irecvsExecuted] thread.queues
  let flags := fun flag => if flag ∈ clearedFlags then false else thread.flags flag
  pure ({ thread with queues := queues, twinThread := none, flags := flags },
    freed ++ thread.twinThread.toList)

/-- The busy output links are moved to the queue of the busy output links. -/
def resetTask (fuel : Nat) (task : Task n) : Option (Task n × List Element) := do
  let links ← task.links.moveQueueElements (.busy .inLink) (.free .inLink) rfl fuel
  let links ← links.moveQueueElements (.busy .outLink) (.busy .outLink) rfl fuel
  let (queues, freed) ← clear removeQueueThreads
    [.thForIn, .thForOut, .recv, .send, .recvWithoutSend, .sendWithoutRecv] task.queues
  let (queues, elements) ← clear removeQueueElements [.messRecv, .irecvsExecuted, .semaphores]
    queues
  let (threads, others) ← forEach resetThread task.threads
  pure ({ task with links := links, queues := queues, currentWait := none, threads := threads },
    freed ++ elements ++ others)

def resetPtask (fuel : Nat) (ptask : Ptask n) : Option (Ptask n × List Element) := do
  let (communicators, freed) ← forEach resetCommunicator ptask.communicators
  let elements ← removeQueueElements ptask.globalOperation
  let (tasks, others) ← forEach (resetTask fuel) ptask.tasks
  pure ({ ptask with communicators := communicators, globalOperation := [], tasks := tasks },
    freed ++ elements ++ others)

def resetNodes (fuel : Nat) : List (Fin n) → (Fin n → Node) → Option ((Fin n → Node) × List Element)
  | [], nodes => some (nodes, [])
  | i :: is, nodes => do
      let (node, freed) ← resetNode fuel (nodes i)
      let (nodes, others) ← resetNodes fuel is (Function.update nodes i node)
      pure (nodes, freed ++ others)

def threadToReady (nodes : Fin n → Node) (thread : Thread n) : Fin n → Node :=
  let node := nodes thread.node
  let ready :=
    if thread.flags .looseCpu || node.lostCpuOnSend then
      node.queues .ready ++ [.thread thread.id]
    else .thread thread.id :: node.queues .ready
  Function.update nodes thread.node
    { node with queues := Function.update node.queues .ready ready }

/-- `SIMULATOR_reset_state`, with the elements that it frees. Each thread is made ready at the end
of its turn in the loops over the threads, which do not touch the nodes otherwise. -/
def resetState (fuel : Nat) (s : State n) : Option (State n × List Element) := do
  let elements ← removeQueueElements s.wanThreadsOnNetwork
  let (nodes, freed) ← resetNodes fuel (List.finRange n) s.nodes
  let (ptasks, others) ← forEach (resetPtask fuel) s.ptasks
  let s : State n := { s with wanThreadsOnNetwork := [], finishedThreadsCount := 0, ptasks := ptasks }
  pure ({ s with nodes := s.threads.foldl threadToReady nodes }, elements ++ freed ++ others)

/-! ## What the reset is for -/

def Links.AllFree (links : Links) : Prop :=
  ∀ type, links.queues (.busy type) = [] ∧
    (links.queues (.free type)).Perm (links.created type)

structure Node.AsInitial (node : Node) : Prop where
  links : node.links.AllFree
  queues : ∀ q, q ≠ .ready → node.queues q = []
  counters : ∀ counter, node.counters counter = 0
  disks : node.ioDisks.length = node.concurrentRequests
  cpus : ∀ cpu ∈ node.cpus, cpu = none

structure Machine.AsInitial (machine : Machine) : Prop where
  links : machine.links.AllFree
  queues : ∀ q, machine.queues q = []
  network : machine.currOnNetwork = 0

structure Connection.AsInitial (connection : Connection) : Prop where
  links : connection.links.AllFree
  queues : ∀ type, connection.thFor type = []

structure Window.AsInitial (window : Window) : Prop where
  mode : window.mode = .none
  queues : ∀ q, window.queues q = []
  lock : window.taskWithLock = none

structure FhCommid.AsInitial (file : FhCommid) : Prop where
  threads : file.threads = []
  copy : file.copy = []

structure Port.AsInitial (port : Port) : Prop where
  send : port.send = []
  recv : port.recv = []
  sending : port.sending = 0

structure Communicator.AsInitial (communicator : Communicator) : Prop where
  queues : ∀ q, communicator.queues q = []
  nonblock : ∀ q, communicator.nonblock q = []
  nodes : ∀ machine, communicator.nodesPerMachine machine = []
  tasks : communicator.tasksPerNode = []
  root : communicator.currentRoot = none
  flight : communicator.inFlightOp = false

structure Thread.AsInitial (thread : Thread n) : Prop where
  queues : ∀ q, thread.queues q = []
  links : ∀ link, thread.links link = none
  flags : ∀ flag, thread.flags flag = false
  counters : ∀ counter, thread.counters counter = 0

/-- No thread of the task waits in an accelerator synchronization. -/
structure Task.NoSync (task : Task n) : Prop where
  host : task.hostSync = none
  kernel : task.kernelSync = none
  comm : task.kernelByComm = -1

structure Task.AsInitial (task : Task n) : Prop where
  links : task.links.AllFree
  queues : ∀ q, task.queues q = []
  wait : task.currentWait = none
  sync : task.NoSync
  threads : ∀ thread ∈ task.threads, thread.AsInitial

/-- No thread waits at a window or a file. -/
structure Ptask.Released (ptask : Ptask n) : Prop where
  windows : ∀ window ∈ ptask.windows, window.AsInitial
  files : ∀ file ∈ ptask.mpiIOFhToCommid, file.AsInitial
  requests : ptask.mpiIORequestThread = []

structure Ptask.AsInitial (ptask : Ptask n) : Prop where
  communicators : ∀ communicator ∈ ptask.communicators, communicator.AsInitial
  released : ptask.Released
  globalOperation : ptask.globalOperation = []
  tasks : ∀ task ∈ ptask.tasks, task.AsInitial

/-- The resources are as at the start, and each thread is ready once and has not been freed. -/
structure State.AsInitial (s : State n) (freed : List Element) : Prop where
  wan : s.wanThreadsOnNetwork = []
  finished : s.finishedThreadsCount = 0
  nodes : ∀ i, (s.nodes i).AsInitial
  machines : ∀ machine ∈ s.machines, machine.AsInitial
  connections : ∀ connection ∈ s.connections, connection.AsInitial
  ports : ∀ port ∈ s.ports, port.AsInitial
  ptasks : ∀ ptask ∈ s.ptasks, ptask.AsInitial
  ready : ∀ i, ((s.nodes i).queues .ready).Perm
    ((s.threads.filter fun thread => thread.node = i).map fun thread => .thread thread.id)
  alive : ∀ thread ∈ s.threads, .thread thread.id ∉ freed

/-! ## What the reset forgets -/

/-- All elements have an `original_thread`. -/
def NoRecord (queue : List Element) : Prop := ∀ k, .record k ∉ queue

structure Node.Forgotten (node : Node) : Prop where
  queues : ∀ q, q ∉ [NodeQueue.thForIn, .thForOut, .waitForMemBus, .threadsInMemory, .ready] →
    node.queues q = []
  counters : ∀ counter, node.counters counter = 0
  disks : node.ioDisks.length = node.concurrentRequests
  records : ∀ q ∈ [NodeQueue.thForIn, .thForOut, .waitForMemBus, .threadsInMemory, .ready],
    NoRecord (node.queues q)

structure Communicator.Forgotten (communicator : Communicator) : Prop where
  queues : ∀ q, q ≠ .threads → communicator.queues q = []
  nonblock : ∀ q, communicator.nonblock q = []
  nodes : ∀ machine, communicator.nodesPerMachine machine = []
  tasks : communicator.tasksPerNode = []
  root : communicator.currentRoot = none

structure Thread.Forgotten (thread : Thread n) : Prop where
  queues : ∀ q, q ∉ [ThreadQueue.recvWithoutSend, .sendWithoutRecv, .irecvsExecuted] →
    thread.queues q = []
  links : ∀ link, thread.links link = none
  flags : ∀ flag, flag ∉ clearedFlags → thread.flags flag = false
  counters : ∀ counter, thread.counters counter = 0
  records : ∀ q ∈ [ThreadQueue.recvWithoutSend, .sendWithoutRecv, .irecvsExecuted],
    NoRecord (thread.queues q)

structure Task.Forgotten (task : Task n) : Prop where
  outLinks : task.links.queues (.busy .outLink) = []
  records : ∀ q ∈ [TaskQueue.thForIn, .thForOut, .recv, .send, .recvWithoutSend, .sendWithoutRecv],
    NoRecord (task.queues q)
  sync : task.NoSync
  threads : ∀ thread ∈ task.threads, thread.Forgotten

/-- The element is in a queue whose elements are all freed, or is a twin. -/
def State.Frees (s : State n) (e : Element) : Prop :=
  e ∈ s.wanThreadsOnNetwork ∨ ∃ ptask ∈ s.ptasks,
    (∃ communicator ∈ ptask.communicators, e ∈ communicator.queues .threads) ∨
      e ∈ ptask.globalOperation ∨ ∃ task ∈ ptask.tasks,
        (∃ q ∈ [TaskQueue.messRecv, .irecvsExecuted, .semaphores], e ∈ task.queues q) ∨
          ∃ thread ∈ task.threads, thread.twinThread = some e

/-- What the reset does not touch, or cannot reset, is not in use. -/
structure State.Forgotten (s : State n) : Prop where
  nodes : ∀ i, (s.nodes i).Forgotten
  machines : ∀ machine ∈ s.machines, machine.AsInitial
  connections : ∀ connection ∈ s.connections, connection.AsInitial
  ports : ∀ port ∈ s.ports, port.AsInitial
  released : ∀ ptask ∈ s.ptasks, ptask.Released
  communicators : ∀ ptask ∈ s.ptasks, ∀ communicator ∈ ptask.communicators,
    communicator.Forgotten
  tasks : ∀ task ∈ s.tasks, task.Forgotten
  alive : ∀ thread ∈ s.threads, ¬ s.Frees (.thread thread.id)

section

/-! ## The parts of the state -/

def Element.isCopy : Element → Bool
  | .copy _ => true
  | _ => false

def copies (queue : List Element) : List Element := queue.filter Element.isCopy

theorem noRecord_cons {e : Element} {queue : List Element} :
    NoRecord (e :: queue) ↔ (∀ k, e ≠ .record k) ∧ NoRecord queue := by
  simp only [NoRecord, List.mem_cons, not_or, forall_and, ne_comm]

theorem removeQueueThreads_eq (queue : List Element) (h : NoRecord queue) :
    removeQueueThreads queue = some (copies queue) := by
  induction queue with
  | nil => rfl
  | cons e queue ih =>
      rw [noRecord_cons] at h
      cases e with
      | thread id =>
          rw [removeQueueThreads, ih h.2]
          rfl
      | copy k =>
          rw [removeQueueThreads, ih h.2]
          rfl
      | record k => exact absurd rfl (h.1 k)

theorem noRecord_of_isSome (queue : List Element) (h : (removeQueueThreads queue).isSome) :
    NoRecord queue := by
  induction queue with
  | nil =>
      intro k hk
      exact absurd hk List.not_mem_nil
  | cons e queue ih =>
      rw [noRecord_cons]
      cases e with
      | thread id => exact ⟨by simp, ih h⟩
      | copy k =>
          rw [removeQueueThreads, Option.isSome_map] at h
          exact ⟨by simp, ih h⟩
      | record k => cases h

/-- `remove_queue_threads` of some queues. -/
theorem clear_threads {Q : Type*} [DecidableEq Q] (names : List Q) (queues : Q → List Element)
    (h : ∀ name ∈ names, NoRecord (queues name)) :
    ∃ freed, clear removeQueueThreads names queues =
        some (fun q => if q ∈ names then [] else queues q, freed) ∧
      ∀ e, e ∈ freed ↔ ∃ name ∈ names, e ∈ copies (queues name) :=
  clear_eq_some removeQueueThreads_eq (fun _ => List.not_mem_nil) rfl names queues h

/-- `remove_queue_elements` of some queues. -/
theorem clear_elements {Q : Type*} [DecidableEq Q] (names : List Q) (queues : Q → List Element) :
    ∃ freed, clear removeQueueElements names queues =
        some (fun q => if q ∈ names then [] else queues q, freed) ∧
      ∀ e, e ∈ freed ↔ ∃ name ∈ names, e ∈ queues name :=
  @clear_eq_some Q Element _ removeQueueElements id (fun _ => True) (fun _ _ => rfl) trivial rfl
    names queues fun _ _ => trivial

/-! ### Links -/

theorem busy_ne_free (type : LinkType) : LinkQueue.busy type ≠ .free type :=
  LinkQueue.noConfusion

def Links.release (links : Links) (type : LinkType) : Links where
  created := links.created
  queues := Function.update (Function.update links.queues (.busy type) []) (.free type)
    (links.queues (.free type) ++ links.queues (.busy type))
  accounted := @moved_accounted links (.busy type) (.free type) rfl _ _
    (drain_of_ne (busy_ne_free type) (Nat.lt_succ_self _))

theorem Links.moveQueueElements_of_eq {links : Links} {src dst : LinkQueue}
    {htype : src.type = dst.type} {fuel : Nat} {queues : LinkQueue → List Nat}
    (h : drain src dst fuel links.queues = some queues) :
    links.moveQueueElements src dst htype fuel =
      some ⟨links.created, queues, moved_accounted htype h⟩ := by
  unfold moveQueueElements
  split
  · rename_i hnone
    rw [h] at hnone
    cases hnone
  · rename_i queues' hsome
    obtain rfl : queues = queues' := Option.some.inj (h.symm.trans hsome)
    rfl

theorem Links.moveQueueElements_release {links : Links} {type : LinkType} {fuel : Nat}
    (h : (links.queues (.busy type)).length < fuel) :
    links.moveQueueElements (.busy type) (.free type) rfl fuel = some (links.release type) :=
  moveQueueElements_of_eq (drain_of_ne (busy_ne_free type) h)

theorem Links.length_lt_of_isSome {links : Links} {type : LinkType} {fuel : Nat}
    (h : (links.moveQueueElements (.busy type) (.free type) rfl fuel).isSome) :
    (links.queues (.busy type)).length < fuel := by
  unfold moveQueueElements at h
  split at h
  · cases h
  · rename_i queues hsome
    exact drain_fuel hsome (busy_ne_free type)

theorem Links.moveQueueElements_self {links : Links} {type : LinkType} {fuel : Nat}
    (h : links.queues (.busy type) = []) (hfuel : 0 < fuel) :
    links.moveQueueElements (.busy type) (.busy type) rfl fuel = some links := by
  obtain ⟨k, rfl⟩ := Nat.exists_eq_succ_of_ne_zero hfuel.ne'
  exact moveQueueElements_of_eq (drain_nil h)

theorem Links.nil_of_isSome_self {links : Links} {type : LinkType} {fuel : Nat}
    (h : (links.moveQueueElements (.busy type) (.busy type) rfl fuel).isSome) :
    links.queues (.busy type) = [] := by
  by_contra hne
  unfold moveQueueElements at h
  split at h
  · cases h
  · rename_i queues hsome
    rw [drain_self hne] at hsome
    cases hsome

@[simp] theorem Links.release_busy (links : Links) (type : LinkType) :
    (links.release type).queues (.busy type) = [] := by
  simp [release]

theorem Links.release_busy_of_ne {links : Links} {type type' : LinkType} (h : type' ≠ type) :
    (links.release type).queues (.busy type') = links.queues (.busy type') := by
  simp [release, h]

theorem Links.allFree_iff {links : Links} :
    links.AllFree ↔ ∀ type, links.queues (.busy type) = [] := by
  constructor
  · intro h type
    exact (h type).1
  · intro h type
    have haccounted := links.accounted type
    rw [h type, List.append_nil] at haccounted
    exact ⟨h type, haccounted⟩

/-! ### Threads and tasks -/

def Thread.afterReset (thread : Thread n) : Thread n :=
  { thread with
    queues := fun q => if q ∈ [ThreadQueue.recvWithoutSend, .sendWithoutRecv, .irecvsExecuted] then
      [] else thread.queues q
    twinThread := none
    flags := fun flag => if flag ∈ clearedFlags then false else thread.flags flag }

theorem resetThread_eq (thread : Thread n)
    (h : ∀ q ∈ [ThreadQueue.recvWithoutSend, .sendWithoutRecv, .irecvsExecuted],
      NoRecord (thread.queues q)) :
    ∃ freed, resetThread thread = some (thread.afterReset, freed) ∧
      ∀ id, .thread id ∈ freed ↔ thread.twinThread = some (.thread id) := by
  obtain ⟨freed, hclear, hmem⟩ := clear_threads _ thread.queues h
  refine ⟨freed ++ thread.twinThread.toList, ?_, ?_⟩
  · rw [resetThread, hclear]
    rfl
  · intro id
    rw [List.mem_append, hmem, Option.mem_toList]
    simp [copies, Element.isCopy]

theorem resetThread_isSome (thread : Thread n) (h : (resetThread thread).isSome) :
    ∀ q ∈ [ThreadQueue.recvWithoutSend, .sendWithoutRecv, .irecvsExecuted],
      NoRecord (thread.queues q) := by
  have hclear : (clear removeQueueThreads
      [ThreadQueue.recvWithoutSend, .sendWithoutRecv, .irecvsExecuted] thread.queues).isSome := by
    by_contra hnone
    rw [Option.not_isSome_iff_eq_none] at hnone
    rw [resetThread, hnone] at h
    cases h
  exact clear_isSome noRecord_of_isSome _ _ hclear (by decide)

/-- The loops of a task end, and no record is taken for a thread. -/
structure Task.Ok (fuel : Nat) (task : Task n) : Prop where
  inLinks : (task.links.queues (.busy .inLink)).length < fuel
  outLinks : task.links.queues (.busy .outLink) = []
  records : ∀ q ∈ [TaskQueue.thForIn, .thForOut, .recv, .send, .recvWithoutSend, .sendWithoutRecv],
    NoRecord (task.queues q)
  threads : ∀ thread ∈ task.threads,
    ∀ q ∈ [ThreadQueue.recvWithoutSend, .sendWithoutRecv, .irecvsExecuted],
      NoRecord (thread.queues q)

def Task.afterReset (task : Task n) : Task n :=
  { task with
    links := task.links.release .inLink
    queues := fun _ => []
    currentWait := none
    threads := task.threads.map Thread.afterReset }

theorem resetTask_eq {fuel : Nat} (task : Task n) (h : task.Ok fuel) :
    ∃ freed, resetTask fuel task = some (task.afterReset, freed) ∧
      ∀ id, .thread id ∈ freed ↔
        (∃ q ∈ [TaskQueue.messRecv, .irecvsExecuted, .semaphores], .thread id ∈ task.queues q) ∨
          ∃ thread ∈ task.threads, thread.twinThread = some (.thread id) := by
  obtain ⟨freed, hthreads, hfreed⟩ := clear_threads _ task.queues h.records
  obtain ⟨elements, helements, hmem⟩ := clear_elements
    [TaskQueue.messRecv, .irecvsExecuted, .semaphores] fun q =>
      if q ∈ [TaskQueue.thForIn, .thForOut, .recv, .send, .recvWithoutSend, .sendWithoutRecv] then []
      else task.queues q
  obtain ⟨others, hloop, hothers⟩ := forEach_eq_some resetThread_eq task.threads h.threads
  have hout : (task.links.release .inLink).queues (.busy .outLink) = [] := by
    rw [Links.release_busy_of_ne (by decide), h.outLinks]
  have hself := @Links.moveQueueElements_self _ _ fuel hout (Nat.zero_lt_of_lt h.inLinks)
  refine ⟨freed ++ elements ++ others, ?_, ?_⟩
  · rw [resetTask, Links.moveQueueElements_release h.inLinks]
    simp only [Option.bind_eq_bind, Option.bind_some, hself, hthreads, helements, hloop,
      Option.pure_def, Task.afterReset, Option.some.injEq, Prod.mk.injEq, Task.mk.injEq, true_and,
      and_true]
    ext1 q
    cases q <;> rfl
  · intro id
    rw [List.mem_append, List.mem_append, hfreed, hmem, hothers]
    simp [copies, Element.isCopy]

theorem resetTask_isSome {fuel : Nat} (task : Task n) (h : (resetTask fuel task).isSome) :
    task.Ok fuel := by
  obtain ⟨⟨task', freed⟩, hsome⟩ := Option.isSome_iff_exists.mp h
  simp only [resetTask, Option.bind_eq_bind, Option.bind_eq_some_iff, Option.pure_def] at hsome
  obtain ⟨links, hin, links', hout, ⟨queues, freed₁⟩, hqueues, ⟨queues', freed₂⟩, _,
    ⟨threads, freed₃⟩, hthreads, _⟩ := hsome
  have hlength := Links.length_lt_of_isSome (Option.isSome_of_eq_some hin)
  rw [Links.moveQueueElements_release hlength, Option.some.injEq] at hin
  have hnil := Links.nil_of_isSome_self (Option.isSome_of_eq_some hout)
  rw [← hin, Links.release_busy_of_ne (by decide)] at hnil
  exact
    { inLinks := hlength
      outLinks := hnil
      records := clear_isSome noRecord_of_isSome _ _ (Option.isSome_of_eq_some hqueues) (by decide)
      threads := forEach_isSome resetThread_isSome _ (Option.isSome_of_eq_some hthreads) }

/-! ### Communicators and applications -/

def Communicator.afterReset (communicator : Communicator) : Communicator :=
  { communicator with
    queues := fun q => if q ∈ [CommunicatorQueue.threads] then [] else communicator.queues q
    inFlightOp := false }

theorem resetCommunicator_eq (communicator : Communicator) :
    ∃ freed, resetCommunicator communicator = some (communicator.afterReset, freed) ∧
      ∀ id, .thread id ∈ freed ↔ .thread id ∈ communicator.queues .threads := by
  obtain ⟨freed, hclear, hmem⟩ := clear_elements [CommunicatorQueue.threads] communicator.queues
  refine ⟨freed, ?_, ?_⟩
  · rw [resetCommunicator, hclear]
    rfl
  · intro id
    rw [hmem]
    simp

def Ptask.afterReset (ptask : Ptask n) : Ptask n :=
  { ptask with
    communicators := ptask.communicators.map Communicator.afterReset
    globalOperation := []
    tasks := ptask.tasks.map Task.afterReset }

theorem resetPtask_eq {fuel : Nat} (ptask : Ptask n) (h : ∀ task ∈ ptask.tasks, task.Ok fuel) :
    ∃ freed, resetPtask fuel ptask = some (ptask.afterReset, freed) ∧
      ∀ id, .thread id ∈ freed ↔
        (∃ communicator ∈ ptask.communicators, .thread id ∈ communicator.queues .threads) ∨
          .thread id ∈ ptask.globalOperation ∨ ∃ task ∈ ptask.tasks,
            (∃ q ∈ [TaskQueue.messRecv, .irecvsExecuted, .semaphores],
              .thread id ∈ task.queues q) ∨
              ∃ thread ∈ task.threads, thread.twinThread = some (.thread id) := by
  obtain ⟨freed, hcommunicators, hfreed⟩ := @forEach_eq_some _ _ _ _ _ _ (fun _ => True) _ _
    (fun communicator _ => resetCommunicator_eq communicator) ptask.communicators fun _ _ => trivial
  obtain ⟨others, htasks, hothers⟩ := forEach_eq_some resetTask_eq ptask.tasks h
  refine ⟨freed ++ ptask.globalOperation ++ others, ?_, ?_⟩
  · rw [resetPtask, hcommunicators]
    simp only [Option.bind_eq_bind, Option.bind_some, htasks, removeQueueElements, Option.pure_def,
      Ptask.afterReset]
  · intro id
    rw [List.mem_append, List.mem_append, hfreed, hothers, or_assoc]

theorem resetPtask_isSome {fuel : Nat} (ptask : Ptask n) (h : (resetPtask fuel ptask).isSome) :
    ∀ task ∈ ptask.tasks, task.Ok fuel := by
  obtain ⟨⟨ptask', freed⟩, hsome⟩ := Option.isSome_iff_exists.mp h
  simp only [resetPtask, Option.bind_eq_bind, Option.bind_eq_some_iff, Option.pure_def] at hsome
  obtain ⟨_, _, _, _, ⟨tasks, others⟩, htasks, _⟩ := hsome
  exact forEach_isSome resetTask_isSome _ (Option.isSome_of_eq_some htasks)

/-! ### Nodes -/

structure Node.Ok (fuel : Nat) (node : Node) : Prop where
  links : ∀ type, (node.links.queues (.busy type)).length < fuel
  records : ∀ q ∈ [NodeQueue.thForIn, .thForOut, .waitForMemBus, .threadsInMemory, .ready],
    NoRecord (node.queues q)

def Node.afterReset (node : Node) : Node :=
  { node with
    links := (node.links.release .inLink).release .outLink
    queues := fun q =>
      if q ∈ [NodeQueue.thForIn, .thForOut, .waitForMemBus, .threadsInMemory, .ready] then []
      else node.queues q
    cpus := node.cpus.map fun _ => none }

theorem resetNode_eq {fuel : Nat} (node : Node) (h : node.Ok fuel) :
    ∃ freed, resetNode fuel node = some (node.afterReset, freed) ∧ ∀ id, .thread id ∉ freed := by
  obtain ⟨freed, hthreads, hfreed⟩ := clear_threads _ node.queues h.records
  have hout : ((node.links.release .inLink).queues (.busy .outLink)).length < fuel := by
    rw [Links.release_busy_of_ne (by decide)]
    exact h.links .outLink
  refine ⟨freed, ?_, ?_⟩
  · rw [resetNode, Links.moveQueueElements_release (h.links .inLink)]
    simp only [Option.bind_eq_bind, Option.bind_some, Links.moveQueueElements_release hout,
      hthreads, Option.pure_def, Node.afterReset]
  · intro id
    rw [hfreed]
    simp [copies, Element.isCopy]

theorem resetNode_isSome {fuel : Nat} (node : Node) (h : (resetNode fuel node).isSome) :
    node.Ok fuel := by
  obtain ⟨⟨node', freed⟩, hsome⟩ := Option.isSome_iff_exists.mp h
  simp only [resetNode, Option.bind_eq_bind, Option.bind_eq_some_iff, Option.pure_def] at hsome
  obtain ⟨links, hin, links', hout, ⟨queues, freed₁⟩, hqueues, _⟩ := hsome
  have hlength := Links.length_lt_of_isSome (Option.isSome_of_eq_some hin)
  rw [Links.moveQueueElements_release hlength, Option.some.injEq] at hin
  have hlength' := Links.length_lt_of_isSome (Option.isSome_of_eq_some hout)
  rw [← hin, Links.release_busy_of_ne (by decide)] at hlength'
  constructor
  · intro type
    cases type with
    | inLink => exact hlength
    | outLink => exact hlength'
  · exact clear_isSome noRecord_of_isSome _ _ (Option.isSome_of_eq_some hqueues) (by decide)

theorem resetNodes_eq {fuel : Nat} {is : List (Fin n)} {nodes : Fin n → Node} (hnodup : is.Nodup)
    (h : ∀ i ∈ is, (nodes i).Ok fuel) :
    ∃ freed, resetNodes fuel is nodes =
        some (fun j => if is.contains j then (nodes j).afterReset else nodes j, freed) ∧
      ∀ id, .thread id ∉ freed := by
  induction is generalizing nodes with
  | nil => exact ⟨[], by simp [resetNodes], by simp⟩
  | cons i is ih =>
      rw [List.nodup_cons] at hnodup
      obtain ⟨freed, hnode, hfreed⟩ := resetNode_eq (nodes i) (h i List.mem_cons_self)
      have hrest : ∀ j ∈ is, (Function.update nodes i (nodes i).afterReset j).Ok fuel := by
        intro j hj
        have hne : j ≠ i := fun heq => hnodup.1 (heq ▸ hj)
        rw [Function.update_of_ne hne]
        exact h j (List.mem_cons_of_mem i hj)
      obtain ⟨others, hnodes, hothers⟩ := ih hnodup.2 hrest
      refine ⟨freed ++ others, ?_, ?_⟩
      · rw [resetNodes, hnode]
        simp only [Option.bind_eq_bind, Option.bind_some, hnodes, Option.pure_def,
          Option.some.injEq, Prod.mk.injEq, and_true]
        ext1 j
        by_cases heq : j = i
        · simp only [List.contains_iff_mem, heq, if_neg hnodup.1, if_pos List.mem_cons_self,
            Function.update_self]
        · simp only [List.contains_iff_mem, List.mem_cons, heq, false_or, Function.update_of_ne heq]
      · intro id
        rw [List.mem_append]
        exact not_or.mpr ⟨hfreed id, hothers id⟩

theorem resetNodes_isSome {fuel : Nat} {is : List (Fin n)} {nodes : Fin n → Node}
    (hnodup : is.Nodup) (h : (resetNodes fuel is nodes).isSome) :
    ∀ i ∈ is, (nodes i).Ok fuel := by
  induction is generalizing nodes with
  | nil => simp
  | cons i is ih =>
      rw [List.nodup_cons] at hnodup
      obtain ⟨r, hsome⟩ := Option.isSome_iff_exists.mp h
      simp only [resetNodes, Option.bind_eq_bind, Option.bind_eq_some_iff] at hsome
      obtain ⟨⟨node, freed⟩, hnode, r', hrest, _⟩ := hsome
      intro j hj
      rcases List.mem_cons.mp hj with heq | hmem
      · rw [heq]
        exact resetNode_isSome _ (Option.isSome_of_eq_some hnode)
      · have hne : j ≠ i := fun heq => hnodup.1 (heq ▸ hmem)
        have hok := ih hnodup.2 (Option.isSome_of_eq_some hrest) j hmem
        rwa [Function.update_of_ne hne] at hok

/-! ### The whole state -/

/-- What `FIFO_thread_to_ready` leaves to a node. -/
structure MadeReady (node node' : Node) (ready : List Element) : Prop where
  links : node'.links = node.links
  queues : ∀ q, q ≠ .ready → node'.queues q = node.queues q
  counters : node'.counters = node.counters
  ioDisks : node'.ioDisks = node.ioDisks
  requests : node'.concurrentRequests = node.concurrentRequests
  cpus : node'.cpus = node.cpus
  ready : (node'.queues .ready).Perm (node.queues .ready ++ ready)

theorem threadToReady_madeReady (nodes : Fin n → Node) (thread : Thread n) (i : Fin n) :
    MadeReady (nodes i) (threadToReady nodes thread i)
      (if thread.node = i then [.thread thread.id] else []) := by
  by_cases hnode : thread.node = i
  · subst hnode
    rw [if_pos rfl, threadToReady]
    simp only [Function.update_self]
    constructor
    · rfl
    · intro q hq
      exact Function.update_of_ne hq _ _
    · rfl
    · rfl
    · rfl
    · rfl
    · simp only [Function.update_self]
      split
      · exact List.Perm.refl _
      · exact (List.perm_append_singleton _ _).symm
  · rw [if_neg hnode, threadToReady]
    simp only [Function.update_of_ne (Ne.symm hnode)]
    exact ⟨rfl, fun _ _ => rfl, rfl, rfl, rfl, rfl, by rw [List.append_nil]⟩

theorem foldl_threadToReady (threads : List (Thread n)) (nodes : Fin n → Node) (i : Fin n) :
    MadeReady (nodes i) (threads.foldl threadToReady nodes i)
      ((threads.filter fun thread => thread.node = i).map fun thread => .thread thread.id) := by
  induction threads generalizing nodes with
  | nil => exact ⟨rfl, fun _ _ => rfl, rfl, rfl, rfl, rfl, by simp⟩
  | cons thread threads ih =>
      have hfirst := threadToReady_madeReady nodes thread i
      have hrest := ih (threadToReady nodes thread)
      have hmap : ((thread :: threads).filter fun thread => thread.node = i).map
          (fun thread => Element.thread thread.id) =
          (if thread.node = i then [.thread thread.id] else []) ++
            (threads.filter fun thread => thread.node = i).map fun thread =>
              Element.thread thread.id := by
        by_cases hnode : thread.node = i
        · simp [hnode]
        · simp [hnode]
      rw [List.foldl_cons, hmap]
      constructor
      · rw [hrest.links, hfirst.links]
      · intro q hq
        rw [hrest.queues q hq, hfirst.queues q hq]
      · rw [hrest.counters, hfirst.counters]
      · rw [hrest.ioDisks, hfirst.ioDisks]
      · rw [hrest.requests, hfirst.requests]
      · rw [hrest.cpus, hfirst.cpus]
      · rw [← List.append_assoc]
        exact hrest.ready.trans (hfirst.ready.append_right _)

def State.afterReset (s : State n) : State n :=
  { s with
    wanThreadsOnNetwork := []
    finishedThreadsCount := 0
    nodes := (s.threads.map Thread.afterReset).foldl threadToReady fun i => (s.nodes i).afterReset
    ptasks := s.ptasks.map Ptask.afterReset }

theorem tasks_map (s : State n) :
    (s.ptasks.map Ptask.afterReset).flatMap Ptask.tasks = s.tasks.map Task.afterReset := by
  rw [State.tasks, List.map_flatMap, List.flatMap_map]
  rfl

theorem threads_map (s : State n) :
    ((s.ptasks.map Ptask.afterReset).flatMap Ptask.tasks).flatMap Task.threads =
      s.threads.map Thread.afterReset := by
  rw [tasks_map, State.threads, List.map_flatMap, List.flatMap_map]
  rfl

theorem resetState_eq {fuel : Nat} (s : State n) (hnodes : ∀ i, (s.nodes i).Ok fuel)
    (htasks : ∀ ptask ∈ s.ptasks, ∀ task ∈ ptask.tasks, task.Ok fuel) :
    ∃ freed, resetState fuel s = some (s.afterReset, freed) ∧
      ∀ id, .thread id ∈ freed ↔ s.Frees (.thread id) := by
  obtain ⟨freed, hloop, hfreed⟩ :=
    @resetNodes_eq n fuel (List.finRange n) s.nodes (List.nodup_finRange n) fun i _ => hnodes i
  obtain ⟨others, hptasks, hothers⟩ := forEach_eq_some resetPtask_eq s.ptasks htasks
  refine ⟨s.wanThreadsOnNetwork ++ freed ++ others, ?_, ?_⟩
  · rw [resetState]
    simp only [removeQueueElements, Option.bind_eq_bind, Option.bind_some, hloop, hptasks,
      Option.pure_def, List.contains_iff_mem, List.mem_finRange, if_true]
    congr 3
    simp only [State.threads, State.tasks]
    rw [threads_map]
    rfl
  · intro id
    rw [List.mem_append, List.mem_append, hothers, State.Frees]
    simp only [hfreed, or_false]

theorem resetState_isSome {fuel : Nat} (s : State n) (h : (resetState fuel s).isSome) :
    (∀ i, (s.nodes i).Ok fuel) ∧ ∀ ptask ∈ s.ptasks, ∀ task ∈ ptask.tasks, task.Ok fuel := by
  obtain ⟨r, hsome⟩ := Option.isSome_iff_exists.mp h
  simp only [resetState, Option.bind_eq_bind, Option.bind_eq_some_iff] at hsome
  obtain ⟨_, _, r₁, hnodes, r₂, hptasks, _⟩ := hsome
  constructor
  · intro i
    exact resetNodes_isSome (List.nodup_finRange n) (Option.isSome_of_eq_some hnodes) i
      (List.mem_finRange i)
  · exact forEach_isSome resetPtask_isSome _ (Option.isSome_of_eq_some hptasks)

theorem exists_fuel (s : State n) : ∃ fuel,
    (∀ i type, ((s.nodes i).links.queues (.busy type)).length < fuel) ∧
      ∀ ptask ∈ s.ptasks, ∀ task ∈ ptask.tasks,
        (task.links.queues (.busy .inLink)).length < fuel := by
  let nodes := (List.finRange n).flatMap fun i =>
    [((s.nodes i).links.queues (.busy .inLink)).length,
      ((s.nodes i).links.queues (.busy .outLink)).length]
  let tasks := s.ptasks.flatMap fun ptask => ptask.tasks.map fun task =>
    (task.links.queues (.busy .inLink)).length
  have hlt : ∀ k ∈ nodes ++ tasks, k < (nodes ++ tasks).sum + 1 := by
    intro k hk
    exact Nat.lt_succ_of_le (List.le_sum_of_mem hk)
  refine ⟨(nodes ++ tasks).sum + 1, ?_, ?_⟩
  · intro i type
    apply hlt
    apply List.mem_append_left
    apply List.mem_flatMap.mpr
    refine ⟨i, List.mem_finRange i, ?_⟩
    cases type with
    | inLink => exact List.mem_cons_self
    | outLink => exact List.mem_cons_of_mem _ List.mem_cons_self
  · intro ptask hptask task htask
    apply hlt
    apply List.mem_append_right
    exact List.mem_flatMap.mpr ⟨ptask, hptask, List.mem_map_of_mem htask⟩

theorem Thread.afterReset_asInitial_iff (thread : Thread n) :
    (thread.afterReset.AsInitial ∧ ∀ q ∈ [ThreadQueue.recvWithoutSend, .sendWithoutRecv,
      .irecvsExecuted], NoRecord (thread.queues q)) ↔ thread.Forgotten := by
  constructor
  · intro ⟨h, hrecords⟩
    refine ⟨?_, h.links, ?_, h.counters, hrecords⟩
    · intro q hq
      have hqueue := h.queues q
      rw [Thread.afterReset] at hqueue
      simpa only [if_neg hq] using hqueue
    · intro flag hflag
      exact (if_neg hflag).symm.trans (h.flags flag)
  · intro h
    refine ⟨⟨?_, h.links, ?_, h.counters⟩, h.records⟩
    · intro q
      rw [Thread.afterReset]
      simp only
      split
      · rfl
      · rename_i hq
        exact h.queues q hq
    · intro flag
      rw [Thread.afterReset]
      simp only
      split
      · rfl
      · rename_i hflag
        exact h.flags flag hflag

theorem Task.afterReset_asInitial_iff {fuel : Nat} (task : Task n)
    (hfuel : (task.links.queues (.busy .inLink)).length < fuel) :
    (task.afterReset.AsInitial ∧ task.Ok fuel) ↔ task.Forgotten := by
  constructor
  · intro ⟨h, hok⟩
    refine ⟨hok.outLinks, hok.records, ⟨h.sync.host, h.sync.kernel, h.sync.comm⟩, ?_⟩
    intro thread hthread
    have hinitial := h.threads _ (List.mem_map_of_mem hthread)
    exact thread.afterReset_asInitial_iff.mp ⟨hinitial, hok.threads thread hthread⟩
  · intro h
    have hthreads := fun thread hthread =>
      (Thread.afterReset_asInitial_iff thread).mpr (h.threads thread hthread)
    refine ⟨⟨?_, fun _ => rfl, rfl, ⟨h.sync.host, h.sync.kernel, h.sync.comm⟩, ?_⟩,
      ⟨hfuel, h.outLinks, h.records, ?_⟩⟩
    · rw [Links.allFree_iff]
      intro type
      cases type with
      | inLink => exact Links.release_busy _ _
      | outLink =>
          show (task.links.release .inLink).queues (.busy .outLink) = []
          rw [Links.release_busy_of_ne (by decide), h.outLinks]
    · intro thread hthread
      obtain ⟨thread, hmem, rfl⟩ := List.mem_map.mp hthread
      exact (hthreads thread hmem).1
    · intro thread hthread
      exact (hthreads thread hthread).2

theorem Communicator.afterReset_asInitial_iff (communicator : Communicator) :
    communicator.afterReset.AsInitial ↔ communicator.Forgotten := by
  constructor
  · intro h
    refine ⟨?_, h.nonblock, h.nodes, h.tasks, h.root⟩
    intro q hq
    have hqueue := h.queues q
    rw [Communicator.afterReset] at hqueue
    simpa only [List.mem_singleton, if_neg hq] using hqueue
  · intro h
    refine ⟨?_, h.nonblock, h.nodes, h.tasks, h.root, rfl⟩
    intro q
    rw [Communicator.afterReset]
    simp only [List.mem_singleton]
    split
    · rfl
    · rename_i hq
      exact h.queues q hq

theorem Node.afterReset_asInitial_iff {fuel : Nat} {node node' : Node} {ready : List Element}
    (hready : MadeReady node.afterReset node' ready)
    (hfuel : ∀ type, (node.links.queues (.busy type)).length < fuel) :
    (node'.AsInitial ∧ node.Ok fuel) ↔ node.Forgotten := by
  constructor
  · intro ⟨h, hok⟩
    refine ⟨?_, ?_, ?_, hok.records⟩
    · intro q hq
      have hne : q ≠ .ready := fun heq => hq (by simp [heq])
      have hqueue := h.queues q hne
      rw [hready.queues q hne, Node.afterReset] at hqueue
      simpa only [if_neg hq] using hqueue
    · intro counter
      have hcounter := h.counters counter
      rw [hready.counters] at hcounter
      exact hcounter
    · have hdisks := h.disks
      rw [hready.ioDisks, hready.requests] at hdisks
      exact hdisks
  · intro h
    refine ⟨⟨?_, ?_, ?_, ?_, ?_⟩, ⟨hfuel, h.records⟩⟩
    · rw [Links.allFree_iff, hready.links]
      intro type
      cases type with
      | inLink =>
          show ((node.links.release .inLink).release .outLink).queues (.busy .inLink) = []
          rw [Links.release_busy_of_ne (by decide), Links.release_busy]
      | outLink => exact Links.release_busy _ _
    · intro q hq
      rw [hready.queues q hq, Node.afterReset]
      simp only
      split
      · rfl
      · rename_i hmem
        exact h.queues q hmem
    · intro counter
      rw [hready.counters]
      exact h.counters counter
    · rw [hready.ioDisks, hready.requests]
      exact h.disks
    · intro cpu hcpu
      rw [hready.cpus] at hcpu
      obtain ⟨_, _, hnone⟩ := List.mem_map.mp hcpu
      exact hnone.symm

/-- The reset ends and leaves the resources as at the start. -/
def Resets (s : State n) : Prop :=
  ∃ fuel s' freed, resetState fuel s = some (s', freed) ∧ s'.AsInitial freed

theorem afterReset_threads (s : State n) :
    s.afterReset.threads = s.threads.map Thread.afterReset :=
  threads_map s

theorem afterReset_ready (s : State n) (i : Fin n) :
    (((s.afterReset.nodes i).queues .ready)).Perm
      ((s.afterReset.threads.filter fun thread => thread.node = i).map
        fun thread => .thread thread.id) := by
  have hready := (foldl_threadToReady (s.threads.map Thread.afterReset)
    (fun i => (s.nodes i).afterReset) i).ready
  rw [afterReset_threads]
  exact hready

theorem forgotten_of_asInitial {fuel : Nat} {s : State n} {freed : List Element}
    (hnodes : ∀ i, (s.nodes i).Ok fuel)
    (htasks : ∀ ptask ∈ s.ptasks, ∀ task ∈ ptask.tasks, task.Ok fuel)
    (hfreed : ∀ id, .thread id ∈ freed ↔ s.Frees (.thread id))
    (h : s.afterReset.AsInitial freed) : s.Forgotten where
  nodes i := (Node.afterReset_asInitial_iff (foldl_threadToReady (s.threads.map Thread.afterReset)
    (fun i => (s.nodes i).afterReset) i) (hnodes i).links).mp ⟨h.nodes i, hnodes i⟩
  machines := h.machines
  connections := h.connections
  ports := h.ports
  released ptask hptask :=
    have hreleased := (h.ptasks _ (List.mem_map_of_mem hptask)).released
    ⟨hreleased.windows, hreleased.files, hreleased.requests⟩
  communicators ptask hptask communicator hcommunicator :=
    communicator.afterReset_asInitial_iff.mp ((h.ptasks _ (List.mem_map_of_mem hptask)).communicators
      _ (List.mem_map_of_mem hcommunicator))
  tasks task htask := by
    obtain ⟨ptask, hptask, hmem⟩ := List.mem_flatMap.mp htask
    have hok := htasks ptask hptask task hmem
    have hinitial := (h.ptasks _ (List.mem_map_of_mem hptask)).tasks _ (List.mem_map_of_mem hmem)
    exact (task.afterReset_asInitial_iff hok.inLinks).mp ⟨hinitial, hok⟩
  alive thread hthread := by
    rw [← hfreed]
    have hmem : thread.afterReset ∈ s.afterReset.threads := by
      rw [afterReset_threads]
      exact List.mem_map_of_mem hthread
    exact h.alive thread.afterReset hmem

theorem asInitial_of_forgotten {s : State n} {freed : List Element} (h : s.Forgotten)
    (hfreed : ∀ id, .thread id ∈ freed ↔ s.Frees (.thread id)) :
    s.afterReset.AsInitial freed where
  wan := rfl
  finished := rfl
  nodes i := by
    obtain ⟨fuel, hfuel, _⟩ := exists_fuel s
    exact ((Node.afterReset_asInitial_iff (foldl_threadToReady (s.threads.map Thread.afterReset)
      (fun i => (s.nodes i).afterReset) i) (hfuel i)).mpr (h.nodes i)).1
  machines := h.machines
  connections := h.connections
  ports := h.ports
  ptasks ptask' hptask' := by
    obtain ⟨ptask, hptask, rfl⟩ := List.mem_map.mp hptask'
    constructor
    · intro communicator' hcommunicator'
      obtain ⟨communicator, hmem, rfl⟩ := List.mem_map.mp hcommunicator'
      exact communicator.afterReset_asInitial_iff.mpr (h.communicators ptask hptask _ hmem)
    · have hreleased := h.released ptask hptask
      exact ⟨hreleased.windows, hreleased.files, hreleased.requests⟩
    · rfl
    · intro task' htask'
      obtain ⟨task, hmem, rfl⟩ := List.mem_map.mp htask'
      have htask := h.tasks task (List.mem_flatMap.mpr ⟨ptask, hptask, hmem⟩)
      exact ((task.afterReset_asInitial_iff (Nat.lt_succ_self _)).mpr htask).1
  ready := afterReset_ready s
  alive thread hthread := by
    rw [afterReset_threads] at hthread
    obtain ⟨thread, hmem, rfl⟩ := List.mem_map.mp hthread
    rw [hfreed]
    exact h.alive thread hmem

/-- The reset does what it is for exactly if nothing is in use of what it forgets. -/
theorem resets_iff (s : State n) : Resets s ↔ s.Forgotten := by
  constructor
  · intro ⟨fuel, s', freed, hreset, hinitial⟩
    obtain ⟨hnodes, htasks⟩ := resetState_isSome s (Option.isSome_of_eq_some hreset)
    obtain ⟨freed', hreset', hfreed⟩ := resetState_eq s hnodes htasks
    rw [hreset, Option.some.injEq, Prod.mk.injEq] at hreset'
    rw [← hreset'.2] at hfreed
    rw [hreset'.1] at hinitial
    exact forgotten_of_asInitial hnodes htasks hfreed hinitial
  · intro h
    obtain ⟨fuel, hnodes, htasks⟩ := exists_fuel s
    have hok : ∀ ptask ∈ s.ptasks, ∀ task ∈ ptask.tasks, task.Ok fuel := by
      intro ptask hptask task htask
      have hforgotten := h.tasks task (List.mem_flatMap.mpr ⟨ptask, hptask, htask⟩)
      exact ((task.afterReset_asInitial_iff (htasks ptask hptask task htask)).mpr hforgotten).2
    obtain ⟨freed, hreset, hfreed⟩ :=
      resetState_eq s (fun i => ⟨hnodes i, (h.nodes i).records⟩) hok
    exact ⟨fuel, s.afterReset, freed, hreset, asInitial_of_forgotten h hfreed⟩

def outLink (busy : List Nat) : Links where
  created
    | .inLink => []
    | .outLink => busy
  queues
    | .busy .outLink => busy
    | _ => []
  accounted type := by
    cases type <;> exact List.Perm.refl _

def waitingReceiver : TaskQueue → List Element
  | .recv => [.thread ⟨0, 0, 0⟩]
  | _ => []

/-- A message of a task goes out to its own node while its thread waits for a receive. -/
def outgoing : State 1 where
  wanThreadsOnNetwork := []
  finishedThreadsCount := 0
  nodes _ := ⟨outLink [], fun _ => [], fun _ => 0, [], 0, [none], false⟩
  machines := []
  connections := []
  ports := []
  ptasks := [⟨[], [], [], [], [], [⟨outLink [1], waitingReceiver, none, none, none, -1,
    [⟨⟨0, 0, 0⟩, ⟨0, Nat.one_pos⟩, fun _ => [], none, fun _ => none, fun _ => false, fun _ => 0⟩]⟩]⟩]

/-- The busy output link of a task keeps the reset from ending. -/
theorem not_resets : ¬ ∀ (n : Nat) (s : State n), Resets s := by
  intro h
  obtain ⟨fuel, s', freed, hreset, _⟩ := h 1 outgoing
  have htask := (resetState_isSome outgoing (Option.isSome_of_eq_some hreset)).2 _
    List.mem_cons_self _ List.mem_cons_self
  exact List.cons_ne_nil 1 [] htask.outLinks

end

end Dimemas.Model.ResetState
