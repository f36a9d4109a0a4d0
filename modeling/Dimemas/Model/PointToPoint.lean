import Dimemas.Model.Handshake
/-!
# Point-to-point actions

SEND, RECV, IRECV and WAIT of one application, as `COMMUNIC_send`, `COMMUNIC_recv`,
`COMMUNIC_Irecv` and `COMMUNIC_wait` execute them, the physical arrival of a message
(`message_received`) and the end of a busy wait (`COMMUNIC_block_after_busy_wait`).
A transfer that has been started arrives at any later time, so that every schedule
of the network and of the processors is one of the runs.
-/

namespace Dimemas.Model.PointToPoint

open Dimemas.Library.SearchedQueue Dimemas.Library.Transitions
open Dimemas.Model.Messages Dimemas.Model.Handshake

/-- The point-to-point actions of a trace. -/
inductive P2PAction
  | send (mess : TSend)
  | recv (mess : TRecv)
  | irecv (mess : TRecv)
  | wait (mess : TRecv)
deriving DecidableEq, Repr

inductive ThreadStatus
  | ready | blocked | busyWait
deriving DecidableEq, Repr

/-- An original thread; the head of `actions` is its current action. -/
structure P2PThread where
  taskid : Nat
  actions : List P2PAction
  status : ThreadStatus
deriving DecidableEq, Repr

/-- The state of the application: its queues and threads and the transfers on the network.
`started` records the transfers started, `arrived` and `consumed`, for each task, the
messages that `message_received` brought to it and those its receives took, all
oldest first. -/
structure P2PState where
  handshake : HandshakeState
  threads : Nat → P2PThread
  inFlight : List SendThread
  started : List SendThread
  arrived : Nat → List SendThread
  consumed : Nat → List (SendThread × RecvThread)
  executed : Nat

namespace P2PState

def init (tasksCount : Nat) (taskOf : Nat → Nat) (programs : Nat → List P2PAction) : P2PState :=
  ⟨.init tasksCount, fun t => ⟨taskOf t, programs t, .ready⟩, [], [], fun _ => [],
    fun _ => [], 0⟩

variable (s : P2PState)

def task (d : Nat) : TTask := s.handshake.ptask.tasks d

def setTask (d : Nat) (t : TTask) : P2PState :=
  { s with handshake := { s.handshake with ptask := s.handshake.ptask.setTask d t } }

def setThread (t : Nat) (th : P2PThread) : P2PState :=
  { s with threads := fun i => if i = t then th else s.threads i }

/-- `thread->action = action->next` and `SCHEDULER_thread_to_ready`. -/
def advance (t : Nat) : P2PState :=
  s.setThread t { s.threads t with actions := (s.threads t).actions.tail, status := .ready }

def setStatus (t : Nat) (status : ThreadStatus) : P2PState :=
  s.setThread t { s.threads t with status := status }

/-- `really_send`: the transfer is on its way. -/
def reallySend (thread : SendThread) : P2PState :=
  { s with inFlight := s.inFlight ++ [thread], started := s.started ++ [thread] }

def recordArrival (d : Nat) (thread : SendThread) : P2PState :=
  { s with arrived := fun i => if i = d then s.arrived i ++ [thread] else s.arrived i }

def recordConsumed (d : Nat) (thread : SendThread) (recv : RecvThread) : P2PState :=
  { s with consumed := fun i =>
      if i = d then s.consumed i ++ [(thread, recv)] else s.consumed i }

def sendThread (t : Nat) (mess : TSend) : SendThread :=
  ⟨t, (s.threads t).taskid, true, s.executed, mess⟩

def recvThread (t : Nat) (isIrecv : Bool) (mess : TRecv) : RecvThread :=
  ⟨t, (s.threads t).taskid, isIrecv, s.executed, mess⟩

end P2PState

/-- `locate_receiver_real_MPI_transfer`. -/
def locateReceiver (threads : List RecvThread) (sender : SendThread) : Option RecvThread :=
  threads.find? fun recv => matchesMess recv.mess sender

/-- `COMMUNIC_send` from the point where its startup is over. -/
def communicSend (s : P2PState) (t : Nat) (mess : TSend) : Option P2PState := do
  let thread := s.sendThread t mess
  let dest ← s.handshake.ptask.locateTask mess.dest
  let (handshake, hiHaIrecv) ← communicSendReached s.handshake thread
  let s := { s with handshake := handshake }
  let partner := locateReceiver (s.task dest).recv thread
  if mess.rendezVous && !hiHaIrecv && partner.isNone then
    let task := s.task thread.taskid
    if mess.immediate then
      some ((s.setTask thread.taskid
        { task with send := task.send ++ [duplicateThread thread] }).advance t)
    else
      some ((s.setTask thread.taskid { task with send := task.send ++ [thread] }).setStatus t
        .blocked)
  else some ((s.reallySend (duplicateThread thread)).advance t)

/-- The test of `Start_communication_if_partner_ready_for_rendez_vous_real_MPI_transfer`
on a queued sender, for a receive of the task `taskid`. -/
def startMatches (taskid : Nat) (mess : TRecv) (sender : SendThread) : Bool :=
  sender.mess.messTag = mess.messTag && sender.mess.communicId = mess.communicId &&
    (sender.mess.dest = taskid || sender.mess.dest = -1)

/-- One pass of the inner loop of the wildcard search. The loop steps to the next sender
before it looks at `trobat`, so a hit leaves `sender` behind the matching one, and
once there was a hit it leaves the head of the queue. -/
def wildcardPass (taskid : Nat) (mess : TRecv) (trobat : Bool) (queue : List SendThread) :
    Bool × Option SendThread :=
  if trobat then (true, queue.head?)
  else
    match queue.dropWhile fun sender => !startMatches taskid mess sender with
    | [] => (false, none)
    | _ :: rest => (true, rest.head?)

/-- The wildcard search over all tasks: what `sender` is after the last of them. -/
def wildcardSender (p : TPtask) (taskid : Nat) (mess : TRecv) : Option SendThread :=
  ((List.range p.tasksCount).foldl
    (fun r k => wildcardPass taskid mess r.1 (p.tasks k).send) (false, none)).2

/-- The rest of `Start_communication…` for the sender taken out of its queue: it is sent
by a copy if it is an original thread, which then goes on. -/
def startSender (s : P2PState) (sender : SendThread) : P2PState :=
  if sender.originalThread then
    (s.reallySend (duplicateThread sender)).advance sender.threadid
  else s.reallySend sender

/-- `Start_communication_if_partner_ready_for_rendez_vous_real_MPI_transfer`. -/
def startCommunication (s : P2PState) (taskid : Nat) (mess : TRecv) : Option P2PState :=
  if mess.ori ≠ -1 then do
    let src ← s.handshake.ptask.locateTask mess.ori
    match takeFirst (startMatches taskid mess) (s.task src).send with
    | none => some s
    | some (sender, rest) =>
        some (startSender (s.setTask src { s.task src with send := rest }) sender)
  else
    let last := s.handshake.ptask.tasksCount - 1
    match wildcardSender s.handshake.ptask taskid mess with
    | none => some s
    | some sender =>
        some (startSender
          (s.setTask last { s.task last with send := (s.task last).send.erase sender }) sender)

/-- `is_message_awaiting_real_MPI_transfer` and what `COMMUNIC_recv` and `COMMUNIC_wait` do
with its answer. A receive without a source panics in its `locate_task`. -/
def awaitMessage (busywait : Nat → Bool) (s : P2PState) (thread : RecvThread) :
    Option P2PState := do
  let task := s.task thread.taskid
  let _ ← s.handshake.ptask.locateTask thread.mess.ori
  match takeFirst (matchesMess thread.mess) task.messRecv with
  | some (source, rest) =>
      let s := s.setTask thread.taskid { task with messRecv := rest }
      some ((s.recordConsumed thread.taskid source thread).advance thread.threadid)
  | none =>
      let s ← startCommunication s thread.taskid thread.mess
      if busywait thread.taskid then some (s.setStatus thread.threadid .busyWait)
      else
        let task := s.task thread.taskid
        some ((s.setTask thread.taskid { task with recv := task.recv ++ [thread] }).setStatus
          thread.threadid .blocked)

/-- `COMMUNIC_recv` from the point where its startup is over. -/
def communicRecv (busywait : Nat → Bool) (s : P2PState) (t : Nat) (mess : TRecv) :
    Option P2PState :=
  let thread := s.recvThread t false mess
  let (handshake, _) := communicRecvReached s.handshake thread
  awaitMessage busywait { s with handshake := handshake } thread

def communicWait (busywait : Nat → Bool) (s : P2PState) (t : Nat) (mess : TRecv) :
    Option P2PState :=
  awaitMessage busywait s (s.recvThread t false mess)

def communicIrecv (s : P2PState) (t : Nat) (mess : TRecv) : Option P2PState := do
  let thread := s.recvThread t true mess
  let (handshake, hiHaSendSync) := communicRecvReached s.handshake thread
  let s := { s with handshake := handshake }
  if hiHaSendSync then (startCommunication s thread.taskid mess).map fun s => s.advance t
  else some (s.advance t)

/-- `message_received` for a message taken off the network. -/
def messageReceived (s : P2PState) (thread : SendThread) : Option P2PState := do
  let dest ← s.handshake.ptask.locateTask thread.mess.dest
  let task := s.task dest
  let s := s.recordArrival dest thread
  match takeFirst (fun recv => matchesMess recv.mess thread) task.recv with
  | none => some (s.setTask dest { task with messRecv := task.messRecv ++ [thread] })
  | some (partner, rest) =>
      let s := s.setTask dest { task with recv := rest }
      some ((s.recordConsumed dest thread partner).advance partner.threadid)

def communicBlockAfterBusyWait (s : P2PState) (t : Nat) (mess : TRecv) : P2PState :=
  let thread := s.recvThread t false mess
  let task := s.task thread.taskid
  (s.setTask thread.taskid { task with recv := task.recv ++ [thread] }).setStatus t .blocked

/-! ## Runs -/

/-- What can happen next: a ready thread executes its current action, a message arrives, or
a busy wait ends (by its timer or by preemption). -/
inductive P2PLabel
  | exec (t : Nat)
  | arrive (i : Nat)
  | endBusyWait (t : Nat)
deriving DecidableEq, Repr

def P2PThread.waitingFor (th : P2PThread) : Option TRecv :=
  match th.status, th.actions with
  | .busyWait, .recv mess :: _ => some mess
  | .busyWait, .wait mess :: _ => some mess
  | _, _ => none

def execAction (busywait : Nat → Bool) (s : P2PState) (t : Nat) : P2PAction → Option P2PState
  | .send mess => communicSend s t mess
  | .recv mess => communicRecv busywait s t mess
  | .irecv mess => communicIrecv s t mess
  | .wait mess => communicWait busywait s t mess

def P2PThread.readyAction (th : P2PThread) : Option P2PAction :=
  match th.status with
  | .ready => th.actions.head?
  | _ => none

def p2pNext (busywait : Nat → Bool) (s : P2PState) : P2PLabel → Option P2PState
  | .exec t => ((s.threads t).readyAction.bind (execAction busywait s t)).map fun s =>
      { s with executed := s.executed + 1 }
  | .arrive i => s.inFlight[i]?.bind
      (messageReceived { s with inFlight := s.inFlight.eraseIdx i })
  | .endBusyWait t => (s.threads t).waitingFor.map (communicBlockAfterBusyWait s t)

end Dimemas.Model.PointToPoint
