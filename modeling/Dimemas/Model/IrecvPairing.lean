import Mathlib.Logic.Function.Basic
import Dimemas.Model.LogicalReceives
/-!
# IRECVs and the receives that complete them

RECV, IRECV and WAIT of the threads of an application and the arrival of their messages, with the
logical receive that `communic.c` reports for each message when `wait_logical_recv` is not set. A
ledger of the IRECVs that no WAIT has completed yet says which time each report should have.
-/

namespace Dimemas.Model.IrecvPairing

open Dimemas.Model.LogicalReceives

/-! ## The queues of tasks and threads -/

/-- Where a queue is: real MPI transfers use those of the task, dependency synchronisations those of
the thread. -/
inductive Place where
  | task (taskid : Int)
  | thread (th : ThreadId)
deriving DecidableEq, Repr

def recvPlace (th : ThreadId) (mess : Recv) : Place :=
  if mess.oriThread = -1 then .task th.taskid else .thread th

def sendPlace (mess : Send) : Place :=
  if mess.destThread = -1 then .task mess.dest else .thread ⟨mess.dest, mess.destThread⟩

/-- The current RECV or WAIT of a thread. `issued` is when the thread came to it. -/
structure Receive where
  isWait : Bool
  mess : Recv
  issued : Nat
deriving DecidableEq, Repr

inductive Status where
  | running
  | busyWaiting (r : Receive)
  | blocked (r : Receive)
deriving DecidableEq, Repr

/-- What `PARAVER_P2P_Comm` is told of a message. -/
structure Communication where
  source : SendThread
  receiver : ThreadId
  logicalRecv : Nat
deriving DecidableEq, Repr

/-- `executed` numbers the notifications, and `communications` are the messages received, oldest
first. -/
structure State where
  recv : Place → List ThreadId
  messRecv : Place → List SendThread
  irecvsExecuted : Place → List Notification
  status : ThreadId → Status
  logicalRecv : ThreadId → Nat
  executed : Nat
  communications : List Communication

def State.init : State :=
  ⟨fun _ => [], fun _ => [], fun _ => [], fun _ => .running, fun _ => 0, 0, []⟩

/-- The number of tasks, and the tasks on machines with `busywait_before_block`. -/
structure Application where
  tasksCount : Nat
  busywaitBeforeBlock : Int → Bool

/-- `locate_task` panics for an identifier out of range. -/
def Application.hasTask (A : Application) (taskid : Int) : Bool :=
  0 ≤ taskid && taskid < A.tasksCount

/-! ## The actions -/

/-- The search in `irecvs_executed` of a place, and the report of the message. -/
def reportCommunication (s : State) (place : Place) (key : Lookup) (source : SendThread)
    (receiver : ThreadId) : State :=
  let (irecvs, actualLogicalRecv) :=
    takeNotification key (s.logicalRecv receiver) (s.irecvsExecuted place)
  { s with
    irecvsExecuted := Function.update s.irecvsExecuted place irecvs
    communications := s.communications ++ [⟨source, receiver, actualLogicalRecv⟩] }

def awaitingMessage (s : State) (th : ThreadId) (mess : Recv) : Option SendThread :=
  (s.messRecv (recvPlace th mess)).find? (matchesMess th.threadid mess)

/-- `is_message_awaiting_real_MPI_transfer` and `is_message_awaiting_dependency_synchronization`.
The second one asserts that the source is the task itself. -/
def isMessageAwaiting (A : Application) (s : State) (th : ThreadId) (mess : Recv) :
    Option (State × Bool) :=
  if mess.oriThread ≠ -1 ∧ mess.ori ≠ th.taskid then none
  else
    let place := recvPlace th mess
    let (s, result) :=
      match awaitingMessage s th mess with
      | none => (s, false)
      | some source =>
          let messRecv := Function.update s.messRecv place ((s.messRecv place).erase source)
          (reportCommunication { s with messRecv := messRecv } place mess.lookup source th, true)
    if A.hasTask mess.ori then some (s, result) else none

/-- The thread waits in the queue `recv`. -/
def block (s : State) (th : ThreadId) (r : Receive) : State :=
  let place := recvPlace th r.mess
  { s with
    recv := Function.update s.recv place (s.recv place ++ [th])
    status := Function.update s.status th (.blocked r) }

/-- What `COMMUNIC_recv` and `COMMUNIC_wait` do with the answer of the search. -/
def awaitMessage (A : Application) (s : State) (th : ThreadId) (r : Receive) : Option State := do
  let (s, awaiting) ← isMessageAwaiting A s th r.mess
  if awaiting then some s
  else if A.busywaitBeforeBlock th.taskid then
    some { s with status := Function.update s.status th (.busyWaiting r) }
  else some (block s th r)

/-- `COMMUNIC_recv` sets the logical receive of its thread. -/
def communicRecv (A : Application) (s : State) (th : ThreadId) (mess : Recv) (now : Nat) :
    Option State :=
  awaitMessage A { s with logicalRecv := Function.update s.logicalRecv th now } th ⟨false, mess, now⟩

def communicWait (A : Application) (s : State) (th : ThreadId) (mess : Recv) (now : Nat) :
    Option State :=
  awaitMessage A s th ⟨true, mess, now⟩

def communicIrecv (s : State) (th : ThreadId) (mess : Recv) (now : Nat) : State :=
  let place := recvPlace th mess
  { s with
    irecvsExecuted := Function.update s.irecvsExecuted place
      (s.irecvsExecuted place ++ [⟨s.executed, mess, now⟩])
    executed := s.executed + 1 }

def communicBlockAfterBusyWait (s : State) (th : ThreadId) : Option State :=
  match s.status th with
  | .busyWaiting r => some (block s th r)
  | _ => none

/-- The receive that a thread in the queue `recv` is blocked at. -/
def blockedReceive (s : State) (th : ThreadId) : Option Receive :=
  match s.status th with
  | .blocked r => some r
  | _ => none

/-- The test of `locate_receiver`. -/
def receives (s : State) (source : SendThread) (th : ThreadId) : Bool :=
  match blockedReceive s th with
  | some r => matchesMess th.threadid r.mess source
  | none => false

/-- `locate_receiver_real_MPI_transfer` and `locate_receiver_dependencies_synchronization`. -/
def locateReceiver (s : State) (source : SendThread) : Option ThreadId :=
  (s.recv (sendPlace source.mess)).find? (receives s source)

/-- `message_received`, which looks for notifications in the queue of the task only. -/
def messageReceived (A : Application) (s : State) (source : SendThread) : Option State :=
  let place := sendPlace source.mess
  if A.hasTask source.mess.dest then
    match locateReceiver s source with
    | none =>
        some { s with messRecv := Function.update s.messRecv place (s.messRecv place ++ [source]) }
    | some partner =>
        some (reportCommunication { s with
          recv := Function.update s.recv place ((s.recv place).erase partner)
          status := Function.update s.status partner .running }
          (.task partner.taskid) source.lookup source partner)
  else none

inductive Event where
  | recv (th : ThreadId) (mess : Recv) (now : Nat)
  | irecv (th : ThreadId) (mess : Recv) (now : Nat)
  | wait (th : ThreadId) (mess : Recv) (now : Nat)
  | blockAfterBusyWait (th : ThreadId)
  | arrive (source : SendThread)
deriving DecidableEq, Repr

def step (A : Application) (s : State) : Event → Option State
  | .recv th mess now => communicRecv A s th mess now
  | .irecv th mess now => some (communicIrecv s th mess now)
  | .wait th mess now => communicWait A s th mess now
  | .blockAfterBusyWait th => communicBlockAfterBusyWait s th
  | .arrive source => messageReceived A s source

/-! ## The ledger -/

/-- An IRECV that a thread posted. -/
structure Request where
  thread : ThreadId
  notification : Notification
deriving DecidableEq, Repr

def Request.place (q : Request) : Place := recvPlace q.thread q.notification.mess

/-- The IRECVs that no WAIT has completed, oldest first, and the communications that the program
should report. -/
structure Ledger where
  posted : List Request
  expected : List Communication

def Ledger.init : Ledger := ⟨[], []⟩

/-- A WAIT completes an IRECV of its thread with the same source, tag and communicator. -/
def completes (th : ThreadId) (mess : Recv) (q : Request) : Bool :=
  q.thread = th && q.notification.mess.lookup = mess.lookup

def Ledger.completedBy (l : Ledger) (th : ThreadId) (mess : Recv) : Option Request :=
  l.posted.find? (completes th mess)

/-- A message that a step gives to a receive, with the search that it makes for the notification. -/
structure Consumption where
  receiver : ThreadId
  receive : Receive
  source : SendThread
  searched : Place
  key : Lookup
deriving DecidableEq, Repr

def consumption (s : State) : Event → Option Consumption
  | .recv th mess now => (awaitingMessage s th mess).map fun source =>
      ⟨th, ⟨false, mess, now⟩, source, recvPlace th mess, mess.lookup⟩
  | .wait th mess now => (awaitingMessage s th mess).map fun source =>
      ⟨th, ⟨true, mess, now⟩, source, recvPlace th mess, mess.lookup⟩
  | .arrive source => (locateReceiver s source).bind fun partner =>
      (blockedReceive s partner).map fun r =>
        ⟨partner, r, source, .task partner.taskid, source.lookup⟩
  | _ => none

/-- A RECV is reported at its own time, and a WAIT at that of the IRECV that it completes. -/
def Ledger.consume (l : Ledger) (c : Consumption) : Ledger :=
  if c.receive.isWait then
    match l.completedBy c.receiver c.receive.mess with
    | none => l
    | some q =>
        { posted := l.posted.erase q
          expected := l.expected ++ [⟨c.source, c.receiver, q.notification.logicalRecv⟩] }
  else { l with expected := l.expected ++ [⟨c.source, c.receiver, c.receive.issued⟩] }

def Ledger.step (s : State) (l : Ledger) : Event → Ledger
  | .irecv th mess now => { l with posted := l.posted ++ [⟨th, s.executed, mess, now⟩] }
  | e =>
      match consumption s e with
      | none => l
      | some c => l.consume c

/-- A thread executes its next action when it is not waiting, and waits for an IRECV that it
posted. -/
def Enabled (s : State) (l : Ledger) : Event → Prop
  | .recv th _ _ => s.status th = .running
  | .irecv th _ _ => s.status th = .running
  | .wait th mess _ => s.status th = .running ∧ (l.completedBy th mess).isSome = true
  | _ => True

/-- The runs of an application, with the states and the steps that they passed. -/
inductive Run (A : Application) : List (State × Ledger × Event) → State → Ledger → Prop
  | init : Run A [] .init .init
  | step {past : List (State × Ledger × Event)} {s s' : State} {l : Ledger} (e : Event)
      (hrun : Run A past s l) (henabled : Enabled s l e) (hstep : step A s e = some s') :
      Run A (past ++ [(s, l, e)]) s' (l.step s e)

/-! ## The property and the condition -/

def notificationsAt (place : Place) (posted : List Request) : List Notification :=
  (posted.filter fun q => q.place = place).map Request.notification

/-- Every communication was reported with the time it should have, and every IRECV that no WAIT has
completed has its notification. -/
def Paired (s : State) (l : Ledger) : Prop :=
  s.communications = l.expected ∧ ∀ place, s.irecvsExecuted place = notificationsAt place l.posted

/-- A RECV takes its message when no IRECV of the searched queue answers the search. A WAIT takes
it when the IRECV that it completes is in the searched queue, and none before it there answers. -/
def Undisturbed (l : Ledger) (c : Consumption) : Prop :=
  if c.receive.isWait then
    ∃ older q newer, l.posted = older ++ q :: newer ∧
      l.completedBy c.receiver c.receive.mess = some q ∧ q.place = c.searched ∧
      ∀ q' ∈ older, q'.place = c.searched → ¬ answers c.key q'.notification = true
  else ∀ q ∈ l.posted, q.place = c.searched → ¬ answers c.key q.notification = true

def Meets (s : State) (l : Ledger) (e : Event) : Prop :=
  ∀ c ∈ consumption s e, Undisturbed l c

/-! ## One consumption -/

variable {A : Application} {s s' : State} {l : Ledger} {e : Event} {c : Consumption} {q : Request}
variable {th : ThreadId} {mess : Recv} {place : Place}

def Status.receive? : Status → Option Receive
  | .running => none
  | .busyWaiting r => some r
  | .blocked r => some r

/-- A waiting RECV has its own time as the logical receive of the thread, and a waiting WAIT has an
IRECV to complete. -/
def WaitsOk (s : State) (l : Ledger) : Prop :=
  ∀ th, ∀ r ∈ (s.status th).receive?,
    (r.isWait = false → s.logicalRecv th = r.issued) ∧
      (r.isWait = true → (l.completedBy th r.mess).isSome = true)

/-- What holds in every run, whether its communications are paired or not. -/
structure Consistent (s : State) (l : Ledger) : Prop where
  serials : ∀ q ∈ l.posted, q.notification.serial < s.executed
  nodup : (l.posted.map fun q => q.notification.serial).Nodup
  waits : WaitsOk s l

/-- What a step does that gives a message to a receive. -/
structure Consumes (s s' : State) (c : Consumption) : Prop where
  irecvs : s'.irecvsExecuted = Function.update s.irecvsExecuted c.searched
    (takeNotification c.key (s'.logicalRecv c.receiver) (s.irecvsExecuted c.searched)).1
  communications : s'.communications = s.communications ++ [⟨c.source, c.receiver,
    (takeNotification c.key (s'.logicalRecv c.receiver) (s.irecvsExecuted c.searched)).2⟩]
  executed : s'.executed = s.executed
  running : s'.status c.receiver = .running
  others : ∀ th, th ≠ c.receiver →
    s'.status th = s.status th ∧ s'.logicalRecv th = s.logicalRecv th

/-- What the receive of a consumption brings to it. -/
structure Admits (l : Ledger) (s' : State) (c : Consumption) : Prop where
  own : c.receive.isWait = false → s'.logicalRecv c.receiver = c.receive.issued
  request : c.receive.isWait = true → (l.completedBy c.receiver c.receive.mess).isSome = true
  answered : ∀ q, completes c.receiver c.receive.mess q = true →
    answers c.key q.notification = true

theorem notificationsAt_append (place : Place) (older newer : List Request) :
    notificationsAt place (older ++ newer) =
      notificationsAt place older ++ notificationsAt place newer := by
  unfold notificationsAt
  rw [List.filter_append, List.map_append]

theorem notificationsAt_cons (place : Place) (q : Request) (newer : List Request) :
    notificationsAt place (q :: newer) =
      if q.place = place then q.notification :: notificationsAt place newer
      else notificationsAt place newer := by
  unfold notificationsAt
  by_cases hplace : q.place = place
  · have hkept : decide (q.place = place) = true := decide_eq_true hplace
    rw [if_pos hplace, List.filter_cons, if_pos hkept, List.map_cons]
  · have hdropped : ¬ decide (q.place = place) = true := fun h => hplace (of_decide_eq_true h)
    rw [if_neg hplace, List.filter_cons, if_neg hdropped]

theorem mem_notificationsAt {n : Notification} {posted : List Request} :
    n ∈ notificationsAt place posted ↔ ∃ q ∈ posted, q.place = place ∧ q.notification = n := by
  unfold notificationsAt
  rw [List.mem_map]
  constructor
  · rintro ⟨q, hq, hn⟩
    obtain ⟨hmem, hplace⟩ := List.mem_filter.mp hq
    exact ⟨q, hmem, of_decide_eq_true hplace, hn⟩
  · rintro ⟨q, hmem, hplace, hn⟩
    exact ⟨q, List.mem_filter.mpr ⟨hmem, decide_eq_true hplace⟩, hn⟩

theorem Consistent.posted_nodup (h : Consistent s l) : l.posted.Nodup :=
  List.Nodup.of_map _ h.nodup

theorem Consistent.notificationsAt_nodup (h : Consistent s l) (place : Place) :
    (notificationsAt place l.posted).Nodup := by
  have hserials := h.nodup
  rw [show (fun q : Request => q.notification.serial) =
    Notification.serial ∘ Request.notification from rfl, ← List.map_map] at hserials
  exact (List.Nodup.of_map _ hserials).sublist (List.filter_sublist.map _)

/-- The queues after a WAIT, where `q` is the IRECV that it completes. -/
theorem paired_consume_wait (h : Consistent s l) (hc : Consumes s s' c) (hpaired : Paired s l)
    {older newer : List Request} (hsplit : l.posted = older ++ q :: newer)
    (hanswers : answers c.key q.notification = true) :
    Paired s' ⟨older ++ newer,
        l.expected ++ [⟨c.source, c.receiver, q.notification.logicalRecv⟩]⟩ ↔
      q.place = c.searched ∧
        ∀ q' ∈ older, q'.place = c.searched → ¬ answers c.key q'.notification = true := by
  have hsearched : s'.irecvsExecuted c.searched = (takeNotification c.key
      (s'.logicalRecv c.receiver) (s.irecvsExecuted c.searched)).1 := by
    rw [hc.irecvs, Function.update_self]
  have hother (place : Place) (hne : place ≠ c.searched) :
      s'.irecvsExecuted place = s.irecvsExecuted place := by
    rw [hc.irecvs, Function.update_of_ne hne]
  -- the searched queue when the IRECV is in it
  have hqueue (hplace : q.place = c.searched) : s.irecvsExecuted c.searched =
      notificationsAt c.searched older ++ q.notification :: notificationsAt c.searched newer := by
    rw [hpaired.2, hsplit, notificationsAt_append, notificationsAt_cons, if_pos hplace]
  have hnodup (hplace : q.place = c.searched) : (notificationsAt c.searched older ++
      q.notification :: notificationsAt c.searched newer).Nodup := by
    rw [← hqueue hplace, hpaired.2]
    exact h.notificationsAt_nodup c.searched
  constructor
  · rintro ⟨-, hqueues⟩
    have hplace : q.place = c.searched := by
      by_contra hne
      have hleft := hqueues q.place
      rw [hother q.place hne, hpaired.2, hsplit, notificationsAt_append, notificationsAt_append,
        notificationsAt_cons, if_pos rfl] at hleft
      have hlength := congrArg List.length hleft
      rw [List.length_append, List.length_append, List.length_cons] at hlength
      omega
    refine ⟨hplace, fun q' hq' hplace' => ?_⟩
    have htake := hqueues c.searched
    rw [hsearched, hqueue hplace, notificationsAt_append] at htake
    exact (takeNotification_eq_append_iff (hnodup hplace) hanswers).mp htake q'.notification
      (mem_notificationsAt.mpr ⟨q', hq', hplace', rfl⟩)
  · rintro ⟨hplace, hnone⟩
    have hnone' : ∀ m ∈ notificationsAt c.searched older, ¬ answers c.key m = true := by
      intro m hm
      obtain ⟨q', hq', hplace', rfl⟩ := mem_notificationsAt.mp hm
      exact hnone q' hq' hplace'
    constructor
    · rw [hc.communications, hpaired.1, hqueue hplace, takeNotification_found hanswers hnone']
    · intro place
      by_cases hne : place = c.searched
      · subst hne
        rw [hsearched, hqueue hplace, notificationsAt_append]
        exact (takeNotification_eq_append_iff (hnodup hplace) hanswers).mpr hnone'
      · rw [hother place hne, hpaired.2, hsplit, notificationsAt_append, notificationsAt_append,
          notificationsAt_cons, if_neg fun heq => hne (heq.symm.trans hplace)]

theorem paired_consume_recv (hc : Consumes s s' c) (hpaired : Paired s l)
    (hown : s'.logicalRecv c.receiver = c.receive.issued) :
    Paired s' ⟨l.posted, l.expected ++ [⟨c.source, c.receiver, c.receive.issued⟩]⟩ ↔
      ∀ q ∈ l.posted, q.place = c.searched → ¬ answers c.key q.notification = true := by
  have hiff : (∀ n ∈ s.irecvsExecuted c.searched, ¬ answers c.key n = true) ↔
      ∀ q ∈ l.posted, q.place = c.searched → ¬ answers c.key q.notification = true := by
    rw [hpaired.2]
    constructor
    · exact fun hnone q hq hplace => hnone _ (mem_notificationsAt.mpr ⟨q, hq, hplace, rfl⟩)
    · intro hnone n hn
      obtain ⟨q, hq, hplace, rfl⟩ := mem_notificationsAt.mp hn
      exact hnone q hq hplace
  rw [← hiff]
  constructor
  · rintro ⟨-, hqueues⟩
    have htake := hqueues c.searched
    rw [hc.irecvs, Function.update_self, ← hpaired.2] at htake
    exact (takeNotification_eq_self_iff _ _).mp htake
  · intro hnone
    constructor
    · rw [hc.communications, hpaired.1, takeNotification_stored hnone, hown]
    · intro place
      rw [hc.irecvs, (takeNotification_eq_self_iff _ _).mpr hnone, Function.update_eq_self]
      exact hpaired.2 place

/-- A message given to a receive keeps the pairing exactly if the search is undisturbed. -/
theorem paired_consume_iff (h : Consistent s l) (hc : Consumes s s' c) (hadmits : Admits l s' c)
    (hpaired : Paired s l) : Paired s' (l.consume c) ↔ Undisturbed l c := by
  unfold Ledger.consume Undisturbed
  cases hwait : c.receive.isWait with
  | false => exact paired_consume_recv hc hpaired (hadmits.own hwait)
  | true =>
      obtain ⟨q, hq⟩ := Option.isSome_iff_exists.mp (hadmits.request hwait)
      have hanswers := hadmits.answered q (List.find?_some hq)
      have herase {older newer : List Request} (hsplit : l.posted = older ++ q :: newer) :
          l.posted.erase q = older ++ newer := by
        have hnodup := h.posted_nodup
        rw [hsplit] at hnodup
        have hfresh : q ∉ older := fun hmem =>
          (List.nodup_cons.mp (List.nodup_middle.mp hnodup)).1 (List.mem_append_left newer hmem)
        rw [hsplit, List.erase_append_right _ hfresh, List.erase_cons_head]
      rw [hq]
      show Paired s' ⟨l.posted.erase q,
        l.expected ++ [⟨c.source, c.receiver, q.notification.logicalRecv⟩]⟩ ↔ _
      constructor
      · intro hkept
        obtain ⟨-, older, newer, hsplit, -⟩ := List.find?_eq_some_iff_append.mp hq
        rw [herase hsplit] at hkept
        obtain ⟨hplace, hnone⟩ := (paired_consume_wait h hc hpaired hsplit hanswers).mp hkept
        exact ⟨older, q, newer, hsplit, rfl, hplace, hnone⟩
      · rintro ⟨older, q', newer, hsplit, hq', hplace, hnone⟩
        obtain rfl := Option.some.inj hq'
        rw [herase hsplit]
        exact (paired_consume_wait h hc hpaired hsplit hanswers).mpr ⟨hplace, hnone⟩

/-! ## One step -/

theorem completes_iff : completes th mess q = true ↔
    q.thread = th ∧ q.notification.mess.lookup = mess.lookup := by
  rw [completes, Bool.and_eq_true, decide_eq_true_eq, decide_eq_true_eq]

/-- The notification of an IRECV answers a search for its own fields. -/
theorem answers_lookup {n : Notification} (h : n.mess.lookup = mess.lookup) :
    answers mess.lookup n = true := by
  rw [← h]
  simp [answers, Recv.lookup]

/-- The notification of an IRECV answers the search for a message that its WAIT takes. -/
theorem answers_source {n : Notification} {source : SendThread} {threadid : Int}
    (hmatches : matchesMess threadid mess source = true)
    (h : n.mess.lookup = mess.lookup) : answers source.lookup n = true := by
  simp only [Recv.lookup, Lookup.mk.injEq] at h
  obtain ⟨hori, horiThread, htag, hcomm⟩ := h
  simp only [matchesMess, Bool.and_eq_true, Bool.or_eq_true, decide_eq_true_eq] at hmatches
  obtain ⟨⟨⟨⟨hthread, htask⟩, hmessTag⟩, hmessComm⟩, -⟩ := hmatches
  simp only [answers, SendThread.lookup, Bool.and_eq_true, Bool.or_eq_true, decide_eq_true_eq, hori,
    horiThread, htag, hcomm]
  exact ⟨⟨⟨htask.imp_left Eq.symm, hthread.imp_left Eq.symm⟩, hmessTag⟩, hmessComm⟩

theorem Consistent.consume (h : Consistent s l) (hc : Consumes s s' c)
    (hadmits : Admits l s' c) : Consistent s' (l.consume c) := by
  have hwaiting (th : ThreadId) (hne : th ≠ c.receiver) (r : Receive)
      (hr : r ∈ (s'.status th).receive?) : (r.isWait = false → s'.logicalRecv th = r.issued) ∧
        (r.isWait = true → (l.completedBy th r.mess).isSome = true) := by
    obtain ⟨hstatus, hlogical⟩ := hc.others th hne
    rw [hstatus] at hr
    rw [hlogical]
    exact h.waits th r hr
  have hrunning (r : Receive) (hr : r ∈ (s'.status c.receiver).receive?) : False := by
    rw [hc.running] at hr
    exact absurd hr (Option.not_mem_none r)
  unfold Ledger.consume
  cases hwait : c.receive.isWait with
  | false =>
      refine ⟨by rw [hc.executed]; exact h.serials, h.nodup, fun th r hr => ?_⟩
      by_cases hne : th = c.receiver
      · subst hne
        exact (hrunning r hr).elim
      · exact hwaiting th hne r hr
  | true =>
      obtain ⟨q, hq⟩ := Option.isSome_iff_exists.mp (hadmits.request hwait)
      rw [hq]
      refine ⟨fun q' hq' => ?_, h.nodup.sublist (List.erase_sublist.map _), fun th r hr => ?_⟩
      · rw [hc.executed]
        exact h.serials q' (List.mem_of_mem_erase hq')
      · by_cases hne : th = c.receiver
        · subst hne
          exact (hrunning r hr).elim
        · obtain ⟨hown, hrequest⟩ := hwaiting th hne r hr
          refine ⟨hown, fun hw => ?_⟩
          -- the WAITs of the other threads complete other IRECVs
          obtain ⟨q', hq', hcompletes⟩ := List.find?_isSome.mp (hrequest hw)
          refine List.find?_isSome.mpr ⟨q', ?_, hcompletes⟩
          have hother : q' ≠ q := by
            intro heq
            have hthread := (completes_iff.mp hcompletes).1
            rw [heq, (completes_iff.mp (List.find?_some hq)).1] at hthread
            exact hne hthread.symm
          exact (List.mem_erase_of_ne hother).mpr hq'

/-- What holds after a step: the consistency of the state, and of a paired state, that it stays
paired exactly if the step meets the condition. -/
def StepKeeps (s s' : State) (l : Ledger) (e : Event) : Prop :=
  Consistent s' (l.step s e) ∧ (Paired s l → (Paired s' (l.step s e) ↔ Meets s l e))

theorem stepKeeps_of_consumes (h : Consistent s l) (hevent : consumption s e = some c)
    (hledger : l.step s e = l.consume c) (hc : Consumes s s' c) (hadmits : Admits l s' c) :
    StepKeeps s s' l e := by
  unfold StepKeeps
  rw [hledger]
  refine ⟨h.consume hc hadmits, fun hpaired => ?_⟩
  rw [paired_consume_iff h hc hadmits hpaired, Meets, hevent]
  constructor
  · intro hundisturbed c' hc'
    obtain rfl := Option.mem_some_iff.mp hc'
    exact hundisturbed
  · exact fun hmeets => hmeets c rfl

theorem stepKeeps_of_quiet (h : Consistent s l) (hevent : consumption s e = none)
    (hledger : l.step s e = l) (hirecvs : s'.irecvsExecuted = s.irecvsExecuted)
    (hcommunications : s'.communications = s.communications) (hexecuted : s'.executed = s.executed)
    (hwaits : WaitsOk s' l) : StepKeeps s s' l e := by
  unfold StepKeeps
  rw [hledger]
  refine ⟨⟨by rw [hexecuted]; exact h.serials, h.nodup, hwaits⟩, fun hpaired => ?_⟩
  constructor
  · intro hkept c hc
    rw [hevent] at hc
    exact absurd hc (Option.not_mem_none c)
  · intro hmeets
    exact ⟨hcommunications.trans hpaired.1, fun place => by rw [hirecvs]; exact hpaired.2 place⟩

variable {r : Receive} {source : SendThread} {now : Nat}

theorem awaitMessage_found (hfound : awaitingMessage s th r.mess = some source)
    (hstep : awaitMessage A s th r = some s') :
    s' = reportCommunication { s with
      messRecv := Function.update s.messRecv (recvPlace th r.mess)
        ((s.messRecv (recvPlace th r.mess)).erase source) }
      (recvPlace th r.mess) r.mess.lookup source th := by
  rw [awaitMessage, isMessageAwaiting, hfound] at hstep
  by_cases hasserted : r.mess.oriThread ≠ -1 ∧ r.mess.ori ≠ th.taskid
  · rw [if_pos hasserted] at hstep
    exact absurd hstep (by simp)
  · rw [if_neg hasserted] at hstep
    cases hknown : A.hasTask r.mess.ori with
    | false =>
        rw [hknown] at hstep
        exact absurd hstep (by simp)
    | true =>
        rw [hknown] at hstep
        exact (Option.some.inj hstep).symm

theorem awaitMessage_waits (hnone : awaitingMessage s th r.mess = none)
    (hstep : awaitMessage A s th r = some s') :
    s'.irecvsExecuted = s.irecvsExecuted ∧ s'.communications = s.communications ∧
      s'.executed = s.executed ∧ s'.logicalRecv = s.logicalRecv ∧
      ∃ status, s'.status = Function.update s.status th status ∧ status.receive? = some r := by
  rw [awaitMessage, isMessageAwaiting, hnone] at hstep
  by_cases hasserted : r.mess.oriThread ≠ -1 ∧ r.mess.ori ≠ th.taskid
  · rw [if_pos hasserted] at hstep
    exact absurd hstep (by simp)
  · rw [if_neg hasserted] at hstep
    cases hknown : A.hasTask r.mess.ori with
    | false =>
        rw [hknown] at hstep
        exact absurd hstep (by simp)
    | true =>
        rw [hknown] at hstep
        cases hbusy : A.busywaitBeforeBlock th.taskid with
        | true =>
            obtain rfl : { s with status := Function.update s.status th (.busyWaiting r) } = s' := by
              rw [← Option.some.injEq, ← hstep]
              show _ = if A.busywaitBeforeBlock th.taskid then _ else _
              rw [hbusy]
              rfl
            exact ⟨rfl, rfl, rfl, rfl, .busyWaiting r, rfl, rfl⟩
        | false =>
            obtain rfl : block s th r = s' := by
              rw [← Option.some.injEq, ← hstep]
              show _ = if A.busywaitBeforeBlock th.taskid then _ else _
              rw [hbusy]
              rfl
            exact ⟨rfl, rfl, rfl, rfl, .blocked r, rfl, rfl⟩

/-- A RECV or a WAIT of a thread that has `logical` for the logical receives. -/
theorem stepKeeps_await (h : Consistent s l) (hrunning : s.status th = .running)
    {logical : ThreadId → Nat} (hlogical : ∀ th', th' ≠ th → logical th' = s.logicalRecv th')
    (hevent : consumption s e = (awaitingMessage s th r.mess).map fun source =>
      ⟨th, r, source, recvPlace th r.mess, r.mess.lookup⟩)
    (hledger : l.step s e = match consumption s e with
      | none => l
      | some c => l.consume c)
    (hown : r.isWait = false → logical th = r.issued)
    (hrequest : r.isWait = true → (l.completedBy th r.mess).isSome = true)
    (hstep : awaitMessage A { s with logicalRecv := logical } th r = some s') :
    StepKeeps s s' l e := by
  cases hfound : awaitingMessage s th r.mess with
  | none =>
      rw [hfound] at hevent
      rw [hevent] at hledger
      obtain ⟨hirecvs, hcommunications, hexecuted, hlogical', status, hstatus, hreceive⟩ :=
        awaitMessage_waits (s := { s with logicalRecv := logical }) hfound hstep
      refine stepKeeps_of_quiet h hevent hledger hirecvs hcommunications hexecuted ?_
      intro th' r' hr'
      rw [hstatus] at hr'
      rw [hlogical']
      by_cases hne : th' = th
      · subst hne
        rw [Function.update_self, hreceive, Option.mem_some_iff] at hr'
        subst hr'
        exact ⟨hown, hrequest⟩
      · rw [Function.update_of_ne hne] at hr'
        rw [show ({ s with logicalRecv := logical } : State).logicalRecv th' = s.logicalRecv th'
          from hlogical th' hne]
        exact h.waits th' r' hr'
  | some source =>
      rw [hfound] at hevent
      rw [hevent] at hledger
      obtain rfl := awaitMessage_found (s := { s with logicalRecv := logical }) hfound hstep
      refine stepKeeps_of_consumes h hevent hledger ⟨rfl, rfl, rfl, hrunning, ?_⟩
        ⟨hown, hrequest, ?_⟩
      · exact fun th' hne => ⟨rfl, hlogical th' hne⟩
      · exact fun q hq => answers_lookup (completes_iff.mp hq).2

theorem stepKeeps_irecv (h : Consistent s l) :
    StepKeeps s (communicIrecv s th mess now) l (.irecv th mess now) := by
  have hfresh : ∀ q ∈ l.posted, q.notification.serial ≠ s.executed :=
    fun q hq => Nat.ne_of_lt (h.serials q hq)
  refine ⟨⟨fun q hq => ?_, ?_, fun th' r hr => ?_⟩, fun hpaired => ⟨fun _ c hc => ?_, fun _ => ?_⟩⟩
  · rcases List.mem_append.mp hq with hold | hnew
    · exact Nat.lt_succ_of_lt (h.serials q hold)
    · rw [List.mem_singleton.mp hnew]
      exact Nat.lt_succ_self _
  · show ((l.posted ++ [_]).map _).Nodup
    rw [List.map_append]
    refine List.Nodup.append h.nodup (List.nodup_singleton _) fun serial hold hnew => ?_
    obtain ⟨q, hq, rfl⟩ := List.mem_map.mp hold
    exact hfresh q hq (List.mem_singleton.mp hnew)
  · obtain ⟨hown, hrequest⟩ := h.waits th' r hr
    refine ⟨hown, fun hwait => ?_⟩
    show ((l.posted ++ [_]).find? _).isSome = true
    rw [List.find?_append]
    obtain ⟨q, hq⟩ := Option.isSome_iff_exists.mp (hrequest hwait)
    rw [show l.posted.find? (completes th' r.mess) = some q from hq]
    rfl
  · exact absurd hc (Option.not_mem_none c)
  · refine ⟨hpaired.1, fun place => ?_⟩
    show Function.update s.irecvsExecuted (recvPlace th mess) _ place =
      notificationsAt place (l.posted ++ [_])
    rw [notificationsAt_append, notificationsAt_cons]
    by_cases hplace : recvPlace th mess = place
    · subst hplace
      rw [Function.update_self, hpaired.2]
      exact congrArg _ (if_pos rfl).symm
    · rw [Function.update_of_ne (Ne.symm hplace), hpaired.2]
      refine (List.append_nil _).symm.trans (congrArg _ ?_)
      exact (if_neg hplace).symm

theorem blockedReceive_iff : blockedReceive s th = some r ↔ s.status th = .blocked r := by
  unfold blockedReceive
  cases s.status th with
  | running => simp
  | busyWaiting r' => simp
  | blocked r' => simp

theorem receives_iff : receives s source th = true ↔
    ∃ r, blockedReceive s th = some r ∧ matchesMess th.threadid r.mess source = true := by
  unfold receives
  cases blockedReceive s th with
  | none => simp
  | some r => simp

theorem stepKeeps_arrive (h : Consistent s l) (hstep : messageReceived A s source = some s') :
    StepKeeps s s' l (.arrive source) := by
  rw [messageReceived] at hstep
  cases hknown : A.hasTask source.mess.dest with
  | false =>
      rw [hknown] at hstep
      exact absurd hstep (by simp)
  | true =>
      rw [hknown] at hstep
      cases hpartner : locateReceiver s source with
      | none =>
          rw [hpartner] at hstep
          obtain rfl := Option.some.inj hstep
          have hevent : consumption s (.arrive source) = none := by
            rw [consumption, hpartner]
            rfl
          have hledger : l.step s (.arrive source) = l := by
            show (match consumption s (.arrive source) with
              | none => l
              | some c => l.consume c) = l
            rw [hevent]
          exact stepKeeps_of_quiet h hevent hledger rfl rfl rfl h.waits
      | some partner =>
          rw [hpartner] at hstep
          obtain rfl := Option.some.inj hstep
          obtain ⟨r, hr, hmatches⟩ := receives_iff.mp (List.find?_some hpartner)
          have hevent : consumption s (.arrive source) =
              some ⟨partner, r, source, .task partner.taskid, source.lookup⟩ := by
            rw [consumption, hpartner, Option.bind_some, hr]
            rfl
          have hledger : l.step s (.arrive source) =
              l.consume ⟨partner, r, source, .task partner.taskid, source.lookup⟩ := by
            show (match consumption s (.arrive source) with
              | none => l
              | some c => l.consume c) = _
            rw [hevent]
          have hwaiting : r ∈ (s.status partner).receive? := by
            rw [blockedReceive_iff.mp hr]
            rfl
          obtain ⟨hown, hrequest⟩ := h.waits partner r hwaiting
          refine stepKeeps_of_consumes h hevent hledger
            ⟨rfl, rfl, rfl, Function.update_self .., fun th' hne => ⟨?_, rfl⟩⟩ ⟨hown, hrequest, ?_⟩
          · exact Function.update_of_ne hne ..
          · exact fun q hq => answers_source hmatches (completes_iff.mp hq).2

theorem stepKeeps_blockAfterBusyWait (h : Consistent s l)
    (hstep : communicBlockAfterBusyWait s th = some s') :
    StepKeeps s s' l (.blockAfterBusyWait th) := by
  rw [communicBlockAfterBusyWait] at hstep
  cases hstatus : s.status th with
  | running =>
      rw [hstatus] at hstep
      exact absurd hstep (by simp)
  | blocked r =>
      rw [hstatus] at hstep
      exact absurd hstep (by simp)
  | busyWaiting r =>
      rw [hstatus] at hstep
      obtain rfl := Option.some.inj hstep
      refine stepKeeps_of_quiet h rfl rfl rfl rfl rfl fun th' r' hr' => ?_
      have hsame : r' ∈ (s.status th').receive? := by
        by_cases hne : th' = th
        · subst hne
          rw [show (block s th' r).status th' = .blocked r from Function.update_self ..] at hr'
          rw [hstatus]
          exact hr'
        · rw [show (block s th r).status th' = s.status th' from Function.update_of_ne hne ..] at hr'
          exact hr'
      exact h.waits th' r' hsame

theorem step_keeps (h : Consistent s l) (henabled : Enabled s l e) (hstep : step A s e = some s') :
    StepKeeps s s' l e := by
  cases e with
  | recv th mess now =>
      exact stepKeeps_await (r := ⟨false, mess, now⟩) h henabled
        (fun th' hne => Function.update_of_ne hne ..) rfl rfl (fun _ => Function.update_self ..)
        (fun hwait => absurd hwait Bool.false_ne_true) hstep
  | irecv th mess now =>
      obtain rfl := Option.some.inj hstep
      exact stepKeeps_irecv h
  | wait th mess now =>
      exact stepKeeps_await (r := ⟨true, mess, now⟩) h henabled.1 (fun _ _ => rfl) rfl rfl
        (fun hwait => absurd hwait.symm Bool.false_ne_true) (fun _ => henabled.2) hstep
  | blockAfterBusyWait th => exact stepKeeps_blockAfterBusyWait h hstep
  | arrive source => exact stepKeeps_arrive h hstep

/-! ## Runs -/

theorem consistent_init : Consistent .init .init where
  serials := fun _ hq => absurd hq List.not_mem_nil
  nodup := .nil
  waits := fun _ r hr => absurd hr (Option.not_mem_none r)

variable {past : List (State × Ledger × Event)}

theorem consistent_of_run (hrun : Run A past s l) : Consistent s l := by
  induction hrun with
  | init => exact consistent_init
  | step e hrun henabled hstep ih => exact (step_keeps ih henabled hstep).1

/-- The communications are paired in every state of a run exactly if each step of it meets the
condition. -/
theorem paired_run_iff (hrun : Run A past s l) :
    ((∀ x ∈ past, Paired x.1 x.2.1) ∧ Paired s l) ↔ ∀ x ∈ past, Meets x.1 x.2.1 x.2.2 := by
  induction hrun with
  | init => exact ⟨fun _ x hx => absurd hx List.not_mem_nil,
      fun _ => ⟨fun x hx => absurd hx List.not_mem_nil, rfl, fun _ => rfl⟩⟩
  | @step past s s' l e hrun henabled hstep ih =>
      obtain ⟨-, hkeeps⟩ := step_keeps (consistent_of_run hrun) henabled hstep
      rw [List.forall_mem_append, List.forall_mem_append, List.forall_mem_singleton,
        List.forall_mem_singleton, ← ih]
      constructor
      · rintro ⟨⟨hpast, hpaired⟩, hpaired'⟩
        exact ⟨⟨hpast, hpaired⟩, (hkeeps hpaired).mp hpaired'⟩
      · rintro ⟨⟨hpast, hpaired⟩, hmeets⟩
        exact ⟨⟨hpast, hpaired⟩, (hkeeps hpaired).mpr hmeets⟩

def twoTasks : Application := ⟨2, fun _ => false⟩

def receiver : ThreadId := ⟨0, 0⟩

def fromTask : Recv := ⟨1, -1, 7, 1, 8⟩

def sentByTask : SendThread := ⟨0, 1, 0, ⟨0, -1, 7, 1, 8⟩⟩

def fromThread : Recv := ⟨0, 1, 7, 1, 8⟩

def sentByThread : SendThread := ⟨0, 0, 1, ⟨0, 0, 7, 1, 8⟩⟩

theorem run_three (e₁ e₂ e₃ : Event) {s₁ s₂ s₃ : State} (h₁ : Enabled .init .init e₁)
    (hs₁ : step A .init e₁ = some s₁) (h₂ : Enabled s₁ (Ledger.init.step .init e₁) e₂)
    (hs₂ : step A s₁ e₂ = some s₂)
    (h₃ : Enabled s₂ ((Ledger.init.step .init e₁).step s₁ e₂) e₃)
    (hs₃ : step A s₂ e₃ = some s₃) :
    Run A [(.init, .init, e₁), (s₁, Ledger.init.step .init e₁, e₂),
        (s₂, (Ledger.init.step .init e₁).step s₁ e₂, e₃)] s₃
      (((Ledger.init.step .init e₁).step s₁ e₂).step s₂ e₃) :=
  .step e₃ (.step e₂ (.step e₁ .init h₁ hs₁) h₂ hs₂) h₃ hs₃

/-- The message comes between the IRECV and its WAIT. -/
theorem paired_run_irecv : ∃ past s l, Run twoTasks past s l ∧
    (past.map fun x => x.2.2) =
      [.irecv receiver fromTask 5, .arrive sentByTask, .wait receiver fromTask 9] ∧
    (((∀ x ∈ past, Paired x.1 x.2.1) ∧ Paired s l) ↔ ∀ x ∈ past, Meets x.1 x.2.1 x.2.2) := by
  let s₁ := (step twoTasks .init (.irecv receiver fromTask 5)).get rfl
  let s₂ := (step twoTasks s₁ (.arrive sentByTask)).get rfl
  have hrun := @run_three twoTasks (.irecv receiver fromTask 5) (.arrive sentByTask)
    (.wait receiver fromTask 9) s₁ s₂ _ rfl (Option.some_get _).symm trivial
    (Option.some_get _).symm ⟨rfl, rfl⟩ (Option.some_get rfl).symm
  exact ⟨_, _, _, hrun, rfl, paired_run_iff hrun⟩

/-- A RECV takes the notification of an IRECV, and the WAIT of a dependency synchronisation that
blocks does not find it. -/
theorem not_paired :
    (∃ past s l, Run twoTasks past s l ∧ (past.map fun x => x.2.2) =
        [.irecv receiver fromTask 5, .arrive sentByTask, .recv receiver fromTask 9] ∧
      ¬ Paired s l) ∧
    ∃ past s l, Run twoTasks past s l ∧ (past.map fun x => x.2.2) =
        [.irecv receiver fromThread 5, .wait receiver fromThread 9, .arrive sentByThread] ∧
      ¬ Paired s l := by
  constructor
  · let s₁ := (step twoTasks .init (.irecv receiver fromTask 5)).get rfl
    let s₂ := (step twoTasks s₁ (.arrive sentByTask)).get rfl
    have hrun := @run_three twoTasks (.irecv receiver fromTask 5) (.arrive sentByTask)
      (.recv receiver fromTask 9) s₁ s₂ _ rfl (Option.some_get _).symm trivial
      (Option.some_get _).symm rfl (Option.some_get rfl).symm
    refine ⟨_, _, _, hrun, rfl, fun hpaired => ?_⟩
    have htimes := congrArg (List.map Communication.logicalRecv) hpaired.1
    exact absurd htimes (by decide)
  · let s₁ := (step twoTasks .init (.irecv receiver fromThread 5)).get rfl
    let s₂ := (step twoTasks s₁ (.wait receiver fromThread 9)).get rfl
    have hrun := @run_three twoTasks (.irecv receiver fromThread 5) (.wait receiver fromThread 9)
      (.arrive sentByThread) s₁ s₂ _ rfl (Option.some_get _).symm ⟨rfl, rfl⟩
      (Option.some_get _).symm trivial (Option.some_get rfl).symm
    refine ⟨_, _, _, hrun, rfl, fun hpaired => ?_⟩
    have htimes := congrArg (List.map Communication.logicalRecv) hpaired.1
    exact absurd htimes (by decide)

end Dimemas.Model.IrecvPairing
