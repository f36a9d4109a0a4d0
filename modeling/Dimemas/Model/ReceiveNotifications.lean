import Mathlib.Logic.Function.Basic
import Dimemas.Model.LogicalReceives
/-!
# What a receive tells the scheduler

`is_message_awaiting_real_MPI_transfer` looks for the message of a RECV or a WAIT among those that
have arrived at the task, and tells the scheduler what it found. Under BOOST that changes the
priority of the receiver.
-/

namespace Dimemas.Model.ReceiveNotifications

open Dimemas.Library.LinkedList
open Dimemas.Utils.ListQueue
open Dimemas.Utils.QueueCursor
open Dimemas.Model.LogicalReceives

/-! ## The scheduler -/

inductive SchInfo where
  | send
  | recvMiss
  | recvHit
deriving DecidableEq, Repr

/-- `struct t_boost`. -/
structure Boost where
  best : Int
  worst : Int
  recvFirst : Int
  recvLast : Int
  senderLast : Int
deriving DecidableEq, Repr

/-- The fields of `t_SCH_boost` and `tsproc_t` that an info changes. -/
structure SchParameters where
  priority : Int
  tsUmdpri : Nat
deriving DecidableEq, Repr

inductive Policy where
  | unixSvr4
  | boost
  | other
deriving DecidableEq, Repr

/-- The machines of the tasks and their schedulers. `tsSlpret` is a column of the table of the
System V scheduler. -/
structure Platform where
  tasksCount : Nat
  machine : Int → Nat
  policy : Nat → Policy
  boost : Nat → Boost
  tsSlpret : Nat → Nat

abbrev Parameters := ThreadId → SchParameters

def Boost.bounded (b : Boost) (priority : Int) : Int :=
  let priority := if priority < b.best then b.best else priority
  if priority > b.worst then b.worst else priority

def addPriority (b : Boost) (th : ThreadId) (change : Int) (parameters : Parameters) :
    Parameters :=
  let sch := parameters th
  Function.update parameters th { sch with priority := b.bounded (sch.priority + change) }

def schBoostInfo (b : Boost) (info : SchInfo) (thS thR : ThreadId) (parameters : Parameters) :
    Parameters :=
  match info with
  | .send => addPriority b thS b.senderLast parameters
  | .recvMiss => addPriority b thR b.recvFirst parameters
  | .recvHit => addPriority b thR b.recvLast parameters

def svr4Info (tsSlpret : Nat → Nat) (info : SchInfo) (thR : ThreadId) (parameters : Parameters) :
    Parameters :=
  match info with
  | .recvMiss =>
      let sch := parameters thR
      Function.update parameters thR { sch with tsUmdpri := tsSlpret sch.tsUmdpri }
  | _ => parameters

/-! ## The search -/

/-- A message in `mess_recv` of a task. `message_received` puts it there when it is for the task and
for any of its threads, as the search asserts. -/
structure ArrivedMessage (receiver : Int) extends SendThread where
  destThread_eq : mess.destThread = -1
  dest_eq : mess.dest = receiver
deriving DecidableEq

/-- What the search reads and changes. `informed` are the calls of `SCHEDULER_info` and
`communications` those of `PARAVER_P2P_Comm`, oldest first. -/
structure ReceiverState (taskid : Int) where
  messHeap : Heap Int (ArrivedMessage taskid)
  messRecv : TQueue
  irecvsHeap : Heap Int Notification
  irecvsExecuted : TQueue
  parameters : Parameters
  informed : List (SchInfo × ThreadId × ThreadId)
  communications : List (SendThread × Nat)

/-- A RECV or a WAIT of a thread, with the time that the thread has as its logical receive. -/
structure Receiving where
  threadid : Int
  mess : Recv
  logicalRecv : Nat

variable {taskid : Int}

def ArrivedMessage.thread (source : ArrivedMessage taskid) : ThreadId :=
  ⟨source.taskid, source.threadid⟩

/-- `SCHEDULER_info (COMMUNICATION_INFO, info, thS, thR)`. -/
def schedulerInfo (P : Platform) (info : SchInfo) (thS thR : ThreadId)
    (s : ReceiverState taskid) : ReceiverState taskid :=
  let machine := P.machine thS.taskid
  { s with
    parameters :=
      match P.policy machine with
      | .boost => schBoostInfo (P.boost machine) info thS thR s.parameters
      | .unixSvr4 => svr4Info P.tsSlpret info thR s.parameters
      | .other => s.parameters
    informed := s.informed ++ [(info, thS, thR)] }

def receiveMessage (P : Platform) (waitLogicalRecv : Bool) (r : Receiving)
    (s : ReceiverState taskid) (source : ArrivedMessage taskid) : Option (ReceiverState taskid) := do
  let (messHeap, messRecv) ← extractFromQueue s.messHeap s.messRecv source
  let s := schedulerInfo P .recvHit source.thread ⟨taskid, r.threadid⟩
    { s with messHeap := messHeap, messRecv := messRecv }
  let (irecvsHeap, irecvsExecuted, actualLogicalRecv) ← getLogicalReceive waitLogicalRecv
    s.irecvsHeap s.irecvsExecuted r.mess.lookup r.logicalRecv
  some { s with
    irecvsHeap := irecvsHeap
    irecvsExecuted := irecvsExecuted
    communications := s.communications ++ [(source.toSendThread, actualLogicalRecv)] }

/-- The loop, which goes to the next message before it looks at `found`. -/
def searchMessage (P : Platform) (waitLogicalRecv : Bool) (r : Receiving) : Nat →
    ReceiverState taskid → Option (ArrivedMessage taskid) → Bool →
    Option (ReceiverState taskid × Bool)
  | _, s, none, found => some (s, found)
  | _, s, some _, true => some (s, true)
  | 0, _, some _, false => none
  | fuel + 1, s, some source, false => do
      let found := matchesMess r.threadid r.mess source.toSendThread
      let s ← if found then receiveMessage P waitLogicalRecv r s source else some s
      let (messRecv, next) ← nextQueue s.messHeap s.messRecv
      searchMessage P waitLogicalRecv r fuel { s with messRecv := messRecv } next found

/-- `locate_task`; an identifier out of range is a panic. -/
def locateTask (P : Platform) (taskid : Int) : Option Int :=
  if taskid < 0 ∨ taskid ≥ P.tasksCount then none else some taskid

/-- `is_message_awaiting_real_MPI_transfer`. -/
def isMessageAwaiting (P : Platform) (waitLogicalRecv : Bool) (r : Receiving)
    (s : ReceiverState taskid) : Option (ReceiverState taskid × Bool) :=
  if r.mess.oriThread ≠ -1 then none
  else do
    let (messRecv, source) ← headQueue s.messHeap s.messRecv
    let (s, result) ← searchMessage P waitLogicalRecv r (scanFuel s.messRecv)
      { s with messRecv := messRecv } source false
    let taskSource ← locateTask P r.mess.ori
    some (schedulerInfo P .recvMiss ⟨taskSource, 0⟩ ⟨taskid, r.threadid⟩ s, result)

/-! ## What the search does -/

variable {P : Platform} {waitLogicalRecv : Bool} {r : Receiving} {s s' : ReceiverState taskid}
variable {arrived : List (ArrivedMessage taskid)} {irecvs : List Notification}
variable {pre rest : List (Entry Int (ArrivedMessage taskid))}
variable {x : Entry Int (ArrivedMessage taskid)}

/-- Whether the receive takes the message. -/
def Takes (r : Receiving) (source : ArrivedMessage taskid) : Prop :=
  matchesMess r.threadid r.mess source.toSendThread = true

/-- `s'` is `s` after the scheduler was told `info` about the receiver, and nothing else. -/
def InformedOf (P : Platform) (r : Receiving) (info : SchInfo) (thS : ThreadId)
    (s s' : ReceiverState taskid) : Prop :=
  s'.informed = s.informed ++ [(info, thS, ⟨taskid, r.threadid⟩)] ∧
    s'.parameters = (schedulerInfo P info thS ⟨taskid, r.threadid⟩ s).parameters

theorem receiveMessage_spec (hat : AtCursor s.messHeap s.messRecv pre (x :: rest))
    (hbefore : ∀ y ∈ pre, ¬ Takes r y.2.2) (htakes : Takes r x.2.2)
    (hirecvs : Spells s.irecvsHeap s.irecvsExecuted irecvs) :
    ∃ s', receiveMessage P waitLogicalRecv r s x.2.2 = some s' ∧
      QueueRep s'.messHeap s'.messRecv (pre ++ rest) ∧
      s'.messRecv.curr = pre.getLast?.map Prod.fst ∧
      InformedOf P r .recvHit x.2.2.thread s s' ∧
      ∃ irecvs', Spells s'.irecvsHeap s'.irecvsExecuted irecvs' := by
  have hne : ∀ y ∈ pre, y.2.2 ≠ x.2.2 := fun y hy heq => hbefore y hy (heq ▸ htakes)
  obtain ⟨h, q, hextract, hrep, hcurr⟩ := AtCursor.extractFromQueue hat hne
  obtain ⟨h', q', time, hget, hirecvs'⟩ :=
    getLogicalReceive_total hirecvs waitLogicalRecv r.mess.lookup r.logicalRecv
  let s₁ := schedulerInfo P .recvHit x.2.2.thread ⟨taskid, r.threadid⟩
    { s with messHeap := h, messRecv := q }
  refine ⟨{ s₁ with
    irecvsHeap := h'
    irecvsExecuted := q'
    communications := s.communications ++ [(x.2.2.toSendThread, time)] }, ?_, hrep, hcurr,
    ⟨rfl, rfl⟩, hirecvs'⟩
  rw [receiveMessage, hextract]
  show (getLogicalReceive waitLogicalRecv s.irecvsHeap s.irecvsExecuted _ _).bind _ = _
  rw [hget]
  rfl

theorem searchMessage_found (fuel : Nat) (next : Option (ArrivedMessage taskid)) :
    searchMessage P waitLogicalRecv r fuel s next true = some (s, true) := by
  cases next with
  | none => rw [searchMessage]
  | some source => rw [searchMessage]

/-- The search passed all of `rest`. -/
structure Missed (r : Receiving) (rest xs : List (Entry Int (ArrivedMessage taskid)))
    (s s' : ReceiverState taskid) : Prop where
  none_takes : ∀ y ∈ rest, ¬ Takes r y.2.2
  rep : QueueRep s'.messHeap s'.messRecv xs
  informed : s'.informed = s.informed
  parameters : s'.parameters = s.parameters

theorem searchMessage_spec {fuel : Nat} (hat : AtCursor s.messHeap s.messRecv pre rest)
    (hfuel : rest.length ≤ fuel) (hbefore : ∀ y ∈ pre, ¬ Takes r y.2.2)
    (hirecvs : Spells s.irecvsHeap s.irecvsExecuted irecvs) :
    ∃ s' found, searchMessage P waitLogicalRecv r fuel s (rest.head?.map fun x => x.2.2) false =
        some (s', found) ∧
      (found = false ∧ Missed r rest (pre ++ rest) s s' ∨
        found = true ∧ ∃ before x after, rest = before ++ x :: after ∧
          (∀ y ∈ before, ¬ Takes r y.2.2) ∧ Takes r x.2.2 ∧
          QueueRep s'.messHeap s'.messRecv (pre ++ before ++ after) ∧
          InformedOf P r .recvHit x.2.2.thread s s') ∧
      ∃ irecvs', Spells s'.irecvsHeap s'.irecvsExecuted irecvs' := by
  induction rest generalizing s pre fuel with
  | nil =>
      refine ⟨s, false, ?_, .inl ⟨rfl, ?_, hat.rep, rfl, rfl⟩, irecvs, hirecvs⟩
      · cases fuel with
        | zero => rfl
        | succ fuel => rfl
      · exact fun y hy => absurd hy List.not_mem_nil
  | cons x rest ih =>
      cases fuel with
      | zero => exact absurd hfuel (Nat.not_succ_le_zero _)
      | succ fuel =>
          show ∃ s' found, (searchMessage P waitLogicalRecv r (fuel + 1) s (some x.2.2) false) = _ ∧ _
          rw [searchMessage]
          by_cases htakes : Takes r x.2.2
          · obtain ⟨s₁, hreceive, hrep, hcurr, hinformed, hirecvs'⟩ :=
              @receiveMessage_spec _ P waitLogicalRecv r s irecvs pre rest x hat hbefore htakes hirecvs
            obtain ⟨q', next, hnext, hrep'⟩ := nextQueue_after hrep hcurr
            refine ⟨{ s₁ with messRecv := q' }, true, ?_, .inr ⟨rfl, [], x, rest, rfl, ?_, htakes, ?_,
              hinformed⟩, hirecvs'⟩
            · rw [show matchesMess r.threadid r.mess x.2.2.toSendThread = true from htakes]
              show (receiveMessage P waitLogicalRecv r s x.2.2).bind _ = _
              rw [hreceive]
              show (nextQueue s₁.messHeap s₁.messRecv).bind _ = _
              rw [hnext]
              exact searchMessage_found fuel next
            · exact fun y hy => absurd hy List.not_mem_nil
            · rw [List.append_nil]
              exact hrep'
          · obtain ⟨q', hnext, hat'⟩ := hat.nextQueue
            have hbefore' : ∀ y ∈ pre ++ [x], ¬ Takes r y.2.2 := by
              intro y hy
              rcases List.mem_append.mp hy with hpre | hx
              · exact hbefore y hpre
              · rw [List.mem_singleton.mp hx]
                exact htakes
            obtain ⟨s', found, hrun, hresult, hirecvs'⟩ :=
              @ih { s with messRecv := q' } (pre ++ [x]) fuel hat' (Nat.le_of_succ_le_succ hfuel)
                hbefore' hirecvs
            have hsplit (ys : List (Entry Int (ArrivedMessage taskid))) :
                pre ++ [x] ++ ys = pre ++ x :: ys := (List.append_cons ..).symm
            refine ⟨s', found, ?_, ?_, hirecvs'⟩
            · rw [Bool.eq_false_iff.mpr htakes]
              show (nextQueue s.messHeap s.messRecv).bind _ = _
              rw [hnext]
              exact hrun
            · rcases hresult with ⟨hfound, hmissed⟩ |
                ⟨hfound, before, y, after, hrest, hnone, hy, hrep, hinformed⟩
              · refine .inl ⟨hfound, ?_, by rw [← hsplit]; exact hmissed.rep, hmissed.informed,
                  hmissed.parameters⟩
                exact List.forall_mem_cons.mpr ⟨htakes, hmissed.none_takes⟩
              · refine .inr ⟨hfound, x :: before, y, after, by rw [hrest]; rfl, ?_, hy, ?_, hinformed⟩
                · exact List.forall_mem_cons.mpr ⟨htakes, hnone⟩
                · rw [← hsplit]
                  exact hrep

/-! ## One notification for each receive -/

/-- The priority of the receiver changes by `change` on the machine of `thS`, and is bounded. -/
def BoostedBy (P : Platform) (r : Receiving) (thS : ThreadId) (change : Boost → Int)
    (s s' : ReceiverState taskid) : Prop :=
  P.policy (P.machine thS.taskid) = .boost →
    (s'.parameters ⟨taskid, r.threadid⟩).priority =
      (P.boost (P.machine thS.taskid)).bounded
        ((s.parameters ⟨taskid, r.threadid⟩).priority + change (P.boost (P.machine thS.taskid)))

/-- The first message that matches goes, with one RECV_HIT. -/
def HitsOnce (P : Platform) (r : Receiving) (arrived : List (ArrivedMessage taskid))
    (s s' : ReceiverState taskid) : Prop :=
  ∃ before source after, arrived = before ++ source :: after ∧ (∀ y ∈ before, ¬ Takes r y) ∧
    Takes r source ∧ Spells s'.messHeap s'.messRecv (before ++ after) ∧
    InformedOf P r .recvHit source.thread s s' ∧ BoostedBy P r source.thread Boost.recvLast s s'

/-- No message matches, the queue stays as it is, and there is one RECV_MISS. -/
def MissesOnce (P : Platform) (r : Receiving) (arrived : List (ArrivedMessage taskid))
    (s s' : ReceiverState taskid) : Prop :=
  (∀ y ∈ arrived, ¬ Takes r y) ∧ Spells s'.messHeap s'.messRecv arrived ∧
    InformedOf P r .recvMiss ⟨r.mess.ori, 0⟩ s s' ∧
    BoostedBy P r ⟨r.mess.ori, 0⟩ Boost.recvFirst s s'

/-- The receive informs the scheduler exactly once, and of what it found. -/
def InformsOnce (P : Platform) (waitLogicalRecv : Bool) (r : Receiving)
    (arrived : List (ArrivedMessage taskid)) (s : ReceiverState taskid) : Prop :=
  ∃ s' result, isMessageAwaiting P waitLogicalRecv r s = some (s', result) ∧
    (result = true ∧ HitsOnce P r arrived s s' ∨ result = false ∧ MissesOnce P r arrived s s')

/-- The source of a receive is a task of the application. -/
def KnownSource (P : Platform) (r : Receiving) : Prop :=
  0 ≤ r.mess.ori ∧ r.mess.ori < P.tasksCount

theorem addPriority_self (b : Boost) (th : ThreadId) (change : Int) (parameters : Parameters) :
    (addPriority b th change parameters th).priority =
      b.bounded ((parameters th).priority + change) := by
  rw [addPriority, Function.update_self]

theorem InformedOf.boostedBy_miss {thS : ThreadId} (h : InformedOf P r .recvMiss thS s s') :
    BoostedBy P r thS Boost.recvFirst s s' := by
  intro hboost
  rw [h.2, schedulerInfo, hboost]
  exact addPriority_self _ _ _ _

theorem InformedOf.length {info : SchInfo} {thS : ThreadId} (h : InformedOf P r info thS s s') :
    s'.informed.length = s.informed.length + 1 := by
  rw [h.1, List.length_append]
  rfl

theorem locateTask_eq_some (hknown : KnownSource P r) :
    locateTask P r.mess.ori = some r.mess.ori := by
  have hrange : ¬ (r.mess.ori < 0 ∨ r.mess.ori ≥ P.tasksCount) := by
    have h := hknown
    unfold KnownSource at h
    omega
  rw [locateTask, if_neg hrange]

theorem locateTask_eq_none (hunknown : ¬ KnownSource P r) :
    locateTask P r.mess.ori = none := by
  have hrange : r.mess.ori < 0 ∨ r.mess.ori ≥ P.tasksCount := by
    have h := hunknown
    unfold KnownSource at h
    omega
  rw [locateTask, if_pos hrange]

theorem isMessageAwaiting_search (hmpi : r.mess.oriThread = -1)
    (harrived : Spells s.messHeap s.messRecv arrived)
    (hirecvs : Spells s.irecvsHeap s.irecvsExecuted irecvs) :
    ∃ s₁ found, isMessageAwaiting P waitLogicalRecv r s =
        (locateTask P r.mess.ori).map (fun taskSource =>
          (schedulerInfo P .recvMiss ⟨taskSource, 0⟩ ⟨taskid, r.threadid⟩ s₁, found)) ∧
      (found = false ∧ (∀ y ∈ arrived, ¬ Takes r y) ∧ Spells s₁.messHeap s₁.messRecv arrived ∧
          s₁.informed = s.informed ∧ s₁.parameters = s.parameters ∨
        found = true ∧ ∃ before source after, arrived = before ++ source :: after ∧
          (∀ y ∈ before, ¬ Takes r y) ∧ Takes r source ∧
          Spells s₁.messHeap s₁.messRecv (before ++ after) ∧
          InformedOf P r .recvHit source.thread s s₁) ∧
      ∃ irecvs', Spells s₁.irecvsHeap s₁.irecvsExecuted irecvs' := by
  obtain ⟨xs, hrep, rfl⟩ := harrived
  obtain ⟨hhead, hat⟩ := QueueRep.headQueue hrep
  let q := { s.messRecv with curr := s.messRecv.first }
  obtain ⟨s₁, found, hrun, hresult, hirecvs'⟩ :=
    @searchMessage_spec _ P waitLogicalRecv r { s with messRecv := q } irecvs [] xs (scanFuel q) hat
      (Nat.le_of_lt hrep.length_lt_scanFuel) (fun y hy => absurd hy List.not_mem_nil) hirecvs
  have hmpi' : ¬ r.mess.oriThread ≠ -1 := not_not.mpr hmpi
  refine ⟨s₁, found, ?_, ?_, hirecvs'⟩
  · rw [isMessageAwaiting, if_neg hmpi', hhead]
    show (searchMessage P waitLogicalRecv r (scanFuel q) { s with messRecv := q } _ false).bind _ = _
    rw [hrun]
    cases locateTask P r.mess.ori with
    | none => rfl
    | some taskSource => rfl
  · rcases hresult with ⟨hfound, hmissed⟩ | ⟨hfound, before, x, after, rfl, hnone, htakes, hrep',
      hinformed⟩
    · refine .inl ⟨hfound, ?_, ⟨xs, hmissed.rep, rfl⟩, hmissed.informed, hmissed.parameters⟩
      intro y hy
      obtain ⟨z, hz, rfl⟩ := List.mem_map.mp hy
      exact hmissed.none_takes z hz
    · refine .inr ⟨hfound, before.map fun x => x.2.2, x.2.2, after.map fun x => x.2.2, List.map_append,
        ?_, htakes, ⟨before ++ after, hrep', List.map_append⟩, hinformed⟩
      intro y hy
      obtain ⟨z, hz, rfl⟩ := List.mem_map.mp hy
      exact hnone z hz

/-- What the receive does when its source is known. A message that matches is reported as a hit and
as a miss. -/
theorem isMessageAwaiting_known (hmpi : r.mess.oriThread = -1) (hknown : KnownSource P r)
    (harrived : Spells s.messHeap s.messRecv arrived)
    (hirecvs : Spells s.irecvsHeap s.irecvsExecuted irecvs) :
    ∃ s', isMessageAwaiting P waitLogicalRecv r s = some (s', false) ∧ MissesOnce P r arrived s s' ∨
      isMessageAwaiting P waitLogicalRecv r s = some (s', true) ∧
        ∃ before source after, arrived = before ++ source :: after ∧ (∀ y ∈ before, ¬ Takes r y) ∧
          Takes r source ∧ Spells s'.messHeap s'.messRecv (before ++ after) ∧
          s'.informed = s.informed ++ [(.recvHit, source.thread, ⟨taskid, r.threadid⟩),
            (.recvMiss, ⟨r.mess.ori, 0⟩, ⟨taskid, r.threadid⟩)] := by
  obtain ⟨s₁, found, hsearch, hresult, -⟩ :=
    @isMessageAwaiting_search _ P waitLogicalRecv r s arrived irecvs hmpi harrived hirecvs
  rw [locateTask_eq_some hknown] at hsearch
  refine ⟨schedulerInfo P .recvMiss ⟨r.mess.ori, 0⟩ ⟨taskid, r.threadid⟩ s₁, ?_⟩
  rcases hresult with ⟨rfl, hnone, hspells, hinformed, hparameters⟩ |
    ⟨rfl, before, source, after, hsplit, hnone, htakes, hspells, hinformed, -⟩
  · have hof : InformedOf P r .recvMiss ⟨r.mess.ori, 0⟩ s
        (schedulerInfo P .recvMiss ⟨r.mess.ori, 0⟩ ⟨taskid, r.threadid⟩ s₁) := by
      constructor
      · show s₁.informed ++ _ = _
        rw [hinformed]
      · unfold schedulerInfo
        rw [hparameters]
    exact .inl ⟨hsearch, hnone, hspells, hof, hof.boostedBy_miss⟩
  · refine .inr ⟨hsearch, before, source, after, hsplit, hnone, htakes, hspells, ?_⟩
    show s₁.informed ++ _ = _
    rw [hinformed, List.append_assoc]
    rfl

theorem isMessageAwaiting_unknown (hunknown : ¬ KnownSource P r)
    (harrived : Spells s.messHeap s.messRecv arrived)
    (hirecvs : Spells s.irecvsHeap s.irecvsExecuted irecvs) :
    isMessageAwaiting P waitLogicalRecv r s = none := by
  by_cases hmpi : r.mess.oriThread = -1
  · obtain ⟨s₁, found, hsearch, -⟩ :=
      @isMessageAwaiting_search _ P waitLogicalRecv r s arrived irecvs hmpi harrived hirecvs
    rw [hsearch, locateTask_eq_none hunknown]
    rfl
  · rw [isMessageAwaiting, if_pos hmpi]

/-- A receive informs the scheduler once when its source is a task and no message that has arrived
matches it. -/
theorem informsOnce_iff (hmpi : r.mess.oriThread = -1)
    (harrived : Spells s.messHeap s.messRecv arrived)
    (hirecvs : Spells s.irecvsHeap s.irecvsExecuted irecvs) :
    InformsOnce P waitLogicalRecv r arrived s ↔
      KnownSource P r ∧ ∀ source ∈ arrived, ¬ Takes r source := by
  constructor
  · rintro ⟨s', result, hrun, hresult⟩
    have hknown : KnownSource P r := by
      by_contra hunknown
      rw [isMessageAwaiting_unknown hunknown harrived hirecvs] at hrun
      exact absurd hrun (by simp)
    refine ⟨hknown, ?_⟩
    obtain ⟨s₁, ⟨-, hmiss⟩ | ⟨hrun₁, before, source, after, -, -, -, -, hinformed⟩⟩ :=
      @isMessageAwaiting_known _ P waitLogicalRecv r s arrived irecvs hmpi hknown harrived hirecvs
    · exact hmiss.1
    · -- there were two notifications
      rw [hrun₁, Option.some.injEq, Prod.mk.injEq] at hrun
      obtain ⟨rfl, rfl⟩ := hrun
      have hone : s₁.informed.length = s.informed.length + 1 := by
        rcases hresult with ⟨-, _, _, _, -, -, -, -, hinformedOf, -⟩ | ⟨-, -, -, hinformedOf, -⟩
        · exact hinformedOf.length
        · exact hinformedOf.length
      rw [hinformed, List.length_append, Nat.add_left_cancel_iff] at hone
      exact absurd hone (by simp)
  · rintro ⟨hknown, hnone⟩
    obtain ⟨s₁, ⟨hrun, hmiss⟩ | ⟨-, before, source, after, harrived', -, htakes, -⟩⟩ :=
      @isMessageAwaiting_known _ P waitLogicalRecv r s arrived irecvs hmpi hknown harrived hirecvs
    · exact ⟨s₁, false, hrun, .inr ⟨rfl, hmiss⟩⟩
    · have hmem : source ∈ arrived := by
        rw [harrived']
        exact List.mem_append_right _ List.mem_cons_self
      exact absurd htakes (hnone source hmem)

/-- A message from task 1, which task 0 can take by its tag and its communicator. -/
def sentMessage : ArrivedMessage 0 := ⟨⟨0, 1, 0, ⟨0, -1, 7, 1, 8⟩⟩, rfl, rfl⟩

def twoTasks : Platform := ⟨2, fun _ => 0, fun _ => .boost, fun _ => ⟨0, 127, 10, -10, 5⟩, fun _ => 0⟩

def noMessage : ReceiverState 0 :=
  ⟨.empty, createQueue, .empty, createQueue, fun _ => ⟨60, 0⟩, [], []⟩

def oneMessage : ReceiverState 0 :=
  let (h, q) := (inFifoQueue 0 Heap.empty createQueue sentMessage).get rfl
  { noMessage with messHeap := h, messRecv := q }

def receiveFrom (ori : Int) : Receiving := ⟨0, ⟨ori, -1, 7, 1, 8⟩, 0⟩

def otherMessages : List (ArrivedMessage 0) :=
  [⟨⟨0, 1, 0, ⟨0, -1, 9, 1, 8⟩⟩, rfl, rfl⟩, ⟨⟨0, 1, 0, ⟨0, -1, 7, 2, 8⟩⟩, rfl, rfl⟩]

/-- The search goes past both messages. -/
theorem informsOnce_otherMessages :
    ∃ s : ReceiverState 0, Spells s.messHeap s.messRecv otherMessages ∧
      InformsOnce twoTasks false (receiveFrom 1) otherMessages s := by
  have hnone : Spells (.empty : Heap Int (ArrivedMessage 0)) createQueue [] := spells_createQueue
  obtain ⟨h₁, q₁, -, hone⟩ := hnone.inFifoQueue 0 (otherMessages.head (by decide))
  obtain ⟨h₂, q₂, -, htwo⟩ := hone.inFifoQueue 0 (otherMessages.getLast (by decide))
  refine ⟨{ noMessage with messHeap := h₂, messRecv := q₂ }, htwo, ?_⟩
  refine (informsOnce_iff rfl htwo spells_createQueue).mpr ⟨⟨by decide, by decide⟩, ?_⟩
  unfold Takes otherMessages receiveFrom
  decide

/-- The receive that finds the message also reports a miss, and a receive from any task panics. -/
theorem not_informsOnce :
    ¬ InformsOnce twoTasks false (receiveFrom 1) [sentMessage] oneMessage ∧
      ¬ InformsOnce twoTasks false (receiveFrom (-1)) [] noMessage := by
  constructor
  · rintro ⟨s', result, hrun, hresult⟩
    have htwo : (isMessageAwaiting twoTasks false (receiveFrom 1) oneMessage).map
        (fun x => x.1.informed.length) = some 2 := rfl
    rw [hrun, Option.map_some, Option.some.injEq] at htwo
    have hone : s'.informed.length = 1 := by
      rcases hresult with ⟨-, _, _, _, -, -, -, -, hinformedOf, -⟩ | ⟨-, -, -, hinformedOf, -⟩
      · exact hinformedOf.length
      · exact hinformedOf.length
    exact absurd (hone.symm.trans htwo) (by decide)
  · rintro ⟨s', result, hrun, -⟩
    have hnone : (isMessageAwaiting twoTasks false (receiveFrom (-1)) noMessage).isNone = true := rfl
    rw [hrun] at hnone
    exact absurd hnone (by simp)

/-! ## Runs -/

/-- A message comes to the task, or a thread of it receives. -/
inductive Event (taskid : Int) where
  | arrive (source : ArrivedMessage taskid)
  | receive (r : Receiving)

def runEvents (P : Platform) (waitLogicalRecv : Bool) :
    ReceiverState taskid → List (Event taskid) → Option (ReceiverState taskid × List Bool)
  | s, [] => some (s, [])
  | s, .arrive source :: es => do
      let (messHeap, messRecv) ← inFifoQueue 0 s.messHeap s.messRecv source
      runEvents P waitLogicalRecv { s with messHeap := messHeap, messRecv := messRecv } es
  | s, .receive r :: es => do
      let (s, result) ← isMessageAwaiting P waitLogicalRecv r s
      let (s, results) ← runEvents P waitLogicalRecv s es
      some (s, result :: results)

/-- Whatever comes and is received, the scheduler is informed once for each receive, and once more
for each one that found its message. -/
theorem length_informed_runEvents {es : List (Event taskid)} {results : List Bool}
    (harrived : Spells s.messHeap s.messRecv arrived)
    (hirecvs : Spells s.irecvsHeap s.irecvsExecuted irecvs)
    (hrun : runEvents P waitLogicalRecv s es = some (s', results)) :
    s'.informed.length = s.informed.length + results.length + results.count true := by
  induction es generalizing s arrived irecvs results with
  | nil =>
      cases hrun
      rfl
  | cons e es ih =>
      cases e with
      | arrive source =>
          obtain ⟨h, q, hin, harrived'⟩ := harrived.inFifoQueue 0 source
          rw [runEvents, hin] at hrun
          exact @ih { s with messHeap := h, messRecv := q } _ _ _ harrived' hirecvs hrun
      | receive r =>
          obtain ⟨⟨s₁, result⟩, hreceive, hrun⟩ := Option.bind_eq_some_iff.mp hrun
          obtain ⟨⟨s₂, rest⟩, hrest, heq⟩ := Option.bind_eq_some_iff.mp hrun
          cases heq
          have hmpi : r.mess.oriThread = -1 := by
            by_contra hne
            rw [isMessageAwaiting, if_pos hne] at hreceive
            exact absurd hreceive (by simp)
          obtain ⟨s₀, found, hsearch, hresult, irecvs', hirecvs'⟩ :=
            @isMessageAwaiting_search _ P waitLogicalRecv r s arrived irecvs hmpi harrived hirecvs
          rw [hsearch] at hreceive
          obtain ⟨taskSource, -, heq⟩ := Option.map_eq_some_iff.mp hreceive
          cases heq
          have hmiss :
              (schedulerInfo P .recvMiss ⟨taskSource, 0⟩ ⟨taskid, r.threadid⟩ s₀).informed.length =
                s₀.informed.length + 1 := List.length_append
          rcases hresult with ⟨rfl, -, hspells, hinformed, -⟩ |
            ⟨rfl, before, source, after, -, -, -, hspells, hinformed⟩
          · rw [@ih (schedulerInfo P .recvMiss ⟨taskSource, 0⟩ ⟨taskid, r.threadid⟩ s₀) _ _ _ hspells
              hirecvs' hrest, hmiss, hinformed, List.length_cons,
              List.count_cons_of_ne Bool.false_ne_true]
            omega
          · rw [@ih (schedulerInfo P .recvMiss ⟨taskSource, 0⟩ ⟨taskid, r.threadid⟩ s₀) _ _ _ hspells
              hirecvs' hrest, hmiss, hinformed.length, List.length_cons,
              List.count_cons_self]
            omega

end Dimemas.Model.ReceiveNotifications
