import Dimemas.Model.CollectiveMatching
/-!
# The waits for non blocking collective operations

`GLOBAL_wait_operation` takes a copy of its thread whose operation has ended, or blocks until
`close_global_nonblock_communication` ends one. The thread keeps counters of its operations and
waits. The queues that group the copies are those of the communicators.
-/

namespace Dimemas.Model.CollectiveWaits

open Dimemas.Library.Transitions
open Dimemas.Model.Collectives
open Dimemas.Model.CollectiveGroups
open Dimemas.Model.CollectiveMatching

inductive WaitAction
  | event
  | globalOp (commId : Nat)
  | globalWait (commId : Nat)
  | other
deriving DecidableEq, Repr

def WaitAction.toAction : WaitAction → Action
  | .event => .event
  | .globalOp commId => .globalOp commId
  | .globalWait _ => .other
  | .other => .other

/-- The tasks with the waits among their actions. -/
structure WaitPtask extends Ptask where
  waitActions : Nat → List WaitAction
  actions_eq : ∀ task, actions task = (waitActions task).map WaitAction.toAction

/-- A thread is blocked while it waits for an operation or another module has it. `waits` is the
number of its waits behind their startups. -/
structure WaitThread where
  actions : List WaitAction
  blocked : Bool
  doingStartup : Bool
  startupDone : Bool
  nbGlobIndexMaster : Nat
  nNonblockGlobInFlight : Nat
  nNonblockGlobDone : Nat
  nNonblockGlobWaiting : Nat
  nonblockGlopDoneThreads : List CopyThread
  issued : Nat → Nat
  waits : Nat

/-- Of `queues` only the queues of the communicators are used, its threads are not. `closed` are
the operations that have ended, `ended` their copies and `deleted` the copies that
`delete_duplicate_thread` was called for, the oldest first. -/
structure WaitState where
  thread : Nat → WaitThread
  queues : GlopState
  closed : List (Nat × Nat)
  ended : List CopyThread
  deleted : List CopyThread

variable (P : WaitPtask)

def WaitState.init : WaitState where
  thread t := ⟨P.waitActions t, false, false, false, 0, 0, 0, 0, [], fun _ => 0, 0⟩
  queues := .init P.toPtask
  closed := []
  ended := []
  deleted := []

def WaitState.setThread (s : WaitState) (t : Nat) (thread : WaitThread) : WaitState :=
  { s with thread := Function.update s.thread t thread }

/-- `GLOBAL_wait_operation` of a thread with these actions behind the wait. -/
def globalWaitOperation (s : WaitState) (t commId : Nat) (rest : List WaitAction) :
    Option WaitState :=
  let thread := s.thread t
  if thread.startupDone = false ∧ P.startup t commId ≠ 0 then
    some (s.setThread t
      { thread with actions := .globalWait commId :: rest, doingStartup := true })
  else if thread.nNonblockGlobDone = 0 then
    some (s.setThread t { thread with
      actions := .globalWait commId :: rest
      blocked := true
      startupDone := false
      nNonblockGlobWaiting := thread.nNonblockGlobWaiting + 1
      waits := thread.waits + 1 })
  else do
    let copy ← thread.nonblockGlopDoneThreads.head?
    let s := s.setThread t { thread with
      actions := rest
      startupDone := false
      nNonblockGlobDone := thread.nNonblockGlobDone - 1
      nonblockGlopDoneThreads := thread.nonblockGlopDoneThreads.tail
      waits := thread.waits + 1 }
    some { s with deleted := s.deleted ++ [copy] }

/-- `GLOBAL_operation` behind the call of `SCHEDULER_general` for the original thread. -/
def handOutIndex (s : WaitState) (t commId nth : Nat) : Option WaitState := do
  let thread := s.thread t
  let copy : CopyThread := ⟨t, commId, nth, thread.nbGlobIndexMaster⟩
  let s := s.setThread t { thread with
    nNonblockGlobInFlight := thread.nNonblockGlobInFlight + 1
    nbGlobIndexMaster := thread.nbGlobIndexMaster + 1 }
  let queues ← blockOrInitiate P.toPtask (s.queues.insertNewQueue commId copy.nbGlobIndex) copy
  some { s with queues := queues }

/-- `SCHEDULER_general` from `next_op` on, for a thread with these actions. -/
def nextOp (t : Nat) : List WaitAction → WaitState → Option WaitState
  | [], s => some (s.setThread t { s.thread t with actions := [] })
  | .event :: rest, s => nextOp t rest s
  | .other :: rest, s =>
      some (s.setThread t { s.thread t with actions := .other :: rest, blocked := true })
  | .globalWait commId :: rest, s => globalWaitOperation P s t commId rest
  | .globalOp commId :: rest, s =>
      let thread := s.thread t
      if t ∉ P.communicator commId then none
      else if thread.startupDone = false ∧ P.startup t commId ≠ 0 then
        some (s.setThread t
          { thread with actions := .globalOp commId :: rest, doingStartup := true })
      else do
        let nth := thread.issued commId
        let s ← nextOp t rest (s.setThread t { thread with
          startupDone := false
          issued := Function.update thread.issued commId (nth + 1) })
        handOutIndex P s t commId nth

/-- `SCHEDULER_general` when the timer of the thread is out. -/
def schTimerOut (s : WaitState) (t : Nat) : Option WaitState :=
  let thread := s.thread t
  if thread.doingStartup then
    nextOp P t thread.actions
      (s.setThread t { thread with startupDone := true, doingStartup := false })
  else nextOp P t thread.actions s

/-- `close_global_nonblock_communication` for one copy: a thread that waits goes on behind its
action, any other keeps the copy for a later wait. -/
def endCopy (s : WaitState) (copy : CopyThread) : WaitState :=
  let parent := s.thread copy.task
  if parent.nNonblockGlobWaiting > 0 then
    { s.setThread copy.task { parent with
        actions := parent.actions.tail
        blocked := false
        nNonblockGlobWaiting := parent.nNonblockGlobWaiting - 1
        nNonblockGlobInFlight := parent.nNonblockGlobInFlight - 1 } with
      ended := s.ended ++ [copy]
      deleted := s.deleted ++ [copy] }
  else
    { s.setThread copy.task { parent with
        nNonblockGlobDone := parent.nNonblockGlobDone + 1
        nonblockGlopDoneThreads := parent.nonblockGlopDoneThreads ++ [copy]
        nNonblockGlobInFlight := parent.nNonblockGlobInFlight - 1 } with
      ended := s.ended ++ [copy] }

def closeGlobalNonblockCommunication (s : WaitState) (commId index : Nat) : Option WaitState := do
  let nbGlobThreads ← s.queues.queryPrioQueue commId index
  let queues ← Collectives.closeGlobalNonblockCommunication P.toPtask s.queues commId index
  some ((s.queues.threadsQueue nbGlobThreads).foldl endCopy
    { s with queues := queues, closed := s.closed ++ [(commId, index)] })

inductive WaitLabel
  | timerOut (t : Nat)
  | otherDone (t : Nat)
  | close (commId index : Nat)
deriving DecidableEq, Repr

/-- The timer of a thread is out, another module gives a thread back behind its action, or an
operation in flight ends. -/
def waitNext (s : WaitState) : WaitLabel → Option WaitState
  | .timerOut t => if (s.thread t).blocked then none else schTimerOut P s t
  | .otherDone t =>
      let thread := s.thread t
      if thread.blocked ∧ thread.actions.head? = some .other then
        some (s.setThread t { thread with actions := thread.actions.tail, blocked := false })
      else none
  | .close commId index =>
      if s.queues.inFlight.contains (commId, index) then
        closeGlobalNonblockCommunication P s commId index
      else none

variable {P : WaitPtask} {s s' : WaitState} {t commId index : Nat}

@[simp] theorem WaitState.setThread_self (thread : WaitThread) :
    (s.setThread t thread).thread t = thread := Function.update_self ..

theorem WaitState.setThread_of_ne {t' : Nat} (h : t' ≠ t) (thread : WaitThread) :
    (s.setThread t thread).thread t' = s.thread t' := Function.update_of_ne h ..

/-! ## Without the waits -/

def WaitThread.entered (thread : WaitThread) : Bool :=
  match thread.actions with
  | .other :: _ => thread.blocked
  | .globalWait _ :: _ => thread.blocked || thread.doingStartup
  | _ => false

def WaitThread.view (thread : WaitThread) : Thread where
  actions := (if thread.entered then thread.actions.tail else thread.actions).map
    WaitAction.toAction
  doingStartup := !thread.entered && thread.doingStartup
  startupDone := thread.startupDone
  nbGlobIndexMaster := thread.nbGlobIndexMaster
  issued := thread.issued

def withThreads (thread : Nat → Thread) (queues : GlopState) : GlopState :=
  { queues with thread := thread }

def WaitState.view (s : WaitState) : GlopState :=
  withThreads (fun t => (s.thread t).view) s.queues

theorem view_eq (thread : WaitThread) (h : thread.entered = false) :
    thread.view = ⟨thread.actions.map WaitAction.toAction, thread.doingStartup,
      thread.startupDone, thread.nbGlobIndexMaster, thread.issued⟩ := by
  simp [WaitThread.view, h]

theorem view_of_entered (thread : WaitThread) (h : thread.entered = true) :
    thread.view = ⟨thread.actions.tail.map WaitAction.toAction, false,
      thread.startupDone, thread.nbGlobIndexMaster, thread.issued⟩ := by
  simp [WaitThread.view, h]

theorem view_of_ready (thread : WaitThread) (hblocked : thread.blocked = false)
    (hdoing : thread.doingStartup = false) :
    thread.view = ⟨thread.actions.map WaitAction.toAction, false,
      thread.startupDone, thread.nbGlobIndexMaster, thread.issued⟩ := by
  have hentered : thread.entered = false := by
    unfold WaitThread.entered
    rw [hblocked, hdoing]
    split <;> rfl
  rw [view_eq _ hentered, hdoing]

theorem view_init : (WaitState.init P).view = .init P.toPtask := by
  refine congrArg (withThreads · _) (funext fun t => ?_)
  rw [view_of_ready _ rfl rfl, P.actions_eq]
  rfl

theorem view_setThread (thread : WaitThread) :
    (s.setThread t thread).view = s.view.setThread t thread.view := by
  refine congrArg (withThreads · s.queues) (funext fun t' => ?_)
  exact Function.apply_update (fun _ => WaitThread.view) s.thread t thread t'

@[simp] theorem view_thread : s.view.thread t = (s.thread t).view := rfl

theorem blockOrInitiate_withThreads (thread : Nat → Thread) (queues : GlopState)
    (copy : CopyThread) :
    blockOrInitiate P.toPtask (withThreads thread queues) copy =
      (blockOrInitiate P.toPtask queues copy).map (withThreads thread) := by
  have hquery : (withThreads thread queues).queryPrioQueue copy.commId copy.nbGlobIndex =
      queues.queryPrioQueue copy.commId copy.nbGlobIndex := rfl
  unfold blockOrInitiate
  rw [hquery]
  cases queues.queryPrioQueue copy.commId copy.nbGlobIndex with
  | none => rfl
  | some q =>
      simp only [Option.bind_eq_bind, Option.bind_some]
      rw [apply_ite (Option.map (withThreads thread))]
      rfl

theorem handOutIndex_view (s : WaitState) (t commId nth : Nat) :
    (handOutIndex P s t commId nth).map WaitState.view =
      Collectives.handOutIndex P.toPtask s.view t commId nth := by
  let s₁ := s.setThread t { s.thread t with
    nNonblockGlobInFlight := (s.thread t).nNonblockGlobInFlight + 1
    nbGlobIndexMaster := (s.thread t).nbGlobIndexMaster + 1 }
  let index := (s.thread t).nbGlobIndexMaster
  have hview : s₁.view = s.view.setThread t
      { (s.thread t).view with nbGlobIndexMaster := index + 1 } := view_setThread _
  calc
    _ = (blockOrInitiate P.toPtask (s.queues.insertNewQueue commId index)
          ⟨t, commId, nth, index⟩).map (withThreads s₁.view.thread) := by
      unfold handOutIndex
      rw [Option.bind_eq_bind, Option.map_bind]
      exact (Option.map_eq_bind ..).symm
    _ = blockOrInitiate P.toPtask (s₁.view.insertNewQueue commId index)
          ⟨t, commId, nth, index⟩ := (blockOrInitiate_withThreads ..).symm
    _ = _ := by
      rw [hview]
      rfl

/-- A wait begins its startup, blocks, or takes the first copy that has ended. -/
theorem globalWaitOperation_cases (commId : Nat) (rest : List WaitAction)
    (hdone : (s.thread t).nNonblockGlobDone = (s.thread t).nonblockGlopDoneThreads.length) :
    ((s.thread t).startupDone = false ∧
      globalWaitOperation P s t commId rest = some (s.setThread t { s.thread t with
        actions := .globalWait commId :: rest
        doingStartup := true })) ∨
    ((s.thread t).nNonblockGlobDone = 0 ∧
      globalWaitOperation P s t commId rest = some (s.setThread t { s.thread t with
        actions := .globalWait commId :: rest
        blocked := true
        startupDone := false
        nNonblockGlobWaiting := (s.thread t).nNonblockGlobWaiting + 1
        waits := (s.thread t).waits + 1 })) ∨
    ∃ copy copies, (s.thread t).nonblockGlopDoneThreads = copy :: copies ∧
      globalWaitOperation P s t commId rest = some { s.setThread t { s.thread t with
        actions := rest
        startupDone := false
        nNonblockGlobDone := (s.thread t).nNonblockGlobDone - 1
        nonblockGlopDoneThreads := copies
        waits := (s.thread t).waits + 1 } with deleted := s.deleted ++ [copy] } := by
  simp only [globalWaitOperation]
  by_cases hstartup : (s.thread t).startupDone = false ∧ P.startup t commId ≠ 0
  · exact .inl ⟨hstartup.1, if_pos hstartup⟩
  by_cases hzero : (s.thread t).nNonblockGlobDone = 0
  · exact .inr (.inl ⟨hzero, by rw [if_neg hstartup, if_pos hzero]⟩)
  obtain ⟨copy, copies, hcopies⟩ := List.exists_cons_of_length_pos
    (Nat.pos_of_ne_zero (hdone ▸ hzero))
  right
  right
  refine ⟨copy, copies, hcopies, ?_⟩
  rw [if_neg hstartup, if_neg hzero, hcopies]
  rfl

theorem globalWaitOperation_view {rest : List WaitAction}
    (hblocked : (s.thread t).blocked = false) (hdoing : (s.thread t).doingStartup = false)
    (hdone : (s.thread t).nNonblockGlobDone = (s.thread t).nonblockGlopDoneThreads.length) :
    (globalWaitOperation P s t commId rest).map WaitState.view =
      some (s.view.setThread t ⟨rest.map WaitAction.toAction, false, false,
        (s.thread t).nbGlobIndexMaster, (s.thread t).issued⟩) := by
  rcases globalWaitOperation_cases (P := P) commId rest hdone with
    ⟨hstartup, heq⟩ | ⟨-, heq⟩ | ⟨copy, copies, -, heq⟩ <;> rw [heq, Option.map_some]
  · rw [view_setThread, view_of_entered _ (by simp [WaitThread.entered]), ← hstartup]
    rfl
  · rw [view_setThread, view_of_entered _ (by simp [WaitThread.entered])]
    rfl
  · refine congrArg some ((view_setThread _).trans ?_)
    rw [view_of_ready _ (by exact hblocked) (by exact hdoing)]

/-- Every call of `SCHEDULER_general` is one of the model without the waits. -/
theorem nextOp_view {actions : List WaitAction}
    (hblocked : (s.thread t).blocked = false) (hdoing : (s.thread t).doingStartup = false)
    (hdone : (s.thread t).nNonblockGlobDone = (s.thread t).nonblockGlopDoneThreads.length)
    (hstartup : (s.thread t).startupDone = false ∨ ∃ commId rest,
      actions = .globalOp commId :: rest) :
    (nextOp P t actions s).map WaitState.view =
      Collectives.nextOp P.toPtask t (actions.map WaitAction.toAction) s.view := by
  induction actions generalizing s with
  | nil =>
      rw [nextOp, Option.map_some, view_setThread, List.map_nil, Collectives.nextOp, view_thread]
      rw [view_of_ready _ (by exact hblocked) (by exact hdoing), view_of_ready _ hblocked hdoing]
      rfl
  | cons a rest ih =>
      have hview := view_of_ready _ hblocked hdoing
      cases a with
      | event =>
          refine ih hblocked hdoing hdone (.inl (hstartup.resolve_right ?_))
          rintro ⟨c, rest', h⟩
          cases h
      | other =>
          rw [nextOp, Option.map_some, view_setThread, view_of_entered _ rfl]
          rw [List.map_cons, WaitAction.toAction, Collectives.nextOp, view_thread, hview]
          rfl
      | globalWait c =>
          have hreset : (s.thread t).startupDone = false := by
            refine hstartup.resolve_right ?_
            rintro ⟨c, rest', h⟩
            cases h
          rw [nextOp, globalWaitOperation_view hblocked hdoing hdone]
          rw [List.map_cons, WaitAction.toAction, Collectives.nextOp, view_thread, hview, hreset]
      | globalOp c =>
          rw [List.map_cons, WaitAction.toAction, nextOp, Collectives.nextOp, view_thread, hview]
          simp only
          split
          · rfl
          · split
            · rw [Option.map_some, view_setThread, view_eq _ rfl]
              rfl
            · -- the thread of the nested call has its startup flags set back
              let s₁ := s.setThread t { s.thread t with
                startupDone := false
                issued := Function.update (s.thread t).issued c ((s.thread t).issued c + 1) }
              have hs₁ : s₁.view = s.view.setThread t { (s.thread t).view with
                  startupDone := false
                  issued := Function.update (s.thread t).issued c
                    ((s.thread t).issued c + 1) } := by
                rw [view_setThread, view_of_ready _ (by exact hblocked) (by exact hdoing), hview]
              have hinner := ih (s := s₁) (by simpa [s₁] using hblocked)
                (by simpa [s₁] using hdoing) (by simpa [s₁] using hdone) (by simp [s₁])
              rw [hs₁, hview] at hinner
              rw [← hinner]
              rw [Option.bind_eq_bind, Option.bind_eq_bind, Option.map_bind, Option.bind_map]
              exact Option.bind_congr fun s₂ _ => handOutIndex_view ..

/-! ## The counters of a thread -/

def ofTask (t : Nat) (copies : List CopyThread) : List CopyThread :=
  copies.filter fun copy => copy.task = t

theorem ofTask_concat (copies : List CopyThread) (copy : CopyThread) :
    ofTask t (copies ++ [copy]) =
      ofTask t copies ++ if copy.task = t then [copy] else [] := by
  by_cases h : copy.task = t <;> simp [ofTask, h]

/-- The counters of a thread with the copies that it made, those that have ended and those that
its waits took. -/
structure Counts (thread : WaitThread) (joined ended deleted : List CopyThread) : Prop where
  handed : deleted ++ thread.nonblockGlopDoneThreads = ended
  done : thread.nNonblockGlobDone = thread.nonblockGlopDoneThreads.length
  inFlight : thread.nNonblockGlobInFlight + ended.length = joined.length
  waits : thread.waits = deleted.length + thread.nNonblockGlobWaiting
  served : thread.nNonblockGlobWaiting = 0 ∨ thread.nNonblockGlobDone = 0

def Counted (s : WaitState) (t : Nat) : Prop :=
  Counts (s.thread t) (ofTask t (s.queues.joined.map Prod.fst)) (ofTask t s.ended)
    (ofTask t s.deleted)

variable {thread : WaitThread} {joined ended deleted copies : List CopyThread}
  {copy : CopyThread} {actions : List WaitAction}

theorem Counts.nil_of_done (h : Counts thread joined ended deleted)
    (hdone : thread.nNonblockGlobDone = 0) : thread.nonblockGlopDoneThreads = [] := by
  rw [h.done] at hdone
  exact List.eq_nil_of_length_eq_zero hdone

theorem Counts.eq_of_waiting (h : Counts thread joined ended deleted)
    (hwaiting : thread.nNonblockGlobWaiting ≠ 0) : deleted = ended := by
  have hnil := h.nil_of_done (h.served.resolve_left hwaiting)
  rw [← h.handed, hnil, List.append_nil]

theorem Counts.flags {blocked doingStartup startupDone : Bool} {issued : Nat → Nat}
    (h : Counts thread joined ended deleted) :
    Counts { thread with
      actions := actions
      blocked := blocked
      doingStartup := doingStartup
      startupDone := startupDone
      issued := issued } joined ended deleted where
  handed := h.handed
  done := h.done
  inFlight := h.inFlight
  waits := h.waits
  served := h.served

theorem Counts.block (h : Counts thread joined ended deleted)
    (hdone : thread.nNonblockGlobDone = 0) :
    Counts { thread with
      actions := actions
      blocked := true
      startupDone := false
      nNonblockGlobWaiting := thread.nNonblockGlobWaiting + 1
      waits := thread.waits + 1 } joined ended deleted where
  handed := h.handed
  done := h.done
  inFlight := h.inFlight
  waits := by
    simp only [h.waits]
    omega
  served := .inr hdone

theorem Counts.take (h : Counts thread joined ended deleted)
    (hcopies : thread.nonblockGlopDoneThreads = copy :: copies) :
    Counts { thread with
      actions := actions
      startupDone := false
      nNonblockGlobDone := thread.nNonblockGlobDone - 1
      nonblockGlopDoneThreads := copies
      waits := thread.waits + 1 } joined ended (deleted ++ [copy]) where
  handed := by
    rw [List.append_assoc, List.singleton_append, ← hcopies]
    exact h.handed
  done := by simp [h.done, hcopies]
  inFlight := h.inFlight
  waits := by
    rw [List.length_append, List.length_singleton]
    simp only [h.waits]
    omega
  served := by
    have hserved := h.served
    simp only
    omega

/-- The copy of an operation that the thread issues is in flight. -/
theorem Counts.issue (h : Counts thread joined ended deleted) (copy : CopyThread) :
    Counts { thread with
      nNonblockGlobInFlight := thread.nNonblockGlobInFlight + 1
      nbGlobIndexMaster := thread.nbGlobIndexMaster + 1 } (joined ++ [copy]) ended deleted where
  handed := h.handed
  done := h.done
  inFlight := by
    have hflight := h.inFlight
    rw [List.length_append, List.length_singleton]
    simp only
    omega
  waits := h.waits
  served := h.served

/-- The end of an operation wakes the thread if it waits. -/
theorem Counts.wake (h : Counts thread joined ended deleted)
    (hflight : ended.length < joined.length) (hwaiting : 0 < thread.nNonblockGlobWaiting) :
    Counts { thread with
      actions := actions
      blocked := false
      nNonblockGlobWaiting := thread.nNonblockGlobWaiting - 1
      nNonblockGlobInFlight := thread.nNonblockGlobInFlight - 1 } joined (ended ++ [copy])
      (deleted ++ [copy]) where
  handed := by
    have hnil := h.nil_of_done (h.served.resolve_left hwaiting.ne')
    simp only [hnil, List.append_nil, h.eq_of_waiting hwaiting.ne']
  done := h.done
  inFlight := by
    have hsum := h.inFlight
    rw [List.length_append, List.length_singleton]
    simp only
    omega
  waits := by
    rw [List.length_append, List.length_singleton]
    simp only [h.waits]
    omega
  served := .inr (h.served.resolve_left (by omega))

theorem Counts.keep (h : Counts thread joined ended deleted)
    (hflight : ended.length < joined.length) (hwaiting : thread.nNonblockGlobWaiting = 0) :
    Counts { thread with
      nNonblockGlobDone := thread.nNonblockGlobDone + 1
      nonblockGlopDoneThreads := thread.nonblockGlopDoneThreads ++ [copy]
      nNonblockGlobInFlight := thread.nNonblockGlobInFlight - 1 } joined (ended ++ [copy])
      deleted where
  handed := by rw [← List.append_assoc, h.handed]
  done := by simp [h.done]
  inFlight := by
    have hsum := h.inFlight
    rw [List.length_append, List.length_singleton]
    simp only
    omega
  waits := h.waits
  served := .inl hwaiting

def WaitThread.inWait (thread : WaitThread) : Bool :=
  thread.blocked && match thread.actions with
    | .globalWait _ :: _ => true
    | _ => false

/-- What the flags of a thread say between two events. -/
structure Rests (thread : WaitThread) : Prop where
  startupDone : thread.startupDone = false
  blocked : thread.blocked = true → thread.doingStartup = false ∧ ∃ rest,
    thread.actions = .other :: rest ∨ ∃ commId, thread.actions = .globalWait commId :: rest
  starting : thread.doingStartup = true → ∃ commId rest,
    thread.actions = .globalOp commId :: rest ∨ thread.actions = .globalWait commId :: rest
  waiting : thread.nNonblockGlobWaiting = if thread.inWait then 1 else 0

theorem Rests.ready (hstartup : thread.startupDone = false) (hblocked : thread.blocked = false)
    (hdoing : thread.doingStartup = false) (hwaiting : thread.nNonblockGlobWaiting = 0) :
    Rests thread := by
  constructor
  · exact hstartup
  · simp [hblocked]
  · simp [hdoing]
  · simp [WaitThread.inWait, hblocked, hwaiting]

theorem Rests.startup (hstartup : thread.startupDone = false)
    (hblocked : thread.blocked = false) (hwaiting : thread.nNonblockGlobWaiting = 0)
    (hactions : ∃ commId rest,
      actions = .globalOp commId :: rest ∨ actions = .globalWait commId :: rest) :
    Rests { thread with actions := actions, doingStartup := true } := by
  constructor
  · exact hstartup
  · simp [hblocked]
  · exact fun _ => hactions
  · simp [WaitThread.inWait, hblocked, hwaiting]

/-- What an event of the task `t` keeps, and how its thread is left. -/
structure EventOk (t : Nat) (s s' : WaitState) : Prop where
  counted : ∀ t', Counted s' t'
  rests : Rests (s'.thread t)
  thread : ∀ t', t' ≠ t → s'.thread t' = s.thread t'
  closed : s'.closed = s.closed
  ended : s'.ended = s.ended

theorem Counted.setThread (h : ∀ t', Counted s t')
    (hcounts : Counts thread (ofTask t (s.queues.joined.map Prod.fst)) (ofTask t s.ended)
      (ofTask t s.deleted)) (t' : Nat) : Counted (s.setThread t thread) t' := by
  by_cases ht : t' = t
  · subst ht
    unfold Counted
    rw [WaitState.setThread_self]
    exact hcounts
  · unfold Counted
    rw [WaitState.setThread_of_ne ht]
    exact h t'

theorem eventOk_setThread (h : ∀ t', Counted s t')
    (hcounts : Counts thread (ofTask t (s.queues.joined.map Prod.fst)) (ofTask t s.ended)
      (ofTask t s.deleted)) (hrests : Rests thread) : EventOk t s (s.setThread t thread) where
  counted := Counted.setThread h hcounts
  rests := by rwa [WaitState.setThread_self]
  thread _ ht := WaitState.setThread_of_ne ht _
  closed := rfl
  ended := rfl

theorem Counted.task_eq (h : Counted s t)
    (hcopies : (s.thread t).nonblockGlopDoneThreads = copy :: copies) : copy.task = t := by
  have hmem : copy ∈ ofTask t s.ended := by
    rw [← h.handed, hcopies]
    simp
  exact of_decide_eq_true (List.mem_filter.mp hmem).2

theorem globalWaitOperation_spec (commId : Nat) (rest : List WaitAction)
    (h : ∀ t', Counted s t')
    (hblocked : (s.thread t).blocked = false) (hdoing : (s.thread t).doingStartup = false)
    (hwaiting : (s.thread t).nNonblockGlobWaiting = 0) :
    ∃ s', globalWaitOperation P s t commId rest = some s' ∧ EventOk t s s' := by
  have hcounts := h t
  rcases globalWaitOperation_cases (P := P) commId rest hcounts.done with
    ⟨hstartup, heq⟩ | ⟨hzero, heq⟩ | ⟨copy, copies, hcopies, heq⟩
  · refine ⟨_, heq, eventOk_setThread h hcounts.flags ?_⟩
    exact Rests.startup hstartup hblocked hwaiting ⟨commId, rest, .inr rfl⟩
  · refine ⟨_, heq, eventOk_setThread h (hcounts.block hzero) ?_⟩
    constructor
    · rfl
    · simp [hdoing]
    · simp [hdoing]
    · simp [WaitThread.inWait, hwaiting]
  · refine ⟨_, heq, ?_⟩
    have htask := (h t).task_eq hcopies
    refine ⟨fun t' => ?_, ?_, fun t' ht => WaitState.setThread_of_ne ht _, rfl, rfl⟩
    · by_cases ht : t' = t
      · subst ht
        unfold Counted
        simp only [ofTask_concat, htask, if_true]
        rw [WaitState.setThread_self]
        exact hcounts.take hcopies
      · unfold Counted
        simp only [ofTask_concat]
        rw [if_neg (htask ▸ Ne.symm ht), List.append_nil, WaitState.setThread_of_ne ht]
        exact h t'
    · simp only [WaitState.setThread_self]
      exact Rests.ready rfl hblocked hdoing hwaiting

theorem joined_of_blockOrInitiate {q q' : GlopState}
    (h : blockOrInitiate P.toPtask q copy = some q') :
    ∃ address, q'.joined = q.joined ++ [(copy, address)] := by
  obtain ⟨address, -, hrest⟩ := Option.bind_eq_some_iff.mp h
  refine ⟨address, ?_⟩
  simp only at hrest
  split at hrest <;> obtain rfl := Option.some.inj hrest <;> rfl

theorem handOutIndex_spec {nth : Nat} (h : ∀ t', Counted s t') (hrests : Rests (s.thread t))
    (hstep : handOutIndex P s t commId nth = some s') : EventOk t s s' := by
  obtain ⟨queues, hqueues, hlast⟩ := Option.bind_eq_some_iff.mp hstep
  obtain rfl := Option.some.inj hlast
  obtain ⟨address, hjoined⟩ := joined_of_blockOrInitiate hqueues
  have hjoined' : queues.joined.map Prod.fst = s.queues.joined.map Prod.fst ++
      [⟨t, commId, nth, (s.thread t).nbGlobIndexMaster⟩] := by
    rw [hjoined, List.map_append]
    rfl
  refine ⟨fun t' => ?_, ?_, fun t' ht => WaitState.setThread_of_ne ht _, rfl, rfl⟩
  · unfold Counted
    simp only [hjoined', ofTask_concat]
    by_cases ht : t' = t
    · subst ht
      rw [if_pos rfl, WaitState.setThread_self]
      exact (h t').issue _
    · rw [if_neg (Ne.symm ht), List.append_nil, WaitState.setThread_of_ne ht]
      exact h t'
  · simp only [WaitState.setThread_self]
    exact ⟨hrests.startupDone, hrests.blocked, hrests.starting, hrests.waiting⟩

theorem EventOk.trans {s₁ s₂ : WaitState} (h₁ : EventOk t s s₁) (h₂ : EventOk t s₁ s₂) :
    EventOk t s s₂ where
  counted := h₂.counted
  rests := h₂.rests
  thread t' ht := (h₂.thread t' ht).trans (h₁.thread t' ht)
  closed := h₂.closed.trans h₁.closed
  ended := h₂.ended.trans h₁.ended

/-- The thread of a call of `SCHEDULER_general` does not wait. -/
theorem nextOp_spec {actions : List WaitAction} (h : ∀ t', Counted s t')
    (hblocked : (s.thread t).blocked = false) (hdoing : (s.thread t).doingStartup = false)
    (hwaiting : (s.thread t).nNonblockGlobWaiting = 0)
    (hstartup : (s.thread t).startupDone = false ∨ ∃ commId rest,
      actions = .globalOp commId :: rest ∨ actions = .globalWait commId :: rest)
    (hstep : nextOp P t actions s = some s') : EventOk t s s' := by
  have hcounts := h t
  induction actions generalizing s s' with
  | nil =>
      obtain rfl := Option.some.inj hstep
      refine eventOk_setThread h hcounts.flags ?_
      have hreset : (s.thread t).startupDone = false := by
        refine hstartup.resolve_right ?_
        rintro ⟨c, rest, hcons | hcons⟩ <;> cases hcons
      exact Rests.ready hreset hblocked hdoing hwaiting
  | cons a rest ih =>
      cases a with
      | event =>
          refine ih h hblocked hdoing hwaiting (.inl (hstartup.resolve_right ?_)) hstep hcounts
          rintro ⟨c, rest', hcons | hcons⟩ <;> cases hcons
      | other =>
          obtain rfl := Option.some.inj hstep
          refine eventOk_setThread h hcounts.flags ?_
          constructor
          · refine hstartup.resolve_right ?_
            rintro ⟨c, rest', hcons | hcons⟩ <;> cases hcons
          · simp [hdoing]
          · simp [hdoing]
          · simp [WaitThread.inWait, hwaiting]
      | globalWait c =>
          obtain ⟨s₁, heq, hok⟩ := globalWaitOperation_spec (P := P) c rest h hblocked hdoing
            hwaiting
          obtain rfl := Option.some.inj (heq.symm.trans hstep)
          exact hok
      | globalOp c =>
          simp only [nextOp] at hstep
          split at hstep
          · cases hstep
          split at hstep
          · next hreset =>
              obtain rfl := Option.some.inj hstep
              refine eventOk_setThread h hcounts.flags ?_
              exact Rests.startup hreset.1 hblocked hwaiting ⟨c, rest, .inl rfl⟩
          · -- the actions behind the operation come first
            obtain ⟨s₂, hinner, hlast⟩ := Option.bind_eq_some_iff.mp hstep
            let s₁ := s.setThread t { s.thread t with
              startupDone := false
              issued := Function.update (s.thread t).issued c ((s.thread t).issued c + 1) }
            have hcounts₁ : ∀ t', Counted s₁ t' := Counted.setThread h hcounts.flags
            have hthread : s₁.thread t = { s.thread t with
                startupDone := false
                issued := Function.update (s.thread t).issued c
                  ((s.thread t).issued c + 1) } := WaitState.setThread_self _
            have hok := ih hcounts₁ (by rw [hthread]; exact hblocked)
              (by rw [hthread]; exact hdoing) (by rw [hthread]; exact hwaiting)
              (.inl (by rw [hthread])) hinner (hcounts₁ t)
            have hall := hok.trans (handOutIndex_spec hok.counted hok.rests hlast)
            exact ⟨hall.counted, hall.rests,
              fun t' ht => (hall.thread t' ht).trans (WaitState.setThread_of_ne ht _),
              hall.closed, hall.ended⟩

/-! ## The operations that have ended -/

section Operations

variable {Q : Ptask} {g g' : GlopState} {closed : List (Nat × Nat)} {ended : List CopyThread}
  {x : CopyThread} {q : Nat}

/-- The complete operations are in flight, with their copies in their queue, or have ended. -/
structure OperationsOk (Q : Ptask) (closed : List (Nat × Nat)) (ended : List CopyThread)
    (g : GlopState) : Prop where
  nodup : (g.inFlight ++ closed).Nodup
  complete : ∀ commId index, (commId, index) ∈ g.inFlight ++ closed ↔
    group g commId index ≠ [] ∧
      (group g commId index).length = (Q.communicator commId).length
  queue : ∀ commId index, (commId, index) ∈ g.inFlight → ∃ q,
    g.queryPrioQueue commId index = some q ∧
      g.threadsQueue q = (group g commId index).map Prod.fst
  ended : ended = closed.flatMap fun op => (group g op.1 op.2).map Prod.fst

theorem OperationsOk.setThread (h : OperationsOk Q closed ended g) (thread : Thread) :
    OperationsOk Q closed ended (g.setThread t thread) :=
  ⟨h.nodup, h.complete, h.queue, h.ended⟩

theorem OperationsOk.joinedTo (h : OperationsOk Q closed ended g) (hgrouped : Grouped Q g)
    (hlt : (group g x.commId x.nbGlobIndex).length < (Q.communicator x.commId).length)
    (hquery : (g.insertNewQueue x.commId x.nbGlobIndex).queryPrioQueue x.commId x.nbGlobIndex =
      some q)
    (hothers : ∀ c i y, (i, y) ∈ g.nonblockGlobalOpThreads c → y = q →
      c = x.commId ∧ i = x.nbGlobIndex)
    (hjoin : JoinedTo Q g x q g') : OperationsOk Q closed ended g' := by
  have hnot : (x.commId, x.nbGlobIndex) ∉ g.inFlight ++ closed := by
    intro hmem
    have hfull := ((h.complete _ _).mp hmem).2
    omega
  have hne : ∀ c i, (c, i) ∈ g.inFlight ++ closed →
      ¬ (x.commId = c ∧ x.nbGlobIndex = i) := by
    rintro c i hmem ⟨rfl, rfl⟩
    exact hnot hmem
  have hself := hjoin.group_self
  refine ⟨?_, fun c i => ?_, fun c i hmem => ?_, ?_⟩
  · rw [hjoin.inFlight]
    split
    · rw [List.append_assoc, List.singleton_append, List.nodup_middle]
      exact List.nodup_cons.mpr ⟨hnot, h.nodup⟩
    · rw [List.append_nil]
      exact h.nodup
  · by_cases hci : x.commId = c ∧ x.nbGlobIndex = i
    · obtain ⟨rfl, rfl⟩ := hci
      rw [hself, hjoin.inFlight, List.length_append, List.length_singleton]
      split
      · next hfull => simp [hfull]
      · next hfull =>
          rw [List.append_nil]
          exact iff_of_false hnot fun hc => hfull hc.2.symm
    · rw [hjoin.group_of_ne hci, ← h.complete c i, hjoin.inFlight]
      split
      · have hop : (c, i) ≠ (x.commId, x.nbGlobIndex) := by
          intro heq
          obtain ⟨rfl, rfl⟩ := Prod.mk.inj heq
          exact hci ⟨rfl, rfl⟩
        simp only [List.mem_append, List.mem_singleton, hop, or_false]
      · rw [List.append_nil]
  · rw [hjoin.query, hjoin.threadsQueue]
    rw [hjoin.inFlight, List.mem_append] at hmem
    rcases hmem with hold | hnew
    · have hci := hne c i (List.mem_append_left _ hold)
      obtain ⟨q', hquery', hthreads⟩ := h.queue c i hold
      have hmem' := mem_of_query hquery'
      have hqq : q' ≠ q := fun heq => hci ((hothers c i q' hmem' heq).imp Eq.symm Eq.symm)
      have hmalloc : q' ≠ g.malloc := (hgrouped.queues.allocated c _ hmem').ne
      refine ⟨q', ?_, ?_⟩
      · rw [queryPrioQueue_insertNewQueue hgrouped.queues, hquery', Option.some_or]
      · rw [Function.update_of_ne hqq, hjoin.group_of_ne hci, ← hthreads]
        exact Function.update_of_ne hmalloc ..
    · split at hnew
      · obtain ⟨rfl, rfl⟩ := Prod.mk.inj (List.mem_singleton.mp hnew)
        exact ⟨q, hquery, by simp [hself]⟩
      · cases hnew
  · rw [h.ended]
    refine List.flatMap_congr fun op hop => ?_
    rw [hjoin.group_of_ne (hne _ _ (List.mem_append_right _ hop))]

theorem OperationsOk.handOutIndex {nth : Nat} (h : OperationsOk Q closed ended g)
    (hgrouped : Grouped Q g) (ht : t ∈ Q.communicator commId)
    (hstep : Collectives.handOutIndex Q g t commId nth = some g') :
    Grouped Q g' ∧ OperationsOk Q closed ended g' := by
  obtain ⟨q, hquery, hthreads, hq, hmine, hothers⟩ := hgrouped.query ht rfl
  obtain ⟨g₁, hstep₁, hjoin⟩ : ∃ g₁, Collectives.handOutIndex Q g t commId nth = some g₁ ∧
      JoinedTo Q g ⟨t, commId, nth, (g.thread t).nbGlobIndexMaster⟩ q g₁ :=
    handOutIndex_joinedTo hquery hthreads
  obtain rfl := Option.some.inj (hstep₁.symm.trans hstep)
  constructor
  · exact hgrouped.joinedTo ht rfl hquery hq hmine hothers hjoin
  · exact h.joinedTo hgrouped (hgrouped.length_lt ht) hquery hothers hjoin

theorem OperationsOk.nextOp {actions : List Action} (h : OperationsOk Q closed ended g)
    (hgrouped : Grouped Q g)
    (hvalid : ∀ commId, .globalOp commId ∈ actions → t ∈ Q.communicator commId)
    (hstep : Collectives.nextOp Q t actions g = some g') :
    Grouped Q g' ∧ OperationsOk Q closed ended g' := by
  induction actions generalizing g g' with
  | nil =>
      obtain rfl := Option.some.inj hstep
      exact ⟨hgrouped.setThread rfl, h.setThread _⟩
  | cons a rest ih =>
      have hvalid' : ∀ commId, .globalOp commId ∈ rest → t ∈ Q.communicator commId :=
        fun commId hmem => hvalid commId (List.mem_cons_of_mem _ hmem)
      cases a with
      | event => exact ih h hgrouped hvalid' hstep
      | other =>
          obtain rfl := Option.some.inj hstep
          exact ⟨hgrouped.setThread rfl, h.setThread _⟩
      | globalOp c =>
          have hmember := hvalid c List.mem_cons_self
          simp only [Collectives.nextOp, hmember, not_true_eq_false, if_false] at hstep
          split at hstep
          · obtain rfl := Option.some.inj hstep
            exact ⟨hgrouped.setThread rfl, h.setThread _⟩
          · obtain ⟨g₁, hinner, hlast⟩ := Option.bind_eq_some_iff.mp hstep
            obtain ⟨hgrouped₁, h₁⟩ := ih (h.setThread _) (hgrouped.setThread (by rfl)) hvalid'
              hinner
            exact h₁.handOutIndex hgrouped₁ hmember hlast

theorem OperationsOk.schTimerOut (h : OperationsOk Q closed ended g) (hinv : GlopInv Q g)
    (hstep : Collectives.schTimerOut Q g t = some g') : OperationsOk Q closed ended g' := by
  have hvalid := (hinv.threads t).valid
  simp only [Collectives.schTimerOut] at hstep
  split at hstep
  · exact ((h.setThread _).nextOp (hinv.grouped.setThread (by rfl)) hvalid hstep).2
  · exact (h.nextOp hinv.grouped hvalid hstep).2

/-- The queues of a communicator behind an operation that has ended in the queue `q`. -/
def closedQueues (g : GlopState) (commId index q : Nat) : GlopState :=
  { g with
    threadsQueue := Function.update g.threadsQueue q []
    nonblockGlobalOpThreads := Function.update g.nonblockGlobalOpThreads commId
      ((g.nonblockGlobalOpThreads commId).eraseP fun x => x.2 = q)
    inFlight := g.inFlight.erase (commId, index) }

theorem queryPrioQueue_closedQueues (hgrouped : Grouped Q g)
    (hquery : g.queryPrioQueue commId index = some q) {c i q' : Nat}
    (hne : (c, i) ≠ (commId, index))
    (hquery' : g.queryPrioQueue c i = some q') :
    q' ≠ q ∧ (closedQueues g commId index q).queryPrioQueue c i = some q' := by
  have hmem := mem_of_query hquery
  have hmem' := mem_of_query hquery'
  constructor
  · rintro rfl
    obtain ⟨rfl, heq⟩ := hgrouped.queues.distinct c commId _ hmem' _ hmem rfl
    exact hne (congrArg (Prod.mk c) (congrArg Prod.fst heq))
  · rw [← hquery']
    unfold GlopState.queryPrioQueue closedQueues
    by_cases hc : c = commId
    · subst hc
      simp only [Function.update_self]
      rw [Dimemas.Library.StableQueue.find?_eraseP fun x hx hxq hxi => ?_]
      simp only [decide_eq_true_eq] at hxq hxi
      obtain ⟨-, heq⟩ := hgrouped.queues.distinct c c x hx _ hmem hxq
      rw [heq] at hxi
      exact hne (by rw [← hxi])
    · simp only [Function.update_of_ne hc]

theorem OperationsOk.close (h : OperationsOk Q closed ended g) (hgrouped : Grouped Q g)
    (hflight : (commId, index) ∈ g.inFlight) :
    ∃ q, g.queryPrioQueue commId index = some q ∧
      g.threadsQueue q = (group g commId index).map Prod.fst ∧
      Collectives.closeGlobalNonblockCommunication Q g commId index =
        some (closedQueues g commId index q) ∧
      OperationsOk Q (closed ++ [(commId, index)])
        (ended ++ (group g commId index).map Prod.fst) (closedQueues g commId index q) := by
  obtain ⟨q, hquery, hthreads⟩ := h.queue commId index hflight
  have hfull := ((h.complete commId index).mp (List.mem_append_left _ hflight)).2
  have hlength : (g.threadsQueue q).length = (Q.communicator commId).length := by
    rw [hthreads, List.length_map, hfull]
  have hperm : (g.inFlight.erase (commId, index) ++ (closed ++ [(commId, index)])).Perm
      (g.inFlight ++ closed) := by
    rw [← List.append_assoc]
    exact (List.perm_append_singleton ..).trans
      ((List.perm_cons_erase hflight).symm.append_right closed)
  refine ⟨q, hquery, hthreads, ?_, ?_, fun c i => ?_, fun c i hmem => ?_, ?_⟩
  · unfold Collectives.closeGlobalNonblockCommunication
    rw [hquery, Option.bind_eq_bind, Option.bind_some, if_pos hlength]
    rfl
  · exact hperm.nodup_iff.mpr h.nodup
  · exact hperm.mem_iff.trans (h.complete c i)
  · have hnodup := (List.nodup_append.mp h.nodup).1
    obtain ⟨hne, hold⟩ := (hnodup.mem_erase_iff).mp hmem
    obtain ⟨q', hquery', hthreads'⟩ := h.queue c i hold
    obtain ⟨hqq, hclosed⟩ := queryPrioQueue_closedQueues hgrouped hquery hne hquery'
    refine ⟨q', hclosed, ?_⟩
    exact (Function.update_of_ne hqq ..).trans hthreads'
  · rw [List.flatMap_append, h.ended]
    simp only [List.flatMap_singleton]
    rfl

theorem mem_ended (h : OperationsOk Q closed ended g) {copy : CopyThread} : copy ∈ ended ↔
    (copy.commId, copy.nbGlobIndex) ∈ closed ∧ copy ∈ g.joined.map Prod.fst := by
  rw [h.ended, List.mem_flatMap]
  constructor
  · rintro ⟨op, hop, hcopy⟩
    obtain ⟨y, hy, rfl⟩ := List.mem_map.mp hcopy
    obtain ⟨hjoined, hcomm, hindex⟩ := mem_group.mp hy
    rw [hcomm, hindex]
    exact ⟨hop, List.mem_map_of_mem hjoined⟩
  · rintro ⟨hop, hcopy⟩
    obtain ⟨y, hy, rfl⟩ := List.mem_map.mp hcopy
    exact ⟨_, hop, List.mem_map_of_mem (mem_group.mpr ⟨hy, rfl, rfl⟩)⟩

theorem OperationsOk.nodup_ended (h : OperationsOk Q closed ended g) (hgrouped : Grouped Q g) :
    ended.Nodup := by
  rw [h.ended, List.nodup_flatMap]
  constructor
  · intro op _
    have hnodup := hgrouped.nodup op.1 op.2
    rw [← Function.comp_def, ← List.map_map] at hnodup
    exact hnodup.of_map
  · refine (List.nodup_append.mp h.nodup).2.1.imp fun {op op'} hne copy hcopy hcopy' => ?_
    obtain ⟨y, hy, rfl⟩ := List.mem_map.mp hcopy
    obtain ⟨y', hy', heq⟩ := List.mem_map.mp hcopy'
    obtain ⟨-, hcomm, hindex⟩ := mem_group.mp hy
    obtain ⟨-, hcomm', hindex'⟩ := mem_group.mp hy'
    rw [heq] at hcomm' hindex'
    exact hne (Prod.ext (hcomm.symm.trans hcomm') (hindex.symm.trans hindex'))

end Operations

/-- The end of the operation of one copy keeps what holds between events. -/
structure Kept (s s' : WaitState) : Prop where
  counted : ∀ t, Counted s' t
  rests : ∀ t, Rests (s'.thread t)
  view : s'.view = s.view
  queues : s'.queues = s.queues
  closed : s'.closed = s.closed

theorem Rests.of_waiting (h : Rests thread) (hwaiting : 0 < thread.nNonblockGlobWaiting) :
    thread.nNonblockGlobWaiting = 1 ∧ thread.blocked = true ∧ thread.doingStartup = false ∧
      ∃ commId rest, thread.actions = .globalWait commId :: rest := by
  have hin : thread.inWait = true := by
    by_contra hout
    have hzero := h.waiting
    rw [if_neg hout] at hzero
    omega
  have hone := h.waiting
  rw [if_pos hin] at hone
  unfold WaitThread.inWait at hin
  rw [Bool.and_eq_true] at hin
  obtain ⟨hdoing, rest, hrest⟩ := h.blocked hin.1
  refine ⟨hone, hin.1, hdoing, ?_⟩
  rcases hrest with hother | ⟨c, hwait⟩
  · rw [hother] at hin
    cases hin.2
  · exact ⟨c, rest, hwait⟩

theorem Rests.wake (h : Rests thread) (hwaiting : 0 < thread.nNonblockGlobWaiting) (n : Nat) :
    Rests { thread with
      actions := thread.actions.tail
      blocked := false
      nNonblockGlobWaiting := thread.nNonblockGlobWaiting - 1
      nNonblockGlobInFlight := n } := by
  obtain ⟨hone, -, hdoing, -⟩ := h.of_waiting hwaiting
  constructor
  · exact h.startupDone
  · simp
  · simp [hdoing]
  · simp [WaitThread.inWait, hone]

theorem Rests.view_wake (h : Rests thread) (hwaiting : 0 < thread.nNonblockGlobWaiting)
    (n : Nat) : WaitThread.view { thread with
      actions := thread.actions.tail
      blocked := false
      nNonblockGlobWaiting := thread.nNonblockGlobWaiting - 1
      nNonblockGlobInFlight := n } = thread.view := by
  obtain ⟨-, hblocked, hdoing, c, rest, hwait⟩ := h.of_waiting hwaiting
  rw [view_of_ready _ rfl (by exact hdoing), view_of_entered thread]
  simp [WaitThread.entered, hwait, hblocked]

theorem view_setThread_of_eq (h : thread.view = (s.thread t).view) :
    (s.setThread t thread).view = s.view := by
  refine congrArg (withThreads · s.queues) (funext fun t' => ?_)
  by_cases ht : t' = t
  · rw [ht, WaitState.setThread_self, h]
  · rw [WaitState.setThread_of_ne ht]

theorem rests_setThread (h : ∀ t, Rests (s.thread t)) (hthread : Rests thread) (t' : Nat) :
    Rests ((s.setThread t thread).thread t') := by
  by_cases ht : t' = t
  · rwa [ht, WaitState.setThread_self]
  · rw [WaitState.setThread_of_ne ht]
    exact h t'

theorem endCopy_spec (h : ∀ t, Counted s t) (hrests : ∀ t, Rests (s.thread t))
    (hlt : (ofTask copy.task s.ended).length <
      (ofTask copy.task (s.queues.joined.map Prod.fst)).length) :
    Kept s (endCopy s copy) ∧ (endCopy s copy).ended = s.ended ++ [copy] := by
  have hrest := hrests copy.task
  unfold endCopy
  simp only
  split
  · next hwaiting =>
      refine ⟨⟨fun t => ?_, rests_setThread hrests (hrest.wake hwaiting _),
        view_setThread_of_eq (hrest.view_wake hwaiting _), rfl, rfl⟩, rfl⟩
      unfold Counted
      simp only [ofTask_concat]
      by_cases ht : copy.task = t
      · subst ht
        rw [if_pos rfl, WaitState.setThread_self]
        exact (h copy.task).wake hlt hwaiting
      · rw [if_neg ht, List.append_nil, List.append_nil, WaitState.setThread_of_ne (Ne.symm ht)]
        exact h t
  · next hwaiting =>
      refine ⟨⟨fun t => ?_, rests_setThread hrests ?_, view_setThread_of_eq rfl, rfl, rfl⟩, rfl⟩
      · unfold Counted
        simp only [ofTask_concat]
        by_cases ht : copy.task = t
        · subst ht
          rw [if_pos rfl, WaitState.setThread_self]
          exact (h copy.task).keep hlt (Nat.eq_zero_of_not_pos hwaiting)
        · rw [if_neg ht, List.append_nil, WaitState.setThread_of_ne (Ne.symm ht)]
          exact h t
      · exact ⟨hrest.startupDone, hrest.blocked, hrest.starting, hrest.waiting⟩

theorem Kept.trans {s₁ s₂ : WaitState} (h₁ : Kept s s₁) (h₂ : Kept s₁ s₂) : Kept s s₂ where
  counted := h₂.counted
  rests := h₂.rests
  view := h₂.view.trans h₁.view
  queues := h₂.queues.trans h₁.queues
  closed := h₂.closed.trans h₁.closed

theorem foldl_endCopy_spec {copies : List CopyThread} (h : ∀ t, Counted s t)
    (hrests : ∀ t, Rests (s.thread t)) (hnodup : (s.ended ++ copies).Nodup)
    (hjoined : s.ended ++ copies ⊆ s.queues.joined.map Prod.fst) :
    Kept s (copies.foldl endCopy s) ∧ (copies.foldl endCopy s).ended = s.ended ++ copies := by
  induction copies generalizing s with
  | nil => exact ⟨⟨h, hrests, rfl, rfl, rfl⟩, (List.append_nil _).symm⟩
  | cons copy copies ih =>
      rw [List.append_cons] at hnodup hjoined
      -- the copy was made and is not among those that have ended
      have hlt : (ofTask copy.task s.ended).length <
          (ofTask copy.task (s.queues.joined.map Prod.fst)).length := by
        have hfirst : (s.ended ++ [copy]).Nodup := (List.nodup_append.mp hnodup).1
        have hsubset : s.ended ++ [copy] ⊆ s.queues.joined.map Prod.fst :=
          fun x hx => hjoined (List.mem_append_left _ hx)
        have hle := (List.subperm_of_subset (hfirst.filter _)
          (List.filter_subset (fun x => x.task = copy.task) hsubset)).length_le
        calc
          _ < (ofTask copy.task (s.ended ++ [copy])).length := by simp [ofTask_concat]
          _ ≤ _ := hle
      obtain ⟨hkept, hended⟩ := endCopy_spec h hrests hlt
      obtain ⟨hkept', hended'⟩ := ih hkept.counted hkept.rests (by rwa [hended])
        (by rwa [hended, hkept.queues])
      refine ⟨hkept.trans hkept', ?_⟩
      rw [List.foldl_cons, hended', hended, List.append_assoc]
      rfl

/-! ## Runs -/

structure WaitInv (P : WaitPtask) (s : WaitState) : Prop where
  view : GlopInv P.toPtask s.view
  operations : OperationsOk P.toPtask s.closed s.ended s.view
  counted : ∀ t, Counted s t
  rests : ∀ t, Rests (s.thread t)

theorem waitInv_init (P : WaitPtask) : WaitInv P (.init P) where
  view := by
    rw [view_init]
    exact glopInv_init P.toPtask
  operations := by
    rw [view_init]
    constructor <;> simp [GlopState.init, group, WaitState.init]
  counted t := by
    constructor <;> simp [WaitState.init, ofTask, GlopState.init]
  rests t := by
    constructor <;> simp [WaitState.init, WaitThread.inWait]

theorem setThread_view_self : s.view.setThread t (s.thread t).view = s.view := by
  rw [← view_setThread]
  exact view_setThread_of_eq rfl

theorem schTimerOut_view (hrests : Rests (s.thread t)) (hcounted : Counted s t)
    (hblocked : (s.thread t).blocked = false) :
    (schTimerOut P s t).map WaitState.view = some s.view ∨
      (schTimerOut P s t).map WaitState.view = Collectives.schTimerOut P.toPtask s.view t := by
  by_cases hdoing : (s.thread t).doingStartup = true
  · let s₁ := s.setThread t { s.thread t with startupDone := true, doingStartup := false }
    have hthread : s₁.thread t = { s.thread t with startupDone := true, doingStartup := false } :=
      WaitState.setThread_self _
    have hblocked₁ : (s₁.thread t).blocked = false := by rwa [hthread]
    have hdoing₁ : (s₁.thread t).doingStartup = false := by rw [hthread]
    have hdone₁ : (s₁.thread t).nNonblockGlobDone =
        (s₁.thread t).nonblockGlopDoneThreads.length := by
      rw [hthread]
      exact hcounted.done
    have hstep : schTimerOut P s t = nextOp P t (s.thread t).actions s₁ := if_pos hdoing
    rw [hstep]
    obtain ⟨c, rest, hop | hwait⟩ := hrests.starting hdoing
    · right
      have hview := view_eq (s.thread t) (by simp [WaitThread.entered, hop])
      rw [nextOp_view hblocked₁ hdoing₁ hdone₁ (.inr ⟨c, rest, hop⟩), view_setThread]
      rw [view_of_ready _ (by exact hblocked) rfl]
      simp only [Collectives.schTimerOut, view_thread, hview]
      rw [if_pos hdoing]
    · left
      have hview := view_of_entered (s.thread t) (by simp [WaitThread.entered, hwait, hdoing])
      rw [hwait, nextOp, globalWaitOperation_view hblocked₁ hdoing₁ hdone₁, view_setThread, hthread]
      refine congrArg some (Eq.trans ?_ (setThread_view_self (t := t)))
      rw [hview, hwait, hrests.startupDone]
      unfold GlopState.setThread
      simp only [Function.update_idem]
      rfl
  · right
    have hstep : schTimerOut P s t = nextOp P t (s.thread t).actions s := if_neg hdoing
    have hview := view_of_ready _ hblocked (Bool.eq_false_of_not_eq_true hdoing)
    rw [hstep, nextOp_view hblocked (Bool.eq_false_of_not_eq_true hdoing) hcounted.done
      (.inl hrests.startupDone)]
    simp only [Collectives.schTimerOut, view_thread, hview]
    rfl

theorem schTimerOut_eventOk (hrests : Rests (s.thread t)) (hcounted : ∀ t', Counted s t')
    (hblocked : (s.thread t).blocked = false) (hstep : schTimerOut P s t = some s') :
    EventOk t s s' := by
  have hwaiting := hrests.waiting
  rw [WaitThread.inWait, hblocked, Bool.false_and, if_neg Bool.false_ne_true] at hwaiting
  have hcounts := hcounted t
  by_cases hdoing : (s.thread t).doingStartup = true
  · let s₁ := s.setThread t { s.thread t with startupDone := true, doingStartup := false }
    have hthread : s₁.thread t = { s.thread t with startupDone := true, doingStartup := false } :=
      WaitState.setThread_self _
    have hnext : nextOp P t (s.thread t).actions s₁ = some s' := by
      rw [← hstep]
      exact (if_pos hdoing).symm
    have hcounted₁ : ∀ t', Counted s₁ t' := Counted.setThread hcounted hcounts.flags
    have hok := nextOp_spec hcounted₁ (by rwa [hthread]) (by rw [hthread]) (by rwa [hthread])
      (.inr (hrests.starting hdoing)) hnext
    exact ⟨hok.counted, hok.rests,
      fun t' ht => (hok.thread t' ht).trans (WaitState.setThread_of_ne ht _), hok.closed, hok.ended⟩
  · have hnext : nextOp P t (s.thread t).actions s = some s' := by
      rw [← hstep]
      exact (if_neg hdoing).symm
    exact nextOp_spec hcounted hblocked (Bool.eq_false_of_not_eq_true hdoing) hwaiting
      (.inl hrests.startupDone) hnext

theorem WaitInv.timerOut (h : WaitInv P s) (hblocked : (s.thread t).blocked = false) :
    ∃ s', schTimerOut P s t = some s' ∧ WaitInv P s' ∧
      (s'.view = s.view ∨ Collectives.schTimerOut P.toPtask s.view t = some s'.view) := by
  obtain ⟨g, hg, hinv, -⟩ := CollectiveMatching.schTimerOut_spec h.view t
  have hview := schTimerOut_view (P := P) (h.rests t) (h.counted t) hblocked
  cases hstep : schTimerOut P s t with
  | none => simp [hstep, hg] at hview
  | some s' =>
      have hok := schTimerOut_eventOk (h.rests t) h.counted hblocked hstep
      rw [hstep, Option.map_some, Option.some.injEq] at hview
      have hrests : ∀ t', Rests (s'.thread t') := by
        intro t'
        by_cases ht : t' = t
        · exact ht ▸ hok.rests
        · rw [hok.thread t' ht]
          exact h.rests t'
      refine ⟨s', rfl, ?_, hview.imp id Eq.symm⟩
      rcases hview with hsame | hcall
      · refine ⟨hsame ▸ h.view, ?_, hok.counted, hrests⟩
        rw [hsame, hok.closed, hok.ended]
        exact h.operations
      · obtain rfl := Option.some.inj (hcall.trans hg)
        refine ⟨hinv, ?_, hok.counted, hrests⟩
        rw [hok.closed, hok.ended]
        exact h.operations.schTimerOut h.view hg

theorem WaitInv.otherDone (h : WaitInv P s)
    (hstep : waitNext P s (.otherDone t) = some s') : WaitInv P s' ∧ s'.view = s.view := by
  simp only [waitNext] at hstep
  split at hstep
  swap
  · cases hstep
  next hother =>
    obtain rfl := Option.some.inj hstep
    obtain ⟨rest, hrest⟩ := List.head?_eq_some_iff.mp hother.2
    have hrests := h.rests t
    have hdoing := (hrests.blocked hother.1).1
    have hview : (s.setThread t { s.thread t with
        actions := (s.thread t).actions.tail, blocked := false }).view = s.view := by
      apply view_setThread_of_eq
      rw [view_of_ready _ rfl (by exact hdoing), view_of_entered (s.thread t)]
      simp [WaitThread.entered, hrest, hother.1]
    have hcounts := h.counted t
    refine ⟨⟨hview ▸ h.view, hview ▸ h.operations, ?_, ?_⟩, hview⟩
    · exact Counted.setThread h.counted hcounts.flags
    · refine rests_setThread h.rests ⟨hrests.startupDone, by simp, by simp [hdoing], ?_⟩
      have hwaiting := hrests.waiting
      simpa [WaitThread.inWait, hrest] using hwaiting

theorem closeGlobalNonblockCommunication_withThreads (thread : Nat → Thread)
    (queues : GlopState) (commId index : Nat) :
    Collectives.closeGlobalNonblockCommunication P.toPtask (withThreads thread queues)
        commId index =
      (Collectives.closeGlobalNonblockCommunication P.toPtask queues commId index).map
        (withThreads thread) := by
  have hquery : (withThreads thread queues).queryPrioQueue commId index =
      queues.queryPrioQueue commId index := rfl
  unfold Collectives.closeGlobalNonblockCommunication
  rw [hquery]
  cases queues.queryPrioQueue commId index with
  | none => rfl
  | some q =>
      simp only [Option.bind_eq_bind, Option.bind_some]
      rw [apply_ite (Option.map (withThreads thread))]
      rfl

theorem WaitInv.close (h : WaitInv P s) (hflight : (commId, index) ∈ s.queues.inFlight) :
    ∃ s', closeGlobalNonblockCommunication P s commId index = some s' ∧ WaitInv P s' ∧
      glopNext P.toPtask s.view (.close commId index) = some s'.view := by
  obtain ⟨q, hquery, hthreads, hclose, hops⟩ := h.operations.close h.view.grouped hflight
  have hgrouped := h.view.grouped.close hflight hclose
  have hstep : glopNext P.toPtask s.view (.close commId index) =
      some (closedQueues s.view commId index q) := (if_pos hflight).trans hclose
  have hinv := glopInv_step h.view hstep
  obtain ⟨queues, hqueues, heq⟩ := Option.map_eq_some_iff.mp
    ((closeGlobalNonblockCommunication_withThreads ..).symm.trans hclose)
  let s₁ : WaitState := { s with queues := queues, closed := s.closed ++ [(commId, index)] }
  have hview₁ : s₁.view = closedQueues s.view commId index q := heq
  have hjoined : s₁.queues.joined = s.queues.joined := by
    have hsame := congrArg GlopState.joined hview₁
    exact hsame
  have hcounted₁ : ∀ t, Counted s₁ t := by
    intro t
    unfold Counted
    rw [hjoined]
    exact h.counted t
  have hsubset : s₁.ended ++ (group s.view commId index).map Prod.fst ⊆
      s₁.queues.joined.map Prod.fst := by
    intro copy hcopy
    rw [hjoined]
    exact ((mem_ended hops).mp hcopy).2
  obtain ⟨hkept, hended⟩ := foldl_endCopy_spec hcounted₁ h.rests (hops.nodup_ended hgrouped)
    hsubset
  refine ⟨_, ?_, ⟨?_, ?_, hkept.counted, hkept.rests⟩, ?_⟩
  · have hquery' : s.queues.queryPrioQueue commId index = some q := hquery
    have hthreads' : s.queues.threadsQueue q = (group s.view commId index).map Prod.fst :=
      hthreads
    unfold closeGlobalNonblockCommunication
    rw [hquery', hqueues, Option.bind_eq_bind, Option.bind_some, Option.bind_eq_bind,
      Option.bind_some, hthreads']
  · rw [hkept.view, hview₁]
    exact hinv
  · rw [hkept.view, hview₁, hkept.closed, hended]
    exact hops
  · rw [hkept.view, hview₁]
    exact hstep

theorem waitInv_step {l : WaitLabel} (h : WaitInv P s) (hstep : waitNext P s l = some s') :
    WaitInv P s' ∧ (s'.view = s.view ∨ ∃ l', glopNext P.toPtask s.view l' = some s'.view) := by
  cases l with
  | timerOut t =>
      cases hblocked : (s.thread t).blocked with
      | true => simp [waitNext, hblocked] at hstep
      | false =>
          obtain ⟨s₁, hs₁, hinv, hview⟩ := h.timerOut hblocked
          simp only [waitNext, hblocked] at hstep
          obtain rfl := Option.some.inj (hs₁.symm.trans hstep)
          exact ⟨hinv, hview.imp id fun hcall => ⟨.timerOut t, hcall⟩⟩
  | otherDone t =>
      obtain ⟨hinv, hview⟩ := h.otherDone hstep
      exact ⟨hinv, .inl hview⟩
  | close commId index =>
      simp only [waitNext] at hstep
      split at hstep
      · next hflight =>
          obtain ⟨s₁, hs₁, hinv, hview⟩ := h.close (List.contains_iff_mem.mp hflight)
          obtain rfl := Option.some.inj (hs₁.symm.trans hstep)
          exact ⟨hinv, .inr ⟨_, hview⟩⟩
      · cases hstep

theorem waitInv_run {tr : List (Transition WaitState WaitLabel)}
    (hrun : Run (ofPartial (waitNext P)) (.init P) tr s) : WaitInv P s :=
  hrun.invariant (waitInv_init P) fun _ _ _ h hstep => (waitInv_step h hstep).1

theorem view_run {tr : List (Transition WaitState WaitLabel)}
    (hrun : Run (ofPartial (waitNext P)) (.init P) tr s) :
    ∃ tr', Run (ofPartial (glopNext P.toPtask)) (.init P.toPtask) tr' s.view := by
  have hsim : ∃ tr', Run (ofPartial (glopNext P.toPtask)) (WaitState.init P).view tr' s.view :=
    hrun.simulated (waitInv_init P) (fun _ _ _ h hstep => (waitInv_step h hstep).1)
      fun _ _ _ h hstep => (waitInv_step h hstep).2
  rwa [view_init] at hsim

theorem WaitInv.perm_communicator (h : WaitInv P s) (hclosed : (commId, index) ∈ s.closed) :
    ((s.ended.filter fun copy => copy.commId = commId ∧ copy.nbGlobIndex = index).map
      CopyThread.task).Perm (P.communicator commId) := by
  have hended := h.operations.nodup_ended h.view.grouped
  have htasks := h.view.grouped.nodup commId index
  rw [← Function.comp_def, ← List.map_map] at htasks
  have hgroup : (s.ended.filter fun copy => copy.commId = commId ∧ copy.nbGlobIndex = index).Perm
      ((group s.view commId index).map Prod.fst) := by
    rw [List.perm_ext_iff_of_nodup (hended.filter _) htasks.of_map]
    intro copy
    rw [List.mem_filter, mem_ended h.operations, decide_eq_true_iff, List.mem_map, List.mem_map]
    constructor
    · rintro ⟨⟨-, y, hy, rfl⟩, hcopy⟩
      exact ⟨y, mem_group.mpr ⟨hy, hcopy⟩, rfl⟩
    · rintro ⟨y, hy, rfl⟩
      obtain ⟨hjoined, hcomm, hindex⟩ := mem_group.mp hy
      rw [hcomm, hindex]
      exact ⟨⟨hclosed, y, hjoined, rfl⟩, rfl, rfl⟩
  have hfull := ((h.operations.complete commId index).mp (List.mem_append_right _ hclosed)).2
  have hperm := hgroup.map CopyThread.task
  rw [List.map_map] at hperm
  exact hperm.trans (h.view.grouped.perm_communicator hfull)

theorem WaitInv.lt_waits (h : WaitInv P s) (hwait : (s.thread t).inWait = true)
    (hflight : (s.thread t).nNonblockGlobInFlight = 0) :
    (ofTask t (s.queues.joined.map Prod.fst)).length < (s.thread t).waits := by
  have hone := (h.rests t).waiting
  rw [if_pos hwait] at hone
  have hcounts := h.counted t
  have htaken := hcounts.eq_of_waiting (by omega)
  have hsum := hcounts.inFlight
  have hwaits := hcounts.waits
  rw [htaken] at hwaits
  omega

/-- In every interleaving, the waits of a thread take the copies of its operations in the order in
which these end, each of them once. A wait only blocks while no copy is kept for the thread, and
for good only if the thread waits more often than it issues operations, or an operation of it does
not end. Each operation ends with one copy of each task of its communicator, and without the waits
the run is one of the operations alone. -/
theorem nonblock_waits_served {tr : List (Transition WaitState WaitLabel)}
    (hrun : Run (ofPartial (waitNext P)) (.init P) tr s) :
    (∃ tr', Run (ofPartial (glopNext P.toPtask)) (.init P.toPtask) tr' s.view) ∧
    (∀ t, (s.thread t).blocked = false → (waitNext P s (.timerOut t)).isSome) ∧
    (∀ commId index, (commId, index) ∈ s.queues.inFlight →
      (waitNext P s (.close commId index)).isSome) ∧
    s.ended.Nodup ∧
    (∀ commId index, (commId, index) ∈ s.closed →
      ((s.ended.filter fun copy => copy.commId = commId ∧ copy.nbGlobIndex = index).map
        CopyThread.task).Perm (P.communicator commId)) ∧
    ∀ t, Counted s t ∧
      (s.thread t).nNonblockGlobWaiting = (if (s.thread t).inWait then 1 else 0) ∧
      ((s.thread t).inWait = true → (s.thread t).nNonblockGlobInFlight = 0 →
        (ofTask t (s.queues.joined.map Prod.fst)).length < (s.thread t).waits) := by
  have h := waitInv_run hrun
  refine ⟨view_run hrun, fun t hblocked => ?_, fun commId index hflight => ?_,
    h.operations.nodup_ended h.view.grouped, fun _ _ hclosed => h.perm_communicator hclosed,
    fun t => ⟨h.counted t, (h.rests t).waiting, h.lt_waits⟩⟩
  · obtain ⟨s', hs', -⟩ := h.timerOut hblocked
    simp [waitNext, hblocked, hs']
  · obtain ⟨s', hs', -⟩ := h.close hflight
    simp [waitNext, hflight, hs']

/-- Two tasks issue an operation, the second one works before it waits. -/
def overlapping : WaitPtask where
  communicator
    | 0 => [0, 1]
    | _ => []
  startup _ _ := 0
  actions
    | 0 => [.globalOp 0, .other]
    | 1 => [.globalOp 0, .other, .other]
    | _ => []
  nodup
    | 0 => by decide
    | _ + 1 => .nil
  valid
    | 0, c, h => by
        simp only [List.mem_cons, Action.globalOp.injEq, List.not_mem_nil, reduceCtorEq,
          or_false] at h
        simp [h]
    | 1, c, h => by
        simp only [List.mem_cons, Action.globalOp.injEq, List.not_mem_nil, reduceCtorEq,
          or_false] at h
        simp [h]
    | _ + 2, _, h => by cases h
  waitActions
    | 0 => [.globalOp 0, .globalWait 0]
    | 1 => [.globalOp 0, .other, .globalWait 0]
    | _ => []
  actions_eq
    | 0 => rfl
    | 1 => rfl
    | _ + 2 => rfl

/-- The wait of task 0 blocks before the operation ends, task 1 waits behind it. -/
def overlappingRun : List WaitLabel :=
  [.timerOut 0, .timerOut 1, .close 0 0, .otherDone 1, .timerOut 1]

theorem nonblock_waits_served_overlapping :
    ∃ tr s, Run (ofPartial (waitNext overlapping)) (.init overlapping) tr s ∧
      s.deleted = [⟨0, 0, 0, 0⟩, ⟨1, 0, 0, 0⟩] ∧
      (∀ t, (s.thread t).blocked = false → (waitNext overlapping s (.timerOut t)).isSome) ∧
      s.ended.Nodup ∧
      ∀ t, Counted s t := by
  have hsome : (exec (waitNext overlapping) (.init overlapping) overlappingRun).isSome := by rfl
  have hrun := run_exec_get hsome
  obtain ⟨-, htimer, -, hnodup, -, hthreads⟩ := nonblock_waits_served hrun
  exact ⟨_, _, hrun, rfl, htimer, hnodup, fun t => (hthreads t).1⟩

end Dimemas.Model.CollectiveWaits
