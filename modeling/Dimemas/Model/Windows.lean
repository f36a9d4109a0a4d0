import Mathlib.Logic.Function.Basic
import Mathlib.Data.List.Count
import Mathlib.Data.List.GetD
import Mathlib.Data.List.Nodup
/-!
# One-sided operations

The windows of the one-sided operations (`memory.c`), with locks, transfers and unlocks. Fences and
the operations of post mode are not among the actions here.
-/

namespace Dimemas.Model.Windows

abbrev ThreadId := Nat

abbrev TaskId := Nat

abbrev WindowId := Nat

inductive LockMode
  | shared | exclusive
deriving DecidableEq

inductive WindowMode
  | none | fence | lock | post
deriving DecidableEq

/-- The actions of a thread. The target of a lock is the task of its rank. -/
inductive Action
  | work
  | lock (window : WindowId) (mode : LockMode) (target : TaskId)
  | unlock (window : WindowId)
  | getput (window : WindowId)
deriving DecidableEq

structure Window where
  mode : WindowMode
  taskWithLock : Option TaskId
  lockMode : LockMode
  threadsWithLock : List ThreadId
  threadsWaitingLock : List ThreadId
  threadsWaitingUnlock : List ThreadId
  lockOperations : List ThreadId
  fenceOperations : List ThreadId
  postOperations : List ThreadId

def Window.initial : Window := ⟨.none, none, .shared, [], [], [], [], [], []⟩

/-- A transfer that has not completed, with the thread that its copy was made of. -/
structure Transfer where
  thread : ThreadId
  window : WindowId
deriving DecidableEq

/-- `ready` has the threads that have been given to the scheduler. -/
structure State where
  windows : WindowId → Window
  actions : ThreadId → List Action
  doingStartup : ThreadId → Bool
  startupDone : ThreadId → Bool
  ready : List ThreadId
  inFlight : List Transfer

def State.initial (programs : List (List Action)) : State where
  windows _ := .initial
  actions t := programs.getD t []
  doingStartup _ := false
  startupDone _ := false
  ready := (List.range programs.length).filter fun t => programs.getD t [] ≠ []
  inFlight := []

namespace State

def setWindow (s : State) (w : WindowId) (window : Window) : State :=
  { s with windows := Function.update s.windows w window }

/-- The action of a thread is freed. The thread is made ready if it has more. -/
def advance (s : State) (t : ThreadId) : State :=
  { s with
    actions := Function.update s.actions t (s.actions t).tail
    ready := if (s.actions t).tail = [] then s.ready else s.ready ++ [t] }

end State

/-- `extract_from_queue`. It panics if the thread is not in the queue. -/
def extract (queue : List ThreadId) (t : ThreadId) : Option (List ThreadId) :=
  if t ∈ queue then some (queue.erase t) else none

def osLock (s : State) (t : ThreadId) (w : WindowId) (mode : LockMode) (target : TaskId) : State :=
  let win := s.windows w
  if win.taskWithLock = none ∨
      win.taskWithLock = some target ∧ mode = .shared ∧ win.lockMode = .shared then
    (s.setWindow w { win with
      taskWithLock := some target
      lockMode := mode
      threadsWithLock := win.threadsWithLock ++ [t] }).advance t
  else s.setWindow w { win with threadsWaitingLock := win.threadsWaitingLock ++ [t] }

/-- The threads that waited for a lock do their actions again. Nothing is known where the action of
one of them is none. -/
def relock : State → List ThreadId → Option State
  | s, [] => some s
  | s, t :: ts =>
      match s.actions t with
      | .lock w mode target :: _ => relock (osLock s t w mode target) ts
      | _ => none

section

variable (task : ThreadId → TaskId)

def ofTask (queue : List ThreadId) (t : ThreadId) : Bool := queue.any fun u => task u == task t

/-- The part of `os_unlock` without operations of the task. -/
def release (s : State) (t : ThreadId) (w : WindowId) : Option State :=
  let win := s.windows w
  (extract win.threadsWithLock t).bind fun threadsWithLock =>
    let s := s.advance t
    if threadsWithLock = [] then
      if win.threadsWaitingLock = [] then
        some (s.setWindow w { win with
          threadsWithLock := threadsWithLock, taskWithLock := none, mode := .none })
      else
        relock (s.setWindow w { win with
          threadsWithLock := threadsWithLock, taskWithLock := none, threadsWaitingLock := [] })
          win.threadsWaitingLock
    else
      some (s.setWindow w { win with threadsWithLock := threadsWithLock, mode := .none })

def osUnlock (s : State) (t : ThreadId) (w : WindowId) : Option State :=
  let win := s.windows w
  if ofTask task win.lockOperations t then
    some (s.setWindow w { win with threadsWaitingUnlock := win.threadsWaitingUnlock ++ [t] })
  else release s t w

def register (s : State) (t : ThreadId) (w : WindowId) : State :=
  let win := s.windows w
  match win.mode with
  | .fence => s.setWindow w { win with fenceOperations := win.fenceOperations ++ [t] }
  | .lock => s.setWindow w { win with lockOperations := win.lockOperations ++ [t] }
  | .post => s.setWindow w { win with postOperations := win.postOperations ++ [t] }
  | .none => s

def transfer (s : State) (t : ThreadId) (w : WindowId) : State :=
  { s with
    startupDone := Function.update s.startupDone t false
    inFlight := s.inFlight ++ [Transfer.mk t w] }.advance t

def startUp (s : State) (t : ThreadId) : State :=
  { s with
    actions := Function.update s.actions t (.work :: s.actions t)
    doingStartup := Function.update s.doingStartup t true
    ready := s.ready ++ [t] }

/-- `os_getput`. Whether there is a startup depends on the latencies of the nodes. -/
def osGetput (s : State) (t : ThreadId) (w : WindowId) (startup : Bool) : State :=
  if s.startupDone t then transfer s t w
  else if startup then startUp (register s t w) t
  else transfer (register s t w) t w

def modeOf : Action → WindowMode
  | .work => .none
  | .lock .. | .unlock _ => .lock
  | .getput _ => .fence

def enter (s : State) (w : WindowId) (action : Action) : State :=
  if (s.windows w).mode = .none then
    s.setWindow w { s.windows w with mode := modeOf action }
  else s

/-- `ONE_SIDED_operation` for an action on a window. -/
def oneSidedOperation (s : State) (t : ThreadId) (startup : Bool) : Action → Option State
  | .work => none
  | .getput w =>
      let s := enter s w (.getput w)
      if (s.windows w).mode = .none then none else some (osGetput s t w startup)
  | .lock w mode target =>
      let s := enter s w (.lock w mode target)
      if (s.windows w).mode = .lock then some (osLock s t w mode target) else none
  | .unlock w =>
      let s := enter s w (.unlock w)
      if (s.windows w).mode = .lock then osUnlock task s t w else none

/-- `os_completed`. No task has done a fence, so that `os_fence` is not called in fence mode, and no
thread waits for a transfer in post mode. -/
def osCompleted (s : State) (t : ThreadId) (w : WindowId) : Option State :=
  let win := s.windows w
  match win.mode with
  | .none => some s
  | .fence => (extract win.fenceOperations t).map fun fenceOperations =>
      s.setWindow w { win with fenceOperations := fenceOperations }
  | .post => (extract win.postOperations t).map fun postOperations =>
      s.setWindow w { win with postOperations := postOperations }
  | .lock => (extract win.lockOperations t).bind fun lockOperations =>
      let s := s.setWindow w { win with lockOperations := lockOperations }
      match win.threadsWaitingUnlock.find? fun u => task u == task t with
      | some u => osUnlock task s u w
      | none => some s

/-- The scheduler runs the action of a ready thread, or a transfer completes. -/
inductive Label
  | dispatch (t : ThreadId) (startup : Bool)
  | completed (t : ThreadId) (w : WindowId)

def work (s : State) (t : ThreadId) : State :=
  let s :=
    if s.doingStartup t then
      { s with
        doingStartup := Function.update s.doingStartup t false
        startupDone := Function.update s.startupDone t true }
    else s
  s.advance t

def step (s : State) : Label → Option State
  | .dispatch t startup =>
      let s := { s with ready := s.ready.erase t }
      match s.actions t with
      | [] => some s
      | .work :: _ => some (work s t)
      | action :: _ => oneSidedOperation task s t startup action
  | .completed t w => osCompleted task { s with inFlight := s.inFlight.erase (Transfer.mk t w) } t w

/-- What the scheduler and the network can do. -/
def Enabled (s : State) : Label → Prop
  | .dispatch t _ => t ∈ s.ready
  | .completed t w => Transfer.mk t w ∈ s.inFlight

instance (s : State) : (l : Label) → Decidable (Enabled s l)
  | .dispatch t _ => inferInstanceAs (Decidable (t ∈ s.ready))
  | .completed t w => inferInstanceAs (Decidable (Transfer.mk t w ∈ s.inFlight))

/-! ## Threads that wait -/

def LocksNext (actions : List Action) (w : WindowId) : Prop :=
  ∃ mode target rest, actions = .lock w mode target :: rest

def UnlocksNext (actions : List Action) (w : WindowId) : Prop :=
  ∃ rest, actions = .unlock w :: rest

/-- Neither fence nor post mode is used, and a window is locked while a thread holds it. Its lock is
exclusive or several threads share it, and only they have operations. -/
structure WindowInv (win : Window) : Prop where
  mode : win.mode = .none ∨ win.mode = .lock
  held : win.threadsWithLock ≠ [] → win.mode = .lock
  free : win.taskWithLock = none ↔ win.threadsWithLock = []
  shared : win.threadsWithLock.length ≤ 1 ∨ win.lockMode = .shared
  waiting : win.threadsWaitingLock ≠ [] → win.threadsWithLock ≠ []
  operations : ∀ t ∈ win.lockOperations, t ∈ win.threadsWithLock

/-- Each thread with actions is ready, in the hands of the current operation, or waits in one queue
of the window of its action. -/
structure Scheduled (s : State) (loose : List ThreadId) : Prop where
  window : ∀ w, WindowInv (s.windows w)
  readyNodup : s.ready.Nodup
  readyActions : ∀ t ∈ s.ready, s.actions t ≠ []
  looseNodup : loose.Nodup
  looseActions : ∀ t ∈ loose, t ∉ s.ready ∧ s.actions t ≠ []
  waitingNodup : ∀ w, (s.windows w).threadsWaitingLock.Nodup
  waitingLock : ∀ w, ∀ t ∈ (s.windows w).threadsWaitingLock,
    t ∉ s.ready ∧ t ∉ loose ∧ LocksNext (s.actions t) w
  blocked : ∀ t, t ∉ s.ready → t ∉ loose → s.actions t ≠ [] →
    (∃ w, LocksNext (s.actions t) w ∧ t ∈ (s.windows w).threadsWaitingLock) ∨
      ∃ w, UnlocksNext (s.actions t) w ∧ t ∈ (s.windows w).threadsWaitingUnlock ∧
        ofTask task (s.windows w).lockOperations t = true

def transferNext : List Action → Option WindowId
  | .getput w :: _ => some w
  | .work :: .getput w :: _ => some w
  | _ => none

/-- Whether a thread is in the startup of a transfer on a window. -/
def starting (s : State) (t : ThreadId) (w : WindowId) : Nat :=
  if (s.doingStartup t = true ∨ s.startupDone t = true) ∧
      transferNext (s.actions t) = some w then 1 else 0

/-- The operations of a window are the transfers that have not completed or that are in their
startup. -/
structure Transfers (s : State) : Prop where
  count : ∀ t w, (s.windows w).lockOperations.count t =
    s.inFlight.count (Transfer.mk t w) + starting s t w
  startup : ∀ t, s.doingStartup t = true →
    s.startupDone t = false ∧ ∃ w rest, s.actions t = .work :: .getput w :: rest
  done : ∀ t, s.startupDone t = true → ∃ w rest, s.actions t = .getput w :: rest

/-- A thread with a number of locks on each window unlocks only what it has locked. -/
def UnlocksOwn : (WindowId → Nat) → List Action → Prop
  | _, [] => True
  | held, .lock w _ _ :: actions => UnlocksOwn (Function.update held w (held w + 1)) actions
  | held, .unlock w :: actions =>
      0 < held w ∧ UnlocksOwn (Function.update held w (held w - 1)) actions
  | held, _ :: actions => UnlocksOwn held actions

def heldBy (s : State) (t : ThreadId) (w : WindowId) : Nat :=
  (s.windows w).threadsWithLock.count t

structure Inv (s : State) (loose : List ThreadId) : Prop where
  scheduled : Scheduled task s loose
  transfers : Transfers s
  programs : ∀ t, UnlocksOwn (heldBy s t) (s.actions t)

variable {task}

theorem locksNext_window {actions : List Action} {w w' : WindowId} (h : LocksNext actions w)
    (h' : LocksNext actions w') : w = w' := by
  obtain ⟨mode, target, rest, hactions⟩ := h
  obtain ⟨mode', target', rest', hactions'⟩ := h'
  rw [hactions] at hactions'
  exact (Action.lock.inj (List.cons.inj hactions').1).1

theorem unlocksNext_window {actions : List Action} {w w' : WindowId} (h : UnlocksNext actions w)
    (h' : UnlocksNext actions w') : w = w' := by
  obtain ⟨rest, hactions⟩ := h
  obtain ⟨rest', hactions'⟩ := h'
  rw [hactions] at hactions'
  exact Action.unlock.inj (List.cons.inj hactions').1

theorem Scheduled.dispatch {s : State} (h : Scheduled task s []) {t : ThreadId}
    (ht : t ∈ s.ready) : Scheduled task { s with ready := s.ready.erase t } [t] := by
  have hmem (u : ThreadId) : u ∈ s.ready.erase t ↔ u ≠ t ∧ u ∈ s.ready :=
    h.readyNodup.mem_erase_iff
  refine ⟨h.window, h.readyNodup.erase t, fun u hu => h.readyActions u ((hmem u).mp hu).2,
    List.nodup_singleton t, ?_, h.waitingNodup, ?_, ?_⟩
  · intro u hu
    rw [List.mem_singleton.mp hu]
    exact ⟨fun hin => ((hmem t).mp hin).1 rfl, h.readyActions t ht⟩
  · intro w u hu
    obtain ⟨hready, -, hnext⟩ := h.waitingLock w u hu
    refine ⟨fun hin => hready ((hmem u).mp hin).2, fun hin => ?_, hnext⟩
    rw [List.mem_singleton.mp hin] at hready
    exact hready ht
  · intro u hready hloose
    apply h.blocked u _ List.not_mem_nil
    exact fun hin => hready ((hmem u).mpr ⟨fun heq => hloose (List.mem_singleton.mpr heq), hin⟩)

theorem advance_self (s : State) (t : ThreadId) :
    (s.advance t).actions t = (s.actions t).tail := Function.update_self _ _ _

theorem advance_of_ne (s : State) {t u : ThreadId} (h : u ≠ t) :
    (s.advance t).actions u = s.actions u := Function.update_of_ne h _ _

/-- A thread that is in the hands of an operation is made ready if it has actions. -/
theorem Scheduled.goOn {s s' : State} {t : ThreadId} {loose : List ThreadId}
    (h : Scheduled task s (t :: loose)) (hwindows : s'.windows = s.windows)
    (hactions : ∀ u ≠ t, s'.actions u = s.actions u)
    (hready' : s'.ready = if s'.actions t = [] then s.ready else s.ready ++ [t]) :
    Scheduled task s' loose := by
  have hloose := List.nodup_cons.mp h.looseNodup
  have hready : t ∉ s.ready := (h.looseActions t List.mem_cons_self).1
  have hmem (u : ThreadId) (hu : u ≠ t) : u ∈ s'.ready ↔ u ∈ s.ready := by
    rw [hready']
    split
    · rfl
    · simp [hu]
  refine ⟨hwindows ▸ h.window, ?_, ?_, hloose.2, ?_, hwindows ▸ h.waitingNodup, ?_, ?_⟩
  · rw [hready']
    split
    · exact h.readyNodup
    · exact List.nodup_append_comm.mp
        (List.nodup_cons.mpr ⟨hready, h.readyNodup⟩ : (t :: s.ready).Nodup)
  · intro u hu
    by_cases heq : u = t
    · rw [heq] at hu ⊢
      intro hnil
      rw [hready', if_pos hnil] at hu
      exact hready hu
    · rw [hactions u heq]
      exact h.readyActions u ((hmem u heq).mp hu)
  · intro u hu
    have hne : u ≠ t := fun heq => hloose.1 (heq ▸ hu)
    rw [hmem u hne, hactions u hne]
    exact h.looseActions u (List.mem_cons_of_mem t hu)
  · intro w u hu
    rw [hwindows] at hu
    obtain ⟨huready, huloose, hnext⟩ := h.waitingLock w u hu
    have hne : u ≠ t := fun heq => huloose (heq ▸ List.mem_cons_self)
    rw [hmem u hne, hactions u hne]
    exact ⟨huready, fun hin => huloose (List.mem_cons_of_mem t hin), hnext⟩
  · intro u huready huloose hunil
    have hne : u ≠ t := by
      intro heq
      rw [heq] at huready hunil
      rw [hready', if_neg hunil] at huready
      exact huready (List.mem_append_right _ (List.mem_singleton.mpr rfl))
    rw [hmem u hne] at huready
    rw [hactions u hne] at hunil ⊢
    rw [hwindows]
    exact h.blocked u huready (fun hin => (List.mem_cons.mp hin).elim hne huloose) hunil

theorem Scheduled.advance {s : State} {t : ThreadId} {loose : List ThreadId}
    (h : Scheduled task s (t :: loose)) : Scheduled task (s.advance t) loose := by
  refine h.goOn rfl (fun u hu => advance_of_ne s hu) ?_
  rw [advance_self]
  rfl

@[simp] theorem setWindow_self (s : State) (w : WindowId) (win : Window) :
    (s.setWindow w win).windows w = win := Function.update_self _ _ _

theorem setWindow_of_ne (s : State) {w w' : WindowId} (win : Window) (h : w' ≠ w) :
    (s.setWindow w win).windows w' = s.windows w' := Function.update_of_ne h _ _

theorem forall_setWindow (P : WindowId → Window → Prop) {s : State} {w : WindowId} {win : Window}
    (hself : P w win) (hother : ∀ w' ≠ w, P w' (s.windows w')) (w' : WindowId) :
    P w' ((s.setWindow w win).windows w') := by
  by_cases heq : w' = w
  · rw [heq, setWindow_self]
    exact hself
  · rw [setWindow_of_ne s win heq]
    exact hother w' heq

theorem Scheduled.setWindow {s : State} {loose : List ThreadId} (h : Scheduled task s loose)
    {w : WindowId} {win : Window} (hwin : WindowInv win)
    (hwaiting : win.threadsWaitingLock = (s.windows w).threadsWaitingLock)
    (hunlock : ∀ t ∈ (s.windows w).threadsWaitingUnlock, t ∈ win.threadsWaitingUnlock)
    (hoperations : ∀ t, t ∉ s.ready → t ∉ loose → UnlocksNext (s.actions t) w →
      ofTask task (s.windows w).lockOperations t = true →
      ofTask task win.lockOperations t = true) :
    Scheduled task (s.setWindow w win) loose := by
  have hwindow : ∀ w', WindowInv ((s.setWindow w win).windows w') :=
    forall_setWindow (fun _ => WindowInv) hwin fun w' _ => h.window w'
  have hnodup : ∀ w', ((s.setWindow w win).windows w').threadsWaitingLock.Nodup :=
    forall_setWindow (fun _ win => win.threadsWaitingLock.Nodup) (hwaiting ▸ h.waitingNodup w)
      fun w' _ => h.waitingNodup w'
  have hqueued : ∀ w', ∀ t ∈ ((s.setWindow w win).windows w').threadsWaitingLock,
      t ∉ s.ready ∧ t ∉ loose ∧ LocksNext (s.actions t) w' :=
    forall_setWindow (fun w' win => ∀ t ∈ win.threadsWaitingLock,
        t ∉ s.ready ∧ t ∉ loose ∧ LocksNext (s.actions t) w')
      (hwaiting ▸ h.waitingLock w) fun w' _ => h.waitingLock w'
  refine ⟨hwindow, h.readyNodup, h.readyActions, h.looseNodup, h.looseActions, hnodup, hqueued, ?_⟩
  · intro t hready hloose hnil
    have hlock : ∀ w', t ∈ (s.windows w').threadsWaitingLock →
        t ∈ ((s.setWindow w win).windows w').threadsWaitingLock :=
      forall_setWindow
        (fun w' win => t ∈ (s.windows w').threadsWaitingLock → t ∈ win.threadsWaitingLock)
        (fun hin => hwaiting ▸ hin) fun _ _ hin => hin
    have hunlock' : ∀ w', UnlocksNext (s.actions t) w' → t ∈ (s.windows w').threadsWaitingUnlock →
        ofTask task (s.windows w').lockOperations t = true →
        t ∈ ((s.setWindow w win).windows w').threadsWaitingUnlock ∧
          ofTask task ((s.setWindow w win).windows w').lockOperations t = true :=
      forall_setWindow
        (fun w' win => UnlocksNext (s.actions t) w' → t ∈ (s.windows w').threadsWaitingUnlock →
          ofTask task (s.windows w').lockOperations t = true →
          t ∈ win.threadsWaitingUnlock ∧ ofTask task win.lockOperations t = true)
        (fun hnext hin hops => ⟨hunlock t hin, hoperations t hready hloose hnext hops⟩)
        fun _ _ _ hin hops => ⟨hin, hops⟩
    rcases h.blocked t hready hloose hnil with ⟨w', hnext, hin⟩ | ⟨w', hnext, hin, hops⟩
    · exact Or.inl ⟨w', hnext, hlock w' hin⟩
    · exact Or.inr ⟨w', hnext, hunlock' w' hnext hin hops⟩

theorem Scheduled.waitLock {s : State} {t : ThreadId} {loose : List ThreadId} {w : WindowId}
    (h : Scheduled task s (t :: loose)) (hnext : LocksNext (s.actions t) w)
    (hheld : (s.windows w).threadsWithLock ≠ []) :
    Scheduled task (s.setWindow w { s.windows w with
      threadsWaitingLock := (s.windows w).threadsWaitingLock ++ [t] }) loose := by
  have hloose := List.nodup_cons.mp h.looseNodup
  have hready : t ∉ s.ready := (h.looseActions t List.mem_cons_self).1
  have hout : t ∉ (s.windows w).threadsWaitingLock :=
    fun hin => (h.waitingLock w t hin).2.1 List.mem_cons_self
  have hold := h.window w
  have hwaiting (w' : WindowId) (u : ThreadId) (hu : u ∈ (s.windows w').threadsWaitingLock) :
      u ∉ s.ready ∧ u ∉ loose ∧ LocksNext (s.actions u) w' := by
    obtain ⟨huready, huloose, hunext⟩ := h.waitingLock w' u hu
    exact ⟨huready, fun hin => huloose (List.mem_cons_of_mem t hin), hunext⟩
  have hnew (u : ThreadId) (hu : u ∈ (s.windows w).threadsWaitingLock ++ [t]) :
      u ∉ s.ready ∧ u ∉ loose ∧ LocksNext (s.actions u) w := by
    rcases List.mem_append.mp hu with hqueued | hsame
    · exact hwaiting w u hqueued
    · rw [List.mem_singleton.mp hsame]
      exact ⟨hready, hloose.1, hnext⟩
  set win := { s.windows w with threadsWaitingLock := (s.windows w).threadsWaitingLock ++ [t] }
  have hwindow : ∀ w', WindowInv ((s.setWindow w win).windows w') :=
    forall_setWindow (fun _ => WindowInv)
      ⟨hold.mode, hold.held, hold.free, hold.shared, fun _ => hheld, hold.operations⟩
      fun w' _ => h.window w'
  have hnodup : ∀ w', ((s.setWindow w win).windows w').threadsWaitingLock.Nodup :=
    forall_setWindow (fun _ win => win.threadsWaitingLock.Nodup)
      (List.nodup_append_comm.mp
        (List.nodup_cons.mpr ⟨hout, h.waitingNodup w⟩ :
          (t :: (s.windows w).threadsWaitingLock).Nodup))
      fun w' _ => h.waitingNodup w'
  have hqueued : ∀ w', ∀ u ∈ ((s.setWindow w win).windows w').threadsWaitingLock,
      u ∉ s.ready ∧ u ∉ loose ∧ LocksNext (s.actions u) w' :=
    forall_setWindow (fun w' win => ∀ u ∈ win.threadsWaitingLock,
      u ∉ s.ready ∧ u ∉ loose ∧ LocksNext (s.actions u) w') hnew fun w' _ => hwaiting w'
  refine ⟨hwindow, h.readyNodup, h.readyActions, hloose.2,
    fun u hu => h.looseActions u (List.mem_cons_of_mem t hu), hnodup, hqueued, ?_⟩
  · intro u huready huloose hunil
    by_cases htu : u = t
    · refine Or.inl ⟨w, htu ▸ hnext, ?_⟩
      rw [setWindow_self, htu]
      exact List.mem_append_right _ (List.mem_singleton.mpr rfl)
    · have hnot : u ∉ t :: loose := fun hin => (List.mem_cons.mp hin).elim htu huloose
      rcases h.blocked u huready hnot hunil with ⟨w', hunext, hin⟩ | ⟨w', hunext, hin⟩
      · have hlock : ∀ w', u ∈ (s.windows w').threadsWaitingLock →
            u ∈ ((s.setWindow w win).windows w').threadsWaitingLock :=
          forall_setWindow
            (fun w' win' => u ∈ (s.windows w').threadsWaitingLock → u ∈ win'.threadsWaitingLock)
            (fun hin => List.mem_append_left [t] hin) fun _ _ hin => hin
        exact Or.inl ⟨w', hunext, hlock w' hin⟩
      · have hunlock : ∀ w', (u ∈ (s.windows w').threadsWaitingUnlock ∧
              ofTask task (s.windows w').lockOperations u = true) →
            u ∈ ((s.setWindow w win).windows w').threadsWaitingUnlock ∧
              ofTask task ((s.setWindow w win).windows w').lockOperations u = true :=
          forall_setWindow
            (fun w' win' => (u ∈ (s.windows w').threadsWaitingUnlock ∧
                ofTask task (s.windows w').lockOperations u = true) →
              u ∈ win'.threadsWaitingUnlock ∧ ofTask task win'.lockOperations u = true)
            (fun hin => hin) fun _ _ hin => hin
        exact Or.inr ⟨w', hunext, hunlock w' hin⟩

theorem Scheduled.osLock {s : State} {t : ThreadId} {loose : List ThreadId} {w : WindowId}
    {mode : LockMode} {target : TaskId} (h : Scheduled task s (t :: loose))
    (hnext : LocksNext (s.actions t) w) (hmode : (s.windows w).mode = .lock) :
    Scheduled task (osLock s t w mode target) loose := by
  have hold := h.window w
  simp only [Windows.osLock]
  split
  next hfree =>
    apply Scheduled.advance
    refine h.setWindow ?_ rfl (fun _ hin => hin) fun _ _ _ _ hops => hops
    constructor
    · exact hold.mode
    · exact fun _ => hmode
    · exact ⟨fun hnone => absurd hnone (Option.some_ne_none target), fun hnil =>
        absurd hnil (List.append_ne_nil_of_right_ne_nil _ (List.cons_ne_nil t []))⟩
    · rcases hfree with hnone | ⟨-, hshared, -⟩
      · left
        have hlength : (s.windows w).threadsWithLock.length = 0 :=
          List.length_eq_zero_iff.mpr (hold.free.mp hnone)
        simp only [List.length_append, List.length_singleton]
        omega
      · exact Or.inr hshared
    · exact fun _ => List.append_ne_nil_of_right_ne_nil _ (List.cons_ne_nil t [])
    · exact fun u hu => List.mem_append_left _ (hold.operations u hu)
  next hfree =>
    apply h.waitLock hnext
    intro hnil
    exact hfree (Or.inl (hold.free.mpr hnil))

/-! ## Locks that are taken -/

/-- The operations of a window stay, and only some threads go on. -/
structure Relocked (s s' : State) (ts : List ThreadId) : Prop where
  operations : ∀ w, (s'.windows w).lockOperations = (s.windows w).lockOperations
  went : ∀ t, s'.actions t = s.actions t ∨ t ∈ ts ∧ s'.actions t = (s.actions t).tail

theorem starting_of_not {s : State} {t : ThreadId} (hstartup : s.doingStartup t = false)
    (hdone : s.startupDone t = false) (w : WindowId) : starting s t w = 0 := by
  apply if_neg
  rintro ⟨htrue | htrue, -⟩
  · exact Bool.false_ne_true (hstartup.symm.trans htrue)
  · exact Bool.false_ne_true (hdone.symm.trans htrue)

theorem Transfers.advance {s : State} (h : Transfers s) {t : ThreadId}
    (hstartup : s.doingStartup t = false) (hdone : s.startupDone t = false) :
    Transfers (s.advance t) := by
  have hactions (u : ThreadId) (hu : u ≠ t) := advance_of_ne s hu
  constructor
  · intro u w
    have hstarting : starting (s.advance t) u w = starting s u w := by
      by_cases hu : u = t
      · rw [hu, starting_of_not hstartup hdone]
        exact starting_of_not (s := s.advance t) hstartup hdone w
      · unfold starting
        rw [hactions u hu]
        rfl
    rw [hstarting]
    exact h.count u w
  · intro u hu
    have hne : u ≠ t := fun heq => Bool.false_ne_true (hstartup.symm.trans (heq ▸ hu))
    rw [hactions u hne]
    exact h.startup u hu
  · intro u hu
    have hne : u ≠ t := fun heq => Bool.false_ne_true (hdone.symm.trans (heq ▸ hu))
    rw [hactions u hne]
    exact h.done u hu

theorem Transfers.setWindow {s : State} (h : Transfers s) {w : WindowId} {win : Window}
    (hops : win.lockOperations = (s.windows w).lockOperations) :
    Transfers (s.setWindow w win) := by
  refine ⟨fun t w' => ?_, h.startup, h.done⟩
  have hsame : ((s.setWindow w win).windows w').lockOperations = (s.windows w').lockOperations :=
    forall_setWindow (fun w' win => win.lockOperations = (s.windows w').lockOperations) hops
      (fun _ _ => rfl) w'
  rw [hsame]
  exact h.count t w'

theorem Transfers.startup_of_lock {s : State} (h : Transfers s) {t : ThreadId} {w : WindowId}
    (hnext : LocksNext (s.actions t) w ∨ UnlocksNext (s.actions t) w) :
    s.doingStartup t = false ∧ s.startupDone t = false := by
  constructor
  · apply Bool.eq_false_iff.mpr
    intro htrue
    obtain ⟨-, w', rest, hactions⟩ := h.startup t htrue
    rcases hnext with ⟨mode, target, rest', hlock⟩ | ⟨rest', hunlock⟩
    · rw [hactions] at hlock
      exact Action.noConfusion (List.cons.inj hlock).1
    · rw [hactions] at hunlock
      exact Action.noConfusion (List.cons.inj hunlock).1
  · apply Bool.eq_false_iff.mpr
    intro htrue
    obtain ⟨w', rest, hactions⟩ := h.done t htrue
    rcases hnext with ⟨mode, target, rest', hlock⟩ | ⟨rest', hunlock⟩
    · rw [hactions] at hlock
      exact Action.noConfusion (List.cons.inj hlock).1
    · rw [hactions] at hunlock
      exact Action.noConfusion (List.cons.inj hunlock).1

theorem heldBy_append (s : State) (w : WindowId) (win : Window) (t u : ThreadId)
    (hwin : win.threadsWithLock = (s.windows w).threadsWithLock ++ [t]) :
    heldBy (s.setWindow w win) u =
      if u = t then Function.update (heldBy s u) w (heldBy s u w + 1) else heldBy s u := by
  funext w'
  by_cases hw : w' = w
  · rw [hw]
    unfold heldBy
    rw [setWindow_self, hwin, List.count_append, List.count_singleton]
    by_cases hu : u = t
    · simp [hu]
    · simp [hu, Ne.symm hu]
  · have hsame : heldBy (s.setWindow w win) u w' = heldBy s u w' := by
      unfold heldBy
      rw [setWindow_of_ne s win hw]
    rw [hsame]
    split
    · rw [Function.update_of_ne hw]
    · rfl

theorem heldBy_eq {s : State} {w : WindowId} (win : Window)
    (hwin : win.threadsWithLock = (s.windows w).threadsWithLock) (u : ThreadId) :
    heldBy (s.setWindow w win) u = heldBy s u := by
  funext w'
  exact forall_setWindow
    (fun w' win => win.threadsWithLock.count u = (s.windows w').threadsWithLock.count u)
    (congrArg (List.count u) hwin) (fun _ _ => rfl) w'

theorem Inv.osLock {s : State} {t : ThreadId} {loose : List ThreadId} {w : WindowId}
    {mode : LockMode} {target : TaskId} {rest : List Action} (h : Inv task s (t :: loose))
    (hactions : s.actions t = .lock w mode target :: rest) (hmode : (s.windows w).mode = .lock) :
    Inv task (Windows.osLock s t w mode target) loose ∧
      Relocked s (Windows.osLock s t w mode target) [t] ∧
      ((Windows.osLock s t w mode target).windows w).mode = .lock := by
  have hnext : LocksNext (s.actions t) w := ⟨mode, target, rest, hactions⟩
  have hidle := h.transfers.startup_of_lock (Or.inl hnext)
  have hscheduled : Scheduled task (Windows.osLock s t w mode target) loose :=
    h.scheduled.osLock hnext hmode
  simp only [Windows.osLock] at hscheduled ⊢
  split
  next hfree =>
    rw [if_pos hfree] at hscheduled
    set win := { s.windows w with
      taskWithLock := some target
      lockMode := mode
      threadsWithLock := (s.windows w).threadsWithLock ++ [t] }
    have hheld (u : ThreadId) := heldBy_append s w win t u rfl
    have htransfers : Transfers (s.setWindow w win) := h.transfers.setWindow rfl
    refine ⟨⟨hscheduled, htransfers.advance hidle.1 hidle.2, fun u => ?_⟩, ⟨?_, fun u => ?_⟩, ?_⟩
    · have hprogram := h.programs u
      have hwindows : heldBy ((s.setWindow w win).advance t) u = heldBy (s.setWindow w win) u := rfl
      rw [hwindows, hheld u]
      by_cases hu : u = t
      · rw [if_pos hu, hu, advance_self]
        rw [hu, hactions] at hprogram
        have hrest : (s.setWindow w win).actions t = .lock w mode target :: rest := hactions
        rw [hrest]
        exact hprogram
      · rw [if_neg hu, advance_of_ne _ hu]
        exact hprogram
    · exact forall_setWindow
        (fun w' win => win.lockOperations = (s.windows w').lockOperations) rfl fun _ _ => rfl
    · by_cases hu : u = t
      · rw [hu, advance_self]
        exact Or.inr ⟨List.mem_singleton.mpr rfl, rfl⟩
      · exact Or.inl (advance_of_ne _ hu)
    · exact (congrArg Window.mode (setWindow_self s w win)).trans hmode
  next hfree =>
    rw [if_neg hfree] at hscheduled
    set win := { s.windows w with threadsWaitingLock := (s.windows w).threadsWaitingLock ++ [t] }
    refine ⟨⟨hscheduled, h.transfers.setWindow rfl, fun u => ?_⟩, ⟨?_, fun u => Or.inl rfl⟩, ?_⟩
    · rw [heldBy_eq win rfl]
      exact h.programs u
    · exact forall_setWindow
        (fun w' win => win.lockOperations = (s.windows w').lockOperations) rfl fun _ _ => rfl
    · rw [setWindow_self]
      exact hmode

theorem LocksNext.of_eq {s s' : State} {t : ThreadId} {w : WindowId}
    (h : LocksNext (s.actions t) w) (heq : s'.actions t = s.actions t) :
    LocksNext (s'.actions t) w := by
  rw [heq]
  exact h

/-- The threads that waited for a lock of a window get it or wait again. -/
theorem Inv.relock {w : WindowId} {ts : List ThreadId} : ∀ {s : State}, Inv task s ts →
    (∀ t ∈ ts, LocksNext (s.actions t) w) → (s.windows w).mode = .lock →
    ∃ s', Windows.relock s ts = some s' ∧ Inv task s' [] ∧ Relocked s s' ts := by
  induction ts with
  | nil =>
    intro s h _ _
    exact ⟨s, rfl, h, ⟨fun _ => rfl, fun _ => Or.inl rfl⟩⟩
  | cons t ts ih =>
    intro s h hnext hmode
    obtain ⟨mode, target, rest, hactions⟩ := hnext t List.mem_cons_self
    obtain ⟨hinv, hrelocked, hmode'⟩ := h.osLock hactions hmode
    have hfresh : t ∉ ts := (List.nodup_cons.mp h.scheduled.looseNodup).1
    have hnext' : ∀ u ∈ ts, LocksNext ((Windows.osLock s t w mode target).actions u) w := by
      intro u hu
      apply (hnext u (List.mem_cons_of_mem t hu)).of_eq
      rcases hrelocked.went u with hsame | ⟨hin, -⟩
      · exact hsame
      · exact absurd (List.mem_singleton.mp hin ▸ hu) hfresh
    obtain ⟨s', hs', hinv', hrest⟩ := ih hinv hnext' hmode'
    refine ⟨s', ?_, hinv', ⟨fun w' => (hrest.operations w').trans (hrelocked.operations w'), ?_⟩⟩
    · simp only [Windows.relock, hactions]
      exact hs'
    · intro u
      by_cases hu : u = t
      · rw [hu]
        rcases hrest.went t with hsame | ⟨hin, -⟩
        · rw [hsame]
          rcases hrelocked.went t with hsame' | ⟨-, htail⟩
          · exact Or.inl hsame'
          · exact Or.inr ⟨List.mem_cons_self, htail⟩
        · exact absurd hin hfresh
      · have hsame : (Windows.osLock s t w mode target).actions u = s.actions u := by
          rcases hrelocked.went u with hsame | ⟨hin, -⟩
          · exact hsame
          · exact absurd (List.mem_singleton.mp hin) hu
        rcases hrest.went u with hsame' | ⟨hin, htail⟩
        · exact Or.inl (hsame'.trans hsame)
        · rw [hsame] at htail
          exact Or.inr ⟨List.mem_cons_of_mem t hin, htail⟩

/-! ## Locks that are given back -/

/-- The threads that wait for a lock of a window are taken out of their queue. -/
theorem Scheduled.takeWaiting {s : State} (h : Scheduled task s []) {w : WindowId} {win : Window}
    (hwin : WindowInv win) (hempty : win.threadsWaitingLock = [])
    (hunlock : win.threadsWaitingUnlock = (s.windows w).threadsWaitingUnlock)
    (hops : win.lockOperations = (s.windows w).lockOperations) :
    Scheduled task (s.setWindow w win) (s.windows w).threadsWaitingLock := by
  have hwindow : ∀ w', WindowInv ((s.setWindow w win).windows w') :=
    forall_setWindow (fun _ => WindowInv) hwin fun w' _ => h.window w'
  have hnodup : ∀ w', ((s.setWindow w win).windows w').threadsWaitingLock.Nodup :=
    forall_setWindow (fun _ win => win.threadsWaitingLock.Nodup) (hempty ▸ List.nodup_nil)
      fun w' _ => h.waitingNodup w'
  have hqueued : ∀ w', ∀ t ∈ ((s.setWindow w win).windows w').threadsWaitingLock,
      t ∉ s.ready ∧ t ∉ (s.windows w).threadsWaitingLock ∧ LocksNext (s.actions t) w' := by
    refine forall_setWindow (fun w' win => ∀ t ∈ win.threadsWaitingLock,
      t ∉ s.ready ∧ t ∉ (s.windows w).threadsWaitingLock ∧ LocksNext (s.actions t) w') ?_ ?_
    · rw [hempty]
      exact fun t ht => absurd ht List.not_mem_nil
    · intro w' hw t ht
      obtain ⟨hready, -, hnext⟩ := h.waitingLock w' t ht
      refine ⟨hready, fun hin => ?_, hnext⟩
      exact hw (locksNext_window hnext (h.waitingLock w t hin).2.2)
  refine ⟨hwindow, h.readyNodup, h.readyActions, h.waitingNodup w, ?_, hnodup, hqueued, ?_⟩
  · intro t ht
    obtain ⟨hready, -, mode, target, rest, hactions⟩ := h.waitingLock w t ht
    have hne : s.actions t ≠ [] := by
      rw [hactions]
      exact List.cons_ne_nil _ _
    exact ⟨hready, hne⟩
  · intro t hready hloose hnil
    rcases h.blocked t hready List.not_mem_nil hnil with ⟨w', hnext, hin⟩ | ⟨w', hnext, hin⟩
    · have hw : w' ≠ w := fun heq => hloose (heq ▸ hin)
      refine Or.inl ⟨w', hnext, ?_⟩
      rw [setWindow_of_ne s win hw]
      exact hin
    · have hsame : ∀ w', (t ∈ (s.windows w').threadsWaitingUnlock ∧
            ofTask task (s.windows w').lockOperations t = true) →
          t ∈ ((s.setWindow w win).windows w').threadsWaitingUnlock ∧
            ofTask task ((s.setWindow w win).windows w').lockOperations t = true :=
        forall_setWindow
          (fun w' win' => (t ∈ (s.windows w').threadsWaitingUnlock ∧
              ofTask task (s.windows w').lockOperations t = true) →
            t ∈ win'.threadsWaitingUnlock ∧ ofTask task win'.lockOperations t = true)
          (fun hin => by rw [hunlock, hops]; exact hin) fun _ _ hin => hin
      exact Or.inr ⟨w', hnext, hsame w' hin⟩

theorem heldBy_nil (s : State) (w : WindowId) (win : Window) (t u : ThreadId)
    (hold : (s.windows w).threadsWithLock = [t]) (hwin : win.threadsWithLock = []) :
    heldBy (s.setWindow w win) u =
      if u = t then Function.update (heldBy s u) w (heldBy s u w - 1) else heldBy s u := by
  funext w'
  by_cases hw : w' = w
  · rw [hw]
    have hnone : heldBy (s.setWindow w win) u w = 0 := by
      unfold heldBy
      rw [setWindow_self, hwin]
      rfl
    have hone : heldBy s u w = [t].count u := congrArg (List.count u) hold
    rw [hnone]
    by_cases hu : u = t
    · rw [if_pos hu, Function.update_self, hone, hu]
      simp
    · rw [if_neg hu, hone]
      simp [Ne.symm hu]
  · have hsame : heldBy (s.setWindow w win) u w' = heldBy s u w' := by
      unfold heldBy
      rw [setWindow_of_ne s win hw]
    rw [hsame]
    split
    · rw [Function.update_of_ne hw]
    · rfl

theorem ofTask_eq_true {queue : List ThreadId} {t : ThreadId} :
    ofTask task queue t = true ↔ ∃ u ∈ queue, task u = task t := by
  simp [ofTask]

theorem ofTask_eq_false {queue : List ThreadId} {t : ThreadId} :
    ofTask task queue t = false ↔ ∀ u ∈ queue, task u ≠ task t := by
  simp [ofTask]

/-- A thread without operations of its task gives back the only lock of a window. -/
theorem Inv.release {s : State} {t : ThreadId} {w : WindowId} {rest : List Action}
    (h : Inv task s [t]) (hactions : s.actions t = .unlock w :: rest)
    (hmode : (s.windows w).mode = .lock) (honly : (s.windows w).threadsWithLock = [t])
    (hops : ofTask task (s.windows w).lockOperations t = false) :
    ∃ s', release s t w = some s' ∧ Inv task s' [] ∧
      Relocked s s' (t :: (s.windows w).threadsWaitingLock) := by
  have hidle := h.transfers.startup_of_lock (Or.inr ⟨rest, hactions⟩)
  have hold := h.scheduled.window w
  have hnone : (s.windows w).lockOperations = [] := by
    apply List.eq_nil_iff_forall_not_mem.mpr
    intro u hu
    have heq : u = t := by
      have hin := hold.operations u hu
      rw [honly] at hin
      exact List.mem_singleton.mp hin
    exact ofTask_eq_false.mp hops u hu (congrArg task heq)
  have hprogram (win : Window) (hwin : win.threadsWithLock = []) (u : ThreadId) :
      UnlocksOwn (heldBy ((s.advance t).setWindow w win) u)
        (((s.advance t).setWindow w win).actions u) := by
    have hsame : ((s.advance t).setWindow w win).actions = (s.advance t).actions := rfl
    have hown := h.programs u
    rw [heldBy_nil (s.advance t) w win t u honly hwin, hsame]
    by_cases hu : u = t
    · rw [if_pos hu, hu, advance_self, hactions]
      rw [hu, hactions] at hown
      exact hown.2
    · rw [if_neg hu, advance_of_ne s hu]
      exact hown
  have htransfers : Transfers (s.advance t) := h.transfers.advance hidle.1 hidle.2
  have hwent (u : ThreadId) : (s.advance t).actions u = s.actions u ∨
      u ∈ t :: (s.windows w).threadsWaitingLock ∧ (s.advance t).actions u = (s.actions u).tail := by
    by_cases hu : u = t
    · rw [hu, advance_self]
      exact Or.inr ⟨List.mem_cons_self, rfl⟩
    · exact Or.inl (advance_of_ne s hu)
  have hextract : extract (s.windows w).threadsWithLock t = some [] := by
    unfold extract
    rw [honly, if_pos (List.mem_singleton.mpr rfl)]
    simp
  simp only [Windows.release, hextract, Option.bind_some, if_true]
  split
  next hempty =>
    set win := { s.windows w with threadsWithLock := [], taskWithLock := none, mode := .none }
    have hwin : WindowInv win :=
      ⟨Or.inl rfl, fun hne => absurd rfl hne, ⟨fun _ => rfl, fun _ => rfl⟩, Or.inl (Nat.zero_le 1),
        fun hne => absurd hempty hne, fun u hu => by
          have hin : u ∈ (s.windows w).lockOperations := hu
          rw [hnone] at hin
          exact absurd hin List.not_mem_nil⟩
    have hscheduled : Scheduled task ((s.advance t).setWindow w win) [] :=
      h.scheduled.advance.setWindow hwin rfl (fun _ hin => hin) fun _ _ _ _ hin => hin
    have hoperations : ∀ w', (((s.advance t).setWindow w win).windows w').lockOperations =
        (s.windows w').lockOperations :=
      forall_setWindow (fun w' win => win.lockOperations = (s.windows w').lockOperations) rfl
        fun _ _ => rfl
    exact ⟨_, rfl, ⟨hscheduled, htransfers.setWindow rfl, hprogram win rfl⟩, hoperations, hwent⟩
  next hwaiting =>
    set win := { s.windows w with
      threadsWithLock := [], taskWithLock := none, threadsWaitingLock := [] }
    have hwin : WindowInv win :=
      ⟨Or.inr hmode, fun hne => absurd rfl hne, ⟨fun _ => rfl, fun _ => rfl⟩,
        Or.inl (Nat.zero_le 1), fun hne => absurd rfl hne, fun u hu => by
          have hin : u ∈ (s.windows w).lockOperations := hu
          rw [hnone] at hin
          exact absurd hin List.not_mem_nil⟩
    have hscheduled : Scheduled task ((s.advance t).setWindow w win)
        (s.windows w).threadsWaitingLock :=
      h.scheduled.advance.takeWaiting hwin rfl rfl rfl
    have hinv : Inv task ((s.advance t).setWindow w win) (s.windows w).threadsWaitingLock :=
      ⟨hscheduled, htransfers.setWindow rfl, hprogram win rfl⟩
    have hne (u : ThreadId) (hu : u ∈ (s.windows w).threadsWaitingLock) : u ≠ t := by
      intro heq
      exact (h.scheduled.waitingLock w u hu).2.1 (heq ▸ List.mem_singleton.mpr rfl)
    have hnext : ∀ u ∈ (s.windows w).threadsWaitingLock,
        LocksNext (((s.advance t).setWindow w win).actions u) w := by
      intro u hu
      exact (h.scheduled.waitingLock w u hu).2.2.of_eq (advance_of_ne s (hne u hu))
    have hmode' : (((s.advance t).setWindow w win).windows w).mode = .lock := by
      rw [setWindow_self]
      exact hmode
    obtain ⟨s', hs', hinv', hrelocked⟩ := hinv.relock hnext hmode'
    have hoperations : ∀ w', (((s.advance t).setWindow w win).windows w').lockOperations =
        (s.windows w').lockOperations :=
      forall_setWindow (fun w' win => win.lockOperations = (s.windows w').lockOperations) rfl
        fun _ _ => rfl
    refine ⟨s', hs', hinv', fun w' => (hrelocked.operations w').trans (hoperations w'), fun u => ?_⟩
    rcases hrelocked.went u with hsame | ⟨hin, htail⟩
    · rcases hwent u with hold' | ⟨hin, htail⟩
      · exact Or.inl (hsame.trans hold')
      · exact Or.inr ⟨hin, hsame.trans htail⟩
    · refine Or.inr ⟨List.mem_cons_of_mem t hin, ?_⟩
      have hold' : ((s.advance t).setWindow w win).actions u = s.actions u :=
        advance_of_ne s (hne u hin)
      rw [htail, hold']

/-- A thread that waits for the end of its operations is in no operation's hands. -/
theorem Scheduled.waitUnlock {s : State} {t : ThreadId} {loose : List ThreadId} {w : WindowId}
    (h : Scheduled task s (t :: loose)) (hnext : UnlocksNext (s.actions t) w)
    (hin : t ∈ (s.windows w).threadsWaitingUnlock)
    (hops : ofTask task (s.windows w).lockOperations t = true) : Scheduled task s loose := by
  have hloose := List.nodup_cons.mp h.looseNodup
  refine ⟨h.window, h.readyNodup, h.readyActions, hloose.2,
    fun u hu => h.looseActions u (List.mem_cons_of_mem t hu), h.waitingNodup, ?_, ?_⟩
  · intro w' u hu
    obtain ⟨hready, hnot, hlock⟩ := h.waitingLock w' u hu
    exact ⟨hready, fun hmem => hnot (List.mem_cons_of_mem t hmem), hlock⟩
  · intro u hready hnot hnil
    by_cases hu : u = t
    · rw [hu]
      exact Or.inr ⟨w, hnext, hin, hops⟩
    · exact h.blocked u hready (fun hmem => (List.mem_cons.mp hmem).elim hu hnot) hnil

/-- A thread waits for the end of the operations of its task, or it gives its lock back. -/
theorem Inv.osUnlock {s : State} {t : ThreadId} {w : WindowId} {rest : List Action}
    (h : Inv task s [t]) (hactions : s.actions t = .unlock w :: rest)
    (hmode : (s.windows w).mode = .lock)
    (honly : ofTask task (s.windows w).lockOperations t = false →
      (s.windows w).threadsWithLock.length ≤ 1) :
    ∃ s', osUnlock task s t w = some s' ∧ Inv task s' [] ∧
      Relocked s s' (t :: (s.windows w).threadsWaitingLock) ∧
      (s'.actions t ≠ s.actions t → ofTask task (s.windows w).lockOperations t = false) := by
  have hold := h.scheduled.window w
  simp only [Windows.osUnlock]
  split
  next hops =>
    set win := { s.windows w with
      threadsWaitingUnlock := (s.windows w).threadsWaitingUnlock ++ [t] }
    have hloose : Scheduled task (s.setWindow w win) [t] :=
      h.scheduled.setWindow
        ⟨hold.mode, hold.held, hold.free, hold.shared, hold.waiting, hold.operations⟩ rfl
        (fun u hu => List.mem_append_left [t] hu) fun _ _ _ _ hin => hin
    have hscheduled : Scheduled task (s.setWindow w win) [] := by
      apply hloose.waitUnlock (w := w) ⟨rest, hactions⟩
      · rw [setWindow_self]
        exact List.mem_append_right _ (List.mem_singleton.mpr rfl)
      · rw [setWindow_self]
        exact hops
    have hoperations : ∀ w', ((s.setWindow w win).windows w').lockOperations =
        (s.windows w').lockOperations :=
      forall_setWindow (fun w' win => win.lockOperations = (s.windows w').lockOperations) rfl
        fun _ _ => rfl
    refine ⟨_, rfl, ⟨hscheduled, h.transfers.setWindow rfl, fun u => ?_⟩,
      ⟨hoperations, fun u => Or.inl rfl⟩, fun hne => absurd rfl hne⟩
    rw [heldBy_eq win rfl]
    exact h.programs u
  next hops =>
    have hfalse : ofTask task (s.windows w).lockOperations t = false := Bool.eq_false_iff.mpr hops
    have hown := h.programs t
    rw [hactions] at hown
    have hmem : t ∈ (s.windows w).threadsWithLock := List.count_pos_iff.mp hown.1
    have hsingle : (s.windows w).threadsWithLock = [t] := by
      obtain ⟨u, hu⟩ := List.length_eq_one_iff.mp
        (Nat.le_antisymm (honly hfalse) (List.length_pos_of_mem hmem))
      rw [hu] at hmem ⊢
      rw [List.mem_singleton.mp hmem]
    obtain ⟨s', hs', hinv, hrelocked⟩ := h.release hactions hmode hsingle hfalse
    exact ⟨s', hs', hinv, hrelocked, fun _ => hfalse⟩

/-! ## Transfers -/

theorem startUp_self (s : State) (t : ThreadId) :
    (startUp s t).actions t = .work :: s.actions t := Function.update_self _ _ _

theorem startUp_of_ne (s : State) {t u : ThreadId} (h : u ≠ t) :
    (startUp s t).actions u = s.actions u := Function.update_of_ne h _ _

theorem Scheduled.startUp {s : State} {t : ThreadId} {loose : List ThreadId}
    (h : Scheduled task s (t :: loose)) : Scheduled task (startUp s t) loose := by
  refine h.goOn rfl (fun u hu => startUp_of_ne s hu) ?_
  rw [startUp_self, if_neg (List.cons_ne_nil _ _)]
  rfl

theorem register_lock {s : State} {t : ThreadId} {w : WindowId}
    (hmode : (s.windows w).mode = .lock) :
    register s t w = s.setWindow w { s.windows w with
      lockOperations := (s.windows w).lockOperations ++ [t] } := by
  simp only [register, hmode]

theorem transferNext_getput {actions rest : List Action} {w : WindowId}
    (h : actions = .getput w :: rest) (w' : WindowId) :
    transferNext actions = some w' ↔ w' = w := by
  rw [h]
  exact ⟨fun heq => (Option.some.inj heq).symm, fun heq => congrArg some heq.symm⟩

theorem starting_getput {s : State} {t : ThreadId} {w : WindowId} {rest : List Action}
    (hactions : s.actions t = .getput w :: rest)
    (hflag : s.doingStartup t = true ∨ s.startupDone t = true) (w' : WindowId) :
    starting s t w' = if w' = w then 1 else 0 := by
  unfold starting
  simp only [hflag, true_and, transferNext_getput hactions]

theorem lockOperations_register (s : State) (t u : ThreadId) (w w' : WindowId) (win : Window)
    (hops : win.lockOperations = (s.windows w).lockOperations ++ [t]) :
    ((s.setWindow w win).windows w').lockOperations.count u =
      (s.windows w').lockOperations.count u + if u = t ∧ w' = w then 1 else 0 := by
  by_cases hw : w' = w
  · rw [hw, setWindow_self, hops, List.count_append, List.count_singleton]
    by_cases hu : u = t
    · simp [hu]
    · simp [hu, Ne.symm hu]
  · rw [setWindow_of_ne s win hw]
    simp [hw]

theorem count_transfer (inFlight : List Transfer) (t u : ThreadId) (w w' : WindowId) :
    (inFlight ++ [Transfer.mk t w]).count (Transfer.mk u w') =
      inFlight.count (Transfer.mk u w') + if u = t ∧ w' = w then 1 else 0 := by
  rw [List.count_append, List.count_singleton]
  by_cases h : u = t ∧ w' = w
  · simp [h]
  · have hne : ¬(t = u ∧ w = w') := fun heq => h ⟨heq.1.symm, heq.2.symm⟩
    simp [h, hne]

theorem Transfers.transfer {s : State} (h : Transfers s) {t : ThreadId} {w : WindowId}
    {rest : List Action} (hactions : s.actions t = .getput w :: rest)
    (hdone : s.startupDone t = true) : Transfers (transfer s t w) := by
  have hstartup : s.doingStartup t = false := by
    apply Bool.eq_false_iff.mpr
    intro htrue
    exact Bool.false_ne_true ((h.startup t htrue).1.symm.trans hdone)
  have hne (u : ThreadId) (hu : u ≠ t) : (Windows.transfer s t w).actions u = s.actions u :=
    advance_of_ne _ hu
  have hflag (u : ThreadId) (hu : u ≠ t) : (Windows.transfer s t w).startupDone u =
      s.startupDone u := Function.update_of_ne hu _ _
  have hself : (Windows.transfer s t w).startupDone t = false := Function.update_self _ _ _
  constructor
  · intro u w'
    have hcount := h.count u w'
    have hflight : (Windows.transfer s t w).inFlight = s.inFlight ++ [Transfer.mk t w] := rfl
    have hwindows : (Windows.transfer s t w).windows = s.windows := rfl
    rw [hwindows, hflight, count_transfer, hcount]
    by_cases hu : u = t
    · rw [hu, starting_getput hactions (Or.inr hdone),
        starting_of_not (s := Windows.transfer s t w) hstartup hself]
      simp
    · have hsame : starting (Windows.transfer s t w) u w' = starting s u w' := by
        unfold starting
        rw [hne u hu, hflag u hu]
        rfl
      rw [hsame]
      simp [hu]
  · intro u hu
    have hut : u ≠ t := fun heq => Bool.false_ne_true (hstartup.symm.trans (heq ▸ hu))
    rw [hflag u hut, hne u hut]
    exact h.startup u hu
  · intro u hu
    have hut : u ≠ t := fun heq => Bool.false_ne_true (hself.symm.trans (heq ▸ hu))
    rw [hne u hut]
    rw [hflag u hut] at hu
    exact h.done u hu

theorem Transfers.registerTransfer {s : State} (h : Transfers s) {t : ThreadId} {w : WindowId}
    {win : Window} (hops : win.lockOperations = (s.windows w).lockOperations ++ [t])
    (hstartup : s.doingStartup t = false) (hdone : s.startupDone t = false) :
    Transfers (Windows.transfer (s.setWindow w win) t w) := by
  have hflag (u : ThreadId) :
      (Windows.transfer (s.setWindow w win) t w).startupDone u = s.startupDone u := by
    by_cases hu : u = t
    · rw [hu, hdone]
      exact Function.update_self _ _ _
    · exact Function.update_of_ne hu _ _
  have hne (u : ThreadId) (hu : u ≠ t) :
      (Windows.transfer (s.setWindow w win) t w).actions u = s.actions u := advance_of_ne _ hu
  constructor
  · intro u w'
    have hflight : (Windows.transfer (s.setWindow w win) t w).inFlight =
        s.inFlight ++ [Transfer.mk t w] := rfl
    have hwindows : (Windows.transfer (s.setWindow w win) t w).windows =
        (s.setWindow w win).windows := rfl
    rw [hwindows, hflight, count_transfer, lockOperations_register s t u w w' win hops,
      h.count u w']
    have hsame : starting (Windows.transfer (s.setWindow w win) t w) u w' = starting s u w' := by
      by_cases hu : u = t
      · rw [hu, starting_of_not hstartup hdone]
        exact starting_of_not (s := Windows.transfer (s.setWindow w win) t w) hstartup
          ((hflag t).trans hdone) w'
      · unfold starting
        rw [hne u hu, hflag u]
        rfl
    rw [hsame]
    omega
  · intro u hu
    have hut : u ≠ t := fun heq => Bool.false_ne_true (hstartup.symm.trans (heq ▸ hu))
    rw [hflag u, hne u hut]
    exact h.startup u hu
  · intro u hu
    rw [hflag u] at hu
    have hut : u ≠ t := fun heq => Bool.false_ne_true (hdone.symm.trans (heq ▸ hu))
    rw [hne u hut]
    exact h.done u hu

theorem Transfers.registerStartUp {s : State} (h : Transfers s) {t : ThreadId} {w : WindowId}
    {win : Window} {rest : List Action} (hactions : s.actions t = .getput w :: rest)
    (hops : win.lockOperations = (s.windows w).lockOperations ++ [t])
    (hstartup : s.doingStartup t = false) (hdone : s.startupDone t = false) :
    Transfers (startUp (s.setWindow w win) t) := by
  have hself : (Windows.startUp (s.setWindow w win) t).doingStartup t = true :=
    Function.update_self _ _ _
  have hflag (u : ThreadId) (hu : u ≠ t) :
      (Windows.startUp (s.setWindow w win) t).doingStartup u = s.doingStartup u :=
    Function.update_of_ne hu _ _
  have hne (u : ThreadId) (hu : u ≠ t) :
      (Windows.startUp (s.setWindow w win) t).actions u = s.actions u := startUp_of_ne _ hu
  have hwork : (Windows.startUp (s.setWindow w win) t).actions t = .work :: .getput w :: rest := by
    rw [startUp_self]
    exact congrArg (List.cons Action.work) hactions
  constructor
  · intro u w'
    have hflight : (Windows.startUp (s.setWindow w win) t).inFlight = s.inFlight := rfl
    have hwindows : (Windows.startUp (s.setWindow w win) t).windows =
        (s.setWindow w win).windows := rfl
    rw [hwindows, hflight, lockOperations_register s t u w w' win hops, h.count u w']
    by_cases hu : u = t
    · have hstarting : starting (Windows.startUp (s.setWindow w win) t) t w' =
          if w' = w then 1 else 0 := by
        unfold starting
        rw [hwork, hself]
        by_cases hw : w' = w
        · rw [hw]
          simp [transferNext]
        · simp [transferNext, hw, Ne.symm hw]
      rw [hu, starting_of_not hstartup hdone, hstarting]
      simp
    · have hsame : starting (Windows.startUp (s.setWindow w win) t) u w' = starting s u w' := by
        unfold starting
        rw [hne u hu, hflag u hu]
        rfl
      rw [hsame]
      simp [hu]
  · intro u hu
    by_cases hut : u = t
    · rw [hut, hwork]
      exact ⟨hdone, w, rest, rfl⟩
    · rw [hflag u hut] at hu
      rw [hne u hut]
      exact h.startup u hu
  · intro u hu
    have hut : u ≠ t := fun heq => Bool.false_ne_true (hdone.symm.trans (heq ▸ hu))
    rw [hne u hut]
    exact h.done u hu

theorem Transfers.work {s : State} (h : Transfers s) {t : ThreadId} {rest : List Action}
    (hactions : s.actions t = .work :: rest) : Transfers (work s t) := by
  have hdone : s.startupDone t = false := by
    apply Bool.eq_false_iff.mpr
    intro htrue
    obtain ⟨w, rest', hgetput⟩ := h.done t htrue
    rw [hactions] at hgetput
    exact Action.noConfusion (List.cons.inj hgetput).1
  simp only [Windows.work]
  split
  next hstartup =>
    obtain ⟨-, w, rest', hgetput⟩ := h.startup t hstartup
    have hrest : rest = .getput w :: rest' := by
      rw [hactions] at hgetput
      exact (List.cons.inj hgetput).2
    set done := { s with
      doingStartup := Function.update s.doingStartup t false
      startupDone := Function.update s.startupDone t true }
    have hself : (done.advance t).actions t = .getput w :: rest' := by
      rw [advance_self]
      have hsame : done.actions t = s.actions t := rfl
      rw [hsame, hactions]
      exact hrest
    have hne (u : ThreadId) (hu : u ≠ t) : (done.advance t).actions u = s.actions u :=
      advance_of_ne done hu
    have hdoing (u : ThreadId) (hu : u ≠ t) : (done.advance t).doingStartup u = s.doingStartup u :=
      Function.update_of_ne hu _ _
    have hdoneFlag (u : ThreadId) (hu : u ≠ t) :
        (done.advance t).startupDone u = s.startupDone u := Function.update_of_ne hu _ _
    have hnot : (done.advance t).doingStartup t = false := Function.update_self _ _ _
    have htrue : (done.advance t).startupDone t = true := Function.update_self _ _ _
    constructor
    · intro u w'
      have hsame : starting (done.advance t) u w' = starting s u w' := by
        by_cases hu : u = t
        · rw [hu, starting_getput hself (Or.inr htrue)]
          unfold starting
          rw [hgetput]
          by_cases hw : w' = w
          · simp [transferNext, hstartup, hw]
          · simp [transferNext, hw, Ne.symm hw]
        · unfold starting
          rw [hne u hu, hdoing u hu, hdoneFlag u hu]
      rw [hsame]
      exact h.count u w'
    · intro u hu
      have hut : u ≠ t := fun heq => Bool.false_ne_true (hnot.symm.trans (heq ▸ hu))
      rw [hdoing u hut] at hu
      rw [hdoneFlag u hut, hne u hut]
      exact h.startup u hu
    · intro u hu
      by_cases hut : u = t
      · rw [hut]
        exact ⟨w, rest', hself⟩
      · rw [hdoneFlag u hut] at hu
        rw [hne u hut]
        exact h.done u hu
  next hstartup => exact h.advance (Bool.eq_false_iff.mpr hstartup) hdone

/-- The locks of the threads do not change while one of them goes on with an action that is none. -/
theorem programs_advance {s s' : State} (h : ∀ t, UnlocksOwn (heldBy s t) (s.actions t))
    {t : ThreadId} (hheld : ∀ u, heldBy s' u = heldBy s u)
    (hne : ∀ u ≠ t, s'.actions u = s.actions u)
    (hself : UnlocksOwn (heldBy s t) (s.actions t) → UnlocksOwn (heldBy s t) (s'.actions t))
    (u : ThreadId) : UnlocksOwn (heldBy s' u) (s'.actions u) := by
  rw [hheld u]
  by_cases hu : u = t
  · rw [hu]
    exact hself (h t)
  · rw [hne u hu]
    exact h u

theorem Inv.work {s : State} {t : ThreadId} {rest : List Action} (h : Inv task s [t])
    (hactions : s.actions t = .work :: rest) : Inv task (work s t) [] := by
  have hne (u : ThreadId) (hu : u ≠ t) : (Windows.work s t).actions u = s.actions u := by
    simp only [Windows.work]
    split <;> exact advance_of_ne _ hu
  have hself : (Windows.work s t).actions t = rest := by
    simp only [Windows.work]
    split
    · rw [advance_self]
      exact congrArg List.tail hactions
    · rw [advance_self, hactions]
      rfl
  have hwindows : (Windows.work s t).windows = s.windows := by
    simp only [Windows.work]
    split <;> rfl
  have hready : (Windows.work s t).ready =
      if (Windows.work s t).actions t = [] then s.ready else s.ready ++ [t] := by
    rw [hself]
    simp only [Windows.work]
    split <;> simp [State.advance, hactions]
  refine ⟨h.scheduled.goOn hwindows hne hready, h.transfers.work hactions,
    programs_advance h.programs (fun u => ?_) hne fun hown => ?_⟩
  · unfold heldBy
    rw [hwindows]
  · rw [hself]
    rw [hactions] at hown
    exact hown

/-- A thread with the lock of a window starts a transfer on it. -/
theorem Inv.osGetput {s : State} {t : ThreadId} {w : WindowId} {rest : List Action}
    {startup : Bool} (h : Inv task s [t]) (hactions : s.actions t = .getput w :: rest)
    (hmode : (s.windows w).mode = .lock) (hholds : t ∈ (s.windows w).threadsWithLock) :
    Inv task (osGetput s t w startup) [] := by
  have hold := h.scheduled.window w
  have hstartup : s.doingStartup t = false := by
    apply Bool.eq_false_iff.mpr
    intro htrue
    obtain ⟨-, w', rest', hwork⟩ := h.transfers.startup t htrue
    rw [hactions] at hwork
    exact Action.noConfusion (List.cons.inj hwork).1
  set win := { s.windows w with lockOperations := (s.windows w).lockOperations ++ [t] }
  have hwin : WindowInv win := by
    refine ⟨hold.mode, hold.held, hold.free, hold.shared, hold.waiting, fun u hu => ?_⟩
    rcases List.mem_append.mp hu with hin | hnew
    · exact hold.operations u hin
    · rw [List.mem_singleton.mp hnew]
      exact hholds
  have hregistered : Scheduled task (s.setWindow w win) [t] := by
    refine h.scheduled.setWindow hwin rfl (fun _ hin => hin) fun u _ _ _ hin => ?_
    obtain ⟨v, hv, hsame⟩ := ofTask_eq_true.mp hin
    exact ofTask_eq_true.mpr ⟨v, List.mem_append_left [t] hv, hsame⟩
  have hskip : UnlocksOwn (heldBy s t) (s.actions t) → UnlocksOwn (heldBy s t) rest := by
    rw [hactions]
    exact fun hown => hown
  unfold Windows.osGetput
  split
  next hdone =>
    have hscheduled : Scheduled task (transfer s t w) [] :=
      h.scheduled.goOn rfl (fun u hu => advance_of_ne _ hu) (by
        unfold transfer
        rw [advance_self]
        rfl)
    refine ⟨hscheduled, h.transfers.transfer hactions hdone,
      programs_advance h.programs (fun _ => rfl) (fun u hu => advance_of_ne _ hu) fun hown => ?_⟩
    have hself : (transfer s t w).actions t = rest := by
      unfold transfer
      rw [advance_self]
      exact congrArg List.tail hactions
    rw [hself]
    exact hskip hown
  next hnot =>
    have hdone : s.startupDone t = false := Bool.eq_false_iff.mpr hnot
    rw [register_lock hmode]
    split
    next =>
      refine ⟨hregistered.startUp, h.transfers.registerStartUp hactions rfl hstartup hdone,
        programs_advance h.programs (fun u => heldBy_eq win rfl u) (fun u hu => startUp_of_ne _ hu)
          fun hown => ?_⟩
      rw [startUp_self]
      exact hown
    next =>
      have hscheduled : Scheduled task (transfer (s.setWindow w win) t w) [] :=
        hregistered.goOn rfl (fun u hu => advance_of_ne _ hu) (by
          unfold transfer
          rw [advance_self]
          rfl)
      refine ⟨hscheduled, h.transfers.registerTransfer rfl hstartup hdone,
        programs_advance h.programs (fun u => heldBy_eq win rfl u) (fun u hu => advance_of_ne _ hu)
          fun hown => ?_⟩
      have hself : (transfer (s.setWindow w win) t w).actions t = rest := by
        unfold transfer
        rw [advance_self]
        exact congrArg List.tail hactions
      rw [hself]
      exact hskip hown

/-! ## Transfers that complete -/

theorem not_locksNext {actions : List Action} {w w' : WindowId} (h : UnlocksNext actions w) :
    ¬LocksNext actions w' := by
  rintro ⟨mode, target, rest', hlock⟩
  obtain ⟨rest, hunlock⟩ := h
  rw [hunlock] at hlock
  exact Action.noConfusion (List.cons.inj hlock).1

theorem Scheduled.mem_waitingUnlock {s : State} {loose : List ThreadId}
    (h : Scheduled task s loose) {t : ThreadId} {w : WindowId} (hready : t ∉ s.ready)
    (hloose : t ∉ loose) (hnext : UnlocksNext (s.actions t) w) :
    t ∈ (s.windows w).threadsWaitingUnlock ∧
      ofTask task (s.windows w).lockOperations t = true := by
  have hne : s.actions t ≠ [] := by
    obtain ⟨rest, hactions⟩ := hnext
    rw [hactions]
    exact List.cons_ne_nil _ _
  rcases h.blocked t hready hloose hne with ⟨w', hlock, -⟩ | ⟨w', hunlock, hin⟩
  · exact absurd hlock (not_locksNext hnext)
  · rw [unlocksNext_window hnext hunlock]
    exact hin

theorem Scheduled.takeUp {s : State} (h : Scheduled task s []) {t : ThreadId} {w : WindowId}
    (hready : t ∉ s.ready) (hnext : UnlocksNext (s.actions t) w) : Scheduled task s [t] := by
  refine ⟨h.window, h.readyNodup, h.readyActions, List.nodup_singleton t, ?_, h.waitingNodup, ?_,
    fun u huready _ hnil => h.blocked u huready List.not_mem_nil hnil⟩
  · intro u hu
    rw [List.mem_singleton.mp hu]
    obtain ⟨rest, hactions⟩ := hnext
    rw [hactions]
    exact ⟨hready, List.cons_ne_nil _ _⟩
  · intro w' u hu
    obtain ⟨huready, -, hlock⟩ := h.waitingLock w' u hu
    refine ⟨huready, fun hin => ?_, hlock⟩
    rw [List.mem_singleton.mp hin] at hlock
    exact not_locksNext hnext hlock

theorem ofTask_erase {queue : List ThreadId} {t u : ThreadId} (h : ofTask task queue u = true)
    (hne : task u ≠ task t) : ofTask task (queue.erase t) u = true := by
  obtain ⟨v, hv, hsame⟩ := ofTask_eq_true.mp h
  have hvt : v ≠ t := fun heq => hne (hsame.symm.trans (congrArg task heq))
  exact ofTask_eq_true.mpr ⟨v, (List.mem_erase_of_ne hvt).mpr hv, hsame⟩

theorem ofTask_congr {queue : List ThreadId} {t u : ThreadId} (h : task u = task t) :
    ofTask task queue u = ofTask task queue t := by
  unfold ofTask
  rw [h]

/-- The state after the end of a transfer, before the unlock of a thread. -/
def complete (s : State) (t : ThreadId) (w : WindowId) : State :=
  State.setWindow { s with inFlight := s.inFlight.erase (Transfer.mk t w) } w
    { s.windows w with lockOperations := (s.windows w).lockOperations.erase t }

theorem Transfers.complete {s : State} (h : Transfers s) {t : ThreadId} {w : WindowId}
    (hin : Transfer.mk t w ∈ s.inFlight) : Transfers (complete s t w) := by
  refine ⟨fun u w' => ?_, h.startup, h.done⟩
  have hflight : (Windows.complete s t w).inFlight = s.inFlight.erase (Transfer.mk t w) := rfl
  have hstarting : starting (Windows.complete s t w) u w' = starting s u w' := rfl
  have hpos : 0 < s.inFlight.count (Transfer.mk t w) := List.count_pos_iff.mpr hin
  have hcount := h.count u w'
  rw [hflight, hstarting, List.count_erase]
  by_cases hw : w' = w
  · rw [hw] at hcount ⊢
    have hself : ((Windows.complete s t w).windows w).lockOperations =
        (s.windows w).lockOperations.erase t :=
      congrArg Window.lockOperations (setWindow_self _ _ _)
    rw [hself, List.count_erase, hcount]
    by_cases hu : u = t
    · rw [hu]
      simp only [beq_self_eq_true, if_true]
      omega
    · have hne : Transfer.mk t w ≠ Transfer.mk u w := fun heq => hu (Transfer.mk.inj heq).1.symm
      rw [if_neg (by simpa using Ne.symm hu), if_neg (by simpa using Ne.symm hu)]
      omega
  · have hother : ((Windows.complete s t w).windows w').lockOperations =
        (s.windows w').lockOperations := congrArg Window.lockOperations (setWindow_of_ne _ _ hw)
    rw [hother, hcount, if_neg (by simpa using fun _ => Ne.symm hw)]
    omega

theorem Inv.mem_lockOperations {s : State} {loose : List ThreadId} (h : Inv task s loose)
    {t : ThreadId} {w : WindowId} (hin : Transfer.mk t w ∈ s.inFlight) :
    t ∈ (s.windows w).lockOperations ∧ (s.windows w).mode = .lock := by
  have hcount := h.transfers.count t w
  have hpos : 0 < s.inFlight.count (Transfer.mk t w) := List.count_pos_iff.mpr hin
  have hmem : t ∈ (s.windows w).lockOperations := by
    apply List.count_pos_iff.mp
    omega
  refine ⟨hmem, (h.scheduled.window w).held ?_⟩
  exact List.ne_nil_of_mem ((h.scheduled.window w).operations t hmem)

/-- The invariant after the end of a transfer, if the threads that wait for it are taken up. -/
theorem Inv.complete {s : State} {loose : List ThreadId} (h : Inv task s []) {t : ThreadId}
    {w : WindowId} (hin : Transfer.mk t w ∈ s.inFlight) (hloose : Scheduled task s loose)
    (hwait : ∀ u, u ∉ s.ready → u ∉ loose → UnlocksNext (s.actions u) w → task u = task t →
      ofTask task ((s.windows w).lockOperations.erase t) t = true) :
    Inv task (complete s t w) loose := by
  have hold := h.scheduled.window w
  set flown := { s with inFlight := s.inFlight.erase (Transfer.mk t w) }
  have hflown : Scheduled task flown loose :=
    ⟨hloose.window, hloose.readyNodup, hloose.readyActions, hloose.looseNodup, hloose.looseActions,
      hloose.waitingNodup, hloose.waitingLock, hloose.blocked⟩
  refine ⟨hflown.setWindow ⟨hold.mode, hold.held, hold.free, hold.shared, hold.waiting,
    fun u hu => hold.operations u (List.mem_of_mem_erase hu)⟩ rfl (fun _ hmem => hmem) ?_,
    h.transfers.complete hin, fun u => ?_⟩
  · intro u hready hnot hnext hops
    by_cases hsame : task u = task t
    · rw [ofTask_congr hsame]
      exact hwait u hready hnot hnext hsame
    · exact ofTask_erase hops hsame
  · have hheld : heldBy (Windows.complete s t w) u = heldBy flown u :=
      heldBy_eq (s := flown) (w := w)
        { s.windows w with lockOperations := (s.windows w).lockOperations.erase t } rfl u
    rw [hheld]
    exact h.programs u

theorem Inv.queueAgain {s : State} {loose : List ThreadId} (h : Inv task s loose) (t : ThreadId)
    (w : WindowId) :
    Inv task (s.setWindow w { s.windows w with
      threadsWaitingUnlock := (s.windows w).threadsWaitingUnlock ++ [t] }) loose := by
  have hold := h.scheduled.window w
  refine ⟨h.scheduled.setWindow
    ⟨hold.mode, hold.held, hold.free, hold.shared, hold.waiting, hold.operations⟩ rfl
    (fun u hu => List.mem_append_left [t] hu) fun _ _ _ _ hin => hin,
    h.transfers.setWindow rfl, fun u => ?_⟩
  have hheld := heldBy_eq (s := s) (w := w) { s.windows w with
    threadsWaitingUnlock := (s.windows w).threadsWaitingUnlock ++ [t] } rfl u
  rw [hheld]
  exact h.programs u

/-! ## Steps and runs -/

/-- The first thread of a task that is in the queue of the unlocks of a window. -/
def firstWaiting (task : ThreadId → TaskId) (s : State) (t : ThreadId) (w : WindowId) :
    Option ThreadId :=
  (s.windows w).threadsWaitingUnlock.find? fun u => task u == task t

/-- Only a thread with a lock starts transfers, an unlock that is done is that of the only lock, and
where the last operation of a task completes, the first of its threads in the queue of the unlocks
is the only one that waits for one. -/
def Orderly (task : ThreadId → TaskId) (s : State) : Label → Prop
  | .dispatch t _ =>
      (∀ w rest, s.actions t = .getput w :: rest → t ∈ (s.windows w).threadsWithLock) ∧
        ∀ w rest, s.actions t = .unlock w :: rest →
          ofTask task (s.windows w).lockOperations t = false →
          (s.windows w).threadsWithLock.length ≤ 1
  | .completed t w =>
      ofTask task ((s.windows w).lockOperations.erase t) t = false →
        (∀ u, task u = task t → u ∉ s.ready → UnlocksNext (s.actions u) w →
          firstWaiting task s t w = some u) ∧
        ∀ u, firstWaiting task s t w = some u →
          u ∉ s.ready ∧ UnlocksNext (s.actions u) w ∧ (s.windows w).threadsWithLock.length ≤ 1

def Label.thread : Label → Option ThreadId
  | .dispatch t _ => some t
  | .completed _ _ => none

/-- A step goes on with threads that wait, each past one action, and an unlock is done when no
operation of its task is left. -/
structure Resumes (task : ThreadId → TaskId) (s : State) (l : Label) (s' : State) : Prop where
  went : ∀ t, s'.actions t ≠ s.actions t →
    l.thread = some t ∨ (t ∉ s.ready ∧ s'.actions t = (s.actions t).tail)
  unlocked : ∀ t w, UnlocksNext (s.actions t) w → s'.actions t ≠ s.actions t →
    ∀ u ∈ (s'.windows w).lockOperations, task u ≠ task t

/-- An exclusive lock is alone, a window that is locked or waited for is in lock mode, a thread
waits in one queue once, and what it waits for is under way. -/
structure Good (task : ThreadId → TaskId) (s : State) : Prop where
  exclusive : ∀ w, (s.windows w).lockMode = .exclusive →
    (s.windows w).threadsWithLock.length ≤ 1
  locked : ∀ w, (s.windows w).threadsWithLock ≠ [] ∨ (s.windows w).threadsWaitingLock ≠ [] →
    (s.windows w).mode = .lock
  holder : ∀ w, (s.windows w).threadsWaitingLock ≠ [] → (s.windows w).threadsWithLock ≠ []
  ready : s.ready.Nodup
  waitingNodup : ∀ w, (s.windows w).threadsWaitingLock.Nodup
  waitingLock : ∀ w, ∀ t ∈ (s.windows w).threadsWaitingLock,
    t ∉ s.ready ∧ LocksNext (s.actions t) w
  waiting : ∀ t, t ∉ s.ready → s.actions t ≠ [] →
    (∃ w, LocksNext (s.actions t) w ∧ t ∈ (s.windows w).threadsWaitingLock) ∨
      ∃ w, UnlocksNext (s.actions t) w ∧ t ∈ (s.windows w).threadsWaitingUnlock ∧
        ∃ u, task u = task t ∧ (Transfer.mk u w ∈ s.inFlight ∨ u ∈ s.ready)

theorem Inv.ready_of_starting {s : State} (h : Inv task s []) {t : ThreadId}
    (hflag : s.doingStartup t = true ∨ s.startupDone t = true) : t ∈ s.ready := by
  by_contra hready
  have hhead : ∃ action rest, s.actions t = action :: rest ∧
      (action = .work ∨ ∃ w, action = .getput w) := by
    rcases hflag with hstartup | hdone
    · obtain ⟨-, w, rest, hactions⟩ := h.transfers.startup t hstartup
      exact ⟨.work, .getput w :: rest, hactions, Or.inl rfl⟩
    · obtain ⟨w, rest, hactions⟩ := h.transfers.done t hdone
      exact ⟨.getput w, rest, hactions, Or.inr ⟨w, rfl⟩⟩
  obtain ⟨action, rest, hactions, hkind⟩ := hhead
  have hne : s.actions t ≠ [] := by
    rw [hactions]
    exact List.cons_ne_nil _ _
  rcases h.scheduled.blocked t hready List.not_mem_nil hne with
    ⟨w, ⟨mode, target, rest', hlock⟩, -⟩ | ⟨w, ⟨rest', hunlock⟩, -⟩
  · rw [hactions] at hlock
    rw [(List.cons.inj hlock).1] at hkind
    rcases hkind with hwork | ⟨w', hgetput⟩
    · exact Action.noConfusion hwork
    · exact Action.noConfusion hgetput
  · rw [hactions] at hunlock
    rw [(List.cons.inj hunlock).1] at hkind
    rcases hkind with hwork | ⟨w', hgetput⟩
    · exact Action.noConfusion hwork
    · exact Action.noConfusion hgetput

theorem Inv.good {s : State} (h : Inv task s []) : Good task s := by
  refine ⟨fun w hexclusive => ?_, fun w hor => ?_, fun w => (h.scheduled.window w).waiting,
    h.scheduled.readyNodup, h.scheduled.waitingNodup, fun w t ht => ?_, fun t hready hnil => ?_⟩
  · rcases (h.scheduled.window w).shared with hone | hshared
    · exact hone
    · rw [hexclusive] at hshared
      exact LockMode.noConfusion hshared
  · apply (h.scheduled.window w).held
    exact hor.elim (fun hne => hne) (h.scheduled.window w).waiting
  · obtain ⟨hready, -, hnext⟩ := h.scheduled.waitingLock w t ht
    exact ⟨hready, hnext⟩
  · rcases h.scheduled.blocked t hready List.not_mem_nil hnil with hlock | ⟨w, hnext, hin, hops⟩
    · exact Or.inl hlock
    · refine Or.inr ⟨w, hnext, hin, ?_⟩
      obtain ⟨u, hu, hsame⟩ := ofTask_eq_true.mp hops
      refine ⟨u, hsame, ?_⟩
      have hcount := h.transfers.count u w
      have hpos : 0 < (s.windows w).lockOperations.count u := List.count_pos_iff.mpr hu
      by_cases hflight : Transfer.mk u w ∈ s.inFlight
      · exact Or.inl hflight
      · -- the operation is in its startup, and its thread is ready
        right
        have hzero := List.count_eq_zero_of_not_mem hflight
        have hstarting : 0 < starting s u w := by omega
        apply h.ready_of_starting
        by_contra hnot
        unfold starting at hstarting
        rw [if_neg fun hand => hnot hand.1] at hstarting
        exact absurd hstarting (Nat.lt_irrefl 0)

theorem Inv.resumes {s s' : State} (h : Inv task s []) {l : Label} {t : ThreadId}
    {w : WindowId} (hthread : l.thread = some t ∨ t ∉ s.ready)
    (hwent : ∀ u, s'.actions u = s.actions u ∨
      u ∈ t :: (s.windows w).threadsWaitingLock ∧ s'.actions u = (s.actions u).tail)
    (hunlocked : ∀ w, UnlocksNext (s.actions t) w → s'.actions t ≠ s.actions t →
      ∀ u ∈ (s'.windows w).lockOperations, task u ≠ task t) : Resumes task s l s' := by
  constructor
  · intro u hne
    rcases hwent u with hsame | ⟨hin, htail⟩
    · exact absurd hsame hne
    · rcases List.mem_cons.mp hin with heq | hwaiting
      · rw [heq] at htail ⊢
        exact hthread.imp_right fun hready => ⟨hready, htail⟩
      · exact Or.inr ⟨(h.scheduled.waitingLock w u hwaiting).1, htail⟩
  · intro u w' hnext hne
    rcases hwent u with hsame | ⟨hin, -⟩
    · exact absurd hsame hne
    · rcases List.mem_cons.mp hin with heq | hwaiting
      · rw [heq] at hnext hne ⊢
        exact hunlocked w' hnext hne
      · exact absurd (h.scheduled.waitingLock w u hwaiting).2.2 (not_locksNext hnext)

theorem resumes_self {s s' : State} {t : ThreadId} {startup : Bool}
    (hwent : ∀ u ≠ t, s'.actions u = s.actions u) (hnot : ∀ w, ¬UnlocksNext (s.actions t) w) :
    Resumes task s (.dispatch t startup) s' := by
  constructor
  · intro u hne
    by_cases hu : u = t
    · rw [hu]
      exact Or.inl rfl
    · exact absurd (hwent u hu) hne
  · intro u w hnext hne
    by_cases hu : u = t
    · rw [hu] at hnext
      exact absurd hnext (hnot w)
    · exact absurd (hwent u hu) hne

theorem Inv.dispatch {s : State} (h : Inv task s []) {t : ThreadId} (ht : t ∈ s.ready) :
    Inv task { s with ready := s.ready.erase t } [t] :=
  ⟨h.scheduled.dispatch ht, ⟨h.transfers.count, h.transfers.startup, h.transfers.done⟩, h.programs⟩

theorem Inv.enterLock {s : State} {loose : List ThreadId} (h : Inv task s loose) (w : WindowId)
    {action : Action} (haction : modeOf action = .lock) :
    Inv task (enter s w action) loose ∧ ((enter s w action).windows w).mode = .lock ∧
      (enter s w action).actions = s.actions := by
  have hold := h.scheduled.window w
  unfold enter
  split
  next hmode =>
    set win := { s.windows w with mode := modeOf action }
    have hscheduled : Scheduled task (s.setWindow w win) loose :=
      h.scheduled.setWindow ⟨Or.inr haction, fun _ => haction, hold.free, hold.shared, hold.waiting,
        hold.operations⟩ rfl (fun _ hin => hin) fun _ _ _ _ hin => hin
    refine ⟨⟨hscheduled, h.transfers.setWindow rfl, fun u => ?_⟩, ?_, rfl⟩
    · rw [heldBy_eq win rfl]
      exact h.programs u
    · rw [setWindow_self]
      exact haction
  next hmode => exact ⟨h, hold.mode.resolve_left hmode, rfl⟩

theorem enter_of_lock {s : State} {w : WindowId} (hmode : (s.windows w).mode = .lock)
    (action : Action) : enter s w action = s := by
  unfold enter
  rw [hmode, if_neg (by decide)]

theorem oneSidedOperation_getput {s : State} {t : ThreadId} {w : WindowId} {startup : Bool}
    (hmode : (s.windows w).mode = .lock) :
    oneSidedOperation task s t startup (.getput w) = some (osGetput s t w startup) := by
  simp only [oneSidedOperation, enter_of_lock hmode]
  rw [hmode, if_neg (by decide)]

theorem oneSidedOperation_unlock {s : State} {t : ThreadId} {w : WindowId} {startup : Bool}
    (hmode : (s.windows w).mode = .lock) :
    oneSidedOperation task s t startup (.unlock w) = osUnlock task s t w := by
  simp only [oneSidedOperation, enter_of_lock hmode]
  exact if_pos hmode

theorem step_completed (task : ThreadId → TaskId) {s : State} {t : ThreadId} {w : WindowId}
    (hmode : (s.windows w).mode = .lock) (hmem : t ∈ (s.windows w).lockOperations) :
    step task s (.completed t w) =
      match firstWaiting task s t w with
      | some u => osUnlock task (complete s t w) u w
      | none => some (complete s t w) := by
  have hextract : extract (s.windows w).lockOperations t =
      some ((s.windows w).lockOperations.erase t) := if_pos hmem
  simp only [step, osCompleted]
  split
  next hother => exact absurd (hother.symm.trans hmode) (by decide)
  next hother => exact absurd (hother.symm.trans hmode) (by decide)
  next hother => exact absurd (hother.symm.trans hmode) (by decide)
  next =>
    rw [hextract, Option.bind_some]
    rfl

/-- A step that is not a panic keeps the invariant and goes on with threads that wait. -/
def StepsWell (task : ThreadId → TaskId) (s : State) (l : Label) : Prop :=
  ∃ s', step task s l = some s' ∧ Inv task s' [] ∧ Resumes task s l s'

theorem stepsWell_work {s : State} {t : ThreadId} {startup : Bool} {rest : List Action}
    (h : Inv task s []) (ht : t ∈ s.ready) (hactions : s.actions t = .work :: rest) :
    StepsWell task s (.dispatch t startup) := by
  have hinv := h.dispatch ht
  set taken := { s with ready := s.ready.erase t }
  have hwork : taken.actions t = .work :: rest := hactions
  refine ⟨Windows.work taken t, by simp only [Windows.step, hactions]; rfl, hinv.work hwork,
    resumes_self (fun u hu => ?_) fun w hnext => ?_⟩
  · simp only [Windows.work]
    split <;> exact advance_of_ne _ hu
  · obtain ⟨rest', hunlock⟩ := hnext
    rw [hactions] at hunlock
    exact Action.noConfusion (List.cons.inj hunlock).1

theorem stepsWell_getput {s : State} {t : ThreadId} {startup : Bool} {w : WindowId}
    {rest : List Action} (h : Inv task s []) (ht : t ∈ s.ready)
    (hactions : s.actions t = .getput w :: rest) (hholds : t ∈ (s.windows w).threadsWithLock) :
    StepsWell task s (.dispatch t startup) := by
  have hinv := h.dispatch ht
  set taken := { s with ready := s.ready.erase t }
  have hgetput : taken.actions t = .getput w :: rest := hactions
  have hmode : (taken.windows w).mode = .lock :=
    (hinv.scheduled.window w).held (List.ne_nil_of_mem hholds)
  have hstep : step task s (.dispatch t startup) = some (osGetput taken t w startup) := by
    simp only [Windows.step, hactions]
    exact oneSidedOperation_getput hmode
  refine ⟨_, hstep, hinv.osGetput hgetput hmode hholds,
    resumes_self (fun u hu => ?_) fun w' hnext => ?_⟩
  · unfold Windows.osGetput
    rw [register_lock hmode]
    split
    · exact advance_of_ne _ hu
    · split
      · exact startUp_of_ne _ hu
      · exact advance_of_ne _ hu
  · obtain ⟨rest', hunlock⟩ := hnext
    rw [hactions] at hunlock
    exact Action.noConfusion (List.cons.inj hunlock).1

theorem stepsWell_lock {s : State} {t : ThreadId} {startup : Bool} {w : WindowId}
    {mode : LockMode} {target : TaskId} {rest : List Action} (h : Inv task s [])
    (ht : t ∈ s.ready) (hactions : s.actions t = .lock w mode target :: rest) :
    StepsWell task s (.dispatch t startup) := by
  have hinv := h.dispatch ht
  set taken := { s with ready := s.ready.erase t }
  obtain ⟨hentered, hmode, hsame⟩ := @Inv.enterLock _ _ _ hinv w (.lock w mode target) rfl
  have hlock : (enter taken w (.lock w mode target)).actions t = .lock w mode target :: rest :=
    (congrFun hsame t).trans hactions
  obtain ⟨hinv', hrelocked, -⟩ := hentered.osLock hlock hmode
  have hstep : step task s (.dispatch t startup) =
      some (osLock (enter taken w (.lock w mode target)) t w mode target) := by
    simp only [Windows.step, hactions, oneSidedOperation]
    exact if_pos hmode
  refine ⟨_, hstep, hinv', resumes_self (fun u hu => ?_) fun w' hnext => ?_⟩
  · rcases hrelocked.went u with hkept | ⟨hin, -⟩
    · exact hkept.trans (congrFun hsame u)
    · exact absurd (List.mem_singleton.mp hin) hu
  · exact not_locksNext hnext ⟨mode, target, rest, hactions⟩

theorem stepsWell_unlock {s : State} {t : ThreadId} {startup : Bool} {w : WindowId}
    {rest : List Action} (h : Inv task s []) (ht : t ∈ s.ready)
    (hactions : s.actions t = .unlock w :: rest)
    (halone : ofTask task (s.windows w).lockOperations t = false →
      (s.windows w).threadsWithLock.length ≤ 1) :
    StepsWell task s (.dispatch t startup) := by
  have hinv := h.dispatch ht
  set taken := { s with ready := s.ready.erase t }
  have hunlock : taken.actions t = .unlock w :: rest := hactions
  have hown := h.programs t
  rw [hactions] at hown
  have hholds : t ∈ (s.windows w).threadsWithLock := List.count_pos_iff.mp hown.1
  have hmode : (taken.windows w).mode = .lock :=
    (hinv.scheduled.window w).held (List.ne_nil_of_mem hholds)
  obtain ⟨s', hs', hinv', hrelocked, hdone⟩ := hinv.osUnlock hunlock hmode halone
  have hstep : step task s (.dispatch t startup) = some s' := by
    simp only [Windows.step, hactions]
    exact (oneSidedOperation_unlock hmode).trans hs'
  refine ⟨s', hstep, hinv', h.resumes (Or.inl rfl) hrelocked.went fun w' hnext hne => ?_⟩
  have hw : w' = w := unlocksNext_window hnext ⟨rest, hactions⟩
  rw [hw, hrelocked.operations w]
  exact ofTask_eq_false.mp (hdone hne)

theorem stepsWell_completedAlone {s : State} {t : ThreadId} {w : WindowId} (h : Inv task s [])
    (hin : Transfer.mk t w ∈ s.inFlight) (hfirst : firstWaiting task s t w = none) :
    StepsWell task s (.completed t w) := by
  obtain ⟨hmem, hmode⟩ := h.mem_lockOperations hin
  have hstep := step_completed task hmode hmem
  rw [hfirst] at hstep
  have hcomplete : Inv task (complete s t w) [] := by
    apply h.complete hin h.scheduled
    intro u hready hloose hnext hsame
    have hqueued := (h.scheduled.mem_waitingUnlock hready hloose hnext).1
    have hno := List.find?_eq_none.mp hfirst u hqueued
    exact absurd (beq_iff_eq.mpr hsame) hno
  exact ⟨_, hstep, hcomplete, fun u hne => absurd rfl hne, fun u w' _ hne => absurd rfl hne⟩

/-- The thread that waits is put into the queue once more, as its task has another transfer. -/
theorem stepsWell_completedPending {s : State} {t u : ThreadId} {w : WindowId} (h : Inv task s [])
    (hin : Transfer.mk t w ∈ s.inFlight) (hfirst : firstWaiting task s t w = some u)
    (hutask : task u = task t)
    (hops : ofTask task ((s.windows w).lockOperations.erase t) t = true) :
    StepsWell task s (.completed t w) := by
  obtain ⟨hmem, hmode⟩ := h.mem_lockOperations hin
  have hstep := step_completed task hmode hmem
  rw [hfirst] at hstep
  have hcomplete : Inv task (complete s t w) [] :=
    h.complete hin h.scheduled fun _ _ _ _ _ => hops
  have hoperations : ((complete s t w).windows w).lockOperations =
      (s.windows w).lockOperations.erase t := congrArg Window.lockOperations (setWindow_self _ _ _)
  have hpending : ofTask task ((complete s t w).windows w).lockOperations u = true := by
    rw [hoperations, ofTask_congr hutask]
    exact hops
  refine ⟨_, ?_, hcomplete.queueAgain u w, fun v hne => absurd rfl hne,
    fun v w' _ hne => absurd rfl hne⟩
  rw [hstep]
  exact if_pos hpending

/-- The thread that waits does its unlock behind the last transfer of its task. -/
theorem stepsWell_completedLast {s : State} {t u : ThreadId} {w : WindowId} (h : Inv task s [])
    (hin : Transfer.mk t w ∈ s.inFlight) (hfirst : firstWaiting task s t w = some u)
    (hall : ∀ v, task v = task t → v ∉ s.ready → UnlocksNext (s.actions v) w →
      firstWaiting task s t w = some v) (hready : u ∉ s.ready) (hnext : UnlocksNext (s.actions u) w)
    (hlength : (s.windows w).threadsWithLock.length ≤ 1) :
    StepsWell task s (.completed t w) := by
  obtain ⟨hmem, hmode⟩ := h.mem_lockOperations hin
  have hstep := step_completed task hmode hmem
  rw [hfirst] at hstep
  have hself : (complete s t w).windows w = { s.windows w with
      lockOperations := (s.windows w).lockOperations.erase t } := setWindow_self _ _ _
  have hmode' : ((complete s t w).windows w).mode = .lock := by rw [hself, hmode]
  have hcomplete : Inv task (complete s t w) [u] := by
    apply h.complete hin (h.scheduled.takeUp hready hnext)
    intro v hvready hloose hvnext hsame
    have heq := Option.some.inj (hfirst.symm.trans (hall v hsame hvready hvnext))
    exact absurd (List.mem_singleton.mpr heq.symm) hloose
  obtain ⟨rest, hactions⟩ := hnext
  have honly : ((complete s t w).windows w).threadsWithLock.length ≤ 1 := by
    rw [hself]
    exact hlength
  obtain ⟨s', hs', hinv', hrelocked, hdone⟩ := hcomplete.osUnlock hactions hmode' fun _ => honly
  have hwent := hrelocked.went
  rw [hself] at hwent
  refine ⟨s', hstep.trans hs', hinv', h.resumes (Or.inr hready) hwent fun w' hnext' hne => ?_⟩
  have hw : w' = w := unlocksNext_window hnext' ⟨rest, hactions⟩
  rw [hw, hrelocked.operations w]
  exact ofTask_eq_false.mp (hdone hne)

theorem inv_step {s : State} {l : Label} (h : Inv task s []) (henabled : Enabled s l)
    (ho : Orderly task s l) : StepsWell task s l := by
  cases l with
  | dispatch t startup =>
    have ht : t ∈ s.ready := henabled
    cases hactions : s.actions t with
    | nil => exact absurd hactions (h.scheduled.readyActions t ht)
    | cons action rest =>
      cases action with
      | work => exact stepsWell_work h ht hactions
      | getput w => exact stepsWell_getput h ht hactions (ho.1 w rest hactions)
      | lock w mode target => exact stepsWell_lock h ht hactions
      | unlock w => exact stepsWell_unlock h ht hactions (ho.2 w rest hactions)
  | completed t w =>
    cases hfirst : firstWaiting task s t w with
    | none => exact stepsWell_completedAlone h henabled hfirst
    | some u =>
      have hfound : (s.windows w).threadsWaitingUnlock.find? (fun v => task v == task t) = some u :=
        hfirst
      have hbeq := List.find?_some hfound
      have hutask : task u = task t := beq_iff_eq.mp hbeq
      cases hops : ofTask task ((s.windows w).lockOperations.erase t) t with
      | true => exact stepsWell_completedPending h henabled hfirst hutask hops
      | false =>
        obtain ⟨hall, hthis⟩ := ho hops
        obtain ⟨hready, hnext, hlength⟩ := hthis u hfirst
        exact stepsWell_completedLast h henabled hfirst hall hready hnext hlength

/-- What holds of every step of a sequence in the state in which it is done. -/
def Always (task : ThreadId → TaskId) (P : State → Label → Prop) : State → List Label → Prop
  | _, [] => True
  | s, l :: ls => P s l ∧ ∀ s', step task s l = some s' → Always task P s' ls

/-- All states of a sequence of steps are good, and no step panics or goes on with a thread that
does not wait. -/
def Behaves (task : ThreadId → TaskId) : State → List Label → Prop
  | s, [] => Good task s
  | s, l :: ls =>
      Good task s ∧ ∃ s', step task s l = some s' ∧ Resumes task s l s' ∧ Behaves task s' ls

theorem Inv.behaves {ls : List Label} : ∀ {s : State}, Inv task s [] →
    Always task (fun s l => Enabled s l ∧ Orderly task s l) s ls → Behaves task s ls := by
  induction ls with
  | nil => exact fun h _ => h.good
  | cons l ls ih =>
    intro s h ho
    obtain ⟨s', hs', hinv, hresumes⟩ := inv_step h ho.1.1 ho.1.2
    exact ⟨h.good, s', hs', hresumes, ih hinv (ho.2 s' hs')⟩

theorem inv_initial {programs : List (List Action)}
    (hprograms : ∀ program ∈ programs, UnlocksOwn (fun _ => 0) program) :
    Inv task (State.initial programs) [] := by
  have hmem (t : ThreadId) : t ∈ (State.initial programs).ready ↔ programs.getD t [] ≠ [] := by
    have hlt : programs.getD t [] ≠ [] → t < programs.length := by
      intro hne
      by_contra hge
      exact hne (List.getD_eq_default _ _ (Nat.le_of_not_lt hge))
    simp only [State.initial, List.mem_filter, List.mem_range, decide_eq_true_eq]
    exact ⟨fun h => h.2, fun h => ⟨hlt h, h⟩⟩
  have hwindow : WindowInv Window.initial :=
    ⟨Or.inl rfl, fun hne => absurd rfl hne, ⟨fun _ => rfl, fun _ => rfl⟩, Or.inl (Nat.zero_le 1),
      fun hne => absurd rfl hne, fun t ht => absurd ht List.not_mem_nil⟩
  refine ⟨⟨fun _ => hwindow, List.nodup_range.filter _, fun t ht => (hmem t).mp ht, List.nodup_nil,
    fun t ht => absurd ht List.not_mem_nil, fun _ => List.nodup_nil,
    fun w t ht => absurd ht List.not_mem_nil,
    fun t hready _ hne => absurd ((hmem t).mpr hne) hready⟩,
    ⟨fun t w => ?_, fun t ht => absurd ht Bool.false_ne_true,
      fun t ht => absurd ht Bool.false_ne_true⟩, fun t => ?_⟩
  · have hzero : starting (State.initial programs) t w = 0 := starting_of_not rfl rfl w
    rw [hzero]
    rfl
  · have hheld : heldBy (State.initial programs) t = fun _ => 0 := rfl
    rw [hheld]
    have hactions : (State.initial programs).actions t = programs.getD t [] := rfl
    rw [hactions]
    by_cases hlt : t < programs.length
    · rw [List.getD_eq_getElem _ _ hlt]
      exact hprograms _ (List.getElem_mem hlt)
    · rw [List.getD_eq_default _ _ (Nat.le_of_not_lt hlt)]
      trivial

/-- The one-sided locks of threads that unlock what they locked behave in every sequence of steps
that meet the condition. -/
theorem locks_behave {programs : List (List Action)} {ls : List Label}
    (hprograms : ∀ program ∈ programs, UnlocksOwn (fun _ => 0) program)
    (ho : Always task (fun s l => Enabled s l ∧ Orderly task s l) (State.initial programs) ls) :
    Behaves task (State.initial programs) ls :=
  (inv_initial hprograms).behaves ho

theorem always_cons {P : State → Label → Prop} {s s' : State} {l : Label} {ls : List Label}
    (hl : P s l) (hs : step task s l = some s') (hls : Always task P s' ls) :
    Always task P s (l :: ls) := by
  refine ⟨hl, fun t ht => ?_⟩
  rw [hs] at ht
  rw [← Option.some.inj ht]
  exact hls

theorem orderly_lock {s : State} {t : ThreadId} {w : WindowId} {mode : LockMode} {target : TaskId}
    {rest : List Action} (hactions : s.actions t = .lock w mode target :: rest) (startup : Bool) :
    Orderly task s (.dispatch t startup) := by
  constructor
  all_goals
    intro w' rest' hnext
    rw [hactions] at hnext
    exact Action.noConfusion (List.cons.inj hnext).1

theorem orderly_getput {s : State} {t : ThreadId} {w : WindowId} {rest : List Action}
    (hactions : s.actions t = .getput w :: rest) (hholds : t ∈ (s.windows w).threadsWithLock)
    (startup : Bool) : Orderly task s (.dispatch t startup) := by
  constructor
  · intro w' rest' hnext
    rw [hactions] at hnext
    rw [← Action.getput.inj (List.cons.inj hnext).1]
    exact hholds
  · intro w' rest' hnext
    rw [hactions] at hnext
    exact Action.noConfusion (List.cons.inj hnext).1

theorem orderly_unlock {s : State} {t : ThreadId} {w : WindowId} {rest : List Action}
    (hactions : s.actions t = .unlock w :: rest)
    (halone : ofTask task (s.windows w).lockOperations t = false →
      (s.windows w).threadsWithLock.length ≤ 1)
    (startup : Bool) : Orderly task s (.dispatch t startup) := by
  constructor
  · intro w' rest' hnext
    rw [hactions] at hnext
    exact Action.noConfusion (List.cons.inj hnext).1
  · intro w' rest' hnext
    rw [hactions] at hnext
    rw [← Action.unlock.inj (List.cons.inj hnext).1]
    exact halone

theorem orderly_work {s : State} {t : ThreadId} {rest : List Action}
    (hactions : s.actions t = .work :: rest) (startup : Bool) :
    Orderly task s (.dispatch t startup) := by
  constructor
  all_goals
    intro w' rest' hnext
    rw [hactions] at hnext
    exact Action.noConfusion (List.cons.inj hnext).1

/-- Two tasks that lock a window for themselves, put something into it and unlock it. -/
def twoExclusive : List (List Action) :=
  [[.lock 1 .exclusive 0, .getput 1, .unlock 1], [.lock 1 .exclusive 0, .getput 1, .unlock 1]]

/-- The second task waits for the lock. The first one waits at its unlock until its transfer
completes, and that of the second one, which has a startup, completes before its unlock. -/
def contendedLabels : List Label :=
  [.dispatch 0 false, .dispatch 1 false, .dispatch 0 false, .dispatch 0 false, .completed 0 1,
    .dispatch 1 true, .dispatch 1 false, .dispatch 1 false, .completed 1 1, .dispatch 1 false]

theorem behaves_contended : Behaves (fun t => t) (State.initial twoExclusive) contendedLabels := by
  apply locks_behave
  · have hown : UnlocksOwn (fun _ => 0) [.lock 1 .exclusive 0, .getput 1, .unlock 1] :=
      ⟨Nat.zero_lt_one, trivial⟩
    exact List.forall_mem_cons.mpr ⟨hown, List.forall_mem_singleton.mpr hown⟩
  · apply always_cons ⟨by decide, orderly_lock rfl false⟩ rfl
    apply always_cons ⟨by decide, orderly_lock rfl false⟩ rfl
    apply always_cons ⟨by decide, orderly_getput rfl (by decide) false⟩ rfl
    apply always_cons ⟨by decide, orderly_unlock rfl (fun _ => by decide) false⟩ rfl
    refine always_cons ⟨by decide, fun _ => ⟨?_, ?_⟩⟩ rfl ?_
    · intro u htask _ _
      have hu : u = 0 := htask
      rw [hu]
      rfl
    · intro u hfirst
      have hu : 0 = u := Option.some.inj hfirst
      rw [← hu]
      exact ⟨by decide, ⟨[], rfl⟩, by decide⟩
    apply always_cons ⟨by decide, orderly_getput rfl (by decide) true⟩ rfl
    apply always_cons ⟨by decide, orderly_work rfl false⟩ rfl
    apply always_cons ⟨by decide, orderly_getput rfl (by decide) false⟩ rfl
    refine always_cons ⟨by decide, fun _ => ⟨?_, ?_⟩⟩ rfl ?_
    · intro u htask hready _
      have hu : u = 1 := htask
      rw [hu] at hready
      exact absurd (by decide) hready
    · intro u hfirst
      cases hfirst
    exact always_cons ⟨by decide, orderly_unlock rfl (fun _ => by decide) false⟩ rfl trivial

def twoShared : List (List Action) :=
  [[.lock 1 .shared 0, .unlock 1], [.lock 1 .shared 0, .unlock 1]]

/-- When the first task unlocks the window, it is in no mode, and the second one has its lock. -/
theorem not_locks_behave :
    ¬ ∀ (task : ThreadId → TaskId) (programs : List (List Action)) (ls : List Label),
      (∀ program ∈ programs, UnlocksOwn (fun _ => 0) program) →
      Always task Enabled (State.initial programs) ls →
      Behaves task (State.initial programs) ls := by
  intro h
  have hprogram : UnlocksOwn (fun _ => 0) [.lock 1 .shared 0, .unlock 1] :=
    ⟨Nat.zero_lt_one, trivial⟩
  have hprograms : ∀ program ∈ twoShared, UnlocksOwn (fun _ => 0) program :=
    List.forall_mem_cons.mpr ⟨hprogram, List.forall_mem_singleton.mpr hprogram⟩
  have henabled : Always (fun t => t) Enabled (State.initial twoShared)
      [.dispatch 0 false, .dispatch 1 false, .dispatch 0 false] := by
    apply always_cons (by decide) rfl
    apply always_cons (by decide) rfl
    exact always_cons (by decide) rfl trivial
  obtain ⟨-, s₁, hs₁, -, -, s₂, hs₂, -, -, s₃, hs₃, -, hgood⟩ :=
    h (fun t => t) twoShared _ hprograms henabled
  rw [← Option.some.inj hs₁] at hs₂
  rw [← Option.some.inj hs₂] at hs₃
  have hheld : (s₃.windows 1).threadsWithLock ≠ [] := by
    rw [← Option.some.inj hs₃]
    decide
  have hmode : (s₃.windows 1).mode = .none := by
    rw [← Option.some.inj hs₃]
    rfl
  exact absurd (hmode.symm.trans (hgood.locked 1 (Or.inl hheld))) (by decide)

end

end Dimemas.Model.Windows
