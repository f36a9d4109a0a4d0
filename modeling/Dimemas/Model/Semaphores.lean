import Mathlib.Logic.Function.Basic
import Dimemas.Library.Transitions
/-!
# Semaphores

The semaphores of a task (`semaphore.c`), with the actions of its threads as far as `more_actions`
and `SCHEDULER_thread_to_ready` look at them. What the calls did is kept as a history, so that the
threads that block, pass and wake up can be counted over whole runs.
-/

namespace Dimemas.Model.Semaphores

open Dimemas.Library.Transitions

abbrev ThreadId := Nat

def MAX_SEMAPHORES : Int := 100

inductive SemOp where
  | wait
  | signal
  | signalN (n : Int)
deriving DecidableEq, Repr

inductive Action where
  | dead
  | work
  | sem (semId : Int) (op : SemOp)
  | other
deriving DecidableEq, Repr

/-- `actions` is the list from `thread->action` on, and `unread` are the actions that
`READ_get_next_action` still has for the thread. -/
structure Thread where
  actions : List Action
  unread : List Action
  looseCpu : Bool
deriving DecidableEq, Repr

/-- A negative `counter` counts the threads in `threads`. -/
structure Semaphore where
  counter : Int
  threads : List ThreadId
deriving DecidableEq, Repr

/-- What a call did at a semaphore. -/
inductive Event where
  | signalled (semId : Int)
  | awaked (semId : Int) (thread : ThreadId)
  | passed (semId : Int) (thread : ThreadId)
  | blocked (semId : Int) (thread : ThreadId)
deriving DecidableEq, Repr

/-- `ready` lists the threads given to the policy's `thread_to_ready`, oldest first. -/
structure State where
  threads : ThreadId → Thread
  semaphores : Int → Semaphore
  ready : List ThreadId
  history : List Event

def State.init (threads : ThreadId → Thread) : State :=
  ⟨threads, fun _ => ⟨0, []⟩, [], []⟩

/-! ## Actions and readiness -/

def readGetNextAction (thread : Thread) : Thread :=
  match thread.unread with
  | [] => thread
  | action :: unread => { thread with actions := [action], unread := unread }

/-- The thread after `more_actions`, which reads the next action of a thread that has none. -/
def fetchAction (thread : Thread) : Thread :=
  if thread.actions = [] then readGetNextAction thread else thread

def alive (thread : Thread) : Bool :=
  match thread.actions with
  | [] => false
  | .dead :: _ => false
  | _ => true

/-- What `more_actions` answers. `reload_Ptasks` is never set. -/
def State.hasActions (s : State) (t : ThreadId) : Bool :=
  alive (fetchAction (s.threads t))

def State.fetchAction (s : State) (t : ThreadId) : State :=
  { s with threads := Function.update s.threads t (Semaphores.fetchAction (s.threads t)) }

/-- `SCHEDULER_thread_to_ready` panics for a thread without actions. In front of any other action
than WORK it puts a WORK of no time. -/
def schedulerThreadToReady (s : State) (t : ThreadId) : Option State :=
  if s.hasActions t then
    let thread := fetchAction (s.threads t)
    let actions :=
      if thread.actions.head? = some .work then thread.actions else .work :: thread.actions
    some { s with
      threads := Function.update s.threads t { thread with actions := actions }
      ready := s.ready ++ [t] }
  else none

/-! ## The calls -/

/-- The semaphores of a task are numbered from one, and any other number panics. -/
def validSemaphore (semId : Int) : Bool :=
  1 ≤ semId && semId ≤ MAX_SEMAPHORES

def State.setSemaphore (s : State) (semId : Int) (sem : Semaphore) (event : Event) : State :=
  { s with
    semaphores := Function.update s.semaphores semId sem
    history := s.history ++ [event] }

/-- `SEMAPHORE_signal`. Whether the thread that waits becomes ready is asked of the thread that
signals. -/
def semaphoreSignal (semId : Int) (t : ThreadId) (s : State) : Option State :=
  let sem := s.semaphores semId
  if validSemaphore semId then
    if 0 ≤ sem.counter then
      some (s.setSemaphore semId { sem with counter := sem.counter + 1 } (.signalled semId))
    else
      match sem.threads with
      | [] => none
      | awaked :: waiting =>
          let s := s.setSemaphore semId ⟨sem.counter + 1, waiting⟩ (.awaked semId awaked)
          if s.hasActions t then schedulerThreadToReady (s.fetchAction t) awaked
          else some (s.fetchAction t)
  else none

def semaphoreSignalN (semId : Int) (t : ThreadId) : Nat → State → Option State
  | 0, s => some s
  | n + 1, s => (semaphoreSignal semId t s).bind (semaphoreSignalN semId t n)

def State.setLooseCpu (s : State) (t : ThreadId) (looseCpu : Bool) : State :=
  { s with
    threads := Function.update s.threads t { s.threads t with looseCpu := looseCpu } }

def semaphoreWait (semId : Int) (t : ThreadId) (s : State) : Option State :=
  let sem := s.semaphores semId
  if validSemaphore semId then
    if 0 < sem.counter then
      let s := s.setSemaphore semId { sem with counter := sem.counter - 1 } (.passed semId t)
      if s.hasActions t then schedulerThreadToReady ((s.fetchAction t).setLooseCpu t false) t
      else some (s.fetchAction t)
    else
      let s := s.setSemaphore semId ⟨sem.counter - 1, sem.threads ++ [t]⟩ (.blocked semId t)
      some (s.setLooseCpu t true)
  else none

/-- The calls, and whatever else a thread does between two of them. -/
inductive Call where
  | signal (semId : Int) (t : ThreadId)
  | signalN (semId : Int) (n : Int) (t : ThreadId)
  | wait (semId : Int) (t : ThreadId)
  | runs (t : ThreadId) (thread : Thread)

def step (s : State) : Call → Option State
  | .signal semId t => semaphoreSignal semId t s
  | .signalN semId n t => semaphoreSignalN semId t n.toNat s
  | .wait semId t => semaphoreWait semId t s
  | .runs t thread => some { s with threads := Function.update s.threads t thread }

/-- The case SEM of the dispatcher in `schedule.c`. Only a wait takes its own action off the list
before the call. -/
def dispatchSem (t : ThreadId) (s : State) : Option State :=
  let thread := s.threads t
  match thread.actions with
  | .sem semId op :: next =>
      let pop (s : State) : State :=
        { s with threads := Function.update s.threads t { s.threads t with actions := next } }
      let proceed (s : State) : Option State :=
        if s.hasActions t then schedulerThreadToReady ((s.fetchAction t).setLooseCpu t false) t
        else some (s.fetchAction t)
      match op with
      | .wait => semaphoreWait semId t (pop s)
      | .signal => (semaphoreSignal semId t s).bind fun s => proceed (pop s)
      | .signalN n => (semaphoreSignalN semId t n.toNat s).bind fun s => proceed (pop s)
  | _ => none

/-! ## What more actions and readiness leave alone -/

theorem fetchAction_fetchAction (thread : Thread) :
    fetchAction (fetchAction thread) = fetchAction thread := by
  by_cases hnone : thread.actions = []
  · have hread : fetchAction thread = readGetNextAction thread := if_pos hnone
    rw [hread]
    cases hunread : thread.unread with
    | nil =>
        have hsame : readGetNextAction thread = thread := by rw [readGetNextAction, hunread]
        rw [hsame, hread, hsame]
    | cons action unread =>
        rw [readGetNextAction, hunread]
        exact if_neg (List.cons_ne_nil action [])
  · have hsame : fetchAction thread = thread := if_neg hnone
    rw [hsame, hsame]

theorem fetchAction_of_actions {thread : Thread} (h : thread.actions ≠ []) :
    fetchAction thread = thread :=
  if_neg h

@[simp] theorem State.hasActions_fetchAction (s : State) (t u : ThreadId) :
    (s.fetchAction t).hasActions u = s.hasActions u := by
  show alive (Semaphores.fetchAction (Function.update s.threads t _ u)) = s.hasActions u
  by_cases hut : u = t
  · rw [hut, Function.update_self, fetchAction_fetchAction]
    rfl
  · rw [Function.update_of_ne hut]
    rfl

/-- `SCHEDULER_thread_to_ready` gives the thread to the policy and changes nothing else that the
semaphores look at. -/
theorem schedulerThreadToReady_eq_some {s s' : State} {t : ThreadId}
    (h : schedulerThreadToReady s t = some s') :
    s.hasActions t = true ∧ s'.ready = s.ready ++ [t] ∧ s'.semaphores = s.semaphores ∧
      s'.history = s.history ∧ ∀ u, s'.hasActions u = s.hasActions u := by
  unfold schedulerThreadToReady at h
  split at h
  · next hmore =>
      obtain rfl := Option.some.inj h
      refine ⟨hmore, rfl, rfl, rfl, fun u => ?_⟩
      show alive (fetchAction (Function.update s.threads t _ u)) = s.hasActions u
      by_cases hut : u = t
      · rw [hut, Function.update_self, hmore]
        split
        · next hwork =>
            obtain ⟨next, hnext⟩ := List.head?_eq_some_iff.mp hwork
            rw [fetchAction_of_actions (by simp [hnext]), alive]
            simp [hnext]
        · rw [fetchAction_of_actions (List.cons_ne_nil _ _)]
          rfl
      · rw [Function.update_of_ne hut]
        rfl
  · exact absurd h (by simp)

/-! ## What the calls have done -/

def awakedAt (semId : Int) (history : List Event) : List ThreadId :=
  history.filterMap fun
    | .awaked id t => if id = semId then some t else none
    | _ => none

def passedAt (semId : Int) (history : List Event) : List ThreadId :=
  history.filterMap fun
    | .passed id t => if id = semId then some t else none
    | _ => none

def blockedAt (semId : Int) (history : List Event) : List ThreadId :=
  history.filterMap fun
    | .blocked id t => if id = semId then some t else none
    | _ => none

def signalsAt (semId : Int) (history : List Event) : Nat :=
  history.countP fun
    | .signalled id => id = semId
    | .awaked id _ => id = semId
    | _ => false

def waitsPassed (semId : Int) (history : List Event) : Nat :=
  (passedAt semId history).length + (awakedAt semId history).length

/-- What `n` signals do at a semaphore where the threads of the list wait. -/
def signalEvents (semId : Int) : Nat → List ThreadId → List Event
  | 0, _ => []
  | n + 1, [] => .signalled semId :: signalEvents semId n []
  | n + 1, t :: waiting => .awaked semId t :: signalEvents semId n waiting

section signalEvents

variable (semId : Int) (n : Nat) (waiting : List ThreadId)

@[simp] theorem awakedAt_signalEvents :
    awakedAt semId (signalEvents semId n waiting) = waiting.take n := by
  fun_induction signalEvents semId n waiting with
  | case1 => rfl
  | case2 n ih => simpa [awakedAt] using ih
  | case3 n t waiting ih => simpa [awakedAt] using ih

@[simp] theorem passedAt_signalEvents (id : Int) :
    passedAt id (signalEvents semId n waiting) = [] := by
  fun_induction signalEvents semId n waiting with
  | case1 => rfl
  | case2 n ih => simpa [passedAt] using ih
  | case3 n t waiting ih => simpa [passedAt] using ih

@[simp] theorem blockedAt_signalEvents (id : Int) :
    blockedAt id (signalEvents semId n waiting) = [] := by
  fun_induction signalEvents semId n waiting with
  | case1 => rfl
  | case2 n ih => simpa [blockedAt] using ih
  | case3 n t waiting ih => simpa [blockedAt] using ih

@[simp] theorem signalsAt_signalEvents :
    signalsAt semId (signalEvents semId n waiting) = n := by
  fun_induction signalEvents semId n waiting with
  | case1 => rfl
  | case2 n ih => simpa [signalsAt] using ih
  | case3 n t waiting ih => simpa [signalsAt] using ih

variable {semId} in
theorem awakedAt_signalEvents_of_ne {id : Int} (h : id ≠ semId) :
    awakedAt id (signalEvents semId n waiting) = [] := by
  fun_induction signalEvents semId n waiting with
  | case1 => rfl
  | case2 n ih => simpa [awakedAt] using ih
  | case3 n t waiting ih => simpa [awakedAt, h.symm] using ih

variable {semId} in
theorem signalsAt_signalEvents_of_ne {id : Int} (h : id ≠ semId) :
    signalsAt id (signalEvents semId n waiting) = 0 := by
  fun_induction signalEvents semId n waiting with
  | case1 => rfl
  | case2 n ih => simpa [signalsAt, h.symm] using ih
  | case3 n t waiting ih => simpa [signalsAt, h.symm] using ih

end signalEvents

section append

variable (semId : Int) (before after : List Event)

theorem awakedAt_append :
    awakedAt semId (before ++ after) = awakedAt semId before ++ awakedAt semId after :=
  List.filterMap_append

theorem passedAt_append :
    passedAt semId (before ++ after) = passedAt semId before ++ passedAt semId after :=
  List.filterMap_append

theorem blockedAt_append :
    blockedAt semId (before ++ after) = blockedAt semId before ++ blockedAt semId after :=
  List.filterMap_append

theorem signalsAt_append :
    signalsAt semId (before ++ after) = signalsAt semId before + signalsAt semId after :=
  List.countP_append

end append

/-! ## The accounts of a semaphore -/

/-- The threads in the queue are those that blocked and have not been awaked, in that order, and
the counter is what the signals exceed the waits by. -/
structure Accounted (semId : Int) (sem : Semaphore) (history : List Event) : Prop where
  length : sem.threads.length = (-sem.counter).toNat
  fifo : blockedAt semId history = awakedAt semId history ++ sem.threads
  counter : sem.counter + (passedAt semId history).length + (blockedAt semId history).length =
    signalsAt semId history

def AllAccounted (s : State) : Prop :=
  ∀ semId, Accounted semId (s.semaphores semId) s.history

theorem allAccounted_init (threads : ThreadId → Thread) : AllAccounted (State.init threads) :=
  fun _ => ⟨rfl, rfl, rfl⟩

theorem Accounted.waitsPassed_le {semId : Int} {sem : Semaphore} {history : List Event}
    (h : Accounted semId sem history) : waitsPassed semId history ≤ signalsAt semId history := by
  have hlength := h.length
  have hcounter := h.counter
  rw [h.fifo, List.length_append] at hcounter
  unfold waitsPassed
  omega

theorem Accounted.signals {semId : Int} {sem : Semaphore} {history : List Event}
    (h : Accounted semId sem history) (n : Nat) :
    Accounted semId ⟨sem.counter + n, sem.threads.drop n⟩
      (history ++ signalEvents semId n sem.threads) where
  length := by
    have hlength := h.length
    show (sem.threads.drop n).length = (-(sem.counter + n)).toNat
    rw [List.length_drop]
    omega
  fifo := by
    rw [blockedAt_append, blockedAt_signalEvents, awakedAt_append, awakedAt_signalEvents, h.fifo]
    simp
  counter := by
    have hcounter := h.counter
    rw [blockedAt_append, blockedAt_signalEvents, passedAt_append, passedAt_signalEvents,
      signalsAt_append, signalsAt_signalEvents]
    simp only [List.append_nil]
    omega

theorem Accounted.signals_of_ne {semId id : Int} {sem : Semaphore} {history : List Event}
    (h : Accounted id sem history) (hne : id ≠ semId) (n : Nat) (waiting : List ThreadId) :
    Accounted id sem (history ++ signalEvents semId n waiting) where
  length := h.length
  fifo := by
    rw [blockedAt_append, blockedAt_signalEvents, awakedAt_append,
      awakedAt_signalEvents_of_ne n waiting hne, h.fifo]
    simp
  counter := by
    have hcounter := h.counter
    rw [blockedAt_append, blockedAt_signalEvents, passedAt_append, passedAt_signalEvents,
      signalsAt_append, signalsAt_signalEvents_of_ne n waiting hne]
    simpa using hcounter

theorem Accounted.pass {semId : Int} {sem : Semaphore} {history : List Event} {t : ThreadId}
    (h : Accounted semId sem history) (hpos : 0 < sem.counter) :
    Accounted semId { sem with counter := sem.counter - 1 }
      (history ++ [.passed semId t]) where
  length := by
    have hlength := h.length
    show sem.threads.length = (-(sem.counter - 1)).toNat
    omega
  fifo := by simpa [blockedAt, awakedAt] using h.fifo
  counter := by
    have hcounter := h.counter
    rw [passedAt_append, blockedAt_append, signalsAt_append]
    simp only [passedAt, blockedAt, signalsAt, List.length_append] at hcounter ⊢
    simp
    omega

theorem Accounted.block {semId : Int} {sem : Semaphore} {history : List Event} {t : ThreadId}
    (h : Accounted semId sem history) (hle : sem.counter ≤ 0) :
    Accounted semId ⟨sem.counter - 1, sem.threads ++ [t]⟩ (history ++ [.blocked semId t]) where
  length := by
    have hlength := h.length
    show (sem.threads ++ [t]).length = (-(sem.counter - 1)).toNat
    rw [List.length_append, List.length_singleton]
    omega
  fifo := by
    rw [blockedAt_append, awakedAt_append, h.fifo]
    simp [blockedAt, awakedAt]
  counter := by
    have hcounter := h.counter
    rw [passedAt_append, blockedAt_append, signalsAt_append, List.length_append]
    simp only [passedAt, blockedAt, signalsAt] at hcounter ⊢
    simp
    omega

theorem Accounted.wait_of_ne {semId id : Int} {sem : Semaphore} {history : List Event}
    {event : Event} (h : Accounted id sem history) (hne : id ≠ semId)
    (hevent : (∃ t, event = .passed semId t) ∨ ∃ t, event = .blocked semId t) :
    Accounted id sem (history ++ [event]) where
  length := h.length
  fifo := by
    have hfifo := h.fifo
    rw [blockedAt_append, awakedAt_append]
    obtain ⟨t, rfl⟩ | ⟨t, rfl⟩ := hevent <;> simpa [blockedAt, awakedAt, hne.symm] using hfifo
  counter := by
    have hcounter := h.counter
    rw [passedAt_append, blockedAt_append, signalsAt_append]
    obtain ⟨t, rfl⟩ | ⟨t, rfl⟩ := hevent <;>
      simpa [passedAt, blockedAt, signalsAt, hne.symm] using hcounter

/-! ## Signals and waits -/

/-- What `n` signals of a thread change. -/
structure Signals (semId : Int) (t : ThreadId) (n : Nat) (s s' : State) : Prop where
  semaphores : s'.semaphores = Function.update s.semaphores semId
    ⟨(s.semaphores semId).counter + n, (s.semaphores semId).threads.drop n⟩
  history : s'.history = s.history ++ signalEvents semId n (s.semaphores semId).threads
  ready : s'.ready =
    s.ready ++ if s.hasActions t then (s.semaphores semId).threads.take n else []
  hasActions : ∀ u, s'.hasActions u = s.hasActions u

theorem semaphoreSignal_of_awaked {semId : Int} {t awaked : ThreadId} {waiting : List ThreadId}
    {s s' : State} (hcounter : ¬ 0 ≤ (s.semaphores semId).counter)
    (hthreads : (s.semaphores semId).threads = awaked :: waiting)
    (h : semaphoreSignal semId t s = some s') :
    s'.semaphores =
        Function.update s.semaphores semId ⟨(s.semaphores semId).counter + 1, waiting⟩ ∧
      s'.history = s.history ++ [.awaked semId awaked] ∧
      s'.ready = s.ready ++ (if s.hasActions t then [awaked] else []) ∧
      ∀ u, s'.hasActions u = s.hasActions u := by
  simp only [semaphoreSignal, if_neg hcounter, hthreads] at h
  split at h
  · by_cases hmore : s.hasActions t = true
    · rw [if_pos (by exact hmore)] at h
      obtain ⟨-, hready, hsem, hhistory, hactions⟩ := schedulerThreadToReady_eq_some h
      rw [if_pos hmore]
      exact ⟨hsem, hhistory, hready, fun u => (hactions u).trans (State.hasActions_fetchAction _ t u)⟩
    · rw [if_neg (by exact hmore)] at h
      obtain rfl := Option.some.inj h
      rw [if_neg hmore]
      exact ⟨rfl, rfl, (List.append_nil _).symm, fun u => State.hasActions_fetchAction _ t u⟩
  · exact absurd h (by simp)

theorem semaphoreSignal_of_free {semId : Int} {t : ThreadId} {s s' : State}
    (hcounter : 0 ≤ (s.semaphores semId).counter) (h : semaphoreSignal semId t s = some s') :
    s' = s.setSemaphore semId
      { s.semaphores semId with counter := (s.semaphores semId).counter + 1 }
      (.signalled semId) := by
  simp only [semaphoreSignal, if_pos hcounter] at h
  split at h
  · exact (Option.some.inj h).symm
  · exact absurd h (by simp)

theorem signals_semaphoreSignal {semId : Int} {t : ThreadId} {s s' : State}
    (hacc : Accounted semId (s.semaphores semId) s.history)
    (h : semaphoreSignal semId t s = some s') : Signals semId t 1 s s' := by
  have hlength := hacc.length
  by_cases hcounter : 0 ≤ (s.semaphores semId).counter
  · have hnone : (s.semaphores semId).threads = [] := List.eq_nil_of_length_eq_zero (by omega)
    rw [semaphoreSignal_of_free hcounter h]
    constructor
    · show Function.update s.semaphores semId ⟨_, (s.semaphores semId).threads⟩ = _
      rw [hnone]
      rfl
    · rw [hnone]
      rfl
    · simp [hnone, State.setSemaphore]
    · exact fun _ => rfl
  · cases hthreads : (s.semaphores semId).threads with
    | nil =>
        rw [hthreads, List.length_nil] at hlength
        omega
    | cons awaked waiting =>
        obtain ⟨hsem, hhistory, hready, hactions⟩ := semaphoreSignal_of_awaked hcounter hthreads h
        constructor
        · rw [hsem, hthreads]
          rfl
        · rw [hhistory, hthreads]
          rfl
        · rw [hready, hthreads]
          rfl
        · exact hactions

theorem signalEvents_add (semId : Int) (m n : Nat) (waiting : List ThreadId) :
    signalEvents semId (m + n) waiting =
      signalEvents semId m waiting ++ signalEvents semId n (waiting.drop m) := by
  fun_induction signalEvents semId m waiting with
  | case1 => simp
  | case2 m ih => simpa [Nat.succ_add, signalEvents] using ih
  | case3 m t waiting ih => simpa [Nat.succ_add, signalEvents] using ih

theorem Signals.trans {semId : Int} {t : ThreadId} {m n : Nat} {s s₁ s₂ : State}
    (h₁ : Signals semId t m s s₁) (h₂ : Signals semId t n s₁ s₂) :
    Signals semId t (m + n) s s₂ := by
  have hsem : s₁.semaphores semId =
      ⟨(s.semaphores semId).counter + m, (s.semaphores semId).threads.drop m⟩ := by
    rw [h₁.semaphores, Function.update_self]
  refine ⟨?_, ?_, ?_, fun u => (h₂.hasActions u).trans (h₁.hasActions u)⟩
  · rw [h₂.semaphores, hsem, h₁.semaphores, Function.update_idem, List.drop_drop]
    simp [add_assoc]
  · rw [h₂.history, h₁.history, hsem, signalEvents_add, List.append_assoc]
  · rw [h₂.ready, h₁.ready, h₁.hasActions, hsem, List.append_assoc, List.take_add]
    split <;> rfl

theorem signals_zero (semId : Int) (t : ThreadId) (s : State) : Signals semId t 0 s s := by
  refine ⟨?_, ?_, ?_, fun _ => rfl⟩
  · simp
  · simp [signalEvents]
  · simp

theorem Signals.allAccounted {semId : Int} {t : ThreadId} {n : Nat} {s s' : State}
    (h : Signals semId t n s s') (hacc : AllAccounted s) : AllAccounted s' := by
  intro id
  rw [h.semaphores, h.history]
  by_cases hid : id = semId
  · rw [hid, Function.update_self]
    exact (hacc semId).signals n
  · rw [Function.update_of_ne hid]
    exact (hacc id).signals_of_ne hid n _

theorem signals_semaphoreSignalN {semId : Int} {t : ThreadId} {n : Nat} {s s' : State}
    (hacc : AllAccounted s) (h : semaphoreSignalN semId t n s = some s') :
    Signals semId t n s s' := by
  induction n generalizing s with
  | zero =>
      obtain rfl := Option.some.inj h
      exact signals_zero semId t s
  | succ n ih =>
      obtain ⟨s₁, hfirst, hrest⟩ := Option.bind_eq_some_iff.mp h
      have hone := signals_semaphoreSignal (hacc semId) hfirst
      have hmany := ih (hone.allAccounted hacc) hrest
      rw [Nat.add_comm]
      exact hone.trans hmany

/-- A wait passes or blocks, and never takes a thread off a queue. -/
theorem semaphoreWait_eq_some {semId : Int} {t : ThreadId} {s s' : State}
    (h : semaphoreWait semId t s = some s') :
    ((0 < (s.semaphores semId).counter ∧
        s'.semaphores = Function.update s.semaphores semId
          { s.semaphores semId with counter := (s.semaphores semId).counter - 1 } ∧
        s'.history = s.history ++ [.passed semId t]) ∨
      ((s.semaphores semId).counter ≤ 0 ∧
        s'.semaphores = Function.update s.semaphores semId
          ⟨(s.semaphores semId).counter - 1, (s.semaphores semId).threads ++ [t]⟩ ∧
        s'.history = s.history ++ [.blocked semId t])) := by
  simp only [semaphoreWait] at h
  split at h
  · split at h
    · next hpos =>
        split at h
        · obtain ⟨-, -, hsem, hhistory, -⟩ := schedulerThreadToReady_eq_some h
          exact .inl ⟨hpos, hsem, hhistory⟩
        · obtain rfl := Option.some.inj h
          exact .inl ⟨hpos, rfl, rfl⟩
    · next hpos =>
        obtain rfl := Option.some.inj h
        exact .inr ⟨by omega, rfl, rfl⟩
  · exact absurd h (by simp)

theorem allAccounted_semaphoreWait {semId : Int} {t : ThreadId} {s s' : State}
    (hacc : AllAccounted s) (h : semaphoreWait semId t s = some s') : AllAccounted s' := by
  intro id
  obtain ⟨hpos, hsem, hhistory⟩ | ⟨hle, hsem, hhistory⟩ := semaphoreWait_eq_some h
  · rw [hsem, hhistory]
    by_cases hid : id = semId
    · rw [hid, Function.update_self]
      exact (hacc semId).pass hpos
    · rw [Function.update_of_ne hid]
      exact (hacc id).wait_of_ne hid (.inl ⟨t, rfl⟩)
  · rw [hsem, hhistory]
    by_cases hid : id = semId
    · rw [hid, Function.update_self]
      exact (hacc semId).block hle
    · rw [Function.update_of_ne hid]
      exact (hacc id).wait_of_ne hid (.inr ⟨t, rfl⟩)

theorem allAccounted_step {s s' : State} {call : Call} (hacc : AllAccounted s)
    (h : step s call = some s') : AllAccounted s' := by
  cases call with
  | signal semId t => exact (signals_semaphoreSignal (hacc semId) h).allAccounted hacc
  | signalN semId n t => exact (signals_semaphoreSignalN hacc h).allAccounted hacc
  | wait semId t => exact allAccounted_semaphoreWait hacc h
  | runs t thread =>
      obtain rfl := Option.some.inj h
      exact hacc

/-! ## Wake-ups -/

/-- The threads that a call takes off the queue of its semaphore. -/
def Call.removes (s : State) : Call → List ThreadId
  | .signal semId _ => (s.semaphores semId).threads.take 1
  | .signalN semId n _ => (s.semaphores semId).threads.take n.toNat
  | _ => []

/-- What is asked of one call and of the state after it. The threads that a signal removes and that
have actions left are given to the scheduler, in their order in the queue. -/
structure Orderly (t : Transition State Call) : Prop where
  length : ∀ semId, (t.post.semaphores semId).threads.length =
    (-(t.post.semaphores semId).counter).toNat
  fifo : ∀ semId, blockedAt semId t.post.history =
    awakedAt semId t.post.history ++ (t.post.semaphores semId).threads
  woken : ∃ ready, t.post.ready = t.pre.ready ++ ready ∧
    List.Sublist ((t.label.removes t.pre).filter t.pre.hasActions) ready
  passed : ∀ semId, waitsPassed semId t.post.history ≤ signalsAt semId t.post.history

/-- A thread that signals has actions left itself if one of those that it removes has. -/
def SignallerHasActions (s : State) (call : Call) : Prop :=
  match call with
  | .signal _ t => (∃ u ∈ call.removes s, s.hasActions u = true) → s.hasActions t = true
  | .signalN _ _ t => (∃ u ∈ call.removes s, s.hasActions u = true) → s.hasActions t = true
  | _ => True

theorem Signals.woken_iff {semId : Int} {t : ThreadId} {n : Nat} {s s' : State}
    (h : Signals semId t n s s') :
    (∃ ready, s'.ready = s.ready ++ ready ∧
        (((s.semaphores semId).threads.take n).filter s.hasActions).Sublist ready) ↔
      ((∃ u ∈ (s.semaphores semId).threads.take n, s.hasActions u = true) →
        s.hasActions t = true) := by
  constructor
  · rintro ⟨ready, hready, hsub⟩ ⟨u, hu, hleft⟩
    by_contra hmore
    have hnone : ready = [] := by
      have hsame := h.ready
      rw [if_neg hmore, hready] at hsame
      exact List.append_cancel_left hsame
    rw [hnone] at hsub
    have hmem : u ∈ ((s.semaphores semId).threads.take n).filter s.hasActions :=
      List.mem_filter.mpr ⟨hu, hleft⟩
    rw [List.sublist_nil.mp hsub] at hmem
    exact List.not_mem_nil hmem
  · intro hmore
    refine ⟨_, h.ready, ?_⟩
    by_cases hleft : ∃ u ∈ (s.semaphores semId).threads.take n, s.hasActions u = true
    · rw [if_pos (hmore hleft)]
      exact List.filter_sublist
    · have hnone : ((s.semaphores semId).threads.take n).filter s.hasActions = [] :=
        List.filter_eq_nil_iff.mpr fun u hu htrue => hleft ⟨u, hu, htrue⟩
      rw [hnone]
      exact List.nil_sublist _

theorem semaphoreWait_ready {semId : Int} {t : ThreadId} {s s' : State}
    (h : semaphoreWait semId t s = some s') : ∃ ready, s'.ready = s.ready ++ ready := by
  simp only [semaphoreWait] at h
  split at h
  · split at h
    · split at h
      · exact ⟨[t], (schedulerThreadToReady_eq_some h).2.1⟩
      · obtain rfl := Option.some.inj h
        exact ⟨[], (List.append_nil _).symm⟩
    · obtain rfl := Option.some.inj h
      exact ⟨[], (List.append_nil _).symm⟩
  · exact absurd h (by simp)

/-- A single call is orderly exactly if the thread that signals has actions left when one that it
removes has. -/
theorem orderly_iff {s s' : State} {call : Call} (hacc : AllAccounted s)
    (h : step s call = some s') : Orderly ⟨s, call, s'⟩ ↔ SignallerHasActions s call := by
  have hpost := allAccounted_step hacc h
  have hrest : Orderly ⟨s, call, s'⟩ ↔ ∃ ready, s'.ready = s.ready ++ ready ∧
      List.Sublist ((call.removes s).filter s.hasActions) ready :=
    ⟨fun ho => ho.woken, fun hw => ⟨fun id => (hpost id).length, fun id => (hpost id).fifo, hw,
      fun id => (hpost id).waitsPassed_le⟩⟩
  rw [hrest]
  cases call with
  | signal semId t => exact (signals_semaphoreSignal (hacc semId) h).woken_iff
  | signalN semId n t => exact (signals_semaphoreSignalN hacc h).woken_iff
  | wait semId t =>
      obtain ⟨ready, hready⟩ := semaphoreWait_ready h
      exact iff_of_true ⟨ready, hready, List.nil_sublist _⟩ trivial
  | runs t thread =>
      obtain rfl := Option.some.inj h
      exact iff_of_true ⟨[], (List.append_nil _).symm, List.nil_sublist _⟩ trivial

def AllOrderly (tr : List (Transition State Call)) : Prop := ∀ t ∈ tr, Orderly t

/-- All the calls of a run are orderly exactly if no thread without actions left removes one that
has some. -/
theorem semaphores_orderly_iff {threads : ThreadId → Thread} {tr : List (Transition State Call)}
    {s : State} (hrun : Run (ofPartial step) (State.init threads) tr s) :
    AllOrderly tr ↔ ∀ t ∈ tr, SignallerHasActions t.pre t.label := by
  have hsteps := hrun.transition_invariant (allAccounted_init threads)
    fun _ _ _ hacc h => allAccounted_step hacc h
  apply forall₂_congr
  intro t ht
  obtain ⟨hpre, -, hstep⟩ := hsteps t ht
  exact orderly_iff hpre hstep

/-- A thread that waits at semaphore 1 and has more to do, and one that signals at its end. -/
def waiterAndLast : ThreadId → Thread
  | 0 => ⟨[], [.work], false⟩
  | _ => ⟨[], [], false⟩

def waiterAndWorker : ThreadId → Thread
  | 0 => ⟨[], [.work], false⟩
  | _ => ⟨[.sem 1 .signal], [.work], false⟩

def waitAndSignal (threads : ThreadId → Thread) : Option (List (Transition State Call) × State) :=
  exec step (State.init threads) [.wait 1 0, .signal 1 1]

theorem semaphores_orderly_worker :
    AllOrderly ((waitAndSignal waiterAndWorker).get rfl).1 := by
  apply (semaphores_orderly_iff (run_exec_get rfl)).mpr
  refine List.forall_mem_cons.mpr ⟨trivial, List.forall_mem_singleton.mpr ?_⟩
  intro _
  rfl

/-- The signal of a thread without further actions takes a thread that has some off the queue and
leaves it behind. -/
theorem not_semaphores_orderly :
    ¬ ∀ (threads : ThreadId → Thread) (tr : List (Transition State Call)) (s : State),
      Run (ofPartial step) (State.init threads) tr s → AllOrderly tr := by
  intro h
  have hrun : (waitAndSignal waiterAndLast).isSome = true := rfl
  obtain ⟨-, hsignal⟩ := List.forall_mem_cons.mp (h waiterAndLast _ _ (run_exec_get hrun))
  obtain ⟨ready, hready, hsub⟩ := (List.forall_mem_singleton.mp hsignal).woken
  have hnone : ready = [] := (show [] = [] ++ ready from hready).symm
  have hlength : [0].length ≤ ready.length := hsub.length_le
  rw [hnone] at hlength
  exact absurd hlength (by decide)

/-- A thread that the dispatcher has at a semaphore operation has that action, whatever follows. -/
theorem hasActions_of_sem {s : State} {t : ThreadId} {semId : Int} {op : SemOp}
    {next : List Action} (h : (s.threads t).actions = .sem semId op :: next) :
    s.hasActions t = true := by
  rw [State.hasActions, fetchAction_of_actions (by simp [h]), alive, h]

def SemOp.signals : SemOp → Nat
  | .wait => 0
  | .signal => 1
  | .signalN n => n.toNat

/-- The dispatcher calls with the operation still as the thread's action, so that none of its
signals loses a wake-up. -/
theorem dispatchSem_woken {s s' : State} {t : ThreadId} {semId : Int} {op : SemOp}
    {next : List Action} (hacc : AllAccounted s)
    (hactions : (s.threads t).actions = .sem semId op :: next) (h : dispatchSem t s = some s') :
    ∃ ready, s'.ready = s.ready ++ ready ∧
      (((s.semaphores semId).threads.take op.signals).filter s.hasActions).Sublist ready := by
  have hproceed {n : Nat} {s₁ : State} (hsignals : Signals semId t n s s₁)
      {s₂ : State} (hrest : (∃ ready, s₂.ready = s₁.ready ++ ready)) :
      ∃ ready, s₂.ready = s.ready ++ ready ∧
        (((s.semaphores semId).threads.take n).filter s.hasActions).Sublist ready := by
    obtain ⟨own, hown⟩ := hrest
    obtain ⟨ready, hready, hsub⟩ := hsignals.woken_iff.mpr fun _ => hasActions_of_sem hactions
    refine ⟨ready ++ own, ?_, hsub.trans (List.sublist_append_left ready own)⟩
    rw [hown, hready, List.append_assoc]
  simp only [dispatchSem, hactions] at h
  cases op with
  | wait =>
      obtain ⟨ready, hready⟩ := semaphoreWait_ready h
      exact ⟨ready, hready, List.nil_sublist _⟩
  | signal =>
      obtain ⟨s₁, hsignal, hrest⟩ := Option.bind_eq_some_iff.mp h
      apply hproceed (signals_semaphoreSignal (hacc semId) hsignal)
      split at hrest
      · exact ⟨[t], (schedulerThreadToReady_eq_some hrest).2.1⟩
      · obtain rfl := Option.some.inj hrest
        exact ⟨[], (List.append_nil _).symm⟩
  | signalN n =>
      obtain ⟨s₁, hsignal, hrest⟩ := Option.bind_eq_some_iff.mp h
      apply hproceed (signals_semaphoreSignalN hacc hsignal)
      split at hrest
      · exact ⟨[t], (schedulerThreadToReady_eq_some hrest).2.1⟩
      · obtain rfl := Option.some.inj hrest
        exact ⟨[], (List.append_nil _).symm⟩

/-- The signal of a thread with actions left panics for a waiting thread that has none. -/
theorem semaphoreSignal_panics {s : State} {t awaked : ThreadId} {semId : Int}
    {waiting : List ThreadId} (hcounter : (s.semaphores semId).counter < 0)
    (hthreads : (s.semaphores semId).threads = awaked :: waiting)
    (hmore : s.hasActions t = true) (hend : s.hasActions awaked = false) :
    semaphoreSignal semId t s = none := by
  have hpanic (s' : State) (hs : s'.hasActions awaked = false) :
      schedulerThreadToReady s' awaked = none := if_neg (by simp [hs])
  simp only [semaphoreSignal, hthreads, if_neg (by omega : ¬ 0 ≤ (s.semaphores semId).counter)]
  split
  · rw [if_pos (by exact hmore)]
    exact hpanic _ ((State.hasActions_fetchAction _ t awaked).trans hend)
  · rfl

end Dimemas.Model.Semaphores
