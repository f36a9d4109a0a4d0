import Dimemas.Library.Transitions
import Dimemas.Sched.EventQueue
/-!
# The event list and the clock of `events.c`

`EVENT_timer`, `EVENT_extract_timer` and `event_manager` over either event queue,
the main loop of the simulator, and the runs in which the handlers of an event
schedule and cancel further events. If nothing is scheduled in the past, the clock
never goes backwards.
-/

namespace Dimemas.Sched.Events

open Dimemas.Library.StableQueue Dimemas.Library.Transitions
open Dimemas.Sched.EventQueue

/-- How the simulator stops: `die`, or `panic` (which also stands for an invalid memory
access). -/
inductive Stop
  | die | panic
deriving DecidableEq, Repr

/-- The fields of `struct t_thread` that the event list reads and writes. -/
structure ThreadTimers (τ : Type) where
  looseCpu : Bool
  nextEventTimer : τ
  event : Option (TEvent τ)

/-- The globals of `events.c`; `malloced` counts the events allocated so far. -/
structure EventState (τ : Type) (Q : Type) where
  eventQueue : Q
  currentTime : τ
  areOnlyDaemons : Int
  threads : Nat → ThreadTimers τ
  malloced : Nat

variable {τ Q : Type}

def orPanic {α : Type} (r : Option α) : Except Stop α :=
  match r with
  | some a => .ok a
  | none => .error .panic

def comExtNetTrafficTimer : Int := 4

/-- The guard of `EVENT_timer` under which the event's thread is written. -/
def writesThread (module : EventModule) (info : Int) : Bool :=
  module ≠ .ctxtSw && (module ≠ .com || info ≠ comExtNetTrafficTimer)

/-- A daemon event is dropped when only daemons are left, except at time zero. -/
def dropsDaemon [LinearOrder τ] [Zero τ] (ops : QueueOps τ Q) (s : EventState τ Q)
    (daemon : Bool) : Bool :=
  daemon && s.areOnlyDaemons = ops.count s.eventQueue && s.currentTime ≠ 0

/-- `thread->loose_cpu = TRUE; thread->next_event_timer = when;` -/
def EventState.armThread (s : EventState τ Q) (thread : Nat) (when : τ) : EventState τ Q :=
  { s with threads := fun t =>
      if t = thread then { s.threads t with looseCpu := true, nextEventTimer := when }
      else s.threads t }

def EventState.armIfNeeded (s : EventState τ Q) (when : τ) (module : EventModule)
    (thread : Option Nat) (info : Int) : Except Stop (EventState τ Q) :=
  if writesThread module info then orPanic (thread.map fun th => s.armThread th when)
  else .ok s

def eventTimer [LinearOrder τ] [Zero τ] (ops : QueueOps τ Q) (s : EventState τ Q) (when : τ)
    (daemon : Bool) (module : EventModule) (thread : Option Nat) (info : Int) :
    Except Stop (EventState τ Q × Option (TEvent τ)) :=
  if dropsDaemon ops s daemon then .ok (s, none)
  else do
    let s := if daemon then { s with areOnlyDaemons := s.areOnlyDaemons + 1 } else s
    let event : TEvent τ := ⟨s.malloced, when, module, thread, info, daemon⟩
    let s ← { s with malloced := s.malloced + 1 }.armIfNeeded when module thread info
    let q ← orPanic (ops.insert s.eventQueue event)
    .ok ({ s with eventQueue := q }, some event)

/-- The test `(event->module == module) && (event->thread == thread)`. -/
def isEventOf (module : EventModule) (thread : Nat) (event : TEvent τ) : Bool :=
  event.module = module && event.thread = some thread

/-- `EVENT_extract_timer`; the result is the event's time, written to `*when`. -/
def eventExtractTimer (ops : QueueOps τ Q) (s : EventState τ Q) (module : EventModule)
    (thread : Nat) : Except Stop (EventState τ Q × τ) := do
  match (s.threads thread).event.filter (isEventOf module thread) with
  | some event =>
      let q ← orPanic (ops.extract s.eventQueue event)
      .ok ({ s with eventQueue := q }, event.eventTime)
  | none =>
      let (q, found) ← orPanic (ops.scan (isEventOf module thread) s.eventQueue)
      let event ← orPanic found
      let q ← orPanic (ops.extract q event)
      .ok ({ s with eventQueue := q }, event.eventTime)

/-- The modules that `event_manager` dispatches to. -/
def dispatched : EventModule → Bool
  | .sch | .com | .fs | .port | .mem | .ctxtSw => true
  | .ev | .rma => false

/-- `event_manager` up to its dispatch: the clock, the limit, the daemon count and the
modules it knows. -/
def eventManager [LinearOrder τ] (timeLimit : τ) (s : EventState τ Q) (event : TEvent τ) :
    Except Stop (EventState τ Q) :=
  if event.eventTime < s.currentTime then .error .die
  else
    let s := { s with currentTime := event.eventTime }
    if timeLimit < s.currentTime then .error .panic
    else
      let s := if event.daemon then { s with areOnlyDaemons := s.areOnlyDaemons - 1 } else s
      if dispatched event.module then .ok s else .error .panic

/-- One turn of the loop in `main`. `none` is the end of the simulation. -/
def mainLoop [LinearOrder τ] (ops : QueueOps τ Q) (timeLimit : τ) (s : EventState τ Q) :
    Except Stop (Option (EventState τ Q × TEvent τ)) := do
  match ← orPanic (ops.top s.eventQueue) with
  | none => .ok none
  | some _ =>
      if timeLimit < s.currentTime then .ok none
      else do
        let (q, event) ← orPanic (ops.outFifo s.eventQueue)
        let event ← orPanic event
        let s ← eventManager timeLimit { s with eventQueue := q } event
        .ok (some (s, event))

/-! ## Runs -/

/-- What can happen to the event list: the main loop takes the next event, and the code
it dispatches to schedules events, cancels them and records them in its threads. -/
inductive EventAction (τ : Type)
  | timer (when : τ) (daemon : Bool) (module : EventModule) (thread : Option Nat) (info : Int)
  | extractTimer (module : EventModule) (thread : Nat)
  | recordEvent (thread : Nat) (event : Option (TEvent τ))
  | next

def act [LinearOrder τ] [Zero τ] (ops : QueueOps τ Q) (timeLimit : τ) (s : EventState τ Q) :
    EventAction τ → Except Stop (EventState τ Q)
  | .timer when daemon module thread info =>
      (eventTimer ops s when daemon module thread info).map Prod.fst
  | .extractTimer module thread => (eventExtractTimer ops s module thread).map Prod.fst
  | .recordEvent thread event =>
      .ok { s with threads := fun t =>
        if t = thread then { s.threads t with event := event } else s.threads t }
  | .next => (mainLoop ops timeLimit s).map fun r => (r.map Prod.fst).getD s

def actStep [LinearOrder τ] [Zero τ] (ops : QueueOps τ Q) (timeLimit : τ) (s : EventState τ Q)
    (a : EventAction τ) (s' : EventState τ Q) : Prop := act ops timeLimit s a = .ok s'

/-- An event is scheduled at the current time or later. -/
def SchedulesAhead [LinearOrder τ] (s : EventState τ Q) : EventAction τ → Prop
  | .timer when _ _ _ _ => s.currentTime ≤ when
  | _ => True

/-- In every run from an empty event list in which nothing is scheduled in the past, the
clock does not decrease and the next turn of the main loop does not die. -/
def TimeNeverGoesBackwards [LinearOrder τ] [Zero τ] (ops : QueueOps τ Q) : Prop :=
  ∀ (timeLimit : τ) (s₀ s : EventState τ Q) (tr : List (Transition (EventState τ Q) (EventAction τ))),
    s₀.eventQueue = ops.create → Run (actStep ops timeLimit) s₀ tr s →
    (∀ t ∈ tr, SchedulesAhead t.pre t.label) →
    (∀ t ∈ tr, t.pre.currentTime ≤ t.post.currentTime) ∧
      mainLoop ops timeLimit s ≠ .error .die

/-- The pending events, sorted, none of them in the past. -/
def PendingAhead [LinearOrder τ] (view : Q → List (TEvent τ) → Prop) (s : EventState τ Q) : Prop :=
  ∃ l, view s.eventQueue l ∧ (l.Pairwise fun x y => x.eventTime ≤ y.eventTime) ∧
    ∀ e ∈ l, s.currentTime ≤ e.eventTime

section

variable {ops : QueueOps τ Q} {view : Q → List (TEvent τ) → Prop} {s s' : EventState τ Q}

theorem orPanic_eq_ok {α : Type} {r : Option α} {a : α} (h : orPanic r = .ok a) : r = some a := by
  cases r with
  | none => cases h
  | some b => rw [orPanic, Except.ok.injEq] at h; rw [h]

theorem bind_eq_ok {α β : Type} {x : Except Stop α} {f : α → Except Stop β} {b : β}
    (h : x >>= f = .ok b) : ∃ a, x = .ok a ∧ f a = .ok b := by
  cases x with
  | error e => cases h
  | ok a => exact ⟨a, rfl, h⟩

theorem map_eq_ok {α β : Type} {x : Except Stop α} {f : α → β} {b : β}
    (h : x.map f = .ok b) : ∃ a, x = .ok a ∧ f a = b := by
  cases x with
  | error e => cases h
  | ok a => exact ⟨a, rfl, Except.ok.inj h⟩

/-- `EVENT_timer` drops a daemon event or inserts one event of the requested time. -/
theorem eventTimer_cases [LinearOrder τ] [Zero τ] {when : τ} {daemon : Bool} {module : EventModule}
    {thread : Option Nat} {info : Int} {r : Option (TEvent τ)}
    (h : eventTimer ops s when daemon module thread info = .ok (s', r)) :
    s' = s ∨ ∃ event, event.eventTime = when ∧
      ops.insert s.eventQueue event = some s'.eventQueue ∧ s'.currentTime = s.currentTime := by
  unfold eventTimer at h
  split at h
  · left
    simp only [Except.ok.injEq, Prod.mk.injEq] at h
    exact h.1.symm
  · right
    obtain ⟨armed, harmed, h⟩ := bind_eq_ok h
    obtain ⟨q, hinsert, h⟩ := bind_eq_ok h
    simp only [Except.ok.injEq, Prod.mk.injEq] at h
    obtain ⟨rfl, -⟩ := h
    have hkeep : armed.eventQueue = s.eventQueue ∧ armed.currentTime = s.currentTime := by
      unfold EventState.armIfNeeded at harmed
      split at harmed
      · obtain ⟨th, -, rfl⟩ := Option.map_eq_some_iff.mp (orPanic_eq_ok harmed)
        cases daemon <;> exact ⟨rfl, rfl⟩
      · rw [Except.ok.injEq] at harmed
        subst harmed
        cases daemon <;> exact ⟨rfl, rfl⟩
    have hinsert := orPanic_eq_ok hinsert
    rw [hkeep.1] at hinsert
    exact ⟨_, rfl, hinsert, hkeep.2⟩

theorem eventExtractTimer_cases {module : EventModule} {thread : Nat} {when : τ}
    (h : eventExtractTimer ops s module thread = .ok (s', when)) :
    s'.currentTime = s.currentTime ∧ ∃ q event,
      (q = s.eventQueue ∨ ∃ found, ops.scan found s.eventQueue = some (q, some event)) ∧
        ops.extract q event = some s'.eventQueue := by
  unfold eventExtractTimer at h
  split at h
  · next event _ =>
      obtain ⟨q, hextract, h⟩ := bind_eq_ok h
      simp only [Except.ok.injEq, Prod.mk.injEq] at h
      obtain ⟨rfl, -⟩ := h
      exact ⟨rfl, s.eventQueue, event, .inl rfl, orPanic_eq_ok hextract⟩
  · obtain ⟨⟨q, found⟩, hscan, h⟩ := bind_eq_ok h
    obtain ⟨event, hfound, h⟩ := bind_eq_ok h
    obtain ⟨q', hextract, h⟩ := bind_eq_ok h
    simp only [Except.ok.injEq, Prod.mk.injEq] at h
    obtain ⟨rfl, -⟩ := h
    have hscan := orPanic_eq_ok hscan
    obtain rfl := orPanic_eq_ok hfound
    exact ⟨rfl, q, event, .inr ⟨_, hscan⟩, orPanic_eq_ok hextract⟩

theorem eventManager_cases [LinearOrder τ] {timeLimit : τ} {event : TEvent τ}
    (h : eventManager timeLimit s event = .ok s') :
    s.currentTime ≤ event.eventTime ∧ s'.eventQueue = s.eventQueue ∧
      s'.currentTime = event.eventTime := by
  unfold eventManager at h
  split at h
  · cases h
  · next hle =>
      simp only at h
      split at h
      · cases h
      · split at h
        · rw [Except.ok.injEq] at h
          subst h
          refine ⟨not_lt.mp hle, ?_⟩
          cases event.daemon <;> exact ⟨rfl, rfl⟩
        · cases h

/-- A turn of the main loop that goes on processes the event that the queue returns. -/
theorem mainLoop_cases [LinearOrder τ] {timeLimit : τ} {event : TEvent τ}
    (h : mainLoop ops timeLimit s = .ok (some (s', event))) :
    ops.outFifo s.eventQueue = some (s'.eventQueue, some event) ∧
      s.currentTime ≤ event.eventTime ∧ s'.currentTime = event.eventTime := by
  obtain ⟨top, htop, h⟩ := bind_eq_ok h
  cases top with
  | none => cases h
  | some _ =>
      simp only at h
      split at h
      · cases h
      · obtain ⟨⟨q, popped⟩, hpop, h⟩ := bind_eq_ok h
        obtain ⟨e, he, h⟩ := bind_eq_ok h
        obtain ⟨t, ht, h⟩ := bind_eq_ok h
        simp only [Except.ok.injEq, Option.some.injEq, Prod.mk.injEq] at h
        obtain ⟨rfl, rfl⟩ := h
        obtain ⟨hle, hqueue, htime⟩ := eventManager_cases ht
        obtain rfl := orPanic_eq_ok he
        exact ⟨by rw [orPanic_eq_ok hpop, hqueue], hle, htime⟩

theorem eventManager_die [LinearOrder τ] {timeLimit : τ} {event : TEvent τ}
    (h : eventManager timeLimit s event = .error .die) : event.eventTime < s.currentTime := by
  unfold eventManager at h
  split at h
  · next hlt => exact hlt
  · simp only at h
    split at h
    · cases h
    · split at h <;> cases h

theorem mainLoop_die [LinearOrder τ] {timeLimit : τ}
    (h : mainLoop ops timeLimit s = .error .die) :
    ∃ q event, ops.outFifo s.eventQueue = some (q, some event) ∧
      event.eventTime < s.currentTime := by
  unfold mainLoop at h
  cases htop : ops.top s.eventQueue with
  | none => simp [htop, orPanic, Bind.bind, Except.bind] at h
  | some top =>
      cases top with
      | none => simp [htop, orPanic, Bind.bind, Except.bind] at h
      | some _ =>
          simp only [htop, orPanic, Bind.bind, Except.bind] at h
          split at h
          · cases h
          · cases hpop : ops.outFifo s.eventQueue with
            | none => simp [hpop] at h
            | some p =>
                obtain ⟨q, popped⟩ := p
                cases popped with
                | none => simp [hpop] at h
                | some event =>
                    simp only [hpop] at h
                    cases hmanager : eventManager timeLimit { s with eventQueue := q } event with
                    | ok s' => simp [hmanager] at h
                    | error e =>
                        simp only [hmanager, Except.error.injEq] at h
                        subst h
                        exact ⟨q, event, rfl,
                          eventManager_die (s := { s with eventQueue := q }) hmanager⟩

/-! ## The clock -/

variable [LinearOrder τ]

theorem pairwise_insertAfter {l : List (TEvent τ)} (e : TEvent τ)
    (hsorted : l.Pairwise fun x y => x.eventTime ≤ y.eventTime) :
    (insertAfter TEvent.eventTime e l).Pairwise fun x y => x.eventTime ≤ y.eventTime :=
  ((⟨hsorted, fun _ => rfl⟩ : Represents TEvent.eventTime l l).insertAfter e).sorted

theorem PendingAhead.insert (himpl : Implements ops view) (h : PendingAhead view s)
    {event : TEvent τ} (hahead : s.currentTime ≤ event.eventTime)
    (hinsert : ops.insert s.eventQueue event = some s'.eventQueue)
    (htime : s'.currentTime = s.currentTime) : PendingAhead view s' := by
  obtain ⟨l, hview, hsorted, hpending⟩ := h
  obtain ⟨q, heq, hview'⟩ := himpl.insert _ _ event hview
  obtain rfl : q = s'.eventQueue := Option.some.inj (heq.symm.trans hinsert)
  refine ⟨_, hview', pairwise_insertAfter event hsorted, ?_⟩
  intro e he
  rw [htime]
  rcases mem_insertAfter.mp he with rfl | he
  · exact hahead
  · exact hpending e he

theorem PendingAhead.extract (himpl : Implements ops view) (h : PendingAhead view s) {q : Q}
    {event : TEvent τ}
    (hscan : q = s.eventQueue ∨ ∃ found, ops.scan found s.eventQueue = some (q, some event))
    (hextract : ops.extract q event = some s'.eventQueue)
    (htime : s'.currentTime = s.currentTime) : PendingAhead view s' := by
  obtain ⟨l, hview, hsorted, hpending⟩ := h
  have hviewq : view q l := by
    rcases hscan with rfl | ⟨found, hscan⟩
    · exact hview
    · obtain ⟨q', heq, hview'⟩ := himpl.scan _ _ found hview
      obtain ⟨rfl, -⟩ := Prod.mk.inj (Option.some.inj (heq.symm.trans hscan))
      exact hview'
  by_cases hmem : event ∈ l
  · obtain ⟨q', heq, hview'⟩ := himpl.extract _ _ event hviewq hmem
    obtain rfl : q' = s'.eventQueue := Option.some.inj (heq.symm.trans hextract)
    refine ⟨_, hview', hsorted.erase event, fun e he => ?_⟩
    rw [htime]
    exact hpending e (List.mem_of_mem_erase he)
  · rcases himpl.extract_absent _ _ event hviewq hmem with hnone | ⟨q', heq, hview'⟩
    · rw [hnone] at hextract
      cases hextract
    · obtain rfl : q' = s'.eventQueue := Option.some.inj (heq.symm.trans hextract)
      exact ⟨l, hview', hsorted, fun e he => htime ▸ hpending e he⟩

/-- The event that the queue pops is the first of the pending ones. -/
theorem PendingAhead.outFifo (himpl : Implements ops view) (h : PendingAhead view s) {q : Q}
    {event : TEvent τ} (hpop : ops.outFifo s.eventQueue = some (q, some event)) :
    s.currentTime ≤ event.eventTime ∧ ∃ l, view q l ∧
      (l.Pairwise fun x y => x.eventTime ≤ y.eventTime) ∧
        ∀ e ∈ l, event.eventTime ≤ e.eventTime := by
  obtain ⟨l, hview, hsorted, hpending⟩ := h
  cases l with
  | nil =>
      obtain ⟨q', heq, -⟩ := himpl.outFifo_nil _ hview
      cases heq.symm.trans hpop
  | cons e l =>
      obtain ⟨q', heq, hview'⟩ := himpl.outFifo_cons _ _ _ hview
      cases heq.symm.trans hpop
      obtain ⟨hfirst, hrest⟩ := List.pairwise_cons.mp hsorted
      exact ⟨hpending event (by simp), l, hview', hrest, hfirst⟩

variable [Zero τ] {timeLimit : τ} {a : EventAction τ}

theorem act_pendingAhead (himpl : Implements ops view) (h : PendingAhead view s)
    (hahead : SchedulesAhead s a) (hact : act ops timeLimit s a = .ok s') :
    PendingAhead view s' ∧ s.currentTime ≤ s'.currentTime := by
  cases a with
  | timer when daemon module thread info =>
      obtain ⟨⟨s₁, event⟩, htimer, rfl⟩ := map_eq_ok hact
      rcases eventTimer_cases htimer with rfl | ⟨event, rfl, hinsert, htime⟩
      · exact ⟨h, le_rfl⟩
      · exact ⟨h.insert himpl hahead hinsert htime, htime.ge⟩
  | extractTimer module thread =>
      obtain ⟨⟨s₁, when⟩, hextract, rfl⟩ := map_eq_ok hact
      obtain ⟨htime, q, event, hscan, hextract⟩ := eventExtractTimer_cases hextract
      exact ⟨h.extract himpl hscan hextract htime, htime.ge⟩
  | recordEvent thread event =>
      rw [act, Except.ok.injEq] at hact
      subst hact
      exact ⟨h, le_rfl⟩
  | next =>
      obtain ⟨r, hloop, rfl⟩ := map_eq_ok hact
      cases r with
      | none => exact ⟨h, le_rfl⟩
      | some p =>
          obtain ⟨s₁, event⟩ := p
          obtain ⟨hpop, hle, htime⟩ := mainLoop_cases hloop
          obtain ⟨-, l, hview, hsorted, hpending⟩ := h.outFifo himpl hpop
          exact ⟨⟨l, hview, hsorted, fun e he => htime ▸ hpending e he⟩, htime ▸ hle⟩

theorem timeNeverGoesBackwards_of_implements (himpl : Implements ops view) :
    TimeNeverGoesBackwards ops := by
  intro timeLimit s₀ s tr hempty hrun hguard
  have hinit : PendingAhead view s₀ := ⟨[], hempty ▸ himpl.create, .nil, by simp⟩
  have hstep : ∀ (s : EventState τ Q) a s', PendingAhead view s → SchedulesAhead s a →
      actStep ops timeLimit s a s' → PendingAhead view s' :=
    fun s a s' h hahead hact => (act_pendingAhead himpl h hahead hact).1
  refine ⟨fun t ht => ?_, fun hdie => ?_⟩
  · obtain ⟨hpre, -, hact⟩ := hrun.transition_of_guard hinit hstep hguard t ht
    exact (act_pendingAhead himpl hpre (hguard t ht) hact).2
  · obtain ⟨q, event, hpop, hlt⟩ := mainLoop_die hdie
    have hpending := hrun.invariant_of_guard hinit hstep hguard
    exact absurd (hpending.outFifo himpl hpop).1 (not_le.mpr hlt)

end

/-! ## Agreement of the two queues -/

/-- The linked queue and the multimap queue return the same events, those of a stable
priority queue, for every sequence of insertions, extractions of pending events and
pops; over either of them the simulated clock never goes backwards. -/
theorem event_queues_agree [LinearOrder τ] [Zero τ] :
    (∀ acts : List (QueueAction τ), ExtractsPresent [] acts →
      ∃ returned, StableRun [] acts returned ∧
        runActions listEventQueue listEventQueue.create acts = some returned ∧
        runActions multimapEventQueue multimapEventQueue.create acts = some returned) ∧
      TimeNeverGoesBackwards (listEventQueue (τ := τ)) ∧
      TimeNeverGoesBackwards (multimapEventQueue (τ := τ)) := by
  have hlist := listEventQueue_implements (τ := τ)
  have hmultimap := multimapEventQueue_implements (τ := τ)
  refine ⟨fun acts hpresent => ?_, timeNeverGoesBackwards_of_implements hlist,
    timeNeverGoesBackwards_of_implements hmultimap⟩
  obtain ⟨returned, hrun⟩ := exists_stableRun hpresent
  exact ⟨returned, hrun,
    runActions_of_stableRun hlist hlist.create represents_nil hrun,
    runActions_of_stableRun hmultimap hmultimap.create represents_nil hrun⟩

end Dimemas.Sched.Events
