import Dimemas.Sched.ReadyThreads
/-!
# The event manager and the ready queues

`SCHEDULER_Init`, `SCHEDULER_general`, `reload_events` and `event_manager` over all nodes without
accelerators. What an event does beside the scheduler is a list of the calls that the other modules
make to it, in any order and for threads of any node.
-/

namespace Dimemas.Sched.EventManager

open Dimemas.Library.Transitions
open Dimemas.Sched.Threads
open Dimemas.Sched.Dispatch
open Dimemas.Sched.General
open Dimemas.Sched.Bursts
open Dimemas.Sched.ReadyThreads

/-- A call that the simulator does not make in this state, or a panic of the scheduler. -/
inductive Fault
  | misplaced
  | panic
deriving DecidableEq, Repr

def orPanic {α : Type} : Option α → Except Fault α
  | some a => .ok a
  | none => .error .panic

/-- What an action of a thread or another module does on a node: it ends an action, reads the next
one or sets a priority, it makes a thread ready with `SCHEDULER_thread_to_ready_return` or
`SCHEDULER_thread_to_ready`, perhaps with `SCH_NEW_JOB` behind it, or it lets the thread wait
busily. A collective without blocking calls `SCH_TIMER_OUT` itself, whose own calls stand between
`timerOut` and `endTimerOut`. -/
inductive Call
  | endAction (t : Nat)
  | read (t : Nat) (action : Action)
  | info (t : Nat) (priority : ℚ)
  | burst (t : Nat) (ti : ℚ) (looseCpu : Bool)
  | ready (t : Nat) (looseCpu : Bool)
  | newJob (t : Nat) (looseCpu : Bool)
  | busyWait (t : Nat)
  | timerOut (t : Nat)
  | endTimerOut
deriving DecidableEq, Repr

/-- The thread holds nothing, and the processor that it had is free. -/
def LeftFree (node : Node) (t : Nat) : Prop :=
  Idle node t ∧ (node.cpus[(node.threads t).cpu]?).map Cpu.currentThread = some none

instance (node : Node) (t : Nat) : Decidable (LeftFree node t) :=
  inferInstanceAs (Decidable (_ ∧ _))

/-- `SCHEDULER_thread_to_ready` for a thread that holds nothing and has actions. -/
def toReady (sched : Scheduler) (now : ℚ) (t : Nat) (looseCpu : Bool) (node : Node) :
    Except Fault Node :=
  if Idle node t ∧ (node.threads t).action ≠ [] then
    orPanic (threadToReady sched now t
      (node.setThread t { node.threads t with looseCpu := looseCpu }))
  else .error .misplaced

/-- `SCH_NEW_JOB` of `SCHEDULER_general`. -/
def schNewJob (sched : Scheduler) (now : ℚ) (node : Node) : Except Fault Node :=
  if 0 < numFreeCpu node then orPanic (nextThreadToRun sched now node) else .ok node

def endTimerOut (sched : Scheduler) (now : ℚ) (node : Node) : Except Fault Node :=
  if node.ready ≠ [] ∧ 0 < numFreeCpu node then orPanic (nextThreadToRun sched now node)
  else .ok node

/-- `SCH_TIMER_OUT` for a thread that is in its next operation already. -/
def nestedTimerOut (sched : Scheduler) (now : ℚ) (t : Nat) (node : Node) : Except Fault Node :=
  if LeftFree node t then
    match timerOut sched now t node with
    | some (node, .nextOp) => .ok node
    | _ => .error .misplaced
  else .error .misplaced

/-- A call, with the node and `reload_done` if it was set. -/
def call (sched : Scheduler) (now : ℚ) (node : Node) : Call → Except Fault (Node × Bool)
  | .endAction t =>
      if Idle node t then
        match endAction sched (node.threads t) with
        | some th => .ok (node.setThread t th, false)
        | none => .error .misplaced
      else .error .misplaced
  | .read t action =>
      let th := node.threads t
      if th.action = [] then .ok (node.setThread t { th with action := [action] }, false)
      else .error .misplaced
  | .info t priority =>
      .ok (node.setThread t { node.threads t with priority := priority }, false)
  | .burst t ti looseCpu =>
      if Idle node t then
        (orPanic (threadToReadyReturn sched now t ti
          (node.setThread t { node.threads t with looseCpu := looseCpu }))).map fun node =>
            (node, true)
      else .error .misplaced
  | .ready t looseCpu => (toReady sched now t looseCpu node).map fun node => (node, true)
  | .newJob t looseCpu =>
      ((toReady sched now t looseCpu node).bind (schNewJob sched now)).map fun node => (node, true)
  | .busyWait t =>
      if LeftFree node t then .ok (threadToBusyWait sched now t node, false)
      else .error .misplaced
  | .timerOut t => (nestedTimerOut sched now t node).map fun node => (node, false)
  | .endTimerOut => (endTimerOut sched now node).map fun node => (node, false)

/-- A node with the scheduler of its machine. -/
structure Site where
  sched : Scheduler
  node : Node

/-- The nodes, `current_time` and `reload_done`. -/
structure System where
  sites : List Site
  now : ℚ
  reloadDone : Bool

def System.setNode (s : System) (k : Nat) (node : Node) : System :=
  { s with sites := s.sites.modify k fun site => { site with node := node } }

def System.site (s : System) (k : Nat) : Except Fault Site :=
  match s.sites[k]? with
  | some site => .ok site
  | none => .error .misplaced

def callAt (s : System) (x : Nat × Call) : Except Fault System :=
  (s.site x.1).bind fun site =>
    (call site.sched s.now site.node x.2).map fun (node, done) =>
      { s.setNode x.1 node with reloadDone := s.reloadDone || done }

def calls : List (Nat × Call) → System → Except Fault System
  | [], s => .ok s
  | x :: xs, s => (callAt s x).bind (calls xs)

/-- `SCH_TIMER_OUT` of `SCHEDULER_general`: the rest of a burst behind the context switch, the end
of a busy wait, or the next actions of the thread. -/
def schTimerOut (k t : Nat) (body : List (Nat × Call)) (s : System) : Except Fault System :=
  (s.site k).bind fun site =>
    (orPanic (timerOut site.sched s.now t site.node)).bind fun (node, next) =>
      match next with
      | .runs => .ok (s.setNode k node)
      | .blocks =>
          if node.ready ≠ [] then
            (orPanic (nextThreadToRun site.sched s.now node)).map (s.setNode k)
          else .ok (s.setNode k node)
      | .nextOp =>
          (calls body (s.setNode k node)).bind fun s =>
            (s.site k).bind fun site =>
              (endTimerOut site.sched s.now site.node).map (s.setNode k)

/-- The loop of `reload_events` on a node, for as many threads as there are in its queue. -/
def reloadNode (sched : Scheduler) (now : ℚ) : Nat → Node → Except Fault Node
  | 0, node => .ok node
  | n + 1, node =>
      if node.ready ≠ [] ∧ 0 < numFreeCpu node then
        (orPanic (nextThreadToRun sched now node)).bind (reloadNode sched now n)
      else .ok node

def reloadEvents (now : ℚ) : List Site → Except Fault (List Site)
  | [] => .ok []
  | site :: sites =>
      (reloadNode site.sched now site.node.ready.length site.node).bind fun node =>
        (reloadEvents now sites).map fun sites => { site with node := node } :: sites

/-- An event of `M_SCH` for a thread of a node, or an event of another module. -/
inductive Event
  | scheduler (k t : Nat) (body : List (Nat × Call))
  | other (time : ℚ) (body : List (Nat × Call))
deriving DecidableEq, Repr

def eventTime (s : System) : Event → Except Fault ℚ
  | .scheduler k t _ =>
      (s.site k).bind fun site =>
        match (site.node.threads t).event with
        | some when => .ok when
        | none => .error .misplaced
  | .other time _ => .ok time

/-- The event is the next one: its time has not passed, and no other event comes before it. -/
def Next (s : System) (time : ℚ) : Prop :=
  s.now ≤ time ∧ ∀ site ∈ s.sites, ∀ t ∈ site.node.running,
    ∀ when ∈ (site.node.threads t).event, time ≤ when

instance (s : System) (time : ℚ) : Decidable (Next s time) := inferInstanceAs (Decidable (_ ∧ _))

def dispatch (s : System) : Event → Except Fault System
  | .scheduler k t body => schTimerOut k t body s
  | .other _ body => calls body s

/-- The end of `event_manager`. -/
def reload (s : System) : Except Fault System :=
  if s.reloadDone then
    (reloadEvents s.now s.sites).map fun sites =>
      { s with sites := sites, reloadDone := false }
  else .ok s

def eventManager (s : System) (e : Event) : Except Fault System :=
  (eventTime s e).bind fun time =>
    if Next s time then (dispatch { s with now := time } e).bind reload else .error .misplaced

/-- A number of threads of a ready queue get a processor. -/
def startThreads (sched : Scheduler) (now : ℚ) : Nat → Node → Except Fault Node
  | 0, node => .ok node
  | n + 1, node => (orPanic (nextThreadToRun sched now node)).bind (startThreads sched now n)

/-- The first events of `SCHEDULER_Init`. -/
def startNodes (now : ℚ) : List Site → Except Fault (List Site)
  | [] => .ok []
  | site :: sites =>
      (startThreads site.sched now (min site.node.ready.length site.node.cpus.length)
        site.node).bind fun node =>
          (startNodes now sites).map fun sites => { site with node := node } :: sites

/-- A thread of a node must begin execution with work. -/
def initThread (s : System) (x : Nat × Nat) : Except Fault System :=
  (s.site x.1).bind fun site =>
    match (site.node.threads x.2).action with
    | .work _ :: _ => callAt s (x.1, .ready x.2 true)
    | _ => .error .misplaced

def initThreads : List (Nat × Nat) → System → Except Fault System
  | [], s => .ok s
  | x :: xs, s => (initThread s x).bind (initThreads xs)

/-- `SCHEDULER_Init` for the threads of the application. -/
def schedulerInit (threads : List (Nat × Nat)) (s : System) : Except Fault System :=
  (initThreads threads s).bind fun s =>
    (startNodes s.now s.sites).map fun sites => { s with sites := sites }

def step (s : System) (e : Event) : Option System := (eventManager s e).toOption

/-! ## Functions that do not panic -/

section

variable {α β : Type}

/-- A result of the scheduler with a property, or a call that is not made. -/
def Safe (P : α → Prop) : Except Fault α → Prop
  | .ok a => P a
  | .error f => f = .misplaced

variable {P : α → Prop} {Q : β → Prop} {x : Except Fault α}

theorem Safe.bind {f : α → Except Fault β} (h : Safe P x) (hf : ∀ a, P a → Safe Q (f a)) :
    Safe Q (x.bind f) := by
  cases x with
  | ok a => exact hf a h
  | error e => exact h

theorem Safe.map {f : α → β} (h : Safe P x) (hf : ∀ a, P a → Q (f a)) : Safe Q (x.map f) := by
  cases x with
  | ok a => exact hf a h
  | error e => exact h

theorem Safe.mono {P' : α → Prop} (h : Safe P x) (himp : ∀ a, P a → P' a) : Safe P' x := by
  cases x with
  | ok a => exact himp a h
  | error e => exact h

theorem Safe.ne_panic (h : Safe P x) : x ≠ .error .panic := by
  intro heq
  rw [heq] at h
  cases h

theorem Safe.of_eq {a : α} (h : Safe P x) (heq : x = .ok a) : P a := by
  rw [heq] at h
  exact h

theorem eq_ok_of_toOption {a : α} (h : x.toOption = some a) : x = .ok a := by
  cases x with
  | ok b => exact congrArg Except.ok (Option.some.inj h)
  | error e => cases h

theorem safe_orPanic {o : Option α} (h : ∃ a, o = some a ∧ P a) : Safe P (orPanic o) := by
  obtain ⟨a, rfl, ha⟩ := h
  exact ha

end

/-! ## Nodes -/

/-- What the scheduler keeps about a node. -/
structure Fit (sched : Scheduler) (now : ℚ) (node : Node) : Prop where
  consistent : Consistent sched now node
  prepared : Prepared node

/-- No thread is ready while a processor is free. -/
def Saturated (node : Node) : Prop := node.ready = [] ∨ numFreeCpu node = 0

/-- An empty ready queue stays empty, and no processor gets free. -/
structure QuietStep (node node' : Node) : Prop where
  ready : node.ready = [] → node'.ready = []
  free : numFreeCpu node' ≤ numFreeCpu node

theorem QuietStep.refl (node : Node) : QuietStep node node := ⟨id, le_refl _⟩

section

variable {sched : Scheduler} {now : ℚ} {t : Nat} {node node' : Node} {th : Thread}

/-- A thread that is changed apart from its processor and its event, and that is in front of a
burst as before if it runs or is ready. -/
theorem Fit.keep (h : Fit sched now node) (hrun : SameRun (node.threads t) th)
    (hwork : ¬ Idle node t → StartsWork (node.threads t) → StartsWork th) :
    Fit sched now (node.setThread t th) := by
  refine ⟨h.consistent.keep hrun, h.prepared.setThread t th ?_ ?_⟩
  · intro hready
    apply hwork
    · exact fun hidle => hidle.2 hready
    · exact h.prepared.ready t hready
  · intro hset hctx
    rw [hrun.event] at hset
    rw [hrun.contextSwitch] at hctx
    apply hwork
    · exact fun hidle => hidle.1 (h.consistent.mem_running.mpr hset)
    · exact h.prepared.switching t hset hctx

theorem Fit.setLooseCpu (h : Fit sched now node) (t : Nat) (looseCpu : Bool) :
    Fit sched now (node.setThread t { node.threads t with looseCpu := looseCpu }) := by
  apply h.keep
  · constructor <;> rfl
  · exact fun _ hwork => hwork

theorem nextThreadToRun_spec (h : Fit sched now node) (hready : node.ready ≠ [])
    (hfree : 0 < numFreeCpu node) :
    ∃ node', nextThreadToRun sched now node = some node' ∧ Fit sched now node' ∧
      node'.ready = node.ready.tail ∧ numFreeCpu node' + 1 = numFreeCpu node := by
  obtain ⟨node', hnext, hprep, hqueue, hcount⟩ :=
    nextThreadToRun_of_free h.consistent h.prepared hready hfree
  exact ⟨node', hnext, ⟨(h.consistent.nextThreadToRun hnext).1, hprep⟩, hqueue, hcount⟩

/-- The loop of `reload_events` ends, and takes the threads in the order of the queue. -/
theorem reloadNode_spec (h : Fit sched now node) {n : Nat} (hn : node.ready.length ≤ n) :
    Safe (fun node' => Fit sched now node' ∧ Saturated node' ∧
      node'.ready = node.ready.drop (numFreeCpu node)) (reloadNode sched now n node) := by
  induction n generalizing node with
  | zero =>
      have hnil : node.ready = [] := List.eq_nil_of_length_eq_zero (by omega)
      refine ⟨h, .inl hnil, ?_⟩
      rw [hnil, List.drop_nil]
  | succ n ih =>
      rw [reloadNode]
      split
      · next hcond =>
          obtain ⟨node₁, hnext, hfit, hqueue, hcount⟩ := nextThreadToRun_spec h hcond.1 hcond.2
          rw [hnext]
          have hlength : node₁.ready.length ≤ n := by
            rw [hqueue, List.length_tail]
            omega
          apply (ih hfit hlength).mono
          intro node' ⟨hfit', hsat, hdrop⟩
          refine ⟨hfit', hsat, ?_⟩
          rw [hdrop, hqueue, ← hcount, List.drop_tail]
      · next hcond =>
          rcases not_and_or.mp hcond with hnil | hfull
          · have hnil : node.ready = [] := not_not.mp hnil
            refine ⟨h, .inl hnil, ?_⟩
            rw [hnil, List.drop_nil]
          · have hfull : numFreeCpu node = 0 := by omega
            refine ⟨h, .inr hfull, ?_⟩
            rw [hfull, List.drop_zero]

theorem startThreads_spec (h : Fit sched now node) {n : Nat} (hready : n ≤ node.ready.length)
    (hfree : n ≤ numFreeCpu node) :
    Safe (fun node' => Fit sched now node' ∧ node'.ready = node.ready.drop n ∧
      numFreeCpu node' + n = numFreeCpu node) (startThreads sched now n node) := by
  induction n generalizing node with
  | zero => exact ⟨h, rfl, rfl⟩
  | succ n ih =>
      have hne : node.ready ≠ [] := by
        intro hnil
        rw [hnil, List.length_nil] at hready
        omega
      obtain ⟨node₁, hnext, hfit, hqueue, hcount⟩ := nextThreadToRun_spec h hne (by omega)
      rw [startThreads, hnext]
      have hlength : n ≤ node₁.ready.length := by
        rw [hqueue, List.length_tail]
        omega
      apply (ih hfit hlength (by omega)).mono
      intro node' ⟨hfit', hdrop, hsum⟩
      refine ⟨hfit', ?_, by omega⟩
      rw [hdrop, hqueue, List.drop_tail]

theorem toReady_spec (h : Fit sched now node) (t : Nat) (looseCpu : Bool) :
    Safe (fun node' => Fit sched now node' ∧ Became node node')
      (toReady sched now t looseCpu node) := by
  unfold toReady
  split
  · next hcond =>
      have hloose := h.setLooseCpu t looseCpu
      have hevent := h.consistent.event_of_idle hcond.1
      have hself : (node.setThread t { node.threads t with looseCpu := looseCpu }).threads t =
          { node.threads t with looseCpu := looseCpu } := Node.setThread_self ..
      obtain ⟨node', hto, hbecame⟩ := became_threadToReady hloose.prepared hloose.consistent
        (by rw [hself]; exact hevent) hcond.1.2 (by rw [hself]; exact hcond.2)
      have hconsistent := (hloose.consistent.threadToReady (by rw [hself]; exact hevent)
        hcond.1.2 hto).1
      exact safe_orPanic ⟨node', hto, ⟨hconsistent, hbecame.prepared⟩, hbecame.of_setThread⟩
  · exact rfl

theorem LeftFree.at (h : LeftFree node t) : node.at (node.threads t).cpu = none := by
  obtain ⟨c, hc, hfree⟩ := Option.map_eq_some_iff.mp h.2
  rw [Node.at, hc, Option.bind_some, hfree]

theorem LeftFree.lt (h : LeftFree node t) : (node.threads t).cpu < node.cpus.length := by
  obtain ⟨c, hc, -⟩ := Option.map_eq_some_iff.mp h.2
  exact (List.getElem?_eq_some_iff.mp hc).1

/-- A thread in its next operation is not changed by another `SCH_TIMER_OUT`. -/
theorem nestedTimerOut_spec (h : Fit sched now node) (t : Nat) :
    Safe (fun node' => node' = node) (nestedTimerOut sched now t node) := by
  unfold nestedTimerOut
  split
  · next hleft =>
      split
      · next node' hout =>
          have hevent := h.consistent.event_of_idle hleft.1
          cases timerOut_cases hout with
          | nextOp hswitch hbusy =>
              show (node.release _).setThread t { node.threads t with event := none } = node
              rw [← hevent, Node.release_of_free hleft.at, Node.setThread_threads]
      · exact rfl
  · exact rfl

theorem endTimerOut_spec (h : Fit sched now node) :
    Safe (fun node' => Fit sched now node' ∧ QuietStep node node' ∧
        (Saturated node ∨ numFreeCpu node ≤ 1 → Saturated node'))
      (endTimerOut sched now node) := by
  unfold endTimerOut
  split
  · next hcond =>
      obtain ⟨node', hnext, hfit, hqueue, hcount⟩ := nextThreadToRun_spec h hcond.1 hcond.2
      refine safe_orPanic ⟨node', hnext, hfit, ⟨?_, by omega⟩, ?_⟩
      · exact fun hnil => absurd hnil hcond.1
      · rintro ((hnil | hfull) | hless)
        · exact absurd hnil hcond.1
        · exact absurd hfull (Nat.pos_iff_ne_zero.mp hcond.2)
        · exact .inr (by omega)
  · next hcond =>
      refine ⟨h, .refl node, fun _ => ?_⟩
      rcases not_and_or.mp hcond with hnil | hfull
      · exact .inl (not_not.mp hnil)
      · exact .inr (by omega)

theorem burst_spec (h : Fit sched now node) (t : Nat) (ti : ℚ) (looseCpu : Bool)
    (hidle : Idle node t) :
    Safe (Fit sched now) (orPanic (threadToReadyReturn sched now t ti
      (node.setThread t { node.threads t with looseCpu := looseCpu }))) := by
  have hloose := h.setLooseCpu t looseCpu
  have hevent := h.consistent.event_of_idle hidle
  have hself : (node.setThread t { node.threads t with looseCpu := looseCpu }).threads t =
      { node.threads t with looseCpu := looseCpu } := Node.setThread_self ..
  obtain ⟨node', hreturn, hbecame⟩ := became_threadToReadyReturn ti hloose.prepared
    hloose.consistent (by rw [hself]; exact hevent) hidle.2
  have hconsistent := (hloose.consistent.threadToReadyReturn
    (by rw [hself]; exact hevent) hidle.2 hreturn).1
  exact safe_orPanic ⟨node', hreturn, hconsistent, hbecame.prepared⟩

/-- Behind a thread that was made ready, `SCH_NEW_JOB` finds a thread for a free processor. -/
theorem newJob_spec (h : Fit sched now node) (t : Nat) (looseCpu : Bool) :
    Safe (Fit sched now) ((toReady sched now t looseCpu node).bind (schNewJob sched now)) := by
  apply (toReady_spec h t looseCpu).bind
  intro node' ⟨hfit, hbecame⟩
  unfold schNewJob
  split
  · next hfree =>
      have hready : node'.ready ≠ [] := by
        rcases hbecame.waits with hwaits | hfull
        · exact hwaits
        · omega
      obtain ⟨node₁, hnext, hfit₁, -, -⟩ := nextThreadToRun_spec hfit hready hfree
      exact safe_orPanic ⟨node₁, hnext, hfit₁⟩
  · exact hfit

/-- A thread that waits busily takes its processor again. -/
theorem busyWait_spec (h : Fit sched now node) (hleft : LeftFree node t) :
    Fit sched now (threadToBusyWait sched now t node) ∧
      QuietStep node (threadToBusyWait sched now t node) := by
  have hidle := hleft.1
  have hat := hleft.at
  have hlength := hleft.lt
  have hevent := h.consistent.event_of_idle hidle
  have hconsistent := (h.consistent.threadToBusyWait hevent hidle.2 hat hlength).1
  have hctx : (node.threads t).doingContextSwitch = false := by
    by_contra hctx
    exact hidle.2 (h.consistent.interrupted t hevent (by simpa using hctx))
  have hresumed : Prepared (node.resume (node.threads t).cpu t) :=
    h.prepared.congr rfl fun _ hx => hx
  have hprep : Prepared (threadToBusyWait sched now t node) := by
    apply hresumed.setThread t
    · intro hready
      exact absurd hready hidle.2
    · intro _ hswitch
      have hswitch : (node.threads t).doingContextSwitch = true := hswitch
      rw [hctx] at hswitch
      cases hswitch
  have hcount : numFreeCpu (threadToBusyWait sched now t node) + 1 = numFreeCpu node :=
    numFreeCpu_resume hlength hat t
  have hless : numFreeCpu (threadToBusyWait sched now t node) ≤ numFreeCpu node := by
    omega
  exact ⟨⟨hconsistent, hprep⟩, ⟨id, hless⟩⟩

/-- What a call does: it makes a thread ready and sets `reload_done`, or no thread gets ready and
no processor gets free. -/
theorem call_spec (h : Fit sched now node) (c : Call) :
    Safe (fun x => Fit sched now x.1 ∧ (x.2 = false → QuietStep node x.1))
      (call sched now node c) := by
  have hkeep : ∀ (t : Nat) (th : Thread), Fit sched now (node.setThread t th) →
      Fit sched now (node.setThread t th) ∧
        (false = false → QuietStep node (node.setThread t th)) :=
    fun _ _ hfit => ⟨hfit, fun _ => ⟨id, le_refl _⟩⟩
  cases c with
  | endAction t =>
      unfold call
      simp only
      split
      · next hidle =>
          cases hend : endAction sched (node.threads t) with
          | none => exact rfl
          | some th =>
              apply hkeep t th
              exact h.keep (endAction_spec hend).1 fun hno => absurd hidle hno
      · exact rfl
  | read t action =>
      unfold call
      simp only
      split
      · next hempty =>
          apply hkeep t
          apply h.keep
          · constructor <;> rfl
          · intro _ hwork
            exact absurd hempty (action_ne_nil hwork)
      · exact rfl
  | info t priority =>
      apply hkeep t
      apply h.keep
      · constructor <;> rfl
      · exact fun _ hwork => hwork
  | burst t ti looseCpu =>
      unfold call
      simp only
      split
      · next hidle =>
          apply (burst_spec h t ti looseCpu hidle).map
          intro node' hfit
          refine ⟨hfit, fun hno => ?_⟩
          cases hno
      · exact rfl
  | ready t looseCpu =>
      apply (toReady_spec h t looseCpu).map
      intro node' ⟨hfit, _⟩
      refine ⟨hfit, fun hno => ?_⟩
      cases hno
  | newJob t looseCpu =>
      apply (newJob_spec h t looseCpu).map
      intro node' hfit
      refine ⟨hfit, fun hno => ?_⟩
      cases hno
  | busyWait t =>
      unfold call
      simp only
      split
      · next hleft =>
          obtain ⟨hfit, hquiet⟩ := busyWait_spec h hleft
          exact ⟨hfit, fun _ => hquiet⟩
      · exact rfl
  | timerOut t =>
      apply (nestedTimerOut_spec h t).map
      rintro _ rfl
      exact ⟨h, fun _ => .refl _⟩
  | endTimerOut =>
      apply (endTimerOut_spec h).map
      intro node' ⟨hfit, hquiet, _⟩
      exact ⟨hfit, fun _ => hquiet⟩

/-- The event of a thread: it goes on with its processor, or it leaves it. -/
theorem timerOut_spec (h : Fit sched now node) (hdue : (node.threads t).event = some now) :
    ∃ x, timerOut sched now t node = some x ∧ Fit sched now x.1 ∧ x.1.ready = node.ready ∧
      (x.2 = .runs → numFreeCpu x.1 = numFreeCpu node) ∧
      (x.2 ≠ .runs → numFreeCpu x.1 = numFreeCpu node + 1) := by
  have hset : (node.threads t).event.isSome := by
    rw [hdue]
    rfl
  have hat := h.consistent.event t hset
  have hready : t ∉ readyThreads node.ready := by
    intro hmem
    rw [h.consistent.ready t hmem] at hset
    cases hset
  have hsome : (timerOut sched now t node).isSome := by
    unfold timerOut
    simp only
    split
    · next hctx =>
        obtain ⟨d, rest, hact⟩ := h.prepared.switching t hset hctx
        rw [Option.isSome_map]
        exact getExecutionTime_isSome hact
    · split <;> rfl
  obtain ⟨⟨node', next⟩, hout⟩ := Option.isSome_iff_exists.mp hsome
  have hconsistent := (h.consistent.timerOut hdue hout).1
  have hreleased : Prepared (node.release (node.threads t).cpu) :=
    h.prepared.congr rfl fun _ hx => hx
  have hone := numFreeCpu_release hat
  refine ⟨(node', next), hout, ?_⟩
  cases timerOut_cases hout with
  | blocks hswitch hbusy =>
      have hprep := hreleased.setThread t
        { node.threads t with event := none, doingBusyWait := false }
        (fun hmem => absurd hmem hready) (fun hno => by cases hno)
      exact ⟨⟨hconsistent, hprep⟩, rfl, (fun hno => by cases hno), fun _ => hone⟩
  | nextOp hswitch hbusy =>
      have hprep := hreleased.setThread t { node.threads t with event := none }
        (fun hmem => absurd hmem hready) (fun hno => by cases hno)
      exact ⟨⟨hconsistent, hprep⟩, rfl, (fun hno => by cases hno), fun _ => hone⟩
  | @runs ti th hswitch hgives =>
      have hcpu : th.cpu = (node.threads t).cpu := hgives.cpu
      have hctx : th.doingContextSwitch = false := hgives.contextSwitch
      let released := node.release (node.threads t).cpu
      have hresumed : Prepared (released.resume th.cpu t) := hreleased.congr rfl fun _ hx => hx
      have hprep := hresumed.setThread t
        (Thread.timer { th with minTimeToBePreempted := minimumQuantum + now } (now + ti))
        (fun hmem => absurd hmem hready) (fun _ hno => by
          have hno : th.doingContextSwitch = true := hno
          rw [hctx] at hno
          cases hno)
      have hfree : released.at th.cpu = none := by
        rw [Node.at_release, if_pos hcpu]
      have hlength : th.cpu < released.cpus.length := by
        have hlt := Node.lt_of_at hat
        rw [hcpu]
        simpa [released, Node.release] using hlt
      have htwo := numFreeCpu_resume hlength hfree t
      have hsame : numFreeCpu (released.resume th.cpu t) = numFreeCpu node := by
        have hone : numFreeCpu released = numFreeCpu node + 1 := hone
        omega
      exact ⟨⟨hconsistent, hprep⟩, rfl, fun _ => hsame, fun hno => absurd rfl hno⟩

end

/-! ## All nodes -/

section

variable {s s' : System} {k : Nat} {site : Site} {node : Node}

/-- What the scheduler keeps about all nodes. -/
def AllFit (now : ℚ) (sites : List Site) : Prop := ∀ site ∈ sites, Fit site.sched now site.node

/-- No node has a ready thread and a free processor. -/
def Settled (sites : List Site) : Prop := ∀ site ∈ sites, Saturated site.node

/-- A node may have one processor that an event just left. -/
def SettledBut (k : Option Nat) (sites : List Site) : Prop :=
  ∀ j site, sites[j]? = some site →
    Saturated site.node ∨ some j = k ∧ numFreeCpu site.node ≤ 1

theorem getElem_setNode (s : System) (k : Nat) (node : Node) (j : Nat) :
    (s.setNode k node).sites[j]? =
      (s.sites[j]?).map fun site => if k = j then { site with node := node } else site := by
  rw [System.setNode, List.getElem?_modify]
  cases s.sites[j]? with
  | none => rfl
  | some site =>
      by_cases hk : k = j
      · simp [hk]
      · simp [hk]

theorem AllFit.setNode (h : AllFit s.now s.sites) (hsite : s.sites[k]? = some site)
    (hfit : Fit site.sched s.now node) : AllFit s.now (s.setNode k node).sites := by
  intro x hx
  obtain ⟨j, hj⟩ := List.mem_iff_getElem?.mp hx
  rw [getElem_setNode] at hj
  obtain ⟨old, hold, rfl⟩ := Option.map_eq_some_iff.mp hj
  by_cases hk : k = j
  · subst hk
    rw [hsite] at hold
    obtain rfl := Option.some.inj hold
    rw [if_pos rfl]
    exact hfit
  · rw [if_neg hk]
    exact h old (List.mem_of_getElem? hold)

theorem safe_site (h : AllFit s.now s.sites) (k : Nat) :
    Safe (fun site => s.sites[k]? = some site ∧ Fit site.sched s.now site.node) (s.site k) := by
  unfold System.site
  cases hsite : s.sites[k]? with
  | none => exact rfl
  | some site => exact ⟨rfl, h site (List.mem_of_getElem? hsite)⟩

/-- New data of a node that takes no processor from it and puts no thread in its queue. -/
theorem SettledBut.setNode {k' : Option Nat} (h : SettledBut k' s.sites)
    (hsite : s.sites[k]? = some site) (hquiet : QuietStep site.node node) :
    SettledBut k' (s.setNode k node).sites := by
  intro j x hj
  rw [getElem_setNode] at hj
  obtain ⟨old, hold, rfl⟩ := Option.map_eq_some_iff.mp hj
  by_cases hk : k = j
  · subst hk
    rw [hsite] at hold
    obtain rfl := Option.some.inj hold
    rw [if_pos rfl]
    rcases h k _ hsite with (hnil | hfull) | ⟨hk', hone⟩
    · exact .inl (.inl (hquiet.ready hnil))
    · exact .inl (.inr (Nat.le_zero.mp (hfull ▸ hquiet.free)))
    · exact .inr ⟨hk', hquiet.free.trans hone⟩
  · rw [if_neg hk]
    exact h j old hold

/-- The calls of an event keep the nodes fit. Without `reload_done` they leave the ready queues as
they are and free no processor. -/
def Keeps (k : Option Nat) (s s' : System) : Prop :=
  s'.now = s.now ∧ AllFit s'.now s'.sites ∧
    (s.reloadDone = true ∨ SettledBut k s.sites →
      s'.reloadDone = true ∨ SettledBut k s'.sites)

theorem callAt_spec (h : AllFit s.now s.sites) (k : Option Nat) (x : Nat × Call) :
    Safe (Keeps k s) (callAt s x) := by
  apply (safe_site h x.1).bind
  intro site ⟨hsite, hfit⟩
  apply (call_spec hfit x.2).map
  intro ⟨node, done⟩ ⟨hfit', hquiet⟩
  refine ⟨rfl, h.setNode hsite hfit', ?_⟩
  show s.reloadDone = true ∨ SettledBut k s.sites →
    (s.reloadDone || done) = true ∨ SettledBut k (s.setNode x.1 node).sites
  rintro (hdone | hsettled)
  · rw [hdone]
    exact .inl rfl
  · cases done with
    | true => exact .inl (Bool.or_true _)
    | false =>
        exact .inr (hsettled.setNode hsite (hquiet rfl))

theorem calls_spec (k : Option Nat) {xs : List (Nat × Call)} (h : AllFit s.now s.sites) :
    Safe (Keeps k s) (calls xs s) := by
  induction xs generalizing s with
  | nil => exact ⟨rfl, h, id⟩
  | cons x xs ih =>
      apply (callAt_spec h k x).bind
      intro s₁ ⟨hnow, hfit, hkeep⟩
      apply (ih hfit).mono
      intro s₂ ⟨hnow', hfit', hkeep'⟩
      exact ⟨hnow'.trans hnow, hfit', fun hbefore => hkeep' (hkeep hbefore)⟩

theorem settledBut_of_settled (h : Settled s.sites) (k : Option Nat) : SettledBut k s.sites :=
  fun _ _ hj => .inl (h _ (List.mem_of_getElem? hj))

theorem settled_of_settledBut (h : SettledBut none s.sites) : Settled s.sites := by
  intro x hx
  obtain ⟨j, hj⟩ := List.mem_iff_getElem?.mp hx
  rcases h j x hj with hsat | ⟨hno, -⟩
  · exact hsat
  · cases hno

/-- The node whose processor was left is saturated. -/
theorem SettledBut.settle (h : SettledBut (some k) s.sites) (hsat : Saturated node) :
    Settled (s.setNode k node).sites := by
  intro x hx
  obtain ⟨j, hj⟩ := List.mem_iff_getElem?.mp hx
  rw [getElem_setNode] at hj
  obtain ⟨old, hold, rfl⟩ := Option.map_eq_some_iff.mp hj
  by_cases hk : k = j
  · rw [if_pos hk]
    exact hsat
  · rw [if_neg hk]
    rcases h j old hold with hold' | ⟨hno, -⟩
    · exact hold'
    · exact absurd (Option.some.inj hno).symm hk

/-- What the module of an event leaves for the end of `event_manager`. -/
def Leaves (s' : System) : Prop :=
  AllFit s'.now s'.sites ∧ (s'.reloadDone = true ∨ Settled s'.sites)

/-- A thread of the queue gets the processor that an event left. -/
theorem nextThread_settles {sched : Scheduler} {now : ℚ} (h : Fit sched now node)
    (hready : node.ready ≠ []) (hfree : 0 < numFreeCpu node) :
    Safe (fun node' => Fit sched now node' ∧ (numFreeCpu node ≤ 1 → Saturated node'))
      (orPanic (nextThreadToRun sched now node)) := by
  obtain ⟨node', hnext, hfit, -, hcount⟩ := nextThreadToRun_spec h hready hfree
  refine safe_orPanic ⟨node', hnext, hfit, fun hone => .inr ?_⟩
  omega

theorem schTimerOut_spec {t : Nat} {body : List (Nat × Call)} (h : AllFit s.now s.sites)
    (hsettled : Settled s.sites)
    (hdue : ∀ site, s.sites[k]? = some site → (site.node.threads t).event = some s.now) :
    Safe Leaves (schTimerOut k t body s) := by
  apply (safe_site h k).bind
  intro site ⟨hsite, hfit⟩
  obtain ⟨⟨node, next⟩, hout, hfit', hready, hruns, hleaves⟩ := timerOut_spec hfit (hdue site hsite)
  rw [hout]
  have hfit' : Fit site.sched s.now node := hfit'
  have hready : node.ready = site.node.ready := hready
  have hall := h.setNode hsite hfit'
  have hone : next ≠ .runs → Saturated node ∨ numFreeCpu node ≤ 1 := by
    intro hne
    have hcount : numFreeCpu node = numFreeCpu site.node + 1 := hleaves hne
    rcases hsettled site (List.mem_of_getElem? hsite) with hnil | hfull
    · exact .inl (.inl (hready.trans hnil))
    · exact .inr (by omega)
  have hbut : next ≠ .runs → SettledBut (some k) (s.setNode k node).sites := by
    intro hne j x hj
    rw [getElem_setNode] at hj
    obtain ⟨old, hold, rfl⟩ := Option.map_eq_some_iff.mp hj
    by_cases hk : k = j
    · rw [if_pos hk]
      exact (hone hne).imp id fun hless => ⟨by rw [hk], hless⟩
    · rw [if_neg hk]
      exact .inl (hsettled old (List.mem_of_getElem? hold))
  cases next with
  | runs =>
      have hquiet : QuietStep site.node node :=
        ⟨fun hnil => hready.trans hnil, le_of_eq (hruns rfl)⟩
      have hkeep := (settledBut_of_settled hsettled none).setNode hsite hquiet
      exact ⟨hall, .inr (settled_of_settledBut hkeep)⟩
  | blocks =>
      have hblocks : TimeOut.blocks ≠ .runs := by
        intro hno
        cases hno
      have hcount : numFreeCpu node = numFreeCpu site.node + 1 := hleaves hblocks
      show Safe Leaves (if node.ready ≠ [] then _ else _)
      split
      · next hne =>
          have hless : numFreeCpu node ≤ 1 := by
            rcases hsettled site (List.mem_of_getElem? hsite) with hnil | hfull
            · exact absurd (hready.trans hnil) hne
            · omega
          have hpos : 0 < numFreeCpu node := by omega
          apply (nextThread_settles hfit' hne hpos).map
          intro node' ⟨hfit₁, hsat⟩
          refine ⟨h.setNode hsite hfit₁, .inr ?_⟩
          exact (settledBut_of_settled hsettled (some k)).settle (hsat hless)
      · next hnil =>
          refine ⟨hall, .inr ?_⟩
          exact (settledBut_of_settled hsettled (some k)).settle (.inl (not_not.mp hnil))
  | nextOp =>
      apply (calls_spec (some k) hall).bind
      intro s₁ ⟨_, hfit₁, hkeep⟩
      apply (safe_site hfit₁ k).bind
      intro site₁ ⟨hsite₁, hfitSite⟩
      apply (endTimerOut_spec hfitSite).map
      intro node' ⟨hfit₂, _, hsat⟩
      refine ⟨hfit₁.setNode hsite₁ hfit₂, ?_⟩
      rcases hkeep (.inr (hbut (by decide))) with hdone | hbut₁
      · exact .inl hdone
      · right
        apply hbut₁.settle
        apply hsat
        exact (hbut₁ k site₁ hsite₁).imp id And.right

theorem reloadEvents_spec {now : ℚ} {sites : List Site} (h : AllFit now sites) :
    Safe (fun sites' => AllFit now sites' ∧ Settled sites') (reloadEvents now sites) := by
  induction sites with
  | nil =>
      constructor
      · intro x hx
        cases hx
      · intro x hx
        cases hx
  | cons site sites ih =>
      have hfirst := h site List.mem_cons_self
      apply (reloadNode_spec hfirst (le_refl _)).bind
      intro node ⟨hfit, hsat, _⟩
      apply (ih fun x hx => h x (List.mem_cons_of_mem _ hx)).map
      intro sites' ⟨hall, hsettled⟩
      constructor
      · intro x hx
        rcases List.mem_cons.mp hx with rfl | hx
        · exact hfit
        · exact hall x hx
      · intro x hx
        rcases List.mem_cons.mp hx with rfl | hx
        · exact hsat
        · exact hsettled x hx

/-- Between two events all nodes are fit and settled. -/
def Good (s : System) : Prop := AllFit s.now s.sites ∧ Settled s.sites

theorem reload_spec (h : Leaves s) : Safe Good (reload s) := by
  unfold reload
  split
  · apply (reloadEvents_spec h.1).map
    intro sites hgood
    exact hgood
  · next hno => exact ⟨h.1, h.2.resolve_left hno⟩

theorem AllFit.clock {time : ℚ} (h : AllFit s.now s.sites) (hnext : Next s time) :
    AllFit time s.sites := by
  intro site hmem
  have hfit := h site hmem
  have hclock : Accounts site.sched ⟨site.node, s.now⟩ ⟨site.node, time⟩ (.clock time) :=
    accounts_clock hfit.consistent hnext.1 (hnext.2 site hmem)
  exact ⟨hclock.1, hfit.prepared⟩

theorem eventTime_scheduler {t : Nat} {body : List (Nat × Call)} {time : ℚ}
    (h : eventTime s (.scheduler k t body) = .ok time) (hsite : s.sites[k]? = some site) :
    (site.node.threads t).event = some time := by
  have hsame : s.site k = .ok site := by
    rw [System.site, hsite]
  rw [eventTime, hsame] at h
  cases hevent : (site.node.threads t).event with
  | none => simp [Except.bind, hevent] at h
  | some when => simpa [Except.bind, hevent] using h

theorem safe_eventTime (h : AllFit s.now s.sites) (e : Event) :
    Safe (fun _ => True) (eventTime s e) := by
  cases e with
  | scheduler k t body =>
      apply (safe_site h k).bind
      intro site _
      cases hevent : (site.node.threads t).event with
      | none => exact rfl
      | some when => trivial
  | other time body => trivial

/-- Step lemma: an event keeps the nodes fit and settled. -/
theorem eventManager_spec (h : Good s) (e : Event) : Safe Good (eventManager s e) := by
  have hsafe := safe_eventTime h.1 e
  unfold eventManager
  cases htime : eventTime s e with
  | error f =>
      rw [htime] at hsafe
      exact hsafe
  | ok time =>
      show Safe Good (if Next s time then _ else _)
      split
      · next hnext =>
          let s₁ : System := { s with now := time }
          have hfit : AllFit s₁.now s₁.sites := h.1.clock hnext
          have hleaves : Safe Leaves (dispatch s₁ e) := by
            cases e with
            | scheduler k t body =>
                exact schTimerOut_spec hfit h.2 fun site hsite => eventTime_scheduler htime hsite
            | other when body =>
                apply (calls_spec none hfit).mono
                intro s₂ ⟨_, hfit₂, hkeep⟩
                have hbut := hkeep (.inr (settledBut_of_settled h.2 none))
                exact ⟨hfit₂, hbut.imp id settled_of_settledBut⟩
          exact hleaves.bind fun _ => reload_spec
      · exact rfl

/-! ## The start -/

def AllFree (sites : List Site) : Prop :=
  ∀ site ∈ sites, numFreeCpu site.node = site.node.cpus.length

theorem AllFree.setNode (h : AllFree s.sites) (hsite : s.sites[k]? = some site)
    (hbecame : Became site.node node) : AllFree (s.setNode k node).sites := by
  intro x hx
  obtain ⟨j, hj⟩ := List.mem_iff_getElem?.mp hx
  rw [getElem_setNode] at hj
  obtain ⟨old, hold, rfl⟩ := Option.map_eq_some_iff.mp hj
  by_cases hk : k = j
  · rw [if_pos hk]
    have hfree := h site (List.mem_of_getElem? hsite)
    show numFreeCpu node = node.cpus.length
    rw [hbecame.free, hbecame.cpus, hfree]
  · rw [if_neg hk]
    exact h old (List.mem_of_getElem? hold)

theorem initThread_spec (h : AllFit s.now s.sites) (hfree : AllFree s.sites) (x : Nat × Nat) :
    Safe (fun s' => AllFit s'.now s'.sites ∧ AllFree s'.sites) (initThread s x) := by
  have hready : Safe (fun s' => AllFit s'.now s'.sites ∧ AllFree s'.sites)
      (callAt s (x.1, .ready x.2 true)) := by
    apply (safe_site h x.1).bind
    intro site ⟨hsite, hfit⟩
    have hcall : Safe (fun y => Fit site.sched s.now y.1 ∧ Became site.node y.1)
        (call site.sched s.now site.node (.ready x.2 true)) :=
      (toReady_spec hfit x.2 true).map fun _ hnode => hnode
    apply hcall.map
    intro ⟨node, done⟩ ⟨hfit', hbecame⟩
    exact ⟨h.setNode hsite hfit', hfree.setNode hsite hbecame⟩
  apply (safe_site h x.1).bind
  intro site _
  split
  · exact hready
  · exact rfl

theorem initThreads_spec {threads : List (Nat × Nat)} (h : AllFit s.now s.sites)
    (hfree : AllFree s.sites) :
    Safe (fun s' => AllFit s'.now s'.sites ∧ AllFree s'.sites) (initThreads threads s) := by
  induction threads generalizing s with
  | nil => exact ⟨h, hfree⟩
  | cons x threads ih =>
      apply (initThread_spec h hfree x).bind
      intro s₁ ⟨hfit, hfree₁⟩
      exact ih hfit hfree₁

theorem startNodes_spec {now : ℚ} {sites : List Site} (h : AllFit now sites)
    (hfree : AllFree sites) :
    Safe (fun sites' => AllFit now sites' ∧ Settled sites') (startNodes now sites) := by
  induction sites with
  | nil =>
      constructor
      · intro x hx
        cases hx
      · intro x hx
        cases hx
  | cons site sites ih =>
      have hall := hfree site List.mem_cons_self
      let n := min site.node.ready.length site.node.cpus.length
      have hless : n ≤ numFreeCpu site.node := hall ▸ Nat.min_le_right ..
      apply (startThreads_spec (h site List.mem_cons_self) (Nat.min_le_left ..) hless).bind
      intro node ⟨hfit, hqueue, hsum⟩
      have hsat : Saturated node := by
        rcases Nat.le_total site.node.ready.length site.node.cpus.length with hle | hle
        · left
          rw [hqueue, List.drop_eq_nil_iff, Nat.min_eq_left hle]
        · right
          rw [Nat.min_eq_right hle] at hsum
          omega
      apply (ih (fun x hx => h x (List.mem_cons_of_mem _ hx))
        fun x hx => hfree x (List.mem_cons_of_mem _ hx)).map
      intro sites' ⟨hrest, hsettled⟩
      constructor
      · intro x hx
        rcases List.mem_cons.mp hx with rfl | hx
        · exact hfit
        · exact hrest x hx
      · intro x hx
        rcases List.mem_cons.mp hx with rfl | hx
        · exact hsat
        · exact hsettled x hx

/-- Nothing runs, nothing is ready and there is no event on any node. -/
def Blank (s : System) : Prop := ∀ site ∈ s.sites, Initial ⟨site.node, s.now⟩

theorem Blank.allFit (h : Blank s) : AllFit s.now s.sites := by
  intro site hmem
  have hinit := h site hmem
  refine ⟨hinit.consistent, ⟨fun t ht => ?_, fun t hset => ?_⟩⟩
  · have hready : site.node.ready = [] := hinit.ready
    rw [hready] at ht
    cases ht
  · have hevent : (site.node.threads t).event = none := hinit.event t
    rw [hevent] at hset
    cases hset

theorem Blank.allFree (h : Blank s) : AllFree s.sites := by
  intro site hmem
  have hrunning : site.node.cpus.filterMap Cpu.currentThread = [] := (h site hmem).running
  apply List.countP_eq_length.mpr
  intro c hc
  exact decide_eq_true (List.filterMap_eq_nil_iff.mp hrunning c hc)

/-- The scheduler starts without a panic, and no processor is left free. -/
theorem schedulerInit_spec (h : Blank s) (threads : List (Nat × Nat)) :
    Safe Good (schedulerInit threads s) := by
  apply (initThreads_spec h.allFit h.allFree).bind
  intro s₁ ⟨hfit, hfree⟩
  apply (startNodes_spec hfit hfree).map
  intro sites hgood
  exact hgood

/-! ## Runs -/

/-- No thread has two processors, or one processor and a place in the ready queue. -/
structure Exclusive (node : Node) : Prop where
  oneCpu : ∀ i j t, node.at i = some t → node.at j = some t → i = j
  notReady : ∀ t ∈ node.running, t ∉ readyThreads node.ready
  nodup : (readyThreads node.ready).Nodup

theorem Fit.exclusive {sched : Scheduler} {now : ℚ} (h : Fit sched now node) :
    Exclusive node := by
  constructor
  · intro i j t hi hj
    calc i = (node.threads t).cpu := (h.consistent.running i t hi).1.symm
      _ = j := (h.consistent.running j t hj).1
  · intro t hrun hready
    have hset := h.consistent.mem_running.mp hrun
    rw [h.consistent.ready t hready] at hset
    cases hset
  · exact h.consistent.nodup

theorem good_of_step {e : Event} (h : Good s) (hstep : step s e = some s') : Good s' :=
  (eventManager_spec h e).of_eq (eq_ok_of_toOption hstep)

/-- The node of `twoBursts` with FIXED_PRIORITY_FIFO. -/
def twoThreads : System := ⟨[⟨prioFifoScheduler, twoBursts.node⟩], 0, false⟩

/-- The two threads start. Thread 1 has the better priority. Behind its burst it calls a collective
without blocking, goes on with a new burst, and keeps thread 0 waiting. -/
def started : Option System := (schedulerInit [(0, 0), (0, 1)] twoThreads).toOption

theorem started_isSome : started.isSome := by
  decide +kernel

def simulated : Option (List (Transition System Event) × System) :=
  exec step (started.get started_isSome)
    [.scheduler 0 1
      [(0, .read 1 (.operation 3)), (0, .endAction 1), (0, .read 1 (.work 5)), (0, .timerOut 1),
        (0, .ready 1 true), (0, .endTimerOut)]]

theorem simulated_isSome : simulated.isSome := by
  decide +kernel

theorem schedulerInit_started :
    schedulerInit [(0, 0), (0, 1)] twoThreads = .ok (started.get started_isSome) :=
  eq_ok_of_toOption (Option.some_get started_isSome).symm

end

end Dimemas.Sched.EventManager
