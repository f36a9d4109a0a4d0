import Dimemas.Library.Transitions
import Dimemas.Sched.General
/-!
# Conservation of the bursts of a thread

The scheduler of a node as a transition system: time goes on, events of threads end, operations
take their time, and threads become ready, are preempted and get processors in any order. The time
for which a thread holds a processor for its bursts is the time of these bursts.
-/

namespace Dimemas.Sched.Bursts

open Dimemas.Library.Transitions
open Dimemas.Sched.Threads
open Dimemas.Sched.Dispatch
open Dimemas.Sched.General

/-- A node and `current_time`. -/
structure State where
  node : Node
  now : ℚ

/-- A thread has no processor and is not in the ready queue. -/
def Idle (node : Node) (t : Nat) : Prop :=
  t ∉ node.running ∧ t ∉ readyThreads node.ready

instance (node : Node) (t : Nat) : Decidable (Idle node t) :=
  inferInstanceAs (Decidable (_ ∧ _))

/-- What happens on a node. `read` gives a thread its next action, `info` is the call of
`SCHEDULER_info` for its operation, and `burst` and `ready` are `SCHEDULER_thread_to_ready_return`
and `SCHEDULER_thread_to_ready`. -/
inductive Label
  | clock (time : ℚ)
  | timerOut (t : Nat)
  | endAction (t : Nat)
  | read (t : Nat) (action : Action)
  | info (t : Nat) (priority : ℚ)
  | burst (t : Nat) (ti : ℚ) (looseCpu : Bool)
  | ready (t : Nat) (looseCpu : Bool)
  | busyWait (t : Nat)
  | nextThread

/-- One step. The event manager takes no event behind another one, an event is taken at its time,
and only a thread that holds nothing executes its operations. `none` is also a panic. -/
def step (sched : Scheduler) (s : State) : Label → Option State
  | .clock time =>
      if s.now ≤ time ∧
          ∀ t ∈ s.node.running, ∀ when ∈ (s.node.threads t).event, time ≤ when then
        some { s with now := time }
      else none
  | .timerOut t =>
      if (s.node.threads t).event = some s.now then
        (timerOut sched s.now t s.node).map fun (node, _) => { s with node := node }
      else none
  | .endAction t =>
      if Idle s.node t then
        (endAction sched (s.node.threads t)).map fun th =>
          { s with node := s.node.setThread t th }
      else none
  | .read t action =>
      let th := s.node.threads t
      if th.action = [] then
        some { s with node := s.node.setThread t { th with action := [action] } }
      else none
  | .info t priority =>
      let th := s.node.threads t
      some { s with node := s.node.setThread t { th with priority := priority } }
  | .burst t ti looseCpu =>
      let node := s.node.setThread t { s.node.threads t with looseCpu := looseCpu }
      if Idle s.node t then
        (threadToReadyReturn sched s.now t ti node).map fun node => { s with node := node }
      else none
  | .ready t looseCpu =>
      let node := s.node.setThread t { s.node.threads t with looseCpu := looseCpu }
      if Idle s.node t then
        (threadToReady sched s.now t node).map fun node => { s with node := node }
      else none
  | .busyWait t =>
      if Idle s.node t ∧
          (s.node.cpus[(s.node.threads t).cpu]?).map Cpu.currentThread = some none then
        some { s with node := threadToBusyWait sched s.now t s.node }
      else none
  | .nextThread => (nextThreadToRun sched s.now s.node).map fun node => { s with node := node }

/-- The scheduler starts: nothing runs, nothing is ready and there is no event. -/
structure Initial (s : State) : Prop where
  running : s.node.running = []
  ready : s.node.ready = []
  event : ∀ t, (s.node.threads t).event = none
  contextSwitch : ∀ t, (s.node.threads t).doingContextSwitch = false
  busyWait : ∀ t, (s.node.threads t).doingBusyWait = false

/-- The thread holds a processor for a burst. -/
def Computes (node : Node) (t : Nat) : Prop :=
  t ∈ node.running ∧ (node.threads t).doingContextSwitch = false ∧
    (node.threads t).doingBusyWait = false

instance (node : Node) (t : Nat) : Decidable (Computes node t) :=
  inferInstanceAs (Decidable (_ ∧ _))

/-- The time of a transition for which the thread holds a processor for a burst. -/
def computed (t : Nat) (x : Transition State Label) : ℚ :=
  if Computes x.pre.node t then x.post.now - x.pre.now else 0

def given (t : Nat) (x : Transition State Label) : ℚ :=
  match x.label with
  | .read u action => if u = t then pendingWork [action] else 0
  | .burst u ti _ => if u = t then ti else 0
  | _ => 0

def openBurst (now : ℚ) (th : Thread) : ℚ :=
  match th.event with
  | some when => if th.doingContextSwitch || th.doingBusyWait then 0 else when - now
  | none => 0

def remaining (now : ℚ) (th : Thread) : ℚ := openBurst now th + pendingWork th.action

/-! ## Threads -/

/-- What the scheduler keeps about a thread. A context switch ends when the thread may be
preempted, and a thread may be preempted when its event was set or not before it ends. -/
structure Sound (sched : Scheduler) (now : ℚ) (th : Thread) : Prop where
  busyWait : th.doingBusyWait = true → th.event.isSome ∧ th.doingContextSwitch = false
  switches : th.doingContextSwitch = true → sched.contextSwitch ≠ 0
  switching : th.doingContextSwitch = true → ∀ when, th.event = some when →
    now ≤ when ∧ th.minTimeToBePreempted = when
  minTime : th.event.isSome →
    th.minTimeToBePreempted ≤ now ∨ th.nextEventTimer ≤ th.minTimeToBePreempted

section

variable {sched : Scheduler} {now : ℚ} {th th' : Thread} {i : Nat}

theorem remaining_of_none (h : th.event = none) : remaining now th = pendingWork th.action := by
  rw [remaining, openBurst, h, zero_add]

theorem remaining_of_sameRun (h : SameRun th th') :
    remaining now th' = remaining now th - pendingWork th.action + pendingWork th'.action := by
  unfold remaining openBurst
  rw [h.event, h.contextSwitch, h.busyWait]
  ring

theorem Sound.of_none (hevent : th.event = none) (hbusy : th.doingBusyWait = false)
    (hswitches : th.doingContextSwitch = true → sched.contextSwitch ≠ 0) : Sound sched now th where
  busyWait h := by
    rw [hbusy] at h
    cases h
  switches := hswitches
  switching _ when h := by
    rw [hevent] at h
    cases h
  minTime h := by
    rw [hevent] at h
    cases h

theorem Sound.sameRun (h : Sound sched now th) (hsame : SameRun th th') :
    Sound sched now th' where
  busyWait := by
    rw [hsame.busyWait, hsame.event, hsame.contextSwitch]
    exact h.busyWait
  switches := by
    rw [hsame.contextSwitch]
    exact h.switches
  switching := by
    rw [hsame.contextSwitch, hsame.event, hsame.minTime]
    exact h.switching
  minTime := by
    rw [hsame.event, hsame.minTime, hsame.timer]
    exact h.minTime

theorem Sound.busyWait_of_none (h : Sound sched now th) (hevent : th.event = none) :
    th.doingBusyWait = false := by
  by_contra hbusy
  have hsome := (h.busyWait (by simpa using hbusy)).1
  rw [hevent] at hsome
  cases hsome

/-- A thread that is put on a processor keeps its bursts. -/
theorem Sound.started (h : Sound sched now th) (hevent : th.event = none)
    (hstart : Started sched now i th th') :
    Sound sched now th' ∧ remaining now th' = remaining now th ∧ th'.cpu = i ∧
      th'.event.isSome := by
  have hbusy := h.busyWait_of_none hevent
  rw [remaining_of_none hevent]
  cases hstart with
  | switches hne =>
      have hmin : now + minimumQuantum + sched.contextSwitch = now + sched.contextSwitch := by
        rw [minimumQuantum, add_zero]
      refine ⟨⟨?_, fun _ => hne, ?_, fun _ => .inr ?_⟩, ?_, rfl, rfl⟩
      · intro hwait
        have hwait : th.doingBusyWait = true := hwait
        rw [hbusy] at hwait
        cases hwait
      · intro _ when hwhen
        obtain rfl : now + sched.contextSwitch = when := Option.some.inj hwhen
        exact ⟨le_add_of_nonneg_right sched.contextSwitch_nonneg, hmin⟩
      · exact le_of_eq hmin.symm
      · simp [remaining, openBurst, Thread.timer]
  | @runs ti th₁ hzero hgives =>
      have hswitch : th₁.doingContextSwitch = false := by
        rw [hgives.contextSwitch]
        by_contra hne
        exact h.switches (by simpa using hne) hzero
      have hwait : th₁.doingBusyWait = false := by rw [hgives.busyWait, hbusy]
      refine ⟨⟨?_, ?_, ?_, fun _ => .inl ?_⟩, ?_, hgives.cpu, rfl⟩
      · intro hwait'
        have hwait' : th₁.doingBusyWait = true := hwait'
        rw [hwait] at hwait'
        cases hwait'
      · intro hswitch'
        have hswitch' : th₁.doingContextSwitch = true := hswitch'
        rw [hswitch] at hswitch'
        cases hswitch'
      · intro hswitch'
        have hswitch' : th₁.doingContextSwitch = true := hswitch'
        rw [hswitch] at hswitch'
        cases hswitch'
      · show th₁.minTimeToBePreempted ≤ now
        rw [hgives.minTime, minimumQuantum, add_zero]
      · have hpending : ti + pendingWork th₁.action = pendingWork th.action := hgives.pending
        rw [← hpending]
        simp [remaining, openBurst, Thread.timer, hswitch, hwait]

/-- What is put in front of the actions of a thread that is preempted is the rest of its burst. -/
theorem pendingWork_preemptedActions (th : Thread) (ti : ℚ) :
    pendingWork (preemptedActions th ti) = ti + pendingWork th.action := by
  unfold preemptedActions
  simp only
  split <;> split <;> split <;> simp

theorem Sound.stops {when : ℚ} (h : Sound sched now th) (hbusy : th.doingBusyWait = false)
    (hmin : th.minTimeToBePreempted ≤ now) (hevent : th.event = some when) :
    pendingWork (preemptedActions th (when - now)) = remaining now th := by
  rw [pendingWork_preemptedActions, remaining, openBurst, hevent]
  simp only [hbusy, Bool.or_false]
  split
  · next hswitch =>
      have hend := h.switching hswitch when hevent
      have hnow : when = now := le_antisymm (hend.2 ▸ hmin) hend.1
      rw [hnow, sub_self]
  · rfl

/-- A policy cannot delay the preemption of a thread to an earlier end of its event. -/
theorem Sound.not_delays (h : Sound sched now th) (hevent : th.event.isSome)
    (hmin : now < th.minTimeToBePreempted) (hnext : th.minTimeToBePreempted < th.nextEventTimer) :
    False := by
  rcases h.minTime hevent with hle | hle
  · exact absurd hmin (not_lt.mpr hle)
  · exact absurd hnext (not_lt.mpr hle)

end

/-! ## Nodes -/

/-- What the scheduler keeps about a node: a thread with an event holds exactly one processor, the
threads of the ready queue are different and hold none, and a context switch that was interrupted
is one of a ready thread. -/
structure Consistent (sched : Scheduler) (now : ℚ) (node : Node) : Prop where
  running : ∀ i t, node.at i = some t →
    (node.threads t).cpu = i ∧ (node.threads t).event.isSome
  event : ∀ t, (node.threads t).event.isSome → node.at (node.threads t).cpu = some t
  nodup : (readyThreads node.ready).Nodup
  ready : ∀ t ∈ readyThreads node.ready, (node.threads t).event = none
  interrupted : ∀ t, (node.threads t).event = none →
    (node.threads t).doingContextSwitch = true → t ∈ readyThreads node.ready
  sound : ∀ t, Sound sched now (node.threads t)

def SameRemaining (now : ℚ) (node node' : Node) : Prop :=
  ∀ t, remaining now (node'.threads t) = remaining now (node.threads t)

section

variable {sched : Scheduler} {now : ℚ} {t i cur : Nat} {node node' : Node} {th : Thread}

theorem SameRemaining.trans {node'' : Node} (h : SameRemaining now node node')
    (h' : SameRemaining now node' node'') : SameRemaining now node node'' :=
  fun t => (h' t).trans (h t)

theorem sameRemaining_setThread (h : remaining now th = remaining now (node.threads t)) :
    SameRemaining now node (node.setThread t th) := by
  intro x
  by_cases hx : x = t
  · subst hx
    rw [Node.setThread_self]
    exact h
  · rw [Node.setThread_of_ne hx]

theorem Consistent.mem_running (h : Consistent sched now node) :
    t ∈ node.running ↔ (node.threads t).event.isSome := by
  rw [Node.mem_running]
  constructor
  · intro ⟨i, hi⟩
    exact (h.running i t hi).2
  · intro hevent
    exact ⟨_, h.event t hevent⟩

theorem Consistent.event_of_idle (h : Consistent sched now node) (hidle : Idle node t) :
    (node.threads t).event = none := by
  by_contra hevent
  exact hidle.1 (h.mem_running.mpr (Option.isSome_iff_ne_none.mpr hevent))

/-- A thread that is changed apart from its processor and its event. -/
theorem Consistent.keep (h : Consistent sched now node) (hsame : SameRun (node.threads t) th) :
    Consistent sched now (node.setThread t th) := by
  have hruns : ∀ x, SameRun (node.threads x) ((node.setThread t th).threads x) := by
    intro x
    by_cases hx : x = t
    · subst hx
      rw [Node.setThread_self]
      exact hsame
    · rw [Node.setThread_of_ne hx]
      exact SameRun.refl _
  constructor
  · intro i x hx
    rw [(hruns x).cpu, (hruns x).event]
    exact h.running i x hx
  · intro x hx
    rw [(hruns x).event] at hx
    rw [(hruns x).cpu]
    exact h.event x hx
  · exact h.nodup
  · intro x hx
    rw [(hruns x).event]
    exact h.ready x hx
  · intro x hevent hswitch
    rw [(hruns x).event] at hevent
    rw [(hruns x).contextSwitch] at hswitch
    exact h.interrupted x hevent hswitch
  · intro x
    exact (h.sound x).sameRun (hruns x)

/-- The threads of a ready queue that gets one more. -/
theorem Consistent.nodup_of_perm (h : Consistent sched now node) {q : List (ℚ × Nat)}
    {back : Option Nat} (hperm : (readyThreads q).Perm (back.toList ++ readyThreads node.ready))
    (hback : ∀ x ∈ back, x ∉ readyThreads node.ready) : (readyThreads q).Nodup := by
  rw [hperm.nodup_iff]
  cases back with
  | none => exact h.nodup
  | some x =>
      apply List.nodup_cons.mpr
      exact ⟨hback x rfl, h.nodup⟩

theorem Consistent.enters (h : Consistent sched now node) (hevent : (node.threads t).event = none)
    (hready : t ∉ readyThreads node.ready) (henters : Enters (some t) node node') :
    Consistent sched now node' ∧ SameRemaining now node node' := by
  obtain ⟨q, rfl, hperm⟩ := henters
  have hmem : ∀ x, x ∈ readyThreads q ↔ x = t ∨ x ∈ readyThreads node.ready := by
    intro x
    rw [hperm.mem_iff]
    exact List.mem_cons
  refine ⟨⟨h.running, h.event, ?_, fun x hx => ?_, fun x hnone hswitch => ?_, h.sound⟩,
    fun _ => rfl⟩
  · apply h.nodup_of_perm hperm
    intro x hx
    obtain rfl : t = x := Option.some.inj hx
    exact hready
  · rcases (hmem x).mp hx with hxt | hx
    · rw [hxt]
      exact hevent
    · exact h.ready x hx
  · exact (hmem x).mpr (.inr (h.interrupted x hnone hswitch))

/-- The ready queue of a node without a thread. -/
def Without (t : Nat) (node : Node) (q : List (ℚ × Nat)) : Prop :=
  (readyThreads q).Nodup ∧ ∀ x, x ∈ readyThreads q ↔ x ∈ readyThreads node.ready ∧ x ≠ t

theorem Consistent.without (h : Consistent sched now node) (hready : t ∉ readyThreads node.ready) :
    Without t node node.ready := by
  refine ⟨h.nodup, fun x => ⟨fun hx => ⟨hx, ?_⟩, And.left⟩⟩
  intro heq
  exact hready (heq ▸ hx)

/-- A thread gets a free processor, perhaps from the ready queue. -/
theorem Consistent.gets (h : Consistent sched now node) (hfree : node.at i = none)
    (hthreads : node'.threads = node.threads) (hqueue : Without t node node'.ready)
    (hat : ∀ j, node'.at j = if j = i then some t else node.at j)
    (hevent : (node.threads t).event = none) (hsound : Sound sched now th) (hcpu : th.cpu = i)
    (hset : th.event.isSome) :
    Consistent sched now (node'.setThread t th) := by
  have hother : ∀ x, x ≠ t → (node'.setThread t th).threads x = node.threads x := by
    intro x hx
    rw [Node.setThread_of_ne hx, hthreads]
  have hne : ∀ x, (node.threads x).event.isSome → x ≠ t := by
    intro x hx heq
    rw [heq, hevent] at hx
    cases hx
  constructor
  · intro j x hx
    rw [Node.at_setThread, hat] at hx
    split at hx
    · next hj =>
        obtain rfl : t = x := Option.some.inj hx
        rw [Node.setThread_self]
        exact ⟨hcpu.trans hj.symm, hset⟩
    · have hold := h.running j x hx
      rw [hother x (hne x hold.2)]
      exact hold
  · intro x hx
    rw [Node.at_setThread, hat]
    by_cases hxt : x = t
    · subst hxt
      rw [Node.setThread_self, if_pos hcpu]
    · rw [hother x hxt] at hx ⊢
      have hold := h.event x hx
      rw [if_neg]
      · exact hold
      · intro heq
        rw [heq, hfree] at hold
        cases hold
  · exact hqueue.1
  · intro x hx
    obtain ⟨hx, hxt⟩ := (hqueue.2 x).mp hx
    rw [hother x hxt]
    exact h.ready x hx
  · intro x hnone hswitch
    have hxt : x ≠ t := by
      intro heq
      rw [heq, Node.setThread_self] at hnone
      rw [hnone] at hset
      cases hset
    rw [hother x hxt] at hnone hswitch
    exact (hqueue.2 x).mpr ⟨h.interrupted x hnone hswitch, hxt⟩
  · intro x
    by_cases hxt : x = t
    · subst hxt
      rw [Node.setThread_self]
      exact hsound
    · rw [hother x hxt]
      exact h.sound x

/-- A thread leaves its processor, perhaps for the ready queue. -/
theorem Consistent.release (h : Consistent sched now node) (hcur : node.at i = some cur)
    (hevent : th.event = none) (hsound : Sound sched now th) {q : List (ℚ × Nat)}
    {back : Option Nat} (hperm : (readyThreads q).Perm (back.toList ++ readyThreads node.ready))
    (hback : ∀ x ∈ back, x = cur) (hswitch : th.doingContextSwitch = true → back = some cur) :
    Consistent sched now ((({ node with ready := q } : Node).release i).setThread cur th) := by
  have hat : ∀ j, ((({ node with ready := q } : Node).release i).setThread cur th).at j =
      if j = i then none else node.at j := by
    intro j
    rw [Node.at_setThread, Node.at_release]
    rfl
  obtain ⟨hcpu, hcurEvent⟩ := h.running i cur hcur
  have hcurReady : cur ∉ readyThreads node.ready := by
    intro hmem
    rw [h.ready cur hmem] at hcurEvent
    cases hcurEvent
  constructor
  · intro j x hx
    rw [hat] at hx
    split at hx
    · cases hx
    · next hj =>
        have hold := h.running j x hx
        have hxcur : x ≠ cur := by
          intro heq
          rw [heq, hcpu] at hold
          exact hj hold.1.symm
        rw [Node.setThread_of_ne hxcur]
        exact hold
  · intro x hx
    by_cases hxcur : x = cur
    · subst hxcur
      rw [Node.setThread_self, hevent] at hx
      cases hx
    · rw [Node.setThread_of_ne hxcur] at hx ⊢
      have hold := h.event x hx
      rw [hat, if_neg]
      · exact hold
      · intro heq
        have heq : (node.threads x).cpu = i := heq
        rw [heq, hcur] at hold
        exact hxcur (Option.some.inj hold).symm
  · apply h.nodup_of_perm hperm
    intro x hx
    rw [hback x hx]
    exact hcurReady
  · intro x hx
    by_cases hxcur : x = cur
    · subst hxcur
      rw [Node.setThread_self]
      exact hevent
    · rw [Node.setThread_of_ne hxcur]
      have hx : x ∈ readyThreads q := hx
      rw [hperm.mem_iff, List.mem_append, Option.mem_toList] at hx
      rcases hx with hx | hx
      · exact absurd (hback x hx) hxcur
      · exact h.ready x hx
  · intro x hnone hctx
    show x ∈ readyThreads q
    rw [hperm.mem_iff, List.mem_append, Option.mem_toList]
    by_cases hxcur : x = cur
    · subst hxcur
      rw [Node.setThread_self] at hctx
      exact .inl (hswitch hctx)
    · rw [Node.setThread_of_ne hxcur] at hnone hctx
      exact .inr (h.interrupted x hnone hctx)
  · intro x
    by_cases hxcur : x = cur
    · subst hxcur
      rw [Node.setThread_self]
      exact hsound
    · rw [Node.setThread_of_ne hxcur]
      exact h.sound x

theorem Consistent.putThreadOnRun (h : Consistent sched now node)
    (hevent : (node.threads t).event = none) {q : List (ℚ × Nat)} (hqueue : Without t node q)
    (hput : Dispatch.putThreadOnRun sched now t { node with ready := q } = some node') :
    Consistent sched now node' ∧ SameRemaining now node node' := by
  obtain ⟨i, th, hi, hstart, rfl⟩ := putThreadOnRun_cases hput
  obtain ⟨hlength, hfree⟩ := free_of_selectFreeCpu hi
  obtain ⟨hsound, hremaining, hcpu, hset⟩ := (h.sound t).started hevent hstart
  let occupied := ({ node with ready := q } : Node).occupy i t
  have hthreads : occupied.threads = node.threads := rfl
  have hsame : SameRemaining now occupied (occupied.setThread t th) :=
    sameRemaining_setThread hremaining
  constructor
  · exact h.gets hfree hthreads hqueue (Node.at_occupy hlength t) hevent hsound hcpu hset
  · exact hsame

theorem putThreadOnRun_setReady (hput : Dispatch.putThreadOnRun sched now t node = some node')
    (q : List (ℚ × Nat)) :
    Dispatch.putThreadOnRun sched now t { node with ready := q } =
      some { node' with ready := q } := by
  unfold Dispatch.putThreadOnRun at hput ⊢
  obtain ⟨i, hi, hrest⟩ := Option.bind_eq_some_iff.mp hput
  have hi' : selectFreeCpu { node with ready := q } t = some i := hi
  rw [hi', Option.bind_some]
  simp only at hrest ⊢
  split at hrest
  · next hne =>
      obtain rfl := Option.some.inj hrest
      rw [if_pos hne]
      rfl
  · next hne =>
      obtain ⟨⟨ti, th⟩, hget, rfl⟩ := Option.map_eq_some_iff.mp hrest
      rw [if_neg hne, hget]
      rfl

theorem Consistent.displace (h : Consistent sched now node) (hcur : node.at i = some cur)
    (htEvent : (node.threads t).event = none) (htReady : t ∉ readyThreads node.ready)
    (hevent : th.event = none) (hsound : Sound sched now th) {back : Option Nat}
    (hback : ∀ x ∈ back, x = cur) (hswitch : th.doingContextSwitch = true → back = some cur)
    (hremaining : remaining now th = remaining now (node.threads cur)) {node₁ : Node}
    (hput : Dispatch.putThreadOnRun sched now t ((node.release i).setThread cur th) = some node₁)
    (henters : Enters back node₁ node') :
    Consistent sched now node' ∧ SameRemaining now node node' := by
  obtain ⟨q, rfl, hperm⟩ := henters
  have hready : node₁.ready = node.ready := by
    obtain ⟨_, _, _, _, rfl⟩ := putThreadOnRun_cases hput
    rfl
  rw [hready] at hperm
  have hput := putThreadOnRun_setReady hput q
  have hne : t ≠ cur := by
    intro heq
    have hset := (h.running i cur hcur).2
    rw [← heq, htEvent] at hset
    cases hset
  have hstopped := h.release hcur hevent hsound hperm hback hswitch
  have htNew : t ∉ readyThreads q := by
    rw [hperm.mem_iff, List.mem_append, Option.mem_toList]
    rintro (hmem | hmem)
    · exact hne (hback t hmem)
    · exact htReady hmem
  have htNone : (((({ node with ready := q } : Node).release i).setThread cur th).threads t).event =
      none := by
    rw [Node.setThread_of_ne hne]
    exact htEvent
  obtain ⟨hconsistent, hsame⟩ := hstopped.putThreadOnRun htNone (hstopped.without htNew) hput
  let released := ({ node with ready := q } : Node).release i
  have hstop : SameRemaining now released (released.setThread cur th) :=
    sameRemaining_setThread hremaining
  exact ⟨hconsistent, SameRemaining.trans hstop hsame⟩

theorem Consistent.becomesReady (h : Consistent sched now node)
    (hevent : (node.threads t).event = none) (hready : t ∉ readyThreads node.ready)
    (hbecomes : BecomesReady sched now t node node') :
    Consistent sched now node' ∧ SameRemaining now node node' := by
  obtain ⟨node₁, back, hroom, henters⟩ := hbecomes
  rcases hroom with ⟨rfl, rfl⟩ | ⟨i, cur, hcur, hcase⟩
  · exact h.enters hevent hready henters
  · have hset := (h.running i cur hcur).2
    have hsound := h.sound cur
    cases hcase with
    | goesOn => exact h.enters hevent hready henters
    | delays hbusy hmin hnext =>
        exfalso
        exact hsound.not_delays hset hmin hnext
    | blocks hbusy hwhen hrun =>
        have hswitch := (hsound.busyWait hbusy).2
        apply h.displace hcur hevent hready rfl _ _ _ _ hrun henters
        · exact .of_none rfl rfl hsound.switches
        · intro x hx
          cases hx
        · intro hctx
          have hctx : (node.threads cur).doingContextSwitch = true := hctx
          rw [hswitch] at hctx
          cases hctx
        · rw [remaining_of_none rfl, remaining, openBurst, hwhen]
          simp [hbusy]
    | stops hbusy hmin hwhen hrun =>
        apply h.displace hcur hevent hready rfl _ _ _ _ hrun henters
        · exact .of_none rfl hbusy hsound.switches
        · intro x hx
          exact (Option.some.inj hx).symm
        · intro _
          rfl
        · rw [remaining_of_none rfl]
          exact hsound.stops hbusy hmin hwhen

/-- The priority of UNIX_SVR4 changes nothing else. -/
theorem sameRun_svr4Expire (th : Thread) : SameRun th (svr4Expire th) := by
  unfold svr4Expire
  constructor <;> split <;> rfl

theorem Consistent.policyToReady (h : Consistent sched now node)
    (hevent : (node.threads t).event = none) (hready : t ∉ readyThreads node.ready)
    (hpolicy : Dispatch.policyToReady sched now t node = some node') :
    Consistent sched now node' ∧ SameRemaining now node node' := by
  rcases policyToReady_cases hpolicy with hbecomes | hbecomes
  · exact h.becomesReady hevent hready hbecomes
  · have hrun := sameRun_svr4Expire (node.threads t)
    have haction : (svr4Expire (node.threads t)).action = (node.threads t).action := by
      unfold svr4Expire
      split <;> rfl
    have hsame : SameRemaining now node (node.setThread t (svr4Expire (node.threads t))) := by
      apply sameRemaining_setThread
      rw [remaining_of_sameRun hrun, haction]
      ring
    have hevent' : ((node.setThread t (svr4Expire (node.threads t))).threads t).event = none := by
      rw [Node.setThread_self, hrun.event]
      exact hevent
    obtain ⟨hconsistent, hrest⟩ := (h.keep hrun).becomesReady hevent' hready hbecomes
    exact ⟨hconsistent, hsame.trans hrest⟩

/-- A thread that becomes ready in front of a new burst has this burst in addition. -/
theorem Consistent.threadToReadyReturn {ti : ℚ} (h : Consistent sched now node)
    (hevent : (node.threads t).event = none) (hready : t ∉ readyThreads node.ready)
    (hreturn : Dispatch.threadToReadyReturn sched now t ti node = some node') :
    Consistent sched now node' ∧ ∀ x, remaining now (node'.threads x) =
      remaining now (node.threads x) + if t = x then ti else 0 := by
  let th := { node.threads t with action := .work ti :: (node.threads t).action }
  have hrun : SameRun (node.threads t) th := by
    constructor <;> rfl
  have hevent' : ((node.setThread t th).threads t).event = none := by
    rw [Node.setThread_self]
    exact hevent
  obtain ⟨hconsistent, hsame⟩ := (h.keep hrun).policyToReady hevent' hready hreturn
  refine ⟨hconsistent, fun x => ?_⟩
  rw [hsame x]
  by_cases hx : t = x
  · subst hx
    rw [Node.setThread_self, if_pos rfl, remaining_of_sameRun hrun, pendingWork_work]
    ring
  · rw [Node.setThread_of_ne (Ne.symm hx), if_neg hx, add_zero]

theorem Consistent.threadToReady (h : Consistent sched now node)
    (hevent : (node.threads t).event = none) (hready : t ∉ readyThreads node.ready)
    (hto : Dispatch.threadToReady sched now t node = some node') :
    Consistent sched now node' ∧ SameRemaining now node node' := by
  have hreturn : ∀ node', Dispatch.threadToReadyReturn sched now t 0 node = some node' →
      Consistent sched now node' ∧ SameRemaining now node node' := by
    intro node' hreturn
    obtain ⟨hconsistent, hremaining⟩ := h.threadToReadyReturn hevent hready hreturn
    refine ⟨hconsistent, fun x => ?_⟩
    rw [hremaining x, ite_self, add_zero]
  unfold Dispatch.threadToReady at hto
  cases hact : (node.threads t).action with
  | nil =>
      rw [hact] at hto
      cases hto
  | cons a as =>
      rw [hact] at hto
      cases a with
      | work d => exact h.policyToReady hevent hready hto
      | event type value => exact hreturn node' hto
      | noop => exact hreturn node' hto
      | operation ident => exact hreturn node' hto

theorem Consistent.timerOut {next : TimeOut} (h : Consistent sched now node)
    (hdue : (node.threads t).event = some now)
    (hout : General.timerOut sched now t node = some (node', next)) :
    Consistent sched now node' ∧ SameRemaining now node node' := by
  have hset : (node.threads t).event.isSome := by
    rw [hdue]
    rfl
  have hcur := h.event t hset
  have hsound := h.sound t
  have hnone : ∀ th : Thread, th.event = none → th.doingBusyWait = false →
      th.doingContextSwitch = false → Consistent sched now
        ((node.release (node.threads t).cpu).setThread t th) := by
    intro th hevent hbusy hswitch
    have hperm : (readyThreads node.ready).Perm
        ((none : Option Nat).toList ++ readyThreads node.ready) := .refl _
    apply h.release hcur hevent _ hperm
    · intro x hx
      cases hx
    · intro hctx
      rw [hswitch] at hctx
      cases hctx
    · apply Sound.of_none hevent hbusy
      intro hctx
      rw [hswitch] at hctx
      cases hctx
  have hsame : ∀ th : Thread, remaining now th = remaining now (node.threads t) →
      SameRemaining now node ((node.release (node.threads t).cpu).setThread t th) := by
    intro th hremaining
    have hset : SameRemaining now (node.release (node.threads t).cpu)
        ((node.release (node.threads t).cpu).setThread t th) := sameRemaining_setThread hremaining
    exact hset
  have hzero : remaining now (node.threads t) = pendingWork (node.threads t).action := by
    rw [remaining, openBurst, hdue]
    simp
  cases timerOut_cases hout with
  | blocks hswitch hbusy =>
      constructor
      · exact hnone _ rfl rfl hswitch
      · apply hsame
        rw [hzero]
        exact remaining_of_none rfl
  | nextOp hswitch hbusy =>
      constructor
      · exact hnone _ rfl hbusy hswitch
      · apply hsame
        rw [hzero]
        exact remaining_of_none rfl
  | @runs ti th hswitch hgives =>
      have hbusy : (node.threads t).doingBusyWait = false := by
        by_contra hbusy
        have hno := (hsound.busyWait (by simpa using hbusy)).2
        rw [hswitch] at hno
        cases hno
      have hcpu : th.cpu = (node.threads t).cpu := hgives.cpu
      have hthSwitch : th.doingContextSwitch = false := hgives.contextSwitch
      have hthBusy : th.doingBusyWait = false := hgives.busyWait.trans hbusy
      let off := { node.threads t with event := none, doingContextSwitch := false }
      let th' := Thread.timer { th with minTimeToBePreempted := minimumQuantum + now } (now + ti)
      have hoff := hnone off rfl hbusy rfl
      have hsound' : Sound sched now th' := by
        constructor
        · intro hwait
          have hwait : th.doingBusyWait = true := hwait
          rw [hthBusy] at hwait
          cases hwait
        · intro hctx
          have hctx : th.doingContextSwitch = true := hctx
          rw [hthSwitch] at hctx
          cases hctx
        · intro hctx
          have hctx : th.doingContextSwitch = true := hctx
          rw [hthSwitch] at hctx
          cases hctx
        · intro _
          left
          show minimumQuantum + now ≤ now
          rw [minimumQuantum, zero_add]
      have hremaining : remaining now th' = remaining now (node.threads t) := by
        have hpending : ti + pendingWork th.action = pendingWork (node.threads t).action :=
          hgives.pending
        rw [hzero, ← hpending]
        simp [th', remaining, openBurst, Thread.timer, hthSwitch, hthBusy]
      let node₀ := (node.release (node.threads t).cpu).setThread t off
      have hfree : node₀.at th.cpu = none := by
        rw [Node.at_setThread, Node.at_release, if_pos hcpu]
      have hlength : th.cpu < node₀.cpus.length := by
        rw [hcpu]
        simpa [node₀, Node.release] using Node.lt_of_at hcur
      have hready : t ∉ readyThreads node₀.ready := by
        intro hmem
        have hmem : t ∈ readyThreads node.ready := hmem
        rw [h.ready t hmem] at hset
        cases hset
      have hthreads : (node₀.resume th.cpu t).threads = node₀.threads := rfl
      have hnone₀ : (node₀.threads t).event = none := by
        rw [Node.setThread_self]
      have hgot : Consistent sched now ((node₀.resume th.cpu t).setThread t th') :=
        hoff.gets hfree hthreads (hoff.without hready) (Node.at_resume hlength t) hnone₀ hsound'
          rfl rfl
      have heq : (node₀.resume th.cpu t).setThread t th' =
          ((node.release (node.threads t).cpu).resume th.cpu t).setThread t th' :=
        Node.setThread_setThread ((node.release (node.threads t).cpu).resume th.cpu t) t off th'
      rw [heq] at hgot
      constructor
      · exact hgot
      · have hrun : SameRemaining now node
            (((node.release (node.threads t).cpu).resume th.cpu t).setThread t th') :=
          hsame th' hremaining
        exact hrun

theorem Consistent.threadToBusyWait (h : Consistent sched now node)
    (hevent : (node.threads t).event = none) (hready : t ∉ readyThreads node.ready)
    (hfree : node.at (node.threads t).cpu = none)
    (hlength : (node.threads t).cpu < node.cpus.length) :
    Consistent sched now (threadToBusyWait sched now t node) ∧
      SameRemaining now node (threadToBusyWait sched now t node) := by
  have hswitch : (node.threads t).doingContextSwitch = false := by
    by_contra hctx
    exact hready (h.interrupted t hevent (by simpa using hctx))
  let waiting := Thread.timer { node.threads t with
    doingBusyWait := true, minTimeToBePreempted := now } (now + sched.contextSwitch)
  have hsound : Sound sched now waiting := by
    constructor
    · intro _
      exact ⟨rfl, hswitch⟩
    · exact (h.sound t).switches
    · intro hctx
      have hctx : (node.threads t).doingContextSwitch = true := hctx
      rw [hswitch] at hctx
      cases hctx
    · intro _
      exact .inl le_rfl
  constructor
  · have hthreads : (node.resume (node.threads t).cpu t).threads = node.threads := rfl
    exact h.gets hfree hthreads (h.without hready) (Node.at_resume hlength t) hevent hsound rfl rfl
  · have hremaining : remaining now waiting = remaining now (node.threads t) := by
      rw [remaining_of_none hevent]
      simp [waiting, remaining, openBurst, Thread.timer]
    have hsame : SameRemaining now (node.resume (node.threads t).cpu t)
        ((node.resume (node.threads t).cpu t).setThread t waiting) :=
      sameRemaining_setThread hremaining
    exact hsame

/-- The first thread of the ready queue gets a processor. -/
theorem Consistent.nextThreadToRun (h : Consistent sched now node)
    (hnext : nextThreadToRun sched now node = some node') :
    Consistent sched now node' ∧ SameRemaining now node node' := by
  unfold Dispatch.nextThreadToRun at hnext
  cases hq : node.ready with
  | nil =>
      rw [hq] at hnext
      cases hnext
  | cons item rest =>
      obtain ⟨prio, t⟩ := item
      rw [hq] at hnext
      have hnodup := h.nodup
      rw [hq] at hnodup
      obtain ⟨hfirst, hrest⟩ := List.nodup_cons.mp hnodup
      have hqueue : Without t node rest := by
        refine ⟨hrest, fun x => ?_⟩
        have hcons : x ∈ readyThreads node.ready ↔ x = t ∨ x ∈ readyThreads rest := by
          rw [hq]
          exact List.mem_cons
        rw [hcons]
        constructor
        · intro hx
          exact ⟨.inr hx, fun heq => hfirst (heq ▸ hx)⟩
        · intro ⟨hx, hne⟩
          exact hx.resolve_left hne
      have hevent : (node.threads t).event = none := by
        apply h.ready t
        rw [hq]
        exact List.mem_cons_self
      exact h.putThreadOnRun hevent hqueue hnext

end

/-! ## Runs -/

section

variable {sched : Scheduler} {s s' : State} {l : Label}

theorem computed_of_now {x : Transition State Label} (h : x.post.now = x.pre.now) (t : Nat) :
    computed t x = 0 := by
  rw [computed, h, sub_self, ite_self]

/-- A step keeps what the scheduler keeps and accounts for the bursts of every thread. -/
def Accounts (sched : Scheduler) (s s' : State) (l : Label) : Prop :=
  Consistent sched s'.now s'.node ∧ ∀ t,
    computed t ⟨s, l, s'⟩ + remaining s'.now (s'.node.threads t) =
      remaining s.now (s.node.threads t) + given t ⟨s, l, s'⟩

/-- A step without time that gives a thread no burst. -/
theorem accounts_of_sameRemaining {node' : Node}
    (h : Consistent sched s.now node' ∧ SameRemaining s.now s.node node')
    (hgiven : ∀ t x, given t ⟨s, l, x⟩ = 0) :
    Accounts sched s { s with node := node' } l := by
  refine ⟨h.1, fun t => ?_⟩
  have hzero : computed t ⟨s, l, { s with node := node' }⟩ = 0 := computed_of_now rfl t
  rw [hzero, hgiven, zero_add, add_zero]
  exact h.2 t

/-- The clock: a thread with a processor for a burst has less of it left. -/
theorem accounts_clock {time : ℚ} (h : Consistent sched s.now s.node) (hle : s.now ≤ time)
    (hevents : ∀ t ∈ s.node.running, ∀ when ∈ (s.node.threads t).event, time ≤ when) :
    Accounts sched s { s with now := time } (.clock time) := by
  constructor
  · refine ⟨h.running, h.event, h.nodup, h.ready, h.interrupted, fun t => ?_⟩
    have hsound := h.sound t
    refine ⟨hsound.busyWait, hsound.switches, fun hswitch when hwhen => ?_, fun hset => ?_⟩
    · have hrun : t ∈ s.node.running := by
        rw [h.mem_running, hwhen]
        rfl
      exact ⟨hevents t hrun when hwhen, (hsound.switching hswitch when hwhen).2⟩
    · exact (hsound.minTime hset).imp (fun hmin => hmin.trans hle) id
  · intro t
    have hgiven : given t ⟨s, .clock time, { s with now := time }⟩ = 0 := rfl
    rw [hgiven, add_zero, computed, remaining, remaining, openBurst, openBurst]
    by_cases hcomputes : Computes s.node t
    · rw [if_pos hcomputes]
      obtain ⟨hrun, hswitch, hbusy⟩ := hcomputes
      obtain ⟨when, hwhen⟩ := Option.isSome_iff_exists.mp (h.mem_running.mp hrun)
      simp only [hwhen, hswitch, hbusy, Bool.or_self, Bool.false_eq_true, if_false]
      ring
    · rw [if_neg hcomputes]
      cases hevent : (s.node.threads t).event with
      | none => simp
      | some when =>
          have hrun : t ∈ s.node.running := by
            rw [h.mem_running, hevent]
            rfl
          have hnot : ((s.node.threads t).doingContextSwitch ||
              (s.node.threads t).doingBusyWait) = true := by
            by_contra hno
            simp only [Bool.or_eq_true, not_or, Bool.not_eq_true] at hno
            exact hcomputes ⟨hrun, hno.1, hno.2⟩
          simp [hnot]

theorem accounts_of_step (h : Consistent sched s.now s.node) (hstep : step sched s l = some s') :
    Accounts sched s s' l := by
  cases l with
  | clock time =>
      simp only [step] at hstep
      split at hstep
      · next hguard =>
          obtain rfl := Option.some.inj hstep
          exact accounts_clock h hguard.1 hguard.2
      · cases hstep
  | timerOut t =>
      simp only [step] at hstep
      split at hstep
      · next hdue =>
          obtain ⟨⟨node', next⟩, hout, rfl⟩ := Option.map_eq_some_iff.mp hstep
          exact accounts_of_sameRemaining (h.timerOut hdue hout) fun _ _ => rfl
      · cases hstep
  | endAction t =>
      simp only [step] at hstep
      split at hstep
      · obtain ⟨th, hend, rfl⟩ := Option.map_eq_some_iff.mp hstep
        obtain ⟨hrun, hpending⟩ := endAction_spec hend
        apply accounts_of_sameRemaining _ fun _ _ => rfl
        refine ⟨h.keep hrun, sameRemaining_setThread ?_⟩
        rw [remaining_of_sameRun hrun, hpending]
        ring
      · cases hstep
  | read t action =>
      simp only [step] at hstep
      split at hstep
      · next hempty =>
          obtain rfl := Option.some.inj hstep
          have hrun : SameRun (s.node.threads t)
              { s.node.threads t with action := [action] } := by
            constructor <;> rfl
          refine ⟨h.keep hrun, fun x => ?_⟩
          rw [computed_of_now rfl, zero_add]
          show remaining s.now (Function.update s.node.threads t _ x) = _ + ite (t = x) _ _
          by_cases hx : t = x
          · subst hx
            rw [Function.update_self, if_pos rfl, remaining_of_sameRun hrun, hempty,
              pendingWork_nil, sub_zero]
          · rw [Function.update_of_ne (Ne.symm hx), if_neg hx, add_zero]
      · cases hstep
  | info t priority =>
      obtain rfl := Option.some.inj hstep
      have hrun : SameRun (s.node.threads t)
          { s.node.threads t with priority := priority } := by
        constructor <;> rfl
      apply accounts_of_sameRemaining _ fun _ _ => rfl
      exact ⟨h.keep hrun, sameRemaining_setThread rfl⟩
  | burst t ti looseCpu =>
      simp only [step] at hstep
      split at hstep
      · next hidle =>
          obtain ⟨node', hreturn, rfl⟩ := Option.map_eq_some_iff.mp hstep
          have hrun : SameRun (s.node.threads t)
              { s.node.threads t with looseCpu := looseCpu } := by
            constructor <;> rfl
          have hevent := h.event_of_idle hidle
          rw [← hrun.event] at hevent
          have hsame : SameRemaining s.now s.node (s.node.setThread t
              { s.node.threads t with looseCpu := looseCpu }) := sameRemaining_setThread rfl
          obtain ⟨hconsistent, hremaining⟩ := (h.keep hrun).threadToReadyReturn
            (by rw [Node.setThread_self]; exact hevent) hidle.2 hreturn
          refine ⟨hconsistent, fun x => ?_⟩
          rw [computed_of_now rfl, zero_add, hremaining x, hsame x]
          rfl
      · cases hstep
  | ready t looseCpu =>
      simp only [step] at hstep
      split at hstep
      · next hidle =>
          obtain ⟨node', hto, rfl⟩ := Option.map_eq_some_iff.mp hstep
          have hrun : SameRun (s.node.threads t)
              { s.node.threads t with looseCpu := looseCpu } := by
            constructor <;> rfl
          have hevent := h.event_of_idle hidle
          rw [← hrun.event] at hevent
          have hsame : SameRemaining s.now s.node (s.node.setThread t
              { s.node.threads t with looseCpu := looseCpu }) := sameRemaining_setThread rfl
          obtain ⟨hconsistent, hrest⟩ := (h.keep hrun).threadToReady
            (by rw [Node.setThread_self]; exact hevent) hidle.2 hto
          apply accounts_of_sameRemaining _ fun _ _ => rfl
          exact ⟨hconsistent, hsame.trans hrest⟩
      · cases hstep
  | busyWait t =>
      simp only [step] at hstep
      split at hstep
      · next hguard =>
          obtain rfl := Option.some.inj hstep
          obtain ⟨hidle, hcpu⟩ := hguard
          obtain ⟨c, hc, hfree⟩ := Option.map_eq_some_iff.mp hcpu
          have hat : s.node.at (s.node.threads t).cpu = none := by
            rw [Node.at, hc, Option.bind_some, hfree]
          have hlength := (List.getElem?_eq_some_iff.mp hc).1
          apply accounts_of_sameRemaining _ fun _ _ => rfl
          exact h.threadToBusyWait (h.event_of_idle hidle) hidle.2 hat hlength
      · cases hstep
  | nextThread =>
      obtain ⟨node', hnext, rfl⟩ := Option.map_eq_some_iff.mp hstep
      exact accounts_of_sameRemaining (h.nextThreadToRun hnext) fun _ _ => rfl

theorem Initial.consistent (h : Initial s) : Consistent sched s.now s.node := by
  have hat : ∀ i t, s.node.at i ≠ some t := by
    intro i t hi
    have hmem : t ∈ s.node.running := Node.mem_running.mpr ⟨i, hi⟩
    rw [h.running] at hmem
    cases hmem
  constructor
  · intro i t hi
    exact absurd hi (hat i t)
  · intro t hset
    rw [h.event t] at hset
    cases hset
  · rw [h.ready]
    exact .nil
  · intro t ht
    exact h.event t
  · intro t _ hswitch
    rw [h.contextSwitch t] at hswitch
    cases hswitch
  · intro t
    apply Sound.of_none (h.event t) (h.busyWait t)
    intro hswitch
    rw [h.contextSwitch t] at hswitch
    cases hswitch

def prioFifoScheduler : Scheduler := ⟨.prioFifo, true, false, 0, 3000, 100, noContextSwitch_nonneg⟩

/-- A node with one processor, and two threads with a burst each. Thread 1 has the better
priority. -/
def twoBursts : State where
  node :=
    { threads x :=
        { action := if x = 0 then [.work 300] else [.work 10]
          looseCpu := true
          doingContextSwitch := false
          doingBusyWait := false
          minTimeToBePreempted := 0
          nextEventTimer := 0
          event := none
          cpu := 0
          sstaskId := 0
          sstaskType := 0
          priority := if x = 0 then 5 else 2
          forcesPreemption := 0
          lastQuantum := 0
          tsUmdpri := 0
          fullQuantum := false }
      cpus := [⟨none, none⟩]
      ready := [] }
  now := 0

def preemptedRun : Option (List (Transition State Label) × State) :=
  exec (step prioFifoScheduler) twoBursts
    [.ready 0 true, .nextThread, .clock 100, .ready 1 true, .clock 110, .timerOut 1, .nextThread,
      .clock 310, .timerOut 0]

theorem preemptedRun_isSome : preemptedRun.isSome := by
  decide +kernel

end

end Dimemas.Sched.Bursts
