import Dimemas.Sched.Threads
/-!
# Dispatch and preemption on a node

The functions of `schedule.c` that put threads on the processors of a node and into its ready
queue, and those of the policies that they call. `none` is a panic or an invalid memory access.
-/

namespace Dimemas.Sched.Dispatch

open Dimemas.Sched.Threads

def numFreeCpu (node : Node) : Nat := node.cpus.countP fun c => c.currentThread = none

/-- `select_free_cpu`: a free processor that has the context of the thread, or the first one. -/
def selectFreeCpu (node : Node) (t : Nat) : Option Nat :=
  (node.cpus.findIdx? fun c => c.currentThread = none && c.currentThreadContext = some t).or
    (node.cpus.findIdx? fun c => c.currentThread = none)

def putThreadOnRun (sched : Scheduler) (now : ℚ) (t : Nat) (node : Node) : Option Node :=
  (selectFreeCpu node t).bind fun i =>
    let th := { node.threads t with cpu := i }
    if sched.contextSwitch ≠ 0 then
      let min := now + minimumQuantum + sched.contextSwitch
      let th := { th with doingContextSwitch := true, minTimeToBePreempted := min }
      some ((node.occupy i t).setThread t (th.timer (now + sched.contextSwitch)))
    else
      (getExecutionTime sched { th with minTimeToBePreempted := now + minimumQuantum }).map
        fun (ti, th) => (node.occupy i t).setThread t (th.timer (now + ti))

/-- `SCHEDULER_next_thread_to_run`. All policies take the first thread of the ready queue. -/
def nextThreadToRun (sched : Scheduler) (now : ℚ) (node : Node) : Option Node :=
  match node.ready with
  | [] => none
  | (_, t) :: rest => putThreadOnRun sched now t { node with ready := rest }

/-- The actions of a thread that is preempted: the rest of its burst, behind the events of its
task and an empty burst if it has one. -/
def preemptedActions (th : Thread) (ti : ℚ) : List Action :=
  let as := .work ti :: th.action
  let as := if 0 < th.sstaskId then .event .taskId th.sstaskId :: as else as
  let as := if 0 < th.sstaskType then .event .taskType th.sstaskType :: as else as
  if 0 < th.sstaskId || 0 < th.sstaskType then .work 0 :: as else as

/-- The actions of a thread that has to run until its minimum quantum. -/
def delayedActions (th : Thread) (ti : ℚ) : List Action :=
  match th.action with
  | .work d :: rest => .work (d + ti) :: rest
  | as => .work ti :: as

def runPreempting (sched : Scheduler) (now : ℚ) (t : Nat) (node : Node) : Option Node :=
  match (node.threads t).action with
  | .work _ :: _ => putThreadOnRun sched now t node
  | _ => none

/-- `SCHEDULER_preemption`: the node, and the thread that has to go to the ready queue. A thread in
a busy wait blocks instead. -/
def preemption (sched : Scheduler) (now : ℚ) (t i : Nat) (node : Node) :
    Option (Node × Option Nat) :=
  (node.at i).bind fun cur =>
    let th := node.threads cur
    if th.doingBusyWait then
      th.event.bind fun _ =>
        let blocked := { th with event := none, doingBusyWait := false }
        (runPreempting sched now t ((node.release i).setThread cur blocked)).map
          fun node => (node, none)
    else if now < th.minTimeToBePreempted then
      if th.minTimeToBePreempted < th.nextEventTimer then
        th.event.map fun when =>
          let delayed := { th with action := delayedActions th (when - now) }
          (node.setThread cur (delayed.timer th.minTimeToBePreempted), some t)
      else some (node, some t)
    else
      th.event.bind fun when =>
        let stopped := { th with event := none, action := preemptedActions th (when - now) }
        (runPreempting sched now t ((node.release i).setThread cur stopped)).map
          fun node => (node, some cur)

/-- The loop over the processors that selects the one to preempt. `beats` compares with the best
value so far. -/
def cpuToPreempt (beats : ℚ → ℚ → Bool) (value : Nat → ℚ) :
    List Cpu → Nat → ℚ → Option Nat → Option Nat
  | [], _, _, found => found
  | c :: cs, i, best, found =>
      match c.currentThread with
      | some cur =>
          if beats best (value cur) then cpuToPreempt beats value cs (i + 1) (value cur) (some i)
          else cpuToPreempt beats value cs (i + 1) best found
      | none => cpuToPreempt beats value cs (i + 1) best found

/-- A thread preempts another one if it may and there is no free processor. -/
def makeRoom (sched : Scheduler) (now : ℚ) (t : Nat) (node : Node) (preempts : Bool)
    (victim : Option Nat) : Option (Node × Option Nat) :=
  if preempts && (selectFreeCpu node t).isNone then
    match victim with
    | some i => preemption sched now t i node
    | none => some (node, some t)
  else some (node, some t)

def insertReady (node : Node) (thread : Nat) (prio : ℚ) (behind : Bool) : Node :=
  { node with ready :=
      if behind then insertQueue node.ready thread prio
      else insertFirstQueue node.ready thread prio }

def plainToReady (sched : Scheduler) (t : Nat) (node : Node) : Node :=
  { node with ready :=
      if (node.threads t).looseCpu || sched.lostCpuOnSend then inFifoQueue node.ready t
      else inLifoQueue node.ready t }

/-- A policy with the priority of a thread. The loop compares with the priority of the new thread
and with the best one so far. -/
def priorityToReady (sched : Scheduler) (now : ℚ) (t : Nat) (node : Node) : Option Node :=
  let own := (node.threads t).priority
  let victim := cpuToPreempt (fun best cur => own < cur && best < cur)
    (fun x => (node.threads x).priority) node.cpus 0 own none
  (makeRoom sched now t node sched.priorityPreemptive victim).bind fun (node, back) =>
    match back with
    | none => some node
    | some thread =>
        let th := node.threads thread
        if th.action = [] then none
        else some (insertReady node thread th.priority (th.looseCpu || sched.lostCpuOnSend))

def fifoThreadToReady (sched : Scheduler) (t : Nat) (node : Node) : Option Node :=
  some (plainToReady sched t node)

def rrThreadToReady (sched : Scheduler) (t : Nat) (node : Node) : Option Node :=
  if (node.threads t).action = [] then none else some (plainToReady sched t node)

def prioFifoThreadToReady (sched : Scheduler) (now : ℚ) (t : Nat) (node : Node) : Option Node :=
  priorityToReady sched now t node

def boostThreadToReady (sched : Scheduler) (now : ℚ) (t : Nat) (node : Node) : Option Node :=
  priorityToReady sched now t node

def bestPrio : ℚ := 59

/-- A thread that used its whole quantum gets the priority of `ts_tqexp`. -/
def svr4Expire (th : Thread) : Thread :=
  if th.fullQuantum then { th with tsUmdpri := tsTqexp th.tsUmdpri, fullQuantum := false } else th

def svr4ThreadToReady (sched : Scheduler) (now : ℚ) (t : Nat) (node : Node) : Option Node :=
  let node := node.setThread t (svr4Expire (node.threads t))
  let victim := cpuToPreempt (fun best cur => best < cur) (fun x => ((node.threads x).tsUmdpri : ℚ))
    node.cpus 0 (node.threads t).tsUmdpri none
  (makeRoom sched now t node sched.priorityPreemptive victim).map fun (node, back) =>
    match back with
    | none => node
    | some thread =>
        let th := node.threads thread
        insertReady node thread (bestPrio - th.tsUmdpri) th.looseCpu

/-- `SS_MPI_CP_thread_to_ready`: the thread decides whether it preempts. A new thread without a
priority of 0 is inserted from the back of the queue. -/
def ssMpiCpThreadToReady (sched : Scheduler) (now : ℚ) (t : Nat) (node : Node) : Option Node :=
  let th := node.threads t
  let victim := cpuToPreempt (fun best cur => best < cur) (fun x => (node.threads x).priority)
    node.cpus 0 th.priority none
  let preempts := decide (th.forcesPreemption = 1)
  let preempted := preempts && (selectFreeCpu node t).isNone && victim.isSome
  (makeRoom sched now t node preempts victim).bind fun (node, back) =>
    match back with
    | none => some node
    | some thread =>
        let th := node.threads thread
        if th.action = [] then none
        else if (th.looseCpu || sched.lostCpuOnSend) && !preempted && th.priority ≠ 0 then
          some { node with ready := insertQueueFromBack node.ready thread th.priority }
        else
          some (insertReady node thread th.priority
            ((th.looseCpu || sched.lostCpuOnSend) && preempted))

def policyToReady (sched : Scheduler) (now : ℚ) (t : Nat) (node : Node) : Option Node :=
  match sched.policy with
  | .fifo => fifoThreadToReady sched t node
  | .rr => rrThreadToReady sched t node
  | .prioFifo => prioFifoThreadToReady sched now t node
  | .svr4 => svr4ThreadToReady sched now t node
  | .boost => boostThreadToReady sched now t node
  | .ssMpiCp => ssMpiCpThreadToReady sched now t node

/-- `SCHEDULER_thread_to_ready_return`: a burst in front of the actions of the thread. -/
def threadToReadyReturn (sched : Scheduler) (now : ℚ) (t : Nat) (ti : ℚ) (node : Node) :
    Option Node :=
  let th := node.threads t
  policyToReady sched now t (node.setThread t { th with action := .work ti :: th.action })

/-- `SCHEDULER_thread_to_ready`. A thread that goes on with another action gets an empty burst. -/
def threadToReady (sched : Scheduler) (now : ℚ) (t : Nat) (node : Node) : Option Node :=
  match (node.threads t).action with
  | [] => none
  | .work _ :: _ => policyToReady sched now t node
  | _ => threadToReadyReturn sched now t 0 node

/-! ## What dispatch and preemption do -/

section

variable {sched : Scheduler} {now : ℚ} {t i : Nat} {node node' : Node}

theorem free_of_selectFreeCpu (h : selectFreeCpu node t = some i) :
    i < node.cpus.length ∧ node.at i = none := by
  unfold selectFreeCpu at h
  have hfree : ∃ c, node.cpus[i]? = some c ∧ c.currentThread = none := by
    rcases Option.or_eq_some_iff.mp h with h | ⟨-, h⟩
    · obtain ⟨hi, hc, -⟩ := List.findIdx?_eq_some_iff_getElem.mp h
      simp only [Bool.and_eq_true, decide_eq_true_eq] at hc
      exact ⟨node.cpus[i], List.getElem?_eq_getElem hi, hc.1⟩
    · obtain ⟨hi, hc, -⟩ := List.findIdx?_eq_some_iff_getElem.mp h
      exact ⟨node.cpus[i], List.getElem?_eq_getElem hi, of_decide_eq_true hc⟩
  obtain ⟨c, hc, hnone⟩ := hfree
  have hi := (List.getElem?_eq_some_iff.mp hc).1
  exact ⟨hi, by rw [Node.at, hc, Option.bind_some, hnone]⟩

theorem selectFreeCpu_eq_none :
    selectFreeCpu node t = none ↔ ∀ c ∈ node.cpus, c.currentThread ≠ none := by
  unfold selectFreeCpu
  constructor
  · intro h c hc hfree
    have hsecond := (Option.or_eq_none_iff.mp h).2
    have hno := List.findIdx?_eq_none_iff.mp hsecond c hc
    simp [hfree] at hno
  · intro h
    apply Option.or_eq_none_iff.mpr
    constructor
    · apply List.findIdx?_eq_none_iff.mpr
      intro c hc
      simp [h c hc]
    · apply List.findIdx?_eq_none_iff.mpr
      intro c hc
      simp [h c hc]

/-- What a thread is like that was put on a processor: it switches the context, or it got an
execution time. -/
inductive Started (sched : Scheduler) (now : ℚ) (i : Nat) (th : Thread) : Thread → Prop
  | switches (h : sched.contextSwitch ≠ 0) :
      Started sched now i th
        (Thread.timer { th with
            cpu := i
            doingContextSwitch := true
            minTimeToBePreempted := now + minimumQuantum + sched.contextSwitch }
          (now + sched.contextSwitch))
  | runs {ti : ℚ} {th' : Thread} (h : sched.contextSwitch = 0)
      (hgives : Gives { th with cpu := i, minTimeToBePreempted := now + minimumQuantum } ti th') :
      Started sched now i th (th'.timer (now + ti))

theorem putThreadOnRun_cases (h : putThreadOnRun sched now t node = some node') :
    ∃ i th, selectFreeCpu node t = some i ∧ Started sched now i (node.threads t) th ∧
      node' = (node.occupy i t).setThread t th := by
  obtain ⟨i, hi, hrest⟩ := Option.bind_eq_some_iff.mp h
  simp only at hrest
  split at hrest
  · next hctx =>
      exact ⟨i, _, hi, .switches hctx, (Option.some.inj hrest).symm⟩
  · next hctx =>
      obtain ⟨⟨ti, th⟩, hgives, hnode⟩ := Option.map_eq_some_iff.mp hrest
      exact ⟨i, _, hi, .runs (not_not.mp hctx) (gives_getExecutionTime hgives), hnode.symm⟩

theorem runPreempting_eq (h : runPreempting sched now t node = some node') :
    putThreadOnRun sched now t node = some node' := by
  unfold runPreempting at h
  split at h
  · exact h
  · cases h

/-- What `SCHEDULER_preemption` does with the thread that runs on a processor: it blocks, goes on,
gets a new end for its burst, or stops. -/
inductive PreemptionCase (sched : Scheduler) (now : ℚ) (t i : Nat) (node : Node) (cur : Nat) :
    Node → Option Nat → Prop
  | blocks {node' : Node} {when : ℚ} (hbusy : (node.threads cur).doingBusyWait = true)
      (hevent : (node.threads cur).event = some when)
      (hrun : putThreadOnRun sched now t ((node.release i).setThread cur
        { node.threads cur with event := none, doingBusyWait := false }) = some node') :
      PreemptionCase sched now t i node cur node' none
  | goesOn (hbusy : (node.threads cur).doingBusyWait = false)
      (hmin : now < (node.threads cur).minTimeToBePreempted) :
      PreemptionCase sched now t i node cur node (some t)
  | delays {when : ℚ} (hbusy : (node.threads cur).doingBusyWait = false)
      (hmin : now < (node.threads cur).minTimeToBePreempted)
      (hnext : (node.threads cur).minTimeToBePreempted < (node.threads cur).nextEventTimer)
      (hevent : (node.threads cur).event = some when) :
      PreemptionCase sched now t i node cur
        (node.setThread cur (Thread.timer { node.threads cur with
            action := delayedActions (node.threads cur) (when - now) }
          (node.threads cur).minTimeToBePreempted)) (some t)
  | stops {node' : Node} {when : ℚ} (hbusy : (node.threads cur).doingBusyWait = false)
      (hmin : (node.threads cur).minTimeToBePreempted ≤ now)
      (hevent : (node.threads cur).event = some when)
      (hrun : putThreadOnRun sched now t ((node.release i).setThread cur
        { node.threads cur with
          event := none
          action := preemptedActions (node.threads cur) (when - now) }) = some node') :
      PreemptionCase sched now t i node cur node' (some cur)

theorem preemption_cases {back : Option Nat}
    (h : preemption sched now t i node = some (node', back)) :
    ∃ cur, node.at i = some cur ∧ PreemptionCase sched now t i node cur node' back := by
  obtain ⟨cur, hcur, hrest⟩ := Option.bind_eq_some_iff.mp h
  refine ⟨cur, hcur, ?_⟩
  simp only at hrest
  split at hrest
  · next hbusy =>
      obtain ⟨when, hevent, hmap⟩ := Option.bind_eq_some_iff.mp hrest
      obtain ⟨node₁, hrun, hpair⟩ := Option.map_eq_some_iff.mp hmap
      obtain ⟨rfl, rfl⟩ := Prod.mk.inj hpair
      exact .blocks hbusy hevent (runPreempting_eq hrun)
  · next hbusy =>
      have hbusy : (node.threads cur).doingBusyWait = false := by simpa using hbusy
      split at hrest
      · next hmin =>
          split at hrest
          · next hnext =>
              obtain ⟨when, hevent, hpair⟩ := Option.map_eq_some_iff.mp hrest
              obtain ⟨rfl, rfl⟩ := Prod.mk.inj hpair
              exact .delays hbusy hmin hnext hevent
          · obtain ⟨rfl, rfl⟩ := Prod.mk.inj (Option.some.inj hrest)
            exact .goesOn hbusy hmin
      · next hmin =>
          obtain ⟨when, hevent, hmap⟩ := Option.bind_eq_some_iff.mp hrest
          obtain ⟨node₁, hrun, hpair⟩ := Option.map_eq_some_iff.mp hmap
          obtain ⟨rfl, rfl⟩ := Prod.mk.inj hpair
          exact .stops hbusy (not_lt.mp hmin) hevent (runPreempting_eq hrun)

/-- The node and the thread for the ready queue when room was made for a new thread. -/
def Room (sched : Scheduler) (now : ℚ) (t : Nat) (node node' : Node) (back : Option Nat) : Prop :=
  node' = node ∧ back = some t ∨
    ∃ i cur, node.at i = some cur ∧ PreemptionCase sched now t i node cur node' back

theorem room_of_makeRoom {preempts : Bool} {victim back : Option Nat}
    (h : makeRoom sched now t node preempts victim = some (node', back)) :
    Room sched now t node node' back := by
  unfold makeRoom at h
  split at h
  · cases hvictim : victim with
    | none =>
        rw [hvictim] at h
        obtain ⟨rfl, rfl⟩ := Prod.mk.inj (Option.some.inj h)
        exact .inl ⟨rfl, rfl⟩
    | some i =>
        rw [hvictim] at h
        obtain ⟨cur, hcur, hcase⟩ := preemption_cases h
        exact .inr ⟨i, cur, hcur, hcase⟩
  · obtain ⟨rfl, rfl⟩ := Prod.mk.inj (Option.some.inj h)
    exact .inl ⟨rfl, rfl⟩

def readyThreads (q : List (ℚ × Nat)) : List Nat := q.map Prod.snd

/-- The thread that has no place after room was made is in the ready queue. -/
def Enters (back : Option Nat) (node node' : Node) : Prop :=
  ∃ q, node' = { node with ready := q } ∧
    (readyThreads q).Perm (back.toList ++ readyThreads node.ready)

theorem enters_none (node : Node) : Enters none node node := ⟨node.ready, rfl, .refl _⟩

theorem enters_of_perm {q : List (ℚ × Nat)} {prio : ℚ} {thread : Nat}
    (hq : q.Perm ((prio, thread) :: node.ready)) :
    Enters (some thread) node { node with ready := q } :=
  ⟨q, rfl, hq.map Prod.snd⟩

theorem enters_insertReady (node : Node) (thread : Nat) (prio : ℚ) (behind : Bool) :
    Enters (some thread) node (insertReady node thread prio behind) := by
  unfold insertReady
  split
  · exact enters_of_perm perm_insertQueue
  · exact enters_of_perm perm_insertFirstQueue

theorem enters_plainToReady (sched : Scheduler) (t : Nat) (node : Node) :
    Enters (some t) node (plainToReady sched t node) := by
  unfold plainToReady
  split
  · exact enters_of_perm (List.perm_append_singleton ..)
  · exact enters_of_perm (.refl _)

/-- What a policy does with a thread that becomes ready, apart from the priority of UNIX_SVR4. -/
def BecomesReady (sched : Scheduler) (now : ℚ) (t : Nat) (node node' : Node) : Prop :=
  ∃ node₁ back, Room sched now t node node₁ back ∧ Enters back node₁ node'

theorem becomesReady_plain (h : plainToReady sched t node = node') :
    BecomesReady sched now t node node' := by
  refine ⟨node, some t, .inl ⟨rfl, rfl⟩, ?_⟩
  rw [← h]
  exact enters_plainToReady sched t node

theorem becomesReady_priorityToReady (h : priorityToReady sched now t node = some node') :
    BecomesReady sched now t node node' := by
  unfold priorityToReady at h
  obtain ⟨⟨node₁, back⟩, hroom, hrest⟩ := Option.bind_eq_some_iff.mp h
  refine ⟨node₁, back, room_of_makeRoom hroom, ?_⟩
  cases back with
  | none =>
      obtain rfl := Option.some.inj hrest
      exact enters_none node₁
  | some thread =>
      simp only at hrest
      split at hrest
      · cases hrest
      · obtain rfl := Option.some.inj hrest
        exact enters_insertReady ..

theorem becomesReady_svr4ThreadToReady (h : svr4ThreadToReady sched now t node = some node') :
    BecomesReady sched now t (node.setThread t (svr4Expire (node.threads t))) node' := by
  unfold svr4ThreadToReady at h
  obtain ⟨⟨node₁, back⟩, hroom, rfl⟩ := Option.map_eq_some_iff.mp h
  refine ⟨node₁, back, room_of_makeRoom hroom, ?_⟩
  cases back with
  | none => exact enters_none node₁
  | some thread => exact enters_insertReady ..

theorem becomesReady_ssMpiCpThreadToReady (h : ssMpiCpThreadToReady sched now t node = some node') :
    BecomesReady sched now t node node' := by
  unfold ssMpiCpThreadToReady at h
  obtain ⟨⟨node₁, back⟩, hroom, hrest⟩ := Option.bind_eq_some_iff.mp h
  refine ⟨node₁, back, room_of_makeRoom hroom, ?_⟩
  cases back with
  | none =>
      obtain rfl := Option.some.inj hrest
      exact enters_none node₁
  | some thread =>
      simp only at hrest
      split at hrest
      · cases hrest
      · split at hrest
        · obtain rfl := Option.some.inj hrest
          exact enters_of_perm perm_insertQueueFromBack
        · obtain rfl := Option.some.inj hrest
          exact enters_insertReady ..

theorem policyToReady_cases (h : policyToReady sched now t node = some node') :
    BecomesReady sched now t node node' ∨
      BecomesReady sched now t (node.setThread t (svr4Expire (node.threads t))) node' := by
  unfold policyToReady at h
  cases hpolicy : sched.policy with
  | fifo =>
      rw [hpolicy] at h
      exact .inl (becomesReady_plain (Option.some.inj h))
  | rr =>
      rw [hpolicy] at h
      simp only [rrThreadToReady] at h
      split at h
      · cases h
      · exact .inl (becomesReady_plain (Option.some.inj h))
  | prioFifo =>
      rw [hpolicy] at h
      exact .inl (becomesReady_priorityToReady h)
  | svr4 =>
      rw [hpolicy] at h
      exact .inr (becomesReady_svr4ThreadToReady h)
  | boost =>
      rw [hpolicy] at h
      exact .inl (becomesReady_priorityToReady h)
  | ssMpiCp =>
      rw [hpolicy] at h
      exact .inl (becomesReady_ssMpiCpThreadToReady h)

end

end Dimemas.Sched.Dispatch
