import Dimemas.Sched.Bursts
import Dimemas.Sched.Preemption
/-!
# The threads of the ready queue

Every thread in the ready queue of a node is in front of a burst, and so is a thread that switches
the context. For that reason the scheduler does not panic where it gives a thread a processor, and
a thread that becomes ready leaves no free processor behind an empty queue.
-/

namespace Dimemas.Sched.ReadyThreads

open Dimemas.Sched.Threads
open Dimemas.Sched.Dispatch
open Dimemas.Sched.General
open Dimemas.Sched.Bursts
open Dimemas.Sched.Preemption

/-- The next action of the thread is a burst. -/
def StartsWork (th : Thread) : Prop := ∃ d rest, th.action = .work d :: rest

/-- The threads that get an execution time when it is their turn are in front of a burst. -/
structure Prepared (node : Node) : Prop where
  ready : ∀ t ∈ readyThreads node.ready, StartsWork (node.threads t)
  switching : ∀ t, (node.threads t).event.isSome → (node.threads t).doingContextSwitch = true →
    StartsWork (node.threads t)

/-! ## Free processors -/

section

variable {node : Node} {i t cur : Nat}

theorem countP_modify {α : Type*} (p : α → Bool) (f : α → α) {l : List α} {i : Nat} {a : α}
    (h : l[i]? = some a) :
    (l.modify i f).countP p + (if p a then 1 else 0) =
      l.countP p + (if p (f a) then 1 else 0) := by
  induction l generalizing i with
  | nil => simp at h
  | cons b l ih =>
      cases i with
      | zero =>
          obtain rfl : b = a := by simpa using h
          rw [List.modify_zero_cons, List.countP_cons, List.countP_cons]
          omega
      | succ i =>
          have htail := ih (i := i) (by simpa using h)
          rw [List.modify_succ_cons, List.countP_cons, List.countP_cons]
          omega

theorem cpu_of_lt (hi : i < node.cpus.length) (hat : node.at i = none) :
    ∃ c, node.cpus[i]? = some c ∧ c.currentThread = none := by
  refine ⟨node.cpus[i], List.getElem?_eq_getElem hi, ?_⟩
  rwa [Node.at, List.getElem?_eq_getElem hi, Option.bind_some] at hat

theorem numFreeCpu_occupy (hi : i < node.cpus.length) (hat : node.at i = none) (t : Nat) :
    numFreeCpu (node.occupy i t) + 1 = numFreeCpu node := by
  obtain ⟨c, hc, hfree⟩ := cpu_of_lt hi hat
  have hcount := countP_modify (fun c : Cpu => decide (c.currentThread = none))
    (fun _ => ⟨some t, some t⟩) hc
  unfold numFreeCpu Node.occupy
  simpa [hfree] using hcount

theorem numFreeCpu_resume (hi : i < node.cpus.length) (hat : node.at i = none) (t : Nat) :
    numFreeCpu (node.resume i t) + 1 = numFreeCpu node := by
  obtain ⟨c, hc, hfree⟩ := cpu_of_lt hi hat
  have hcount := countP_modify (fun c : Cpu => decide (c.currentThread = none))
    (fun c => { c with currentThread := some t }) hc
  unfold numFreeCpu Node.resume
  simpa [hfree] using hcount

theorem numFreeCpu_release (hat : node.at i = some cur) :
    numFreeCpu (node.release i) = numFreeCpu node + 1 := by
  obtain ⟨c, hc, hcur⟩ := Option.bind_eq_some_iff.mp hat
  have hcount := countP_modify (fun c : Cpu => decide (c.currentThread = none))
    (fun c => { c with currentThread := none }) hc
  unfold numFreeCpu Node.release
  simpa [hcur] using hcount

theorem exists_free (h : 0 < numFreeCpu node) : ∃ i, i < node.cpus.length ∧ node.at i = none := by
  obtain ⟨c, hmem, hfree⟩ := List.countP_pos_iff.mp h
  obtain ⟨i, hi, hc⟩ := List.getElem_of_mem hmem
  refine ⟨i, hi, ?_⟩
  rw [Node.at, List.getElem?_eq_getElem hi, Option.bind_some, hc]
  exact of_decide_eq_true hfree

theorem selectFreeCpu_none_iff : selectFreeCpu node t = none ↔ numFreeCpu node = 0 := by
  rw [selectFreeCpu_eq_none, numFreeCpu, List.countP_eq_zero]
  simp

end

/-! ## A thread gets a processor -/

section

variable {sched : Scheduler} {now : ℚ} {t i cur : Nat} {node node' : Node} {th : Thread}

/-- The threads keep their bursts if one is changed that has none to start. -/
theorem Prepared.setThread (h : Prepared node) (t : Nat) (th : Thread)
    (hready : t ∈ readyThreads node.ready → StartsWork th)
    (hswitch : th.event.isSome → th.doingContextSwitch = true → StartsWork th) :
    Prepared (node.setThread t th) := by
  constructor
  · intro x hx
    by_cases hxt : x = t
    · subst hxt
      rw [Node.setThread_self]
      exact hready hx
    · rw [Node.setThread_of_ne hxt]
      exact h.ready x hx
  · intro x hset hctx
    by_cases hxt : x = t
    · subst hxt
      rw [Node.setThread_self] at hset hctx ⊢
      exact hswitch hset hctx
    · rw [Node.setThread_of_ne hxt] at hset hctx ⊢
      exact h.switching x hset hctx

/-- The processors do not matter, and the ready queue may loose threads. -/
theorem Prepared.congr (h : Prepared node) (hthreads : node'.threads = node.threads)
    (hready : ∀ x ∈ readyThreads node'.ready, x ∈ readyThreads node.ready) : Prepared node' := by
  constructor
  · intro x hx
    rw [hthreads]
    exact h.ready x (hready x hx)
  · intro x
    rw [hthreads]
    exact h.switching x

/-- A thread that switches the context on a processor keeps its burst for later. -/
theorem startsWork_of_started (hsound : Sound sched now (node.threads t))
    (hwork : StartsWork (node.threads t)) (hstart : Started sched now i (node.threads t) th)
    (hctx : th.doingContextSwitch = true) : StartsWork th := by
  cases hstart with
  | switches => exact hwork
  | @runs ti th' hzero hgives =>
      have hswitch : (node.threads t).doingContextSwitch = true := by
        rw [← hctx]
        exact hgives.contextSwitch.symm
      exact absurd hzero (hsound.switches hswitch)

theorem Prepared.putThreadOnRun (h : Prepared node) (hsound : Sound sched now (node.threads t))
    (hwork : StartsWork (node.threads t)) (hready : t ∉ readyThreads node.ready)
    (hput : Dispatch.putThreadOnRun sched now t node = some node') :
    Prepared node' ∧ numFreeCpu node' + 1 = numFreeCpu node ∧
      node'.cpus.length = node.cpus.length ∧ node'.ready = node.ready ∧
      ∀ x, x ≠ t → node'.threads x = node.threads x := by
  obtain ⟨i, th, hi, hstart, rfl⟩ := putThreadOnRun_cases hput
  obtain ⟨hlength, hfree⟩ := free_of_selectFreeCpu hi
  have hoccupied : Prepared (node.occupy i t) := h.congr rfl fun _ hx => hx
  have hcpus : (node.occupy i t).cpus.length = node.cpus.length := List.length_modify ..
  refine ⟨?_, numFreeCpu_occupy hlength hfree t, hcpus, rfl,
    fun x hx => Node.setThread_of_ne hx _ _⟩
  apply hoccupied.setThread t th
  · intro hmem
    exact absurd hmem hready
  · intro _ hctx
    exact startsWork_of_started hsound hwork hstart hctx

theorem putThreadOnRun_of_free (sched : Scheduler) (now : ℚ) (hwork : StartsWork (node.threads t))
    (hfree : 0 < numFreeCpu node) :
    ∃ node', Dispatch.putThreadOnRun sched now t node = some node' := by
  obtain ⟨i, hi, hat⟩ := exists_free hfree
  obtain ⟨d, rest, hact⟩ := hwork
  exact Option.isSome_iff_exists.mp (putThreadOnRun_isSome hact hat hi)

/-- The first thread of the ready queue gets a processor if there is a free one. -/
theorem nextThreadToRun_of_free (h : Consistent sched now node) (hprep : Prepared node)
    (hready : node.ready ≠ []) (hfree : 0 < numFreeCpu node) :
    ∃ node', nextThreadToRun sched now node = some node' ∧ Prepared node' ∧
      node'.ready = node.ready.tail ∧ numFreeCpu node' + 1 = numFreeCpu node := by
  cases hq : node.ready with
  | nil => exact absurd hq hready
  | cons item rest =>
      obtain ⟨prio, t⟩ := item
      have hmem : t ∈ readyThreads node.ready := by
        rw [hq]
        exact List.mem_cons_self
      have hnodup := h.nodup
      rw [hq] at hnodup
      have hout : t ∉ readyThreads rest := (List.nodup_cons.mp hnodup).1
      have hthreads : ({ node with ready := rest } : Node).threads = node.threads := rfl
      have hrest : Prepared { node with ready := rest } := by
        apply hprep.congr hthreads
        intro x hx
        rw [hq]
        exact List.mem_cons_of_mem _ hx
      have hwork : StartsWork (({ node with ready := rest } : Node).threads t) :=
        hprep.ready t hmem
      obtain ⟨node', hput⟩ := putThreadOnRun_of_free sched now hwork hfree
      obtain ⟨hkeep, hcount, -, hqueue, -⟩ := hrest.putThreadOnRun (h.sound t) hwork hout hput
      refine ⟨node', ?_, hkeep, hqueue, hcount⟩
      unfold nextThreadToRun
      rw [hq]
      exact hput

end

/-! ## A thread becomes ready -/

section

variable {sched : Scheduler} {now : ℚ} {t i cur : Nat} {node node₁ node' : Node} {th : Thread}
  {back : Option Nat}

/-- What is left when room was made for a new thread. -/
structure Made (node node₁ : Node) (back : Option Nat) : Prop where
  prepared : Prepared node₁
  work : ∀ x ∈ back, StartsWork (node₁.threads x)
  free : numFreeCpu node₁ = numFreeCpu node
  cpus : node₁.cpus.length = node.cpus.length
  full : back = none → numFreeCpu node₁ = 0
  ready : node₁.ready = node.ready

/-- What is left when a thread became ready: a free processor only behind a queue. -/
structure Became (node node' : Node) : Prop where
  prepared : Prepared node'
  free : numFreeCpu node' = numFreeCpu node
  cpus : node'.cpus.length = node.cpus.length
  waits : node'.ready ≠ [] ∨ numFreeCpu node' = 0

theorem startsWork_preemptedActions (th : Thread) (ti : ℚ) :
    ∃ d rest, preemptedActions th ti = .work d :: rest := by
  unfold preemptedActions
  simp only
  split
  · exact ⟨0, _, rfl⟩
  · next hno =>
      simp only [Bool.or_eq_true, decide_eq_true_eq, not_or] at hno
      rw [if_neg hno.1, if_neg hno.2]
      exact ⟨ti, th.action, rfl⟩

theorem startsWork_delayedActions (th : Thread) (ti : ℚ) :
    ∃ d rest, delayedActions th ti = .work d :: rest := by
  unfold delayedActions
  split
  · exact ⟨_, _, rfl⟩
  · exact ⟨_, _, rfl⟩

/-- A thread in front of a burst gets the processor of another one. -/
theorem made_displaced (th : Thread) (back : Option Nat) (hprep : Prepared node)
    (h : Consistent sched now node) (hevent : (node.threads t).event = none)
    (hready : t ∉ readyThreads node.ready) (hwork : StartsWork (node.threads t))
    (hcur : node.at i = some cur) (hth : th.event = none)
    (hback : ∀ x ∈ back, x = cur ∧ StartsWork th) (hfull : numFreeCpu node = 0) :
    ∃ node₁, runPreempting sched now t ((node.release i).setThread cur th) = some node₁ ∧
      Made node node₁ back := by
  obtain ⟨hcpu, hset⟩ := h.running i cur hcur
  have hne : t ≠ cur := by
    intro heq
    rw [← heq, hevent] at hset
    cases hset
  have hcurReady : cur ∉ readyThreads node.ready := by
    intro hmem
    rw [h.ready cur hmem] at hset
    cases hset
  let left := (node.release i).setThread cur th
  have hthread : left.threads t = node.threads t := Node.setThread_of_ne hne _ _
  have hfree : left.at i = none := by
    rw [Node.at_setThread, Node.at_release, if_pos rfl]
  have hlength : i < left.cpus.length := by
    have hi := Node.lt_of_at hcur
    simpa [left, Node.release] using hi
  have hreleased : Prepared (node.release i) := hprep.congr rfl fun _ hx => hx
  have hleft : Prepared left := by
    apply hreleased.setThread cur th
    · intro hmem
      exact absurd hmem hcurReady
    · intro hsome
      rw [hth] at hsome
      cases hsome
  have hcount : numFreeCpu left = numFreeCpu node + 1 := numFreeCpu_release hcur
  obtain ⟨d, rest, hact⟩ := hwork
  have hburst : (left.threads t).action = .work d :: rest := by
    rw [hthread]
    exact hact
  have hrun : (runPreempting sched now t left).isSome :=
    runPreempting_isSome hburst hfree hlength
  obtain ⟨node₁, hrun⟩ := Option.isSome_iff_exists.mp hrun
  have hput := runPreempting_eq hrun
  have hsound : Sound sched now (left.threads t) := by
    rw [hthread]
    exact h.sound t
  have hstarts : StartsWork (left.threads t) := ⟨d, rest, hburst⟩
  have hcpus : left.cpus.length = node.cpus.length := List.length_modify ..
  obtain ⟨hkeep, hone, hlen, hqueue, hother⟩ := hleft.putThreadOnRun hsound hstarts hready hput
  refine ⟨node₁, hrun, hkeep, fun x hx => ?_, by omega, hlen.trans hcpus, fun _ => by omega, hqueue⟩
  obtain ⟨rfl, hstart⟩ := hback x hx
  rw [hother x (Ne.symm hne)]
  show StartsWork (((node.release i).setThread x th).threads x)
  rw [Node.setThread_self]
  exact hstart

/-- A running thread makes room for a new one, or the new one has to wait. -/
theorem made_preemption (hprep : Prepared node) (h : Consistent sched now node)
    (hevent : (node.threads t).event = none) (hready : t ∉ readyThreads node.ready)
    (hwork : StartsWork (node.threads t)) (hcur : node.at i = some cur)
    (hfull : numFreeCpu node = 0) :
    ∃ node₁ back, preemption sched now t i node = some (node₁, back) ∧ Made node node₁ back := by
  obtain ⟨when, hwhen⟩ := Option.isSome_iff_exists.mp (h.running i cur hcur).2
  have hwaits : Made node node (some t) := by
    refine ⟨hprep, fun x hx => ?_, rfl, rfl, fun hno => ?_, rfl⟩
    · obtain rfl : t = x := Option.some.inj hx
      exact hwork
    · cases hno
  unfold preemption
  rw [hcur, Option.bind_some]
  simp only [hwhen, Option.bind_some, Option.map_some]
  split
  · let blocked := { node.threads cur with event := none, doingBusyWait := false }
    obtain ⟨node₁, hrun, hmade⟩ := made_displaced blocked none hprep h hevent hready hwork hcur rfl
      (fun x hx => by cases hx) hfull
    exact ⟨node₁, none, by rw [hrun, Option.map_some], hmade⟩
  · split
    · split
      · refine ⟨_, some t, rfl, ?_⟩
        have hne : t ≠ cur := by
          intro heq
          rw [heq, hwhen] at hevent
          cases hevent
        have hdelayed := startsWork_delayedActions (node.threads cur) (when - now)
        refine ⟨?_, fun x hx => ?_, rfl, rfl, fun hno => ?_, rfl⟩
        · apply hprep.setThread cur
          · intro _
            exact hdelayed
          · intro _ _
            exact hdelayed
        · obtain rfl : t = x := Option.some.inj hx
          rw [Node.setThread_of_ne hne]
          exact hwork
        · cases hno
      · exact ⟨node, some t, rfl, hwaits⟩
    · have hstops := startsWork_preemptedActions (node.threads cur) (when - now)
      let stopped := { node.threads cur with
        event := none
        action := preemptedActions (node.threads cur) (when - now) }
      obtain ⟨node₁, hrun, hmade⟩ := made_displaced stopped (some cur) hprep h hevent hready hwork
        hcur rfl (fun x hx => ⟨(Option.some.inj hx).symm, hstops⟩) hfull
      exact ⟨node₁, some cur, by rw [hrun, Option.map_some], hmade⟩

theorem made_makeRoom (preempts : Bool) {victim : Option Nat} (hprep : Prepared node)
    (h : Consistent sched now node) (hevent : (node.threads t).event = none)
    (hready : t ∉ readyThreads node.ready) (hwork : StartsWork (node.threads t))
    (hvictim : ∀ i ∈ victim, ∃ cur, node.at i = some cur) :
    ∃ node₁ back, makeRoom sched now t node preempts victim = some (node₁, back) ∧
      Made node node₁ back := by
  have hwaits : Made node node (some t) := by
    refine ⟨hprep, fun x hx => ?_, rfl, rfl, fun hno => ?_, rfl⟩
    · obtain rfl : t = x := Option.some.inj hx
      exact hwork
    · cases hno
  unfold makeRoom
  split
  · next hcond =>
      have hfull : numFreeCpu node = 0 := by
        apply selectFreeCpu_none_iff.mp
        simpa using (Bool.and_eq_true_iff.mp hcond).2
      cases victim with
      | none => exact ⟨node, some t, rfl, hwaits⟩
      | some i =>
          obtain ⟨cur, hcur⟩ := hvictim i rfl
          exact made_preemption hprep h hevent hready hwork hcur hfull
  · exact ⟨node, some t, rfl, hwaits⟩

theorem Made.enters (h : Made node node₁ back) (henters : Enters back node₁ node') :
    Became node node' := by
  obtain ⟨q, rfl, hperm⟩ := henters
  have hcount : numFreeCpu ({ node₁ with ready := q } : Node) = numFreeCpu node₁ := rfl
  refine ⟨⟨fun x hx => ?_, h.prepared.switching⟩, hcount.trans h.free, h.cpus, ?_⟩
  · have hx : x ∈ readyThreads q := hx
    rw [hperm.mem_iff, List.mem_append, Option.mem_toList] at hx
    rcases hx with hx | hx
    · exact h.work x hx
    · exact h.prepared.ready x hx
  · cases back with
    | none => exact .inr (hcount.trans (h.full rfl))
    | some x =>
        left
        intro hnil
        have hnil : q = [] := hnil
        have hlength := hperm.length_eq
        rw [hnil] at hlength
        simp [readyThreads] at hlength

theorem Became.of_setThread (h : Became (node.setThread t th) node') : Became node node' :=
  ⟨h.prepared, h.free, h.cpus, h.waits⟩

theorem action_ne_nil (h : StartsWork th) : th.action ≠ [] := by
  obtain ⟨d, rest, hact⟩ := h
  rw [hact]
  exact List.cons_ne_nil _ _

theorem at_of_cpuToPreempt (value : Nat → ℚ) (own : ℚ)
    (h : cpuToPreempt (fun best cur => best < cur) value node.cpus 0 own none = some i) :
    ∃ cur, node.at i = some cur := by
  obtain ⟨cur, hmax, -⟩ := firstMax_of_cpuToPreempt h
  exact ⟨cur, hmax.at_eq⟩

theorem became_plainToReady (sched : Scheduler) (hprep : Prepared node)
    (hwork : StartsWork (node.threads t)) : Became node (plainToReady sched t node) := by
  have hwaits : Made node node (some t) := by
    refine ⟨hprep, fun x hx => ?_, rfl, rfl, fun hno => ?_, rfl⟩
    · obtain rfl : t = x := Option.some.inj hx
      exact hwork
    · cases hno
  exact hwaits.enters (enters_plainToReady sched t node)

theorem became_priorityToReady (hprep : Prepared node) (h : Consistent sched now node)
    (hevent : (node.threads t).event = none) (hready : t ∉ readyThreads node.ready)
    (hwork : StartsWork (node.threads t)) :
    ∃ node', priorityToReady sched now t node = some node' ∧ Became node node' := by
  unfold priorityToReady
  simp only [cpuToPreempt_own (le_refl _)]
  obtain ⟨node₁, back, hroom, hmade⟩ := made_makeRoom sched.priorityPreemptive hprep h hevent
    hready hwork fun i hi =>
      at_of_cpuToPreempt (fun x => (node.threads x).priority) (node.threads t).priority hi
  rw [hroom, Option.bind_some]
  cases back with
  | none => exact ⟨node₁, rfl, hmade.enters (enters_none node₁)⟩
  | some x =>
      simp only
      rw [if_neg (action_ne_nil (hmade.work x rfl))]
      exact ⟨_, rfl, hmade.enters (enters_insertReady ..)⟩

theorem became_ssMpiCpThreadToReady (hprep : Prepared node) (h : Consistent sched now node)
    (hevent : (node.threads t).event = none) (hready : t ∉ readyThreads node.ready)
    (hwork : StartsWork (node.threads t)) :
    ∃ node', ssMpiCpThreadToReady sched now t node = some node' ∧ Became node node' := by
  unfold ssMpiCpThreadToReady
  simp only
  obtain ⟨node₁, back, hroom, hmade⟩ := made_makeRoom
    (decide ((node.threads t).forcesPreemption = 1)) hprep h hevent hready hwork fun i hi =>
      at_of_cpuToPreempt (fun x => (node.threads x).priority) (node.threads t).priority hi
  rw [hroom, Option.bind_some]
  cases back with
  | none => exact ⟨node₁, rfl, hmade.enters (enters_none node₁)⟩
  | some x =>
      simp only
      rw [if_neg (action_ne_nil (hmade.work x rfl))]
      split
      · exact ⟨_, rfl, hmade.enters (enters_of_perm perm_insertQueueFromBack)⟩
      · exact ⟨_, rfl, hmade.enters (enters_insertReady ..)⟩

theorem became_svr4ThreadToReady (hprep : Prepared node) (h : Consistent sched now node)
    (hevent : (node.threads t).event = none) (hready : t ∉ readyThreads node.ready)
    (hwork : StartsWork (node.threads t)) :
    ∃ node', svr4ThreadToReady sched now t node = some node' ∧ Became node node' := by
  have hrun := sameRun_svr4Expire (node.threads t)
  have hwork' : StartsWork (svr4Expire (node.threads t)) := by
    have haction : (svr4Expire (node.threads t)).action = (node.threads t).action := by
      unfold svr4Expire
      split <;> rfl
    obtain ⟨d, rest, hact⟩ := hwork
    exact ⟨d, rest, haction.trans hact⟩
  let expired := node.setThread t (svr4Expire (node.threads t))
  have hself : expired.threads t = svr4Expire (node.threads t) := Node.setThread_self ..
  have hprep' : Prepared expired := hprep.setThread t _ (fun _ => hwork') fun _ _ => hwork'
  obtain ⟨node₁, back, hroom, hmade⟩ := made_makeRoom sched.priorityPreemptive hprep' (h.keep hrun)
    (by rw [hself, hrun.event, hevent]) hready (by rw [hself]; exact hwork') fun i hi =>
      at_of_cpuToPreempt (fun x => ((expired.threads x).tsUmdpri : ℚ))
        (expired.threads t).tsUmdpri hi
  unfold svr4ThreadToReady
  simp only
  rw [hroom, Option.map_some]
  cases back with
  | none => exact ⟨node₁, rfl, (hmade.enters (enters_none node₁)).of_setThread⟩
  | some x => exact ⟨_, rfl, (hmade.enters (enters_insertReady ..)).of_setThread⟩

theorem became_policyToReady (hprep : Prepared node) (h : Consistent sched now node)
    (hevent : (node.threads t).event = none) (hready : t ∉ readyThreads node.ready)
    (hwork : StartsWork (node.threads t)) :
    ∃ node', policyToReady sched now t node = some node' ∧ Became node node' := by
  unfold policyToReady
  cases sched.policy with
  | fifo => exact ⟨_, rfl, became_plainToReady sched hprep hwork⟩
  | rr =>
      refine ⟨_, ?_, became_plainToReady sched hprep hwork⟩
      show rrThreadToReady sched t node = _
      rw [rrThreadToReady, if_neg (action_ne_nil hwork)]
  | prioFifo => exact became_priorityToReady hprep h hevent hready hwork
  | svr4 => exact became_svr4ThreadToReady hprep h hevent hready hwork
  | boost => exact became_priorityToReady hprep h hevent hready hwork
  | ssMpiCp => exact became_ssMpiCpThreadToReady hprep h hevent hready hwork

theorem became_threadToReadyReturn (ti : ℚ) (hprep : Prepared node) (h : Consistent sched now node)
    (hevent : (node.threads t).event = none) (hready : t ∉ readyThreads node.ready) :
    ∃ node', threadToReadyReturn sched now t ti node = some node' ∧ Became node node' := by
  let th := { node.threads t with action := .work ti :: (node.threads t).action }
  have hrun : SameRun (node.threads t) th := by
    constructor <;> rfl
  have hwork : StartsWork th := ⟨ti, _, rfl⟩
  have hself : (node.setThread t th).threads t = th := Node.setThread_self ..
  obtain ⟨node', hpolicy, hbecame⟩ := became_policyToReady
    (hprep.setThread t th (fun _ => hwork) fun _ _ => hwork) (h.keep hrun)
    (by rw [hself]; exact hevent) hready (by rw [hself]; exact hwork)
  exact ⟨node', hpolicy, hbecame.of_setThread⟩

theorem became_threadToReady (hprep : Prepared node) (h : Consistent sched now node)
    (hevent : (node.threads t).event = none) (hready : t ∉ readyThreads node.ready)
    (hmore : (node.threads t).action ≠ []) :
    ∃ node', threadToReady sched now t node = some node' ∧ Became node node' := by
  have hreturn := became_threadToReadyReturn 0 hprep h hevent hready
  unfold threadToReady
  cases hact : (node.threads t).action with
  | nil => exact absurd hact hmore
  | cons a as =>
      cases a with
      | work d => exact became_policyToReady hprep h hevent hready ⟨d, as, hact⟩
      | event type value => exact hreturn
      | noop => exact hreturn
      | operation ident => exact hreturn

end

end Dimemas.Sched.ReadyThreads
