import Dimemas.Sched.Dispatch
/-!
# Priorities and preemption

A policy selects the processor to preempt with a loop over the running threads and orders the ready
queue by a key. PRIO_FIFO, BOOST and SS_MPI_CP use the same order in both places. UNIX_SVR4 orders
the queue by `BEST_PRIO - ts_umdpri`, so the thread with the largest `ts_umdpri`, which it
preempts, is the first one in the order of the queue.
-/

namespace Dimemas.Sched.Preemption

open Dimemas.Sched.Threads
open Dimemas.Sched.Dispatch

def rank (sched : Scheduler) (th : Thread) : ℚ :=
  match sched.policy with
  | .svr4 => bestPrio - th.tsUmdpri
  | _ => th.priority

/-- The new thread runs now on the processor of another one. -/
def Displaces (node node' : Node) (t old : Nat) : Prop :=
  ∃ i, node.at i = some old ∧ node'.at i = some t

/-- The thread that is displaced is behind the new one in the order of the queue, and no other
running thread is behind it. -/
def RespectsOrder (sched : Scheduler) (t : Nat) (node node' : Node) : Prop :=
  ∀ old, Displaces node node' t old →
    rank sched (node'.threads t) < rank sched (node'.threads old) ∧
      ∀ j other, node.at j = some other →
        rank sched (node'.threads other) ≤ rank sched (node'.threads old)

/-- The thread on the processor is the first one with the largest value. -/
structure FirstMax (value : Nat → ℚ) (node : Node) (i cur : Nat) : Prop where
  at_eq : node.at i = some cur
  le : ∀ j other, node.at j = some other → value other ≤ value cur
  lt : ∀ j < i, ∀ other, node.at j = some other → value other < value cur

/-- UNIX_SVR4 preempts a thread: the first one with the largest `ts_umdpri`, if this is larger than
that of the new thread and it may be preempted. -/
def Svr4Preempts (sched : Scheduler) (now : ℚ) (t : Nat) (node : Node) : Prop :=
  sched.policy = .svr4 ∧ sched.priorityPreemptive = true ∧
    ∃ i cur, FirstMax (fun x => (node.threads x).tsUmdpri) node i cur ∧
      (svr4Expire (node.threads t)).tsUmdpri < (node.threads cur).tsUmdpri ∧
      ((node.threads cur).doingBusyWait = true ∨ (node.threads cur).minTimeToBePreempted ≤ now)

section

variable {value : Nat → ℚ} {cs : List Cpu} {k i : Nat} {best own : ℚ} {found : Option Nat}

/-- The threads on a list of processors, with the places of the processors. -/
def RunsAt (cs : List Cpu) (j cur : Nat) : Prop := cs[j]?.bind Cpu.currentThread = some cur

theorem runsAt_zero {c : Cpu} {cur : Nat} :
    RunsAt (c :: cs) 0 cur ↔ c.currentThread = some cur := by
  unfold RunsAt
  rw [List.getElem?_cons_zero, Option.bind_some]

theorem runsAt_succ {c : Cpu} {j cur : Nat} : RunsAt (c :: cs) (j + 1) cur ↔ RunsAt cs j cur := by
  unfold RunsAt
  rw [List.getElem?_cons_succ]

/-- The result of the loop behind the first `k` processors: what was found before, or the first
processor with the largest value. -/
def Selects (value : Nat → ℚ) (cs : List Cpu) (k : Nat) (best : ℚ) (found : Option Nat)
    (res : Option Nat) : Prop :=
  (res = found ∧ ∀ j other, RunsAt cs j other → value other ≤ best) ∨
    ∃ j cur, res = some (k + j) ∧ RunsAt cs j cur ∧ best < value cur ∧
      (∀ j' other, RunsAt cs j' other → value other ≤ value cur) ∧
      ∀ j' < j, ∀ other, RunsAt cs j' other → value other < value cur

theorem selects_cons {c : Cpu} {res : Option Nat}
    (hhead : ∀ other, c.currentThread = some other → value other ≤ best)
    (h : Selects value cs (k + 1) best found res) : Selects value (c :: cs) k best found res := by
  rcases h with ⟨hres, hle⟩ | ⟨j, cur, hres, hcur, hlt, hle, hfirst⟩
  · left
    refine ⟨hres, fun j other hother => ?_⟩
    cases j with
    | zero => exact hhead other (runsAt_zero.mp hother)
    | succ j => exact hle j other (runsAt_succ.mp hother)
  · right
    refine ⟨j + 1, cur, ?_, runsAt_succ.mpr hcur, hlt, fun j' other hother => ?_,
      fun j' hj' other hother => ?_⟩
    · rw [hres]
      congr 1
      omega
    · cases j' with
      | zero => exact le_of_lt (lt_of_le_of_lt (hhead other (runsAt_zero.mp hother)) hlt)
      | succ j' => exact hle j' other (runsAt_succ.mp hother)
    · cases j' with
      | zero => exact lt_of_le_of_lt (hhead other (runsAt_zero.mp hother)) hlt
      | succ j' => exact hfirst j' (by omega) other (runsAt_succ.mp hother)

theorem selects_cons_of_lt {c : Cpu} {cur : Nat} {res : Option Nat}
    (hcur : c.currentThread = some cur) (hlt : best < value cur)
    (h : Selects value cs (k + 1) (value cur) (some k) res) :
    Selects value (c :: cs) k best found res := by
  have hhead : ∀ other, c.currentThread = some other → other = cur := by
    intro other hother
    exact Option.some.inj (hother.symm.trans hcur)
  rcases selects_cons (fun other hother => by rw [hhead other hother]) h with
    ⟨hres, hle⟩ | ⟨j, cur', hres, hcur', hlt', hle, hfirst⟩
  · right
    refine ⟨0, cur, hres, runsAt_zero.mpr hcur, hlt, hle, fun j' hj' => ?_⟩
    omega
  · right
    exact ⟨j, cur', hres, hcur', hlt.trans hlt', hle, hfirst⟩

theorem selects_cpuToPreempt (value : Nat → ℚ) (cs : List Cpu) (k : Nat) (best : ℚ)
    (found : Option Nat) :
    Selects value cs k best found
      (cpuToPreempt (fun best cur => best < cur) value cs k best found) := by
  induction cs generalizing k best found with
  | nil =>
      left
      refine ⟨rfl, fun j other hother => ?_⟩
      unfold RunsAt at hother
      simp at hother
  | cons c cs ih =>
      rw [cpuToPreempt]
      cases hcur : c.currentThread with
      | none =>
          apply selects_cons _ (ih (k + 1) best found)
          intro other hother
          rw [hcur] at hother
          cases hother
      | some cur =>
          by_cases hlt : best < value cur
          · simp only [hlt, decide_true, if_true]
            exact selects_cons_of_lt hcur hlt (ih (k + 1) (value cur) (some k))
          · simp only [hlt, decide_false, Bool.false_eq_true, if_false]
            apply selects_cons _ (ih (k + 1) best found)
            intro other hother
            rw [← Option.some.inj (hcur.symm.trans hother)]
            exact not_lt.mp hlt

/-- To compare with the value of the new thread again makes no difference. -/
theorem cpuToPreempt_own (hown : own ≤ best) :
    cpuToPreempt (fun best cur => own < cur && best < cur) value cs k best found =
      cpuToPreempt (fun best cur => best < cur) value cs k best found := by
  induction cs generalizing k best found with
  | nil => rfl
  | cons c cs ih =>
      rw [cpuToPreempt, cpuToPreempt]
      cases c.currentThread with
      | none => exact ih hown
      | some cur =>
          by_cases hlt : best < value cur
          · simp only [hlt, lt_of_le_of_lt hown hlt, decide_true, Bool.and_self, if_true]
            exact ih (le_of_lt (lt_of_le_of_lt hown hlt))
          · simp only [hlt, decide_false, Bool.and_false, Bool.false_eq_true, if_false]
            exact ih hown

/-- The processor that is preempted runs the first thread with the largest value. -/
theorem firstMax_of_cpuToPreempt {node : Node}
    (h : cpuToPreempt (fun best cur => best < cur) value node.cpus 0 own none = some i) :
    ∃ cur, FirstMax value node i cur ∧ own < value cur := by
  rcases selects_cpuToPreempt value node.cpus 0 own none with
    ⟨hres, -⟩ | ⟨j, cur, hres, hcur, hlt, hle, hfirst⟩
  · rw [h] at hres
    cases hres
  · rw [h] at hres
    obtain rfl : i = j := by simpa using hres
    exact ⟨cur, ⟨hcur, hle, hfirst⟩, hlt⟩

theorem cpuToPreempt_of_firstMax {node : Node} {cur : Nat} (h : FirstMax value node i cur)
    (hlt : own < value cur) :
    cpuToPreempt (fun best cur => best < cur) value node.cpus 0 own none = some i := by
  rcases selects_cpuToPreempt value node.cpus 0 own none with
    ⟨-, hle⟩ | ⟨j, cur', hres, hcur', -, hle, hfirst⟩
  · exact absurd hlt (not_lt.mpr (hle i cur h.at_eq))
  · have hij : i = j := by
      rcases Nat.lt_trichotomy i j with hij | hij | hij
      · exact absurd (hfirst i hij cur h.at_eq) (not_lt.mpr (h.le j cur' hcur'))
      · exact hij
      · exact absurd (h.lt j hij cur' hcur') (not_lt.mpr (hle i cur h.at_eq))
    rw [hres, hij, Nat.zero_add]

end

section

variable {sched : Scheduler} {now : ℚ} {t i cur : Nat} {node node' : Node} {th th' : Thread}

def SameRanks (node node' : Node) : Prop :=
  ∀ x, (node'.threads x).priority = (node.threads x).priority ∧
    (node'.threads x).tsUmdpri = (node.threads x).tsUmdpri

theorem sameRanks_setThread (hpriority : th.priority = (node.threads t).priority)
    (htsUmdpri : th.tsUmdpri = (node.threads t).tsUmdpri) :
    SameRanks node (node.setThread t th) := by
  intro x
  by_cases hx : x = t
  · subst hx
    rw [Node.setThread_self]
    exact ⟨hpriority, htsUmdpri⟩
  · rw [Node.setThread_of_ne hx]
    exact ⟨rfl, rfl⟩

theorem SameRanks.rank_eq (h : SameRanks node node') (sched : Scheduler) (x : Nat) :
    rank sched (node'.threads x) = rank sched (node.threads x) := by
  unfold rank
  rw [(h x).1, (h x).2]

theorem SameRanks.trans {node'' : Node} (h : SameRanks node node') (h' : SameRanks node' node'') :
    SameRanks node node'' := by
  intro x
  rw [(h' x).1, (h' x).2]
  exact h x

theorem ranks_of_started (h : Started sched now i th th') :
    th'.priority = th.priority ∧ th'.tsUmdpri = th.tsUmdpri := by
  cases h with
  | switches => exact ⟨rfl, rfl⟩
  | runs _ hgives => exact ⟨hgives.priority, hgives.tsUmdpri⟩

theorem putThreadOnRun_release (hbusy : ∀ c ∈ node.cpus, c.currentThread ≠ none)
    (hpriority : th.priority = (node.threads cur).priority)
    (htsUmdpri : th.tsUmdpri = (node.threads cur).tsUmdpri)
    (h : putThreadOnRun sched now t ((node.release i).setThread cur th) = some node') :
    (∀ j, node'.at j = if j = i then some t else node.at j) ∧ SameRanks node node' := by
  obtain ⟨k, th', hk, hstarted, rfl⟩ := putThreadOnRun_cases h
  obtain ⟨hlength, hfree⟩ := free_of_selectFreeCpu hk
  have hlength : k < node.cpus.length := by simpa [Node.release] using hlength
  have hki : k = i := by
    by_contra hne
    rw [Node.at_setThread, Node.at_release, if_neg hne, Node.at,
      List.getElem?_eq_getElem hlength, Option.bind_some] at hfree
    exact hbusy _ (List.getElem_mem hlength) hfree
  subst hki
  have hstop : SameRanks (node.release k) ((node.release k).setThread cur th) :=
    sameRanks_setThread hpriority htsUmdpri
  constructor
  · intro j
    rw [Node.at_setThread, Node.at_occupy (by simpa [Node.release] using hlength),
      Node.at_setThread, Node.at_release]
    split <;> rfl
  · apply hstop.trans
    exact sameRanks_setThread (ranks_of_started hstarted).1 (ranks_of_started hstarted).2

/-- What making room does on a node without a free processor: the processors keep their threads,
or that of the victim gets the new one. -/
theorem makeRoom_cases {preempts : Bool} {victim back : Option Nat}
    (hbusy : ∀ c ∈ node.cpus, c.currentThread ≠ none)
    (h : makeRoom sched now t node preempts victim = some (node', back)) :
    (∀ j, node'.at j = node.at j) ∨
      ∃ i cur, preempts = true ∧ victim = some i ∧ node.at i = some cur ∧
        ((node.threads cur).doingBusyWait = true ∨
          (node.threads cur).minTimeToBePreempted ≤ now) ∧
        (∀ j, node'.at j = if j = i then some t else node.at j) ∧ SameRanks node node' := by
  unfold makeRoom at h
  split at h
  · next hcond =>
      cases hvictim : victim with
      | none =>
          rw [hvictim] at h
          obtain ⟨rfl, -⟩ := Prod.mk.inj (Option.some.inj h)
          exact .inl fun _ => rfl
      | some i =>
          rw [hvictim] at h
          have hpreempts := (Bool.and_eq_true_iff.mp hcond).1
          obtain ⟨cur, hcur, hcase⟩ := preemption_cases h
          cases hcase with
          | blocks hwait _ hrun =>
              obtain ⟨hat, hranks⟩ := putThreadOnRun_release hbusy (by rfl) (by rfl) hrun
              exact .inr ⟨i, cur, hpreempts, rfl, hcur, .inl hwait, hat, hranks⟩
          | goesOn => exact .inl fun _ => rfl
          | delays => exact .inl fun _ => rfl
          | stops _ hmin _ hrun =>
              obtain ⟨hat, hranks⟩ := putThreadOnRun_release hbusy (by rfl) (by rfl) hrun
              exact .inr ⟨i, cur, hpreempts, rfl, hcur, .inr hmin, hat, hranks⟩
  · obtain ⟨rfl, -⟩ := Prod.mk.inj (Option.some.inj h)
    exact .inl fun _ => rfl

/-- Nothing is displaced if the processors keep their threads. -/
theorem respectsOrder_of_at (hnew : ∀ j, node.at j ≠ some t)
    (hat : ∀ j, node'.at j = node.at j) : RespectsOrder sched t node node' := by
  intro old ⟨i, _, hi⟩
  rw [hat] at hi
  exact absurd hi (hnew i)

theorem displaces_iff (hnew : ∀ j, node.at j ≠ some t) (hcur : node.at i = some cur)
    (hat : ∀ j, node'.at j = if j = i then some t else node.at j) (old : Nat) :
    Displaces node node' t old ↔ old = cur := by
  constructor
  · intro ⟨j, hold, hj⟩
    rw [hat] at hj
    split at hj
    · next hji =>
        subst hji
        exact Option.some.inj (hold.symm.trans hcur)
    · exact absurd hj (hnew j)
  · intro hold
    subst hold
    exact ⟨i, hcur, by rw [hat, if_pos rfl]⟩

/-- The victim is behind the new thread and all running threads if the loop compares ranks. -/
theorem respectsOrder_of_firstMax (hnew : ∀ j, node.at j ≠ some t)
    (hmax : FirstMax (fun x => rank sched (node.threads x)) node i cur)
    (hlt : rank sched (node.threads t) < rank sched (node.threads cur))
    (hat : ∀ j, node'.at j = if j = i then some t else node.at j)
    (hranks : SameRanks node node') : RespectsOrder sched t node node' := by
  intro old hold
  obtain rfl := (displaces_iff hnew hmax.at_eq hat old).mp hold
  rw [hranks.rank_eq, hranks.rank_eq]
  refine ⟨hlt, fun j other hother => ?_⟩
  rw [hranks.rank_eq]
  exact hmax.le j other hother

theorem respectsOrder_priority {preempts : Bool} {back : Option Nat}
    (hpolicy : sched.policy ≠ .svr4) (hbusy : ∀ c ∈ node.cpus, c.currentThread ≠ none)
    (hnew : ∀ j, node.at j ≠ some t)
    (h : makeRoom sched now t node preempts
      (cpuToPreempt (fun best cur => best < cur) (fun x => (node.threads x).priority) node.cpus 0
        (node.threads t).priority none) = some (node', back)) :
    RespectsOrder sched t node node' := by
  have hrank : ∀ x, rank sched (node.threads x) = (node.threads x).priority := by
    intro x
    unfold rank
    split
    · next heq => exact absurd heq hpolicy
    · rfl
  rcases makeRoom_cases hbusy h with hat | ⟨i, cur, -, hvictim, -, -, hat, hranks⟩
  · exact respectsOrder_of_at hnew hat
  · obtain ⟨cur, hmax, hlt⟩ := firstMax_of_cpuToPreempt hvictim
    have hmax : FirstMax (fun x => rank sched (node.threads x)) node i cur := by
      simpa only [hrank] using hmax
    apply respectsOrder_of_firstMax hnew hmax _ hat hranks
    simpa only [hrank] using hlt

theorem respectsOrder_priorityToReady (hpolicy : sched.policy ≠ .svr4)
    (hbusy : ∀ c ∈ node.cpus, c.currentThread ≠ none) (hnew : ∀ j, node.at j ≠ some t)
    (h : priorityToReady sched now t node = some node') : RespectsOrder sched t node node' := by
  unfold priorityToReady at h
  simp only at h
  rw [cpuToPreempt_own (le_refl _)] at h
  obtain ⟨⟨node₁, back⟩, hroom, hrest⟩ := Option.bind_eq_some_iff.mp h
  have horder := respectsOrder_priority hpolicy hbusy hnew hroom
  cases back with
  | none =>
      obtain rfl := Option.some.inj hrest
      exact horder
  | some thread =>
      simp only at hrest
      split at hrest
      · cases hrest
      · obtain rfl := Option.some.inj hrest
        exact horder

theorem respectsOrder_ssMpiCpThreadToReady (hpolicy : sched.policy ≠ .svr4)
    (hbusy : ∀ c ∈ node.cpus, c.currentThread ≠ none) (hnew : ∀ j, node.at j ≠ some t)
    (h : ssMpiCpThreadToReady sched now t node = some node') :
    RespectsOrder sched t node node' := by
  unfold ssMpiCpThreadToReady at h
  obtain ⟨⟨node₁, back⟩, hroom, hrest⟩ := Option.bind_eq_some_iff.mp h
  have horder := respectsOrder_priority hpolicy hbusy hnew hroom
  cases back with
  | none =>
      obtain rfl := Option.some.inj hrest
      exact horder
  | some thread =>
      simp only at hrest
      split at hrest
      · cases hrest
      · split at hrest
        · obtain rfl := Option.some.inj hrest
          exact horder
        · obtain rfl := Option.some.inj hrest
          exact horder

/-- What UNIX_SVR4 does: it displaces no thread, or the first one with the largest `ts_umdpri`. -/
theorem svr4ThreadToReady_cases (hbusy : ∀ c ∈ node.cpus, c.currentThread ≠ none)
    (h : svr4ThreadToReady sched now t node = some node') :
    (∀ j, node'.at j = node.at j) ∨
      ∃ i cur, sched.priorityPreemptive = true ∧
        FirstMax (fun x => ((node.setThread t (svr4Expire (node.threads t))).threads x).tsUmdpri)
          node i cur ∧
        ((svr4Expire (node.threads t)).tsUmdpri : ℚ) <
          ((node.setThread t (svr4Expire (node.threads t))).threads cur).tsUmdpri ∧
        (((node.setThread t (svr4Expire (node.threads t))).threads cur).doingBusyWait = true ∨
          ((node.setThread t (svr4Expire (node.threads t))).threads cur).minTimeToBePreempted ≤
            now) ∧
        (∀ j, node'.at j = if j = i then some t else node.at j) ∧
        SameRanks (node.setThread t (svr4Expire (node.threads t))) node' := by
  unfold svr4ThreadToReady at h
  obtain ⟨⟨node₁, back⟩, hroom, hnode⟩ := Option.map_eq_some_iff.mp h
  have hsame : (∀ j, node'.at j = node₁.at j) ∧ node'.threads = node₁.threads := by
    rw [← hnode]
    cases back with
    | none => exact ⟨fun _ => rfl, rfl⟩
    | some thread => exact ⟨fun _ => rfl, rfl⟩
  have hbusy : ∀ c ∈ (node.setThread t (svr4Expire (node.threads t))).cpus,
      c.currentThread ≠ none := hbusy
  rcases makeRoom_cases hbusy hroom with
    hat | ⟨i, cur, hpreempts, hvictim, hcur, hmay, hat, hranks⟩
  · left
    intro j
    rw [hsame.1, hat, Node.at_setThread]
  · right
    obtain ⟨cur', hmax, hlt⟩ := firstMax_of_cpuToPreempt hvictim
    obtain rfl : cur' = cur := Option.some.inj (hmax.at_eq.symm.trans hcur)
    rw [Node.setThread_self] at hlt
    refine ⟨i, cur', hpreempts, ⟨hmax.at_eq, hmax.le, hmax.lt⟩, hlt, hmay, fun j => ?_, fun x => ?_⟩
    · rw [hsame.1, hat, Node.at_setThread]
    · rw [hsame.2]
      exact hranks x

theorem FirstMax.congr {f g : Nat → ℚ} (h : FirstMax f node i cur) (hnew : ∀ j, node.at j ≠ some t)
    (hfg : ∀ x, x ≠ t → f x = g x) : FirstMax g node i cur := by
  have heq : ∀ j other, node.at j = some other → f other = g other := by
    intro j other hother
    apply hfg
    intro hot
    rw [hot] at hother
    exact hnew j hother
  have hcur := heq i cur h.at_eq
  constructor
  · exact h.at_eq
  · intro j other hother
    rw [← heq j other hother, ← hcur]
    exact h.le j other hother
  · intro j hj other hother
    rw [← heq j other hother, ← hcur]
    exact h.lt j hj other hother

theorem ne_of_at (hnew : ∀ j, node.at j ≠ some t) (hcur : node.at i = some cur) : cur ≠ t := by
  intro heq
  rw [heq] at hcur
  exact hnew i hcur

theorem putThreadOnRun_isSome {d : ℚ} {rest : List Action}
    (hact : (node.threads t).action = .work d :: rest) (hfree : node.at i = none)
    (hi : i < node.cpus.length) : (putThreadOnRun sched now t node).isSome := by
  have hselect : (selectFreeCpu node t).isSome := by
    apply Option.isSome_iff_ne_none.mpr
    intro hnone
    apply selectFreeCpu_eq_none.mp hnone _ (List.getElem_mem hi)
    rwa [Node.at, List.getElem?_eq_getElem hi, Option.bind_some] at hfree
  obtain ⟨k, hk⟩ := Option.isSome_iff_exists.mp hselect
  unfold putThreadOnRun
  rw [hk, Option.bind_some]
  simp only
  split
  · rfl
  · rw [Option.isSome_map]
    exact getExecutionTime_isSome hact

theorem runPreempting_isSome {d : ℚ} {rest : List Action}
    (hact : (node.threads t).action = .work d :: rest) (hfree : node.at i = none)
    (hi : i < node.cpus.length) : (runPreempting sched now t node).isSome := by
  unfold runPreempting
  rw [hact]
  exact putThreadOnRun_isSome hact hfree hi

theorem preemption_displaces (sched : Scheduler) (now : ℚ) {d : ℚ} {rest : List Action}
    (hbusy : ∀ c ∈ node.cpus, c.currentThread ≠ none)
    (hact : (node.threads t).action = .work d :: rest) (hcur : node.at i = some cur)
    (hne : cur ≠ t) (hevent : (node.threads cur).event.isSome)
    (hmay : (node.threads cur).doingBusyWait = true ∨
      (node.threads cur).minTimeToBePreempted ≤ now) :
    ∃ node' back, preemption sched now t i node = some (node', back) ∧
      (∀ j, node'.at j = if j = i then some t else node.at j) ∧ SameRanks node node' := by
  obtain ⟨when, hwhen⟩ := Option.isSome_iff_exists.mp hevent
  have hi := Node.lt_of_at hcur
  have hrun : ∀ th : Thread, (runPreempting sched now t
      ((node.release i).setThread cur th)).isSome := by
    intro th
    have hact : (((node.release i).setThread cur th).threads t).action = .work d :: rest := by
      rw [Node.setThread_of_ne hne.symm]
      exact hact
    have hfree : ((node.release i).setThread cur th).at i = none := by
      rw [Node.at_setThread, Node.at_release, if_pos rfl]
    apply runPreempting_isSome hact hfree
    simpa [Node.release] using hi
  have hsome : (preemption sched now t i node).isSome := by
    unfold preemption
    rw [hcur, Option.bind_some]
    simp only [hwhen, Option.bind_some]
    split
    · rw [Option.isSome_map]
      exact hrun _
    · next hwait =>
        have hmin := hmay.resolve_left hwait
        rw [if_neg (not_lt.mpr hmin), Option.isSome_map]
        exact hrun _
  obtain ⟨⟨node', back⟩, hpreempt⟩ := Option.isSome_iff_exists.mp hsome
  obtain ⟨cur', hcur', hcase⟩ := preemption_cases hpreempt
  obtain rfl : cur' = cur := Option.some.inj (hcur'.symm.trans hcur)
  refine ⟨node', back, hpreempt, ?_⟩
  cases hcase with
  | blocks _ _ hput => exact putThreadOnRun_release hbusy (by rfl) (by rfl) hput
  | stops _ _ _ hput => exact putThreadOnRun_release hbusy (by rfl) (by rfl) hput
  | goesOn hwait hmin =>
      rcases hmay with hmay | hmay
      · rw [hwait] at hmay
        cases hmay
      · exact absurd hmin (not_lt.mpr hmay)
  | delays hwait hmin =>
      rcases hmay with hmay | hmay
      · rw [hwait] at hmay
        cases hmay
      · exact absurd hmin (not_lt.mpr hmay)

theorem svr4ThreadToReady_iff {d : ℚ} {rest : List Action} (hpolicy : sched.policy = .svr4)
    (hbusy : ∀ c ∈ node.cpus, c.currentThread ≠ none) (hnew : ∀ j, node.at j ≠ some t)
    (hevents : ∀ j cur, node.at j = some cur → (node.threads cur).event.isSome)
    (hact : (node.threads t).action = .work d :: rest) :
    (∀ node', svr4ThreadToReady sched now t node = some node' →
      RespectsOrder sched t node node') ↔ ¬ Svr4Preempts sched now t node := by
  let expired := node.setThread t (svr4Expire (node.threads t))
  have hothers : ∀ x, x ≠ t → expired.threads x = node.threads x :=
    fun x hx => Node.setThread_of_ne hx node _
  have hvalues : ∀ x, x ≠ t → ((expired.threads x).tsUmdpri : ℚ) = (node.threads x).tsUmdpri :=
    fun x hx => by rw [hothers x hx]
  constructor
  · intro horder ⟨_, hpreempts, i, cur, hmax, hlt, hmay⟩
    have hne := ne_of_at hnew hmax.at_eq
    have hmax' : FirstMax (fun x => ((expired.threads x).tsUmdpri : ℚ)) expired i cur := by
      have hcongr := hmax.congr hnew fun x hx => (hvalues x hx).symm
      exact ⟨hcongr.at_eq, hcongr.le, hcongr.lt⟩
    have hbest : ((expired.threads t).tsUmdpri : ℚ) < (expired.threads cur).tsUmdpri := by
      rw [hvalues cur hne, Node.setThread_self]
      exact Nat.cast_lt.mpr hlt
    have hact' : ∃ d rest, (expired.threads t).action = .work d :: rest := by
      rw [Node.setThread_self, svr4Expire]
      split <;> exact ⟨d, rest, hact⟩
    obtain ⟨d', rest', hact'⟩ := hact'
    have hevent : (expired.threads cur).event.isSome := by
      rw [hothers cur hne]
      exact hevents i cur hmax.at_eq
    have hmay : (expired.threads cur).doingBusyWait = true ∨
        (expired.threads cur).minTimeToBePreempted ≤ now := by
      rw [hothers cur hne]
      exact hmay
    have hbusy : ∀ c ∈ expired.cpus, c.currentThread ≠ none := hbusy
    obtain ⟨node₁, back, hpreempt, hat, hranks⟩ :=
      preemption_displaces sched now hbusy hact' hmax'.at_eq hne hevent hmay
    have hvictim := cpuToPreempt_of_firstMax hmax' hbest
    have hroom : makeRoom sched now t expired sched.priorityPreemptive (some i) =
        some (node₁, back) := by
      have hfree : selectFreeCpu expired t = none := selectFreeCpu_eq_none.mpr hbusy
      rw [makeRoom, hpreempts, hfree]
      exact hpreempt
    have hready : ∃ node', svr4ThreadToReady sched now t node = some node' ∧
        (∀ j, node'.at j = node₁.at j) ∧ node'.threads = node₁.threads := by
      unfold svr4ThreadToReady
      simp only
      rw [hvictim, hroom, Option.map_some]
      refine ⟨_, rfl, fun _ => ?_, ?_⟩
      · cases back <;> rfl
      · cases back <;> rfl
    obtain ⟨node', hnode', hat', hthreads⟩ := hready
    have hdisplaces : Displaces node node' t cur :=
      ⟨i, hmax.at_eq, by rw [hat', hat, if_pos rfl]⟩
    have hrank : ∀ x, rank sched (node'.threads x) = bestPrio - (expired.threads x).tsUmdpri := by
      intro x
      rw [hthreads, hranks.rank_eq, rank, hpolicy]
    have hbehind := (horder node' hnode' cur hdisplaces).1
    rw [hrank, hrank, sub_lt_sub_iff_left] at hbehind
    exact absurd hbehind (not_lt.mpr (le_of_lt hbest))
  · intro hnot node' hready
    rcases svr4ThreadToReady_cases hbusy hready with
      hat | ⟨i, cur, hpreempts, hmax, hlt, hmay, -, -⟩
    · exact respectsOrder_of_at hnew hat
    · exfalso
      have hne := ne_of_at hnew hmax.at_eq
      rw [Node.setThread_of_ne hne] at hlt hmay
      exact hnot ⟨hpolicy, hpreempts, i, cur, hmax.congr hnew hvalues, Nat.cast_lt.mp hlt, hmay⟩

theorem policyToReady_iff {d : ℚ} {rest : List Action}
    (hbusy : ∀ c ∈ node.cpus, c.currentThread ≠ none) (hnew : ∀ j, node.at j ≠ some t)
    (hevents : ∀ j cur, node.at j = some cur → (node.threads cur).event.isSome)
    (hact : (node.threads t).action = .work d :: rest) :
    (∀ node', policyToReady sched now t node = some node' →
      RespectsOrder sched t node node') ↔ ¬ Svr4Preempts sched now t node := by
  have hother : sched.policy ≠ .svr4 → ¬ Svr4Preempts sched now t node :=
    fun hpolicy hsvr4 => hpolicy hsvr4.1
  unfold policyToReady
  cases hpolicy : sched.policy with
  | svr4 => exact svr4ThreadToReady_iff hpolicy hbusy hnew hevents hact
  | fifo =>
      refine iff_of_true (fun node' h => ?_) (hother (by rw [hpolicy]; simp))
      obtain rfl := Option.some.inj h
      exact respectsOrder_of_at hnew fun _ => rfl
  | rr =>
      refine iff_of_true (fun node' h => ?_) (hother (by rw [hpolicy]; simp))
      simp only [rrThreadToReady, hact, reduceCtorEq, if_false] at h
      obtain rfl := Option.some.inj h
      exact respectsOrder_of_at hnew fun _ => rfl
  | prioFifo =>
      have hne : sched.policy ≠ .svr4 := by rw [hpolicy]; simp
      exact iff_of_true (fun node' h => respectsOrder_priorityToReady hne hbusy hnew h) (hother hne)
  | boost =>
      have hne : sched.policy ≠ .svr4 := by rw [hpolicy]; simp
      exact iff_of_true (fun node' h => respectsOrder_priorityToReady hne hbusy hnew h) (hother hne)
  | ssMpiCp =>
      have hne : sched.policy ≠ .svr4 := by rw [hpolicy]; simp
      exact iff_of_true (fun node' h => respectsOrder_ssMpiCpThreadToReady hne hbusy hnew h)
        (hother hne)

theorem threadToReady_eq (sched : Scheduler) (now : ℚ)
    (hactions : (node.threads t).action ≠ []) :
    ∃ d rest, threadToReady sched now t node = policyToReady sched now t
      (node.setThread t { node.threads t with action := .work d :: rest }) := by
  unfold threadToReady
  cases hact : (node.threads t).action with
  | nil => exact absurd hact hactions
  | cons a as =>
      cases a with
      | work d =>
          have hsame : node.setThread t { node.threads t with action := .work d :: as } = node := by
            rw [← hact]
            show { node with threads := Function.update node.threads t (node.threads t) } = node
            rw [Function.update_eq_self]
          exact ⟨d, as, by rw [hsame]⟩
      | event type value => exact ⟨0, _, by rw [threadToReadyReturn, hact]⟩
      | noop => exact ⟨0, _, by rw [threadToReadyReturn, hact]⟩
      | operation ident => exact ⟨0, _, by rw [threadToReadyReturn, hact]⟩

theorem svr4Preempts_setAction (hnew : ∀ j, node.at j ≠ some t) (as : List Action) :
    Svr4Preempts sched now t (node.setThread t { node.threads t with action := as }) ↔
      Svr4Preempts sched now t node := by
  have hothers : ∀ x, x ≠ t →
      (node.setThread t { node.threads t with action := as }).threads x = node.threads x :=
    fun x hx => Node.setThread_of_ne hx node _
  have hown : (svr4Expire { node.threads t with action := as }).tsUmdpri =
      (svr4Expire (node.threads t)).tsUmdpri := by
    unfold svr4Expire
    split <;> rfl
  unfold Svr4Preempts
  rw [Node.setThread_self, hown]
  constructor
  · intro ⟨hpolicy, hpreempts, i, cur, hmax, hlt, hmay⟩
    have hmax : FirstMax _ node i cur := ⟨hmax.at_eq, hmax.le, hmax.lt⟩
    have hne := ne_of_at hnew hmax.at_eq
    rw [hothers cur hne] at hlt hmay
    exact ⟨hpolicy, hpreempts, i, cur, hmax.congr hnew fun x hx => by rw [hothers x hx], hlt, hmay⟩
  · intro ⟨hpolicy, hpreempts, i, cur, hmax, hlt, hmay⟩
    have hne := ne_of_at hnew hmax.at_eq
    have hcongr := hmax.congr (g := fun x => (((node.setThread t
      { node.threads t with action := as }).threads x).tsUmdpri : ℚ)) hnew
      fun x hx => by rw [hothers x hx]
    refine ⟨hpolicy, hpreempts, i, cur, ⟨hcongr.at_eq, hcongr.le, hcongr.lt⟩, ?_, ?_⟩
    · rw [hothers cur hne]
      exact hlt
    · rw [hothers cur hne]
      exact hmay

/-- Preemption respects the order of the ready queue unless UNIX_SVR4 preempts a thread. -/
theorem preemption_respects_order_iff (sched : Scheduler) (now : ℚ) (t : Nat) (node : Node)
    (hbusy : ∀ c ∈ node.cpus, c.currentThread ≠ none) (hnew : ∀ j, node.at j ≠ some t)
    (hevents : ∀ j cur, node.at j = some cur → (node.threads cur).event.isSome)
    (hactions : (node.threads t).action ≠ []) :
    (∀ node', threadToReady sched now t node = some node' → RespectsOrder sched t node node') ↔
      ¬ Svr4Preempts sched now t node := by
  obtain ⟨d, rest, heq⟩ := threadToReady_eq sched now hactions
  let node₁ := node.setThread t { node.threads t with action := .work d :: rest }
  have hbusy₁ : ∀ c ∈ node₁.cpus, c.currentThread ≠ none := hbusy
  have hnew₁ : ∀ j, node₁.at j ≠ some t := hnew
  have hevents₁ : ∀ j cur, node₁.at j = some cur → (node₁.threads cur).event.isSome := by
    intro j cur hcur
    have hcur : node.at j = some cur := hcur
    rw [Node.setThread_of_ne (ne_of_at hnew hcur)]
    exact hevents j cur hcur
  have hact₁ : (node₁.threads t).action = .work d :: rest := by
    rw [Node.setThread_self]
  rw [heq, ← svr4Preempts_setAction hnew (.work d :: rest)]
  exact policyToReady_iff hbusy₁ hnew₁ hevents₁ hact₁

/-- A node with one processor. Thread 0 runs and thread 1 becomes ready, with the better priority and
the smaller `ts_umdpri`. -/
def busyNode : Node where
  threads x :=
    { action := if x = 0 then [] else [.work 10]
      looseCpu := true
      doingContextSwitch := false
      doingBusyWait := false
      minTimeToBePreempted := 0
      nextEventTimer := 300
      event := if x = 0 then some 300 else none
      cpu := 0
      sstaskId := 0
      sstaskType := 0
      priority := if x = 0 then 5 else 2
      forcesPreemption := 1
      lastQuantum := 0
      tsUmdpri := if x = 0 then 50 else 20
      fullQuantum := false }
  cpus := [⟨some 0, some 0⟩]
  ready := []

def preemptiveScheduler (policy : Policy) : Scheduler :=
  ⟨policy, true, false, 0, 1000, 100, noContextSwitch_nonneg⟩

/-- A node with three processors, whose threads have the priorities 5, 8 and 6. Thread 4 is ready with
the priority 7, and thread 3 becomes ready with the priority 2. -/
def threeBusy : Node where
  threads x :=
    { busyNode.threads 0 with
      action := if x < 3 then [] else [.work 10]
      event := if x < 3 then some 300 else none
      cpu := x
      priority := [5, 8, 6, 2, 7].getD x 0 }
  cpus := [⟨some 0, some 0⟩, ⟨some 1, some 1⟩, ⟨some 2, some 2⟩]
  ready := [(7, 4)]

/-- Under PRIO_FIFO thread 3 displaces thread 1, which gets behind thread 4. -/
theorem preemption_respects_order_prioFifo :
    ((threadToReady (preemptiveScheduler .prioFifo) 100 3 threeBusy).map fun node =>
        (node.at 1, readyThreads node.ready)) = some (some 3, [4, 1]) ∧
      ∀ node', threadToReady (preemptiveScheduler .prioFifo) 100 3 threeBusy = some node' →
        RespectsOrder (preemptiveScheduler .prioFifo) 3 threeBusy node' := by
  refine ⟨by decide +kernel, ?_⟩
  have hown : ∀ j cur, threeBusy.at j = some cur → cur = j ∧ j < 3 := by
    intro j cur hcur
    rcases j with _ | _ | _ | j
    · exact ⟨(Option.some.inj hcur).symm, by decide⟩
    · exact ⟨(Option.some.inj hcur).symm, by decide⟩
    · exact ⟨(Option.some.inj hcur).symm, by decide⟩
    · cases hcur
  apply (preemption_respects_order_iff _ _ _ _ ?_ ?_ ?_ ?_).mpr
  · rintro ⟨hpolicy, -⟩
    cases hpolicy
  · decide
  · intro j hj
    obtain ⟨rfl, hlt⟩ := hown j 3 hj
    exact absurd hlt (by decide)
  · intro j cur hcur
    obtain ⟨rfl, hlt⟩ := hown j cur hcur
    show (if cur < 3 then some (300 : ℚ) else none).isSome
    rw [if_pos hlt]
    rfl
  · decide

/-- Under UNIX_SVR4 thread 1 displaces thread 0, although thread 0 is in front of it in the order of
the queue. -/
theorem svr4_displaces_best :
    ¬ ∀ node', threadToReady (preemptiveScheduler .svr4) 100 1 busyNode = some node' →
      RespectsOrder (preemptiveScheduler .svr4) 1 busyNode node' := by
  intro hall
  have hat : ((threadToReady (preemptiveScheduler .svr4) 100 1 busyNode).bind
      fun node => node.at 0) = some 1 := by
    decide +kernel
  have hranks : ((threadToReady (preemptiveScheduler .svr4) 100 1 busyNode).map fun node =>
      (rank (preemptiveScheduler .svr4) (node.threads 1),
        rank (preemptiveScheduler .svr4) (node.threads 0))) = some (39, 9) := by
    decide +kernel
  obtain ⟨node', hready, hrun⟩ := Option.bind_eq_some_iff.mp hat
  rw [hready, Option.map_some] at hranks
  obtain ⟨hnew, hold⟩ := Prod.mk.inj (Option.some.inj hranks)
  have hbehind := (hall node' hready 0 ⟨0, rfl, hrun⟩).1
  rw [hnew, hold] at hbehind
  exact absurd hbehind (by decide +kernel)

end

end Dimemas.Sched.Preemption
