import Dimemas.Library.Transitions
import Dimemas.Model.CollectiveCost
import Mathlib.Data.List.Perm.Subperm
import Mathlib.Logic.Function.Basic
/-!
# Collective operations that overlap

The counters of a communicator are shared by all its operations: each arrival adds its node
to them and each end of an operation empties them. An operation that overlaps no other one
starts with the nodes of its own tasks.
-/

namespace Dimemas.Model.CollectiveTiming

open Dimemas.Library.Tally
open Dimemas.Library.Transitions
open Dimemas.Model.CollectiveCost

/-- The blocking operation of a communicator, or the one with an `nb_glob_index`. -/
inductive GlobOp
  | sync
  | asyn (nbGlobIndex : Nat)
deriving DecidableEq, Repr

structure Communicator where
  platform : Platform
  nodeOf : Nat → Nat
  globalRanks : List Nat
  nodup : globalRanks.Nodup

/-- `threads` are the threads that arrived at an operation, in order, until it ends. `inFlight`
are the operations that have started. -/
structure CommState where
  nbGlobIndexMaster : Nat → Nat
  threads : GlobOp → List Nat
  inFlight : List GlobOp
  counters : Counters

/-- What `start_global_op` is called with: the root and its action, the threads that reserved the
resources and the bandwidth of the external network at that time. -/
structure StartCall where
  thread : Nat
  op : GlobalOpDesc
  commMachineThreads : List Nat
  bandwExterna : ℚ

inductive CommLabel
  | arrive (t : Nat) (asyn : Bool)
  | start (o : GlobOp) (call : StartCall)
  | close (o : GlobOp)

def emptyCounters : Counters := ⟨fun _ => [], []⟩

def CommState.init : CommState := ⟨fun _ => 0, fun _ => [], [], emptyCounters⟩

variable (C : Communicator)

def Communicator.machineOf (t : Nat) : Nat := (C.platform.node (C.nodeOf t)).machine

/-- The update of the number of used nodes per machine and tasks per node in
`GLOBAL_operation`. -/
def addNode (counters : Counters) (t : Nat) : Counters where
  nodesPerMachine := Function.update counters.nodesPerMachine (C.machineOf t)
    (enter (counters.nodesPerMachine (C.machineOf t)) (C.nodeOf t))
  tasksPerNode := increment counters.tasksPerNode (C.nodeOf t)

def CommState.nextOp (s : CommState) (t : Nat) (asyn : Bool) : GlobOp :=
  if asyn then .asyn (s.nbGlobIndexMaster t) else .sync

def duration (counters : Counters) (call : StartCall) : Option Temps :=
  calculaTempsOperacioGlobal C.platform C.nodeOf counters call.op C.globalRanks.length call.thread
    call.commMachineThreads call.bandwExterna

def CommState.arriveAt (s : CommState) (t : Nat) (asyn : Bool) : CommState where
  nbGlobIndexMaster := if asyn then
      Function.update s.nbGlobIndexMaster t (s.nbGlobIndexMaster t + 1)
    else s.nbGlobIndexMaster
  threads := Function.update s.threads (s.nextOp t asyn) (s.threads (s.nextOp t asyn) ++ [t])
  inFlight := s.inFlight
  counters := addNode C s.counters t

/-- `close_global_communication` and `close_global_nonblock_communication`: both clean all
counters of the communicator. -/
def CommState.closeOp (s : CommState) (o : GlobOp) : CommState :=
  { s with
    threads := Function.update s.threads o []
    inFlight := s.inFlight.filter (· ≠ o)
    counters := emptyCounters }

/-- A thread arrives at an operation, an operation that all threads arrived at starts, or an
operation ends. A thread that is blocked in the blocking operation does not arrive at it again. -/
def commNext (s : CommState) : CommLabel → Option CommState
  | .arrive t asyn =>
      if t ∈ C.globalRanks ∧ (asyn = false → t ∉ s.threads .sync) then some (s.arriveAt C t asyn)
      else none
  | .start o call =>
      if (s.threads o).length = C.globalRanks.length ∧ o ∉ s.inFlight ∧ call.thread ∈ s.threads o ∧
          call.commMachineThreads ⊆ s.threads o then
        (duration C s.counters call).map fun _ => { s with inFlight := o :: s.inFlight }
      else none
  | .close o => if o ∈ s.inFlight then some (s.closeOp o) else none

def countersOf (threads : List Nat) : Counters where
  nodesPerMachine m := keys ((threads.filter fun t => C.machineOf t = m).map C.nodeOf)
  tasksPerNode := tally (threads.map C.nodeOf)

/-- The thread that arrives finds no other operation of the communicator that has not ended. -/
def Alone (s : CommState) : CommLabel → Prop
  | .arrive t asyn => ∀ o, s.threads o ≠ [] → o = s.nextOp t asyn
  | .start _ _ => True
  | .close _ => True

variable {C} {s s' : CommState}

theorem countersOf_nil : countersOf C [] = emptyCounters := rfl

theorem countersOf_concat (threads : List Nat) (t : Nat) :
    countersOf C (threads ++ [t]) = addNode C (countersOf C threads) t := by
  unfold countersOf addNode
  simp only [Counters.mk.injEq, List.map_append, List.map_cons, List.map_nil, tally_concat,
    and_true]
  funext m
  by_cases hm : m = C.machineOf t
  · subst hm
    simp [List.filter_append]
  · simp [List.filter_append, Function.update_of_ne hm, Ne.symm hm]

theorem countersOf_perm {threads threads' : List Nat} (h : threads.Perm threads') :
    countersOf C threads = countersOf C threads' := by
  unfold countersOf
  congr 1
  · funext m
    exact keys_perm ((h.filter _).map _)
  · exact tally_perm (h.map _)

/-- The counters hold the threads of the only operation that has not ended. -/
structure CountsOpen (C : Communicator) (s : CommState) : Prop where
  nodup : ∀ o, (s.threads o).Nodup
  subset : ∀ o, s.threads o ⊆ C.globalRanks
  lt : ∀ i, ∀ t ∈ s.threads (.asyn i), i < s.nbGlobIndexMaster t
  inFlight : ∀ o ∈ s.inFlight, s.threads o ≠ []
  single : ∀ o o', s.threads o ≠ [] → s.threads o' ≠ [] → o = o'
  counters : ∀ o, (∀ o', s.threads o' ≠ [] → o' = o) → s.counters = countersOf C (s.threads o)

theorem countsOpen_init (C : Communicator) : CountsOpen C .init where
  nodup _ := .nil
  subset _ := List.nil_subset _
  lt _ _ h := by cases h
  inFlight _ h := by cases h
  single _ _ h := absurd rfl h
  counters _ _ := rfl

theorem threads_arriveAt_self (s : CommState) (t : Nat) (asyn : Bool) :
    (s.arriveAt C t asyn).threads (s.nextOp t asyn) = s.threads (s.nextOp t asyn) ++ [t] :=
  Function.update_self ..

theorem threads_arriveAt_of_ne (s : CommState) {t : Nat} {asyn : Bool} {o : GlobOp}
    (ho : o ≠ s.nextOp t asyn) :
    (s.arriveAt C t asyn).threads o = s.threads o :=
  Function.update_of_ne ho ..

theorem le_nbGlobIndexMaster_arriveAt (s : CommState) (t : Nat) (asyn : Bool) (u : Nat) :
    s.nbGlobIndexMaster u ≤ (s.arriveAt C t asyn).nbGlobIndexMaster u := by
  cases asyn with
  | false => exact le_rfl
  | true =>
      show _ ≤ Function.update s.nbGlobIndexMaster t (s.nbGlobIndexMaster t + 1) u
      by_cases hut : u = t
      · subst hut
        rw [Function.update_self]
        omega
      · rw [Function.update_of_ne hut]

theorem CountsOpen.not_mem_nextOp (h : CountsOpen C s) {t : Nat} {asyn : Bool}
    (hsync : asyn = false → t ∉ s.threads .sync) : t ∉ s.threads (s.nextOp t asyn) := by
  cases asyn with
  | false => exact hsync rfl
  | true =>
      intro hin
      have hlt := h.lt _ t hin
      omega

theorem CountsOpen.arriveAt (h : CountsOpen C s) {t : Nat} {asyn : Bool}
    (hmem : t ∈ C.globalRanks) (hsync : asyn = false → t ∉ s.threads .sync)
    (halone : Alone s (.arrive t asyn)) : CountsOpen C (s.arriveAt C t asyn) := by
  have hopen : ∀ o, (s.arriveAt C t asyn).threads o ≠ [] → o = s.nextOp t asyn := by
    intro o ho
    by_contra hne
    rw [threads_arriveAt_of_ne s hne] at ho
    exact hne (halone o ho)
  constructor
  · intro o
    by_cases ho : o = s.nextOp t asyn
    · rw [ho, threads_arriveAt_self]
      apply List.Nodup.append (h.nodup _) (List.nodup_singleton t)
      exact List.disjoint_singleton.mpr (h.not_mem_nextOp hsync)
    · rw [threads_arriveAt_of_ne s ho]
      exact h.nodup o
  · intro o
    by_cases ho : o = s.nextOp t asyn
    · rw [ho, threads_arriveAt_self]
      apply List.append_subset.mpr
      exact ⟨h.subset _, by simpa using hmem⟩
    · rw [threads_arriveAt_of_ne s ho]
      exact h.subset o
  · intro i u hu
    have hmaster := le_nbGlobIndexMaster_arriveAt (C := C) s t asyn u
    by_cases ho : GlobOp.asyn i = s.nextOp t asyn
    · rw [ho, threads_arriveAt_self, List.mem_append, List.mem_singleton, ← ho] at hu
      rcases hu with hu | hut
      · have hlt := h.lt i u hu
        omega
      · cases asyn with
        | false => cases ho
        | true =>
            obtain rfl := GlobOp.asyn.inj ho
            subst hut
            show s.nbGlobIndexMaster u <
              Function.update s.nbGlobIndexMaster u (s.nbGlobIndexMaster u + 1) u
            rw [Function.update_self]
            omega
    · rw [threads_arriveAt_of_ne s ho] at hu
      have hlt := h.lt i u hu
      omega
  · intro o ho
    by_cases heq : o = s.nextOp t asyn
    · rw [heq, threads_arriveAt_self]
      simp
    · rw [threads_arriveAt_of_ne s heq]
      exact h.inFlight o ho
  · intro o o' ho ho'
    calc
      o = s.nextOp t asyn := hopen o ho
      _ = o' := (hopen o' ho').symm
  · intro o ho
    have heq : s.nextOp t asyn = o := by
      apply ho
      rw [threads_arriveAt_self]
      simp
    calc
      (s.arriveAt C t asyn).counters = addNode C s.counters t := rfl
      _ = addNode C (countersOf C (s.threads (s.nextOp t asyn))) t := by
        rw [← h.counters _ halone]
      _ = countersOf C (s.threads (s.nextOp t asyn) ++ [t]) := (countersOf_concat _ t).symm
      _ = countersOf C ((s.arriveAt C t asyn).threads o) := by rw [← heq, threads_arriveAt_self]

theorem CountsOpen.start (h : CountsOpen C s) {o : GlobOp} (hne : s.threads o ≠ []) :
    CountsOpen C { s with inFlight := o :: s.inFlight } :=
  { h with
    inFlight := by
      intro o' ho'
      rcases List.mem_cons.mp ho' with rfl | ho'
      · exact hne
      · exact h.inFlight o' ho' }

theorem CountsOpen.closeOp (h : CountsOpen C s) {o : GlobOp} (hin : o ∈ s.inFlight) :
    CountsOpen C (s.closeOp o) := by
  have hnil : ∀ o', (s.closeOp o).threads o' = [] := by
    intro o'
    show Function.update s.threads o [] o' = []
    by_cases ho : o' = o
    · rw [ho, Function.update_self]
    · rw [Function.update_of_ne ho]
      by_contra hne
      exact ho (h.single o' o hne (h.inFlight o hin))
  constructor
  · intro o'
    rw [hnil]
    exact .nil
  · intro o'
    rw [hnil]
    exact List.nil_subset _
  · intro i t ht
    rw [hnil] at ht
    cases ht
  · intro o' ho'
    obtain ⟨hmem, hne⟩ := List.mem_filter.mp ho'
    have heq := h.single o' o (h.inFlight o' hmem) (h.inFlight o hin)
    simp [heq] at hne
  · intro o' o'' ho'
    exact absurd (hnil o') ho'
  · intro o' _
    rw [hnil, countersOf_nil]
    rfl

theorem countsOpen_step {l : CommLabel} (h : CountsOpen C s) (halone : Alone s l)
    (hstep : ofPartial (commNext C) s l s') : CountsOpen C s' := by
  cases l with
  | arrive t asyn =>
      simp only [ofPartial, commNext, Option.ite_none_right_eq_some, Option.some.injEq] at hstep
      obtain ⟨⟨hmem, hsync⟩, rfl⟩ := hstep
      exact h.arriveAt hmem hsync halone
  | start o call =>
      simp only [ofPartial, commNext, Option.ite_none_right_eq_some, Option.map_eq_some_iff] at hstep
      obtain ⟨⟨-, -, hthread, -⟩, -, -, rfl⟩ := hstep
      exact h.start (List.ne_nil_of_mem hthread)
  | close o =>
      simp only [ofPartial, commNext, Option.ite_none_right_eq_some, Option.some.injEq] at hstep
      obtain ⟨hin, rfl⟩ := hstep
      exact h.closeOp hin

theorem CountsOpen.counters_start (h : CountsOpen C s) {o : GlobOp} {call : StartCall}
    (hstep : ofPartial (commNext C) s (.start o call) s') :
    s.counters = countersOf C C.globalRanks := by
  simp only [ofPartial, commNext, Option.ite_none_right_eq_some] at hstep
  obtain ⟨⟨hlength, -, hthread, -⟩, -⟩ := hstep
  have hall : (s.threads o).Perm C.globalRanks :=
    (List.subperm_of_subset (h.nodup o) (h.subset o)).perm_of_length_le hlength.ge
  calc
    s.counters = countersOf C (s.threads o) := by
      apply h.counters o
      intro o' ho'
      exact h.single o' o ho' (List.ne_nil_of_mem hthread)
    _ = countersOf C C.globalRanks := countersOf_perm hall

/-- In a run in which no thread arrives while another operation of the communicator has not ended,
every operation that starts takes the time that its own tasks determine. -/
theorem collective_duration_own {tr : List (Transition CommState CommLabel)}
    (hrun : Run (ofPartial (commNext C)) .init tr s)
    (halone : ∀ x ∈ tr, Alone x.pre x.label) :
    ∀ x ∈ tr, ∀ o call, x.label = .start o call →
      x.pre.counters = countersOf C C.globalRanks ∧
      duration C x.pre.counters call = duration C (countersOf C C.globalRanks) call := by
  intro x hx o call hlabel
  obtain ⟨hpre, -, hstep⟩ := hrun.transition_of_guard (C := Alone) (countsOpen_init C)
    (fun _ _ _ h hc hs => countsOpen_step h hc hs) halone x hx
  rw [hlabel] at hstep
  have hcounters := hpre.counters_start hstep
  exact ⟨hcounters, by rw [hcounters]⟩

/-- Two tasks on one node, with a linear model of a collective operation. -/
def twoTasks : Communicator where
  platform :=
    { node := fun _ => ⟨0, 0, 1, 0, 0⟩
      machine := fun _ => ⟨1, 0, 0, fun _ => some ⟨.lin, .max, .zero, .max⟩⟩
      wan := ⟨0, fun _ => none, fun _ _ => 0⟩ }
  nodeOf _ := 0
  globalRanks := [0, 1]
  nodup := by decide

def twoTasksStart : CommLabel := .start (.asyn 0) ⟨1, ⟨0, 8, 8⟩, [1], 0⟩

theorem collective_duration_own_twoTasks :
    let run := (exec (commNext twoTasks) .init
      [.arrive 0 true, .arrive 1 true, twoTasksStart]).get (by rfl)
    (∀ x ∈ run.1, Alone x.pre x.label) ∧
      ∀ x ∈ run.1, ∀ o call, x.label = .start o call →
        x.pre.counters = countersOf twoTasks twoTasks.globalRanks ∧
        duration twoTasks x.pre.counters call =
          duration twoTasks (countersOf twoTasks twoTasks.globalRanks) call := by
  have halone : ∀ x ∈ ((exec (commNext twoTasks) .init
      [.arrive 0 true, .arrive 1 true, twoTasksStart]).get (by rfl)).1, Alone x.pre x.label := by
    intro x hx
    rcases hx with _ | ⟨_, _ | ⟨_, _ | ⟨_, hx⟩⟩⟩
    · intro o ho
      exact absurd rfl ho
    · intro o ho
      by_contra hne
      have hne : o ≠ .asyn 0 := hne
      exact ho (threads_arriveAt_of_ne (C := twoTasks) .init hne)
    · trivial
    · cases hx
  exact ⟨halone, collective_duration_own (run_exec_get (by rfl)) halone⟩

/-- The same call starts the operation in two runs. In the second one task 0 has arrived at one
more operation, and the times are longer. -/
theorem not_collective_duration_own :
    ¬ ∀ (C : Communicator) (tr₁ tr₂ : List (Transition CommState CommLabel)) (s₁ s₂ : CommState),
      Run (ofPartial (commNext C)) .init tr₁ s₁ → Run (ofPartial (commNext C)) .init tr₂ s₂ →
      ∀ x₁ ∈ tr₁, ∀ x₂ ∈ tr₂, ∀ o call, x₁.label = .start o call → x₂.label = .start o call →
        duration C x₁.pre.counters call = duration C x₂.pre.counters call := by
  intro h
  have hshort : (exec (commNext twoTasks) .init
      [.arrive 0 true, .arrive 1 true, twoTasksStart]).isSome := by rfl
  have hlong : (exec (commNext twoTasks) .init
      [.arrive 0 true, .arrive 0 true, .arrive 1 true, twoTasksStart]).isSome := by rfl
  have hsame := h twoTasks _ _ _ _ (run_exec_get hshort) (run_exec_get hlong)
    _ (.tail _ (.tail _ (.head _))) _ (.tail _ (.tail _ (.tail _ (.head _)))) _ _ rfl rfl
  exact absurd hsame (by decide +kernel)

end Dimemas.Model.CollectiveTiming
