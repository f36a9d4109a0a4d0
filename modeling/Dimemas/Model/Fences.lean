import Dimemas.Model.RmaNetwork
import Dimemas.Model.Windows
/-!
# Fences

A window in fence mode (`memory.c`): transfers, fences and the end of the transfers, with the links
and buses that `really_RMA` takes and that messages of the application share. Each task has one
thread.
-/

namespace Dimemas.Model.Fences

open Dimemas.Library.Transitions
open Dimemas.Model.RmaNetwork
open Dimemas.Model.Windows (WindowMode extract)

/-- The actions of a task; what it does elsewhere is work. -/
inductive Action
  | work
  | getput (rank : Nat)
  | fence
deriving DecidableEq

/-- The last two counters are not in the source: the fences that a task has entered and left. -/
structure State where
  mode : WindowMode
  fenceTasks : List TaskId
  fenceOperations : List TaskId
  actions : TaskId → List Action
  doingStartup : TaskId → Bool
  startupDone : TaskId → Bool
  ready : List TaskId
  net : Network
  entered : TaskId → Nat
  left : TaskId → Nat

variable (p : Platform) (globalRanks : List TaskId)

/-- The tasks of the window with actions are ready at first. -/
def State.initial (programs : TaskId → List Action) : State where
  mode := .none
  fenceTasks := []
  fenceOperations := []
  actions t := if t ∈ globalRanks then programs t else []
  doingStartup _ := false
  startupDone _ := false
  ready := globalRanks.filter fun t => programs t ≠ []
  net := .initial p
  entered _ := 0
  left _ := 0

/-- The action of a task is freed. The task is made ready if it has more. -/
def State.advance (s : State) (t : TaskId) : State :=
  { s with
    actions := Function.update s.actions t (s.actions t).tail
    ready := if (s.actions t).tail = [] then s.ready else s.ready ++ [t] }

def leaveFence (s : State) (t : TaskId) : State :=
  { s with left := Function.update s.left t (s.left t + 1) }.advance t

/-- `os_fence`. The counter is that of the fence actions. -/
def osFence (s : State) (t : TaskId) (endOperation : Bool) : Option State :=
  let s := if endOperation then s else
    { s with entered := Function.update s.entered t (s.entered t + 1) }
  if endOperation = true ∨
      s.fenceTasks.length + 1 = globalRanks.length ∧ s.fenceOperations = [] then
    (if endOperation then extract s.fenceTasks t else some s.fenceTasks).map fun others =>
      (t :: others).foldl leaveFence { s with fenceTasks := [], mode := .none }
  else some { s with fenceTasks := s.fenceTasks ++ [t] }

def transfer (s : State) (t : TaskId) (rank : Nat) : Option State :=
  globalRanks[rank]?.bind fun target =>
    (reallyRMA p (addComm s.net (.rma t target (s.left t))) s.net.2.comms.length).map fun net =>
      { s with startupDone := Function.update s.startupDone t false, net := net }.advance t

def startUp (s : State) (t : TaskId) : State :=
  { s with
    actions := Function.update s.actions t (.work :: s.actions t)
    doingStartup := Function.update s.doingStartup t true
    ready := s.ready ++ [t] }

/-- `os_getput`. Whether there is a startup depends on the latencies of the nodes. The rank is
looked up for its node. -/
def osGetput (s : State) (t : TaskId) (rank : Nat) (startup : Bool) : Option State :=
  if s.startupDone t then transfer p globalRanks s t rank
  else
    let s := { s with fenceOperations := s.fenceOperations ++ [t] }
    if rank < globalRanks.length then
      if startup then some (startUp s t) else transfer p globalRanks s t rank
    else none

/-- `ONE_SIDED_operation`. A window without a mode gets that of fences. -/
def oneSidedOperation (s : State) (t : TaskId) (startup : Bool) : Action → Option State
  | .work => none
  | .getput rank => osGetput p globalRanks { s with mode := .fence } t rank startup
  | .fence => osFence globalRanks { s with mode := .fence } t false

def osCompleted (s : State) (t : TaskId) : Option State :=
  if s.mode = .fence then
    (extract s.fenceOperations t).bind fun fenceOperations =>
      let s := { s with fenceOperations := fenceOperations }
      if s.fenceTasks.length = globalRanks.length ∧ s.fenceOperations = [] then
        osFence globalRanks s t true
      else some s
  else some s

def work (s : State) (t : TaskId) : State :=
  let s :=
    if s.doingStartup t then
      { s with
        doingStartup := Function.update s.doingStartup t false
        startupDone := Function.update s.startupDone t true }
    else s
  s.advance t

/-- The scheduler runs the action of a ready task, a transfer completes, or a message between nodes
is sent or releases its resources. -/
inductive Label
  | dispatch (t : TaskId) (startup : Bool)
  | completed (i : Nat)
  | send (node nodePartner : Nat)
  | resources (i : Nat)

def threadOf : Option Comm → Option TaskId
  | some (.rma thread _ _) => some thread
  | _ => none

def Enabled (s : State) : Label → Prop
  | .dispatch t _ => t ∈ s.ready
  | .completed i => i ∈ s.net.2.running ∧ threadOf s.net.2.comms[i]? ≠ none
  | .send node nodePartner => node ≠ nodePartner
  | .resources i => i ∈ s.net.2.running ∧ threadOf s.net.2.comms[i]? = none

instance (s : State) : (l : Label) → Decidable (Enabled s l)
  | .dispatch t _ => inferInstanceAs (Decidable (t ∈ s.ready))
  | .completed _ => inferInstanceAs (Decidable (_ ∧ _))
  | .send _ _ => inferInstanceAs (Decidable (_ ≠ _))
  | .resources _ => inferInstanceAs (Decidable (_ ∧ _))

def perform (s : State) : Label → Option State
  | .dispatch t startup =>
      let s := { s with ready := s.ready.erase t }
      match s.actions t with
      | [] => some s
      | .work :: _ => some (work s t)
      | action :: _ => oneSidedOperation p globalRanks s t startup action
  | .completed i =>
      (threadOf s.net.2.comms[i]?).bind fun t =>
        osCompleted globalRanks { s with net := complete s.net i } t
  | .send node nodePartner =>
      (reallySend p (addComm s.net (.message node nodePartner)) s.net.2.comms.length).map fun net =>
        { s with net := net }
  | .resources i =>
      (internalResources p (takeEvent s.net i) i).map fun net => { s with net := net }

/-- What the scheduler and the network can do. A panic ends the run. -/
def step (s : State) (l : Label) : Option State :=
  if Enabled s l then perform p globalRanks s l else none

/-! ## What fences are for -/

def pending (b : Traffic) (t : TaskId) : Nat :=
  (List.range b.comms.length).countP fun i =>
    decide (i ∉ b.completed ∧ threadOf b.comms[i]? = some t)

def starting (s : State) (t : TaskId) : Nat :=
  if s.doingStartup t = true ∨ s.startupDone t = true then 1 else 0

/-- A task leaves a fence behind the entries of all tasks and behind the transfers that were made
before it, it waits there once and goes on when nothing is left to wait for, and the operations of
the window are the transfers that have not completed. -/
structure FencesKept (s : State) : Prop where
  entries : ∀ t ∈ globalRanks, ∀ u ∈ globalRanks, s.left t ≤ s.entered u
  transfers : ∀ t ∈ globalRanks, ∀ (i : Nat) (u target : TaskId) (fences : Nat),
    s.net.2.comms[i]? = some (.rma u target fences) → fences < s.left t → i ∈ s.net.2.completed
  once : ∀ t ∈ globalRanks, s.entered t = s.left t + s.fenceTasks.count t ∧
    s.ready.count t + s.fenceTasks.count t ≤ 1
  goesOn : ∀ t, s.actions t ≠ [] → t ∉ s.fenceTasks → t ∈ s.ready
  waits : s.fenceTasks ≠ [] → (∃ t ∈ globalRanks, t ∉ s.fenceTasks) ∨ s.fenceOperations ≠ []
  operations : ∀ t, s.fenceOperations.count t = pending s.net.2 t + starting s t

/-- The fences are kept, and no completed transfer holds a link or a bus. -/
def Good (s : State) : Prop :=
  FencesKept globalRanks s ∧ ∀ i ∈ s.net.2.completed, ¬ Holds s.net i

/-! ## What holds between the steps -/

/-- Each task with actions is ready, in the hands of the current operation, or in the fence. -/
structure Queues (s : State) (loose : List TaskId) : Prop where
  members : ∀ t, s.actions t ≠ [] → t ∈ globalRanks
  once : ∀ t, s.ready.count t + s.fenceTasks.count t + loose.count t ≤ 1
  readyActions : ∀ t ∈ s.ready, s.actions t ≠ []
  waiting : ∀ t ∈ s.fenceTasks, ∃ rest, s.actions t = .fence :: rest
  goesOn : ∀ t, s.actions t ≠ [] → t ∈ s.ready ∨ t ∈ s.fenceTasks ∨ t ∈ loose

structure Startups (s : State) : Prop where
  doing : ∀ t, s.doingStartup t = true →
    s.startupDone t = false ∧ ∃ rank rest, s.actions t = .work :: .getput rank :: rest
  done : ∀ t, s.startupDone t = true → ∃ rank rest, s.actions t = .getput rank :: rest

/-- All tasks have left the same number of fences. -/
structure Epoch (s : State) (k : Nat) : Prop where
  left : ∀ t ∈ globalRanks, s.left t = k
  entered : ∀ t ∈ globalRanks, s.entered t = k + s.fenceTasks.count t
  copies : ∀ (i : Nat) (t target : TaskId) (fences : Nat),
    s.net.2.comms[i]? = some (.rma t target fences) →
      fences ≤ k ∧ (fences < k → i ∈ s.net.2.completed)

structure Operations (s : State) : Prop where
  count : ∀ t, s.fenceOperations.count t = pending s.net.2 t + starting s t
  mode : s.fenceTasks ≠ [] ∨ s.fenceOperations ≠ [] → s.mode = .fence
  waits : s.fenceTasks ≠ [] →
    s.fenceTasks.length ≠ globalRanks.length ∨ s.fenceOperations ≠ []

variable {p} {globalRanks} {s s' : State} {t u : TaskId} {i : Nat} {action : Action}
variable {rest : List Action} {loose : List TaskId}

theorem advance_actions (h : u ≠ t) : (s.advance t).actions u = s.actions u :=
  Function.update_of_ne h ..

theorem advance_actions_self : (s.advance t).actions t = (s.actions t).tail :=
  Function.update_self ..

theorem count_concat_self (queue : List TaskId) : (queue ++ [t]).count t = queue.count t + 1 := by
  rw [count_concat, if_pos rfl]

theorem count_concat_of_ne (queue : List TaskId) (h : u ≠ t) :
    (queue ++ [t]).count u = queue.count u := by
  rw [count_concat, if_neg (Ne.symm h)]
  rfl

theorem Queues.advance (h : Queues globalRanks s (t :: loose)) :
    Queues globalRanks (s.advance t) loose := by
  have honce := h.once t
  rw [List.count_cons_self] at honce
  have hnotFence : t ∉ s.fenceTasks := List.count_eq_zero.mp (by omega)
  have hloose (u : TaskId) (hu : u ≠ t) : (t :: loose).count u = loose.count u :=
    List.count_cons_of_ne (Ne.symm hu)
  have hready (u : TaskId) (hu : u ≠ t) : (s.advance t).ready.count u = s.ready.count u := by
    show (if (s.actions t).tail = [] then s.ready else s.ready ++ [t]).count u = _
    split
    · rfl
    · exact count_concat_of_ne s.ready hu
  refine ⟨fun u hu => ?_, fun u => ?_, fun u hu => ?_, fun u hu => ?_, fun u hu => ?_⟩
  · by_cases hut : u = t
    · rw [hut] at hu ⊢
      rw [advance_actions_self] at hu
      apply h.members t
      intro hnil
      rw [hnil] at hu
      exact hu rfl
    · rw [advance_actions hut] at hu
      exact h.members u hu
  · show (s.advance t).ready.count u + s.fenceTasks.count u + loose.count u ≤ 1
    by_cases hut : u = t
    · rw [hut]
      have hle : (s.advance t).ready.count t ≤ s.ready.count t + 1 := by
        show (if (s.actions t).tail = [] then s.ready else s.ready ++ [t]).count t ≤ _
        split
        · omega
        · rw [count_concat_self]
      omega
    · rw [hready u hut, ← hloose u hut]
      exact h.once u
  · by_cases hut : u = t
    · rw [hut, advance_actions_self]
      rw [hut] at hu
      intro hnil
      have hin : t ∈ if (s.actions t).tail = [] then s.ready else s.ready ++ [t] := hu
      rw [if_pos hnil] at hin
      have hpos : 0 < s.ready.count t := List.count_pos_iff.mpr hin
      omega
    · rw [advance_actions hut]
      apply h.readyActions u
      rw [← List.count_pos_iff, ← hready u hut]
      exact List.count_pos_iff.mpr hu
  · have hut : u ≠ t := fun heq => hnotFence (heq ▸ hu)
    rw [advance_actions hut]
    exact h.waiting u hu
  · by_cases hut : u = t
    · rw [hut, advance_actions_self] at hu
      left
      show u ∈ if (s.actions t).tail = [] then s.ready else s.ready ++ [t]
      rw [if_neg hu, hut]
      exact List.mem_append_right _ (List.mem_singleton_self t)
    · rw [advance_actions hut] at hu
      rcases h.goesOn u hu with hin | hin | hin
      · left
        rw [← List.count_pos_iff, hready u hut]
        exact List.count_pos_iff.mpr hin
      · exact Or.inr (Or.inl hin)
      · rcases List.mem_cons.mp hin with heq | hin
        · exact absurd heq hut
        · exact Or.inr (Or.inr hin)

theorem Queues.dispatch (h : Queues globalRanks s []) (ht : t ∈ s.ready) :
    Queues globalRanks { s with ready := s.ready.erase t } [t] := by
  have honce := h.once t
  have hpos : 0 < s.ready.count t := List.count_pos_iff.mpr ht
  refine ⟨h.members, fun u => ?_, fun u hu => h.readyActions u (List.mem_of_mem_erase hu),
    h.waiting, fun u hu => ?_⟩
  · have hu := h.once u
    show (s.ready.erase t).count u + s.fenceTasks.count u + [t].count u ≤ 1
    by_cases hut : u = t
    · rw [hut, List.count_erase_self, List.count_singleton_self]
      omega
    · rw [List.count_erase_of_ne hut, List.count_cons_of_ne (Ne.symm hut)]
      exact hu
  · by_cases hut : u = t
    · exact Or.inr (Or.inr (List.mem_singleton.mpr hut))
    · rcases h.goesOn u hu with hin | hin | hin
      · exact Or.inl ((List.mem_erase_of_ne hut).mpr hin)
      · exact Or.inr (Or.inl hin)
      · exact absurd hin List.not_mem_nil

theorem Queues.enter (h : Queues globalRanks s [t]) (hactions : s.actions t = .fence :: rest) :
    Queues globalRanks { s with fenceTasks := s.fenceTasks ++ [t] } [] := by
  have honce := h.once t
  rw [List.count_singleton_self] at honce
  refine ⟨h.members, fun u => ?_, h.readyActions, fun u hu => ?_, fun u hu => ?_⟩
  · have hu := h.once u
    show s.ready.count u + (s.fenceTasks ++ [t]).count u + 0 ≤ 1
    by_cases hut : u = t
    · rw [hut, count_concat_self]
      omega
    · rw [count_concat_of_ne _ hut]
      rw [List.count_cons_of_ne (Ne.symm hut)] at hu
      exact hu
  · rcases List.mem_append.mp hu with hold | hnew
    · exact h.waiting u hold
    · rw [List.mem_singleton.mp hnew]
      exact ⟨rest, hactions⟩
  · rcases h.goesOn u hu with hin | hin | hin
    · exact Or.inl hin
    · exact Or.inr (Or.inl (List.mem_append_left _ hin))
    · rw [List.mem_singleton.mp hin]
      exact Or.inr (Or.inl (List.mem_append_right _ (List.mem_singleton_self t)))

theorem Queues.release (h : Queues globalRanks s loose) {leavers : List TaskId} (mode : WindowMode)
    (hperm : leavers.Perm (loose ++ s.fenceTasks)) :
    Queues globalRanks { s with fenceTasks := [], mode := mode } leavers := by
  refine ⟨h.members, fun u => ?_, h.readyActions, fun u hu => absurd hu List.not_mem_nil,
    fun u hu => ?_⟩
  · have hu := h.once u
    have hcount := hperm.count_eq u
    rw [List.count_append] at hcount
    show s.ready.count u + 0 + leavers.count u ≤ 1
    omega
  · rcases h.goesOn u hu with hin | hin | hin
    · exact Or.inl hin
    · exact Or.inr (Or.inr (hperm.mem_iff.mpr (List.mem_append_right _ hin)))
    · exact Or.inr (Or.inr (hperm.mem_iff.mpr (List.mem_append_left _ hin)))

theorem leaveAll_fields (leavers : List TaskId) (s : State) :
    (leavers.foldl leaveFence s).fenceTasks = s.fenceTasks ∧
    (leavers.foldl leaveFence s).fenceOperations = s.fenceOperations ∧
    (leavers.foldl leaveFence s).mode = s.mode ∧
    (leavers.foldl leaveFence s).doingStartup = s.doingStartup ∧
    (leavers.foldl leaveFence s).startupDone = s.startupDone ∧
    (leavers.foldl leaveFence s).net = s.net ∧
    (leavers.foldl leaveFence s).entered = s.entered := by
  induction leavers generalizing s with
  | nil => exact ⟨rfl, rfl, rfl, rfl, rfl, rfl, rfl⟩
  | cons t leavers ih => exact ih (leaveFence s t)

theorem leaveAll_left (leavers : List TaskId) (s : State) (u : TaskId) :
    (leavers.foldl leaveFence s).left u = s.left u + leavers.count u := by
  induction leavers generalizing s with
  | nil => rfl
  | cons t leavers ih =>
      rw [List.foldl_cons, ih]
      show Function.update s.left t (s.left t + 1) u + leavers.count u = _
      by_cases hut : u = t
      · rw [hut, Function.update_self, List.count_cons_self]
        omega
      · rw [Function.update_of_ne hut, List.count_cons_of_ne (Ne.symm hut)]

theorem leaveAll_actions (leavers : List TaskId) (s : State) (hu : u ∉ leavers) :
    (leavers.foldl leaveFence s).actions u = s.actions u := by
  induction leavers generalizing s with
  | nil => rfl
  | cons t leavers ih =>
      rw [List.mem_cons, not_or] at hu
      rw [List.foldl_cons, ih (leaveFence s t) hu.2]
      exact advance_actions hu.1

theorem Queues.leaveAll {leavers : List TaskId} (h : Queues globalRanks s leavers) :
    Queues globalRanks (leavers.foldl leaveFence s) [] := by
  induction leavers generalizing s with
  | nil => exact h
  | cons t leavers ih =>
      apply ih
      have hsame : Queues globalRanks
          { s with left := Function.update s.left t (s.left t + 1) } (t :: leavers) :=
        ⟨h.members, h.once, h.readyActions, h.waiting, h.goesOn⟩
      exact hsame.advance

/-! ## Transfers that have not completed -/

theorem pending_congr {b b' : Traffic} (hcomms : b'.comms = b.comms)
    (hcompleted : b'.completed = b.completed) (t : TaskId) : pending b' t = pending b t := by
  rw [pending, pending, hcomms, hcompleted]

theorem pending_addComm {x : Network} {c : Comm} (hnew : x.2.comms.length ∉ x.2.completed)
    (t : TaskId) : pending (addComm x c).2 t =
      pending x.2 t + if threadOf (some c) = some t then 1 else 0 := by
  have hold : ∀ i ∈ List.range x.2.comms.length,
      (decide (i ∉ x.2.completed ∧ threadOf (x.2.comms ++ [c])[i]? = some t) = true ↔
        decide (i ∉ x.2.completed ∧ threadOf x.2.comms[i]? = some t) = true) := by
    intro i hi
    rw [List.getElem?_append_left (List.mem_range.mp hi)]
  have hlast : (x.2.comms ++ [c])[x.2.comms.length]? = some c := by
    rw [List.getElem?_append_right (Nat.le_refl _), Nat.sub_self]
    rfl
  show (List.range (x.2.comms ++ [c]).length).countP (fun i =>
    decide (i ∉ x.2.completed ∧ threadOf (x.2.comms ++ [c])[i]? = some t)) = _
  rw [List.length_append, List.length_singleton, List.range_succ, List.countP_append,
    List.countP_congr hold, List.countP_singleton, hlast]
  apply congrArg (pending x.2 t + ·)
  by_cases hthread : threadOf (some c) = some t
  · rw [if_pos hthread, if_pos (decide_eq_true ⟨hnew, hthread⟩)]
  · rw [if_neg hthread, if_neg fun h => hthread (of_decide_eq_true h).2]

theorem countP_of_mem {l : List Nat} (hnodup : l.Nodup) (hi : i ∈ l) (q : Nat → Bool) :
    l.countP q = l.countP (fun j => decide (j ≠ i) && q j) + if q i then 1 else 0 := by
  induction l with
  | nil => exact absurd hi List.not_mem_nil
  | cons a l ih =>
      obtain ⟨hfresh, hnodup'⟩ := List.nodup_cons.mp hnodup
      rw [List.countP_cons, List.countP_cons]
      by_cases ha : a = i
      · have hsame : l.countP q = l.countP fun j => decide (j ≠ i) && q j := by
          apply List.countP_congr
          intro j hj
          have hne : j ≠ i := fun heq => hfresh (ha ▸ heq ▸ hj)
          rw [decide_eq_true hne, Bool.true_and]
        rw [hsame, ha, decide_eq_false fun h => h rfl, Bool.false_and]
        simp only [Bool.false_eq_true, if_false, Nat.add_zero]
      · have hin : i ∈ l := (List.mem_cons.mp hi).resolve_left (Ne.symm ha)
        rw [ih hnodup' hin, decide_eq_true ha, Bool.true_and]
        omega

theorem pending_complete {x : Network} (hi : i < x.2.comms.length) (hnew : i ∉ x.2.completed)
    (hthread : threadOf x.2.comms[i]? = some t) (u : TaskId) :
    pending x.2 u = pending (complete x i).2 u + if u = t then 1 else 0 := by
  have hrest : pending (complete x i).2 u = (List.range x.2.comms.length).countP fun j =>
      decide (j ≠ i) && decide (j ∉ x.2.completed ∧ threadOf x.2.comms[j]? = some u) := by
    apply List.countP_congr
    intro j _
    rw [Bool.and_eq_true, decide_eq_true_iff, decide_eq_true_iff, decide_eq_true_iff]
    show (j ∉ x.2.completed ++ [i] ∧ threadOf x.2.comms[j]? = some u) ↔ _
    rw [List.mem_append, List.mem_singleton, not_or]
    constructor
    · rintro ⟨⟨hold, hne⟩, hj⟩
      exact ⟨hne, hold, hj⟩
    · rintro ⟨hne, hold, hj⟩
      exact ⟨⟨hold, hne⟩, hj⟩
  rw [hrest, pending, countP_of_mem List.nodup_range (List.mem_range.mpr hi)]
  congr 1
  by_cases hu : u = t
  · rw [if_pos hu, if_pos (decide_eq_true ⟨hnew, hu ▸ hthread⟩)]
  · rw [if_neg hu, if_neg]
    intro h
    have hsome := (of_decide_eq_true h).2
    rw [hthread] at hsome
    exact hu (Option.some.inj hsome).symm

theorem completed_of_pending_eq_zero {b : Traffic} {target : TaskId} {fences : Nat}
    (hzero : pending b t = 0) (hcomm : b.comms[i]? = some (.rma t target fences)) :
    i ∈ b.completed := by
  by_contra hnot
  obtain ⟨hi, -⟩ := List.getElem?_eq_some_iff.mp hcomm
  apply List.countP_eq_zero.mp hzero i (List.mem_range.mpr hi)
  apply decide_eq_true
  refine ⟨hnot, ?_⟩
  rw [hcomm]
  rfl

/-! ## The steps of a window -/

structure Inv (globalRanks : List TaskId) (s : State) (loose : List TaskId) (k : Nat) : Prop where
  queues : Queues globalRanks s loose
  startups : Startups s
  epoch : Epoch globalRanks s k
  operations : Operations globalRanks s

variable {k : Nat}

theorem starting_of_not (hdoing : s.doingStartup t = false) (hdone : s.startupDone t = false) :
    starting s t = 0 := by
  unfold starting
  rw [hdoing, hdone]
  exact if_neg (by decide)

theorem Startups.not_starting (h : Startups s) (hwork : ∀ rest, s.actions t ≠ .work :: rest)
    (hgetput : ∀ rank rest, s.actions t ≠ .getput rank :: rest) :
    s.doingStartup t = false ∧ s.startupDone t = false := by
  constructor
  · apply Bool.eq_false_iff.mpr
    intro hdoing
    obtain ⟨-, rank, rest, hactions⟩ := h.doing t hdoing
    exact hwork _ hactions
  · apply Bool.eq_false_iff.mpr
    intro hdone
    obtain ⟨rank, rest, hactions⟩ := h.done t hdone
    exact hgetput rank rest hactions

theorem Startups.congr (h : Startups s) (hdoing : s'.doingStartup = s.doingStartup)
    (hdone : s'.startupDone = s.startupDone)
    (hactions : ∀ u, s.doingStartup u = true ∨ s.startupDone u = true →
      s'.actions u = s.actions u) : Startups s' := by
  refine ⟨fun u hu => ?_, fun u hu => ?_⟩
  · rw [hdoing] at hu
    rw [hdone, hactions u (Or.inl hu)]
    exact h.doing u hu
  · rw [hdone] at hu
    rw [hactions u (Or.inr hu)]
    exact h.done u hu

theorem Startups.advance (h : Startups s) (hdoing : s.doingStartup t = false)
    (hdone : s.startupDone t = false) : Startups (s.advance t) := by
  have hsame : (s.advance t).doingStartup = s.doingStartup := rfl
  apply h.congr hsame rfl
  intro u hu
  apply advance_actions
  rintro rfl
  rw [hdoing, hdone] at hu
  exact hu.elim Bool.noConfusion Bool.noConfusion

theorem Inv.advance (h : Inv globalRanks s (t :: loose) k) (hdoing : s.doingStartup t = false)
    (hdone : s.startupDone t = false) : Inv globalRanks (s.advance t) loose k :=
  ⟨h.queues.advance, h.startups.advance hdoing hdone,
    ⟨h.epoch.left, h.epoch.entered, h.epoch.copies⟩,
    ⟨h.operations.count, h.operations.mode, h.operations.waits⟩⟩

theorem Inv.work (h : Inv globalRanks s [t] k) (hactions : s.actions t = .work :: rest) :
    Inv globalRanks (work s t) [] k := by
  have hdone : s.startupDone t = false := by
    apply Bool.eq_false_iff.mpr
    intro hdone
    obtain ⟨rank, rest', hgetput⟩ := h.startups.done t hdone
    rw [hactions] at hgetput
    cases hgetput
  unfold Fences.work
  split
  · next hdoing =>
      obtain ⟨-, rank, rest', hnext⟩ := h.startups.doing t hdoing
      have htail : (s.actions t).tail = .getput rank :: rest' := by rw [hnext]; rfl
      have hsame : Queues globalRanks { s with
          doingStartup := Function.update s.doingStartup t false
          startupDone := Function.update s.startupDone t true } [t] :=
        ⟨h.queues.members, h.queues.once, h.queues.readyActions, h.queues.waiting, h.queues.goesOn⟩
      refine ⟨hsame.advance, ⟨fun u hu => ?_, fun u hu => ?_⟩,
        ⟨h.epoch.left, h.epoch.entered, h.epoch.copies⟩, ⟨fun u => ?_, h.operations.mode,
          h.operations.waits⟩⟩
      · have hu' : Function.update s.doingStartup t false u = true := hu
        have hut : u ≠ t := by
          rintro rfl
          rw [Function.update_self] at hu'
          cases hu'
        rw [Function.update_of_ne hut] at hu'
        have hold := h.startups.doing u hu'
        rw [advance_actions hut]
        show Function.update s.startupDone t true u = false ∧ _
        rw [Function.update_of_ne hut]
        exact hold
      · have hu' : Function.update s.startupDone t true u = true := hu
        by_cases hut : u = t
        · rw [hut]
          exact ⟨rank, rest', (advance_actions_self).trans htail⟩
        · rw [Function.update_of_ne hut] at hu'
          rw [advance_actions hut]
          exact h.startups.done u hu'
      · apply (h.operations.count u).trans
        show pending s.net.2 u + _ = pending s.net.2 u + if
          Function.update s.doingStartup t false u = true ∨
            Function.update s.startupDone t true u = true then 1 else 0
        congr 1
        unfold starting
        by_cases hut : u = t
        · rw [hut, Function.update_self, Function.update_self, if_pos (Or.inl hdoing),
            if_pos (Or.inr rfl)]
        · rw [Function.update_of_ne hut, Function.update_of_ne hut]
  · next hdoing => exact h.advance (Bool.eq_false_iff.mpr hdoing) hdone

theorem perm_of_length {l : List TaskId} (hnodup : l.Nodup) (hsub : ∀ u ∈ l, u ∈ globalRanks)
    (hlength : l.length = globalRanks.length) : l.Perm globalRanks :=
  (List.subperm_of_subset hnodup hsub).perm_of_length_le (Nat.le_of_eq hlength.symm)

theorem Inv.leave {leavers : List TaskId} (hnodup : globalRanks.Nodup)
    (hqueues : Queues globalRanks s loose) (hstartups : Startups s)
    (hperm : leavers.Perm (loose ++ s.fenceTasks)) (hall : leavers.Perm globalRanks)
    (hfence : ∀ u ∈ leavers, ∃ rest, s.actions u = .fence :: rest)
    (hleft : ∀ u ∈ globalRanks, s.left u = k) (hentered : ∀ u ∈ globalRanks, s.entered u = k + 1)
    (hcopies : ∀ (i : Nat) (t target : TaskId) (fences : Nat),
      s.net.2.comms[i]? = some (.rma t target fences) → fences ≤ k)
    (hcount : ∀ u, s.fenceOperations.count u = pending s.net.2 u + starting s u)
    (hnone : s.fenceOperations = []) :
    Inv globalRanks (leavers.foldl leaveFence { s with fenceTasks := [], mode := .none }) [] (k + 1)
      := by
  obtain ⟨htasks, hoperations, hmode, hdoing, hdone, hnet, henter⟩ :=
    leaveAll_fields leavers { s with fenceTasks := [], mode := .none }
  have hzero (u : TaskId) : pending s.net.2 u = 0 := by
    have hu := hcount u
    rw [hnone, List.count_nil] at hu
    omega
  refine ⟨(hqueues.release .none hperm).leaveAll, ?_, ⟨fun u hu => ?_, fun u hu => ?_, ?_⟩,
    ⟨fun u => ?_, fun hsome => ?_, fun hsome => ?_⟩⟩
  · apply hstartups.congr hdoing hdone
    intro u hu
    apply leaveAll_actions
    intro hin
    obtain ⟨rest, hactions⟩ := hfence u hin
    obtain ⟨hno, hno'⟩ := hstartups.not_starting (t := u)
      (by rw [hactions]; exact fun _ h => Action.noConfusion (List.cons.inj h).1)
      (by rw [hactions]; exact fun _ _ h => Action.noConfusion (List.cons.inj h).1)
    rw [hno, hno'] at hu
    exact hu.elim Bool.noConfusion Bool.noConfusion
  · rw [leaveAll_left, hall.count_eq u, List.count_eq_one_of_mem hnodup hu]
    exact congrArg (· + 1) (hleft u hu)
  · rw [henter, htasks]
    exact hentered u hu
  · intro i t target fences hcomm
    rw [hnet] at hcomm ⊢
    have hle := hcopies i t target fences hcomm
    exact ⟨Nat.le_succ_of_le hle, fun _ => completed_of_pending_eq_zero (hzero t) hcomm⟩
  · rw [hoperations, hnet]
    apply (hcount u).trans
    unfold starting
    rw [hdoing, hdone]
  · rw [htasks, hoperations] at hsome
    exact hsome.elim (absurd rfl) (absurd hnone)
  · rw [htasks] at hsome
    exact absurd rfl hsome

theorem Inv.fence (hnodup : globalRanks.Nodup) (h : Inv globalRanks s [t] k)
    (hactions : s.actions t = .fence :: rest)
    (hstep : osFence globalRanks { s with mode := .fence } t false = some s') :
    ∃ k', Inv globalRanks s' [] k' := by
  have ht : t ∈ globalRanks := by
    apply h.queues.members
    rw [hactions]
    exact List.cons_ne_nil _ _
  have hfresh : s.fenceTasks.count t = 0 := by
    have honce := h.queues.once t
    rw [List.count_singleton_self] at honce
    omega
  have hwaiting : ∀ u ∈ t :: s.fenceTasks, ∃ rest, s.actions u = .fence :: rest := by
    intro u hu
    rcases List.mem_cons.mp hu with heq | hin
    · rw [heq]
      exact ⟨rest, hactions⟩
    · exact h.queues.waiting u hin
  have hmembers : ∀ u ∈ t :: s.fenceTasks, u ∈ globalRanks := by
    intro u hu
    apply h.queues.members
    obtain ⟨rest, hfence⟩ := hwaiting u hu
    rw [hfence]
    exact List.cons_ne_nil _ _
  have hentered (u : TaskId) (hu : u ∈ globalRanks) :
      Function.update s.entered t (s.entered t + 1) u = k + (t :: s.fenceTasks).count u := by
    by_cases hut : u = t
    · rw [hut, Function.update_self, h.epoch.entered t ht, hfresh, List.count_cons_self, hfresh]
    · rw [Function.update_of_ne hut, List.count_cons_of_ne (Ne.symm hut)]
      exact h.epoch.entered u hu
  have honce : (t :: s.fenceTasks).Nodup := by
    rw [List.nodup_iff_count_le_one]
    intro u
    have hu := h.queues.once u
    by_cases hut : u = t
    · rw [hut, List.count_cons_self]
      omega
    · rw [List.count_cons_of_ne (Ne.symm hut)]
      omega
  unfold osFence at hstep
  simp only [Bool.false_eq_true, if_false, false_or] at hstep
  split at hstep
  · next hlast =>
      obtain ⟨others, hothers, heq⟩ := Option.map_eq_some_iff.mp hstep
      rw [← Option.some.inj hothers] at heq
      have hall := perm_of_length honce hmembers hlast.1
      refine ⟨k + 1, ?_⟩
      rw [← heq]
      apply Inv.leave (s := { s with
        mode := .fence, entered := Function.update s.entered t (s.entered t + 1) }) hnodup
        ⟨h.queues.members, h.queues.once, h.queues.readyActions, h.queues.waiting, h.queues.goesOn⟩
        ⟨h.startups.doing, h.startups.done⟩ (List.Perm.refl _) hall hwaiting h.epoch.left
      · intro u hu
        apply (hentered u hu).trans
        rw [hall.count_eq u, List.count_eq_one_of_mem hnodup hu]
      · exact fun i u target fences hcomm => (h.epoch.copies i u target fences hcomm).1
      · exact h.operations.count
      · exact hlast.2
  · next hlast =>
      rw [← Option.some.inj hstep]
      refine ⟨k, ?_, ⟨h.startups.doing, h.startups.done⟩, ⟨h.epoch.left, fun u hu => ?_,
        h.epoch.copies⟩, ⟨h.operations.count, fun _ => rfl, fun _ => ?_⟩⟩
      · have hsame : Queues globalRanks { s with
            mode := .fence, entered := Function.update s.entered t (s.entered t + 1) } [t] :=
          ⟨h.queues.members, h.queues.once, h.queues.readyActions, h.queues.waiting,
            h.queues.goesOn⟩
        exact hsame.enter hactions
      · apply (hentered u hu).trans
        show k + (t :: s.fenceTasks).count u = k + (s.fenceTasks ++ [t]).count u
        rw [List.count_append, Nat.add_comm (s.fenceTasks.count u), ← List.count_append]
        rfl
      · rw [List.length_append]
        by_cases hnone : s.fenceOperations = []
        · left
          exact fun hlength => hlast ⟨hlength, hnone⟩
        · exact Or.inr hnone

variable {ph : Nat → LinkOwnership.CommPhase} {rank : Nat} {startup : Bool}

theorem comms_length_not_completed {x : Network} (h : NetInv p ph x) :
    x.2.comms.length ∉ x.2.completed := by
  intro hin
  exact absurd (h.made _ (Or.inr (Or.inr (Or.inr hin)))) (Nat.lt_irrefl _)

theorem comms_length_not_listed {x : Network} (h : NetInv p ph x) :
    ¬ Listed x.2 x.2.comms.length := by
  intro hin
  exact absurd (h.made _ (Or.inr hin)) (Nat.lt_irrefl _)

theorem comms_length_idle {x : Network} (h : NetInv p ph x) : ph x.2.comms.length = .idle := by
  by_contra hph
  exact absurd (h.made _ (Or.inl hph)) (Nat.lt_irrefl _)

theorem NetInv.begin {x x' : Network} {c : Comm} (h : NetInv p ph x)
    (hc : ∀ n n', c = .message n n' → n ≠ n')
    (hcall : wakeUp p (addComm x c) x.2.comms.length = some x') :
    ∃ ph', NetInv p ph' x' ∧ x'.2.comms = x.2.comms ++ [c] ∧ x'.2.completed = x.2.completed ∧
      ∀ j ∈ x.2.completed, ph' j = ph j := by
  have hmade : x.2.comms.length < (addComm x c).2.comms.length := by
    show x.2.comms.length < (x.2.comms ++ [c]).length
    rw [List.length_append]
    exact Nat.lt_succ_self _
  obtain ⟨ph', hnet, hkept⟩ := (h.addComm hc).wakeUp hmade (comms_length_not_listed h)
    (Or.inl (comms_length_idle h)) hcall
  refine ⟨ph', hnet, hkept.comms, hkept.completed, fun j hj => ?_⟩
  have hlisted : Listed x.2 j := Or.inr (Or.inr hj)
  exact hkept.phases j (fun heq => comms_length_not_completed h (heq ▸ hj)) (h.not_waiting hlisted)

theorem wakeUp_addComm_rma {x : Network} {target : TaskId} {fences : Nat} :
    wakeUp p (addComm x (.rma t target fences)) x.2.comms.length =
      reallyRMA p (addComm x (.rma t target fences)) x.2.comms.length := by
  have hlast : (addComm x (.rma t target fences)).2.comms[x.2.comms.length]? =
      some (.rma t target fences) := List.getElem?_concat_length
  rw [wakeUp, hlast]

theorem wakeUp_addComm_message {x : Network} {n n' : Nat} :
    wakeUp p (addComm x (.message n n')) x.2.comms.length =
      reallySend p (addComm x (.message n n')) x.2.comms.length := by
  have hlast : (addComm x (.message n n')).2.comms[x.2.comms.length]? =
      some (.message n n') := List.getElem?_concat_length
  rw [wakeUp, hlast]

theorem Inv.transfer (hnet : NetInv p ph s.net) (hqueues : Queues globalRanks s [t])
    (hepoch : Epoch globalRanks s k) (hactions : s.actions t = .getput rank :: rest)
    (hdoing : s.doingStartup t = false)
    (hstartups : ∀ u, u ≠ t → (s.doingStartup u = true →
        s.startupDone u = false ∧ ∃ rank rest, s.actions u = .work :: .getput rank :: rest) ∧
      (s.startupDone u = true → ∃ rank rest, s.actions u = .getput rank :: rest))
    (hcount : ∀ u, s.fenceOperations.count u =
      pending s.net.2 u + if u = t then 1 else starting s u)
    (hmode : s.mode = .fence)
    (hwaits : s.fenceTasks ≠ [] →
      s.fenceTasks.length ≠ globalRanks.length ∨ s.fenceOperations ≠ [])
    (hstep : transfer p globalRanks s t rank = some s') : Inv globalRanks s' [] k := by
  obtain ⟨target, -, hstep⟩ := Option.bind_eq_some_iff.mp hstep
  obtain ⟨net, hcall, heq⟩ := Option.map_eq_some_iff.mp hstep
  rw [← wakeUp_addComm_rma] at hcall
  obtain ⟨ph', -, hcomms, hcompleted, -⟩ := NetInv.begin hnet (fun _ _ h => Comm.noConfusion h) hcall
  have hdone (u : TaskId) (hu : u ≠ t) :
      Function.update s.startupDone t false u = s.startupDone u := Function.update_of_ne hu ..
  have ht : t ∈ globalRanks := by
    apply hqueues.members
    rw [hactions]
    exact List.cons_ne_nil _ _
  have hsame : Queues globalRanks
      { s with startupDone := Function.update s.startupDone t false, net := net } [t] :=
    ⟨hqueues.members, hqueues.once, hqueues.readyActions, hqueues.waiting, hqueues.goesOn⟩
  rw [← heq]
  refine ⟨hsame.advance, ⟨fun u hu => ?_, fun u hu => ?_⟩, ⟨hepoch.left, hepoch.entered, ?_⟩,
    ⟨fun u => ?_, fun _ => hmode, hwaits⟩⟩
  · have hut : u ≠ t := by
      rintro rfl
      exact Bool.noConfusion (hdoing.symm.trans hu)
    rw [advance_actions hut]
    show Function.update s.startupDone t false u = false ∧ _
    rw [hdone u hut]
    exact (hstartups u hut).1 hu
  · have hu' : Function.update s.startupDone t false u = true := hu
    have hut : u ≠ t := by
      rintro rfl
      rw [Function.update_self] at hu'
      cases hu'
    rw [hdone u hut] at hu'
    rw [advance_actions hut]
    exact (hstartups u hut).2 hu'
  · show ∀ (i : Nat) (u target : TaskId) (fences : Nat), net.2.comms[i]? = _ →
      fences ≤ k ∧ (fences < k → i ∈ net.2.completed)
    rw [hcomms, hcompleted]
    intro i u target' fences hcomm
    by_cases hi : i < s.net.2.comms.length
    · rw [List.getElem?_append_left hi] at hcomm
      exact hepoch.copies i u target' fences hcomm
    · rw [List.getElem?_append_right (Nat.le_of_not_lt hi)] at hcomm
      have hlast := List.mem_singleton.mp (List.mem_of_getElem? hcomm)
      obtain ⟨-, -, hfences⟩ := Comm.rma.inj hlast
      rw [hfences, hepoch.left t ht]
      exact ⟨Nat.le_refl k, fun hlt => absurd hlt (Nat.lt_irrefl k)⟩
  · have hpending : pending net.2 u = pending s.net.2 u + if t = u then 1 else 0 := by
      rw [pending_congr (b := (addComm s.net (.rma t target (s.left t))).2) hcomms hcompleted,
        pending_addComm (comms_length_not_completed hnet)]
      congr 1
      exact if_congr Option.some_inj rfl rfl
    apply (hcount u).trans
    show _ = pending net.2 u + if s.doingStartup u = true ∨
      Function.update s.startupDone t false u = true then 1 else 0
    rw [hpending]
    by_cases hut : u = t
    · rw [hut, if_pos rfl, if_pos rfl, hdoing, Function.update_self, if_neg (by decide)]
    · rw [if_neg hut, if_neg (Ne.symm hut), hdone u hut]
      rfl

theorem Queues.startUp (h : Queues globalRanks s [t]) (hne : s.actions t ≠ []) :
    Queues globalRanks (startUp s t) [] := by
  have honce := h.once t
  rw [List.count_singleton_self] at honce
  have hactions {u : TaskId} (hu : u ≠ t) : (Fences.startUp s t).actions u = s.actions u :=
    Function.update_of_ne hu ..
  have hself : (Fences.startUp s t).actions t = .work :: s.actions t := Function.update_self ..
  refine ⟨fun u hu => ?_, fun u => ?_, fun u hu => ?_, fun u hu => ?_, fun u hu => ?_⟩
  · by_cases hut : u = t
    · rw [hut]
      exact h.members t hne
    · rw [hactions hut] at hu
      exact h.members u hu
  · have hu := h.once u
    show (s.ready ++ [t]).count u + s.fenceTasks.count u + 0 ≤ 1
    by_cases hut : u = t
    · rw [hut, count_concat_self]
      omega
    · rw [count_concat_of_ne _ hut]
      rw [List.count_cons_of_ne (Ne.symm hut)] at hu
      exact hu
  · by_cases hut : u = t
    · rw [hut, hself]
      exact List.cons_ne_nil _ _
    · rw [hactions hut]
      rcases List.mem_append.mp hu with hold | hnew
      · exact h.readyActions u hold
      · exact absurd (List.mem_singleton.mp hnew) hut
  · have hut : u ≠ t := by
      rintro rfl
      have hpos : 0 < s.fenceTasks.count u := List.count_pos_iff.mpr hu
      omega
    rw [hactions hut]
    exact h.waiting u hu
  · by_cases hut : u = t
    · left
      rw [hut]
      exact List.mem_append_right _ (List.mem_singleton_self t)
    · rw [hactions hut] at hu
      rcases h.goesOn u hu with hin | hin | hin
      · exact Or.inl (List.mem_append_left _ hin)
      · exact Or.inr (Or.inl hin)
      · exact absurd (List.mem_singleton.mp hin) hut

theorem Inv.getput (hnet : NetInv p ph s.net) (h : Inv globalRanks s [t] k)
    (hactions : s.actions t = .getput rank :: rest)
    (hstep : osGetput p globalRanks { s with mode := .fence } t rank startup = some s') :
    Inv globalRanks s' [] k := by
  have hdoing : s.doingStartup t = false := by
    apply Bool.eq_false_iff.mpr
    intro hdoing
    obtain ⟨-, rank', rest', hwork⟩ := h.startups.doing t hdoing
    rw [hactions] at hwork
    cases hwork
  have hothers (u : TaskId) (_ : u ≠ t) : (s.doingStartup u = true →
      s.startupDone u = false ∧ ∃ rank rest, s.actions u = .work :: .getput rank :: rest) ∧
      (s.startupDone u = true → ∃ rank rest, s.actions u = .getput rank :: rest) :=
    ⟨h.startups.doing u, h.startups.done u⟩
  have hqueues (operations : List TaskId) : Queues globalRanks
      { s with mode := .fence, fenceOperations := operations } [t] :=
    ⟨h.queues.members, h.queues.once, h.queues.readyActions, h.queues.waiting, h.queues.goesOn⟩
  have hepoch (operations : List TaskId) : Epoch globalRanks
      { s with mode := .fence, fenceOperations := operations } k :=
    ⟨h.epoch.left, h.epoch.entered, h.epoch.copies⟩
  unfold osGetput at hstep
  split at hstep
  · next hdone =>
      have hdone' : s.startupDone t = true := hdone
      apply Inv.transfer (s := { s with mode := .fence }) hnet (hqueues s.fenceOperations)
        (hepoch s.fenceOperations) hactions hdoing hothers _ rfl h.operations.waits hstep
      intro u
      apply (h.operations.count u).trans
      congr 1
      by_cases hut : u = t
      · rw [if_pos hut, hut]
        exact if_pos (Or.inr hdone')
      · rw [if_neg hut]
        rfl
  · next hdone =>
      have hdone' : s.startupDone t = false := Bool.eq_false_iff.mpr hdone
      have hcount (u : TaskId) : (s.fenceOperations ++ [t]).count u =
          pending s.net.2 u + if u = t then 1 else starting s u := by
        by_cases hut : u = t
        · rw [hut, count_concat_self, h.operations.count t, starting_of_not hdoing hdone',
            if_pos rfl]
        · rw [count_concat_of_ne _ hut, h.operations.count u, if_neg hut]
      have hnotNil : s.fenceOperations ++ [t] ≠ [] := List.append_ne_nil_of_right_ne_nil _
        (List.cons_ne_nil t [])
      simp only at hstep
      split at hstep
      · cases startup with
        | true =>
            rw [if_pos rfl] at hstep
            rw [← Option.some.inj hstep]
            refine ⟨(hqueues (s.fenceOperations ++ [t])).startUp ?_, ⟨fun u hu => ?_,
              fun u hu => ?_⟩, ⟨h.epoch.left, h.epoch.entered, h.epoch.copies⟩, ⟨fun u => ?_,
              fun _ => rfl, fun _ => Or.inr hnotNil⟩⟩
            · show s.actions t ≠ []
              rw [hactions]
              exact List.cons_ne_nil _ _
            · show s.startupDone u = false ∧
                ∃ rank rest, Function.update s.actions t (.work :: s.actions t) u = _
              have hu' : Function.update s.doingStartup t true u = true := hu
              by_cases hut : u = t
              · rw [hut, Function.update_self, hactions]
                exact ⟨hdone', rank, rest, rfl⟩
              · rw [Function.update_of_ne hut] at hu' ⊢
                exact h.startups.doing u hu'
            · show ∃ rank rest, Function.update s.actions t (.work :: s.actions t) u = _
              have hut : u ≠ t := by
                rintro rfl
                exact Bool.noConfusion (hdone'.symm.trans hu)
              rw [Function.update_of_ne hut]
              exact h.startups.done u hu
            · apply (hcount u).trans
              show _ = pending s.net.2 u + if
                Function.update s.doingStartup t true u = true ∨ s.startupDone u = true
                  then 1 else 0
              by_cases hut : u = t
              · rw [if_pos hut, hut, Function.update_self, if_pos (Or.inl rfl)]
              · rw [if_neg hut, Function.update_of_ne hut]
                rfl
        | false =>
            rw [if_neg Bool.false_ne_true] at hstep
            exact Inv.transfer (s := { s with
              mode := .fence, fenceOperations := s.fenceOperations ++ [t] }) hnet
              (hqueues (s.fenceOperations ++ [t])) (hepoch (s.fenceOperations ++ [t])) hactions
              hdoing hothers hcount rfl (fun _ => Or.inr hnotNil) hstep
      · cases hstep

theorem extract_eq_some {queue others : List TaskId} (h : extract queue t = some others) :
    t ∈ queue ∧ others = queue.erase t := by
  unfold extract at h
  by_cases ht : t ∈ queue
  · rw [if_pos ht] at h
    exact ⟨ht, (Option.some.inj h).symm⟩
  · rw [if_neg ht] at h
    cases h

theorem Inv.completed (hnodup : globalRanks.Nodup) (hnet : NetInv p ph s.net)
    (h : Inv globalRanks s [] k) (hrun : i ∈ s.net.2.running)
    (hthread : threadOf s.net.2.comms[i]? = some t)
    (hstep : osCompleted globalRanks { s with net := complete s.net i } t = some s') :
    ∃ k', Inv globalRanks s' [] k' := by
  have hmade : i < s.net.2.comms.length := hnet.made i (Or.inr (Or.inl hrun))
  have hnew : i ∉ s.net.2.completed := by
    intro hin
    have honce := hnet.once i
    have hpos : 0 < s.net.2.running.count i := List.count_pos_iff.mpr hrun
    have hpos' : 0 < s.net.2.completed.count i := List.count_pos_iff.mpr hin
    omega
  have hpending := pending_complete hmade hnew hthread
  have htransfers : s.fenceOperations.count t ≠ 0 := by
    rw [h.operations.count t, hpending t, if_pos rfl]
    omega
  have hmem : t ∈ s.fenceOperations := List.count_pos_iff.mp (Nat.pos_of_ne_zero htransfers)
  have hmode : s.mode = .fence := h.operations.mode (Or.inr (List.ne_nil_of_mem hmem))
  have hcount (u : TaskId) : (s.fenceOperations.erase t).count u =
      pending (complete s.net i).2 u + starting s u := by
    have hu := h.operations.count u
    rw [hpending u] at hu
    by_cases hut : u = t
    · rw [if_pos hut] at hu
      rw [hut, List.count_erase_self, ← hut]
      omega
    · rw [if_neg hut] at hu
      rw [List.count_erase_of_ne hut]
      exact hu
  have hcopies : ∀ (j : Nat) (u target : TaskId) (fences : Nat),
      s.net.2.comms[j]? = some (.rma u target fences) →
        fences ≤ k ∧ (fences < k → j ∈ s.net.2.completed ++ [i]) := by
    intro j u target fences hcomm
    obtain ⟨hle, hdone⟩ := h.epoch.copies j u target fences hcomm
    exact ⟨hle, fun hlt => List.mem_append_left _ (hdone hlt)⟩
  unfold osCompleted at hstep
  rw [if_pos hmode] at hstep
  obtain ⟨operations, hextract, hrest⟩ := Option.bind_eq_some_iff.mp hstep
  rw [(extract_eq_some hextract).2] at hrest
  simp only at hrest
  split at hrest
  · next hlast =>
      unfold osFence at hrest
      simp only [if_true, true_or] at hrest
      obtain ⟨others, hothers, heq⟩ := Option.map_eq_some_iff.mp hrest
      obtain ⟨hin, herase⟩ := extract_eq_some hothers
      rw [herase] at heq
      have hfence : ∀ u ∈ t :: s.fenceTasks.erase t, ∃ rest, s.actions u = .fence :: rest := by
        intro u hu
        apply h.queues.waiting
        rcases List.mem_cons.mp hu with hut | hu
        · exact hut ▸ hin
        · exact List.mem_of_mem_erase hu
      have hpermTasks : (t :: s.fenceTasks.erase t).Perm s.fenceTasks :=
        (List.perm_cons_erase hin).symm
      have htasks : s.fenceTasks.Perm globalRanks := by
        apply perm_of_length _ _ hlast.1
        · rw [List.nodup_iff_count_le_one]
          intro u
          have hu := h.queues.once u
          omega
        · intro u hu
          apply h.queues.members
          obtain ⟨rest, hactions⟩ := h.queues.waiting u hu
          rw [hactions]
          exact List.cons_ne_nil _ _
      refine ⟨k + 1, ?_⟩
      rw [← heq]
      apply Inv.leave (s := { s with
        net := complete s.net i, fenceOperations := s.fenceOperations.erase t }) hnodup
        ⟨h.queues.members, h.queues.once, h.queues.readyActions, h.queues.waiting,
          h.queues.goesOn⟩
        ⟨h.startups.doing, h.startups.done⟩ hpermTasks (hpermTasks.trans htasks) hfence
        h.epoch.left
      · intro u hu
        apply (h.epoch.entered u hu).trans
        rw [htasks.count_eq u, List.count_eq_one_of_mem hnodup hu]
      · exact fun j u target fences hcomm => (hcopies j u target fences hcomm).1
      · exact hcount
      · exact hlast.2
  · next hlast =>
      rw [← Option.some.inj hrest]
      refine ⟨k, ⟨h.queues.members, h.queues.once, h.queues.readyActions, h.queues.waiting,
        h.queues.goesOn⟩, ⟨h.startups.doing, h.startups.done⟩,
        ⟨h.epoch.left, h.epoch.entered, hcopies⟩, ⟨hcount, fun _ => hmode, fun _ => ?_⟩⟩
      by_cases hnone : s.fenceOperations.erase t = []
      · left
        exact fun hlength => hlast ⟨hlength, hnone⟩
      · exact Or.inr hnone

/-! ## Runs -/

def completedBy : Label → List Nat
  | .completed i => [i]
  | _ => []

/-- What a step leaves of the network. -/
structure NetKept (x x' : Network) (ph ph' : Nat → LinkOwnership.CommPhase) (done : List Nat) :
    Prop where
  comms : x.2.comms <+: x'.2.comms
  completed : x'.2.completed = x.2.completed ++ done
  phases : ∀ j ∈ x.2.completed, ph' j = ph j

variable {ph' : Nat → LinkOwnership.CommPhase} {x x' : Network} {l : Label}

theorem NetKept.refl : NetKept x x ph ph [] :=
  ⟨List.prefix_rfl, (List.append_nil _).symm, fun _ _ => rfl⟩

theorem net_begin {c : Comm} (h : NetInv p ph x) (hc : ∀ n n', c = .message n n' → n ≠ n')
    (hcall : wakeUp p (addComm x c) x.2.comms.length = some x') :
    ∃ ph', NetInv p ph' x' ∧ NetKept x x' ph ph' [] := by
  obtain ⟨ph', hnet, hcomms, hcompleted, hphases⟩ := NetInv.begin h hc hcall
  refine ⟨ph', hnet, ?_, ?_, hphases⟩
  · rw [hcomms]
    exact List.prefix_append _ _
  · rw [hcompleted, List.append_nil]

theorem net_transfer (h : NetInv p ph s.net) (hstep : transfer p globalRanks s t rank = some s') :
    ∃ ph', NetInv p ph' s'.net ∧ NetKept s.net s'.net ph ph' [] := by
  obtain ⟨target, -, hstep⟩ := Option.bind_eq_some_iff.mp hstep
  obtain ⟨net, hcall, heq⟩ := Option.map_eq_some_iff.mp hstep
  rw [← wakeUp_addComm_rma] at hcall
  rw [← heq]
  exact net_begin h (fun _ _ h => Comm.noConfusion h) hcall

theorem net_osGetput (h : NetInv p ph s.net)
    (hstep : osGetput p globalRanks s t rank startup = some s') :
    ∃ ph', NetInv p ph' s'.net ∧ NetKept s.net s'.net ph ph' [] := by
  unfold osGetput at hstep
  split at hstep
  · exact net_transfer h hstep
  · simp only at hstep
    split at hstep
    · split at hstep
      · rw [← Option.some.inj hstep]
        exact ⟨ph, h, NetKept.refl⟩
      · exact net_transfer (s := { s with fenceOperations := s.fenceOperations ++ [t] }) h hstep
    · cases hstep

theorem net_osFence {last : Bool} (hstep : osFence globalRanks s t last = some s') :
    s'.net = s.net := by
  unfold osFence at hstep
  cases last with
  | true =>
      simp only [if_true, true_or] at hstep
      obtain ⟨others, -, heq⟩ := Option.map_eq_some_iff.mp hstep
      rw [← heq, (leaveAll_fields _ _).2.2.2.2.2.1]
  | false =>
      simp only [Bool.false_eq_true, if_false, false_or] at hstep
      split at hstep
      · obtain ⟨others, -, heq⟩ := Option.map_eq_some_iff.mp hstep
        rw [← heq, (leaveAll_fields _ _).2.2.2.2.2.1]
      · rw [← Option.some.inj hstep]

theorem net_osCompleted (hstep : osCompleted globalRanks s t = some s') : s'.net = s.net := by
  unfold osCompleted at hstep
  split at hstep
  · obtain ⟨operations, -, hrest⟩ := Option.bind_eq_some_iff.mp hstep
    simp only at hrest
    split at hrest
    · have hsame := net_osFence hrest
      exact hsame
    · rw [← Option.some.inj hrest]
  · rw [← Option.some.inj hstep]

theorem net_work : (work s t).net = s.net := by
  unfold work
  split <;> rfl

theorem Inv.messages {net : Network} (h : Inv globalRanks s [] k)
    (hcomms : ∀ (i : Nat) (t target : TaskId) (fences : Nat),
      net.2.comms[i]? = some (.rma t target fences) →
        s.net.2.comms[i]? = some (.rma t target fences))
    (hcompleted : net.2.completed = s.net.2.completed)
    (hpending : ∀ t, pending net.2 t = pending s.net.2 t) :
    Inv globalRanks { s with net := net } [] k := by
  refine ⟨⟨h.queues.members, h.queues.once, h.queues.readyActions, h.queues.waiting,
    h.queues.goesOn⟩, ⟨h.startups.doing, h.startups.done⟩, ⟨h.epoch.left, h.epoch.entered, ?_⟩,
    ⟨fun t => ?_, h.operations.mode, h.operations.waits⟩⟩
  · intro i t target fences hcomm
    show fences ≤ k ∧ (fences < k → i ∈ net.2.completed)
    rw [hcompleted]
    exact h.epoch.copies i t target fences (hcomms i t target fences hcomm)
  · show s.fenceOperations.count t = pending net.2 t + starting s t
    rw [hpending]
    exact h.operations.count t

theorem step_keeps (hnodup : globalRanks.Nodup) (hnet : NetInv p ph s.net)
    (h : Inv globalRanks s [] k) (hstep : step p globalRanks s l = some s') :
    ∃ ph' k', NetInv p ph' s'.net ∧ Inv globalRanks s' [] k' ∧
      NetKept s.net s'.net ph ph' (completedBy l) := by
  unfold step at hstep
  split at hstep
  · next henabled =>
      cases l with
      | dispatch t startup =>
          have hinv : Inv globalRanks { s with ready := s.ready.erase t } [t] k :=
            ⟨h.queues.dispatch henabled, ⟨h.startups.doing, h.startups.done⟩,
              ⟨h.epoch.left, h.epoch.entered, h.epoch.copies⟩,
              ⟨h.operations.count, h.operations.mode, h.operations.waits⟩⟩
          have hne : s.actions t ≠ [] := h.queues.readyActions t henabled
          simp only [perform] at hstep
          split at hstep
          · next hnil => exact absurd hnil hne
          · next rest hwork =>
              rw [← Option.some.inj hstep]
              refine ⟨ph, k, ?_, hinv.work hwork, ?_⟩
              · rw [net_work]
                exact hnet
              · rw [net_work]
                exact NetKept.refl
          · next action rest hnotWork hactions =>
              cases action with
              | work => exact absurd rfl hnotWork
              | getput rank =>
                  obtain ⟨ph', hnet', hkept⟩ := net_osGetput
                    (s := { s with ready := s.ready.erase t, mode := .fence }) hnet hstep
                  have hinv' := Inv.getput (s := { s with ready := s.ready.erase t }) hnet hinv
                    hactions hstep
                  exact ⟨ph', k, hnet', hinv', hkept⟩
              | fence =>
                  obtain ⟨k', hinv'⟩ := hinv.fence hnodup hactions hstep
                  have hsame := net_osFence hstep
                  refine ⟨ph, k', ?_, hinv', ?_⟩
                  · rw [hsame]
                    exact hnet
                  · rw [hsame]
                    exact NetKept.refl
      | completed i =>
          obtain ⟨t, hthread, hrest⟩ := Option.bind_eq_some_iff.mp hstep
          obtain ⟨k', hinv'⟩ := Inv.completed hnodup hnet h henabled.1 hthread hrest
          have hsame := net_osCompleted hrest
          refine ⟨ph, k', ?_, hinv', ?_⟩
          · rw [hsame]
            exact hnet.complete henabled.1
          · rw [hsame]
            exact ⟨List.prefix_rfl, rfl, fun _ _ => rfl⟩
      | send node nodePartner =>
          obtain ⟨net, hcall, heq⟩ := Option.map_eq_some_iff.mp hstep
          rw [← wakeUp_addComm_message] at hcall
          have hc (n n' : Nat) (heq : Comm.message node nodePartner = .message n n') : n ≠ n' := by
            obtain ⟨hn, hn'⟩ := Comm.message.inj heq
            rw [← hn, ← hn']
            exact henabled
          obtain ⟨ph', hnet', hcomms, hcompleted, hphases⟩ := NetInv.begin hnet hc hcall
          rw [← heq]
          refine ⟨ph', k, hnet', h.messages ?_ hcompleted fun t => ?_, ?_, ?_, hphases⟩
          · intro i t target fences hcomm
            rw [hcomms] at hcomm
            by_cases hi : i < s.net.2.comms.length
            · rw [List.getElem?_append_left hi] at hcomm
              exact hcomm
            · rw [List.getElem?_append_right (Nat.le_of_not_lt hi)] at hcomm
              exact Comm.noConfusion (List.mem_singleton.mp (List.mem_of_getElem? hcomm))
          · have hno : threadOf (some (.message node nodePartner)) ≠ some t := by
              intro hthread
              cases hthread
            rw [pending_congr (b := (addComm s.net (.message node nodePartner)).2) hcomms hcompleted,
              pending_addComm (comms_length_not_completed hnet), if_neg hno, Nat.add_zero]
          · show s.net.2.comms <+: net.2.comms
            rw [hcomms]
            exact List.prefix_append _ _
          · show net.2.completed = s.net.2.completed ++ []
            rw [hcompleted, List.append_nil]
      | resources i =>
          obtain ⟨net, hcall, heq⟩ := Option.map_eq_some_iff.mp hstep
          obtain ⟨ph', hnet', hcomms, hcompleted, hphases⟩ :=
            hnet.internalResources henabled.1 hcall
          rw [← heq]
          refine ⟨ph', k, hnet', h.messages ?_ hcompleted fun t => ?_, ?_, ?_, hphases⟩
          · intro i t target fences hcomm
            rw [hcomms] at hcomm
            exact hcomm
          · exact pending_congr hcomms hcompleted t
          · show s.net.2.comms <+: net.2.comms
            rw [hcomms]
          · show net.2.completed = s.net.2.completed ++ []
            rw [hcompleted, List.append_nil]
  · cases hstep

theorem FencesKept.of_inv (hnodup : globalRanks.Nodup) (h : Inv globalRanks s [] k) :
    FencesKept globalRanks s where
  entries t ht u hu := by
    rw [h.epoch.left t ht, h.epoch.entered u hu]
    exact Nat.le_add_right _ _
  transfers t ht i u target fences hcomm hlt := by
    rw [h.epoch.left t ht] at hlt
    exact (h.epoch.copies i u target fences hcomm).2 hlt
  once t ht := by
    rw [h.epoch.left t ht]
    exact ⟨h.epoch.entered t ht, h.queues.once t⟩
  goesOn t hne hout := by
    rcases h.queues.goesOn t hne with hin | hin | hin
    · exact hin
    · exact absurd hin hout
    · exact absurd hin List.not_mem_nil
  waits hne := by
    rcases h.operations.waits hne with hlength | hoperations
    · left
      by_contra hall
      apply hlength
      have hsub : globalRanks ⊆ s.fenceTasks := by
        intro t ht
        by_contra hout
        exact hall ⟨t, ht, hout⟩
      have htasks : s.fenceTasks.Nodup := by
        rw [List.nodup_iff_count_le_one]
        intro t
        have ht := h.queues.once t
        omega
      have hmembers : s.fenceTasks ⊆ globalRanks := by
        intro t ht
        apply h.queues.members
        obtain ⟨rest, hactions⟩ := h.queues.waiting t ht
        rw [hactions]
        exact List.cons_ne_nil _ _
      exact Nat.le_antisymm (List.subperm_of_subset htasks hmembers).length_le
        (List.subperm_of_subset hnodup hsub).length_le
    · exact Or.inr hoperations
  operations := h.operations.count

theorem inv_initial (hnodup : globalRanks.Nodup) (programs : TaskId → List Action) :
    Inv globalRanks (.initial p globalRanks programs) [] 0 := by
  have hactions {t : TaskId} (ht : t ∈ globalRanks) :
      (State.initial p globalRanks programs).actions t = programs t := if_pos ht
  have hready (t : TaskId) : t ∈ (State.initial p globalRanks programs).ready ↔
      t ∈ globalRanks ∧ programs t ≠ [] := by
    show t ∈ globalRanks.filter _ ↔ _
    rw [List.mem_filter, decide_eq_true_iff]
  have hmembers (t : TaskId) (ht : (State.initial p globalRanks programs).actions t ≠ []) :
      t ∈ globalRanks := by
    by_contra hout
    exact ht (if_neg hout)
  refine ⟨⟨hmembers, fun t => ?_, fun t ht => ?_, fun t ht => absurd ht List.not_mem_nil,
    fun t ht => ?_⟩, ⟨fun t ht => Bool.noConfusion ht, fun t ht => Bool.noConfusion ht⟩,
    ⟨fun t _ => rfl, fun t _ => rfl, fun i t target fences hcomm => by cases hcomm⟩,
    ⟨fun t => rfl, fun hsome => ?_, fun hsome => absurd rfl hsome⟩⟩
  · exact List.nodup_iff_count_le_one.mp (hnodup.filter _) t
  · obtain ⟨hin, hne⟩ := (hready t).mp ht
    rw [hactions hin]
    exact hne
  · left
    have hin := hmembers t ht
    rw [hactions hin] at ht
    exact (hready t).mpr ⟨hin, ht⟩
  · exact hsome.elim (absurd rfl) (absurd rfl)

theorem ends_of_prefix (hi : i < x.2.comms.length) (hcomms : x.2.comms <+: x'.2.comms) :
    (ends p x'.2.comms).node i = (ends p x.2.comms).node i ∧
      (ends p x'.2.comms).nodePartner i = (ends p x.2.comms).nodePartner i := by
  have hsame : x'.2.comms[i]? = x.2.comms[i]? := by
    obtain ⟨rest, heq⟩ := hcomms
    rw [← heq]
    exact List.getElem?_append_left hi
  exact ⟨congrArg (nodeOfComm p) hsame, congrArg (nodePartnerOfComm p) hsame⟩

theorem holds_kept {done : List Nat} (h : NetInv p ph x) (h' : NetInv p ph' x')
    (hkept : NetKept x x' ph ph' done) (hi : i ∈ x.2.completed) : Holds x' i ↔ Holds x i := by
  have hlisted : Listed x.2 i := Or.inr (Or.inr hi)
  have hends := ends_of_prefix (p := p) (h.made i (Or.inr hlisted)) hkept.comms
  apply h.holds_congr h' hi _ hends.1 hends.2 (hkept.phases i hi)
  rw [hkept.completed]
  exact List.mem_append_left _ hi

theorem holds_completed (hstep : step p globalRanks s (.completed i) = some s') :
    (Holds s'.net i ↔ Holds s.net i) ∧ i ∈ s.net.2.running := by
  unfold step at hstep
  split at hstep
  · next henabled =>
      obtain ⟨t, -, hrest⟩ := Option.bind_eq_some_iff.mp hstep
      rw [net_osCompleted hrest]
      exact ⟨Iff.rfl, henabled.1⟩
  · cases hstep

/-- A step from a good state is to a good state unless it completes a transfer that was given a
link or a bus. -/
theorem good_step (hnodup : globalRanks.Nodup) (hnet : NetInv p ph s.net)
    (h : Inv globalRanks s [] k) (hgood : Good globalRanks s)
    (hstep : step p globalRanks s l = some s') :
    Good globalRanks s' ↔ ∀ i, l = .completed i → NothingToTake p s.net i := by
  obtain ⟨ph', k', hnet', h', hkept⟩ := step_keeps hnodup hnet h hstep
  have hold (i : Nat) (hi : i ∈ s.net.2.completed) : ¬ Holds s'.net i := by
    rw [holds_kept hnet hnet' hkept hi]
    exact hgood.2 i hi
  have hlast (i : Nat) (hl : l = .completed i) : Holds s'.net i ↔ ¬ NothingToTake p s.net i := by
    rw [hl] at hstep
    obtain ⟨hholds, hrun⟩ := holds_completed hstep
    rw [hholds]
    exact hnet.holds_iff (Or.inl hrun)
  constructor
  · intro hgood' i hl
    by_contra hnot
    have hdone : i ∈ s'.net.2.completed := by
      rw [hkept.completed, hl]
      exact List.mem_append_right _ (List.mem_singleton_self i)
    exact hgood'.2 i hdone ((hlast i hl).mpr hnot)
  · intro hcond
    refine ⟨FencesKept.of_inv hnodup h', fun i hi => ?_⟩
    rw [hkept.completed] at hi
    rcases List.mem_append.mp hi with hin | hin
    · exact hold i hin
    · cases l with
      | completed j =>
          have hl : Label.completed j = .completed i := by rw [List.mem_singleton.mp hin]
          intro hholds
          exact (hlast i hl).mp hholds (hcond i hl)
      | dispatch t startup => exact absurd hin List.not_mem_nil
      | send node nodePartner => exact absurd hin List.not_mem_nil
      | resources i => exact absurd hin List.not_mem_nil

/-- All states of a run are good. -/
def Released (globalRanks : List TaskId) (tr : List (Transition State Label)) : Prop :=
  ∀ move ∈ tr, Good globalRanks move.post

/-- There is nothing to take for the transfers that complete in a run. -/
def NothingTaken (p : Platform) (tr : List (Transition State Label)) : Prop :=
  ∀ move ∈ tr, ∀ i, move.label = .completed i → NothingToTake p move.pre.net i

/-- A run keeps its fences in any case, and nothing is held for a transfer that has completed if and
only if there is nothing to take for the transfers that complete. -/
theorem released_iff {programs : TaskId → List Action} {tr : List (Transition State Label)}
    (hnodup : globalRanks.Nodup)
    (hrun : Run (ofPartial (step p globalRanks)) (.initial p globalRanks programs) tr s) :
    (∀ move ∈ tr, FencesKept globalRanks move.post) ∧
      (Released globalRanks tr ↔ NothingTaken p tr) := by
  have hinit : ∃ ph k, NetInv p ph (State.initial p globalRanks programs).net ∧
      Inv globalRanks (.initial p globalRanks programs) [] k :=
    ⟨_, 0, netInv_initial, inv_initial hnodup programs⟩
  have hkeeps (s : State) (l : Label) (s' : State)
      (h : ∃ ph k, NetInv p ph s.net ∧ Inv globalRanks s [] k)
      (hstep : step p globalRanks s l = some s') :
      ∃ ph k, NetInv p ph s'.net ∧ Inv globalRanks s' [] k := by
    obtain ⟨ph, k, hnet, hinv⟩ := h
    obtain ⟨ph', k', hnet', hinv', -⟩ := step_keeps hnodup hnet hinv hstep
    exact ⟨ph', k', hnet', hinv'⟩
  constructor
  · intro move hmove
    obtain ⟨-, ⟨ph, k, -, hinv⟩, -⟩ := hrun.transition_invariant hinit hkeeps move hmove
    exact FencesKept.of_inv hnodup hinv
  · apply hrun.forall_post_iff (P := Good globalRanks)
      (C := fun s l => ∀ i, l = .completed i → NothingToTake p s.net i) hinit _ hkeeps
    · rintro s l s' ⟨ph, k, hnet, h⟩ hgood hstep
      exact good_step hnodup hnet h hgood hstep
    · refine ⟨FencesKept.of_inv hnodup (inv_initial hnodup programs), fun i hi => ?_⟩
      exact absurd hi List.not_mem_nil

/-- Two nodes with the same number of links in each direction, a task on each, any number of
messages between them. -/
def twoNodes (links : Nat) : Platform where
  nodeOf t := t
  noInput _ := links
  noOutput _ := links
  numMessagesOnNetwork := 0
  policy := .fifo

def putFence (t : TaskId) : List Action := if t = 0 then [.getput 1, .fence] else [.fence]

def putFenceLabels : List Label :=
  [.dispatch 0 false, .dispatch 1 false, .dispatch 0 false, .completed 0]

def putFenceRun (links : Nat) : Option (List (Transition State Label) × State) :=
  exec (step (twoNodes links) [0, 1]) (.initial (twoNodes links) [0, 1] putFence) putFenceLabels

theorem released_iff_putFence : Released [0, 1] ((putFenceRun 0).get (by rfl)).1 := by
  have hrun : Run (ofPartial (step (twoNodes 0) [0, 1])) (.initial (twoNodes 0) [0, 1] putFence)
      ((putFenceRun 0).get (by rfl)).1 ((putFenceRun 0).get (by rfl)).2 := run_exec_get (by rfl)
  apply (released_iff (by decide) hrun).2.mpr
  have hnothing : ∀ move ∈ ((putFenceRun 0).get (by rfl)).1,
      NothingToTake (twoNodes 0) move.pre.net 0 := by decide
  intro move hmove i hlabel
  have hin : Label.completed i ∈ putFenceLabels := hlabel ▸ label_mem_of_exec_get hmove
  have hi : i = 0 := by
    simp only [putFenceLabels, List.mem_cons, Label.completed.injEq, reduceCtorEq, false_or,
      List.not_mem_nil, or_false] at hin
    exact hin
  rw [hi]
  exact hnothing move hmove

/-- The links of the transfer are not put back. -/
theorem not_released :
    ¬ ∀ (p : Platform) (globalRanks : List TaskId) (programs : TaskId → List Action)
      (tr : List (Transition State Label)) (s : State), globalRanks.Nodup →
      Run (ofPartial (step p globalRanks)) (.initial p globalRanks programs) tr s →
      Released globalRanks tr := by
  intro h
  have hrun : Run (ofPartial (step (twoNodes 1) [0, 1])) (.initial (twoNodes 1) [0, 1] putFence)
      ((putFenceRun 1).get (by rfl)).1 ((putFenceRun 1).get (by rfl)).2 := run_exec_get (by rfl)
  have hgood := h (twoNodes 1) [0, 1] putFence _ _ (by decide) hrun
  have hlast : ∃ move ∈ ((putFenceRun 1).get (by rfl)).1, 0 ∈ move.post.net.2.completed ∧
      ∃ link, move.post.net.1.ledger.slot (0, .localLink) = some link ∧
        link ∈ move.post.net.1.ledger.busy link.pool := by
    refine ⟨((putFenceRun 1).get (by rfl)).1.getLast (by decide), List.getLast_mem _, by decide,
      ⟨0, .outLink, 1⟩, by decide, by decide⟩
  obtain ⟨move, hmove, hdone, hheld⟩ := hlast
  exact (hgood move hmove).2 0 hdone (Or.inr ⟨.localLink, hheld⟩)

end Dimemas.Model.Fences
