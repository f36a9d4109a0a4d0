import Mathlib.Algebra.BigOperators.Group.List.Basic
import Mathlib.Algebra.Order.Ring.Rat
import Mathlib.Logic.Function.Basic
import Mathlib.Data.Rat.Defs
import Mathlib.Data.Set.Finite.Basic
import Mathlib.Tactic.Ring
import Mathlib.Tactic.Tauto
import Dimemas.Library.BackwardWalks
import Dimemas.Library.Transitions
/-!
# The critical path

The graph that `new_cp_node` and `new_cp_relation` record (`cp.c`), the backward walk over it and the
table of the modules that it visits. Times are exact rationals.
-/

namespace Dimemas.Utils.CriticalPath

open Relation
open Dimemas.Library.BackwardWalks
open Dimemas.Library.Transitions

/-! ## Recording -/

abbrev ThreadId := Nat

/-- CP_WORK, CP_BLOCK and CP_OVERHEAD. -/
inductive Status where
  | work
  | block
  | overhead
deriving DecidableEq, Repr

structure Module where
  type : Nat
  value : Nat
deriving DecidableEq, Repr

/-- The pointers to other nodes are their places in the queue `CP_nodes`. -/
structure CpNode where
  prev : Option Nat
  send : Option Nat
  status : Status
  module : Module
  finalTime : ℚ
deriving DecidableEq, Repr

structure State where
  cpNodes : List CpNode
  lastCpNode : ThreadId → Option Nat
  currentTime : ℚ

def State.init : State :=
  ⟨[], fun _ => none, 0⟩

/-- `new_cp_node`. `module` is the head of the queue `thread->modules`. -/
def newCpNode (s : State) (thread : ThreadId) (module : Option Module) (status : Status) : State :=
  match module with
  | none => s
  | some module =>
      { s with
        cpNodes := s.cpNodes ++ [⟨s.lastCpNode thread, none, status, module, s.currentTime⟩]
        lastCpNode := Function.update s.lastCpNode thread (some s.cpNodes.length) }

def setSend (send : Option Nat) (cpn : CpNode) : CpNode :=
  { cpn with send := send }

def newCpRelation (s : State) (dest src : ThreadId) : State :=
  match s.lastCpNode dest with
  | none => s
  | some node => { s with cpNodes := s.cpNodes.modify node (setSend (s.lastCpNode src)) }

/-- The calls of the two routines, `duplicate_thread`, and the simulated time that goes by. -/
inductive Call where
  | node (thread : ThreadId) (module : Option Module) (status : Status)
  | relation (dest src : ThreadId)
  | duplicate (thread copy : ThreadId)
  | elapse (time : ℚ)

def step (s : State) : Call → Option State
  | .node thread module status => some (newCpNode s thread module status)
  | .relation dest src => some (newCpRelation s dest src)
  | .duplicate thread copy =>
      some { s with lastCpNode := Function.update s.lastCpNode copy (s.lastCpNode thread) }
  | .elapse time => if s.currentTime ≤ time then some { s with currentTime := time } else none

/-! ## The walk -/

/-- `struct t_module_cp`. -/
structure ModuleCp where
  module : Module
  timer : ℚ
  timerComm : ℚ
deriving DecidableEq, Repr

def ModuleCp.total (mocp : ModuleCp) : ℚ :=
  mocp.timer + mocp.timerComm

def Module.before (m m' : Module) : Bool :=
  m.type < m'.type || (m.type = m'.type && m.value < m'.value)

/-- `insert_module`, in the order of the map's keys. -/
def insertModule (mocp : ModuleCp) : List ModuleCp → List ModuleCp
  | [] => [mocp]
  | other :: visited =>
      if mocp.module.before other.module then mocp :: other :: visited
      else other :: insertModule mocp visited

/-- The time of a visit in the timer for its status, and the gap after it in `timer_comm`. -/
def addTimes (status : Status) (diff diff3 : ℚ) (mocp : ModuleCp) : ModuleCp :=
  if status = .overhead then { mocp with timerComm := mocp.timerComm + diff + diff3 }
  else { mocp with timer := mocp.timer + diff, timerComm := mocp.timerComm + diff3 }

def visit (visited : List ModuleCp) (cpn : CpNode) (diff diff3 : ℚ) : List ModuleCp :=
  if visited.any fun mocp => mocp.module = cpn.module then
    visited.map fun mocp =>
      if mocp.module = cpn.module then addTimes cpn.status diff diff3 mocp else mocp
  else insertModule (addTimes cpn.status diff diff3 ⟨cpn.module, 0, 0⟩) visited

/-- One round of the loop of `show_CP_graph`: the next node, the gap before it and the times so far.
There is no result where a null pointer is read. -/
def visitNode (cpNodes : List CpNode) (cpn : CpNode) (diff3 : ℚ) (visited : List ModuleCp) :
    Option (Option Nat × ℚ × List ModuleCp) :=
  match cpn.prev with
  | none => some (none, 0, visit visited cpn cpn.finalTime diff3)
  | some p => do
      let cpnp ← cpNodes[p]?
      let visited := visit visited cpn (cpn.finalTime - cpnp.finalTime) diff3
      if cpnp.status = .block then do
        let s ← cpnp.send
        let cpns ← cpNodes[s]?
        some (some s, cpnp.finalTime - cpns.finalTime, visited)
      else some (some p, 0, visited)

/-- The loop of `show_CP_graph` from the node `cpn` on, with the queue of the nodes for Paraver. -/
def walk (cpNodes : List CpNode) :
    Nat → Option Nat → ℚ → List ModuleCp → Option (List Nat × List ModuleCp)
  | _, none, _, visited => some ([], visited)
  | 0, some _, _, _ => none
  | fuel + 1, some c, diff3, visited => do
      let cpn ← cpNodes[c]?
      let (next, diff3, visited) ← visitNode cpNodes cpn diff3 visited
      let res ← walk cpNodes fuel next diff3 visited
      some (c :: res.1, res.2)

def tailQueue (cpNodes : List CpNode) : Option Nat :=
  if cpNodes = [] then none else some (cpNodes.length - 1)

/-! ## The report -/

/-- The copy of the map into the array. The index `i` is never set nor moved on. -/
def copyModules (i : Int) (mocparr : List (Option ModuleCp)) :
    List ModuleCp → Option (List (Option ModuleCp))
  | [] => some mocparr
  | mocp :: visited =>
      if 0 ≤ i ∧ i < mocparr.length then
        copyModules i (mocparr.set i.toNat (some mocp)) visited
      else none

/-- The sorted table. A slot that has not been written is `none`. -/
def table (qsort : List (Option ModuleCp) → List (Option ModuleCp)) (i : Int)
    (visited : List ModuleCp) : Option (List (Option ModuleCp)) :=
  (copyModules i (List.replicate visited.length none) visited).map qsort

/-! ## What the report should say -/

def finalTime (cpNodes : List CpNode) (c : Nat) : ℚ :=
  (cpNodes[c]?.map CpNode.finalTime).getD 0

def startTime (cpNodes : List CpNode) (c : Nat) : ℚ :=
  ((cpNodes[c]?.bind CpNode.prev).map (finalTime cpNodes)).getD 0

/-- The instants where the times of a path begin and end, from the last one down. -/
def instants (cpNodes : List CpNode) (path : List Nat) : List ℚ :=
  path.flatMap fun c => [finalTime cpNodes c, startTime cpNodes c]

def modulesOf (cpNodes : List CpNode) (path : List Nat) : List Module :=
  path.filterMap fun c => cpNodes[c]?.map CpNode.module

/-- The walk ends, the times that it gives to the modules add up to the time of the last node with
each instant given once, and the table has one line for each module that it visits, with its
times. -/
structure Covers (cpNodes : List CpNode) (path : List Nat) (visited : List ModuleCp)
    (lines : List (Option ModuleCp)) : Prop where
  total : ∀ cpn ∈ cpNodes.getLast?, (visited.map ModuleCp.total).sum = cpn.finalTime
  once : ∀ cpn ∈ cpNodes.getLast?, ∀ x, 0 < x → x ≤ cpn.finalTime →
    crossings x (instants cpNodes path) = 1
  modules : ∀ m, m ∈ visited.map ModuleCp.module ↔ m ∈ modulesOf cpNodes path
  nodup : (visited.map ModuleCp.module).Nodup
  lines : lines.Perm (visited.map some)

/-- `show_CP_graph` with some value of the index `i`. -/
def ReportCovers (qsort : List (Option ModuleCp) → List (Option ModuleCp)) (i : Int)
    (cpNodes : List CpNode) : Prop :=
  ∃ fuel path visited lines, walk cpNodes fuel (tailQueue cpNodes) 0 [] = some (path, visited) ∧
    table qsort i visited = some lines ∧ Covers cpNodes path visited lines

/-- The walk goes from `c` to `c'`: to the node before it in the thread, or if that one is blocked to
its sender. -/
def Back (cpNodes : List CpNode) (c c' : Nat) : Prop :=
  ∃ cpn p cpnp, cpNodes[c]? = some cpn ∧ cpn.prev = some p ∧ cpNodes[p]? = some cpnp ∧
    if cpnp.status = .block then cpnp.send = some c' else c' = p

/-- The blocked node before `c` in its thread has a sender, which is not later. -/
def SentBefore (cpNodes : List CpNode) (c : Nat) : Prop :=
  ∀ cpn p cpnp, cpNodes[c]? = some cpn → cpn.prev = some p → cpNodes[p]? = some cpnp →
    cpnp.status = .block →
    ∃ s cpns, cpnp.send = some s ∧ cpNodes[s]? = some cpns ∧ cpns.finalTime ≤ cpnp.finalTime

/-- On the way back from the last node `last`, the senders are known and never later than the nodes
that wait for them, no node comes back, all nodes are in one module, and the index is that of its
line. -/
structure Traceable (cpNodes : List CpNode) (i : Int) (last : Nat) : Prop where
  sent : ∀ c, ReflTransGen (Back cpNodes) last c → SentBefore cpNodes c
  acyclic : ∀ c, ReflTransGen (Back cpNodes) last c → ¬ TransGen (Back cpNodes) c c
  oneModule : ∀ c, ReflTransGen (Back cpNodes) last c →
    cpNodes[c]?.map CpNode.module = cpNodes[last]?.map CpNode.module
  index : i = 0

/-! ## The recorded graph -/

/-- Nodes are recorded with their predecessors and senders, in the order of their times. -/
structure Recorded (s : State) : Prop where
  prev_lt : ∀ (c : Nat) (cpn : CpNode), s.cpNodes[c]? = some cpn → ∀ p, cpn.prev = some p → p < c
  send_lt : ∀ (c : Nat) (cpn : CpNode), s.cpNodes[c]? = some cpn →
    ∀ d, cpn.send = some d → d < s.cpNodes.length
  last_lt : ∀ t c, s.lastCpNode t = some c → c < s.cpNodes.length
  times : ∀ (c d : Nat) (cpn dpn : CpNode), s.cpNodes[c]? = some cpn →
    s.cpNodes[d]? = some dpn → c ≤ d → cpn.finalTime ≤ dpn.finalTime
  nonneg : ∀ (c : Nat) (cpn : CpNode), s.cpNodes[c]? = some cpn → 0 ≤ cpn.finalTime
  past : ∀ (c : Nat) (cpn : CpNode), s.cpNodes[c]? = some cpn → cpn.finalTime ≤ s.currentTime
  clock : 0 ≤ s.currentTime

theorem recorded_init : Recorded State.init := by
  constructor <;> simp [State.init]

theorem getElem?_append_singleton_cases {α : Type*} {l : List α} {a b : α} {c : Nat}
    (h : (l ++ [a])[c]? = some b) : l[c]? = some b ∨ (c = l.length ∧ b = a) := by
  by_cases hc : c < l.length
  · rw [List.getElem?_append_left hc] at h
    exact .inl h
  · have hlt := (List.getElem?_eq_some_iff.mp h).1
    rw [List.length_append, List.length_singleton] at hlt
    have hlast : c = l.length := by omega
    rw [hlast, List.getElem?_concat_length] at h
    exact .inr ⟨hlast, (Option.some.inj h).symm⟩

theorem Recorded.newCpNode {s : State} (h : Recorded s) (thread : ThreadId)
    (module : Option Module) (status : Status) :
    Recorded (newCpNode s thread module status) := by
  cases module with
  | none => exact h
  | some module =>
      have hlt {c : Nat} {cpn : CpNode} (hc : s.cpNodes[c]? = some cpn) : c < s.cpNodes.length :=
        (List.getElem?_eq_some_iff.mp hc).1
      refine ⟨?_, ?_, ?_, ?_, ?_, ?_, h.clock⟩
      · intro c cpn hc p hp
        obtain hc | ⟨rfl, rfl⟩ := getElem?_append_singleton_cases hc
        · exact h.prev_lt c cpn hc p hp
        · exact h.last_lt thread p hp
      · intro c cpn hc d hd
        rw [show (CriticalPath.newCpNode s thread (some module) status).cpNodes.length =
          s.cpNodes.length + 1 from List.length_append]
        obtain hc | ⟨rfl, rfl⟩ := getElem?_append_singleton_cases hc
        · exact Nat.lt_succ_of_lt (h.send_lt c cpn hc d hd)
        · simp at hd
      · intro t c hc
        rw [show (CriticalPath.newCpNode s thread (some module) status).cpNodes.length =
          s.cpNodes.length + 1 from List.length_append]
        by_cases ht : t = thread
        · have heq : s.cpNodes.length = c := by
            simpa [CriticalPath.newCpNode, ht] using hc
          omega
        · have hold : s.lastCpNode t = some c := by
            simpa [CriticalPath.newCpNode, Function.update_of_ne ht] using hc
          exact Nat.lt_succ_of_lt (h.last_lt t c hold)
      · intro c d cpn dpn hc hd hle
        obtain hc | ⟨rfl, rfl⟩ := getElem?_append_singleton_cases hc
        · obtain hd | ⟨rfl, rfl⟩ := getElem?_append_singleton_cases hd
          · exact h.times c d cpn dpn hc hd hle
          · exact h.past c cpn hc
        · obtain hd | ⟨rfl, rfl⟩ := getElem?_append_singleton_cases hd
          · exact absurd (hlt hd) (by omega)
          · exact le_rfl
      · intro c cpn hc
        obtain hc | ⟨rfl, rfl⟩ := getElem?_append_singleton_cases hc
        · exact h.nonneg c cpn hc
        · exact h.clock
      · intro c cpn hc
        obtain hc | ⟨rfl, rfl⟩ := getElem?_append_singleton_cases hc
        · exact h.past c cpn hc
        · exact le_rfl

theorem getElem?_modify_setSend {cpNodes : List CpNode} {node c : Nat} {send : Option Nat}
    {cpn : CpNode} (h : (cpNodes.modify node (setSend send))[c]? = some cpn) :
    ∃ old, cpNodes[c]? = some old ∧ cpn.prev = old.prev ∧ cpn.finalTime = old.finalTime ∧
      (cpn.send = old.send ∨ cpn.send = send) := by
  rw [List.getElem?_modify] at h
  obtain ⟨old, hold, hcpn⟩ := Option.map_eq_some_iff.mp h
  by_cases hnode : node = c
  · rw [if_pos hnode] at hcpn
    exact ⟨old, hold, by rw [← hcpn, setSend], by rw [← hcpn, setSend], .inr (by rw [← hcpn, setSend])⟩
  · rw [if_neg hnode] at hcpn
    have hsame : old = cpn := hcpn
    exact ⟨old, hold, by rw [hsame], by rw [hsame], .inl (by rw [hsame])⟩

theorem Recorded.newCpRelation {s : State} (h : Recorded s) (dest src : ThreadId) :
    Recorded (newCpRelation s dest src) := by
  unfold CriticalPath.newCpRelation
  split
  · exact h
  · next node _ =>
      refine ⟨?_, ?_, ?_, ?_, ?_, ?_, h.clock⟩
      · intro c cpn hc p hp
        obtain ⟨old, hold, hprev, -, -⟩ := getElem?_modify_setSend hc
        exact h.prev_lt c old hold p (hprev ▸ hp)
      · intro c cpn hc d hd
        obtain ⟨old, hold, -, -, hsend⟩ := getElem?_modify_setSend hc
        rw [List.length_modify]
        rcases hsend with hsend | hsend
        · exact h.send_lt c old hold d (hsend ▸ hd)
        · exact h.last_lt src d (hsend ▸ hd)
      · intro t c hc
        rw [List.length_modify]
        exact h.last_lt t c hc
      · intro c d cpn dpn hc hd hle
        obtain ⟨cold, hcold, -, hctime, -⟩ := getElem?_modify_setSend hc
        obtain ⟨dold, hdold, -, hdtime, -⟩ := getElem?_modify_setSend hd
        rw [hctime, hdtime]
        exact h.times c d cold dold hcold hdold hle
      · intro c cpn hc
        obtain ⟨old, hold, -, htime, -⟩ := getElem?_modify_setSend hc
        rw [htime]
        exact h.nonneg c old hold
      · intro c cpn hc
        obtain ⟨old, hold, -, htime, -⟩ := getElem?_modify_setSend hc
        rw [htime]
        exact h.past c old hold

theorem recorded_step {s s' : State} {call : Call} (h : Recorded s) (hstep : step s call = some s') :
    Recorded s' := by
  cases call with
  | node thread module status =>
      obtain rfl := Option.some.inj hstep
      exact h.newCpNode thread module status
  | relation dest src =>
      obtain rfl := Option.some.inj hstep
      exact h.newCpRelation dest src
  | duplicate thread copy =>
      obtain rfl := Option.some.inj hstep
      refine ⟨h.prev_lt, h.send_lt, ?_, h.times, h.nonneg, h.past, h.clock⟩
      intro t c hc
      by_cases ht : t = copy
      · exact h.last_lt thread c (by simpa [ht] using hc)
      · exact h.last_lt t c (by simpa [Function.update_of_ne ht] using hc)
  | elapse time =>
      rw [step] at hstep
      split at hstep
      · next htime =>
          obtain rfl := Option.some.inj hstep
          exact ⟨h.prev_lt, h.send_lt, h.last_lt, h.times, h.nonneg,
            fun c cpn hc => (h.past c cpn hc).trans htime, h.clock.trans htime⟩
      · exact absurd hstep (by simp)

theorem recorded_run {tr : List (Transition State Call)} {s : State}
    (hrun : Run (ofPartial step) State.init tr s) : Recorded s :=
  hrun.invariant recorded_init fun _ _ _ h hstep => recorded_step h hstep

/-! ## Paths -/

/-- The nodes of a walk from `c` to the first node of a thread. -/
inductive Walks (cpNodes : List CpNode) : Nat → List Nat → Prop
  | first {c : Nat} {cpn : CpNode} (hc : cpNodes[c]? = some cpn) (hp : cpn.prev = none) :
      Walks cpNodes c [c]
  | step {c c' : Nat} {path : List Nat} (hback : Back cpNodes c c') (hrest : Walks cpNodes c' path) :
      Walks cpNodes c (c :: path)

section

variable {cpNodes : List CpNode} {c c' d : Nat} {path : List Nat} {cpn : CpNode}

theorem finalTime_eq (hc : cpNodes[c]? = some cpn) : finalTime cpNodes c = cpn.finalTime := by
  rw [finalTime, hc]
  rfl

theorem startTime_of_first (hc : cpNodes[c]? = some cpn) (hp : cpn.prev = none) :
    startTime cpNodes c = 0 := by
  rw [startTime, hc, Option.bind_some, hp]
  rfl

theorem startTime_of_prev {p : Nat} (hc : cpNodes[c]? = some cpn) (hp : cpn.prev = some p) :
    startTime cpNodes c = finalTime cpNodes p := by
  rw [startTime, hc, Option.bind_some, hp]
  rfl

theorem Back.unique (h : Back cpNodes c c') (h' : Back cpNodes c d) : d = c' := by
  obtain ⟨cpn, p, cpnp, hc, hp, hcp, hnext⟩ := h
  obtain ⟨cpn₂, p₂, cpnp₂, hc₂, hp₂, hcp₂, hnext₂⟩ := h'
  obtain rfl := Option.some.inj (hc.symm.trans hc₂)
  obtain rfl := Option.some.inj (hp.symm.trans hp₂)
  obtain rfl := Option.some.inj (hcp.symm.trans hcp₂)
  by_cases hblock : cpnp.status = .block
  · rw [if_pos hblock] at hnext hnext₂
    exact Option.some.inj (hnext₂.symm.trans hnext)
  · rw [if_neg hblock] at hnext hnext₂
    exact hnext₂.trans hnext.symm

theorem Back.not_first (h : Back cpNodes c c') (hc : cpNodes[c]? = some cpn) :
    cpn.prev ≠ none := by
  obtain ⟨cpn₂, p, cpnp, hc₂, hp, -⟩ := h
  obtain rfl := Option.some.inj (hc.symm.trans hc₂)
  simp [hp]

theorem Walks.head (h : Walks cpNodes c path) : ∃ rest, path = c :: rest := by
  cases h with
  | first => exact ⟨[], rfl⟩
  | step _ _ => exact ⟨_, rfl⟩

theorem Walks.mem_iff (h : Walks cpNodes c path) :
    d ∈ path ↔ ReflTransGen (Back cpNodes) c d := by
  induction h with
  | @first c cpn hc hp =>
      rw [List.mem_singleton]
      constructor
      · rintro rfl
        exact .refl
      · intro hd
        rcases ReflTransGen.cases_head hd with heq | ⟨e, hback, -⟩
        · exact heq.symm
        · exact absurd hp (hback.not_first hc)
  | @step c c' path hback _ ih =>
      rw [List.mem_cons, ih]
      constructor
      · rintro (rfl | hd)
        · exact .refl
        · exact ReflTransGen.head hback hd
      · intro hd
        rcases ReflTransGen.cases_head hd with heq | ⟨e, hce, hed⟩
        · exact .inl heq.symm
        · rw [← hback.unique hce]
          exact .inr hed

theorem Walks.acc (h : Walks cpNodes c path) : Acc (fun b a => Back cpNodes a b) c := by
  induction h with
  | first hc hp => exact Acc.intro _ fun b hb => absurd hp (hb.not_first hc)
  | step hback _ ih =>
      refine Acc.intro _ fun b hb => ?_
      rw [hback.unique hb]
      exact ih

theorem Walks.goes_on (h : Walks cpNodes c path) (hd : ReflTransGen (Back cpNodes) c d)
    {dpn : CpNode} (hdpn : cpNodes[d]? = some dpn) (hprev : dpn.prev ≠ none) :
    ∃ e, Back cpNodes d e := by
  induction h with
  | @first c cpn hc hp =>
      rcases ReflTransGen.cases_head hd with rfl | ⟨e, hback, -⟩
      · obtain rfl := Option.some.inj (hc.symm.trans hdpn)
        exact absurd hp hprev
      · exact absurd hp (hback.not_first hc)
  | @step c c' path hback _ ih =>
      rcases ReflTransGen.cases_head hd with rfl | ⟨e, hce, hed⟩
      · exact ⟨c', hback⟩
      · rw [hback.unique hce] at hed
        exact ih hed

theorem exists_walks (hacc : Acc (fun b a => Back cpNodes a b) c)
    (hgo : ∀ d, ReflTransGen (Back cpNodes) c d →
      (∃ dpn, cpNodes[d]? = some dpn ∧ dpn.prev = none) ∨ ∃ e, Back cpNodes d e) :
    ∃ path, Walks cpNodes c path := by
  induction hacc with
  | intro c _ ih =>
      rcases hgo c .refl with ⟨cpn, hc, hp⟩ | ⟨e, hback⟩
      · exact ⟨[c], .first hc hp⟩
      · obtain ⟨path, hpath⟩ := ih e hback fun d hd => hgo d (ReflTransGen.head hback hd)
        exact ⟨c :: path, .step hback hpath⟩

/-! ## What the walk computes -/

def visitPath (cpNodes : List CpNode) : List Nat → ℚ → List ModuleCp → List ModuleCp
  | [], _, visited => visited
  | c :: path, diff3, visited =>
      match cpNodes[c]? with
      | none => visited
      | some cpn =>
          visitPath cpNodes path
            (startTime cpNodes c - (path.head?.map (finalTime cpNodes)).getD (startTime cpNodes c))
            (visit visited cpn (cpn.finalTime - startTime cpNodes c) diff3)

theorem walk_of_walks (h : Walks cpNodes c path) (fuel : Nat) (hfuel : path.length ≤ fuel)
    (diff3 : ℚ) (visited : List ModuleCp) :
    walk cpNodes fuel (some c) diff3 visited = some (path, visitPath cpNodes path diff3 visited) := by
  induction h generalizing fuel diff3 visited with
  | @first c cpn hc hp =>
      obtain ⟨fuel, rfl⟩ : ∃ n, fuel = n + 1 := ⟨fuel - 1, by simp at hfuel; omega⟩
      simp [walk, visitNode, hc, hp, visitPath, startTime_of_first hc hp]
  | @step c c' path hback hrest ih =>
      obtain ⟨fuel, rfl⟩ : ∃ n, fuel = n + 1 := ⟨fuel - 1, by simp at hfuel; omega⟩
      have hrun := ih fuel (by simpa using hfuel)
      obtain ⟨rest, rfl⟩ := hrest.head
      obtain ⟨cpn, p, cpnp, hc, hp, hcp, hnext⟩ := hback
      have hstart : startTime cpNodes c = cpnp.finalTime :=
        (startTime_of_prev hc hp).trans (finalTime_eq hcp)
      by_cases hblock : cpnp.status = .block
      · rw [if_pos hblock] at hnext
        have hcpns : ∃ cpns, cpNodes[c']? = some cpns := by
          cases hrest with
          | first hc' _ => exact ⟨_, hc'⟩
          | step hb _ =>
              obtain ⟨cpns, _, _, hc', -⟩ := hb
              exact ⟨cpns, hc'⟩
        obtain ⟨cpns, hcpns⟩ := hcpns
        simp [walk, visitNode, hc, hp, hcp, hblock, hnext, hcpns, hrun, visitPath, hstart,
          finalTime_eq hcpns]
      · rw [if_neg hblock] at hnext
        subst hnext
        simp [walk, visitNode, hc, hp, hcp, hblock, hrun, visitPath, hstart, finalTime_eq hcp]

theorem walks_of_walk {fuel : Nat} {diff3 : ℚ} {visited res : List ModuleCp}
    (h : walk cpNodes fuel (some c) diff3 visited = some (path, res)) :
    Walks cpNodes c path ∧ path.length ≤ fuel := by
  induction fuel generalizing c diff3 visited path res with
  | zero => simp [walk] at h
  | succ fuel ih =>
      simp only [walk, Option.bind_eq_bind, Option.bind_eq_some_iff, Option.some.injEq,
        Prod.mk.injEq] at h
      obtain ⟨cpn, hc, ⟨next, diff3', visited'⟩, hvisit, ⟨rest, res'⟩, hwalk, rfl, rfl⟩ := h
      cases hp : cpn.prev with
      | none =>
          simp only [visitNode, hp, Option.some.injEq, Prod.mk.injEq] at hvisit
          rw [← hvisit.1, walk, Option.some.injEq, Prod.mk.injEq] at hwalk
          rw [← hwalk.1]
          exact ⟨.first hc hp, Nat.le_add_left 1 fuel⟩
      | some p =>
          simp only [visitNode, hp, Option.bind_eq_bind, Option.bind_eq_some_iff] at hvisit
          obtain ⟨cpnp, hcp, hvisit⟩ := hvisit
          by_cases hblock : cpnp.status = .block
          · simp only [if_pos hblock, Option.bind_eq_some_iff, Option.some.injEq,
              Prod.mk.injEq] at hvisit
            obtain ⟨s, hs, cpns, hcpns, rfl, -⟩ := hvisit
            have hback : Back cpNodes c s := ⟨cpn, p, cpnp, hc, hp, hcp, by rwa [if_pos hblock]⟩
            exact ⟨.step hback (ih hwalk).1, Nat.succ_le_succ (ih hwalk).2⟩
          · simp only [if_neg hblock, Option.some.injEq, Prod.mk.injEq] at hvisit
            obtain ⟨rfl, -⟩ := hvisit
            have hback : Back cpNodes c p := ⟨cpn, p, cpnp, hc, hp, hcp, by rw [if_neg hblock]⟩
            exact ⟨.step hback (ih hwalk).1, Nat.succ_le_succ (ih hwalk).2⟩

end

/-! ## The times of the modules -/

section

variable {visited : List ModuleCp} {cpn : CpNode} {diff diff3 : ℚ}

@[simp] theorem module_addTimes (status : Status) (mocp : ModuleCp) :
    (addTimes status diff diff3 mocp).module = mocp.module := by
  unfold addTimes
  split <;> rfl

theorem total_addTimes (status : Status) (mocp : ModuleCp) :
    (addTimes status diff diff3 mocp).total = mocp.total + (diff + diff3) := by
  unfold addTimes ModuleCp.total
  split
  · show mocp.timer + (mocp.timerComm + diff + diff3) = _
    ring
  · show mocp.timer + diff + (mocp.timerComm + diff3) = _
    ring

theorem insertModule_perm (mocp : ModuleCp) (visited : List ModuleCp) :
    (insertModule mocp visited).Perm (mocp :: visited) := by
  induction visited with
  | nil => exact List.Perm.refl _
  | cons other visited ih =>
      rw [insertModule]
      split
      · exact List.Perm.refl _
      · exact (ih.cons other).trans (List.Perm.swap mocp other visited)

theorem modules_visit (visited : List ModuleCp) (cpn : CpNode) (diff diff3 : ℚ) :
    ((visit visited cpn diff diff3).map ModuleCp.module).Perm
      (if cpn.module ∈ visited.map ModuleCp.module then visited.map ModuleCp.module
        else cpn.module :: visited.map ModuleCp.module) := by
  have hany : (visited.any fun mocp => mocp.module = cpn.module) = true ↔
      cpn.module ∈ visited.map ModuleCp.module := by
    simp [List.any_eq_true]
  by_cases hmem : cpn.module ∈ visited.map ModuleCp.module
  · rw [visit, if_pos (hany.mpr hmem), if_pos hmem, List.map_map]
    apply List.Perm.of_eq
    apply List.map_congr_left
    intro mocp _
    show (if mocp.module = cpn.module then addTimes cpn.status diff diff3 mocp else mocp).module = _
    split
    · exact module_addTimes cpn.status mocp
    · rfl
  · rw [visit, if_neg fun h => hmem (hany.mp h), if_neg hmem]
    have hperm := (insertModule_perm (addTimes cpn.status diff diff3 ⟨cpn.module, 0, 0⟩) visited).map
      ModuleCp.module
    rwa [List.map_cons, module_addTimes] at hperm

theorem sum_update {m : Module} {f : ModuleCp → ModuleCp} {d : ℚ}
    (hf : ∀ mocp, (f mocp).total = mocp.total + d) (hnodup : (visited.map ModuleCp.module).Nodup)
    (hmem : m ∈ visited.map ModuleCp.module) :
    ((visited.map fun mocp => if mocp.module = m then f mocp else mocp).map ModuleCp.total).sum =
      (visited.map ModuleCp.total).sum + d := by
  induction visited with
  | nil => exact absurd hmem List.not_mem_nil
  | cons mocp visited ih =>
      rw [List.map_cons, List.nodup_cons] at hnodup
      simp only [List.map_cons, List.sum_cons]
      by_cases hm : mocp.module = m
      · have hrest : (visited.map fun mocp => if mocp.module = m then f mocp else mocp) = visited := by
          rw [List.map_congr_left (g := id), List.map_id]
          intro other hother
          have hne : other.module ≠ m := by
            rintro rfl
            exact hnodup.1 (hm ▸ List.mem_map_of_mem hother)
          exact if_neg hne
        rw [if_pos hm, hf, hrest]
        ring
      · have hmem' : m ∈ visited.map ModuleCp.module :=
          (List.mem_cons.mp hmem).resolve_left fun h => hm h.symm
        rw [if_neg hm, ih hnodup.2 hmem']
        ring

theorem total_visit (hnodup : (visited.map ModuleCp.module).Nodup) :
    ((visit visited cpn diff diff3).map ModuleCp.total).sum =
      (visited.map ModuleCp.total).sum + (diff + diff3) := by
  rw [visit]
  split
  · next hany =>
      apply sum_update (total_addTimes cpn.status) hnodup
      simpa [List.any_eq_true] using hany
  · have hperm := (insertModule_perm (addTimes cpn.status diff diff3 ⟨cpn.module, 0, 0⟩)
      visited).map ModuleCp.total
    rw [hperm.sum_eq, List.map_cons, List.sum_cons, total_addTimes]
    show 0 + 0 + (diff + diff3) + _ = _
    ring

theorem nodup_visit (hnodup : (visited.map ModuleCp.module).Nodup) :
    ((visit visited cpn diff diff3).map ModuleCp.module).Nodup := by
  rw [(modules_visit visited cpn diff diff3).nodup_iff]
  split
  · exact hnodup
  · next hmem => exact List.nodup_cons.mpr ⟨hmem, hnodup⟩

theorem mem_modules_visit {m : Module} :
    m ∈ (visit visited cpn diff diff3).map ModuleCp.module ↔
      m = cpn.module ∨ m ∈ visited.map ModuleCp.module := by
  rw [(modules_visit visited cpn diff diff3).mem_iff]
  split
  · next hmem => exact ⟨.inr, fun h => h.elim (fun heq => heq ▸ hmem) id⟩
  · exact List.mem_cons

end

section

variable {cpNodes : List CpNode} {c : Nat} {path : List Nat}

theorem Walks.get (h : Walks cpNodes c path) : ∃ cpn, cpNodes[c]? = some cpn := by
  cases h with
  | first hc _ => exact ⟨_, hc⟩
  | step hback _ =>
      obtain ⟨cpn, _, _, hc, -⟩ := hback
      exact ⟨cpn, hc⟩

theorem nodup_visitPath (path : List Nat) (diff3 : ℚ) (visited : List ModuleCp)
    (hnodup : (visited.map ModuleCp.module).Nodup) :
    ((visitPath cpNodes path diff3 visited).map ModuleCp.module).Nodup := by
  fun_induction visitPath cpNodes path diff3 visited with
  | case1 => exact hnodup
  | case2 => exact hnodup
  | case3 _ _ _ _ _ _ ih => exact ih (nodup_visit hnodup)

/-- The times of a path add up to the time of its last instant and the gap before it. -/
theorem Walks.total_visitPath (h : Walks cpNodes c path) (diff3 : ℚ) (visited : List ModuleCp)
    (hnodup : (visited.map ModuleCp.module).Nodup) :
    ((visitPath cpNodes path diff3 visited).map ModuleCp.total).sum =
      (visited.map ModuleCp.total).sum + diff3 + finalTime cpNodes c := by
  induction h generalizing diff3 visited with
  | @first c cpn hc hp =>
      rw [visitPath, hc]
      simp only [visitPath]
      rw [total_visit hnodup, startTime_of_first hc hp, finalTime_eq hc]
      ring
  | @step c c' path hback hrest ih =>
      obtain ⟨cpn, hc⟩ := (Walks.step hback hrest).get
      obtain ⟨rest, rfl⟩ := hrest.head
      rw [visitPath, hc]
      simp only [List.head?_cons, Option.map_some, Option.getD_some]
      rw [ih _ _ (nodup_visit hnodup), total_visit hnodup, finalTime_eq hc]
      ring

theorem Walks.mem_modules_visitPath (h : Walks cpNodes c path) (diff3 : ℚ)
    (visited : List ModuleCp) (m : Module) :
    m ∈ (visitPath cpNodes path diff3 visited).map ModuleCp.module ↔
      m ∈ visited.map ModuleCp.module ∨ m ∈ modulesOf cpNodes path := by
  induction h generalizing diff3 visited with
  | @first c cpn hc hp =>
      rw [visitPath, hc]
      simp only [visitPath]
      rw [mem_modules_visit, modulesOf, List.filterMap_cons, hc]
      simp [or_comm]
  | @step c c' path hback hrest ih =>
      obtain ⟨cpn, hc⟩ := (Walks.step hback hrest).get
      rw [visitPath, hc]
      simp only
      have hcons : modulesOf cpNodes (c :: path) = cpn.module :: modulesOf cpNodes path := by
        rw [modulesOf, List.filterMap_cons, hc]
        rfl
      rw [ih, mem_modules_visit, hcons, List.mem_cons]
      tauto

end

/-! ## Instants -/

section

variable {cpNodes : List CpNode} {c : Nat} {path : List Nat}

theorem Walks.instants (h : Walks cpNodes c path) :
    ∃ l, instants cpNodes path = finalTime cpNodes c :: (l ++ [0]) ∧
      ∀ y ∈ l, ∃ d, y = finalTime cpNodes d ∨ y = startTime cpNodes d := by
  induction h with
  | @first c cpn hc hp =>
      refine ⟨[], ?_, by simp⟩
      simp [CriticalPath.instants, startTime_of_first hc hp]
  | @step c c' path _ _ ih =>
      obtain ⟨l, hl, hmem⟩ := ih
      refine ⟨startTime cpNodes c :: finalTime cpNodes c' :: l, ?_, ?_⟩
      · rw [CriticalPath.instants, List.flatMap_cons]
        exact congrArg (fun l => finalTime cpNodes c :: startTime cpNodes c :: l) hl
      · intro y hy
        rcases List.mem_cons.mp hy with rfl | hy
        · exact ⟨c, .inr rfl⟩
        · rcases List.mem_cons.mp hy with rfl | hy
          · exact ⟨c', .inl rfl⟩
          · exact hmem y hy

/-- The times never overlap exactly if the walk never goes to a node that is later than where it
left off. -/
theorem Walks.isChain_instants_iff (h : Walks cpNodes c path)
    (hstart : ∀ d, startTime cpNodes d ≤ finalTime cpNodes d) :
    (CriticalPath.instants cpNodes path).IsChain (· ≥ ·) ↔
      ∀ d d', ReflTransGen (Back cpNodes) c d → Back cpNodes d d' →
        finalTime cpNodes d' ≤ startTime cpNodes d := by
  induction h with
  | @first c cpn hc hp =>
      have hlast : (CriticalPath.instants cpNodes [c]).IsChain (· ≥ ·) := by
        simpa [CriticalPath.instants] using hstart c
      refine iff_of_true hlast fun d d' hd hback => ?_
      rcases ReflTransGen.cases_head hd with rfl | ⟨e, hce, -⟩
      · exact absurd hp (hback.not_first hc)
      · exact absurd hp (hce.not_first hc)
  | @step c c' path hback hrest ih =>
      obtain ⟨l, hl, -⟩ := hrest.instants
      have hcons : CriticalPath.instants cpNodes (c :: path) =
          finalTime cpNodes c :: startTime cpNodes c :: CriticalPath.instants cpNodes path := rfl
      rw [hl] at ih
      rw [hcons, hl, List.isChain_cons_cons, List.isChain_cons_cons, ih]
      constructor
      · rintro ⟨-, hgap, hmore⟩ d d' hd hdd'
        rcases ReflTransGen.cases_head hd with rfl | ⟨e, hce, hed⟩
        · rw [hback.unique hdd']
          exact hgap
        · rw [hback.unique hce] at hed
          exact hmore d d' hed hdd'
      · intro hall
        exact ⟨hstart c, hall c c' .refl hback,
          fun d d' hd hdd' => hall d d' (ReflTransGen.head hback hd) hdd'⟩

end

section

variable {s : State}

theorem Recorded.finalTime_nonneg (h : Recorded s) (c : Nat) : 0 ≤ finalTime s.cpNodes c := by
  unfold finalTime
  cases hc : s.cpNodes[c]? with
  | none => exact le_rfl
  | some cpn => exact h.nonneg c cpn hc

theorem Recorded.startTime_nonneg (h : Recorded s) (c : Nat) : 0 ≤ startTime s.cpNodes c := by
  unfold startTime
  cases s.cpNodes[c]?.bind CpNode.prev with
  | none => exact le_rfl
  | some p => exact h.finalTime_nonneg p

theorem Recorded.startTime_le (h : Recorded s) (c : Nat) :
    startTime s.cpNodes c ≤ finalTime s.cpNodes c := by
  cases hc : s.cpNodes[c]? with
  | none =>
      rw [startTime, hc]
      exact h.finalTime_nonneg c
  | some cpn =>
      cases hp : cpn.prev with
      | none =>
          rw [startTime_of_first hc hp]
          exact h.finalTime_nonneg c
      | some p =>
          have hpc := h.prev_lt c cpn hc p hp
          have hlt := hpc.trans (List.getElem?_eq_some_iff.mp hc).1
          have hcp : s.cpNodes[p]? = some s.cpNodes[p] := List.getElem?_eq_getElem hlt
          rw [startTime_of_prev hc hp, finalTime_eq hc, finalTime_eq hcp]
          exact h.times p c _ cpn hcp hc hpc.le

theorem Recorded.finalTime_le (h : Recorded s) {last : Nat} {cpn : CpNode}
    (hlast : s.cpNodes[last]? = some cpn) (hend : last + 1 = s.cpNodes.length) (c : Nat) :
    finalTime s.cpNodes c ≤ finalTime s.cpNodes last := by
  cases hc : s.cpNodes[c]? with
  | none =>
      rw [finalTime, hc]
      exact h.finalTime_nonneg last
  | some dpn =>
      have hlt := (List.getElem?_eq_some_iff.mp hc).1
      rw [finalTime_eq hc, finalTime_eq hlast]
      exact h.times c last dpn cpn hc hlast (by omega)

/-- Each instant up to the last node is given once exactly if no sender on the way is later than the
node that waits for it. -/
theorem Recorded.once_iff (h : Recorded s) {last : Nat} {cpn : CpNode} {path : List Nat}
    (hlast : s.cpNodes[last]? = some cpn) (hend : last + 1 = s.cpNodes.length)
    (hwalk : Walks s.cpNodes last path) :
    (∀ x, 0 < x → x ≤ cpn.finalTime → crossings x (instants s.cpNodes path) = 1) ↔
      ∀ d d', ReflTransGen (Back s.cpNodes) last d → Back s.cpNodes d d' →
        finalTime s.cpNodes d' ≤ startTime s.cpNodes d := by
  rw [← hwalk.isChain_instants_iff h.startTime_le]
  obtain ⟨l, hl, hmem⟩ := hwalk.instants
  rw [hl, ← finalTime_eq hlast]
  apply crossings_eq_one_iff
  · intro y hy
    obtain ⟨d, rfl | rfl⟩ := hmem y hy
    · exact h.finalTime_le hlast hend d
    · exact (h.startTime_le d).trans (h.finalTime_le hlast hend d)
  · intro y hy
    obtain ⟨d, rfl | rfl⟩ := hmem y hy
    · exact h.finalTime_nonneg d
    · exact h.startTime_nonneg d
  · exact h.finalTime_nonneg last

end

/-! ## The table -/

section

variable {i : Int} {mocparr lines : List (Option ModuleCp)} {visited : List ModuleCp}
  {qsort : List (Option ModuleCp) → List (Option ModuleCp)}

theorem copyModules_eq_some (h : copyModules i mocparr visited = some lines) :
    lines.length = mocparr.length ∧ (∀ j, j ≠ i.toNat → lines[j]? = mocparr[j]?) ∧
      (visited ≠ [] → 0 ≤ i ∧ i < mocparr.length) := by
  induction visited generalizing mocparr with
  | nil =>
      obtain rfl := Option.some.inj h
      exact ⟨rfl, fun _ _ => rfl, fun hne => absurd rfl hne⟩
  | cons mocp visited ih =>
      rw [copyModules] at h
      split at h
      · next hi =>
          obtain ⟨hlength, hothers, -⟩ := ih h
          rw [List.length_set] at hlength
          refine ⟨hlength, fun j hj => ?_, fun _ => hi⟩
          rw [hothers j hj, List.getElem?_set_ne hj.symm]
      · exact absurd h (by simp)

theorem table_perm_iff (hqsort : ∀ l, (qsort l).Perm l) :
    (∃ lines, table qsort i visited = some lines ∧ lines.Perm (visited.map some)) ↔
      visited = [] ∨ i = 0 ∧ visited.length = 1 := by
  constructor
  · rintro ⟨lines, htable, hperm⟩
    by_cases hnil : visited = []
    · exact .inl hnil
    · obtain ⟨copied, hcopied, rfl⟩ := Option.map_eq_some_iff.mp htable
      obtain ⟨hlength, hothers, hindex⟩ := copyModules_eq_some hcopied
      rw [List.length_replicate] at hlength hindex
      obtain ⟨hnonneg, hlt⟩ := hindex hnil
      have hwritten : none ∉ copied := by
        intro hmem
        have hnone := hperm.mem_iff.mp ((hqsort copied).mem_iff.mpr hmem)
        simp at hnone
      have hslots (j : Nat) (hj : j < visited.length) : j = i.toNat := by
        by_contra hne
        have hslot := hothers j hne
        rw [List.getElem?_replicate, if_pos hj] at hslot
        exact hwritten (List.mem_of_getElem? hslot)
      have hzero := hslots 0 (List.length_pos_iff.mpr hnil)
      refine .inr ⟨by omega, ?_⟩
      by_contra hone
      have hsecond := hslots 1 (by have := List.length_pos_iff.mpr hnil; omega)
      omega
  · rintro (rfl | ⟨rfl, hone⟩)
    · exact ⟨qsort [], rfl, hqsort []⟩
    · obtain ⟨mocp, rfl⟩ := List.length_eq_one_iff.mp hone
      exact ⟨qsort [some mocp], rfl, hqsort _⟩

end

theorem length_eq_one_iff_of_nodup {α : Type*} {l : List α} (hnodup : l.Nodup) {a : α}
    (ha : a ∈ l) : l.length = 1 ↔ ∀ b ∈ l, b = a := by
  constructor
  · intro hone b hb
    obtain ⟨x, rfl⟩ := List.length_eq_one_iff.mp hone
    rw [List.mem_singleton.mp ha, List.mem_singleton.mp hb]
  · intro hall
    have hrep := List.eq_replicate_iff.mpr ⟨rfl, hall⟩
    have hle : l.length ≤ 1 := by
      rw [hrep] at hnodup
      exact List.nodup_replicate.mp hnodup
    have hpos := List.length_pos_of_mem ha
    omega

/-! ## The report -/

section

variable {s : State} {last : Nat}

theorem Recorded.back_lt (h : Recorded s) {c c' : Nat} (hback : Back s.cpNodes c c') :
    c' < s.cpNodes.length := by
  obtain ⟨cpn, p, cpnp, hc, hp, hcp, hnext⟩ := hback
  split at hnext
  · exact h.send_lt p cpnp hcp c' hnext
  · rw [hnext]
    exact (List.getElem?_eq_some_iff.mp hcp).1

theorem Recorded.reach_lt (h : Recorded s) (hlast : last < s.cpNodes.length) {c : Nat}
    (hreach : ReflTransGen (Back s.cpNodes) last c) : c < s.cpNodes.length := by
  rcases ReflTransGen.cases_tail hreach with heq | ⟨d, -, hback⟩
  · rw [heq]
    exact hlast
  · exact h.back_lt hback

/-- From a traceable end the walk comes to the first node of a thread. -/
theorem Recorded.exists_walks_of_traceable (h : Recorded s) (hlast : last < s.cpNodes.length)
    {i : Int} (ht : Traceable s.cpNodes i last) : ∃ path, Walks s.cpNodes last path := by
  have hfin : {b | ReflTransGen (Back s.cpNodes) last b}.Finite :=
    (Set.finite_lt_nat s.cpNodes.length).subset fun b hb => h.reach_lt hlast hb
  apply exists_walks (acc_of_acyclic hfin ht.acyclic)
  intro d hd
  have hdlt := h.reach_lt hlast hd
  have hdpn : s.cpNodes[d]? = some s.cpNodes[d] := List.getElem?_eq_getElem hdlt
  cases hp : s.cpNodes[d].prev with
  | none => exact .inl ⟨_, hdpn, hp⟩
  | some p =>
      have hplt := (h.prev_lt d _ hdpn p hp).trans hdlt
      have hcp : s.cpNodes[p]? = some s.cpNodes[p] := List.getElem?_eq_getElem hplt
      by_cases hblock : s.cpNodes[p].status = .block
      · obtain ⟨e, -, he, -⟩ := ht.sent d hd _ p _ hdpn hp hcp hblock
        exact .inr ⟨e, _, p, _, hdpn, hp, hcp, by rwa [if_pos hblock]⟩
      · exact .inr ⟨p, _, p, _, hdpn, hp, hcp, by rw [if_neg hblock]⟩

/-- On a walk that ends, the senders are known. They are not later than the nodes that wait for them
if the walk never goes to a later node. -/
theorem Walks.sentBefore {cpNodes : List CpNode} {c d : Nat} {path : List Nat}
    (h : Walks cpNodes c path)
    (hdown : ∀ d d', ReflTransGen (Back cpNodes) c d → Back cpNodes d d' →
      finalTime cpNodes d' ≤ startTime cpNodes d)
    (hlt : ∀ d d', Back cpNodes d d' → d' < cpNodes.length)
    (hd : ReflTransGen (Back cpNodes) c d) : SentBefore cpNodes d := by
  intro dpn p cpnp hdpn hp hcp hblock
  obtain ⟨e, hback⟩ := h.goes_on hd hdpn (by simp [hp])
  have hsend : cpnp.send = some e := by
    obtain ⟨dpn₂, p₂, cpnp₂, hdpn₂, hp₂, hcp₂, hnext⟩ := hback
    obtain rfl := Option.some.inj (hdpn.symm.trans hdpn₂)
    obtain rfl := Option.some.inj (hp.symm.trans hp₂)
    obtain rfl := Option.some.inj (hcp.symm.trans hcp₂)
    rwa [if_pos hblock] at hnext
  have helt := hlt d e hback
  have hcpns : cpNodes[e]? = some cpNodes[e] := List.getElem?_eq_getElem helt
  refine ⟨e, _, hsend, hcpns, ?_⟩
  have hle := hdown d e hd hback
  rwa [finalTime_eq hcpns, startTime_of_prev hdpn hp, finalTime_eq hcp] at hle

theorem Traceable.down {cpNodes : List CpNode} {i : Int} (ht : Traceable cpNodes i last)
    {d d' : Nat} (hd : ReflTransGen (Back cpNodes) last d) (hback : Back cpNodes d d') :
    finalTime cpNodes d' ≤ startTime cpNodes d := by
  obtain ⟨dpn, p, cpnp, hdpn, hp, hcp, hnext⟩ := hback
  rw [startTime_of_prev hdpn hp, finalTime_eq hcp]
  by_cases hblock : cpnp.status = .block
  · rw [if_pos hblock] at hnext
    obtain ⟨e, cpns, he, hcpns, hle⟩ := ht.sent d hd dpn p cpnp hdpn hp hcp hblock
    obtain rfl := Option.some.inj (hnext.symm.trans he)
    rwa [finalTime_eq hcpns]
  · rw [if_neg hblock] at hnext
    rw [hnext, finalTime_eq hcp]

theorem mem_modulesOf_iff {cpNodes : List CpNode} {path : List Nat}
    (hwalk : Walks cpNodes last path) (m : Module) :
    m ∈ modulesOf cpNodes path ↔
      ∃ c, ReflTransGen (Back cpNodes) last c ∧ cpNodes[c]?.map CpNode.module = some m := by
  simp only [modulesOf, List.mem_filterMap, hwalk.mem_iff]

theorem acc_of_reach {cpNodes : List CpNode} {c d : Nat}
    (hacc : Acc (fun b a => Back cpNodes a b) c) (hd : ReflTransGen (Back cpNodes) c d) :
    Acc (fun b a => Back cpNodes a b) d := by
  induction hd with
  | refl => exact hacc
  | tail _ hback ih => exact ih.inv hback

/-- What the walk and the table give for a path from the last node. -/
theorem Recorded.covers_iff (h : Recorded s) {cpn : CpNode} {i : Int}
    {qsort : List (Option ModuleCp) → List (Option ModuleCp)} (hqsort : ∀ l, (qsort l).Perm l)
    (hlast : s.cpNodes[last]? = some cpn) (hend : last + 1 = s.cpNodes.length) {path : List Nat}
    (hwalk : Walks s.cpNodes last path) :
    (∃ lines, table qsort i (visitPath s.cpNodes path 0 []) = some lines ∧
        Covers s.cpNodes path (visitPath s.cpNodes path 0 []) lines) ↔
      Traceable s.cpNodes i last := by
  have hgetLast : s.cpNodes.getLast? = some cpn := by
    rw [List.getLast?_eq_getElem?, ← hend, Nat.add_sub_cancel]
    exact hlast
  have hnodup := @nodup_visitPath s.cpNodes path 0 [] List.nodup_nil
  have hmodules (m : Module) := hwalk.mem_modules_visitPath 0 [] m
  have hkey : cpn.module ∈ (visitPath s.cpNodes path 0 []).map ModuleCp.module :=
    (hmodules _).mpr (.inr ((mem_modulesOf_iff hwalk _).mpr ⟨last, .refl, by rw [hlast]; rfl⟩))
  have hone := length_eq_one_iff_of_nodup hnodup hkey
  rw [List.length_map] at hone
  constructor
  · rintro ⟨lines, htable, hcovers⟩
    have hdown := (h.once_iff hlast hend hwalk).mp (hcovers.once cpn hgetLast)
    rcases (table_perm_iff hqsort).mp ⟨lines, htable, hcovers.lines⟩ with hnil | ⟨hi, hlength⟩
    · rw [hnil] at hkey
      exact absurd hkey List.not_mem_nil
    · refine ⟨fun c hc => hwalk.sentBefore hdown (fun _ _ => h.back_lt) hc,
        fun c hc => acyclic_of_acc (acc_of_reach hwalk.acc hc), fun c hc => ?_, hi⟩
      have hlt := h.reach_lt (List.getElem?_eq_some_iff.mp hlast).1 hc
      have hget : s.cpNodes[c]? = some s.cpNodes[c] := List.getElem?_eq_getElem hlt
      have hmem := (hmodules s.cpNodes[c].module).mpr
        (.inr ((mem_modulesOf_iff hwalk _).mpr ⟨c, hc, by rw [hget]; rfl⟩))
      rw [hget, hlast, Option.map_some, Option.map_some, hone.mp hlength _ hmem]
  · intro ht
    have hlength : (visitPath s.cpNodes path 0 []).length = 1 := by
      apply hone.mpr
      intro m hm
      rcases (hmodules m).mp hm with hm | hm
      · exact absurd hm List.not_mem_nil
      · obtain ⟨c, hc, hget⟩ := (mem_modulesOf_iff hwalk m).mp hm
        rw [ht.oneModule c hc, hlast] at hget
        exact (Option.some.inj hget).symm
    obtain ⟨lines, htable, hperm⟩ := (table_perm_iff hqsort).mpr (.inr ⟨ht.index, hlength⟩)
    refine ⟨lines, htable, ?_, ?_, ?_, hnodup, hperm⟩
    · intro cpn' hcpn'
      obtain rfl := Option.some.inj (hgetLast.symm.trans hcpn')
      have htotal := hwalk.total_visitPath 0 [] List.nodup_nil
      rw [finalTime_eq hlast] at htotal
      simpa using htotal
    · intro cpn' hcpn'
      obtain rfl := Option.some.inj (hgetLast.symm.trans hcpn')
      exact (h.once_iff hlast hend hwalk).mpr fun _ _ => ht.down
    · intro m
      simpa using hmodules m

theorem Recorded.reportCovers_iff (h : Recorded s) {i : Int}
    {qsort : List (Option ModuleCp) → List (Option ModuleCp)} (hqsort : ∀ l, (qsort l).Perm l) :
    ReportCovers qsort i s.cpNodes ↔
      s.cpNodes = [] ∨ Traceable s.cpNodes i (s.cpNodes.length - 1) := by
  by_cases hnil : s.cpNodes = []
  · refine iff_of_true ?_ (.inl hnil)
    rw [hnil]
    refine ⟨0, [], [], qsort [], rfl, rfl, ?_, ?_, ?_, List.nodup_nil, hqsort []⟩
    · intro cpn hcpn
      exact absurd hcpn (by simp)
    · intro cpn hcpn
      exact absurd hcpn (by simp)
    · intro m
      exact Iff.rfl
  · have hpos := List.length_pos_iff.mpr hnil
    have hend : s.cpNodes.length - 1 + 1 = s.cpNodes.length := by omega
    have hlt : s.cpNodes.length - 1 < s.cpNodes.length := by omega
    have hlast : s.cpNodes[s.cpNodes.length - 1]? = some s.cpNodes[s.cpNodes.length - 1] :=
      List.getElem?_eq_getElem hlt
    have htail : tailQueue s.cpNodes = some (s.cpNodes.length - 1) := if_neg hnil
    rw [or_iff_right hnil]
    constructor
    · rintro ⟨fuel, path, visited, lines, hwalk, htable, hcovers⟩
      rw [htail] at hwalk
      obtain ⟨hpath, hfuel⟩ := walks_of_walk hwalk
      have hvisited := walk_of_walks hpath fuel hfuel 0 []
      rw [hwalk, Option.some.injEq, Prod.mk.injEq] at hvisited
      rw [hvisited.2] at htable hcovers
      exact (h.covers_iff hqsort hlast hend hpath).mp ⟨lines, htable, hcovers⟩
    · intro ht
      obtain ⟨path, hpath⟩ := h.exists_walks_of_traceable hlt ht
      obtain ⟨lines, htable, hcovers⟩ := (h.covers_iff hqsort hlast hend hpath).mpr ht
      refine ⟨path.length, path, _, lines, ?_, htable, hcovers⟩
      rw [htail]
      exact walk_of_walks hpath path.length le_rfl 0 []

/-- For every recorded graph, the report covers the run exactly if nothing has been recorded or the
way back from the last node is traceable. -/
theorem reportCovers_run_iff {tr : List (Transition State Call)} {i : Int}
    {qsort : List (Option ModuleCp) → List (Option ModuleCp)}
    (hrun : Run (ofPartial step) State.init tr s) (hqsort : ∀ l, (qsort l).Perm l) :
    ReportCovers qsort i s.cpNodes ↔
      s.cpNodes = [] ∨ Traceable s.cpNodes i (s.cpNodes.length - 1) :=
  (recorded_run hrun).reportCovers_iff hqsort

end

def sentOnce : Option (List (Transition State Call) × State) :=
  exec step State.init [.elapse 1, .node 1 (some ⟨20, 1⟩) .work, .node 0 (some ⟨20, 1⟩) .block,
    .relation 0 1, .elapse 2, .node 0 (some ⟨20, 1⟩) .work]

def sentOnceNodes : List CpNode :=
  [⟨none, none, .work, ⟨20, 1⟩, 1⟩, ⟨none, some 0, .block, ⟨20, 1⟩, 1⟩,
    ⟨some 1, none, .work, ⟨20, 1⟩, 2⟩]

theorem back_sentOnce {c c' : Nat} (h : Back sentOnceNodes c c') : c = 2 ∧ c' = 0 := by
  obtain ⟨cpn, p, cpnp, hc, hp, hcp, hnext⟩ := h
  have hlt : c < 3 := (List.getElem?_eq_some_iff.mp hc).1
  obtain rfl | rfl | rfl : c = 0 ∨ c = 1 ∨ c = 2 := by omega
  · rw [← Option.some.inj hc] at hp
    exact absurd hp (by simp)
  · rw [← Option.some.inj hc] at hp
    exact absurd hp (by simp)
  · rw [← Option.some.inj hc] at hp
    obtain rfl : 1 = p := Option.some.inj hp
    rw [← Option.some.inj hcp] at hnext
    exact ⟨rfl, (Option.some.inj hnext).symm⟩

theorem reach_sentOnce {c : Nat} (h : ReflTransGen (Back sentOnceNodes) 2 c) : c = 2 ∨ c = 0 := by
  rcases ReflTransGen.cases_tail h with heq | ⟨d, -, hdc⟩
  · exact .inl heq
  · exact .inr (back_sentOnce hdc).2

theorem traceable_sentOnce : Traceable sentOnceNodes 0 2 where
  sent c hc := by
    intro cpn p cpnp hcpn hp hcp _
    rcases reach_sentOnce hc with rfl | rfl
    · rw [← Option.some.inj hcpn] at hp
      obtain rfl : 1 = p := Option.some.inj hp
      rw [← Option.some.inj hcp]
      exact ⟨0, _, rfl, rfl, le_rfl⟩
    · rw [← Option.some.inj hcpn] at hp
      exact absurd hp (by simp)
  acyclic c _ hcycle := by
    obtain ⟨d, hcd, hdc⟩ := TransGen.head'_iff.mp hcycle
    obtain ⟨rfl, rfl⟩ := back_sentOnce hcd
    rcases ReflTransGen.cases_head hdc with heq | ⟨e, hde, -⟩
    · exact absurd heq (by decide)
    · exact absurd (back_sentOnce hde).1 (by decide)
  oneModule c hc := by
    rcases reach_sentOnce hc with rfl | rfl <;> rfl
  index := rfl

theorem reportCovers_sentOnce : ReportCovers id 0 (sentOnce.get rfl).2.cpNodes :=
  (reportCovers_run_iff (run_exec_get rfl) fun _ => List.Perm.refl _).mpr (.inr traceable_sentOnce)

/-- Thread 0 is blocked at a node whose partner has no node. -/
def senderless : Option (List (Transition State Call) × State) :=
  exec step State.init [.elapse 1, .node 0 (some ⟨20, 1⟩) .block, .relation 0 1, .elapse 2,
    .node 0 (some ⟨20, 1⟩) .work]

def twoModules : Option (List (Transition State Call) × State) :=
  exec step State.init [.elapse 1, .node 0 (some ⟨20, 1⟩) .work, .elapse 2,
    .node 0 (some ⟨20, 2⟩) .work]

/-- The walk reads the null pointer of a missing sender, and two modules share a slot of the table
whatever the index is. -/
theorem not_reportCovers :
    ¬ ReportCovers id 0 (senderless.get rfl).2.cpNodes ∧
      ∀ i, ¬ ReportCovers id i (twoModules.get rfl).2.cpNodes := by
  have hid (l : List (Option ModuleCp)) : (id l).Perm l := List.Perm.refl l
  constructor
  · intro h
    have hrec := recorded_run (run_exec_get (show senderless.isSome = true from rfl))
    rcases (hrec.reportCovers_iff hid).mp h with hnil | ht
    · exact absurd hnil (List.cons_ne_nil _ _)
    · obtain ⟨s, -, hs, -⟩ := ht.sent 1 .refl _ 0 _ rfl rfl rfl rfl
      exact absurd (show none = some s from hs) (by simp)
  · intro i h
    have hrec := recorded_run (run_exec_get (show twoModules.isSome = true from rfl))
    rcases (hrec.reportCovers_iff hid).mp h with hnil | ht
    · exact absurd hnil (List.cons_ne_nil _ _)
    · have hback : Back (twoModules.get rfl).2.cpNodes 1 0 := ⟨_, 0, _, rfl, rfl, rfl, rfl⟩
      have hsame := ht.oneModule 0 (.single hback)
      exact absurd hsame (by decide)

end Dimemas.Utils.CriticalPath
