import Dimemas.Library.CycleSearch
import Dimemas.Utils.DependencyLists
/-!
# Where a deadlock is broken

`_get_earlier_task_index` and `breakChainFrom`, and the runs of the calls that the analysis makes on
the graph. The dependencies do not keep the simulated time of their event, so the arc of a chain that
is taken is the first one.
-/

namespace Dimemas.Utils.DeadlockBreak

open Dimemas.Library.CycleSearch
open Dimemas.Library.LinkedList
open Dimemas.Library.Transitions
open Dimemas.Utils.Graph (DepType)
open Dimemas.Utils.DependencyLists

variable {n : Nat}

/-- The graph with the simulated times of the events that added the dependencies, which the code does
not keep. -/
structure Clocked (n : Nat) where
  graph : LinkedGraph n
  created : Nat → ℚ

/-- The calls that `DEADLOCK_new_communic_event` makes. A blocking dependency is that of a SEND, RECV
or WAIT or of a global operation, and only soft dependencies get another action. -/
def allowed (g : LinkedGraph n) : Operation n → Bool
  | .add _ _ .strg thread => thread.action = 2 || thread.action = 3 || thread.action = 15
  | .add _ _ .glop thread => thread.action = 11
  | .change d _ => (g.heap.cells d).all fun dep => dep.content.type = .soft
  | _ => true

def clockedNext (s : Clocked n) (l : ℚ × Operation n) : Option (Clocked n) :=
  if allowed s.graph l.2 then
    (next s.graph l.2).map fun g =>
      match l.2 with
      | .add _ _ _ _ => ⟨g, Function.update s.created s.graph.heap.brk l.1⟩
      | _ => ⟨g, s.created⟩
  else none

def clockedInit : Clocked n := ⟨graphInit, fun _ => 0⟩

def blockingFrom (h : Heap (Fin n) (Info n)) : Nat → Option Nat → List (Fin n)
  | _, none => []
  | 0, some _ => []
  | fuel + 1, some d =>
      match h.cells d with
      | none => []
      | some dep =>
          if dep.content.type = .strg || dep.content.type = .glop then
            dep.key :: blockingFrom h fuel dep.next
          else blockingFrom h fuel dep.next

def targets (g : LinkedGraph n) (i : Fin n) : List (Fin n) :=
  blockingFrom g.heap (loopFuel (g.map i)) (g.map i).firstDep

/-- `GRAPH_look_for_cycle` with a stack of some depth. -/
def lookForCycle (g : LinkedGraph n) (root : Fin n) (depth : Nat) (chain : Nat → Fin n) :
    Option (Found (Fin n)) :=
  searchCycle (targets g) root depth chain

/-- `STRG_DEP|GLOP_DEP`, `GRAPH_ALL_ACTIONS`, `TAG_ALL` and `COMMUNIC_ID_ALL`. -/
def chainQuery (toTask : Fin n) : Query n := ⟨toTask, 5, 4294967295, -1, -1⟩

def chainArc (g : LinkedGraph n) (chain : Nat → Fin n) (i : Nat) : Option (Nat × Info n) := do
  let found ← getDependency g (chain i) (chainQuery (chain (i + 1)))
  let d ← found
  let dep ← g.heap.cells d
  some (d, dep.content)

/-- The loop of `_get_earlier_task_index` over the first arcs: the index and the time of the earlier
one. -/
def earlierLoop (g : LinkedGraph n) (chain : Nat → Fin n) (ignoreGlops : Bool) :
    Nat → Option (Option (Nat × ℚ))
  | 0 => some none
  | i + 1 => do
      let earlier ← earlierLoop g chain ignoreGlops i
      let (_, dep) ← chainArc g chain i
      match earlier with
      | none => some (some (i, dep.time))
      | some (index, time) =>
          if dep.time < time && (dep.action ≠ 11 || !ignoreGlops) then some (some (i, dep.time))
          else some (some (index, time))

/-- `_get_earlier_task_index`. The index of a chain without arcs is -1. -/
def getEarlierTaskIndex (g : LinkedGraph n) (chain : Nat → Fin n) (deepness : Nat)
    (ignoreGlops : Bool) : Option (Option Nat) :=
  (earlierLoop g chain ignoreGlops (deepness - 1)).map fun earlier => earlier.map Prod.fst

/-- The counters of `struct t_estats` that are read. -/
inductive Counter
  | pendentISend
  | pendentIRecv
  | pendentGlop
deriving DecidableEq, Repr

abbrev EstatsPerRank (n : Nat) := Fin n → Counter → UInt32

def counterOf (action : UInt32) : Option Counter :=
  if action = 2 ∨ action = 1001 then some .pendentISend
  else if action = 14 ∨ action = 3 ∨ action = 15 then some .pendentIRecv
  else if action = 11 then some .pendentGlop
  else none

/-- The variables of `breakChainFrom`. The maximum is compared as an unsigned integer. -/
structure Choice (n : Nat) where
  pendentPointer : Option (Fin n × Counter)
  maxPendent : UInt32
  positionChosedThread : Nat
  sumPendentGlops : UInt32

/-- The loop of `breakChainFrom` over the first arcs. -/
def choiceLoop (g : LinkedGraph n) (estats : EstatsPerRank n) (chain : Nat → Fin n) :
    Nat → Option (Choice n)
  | 0 => some ⟨none, 0, 0, 0⟩
  | i + 1 => do
      let c ← choiceLoop g estats chain i
      let (_, dep) ← chainArc g chain i
      let counter ← counterOf dep.action
      let pendent := estats (chain i) counter
      let sum := if counter = .pendentGlop then c.sumPendentGlops + pendent else c.sumPendentGlops
      if c.maxPendent < pendent then some ⟨some (chain i, counter), pendent, i, sum⟩
      else some { c with sumPendentGlops := sum }

def decrement (estats : EstatsPerRank n) (rank : Fin n) (counter : Counter) : EstatsPerRank n :=
  Function.update estats rank
    (Function.update (estats rank) counter (estats rank counter - 1))

/-- `breakChainFrom` behind the parsing of the statistics: the position and the statistics. -/
def breakChainFrom (g : LinkedGraph n) (estats : EstatsPerRank n) (chain : Nat → Fin n)
    (size : Nat) : Option (Option Nat × EstatsPerRank n) := do
  let c ← choiceLoop g estats chain (size - 1)
  match c.pendentPointer with
  | none =>
      (getEarlierTaskIndex g chain size (c.sumPendentGlops = 0)).map fun index => (index, estats)
  | some (rank, counter) => some (some c.positionChosedThread, decrement estats rank counter)

/-! ## What the positions are -/

/-- With `ignore_glops` an arc of a global operation is admissible only if there is no other arc. -/
def Admissible (g : LinkedGraph n) (res : Found (Fin n)) (ignoreGlops : Bool) (i : Nat) : Prop :=
  i < res.size - 1 ∧ ∃ arc, chainArc g res.chain i = some arc ∧
    (ignoreGlops → arc.2.action = 11 →
      ∀ j < res.size - 1, ∀ other, chainArc g res.chain j = some other → other.2.action = 11)

def arcTime (s : Clocked n) (chain : Nat → Fin n) (i : Nat) : ℚ :=
  ((chainArc s.graph chain i).map fun arc => s.created arc.1).getD 0

/-- No admissible arc was added before the one at a position, which is admissible. -/
def Earliest (s : Clocked n) (res : Found (Fin n)) (ignoreGlops : Bool) (p : Nat) : Prop :=
  Admissible s.graph res ignoreGlops p ∧
    ∀ i, Admissible s.graph res ignoreGlops i → arcTime s res.chain p ≤ arcTime s res.chain i

def pendentAt (g : LinkedGraph n) (estats : EstatsPerRank n) (chain : Nat → Fin n) (i : Nat) :
    Option (Counter × UInt32) := do
  let (_, dep) ← chainArc g chain i
  let counter ← counterOf dep.action
  some (counter, estats (chain i) counter)

/-- A position with the largest counter is returned, and that counter is decremented. -/
def LargestTaken (g : LinkedGraph n) (estats : EstatsPerRank n) (res : Found (Fin n)) : Prop :=
  ∃ p < res.size - 1, ∃ counter value, pendentAt g estats res.chain p = some (counter, value) ∧
    breakChainFrom g estats res.chain res.size =
      some (some p, decrement estats (res.chain p) counter) ∧
    ∀ i < res.size - 1, ∀ other, pendentAt g estats res.chain i = some other → other.2 ≤ value

/-- A deadlock is broken at the earliest admissible arc, or at the one with the largest counter if
there is a positive one. -/
structure BrokenAtOldest (s : Clocked n) (res : Found (Fin n)) (ignoreGlops : Bool)
    (estats : EstatsPerRank n) : Prop where
  earlier : ∃ p, getEarlierTaskIndex s.graph res.chain res.size ignoreGlops = some (some p) ∧
    Earliest s res ignoreGlops p
  largest : (∃ i < res.size - 1, ∃ pendent,
      pendentAt s.graph estats res.chain i = some pendent ∧ 0 < pendent.2) →
    LargestTaken s.graph estats res

section

variable {g : LinkedGraph n} {lists : Fin n → List (Dep n)} {s : Clocked n} {res : Found (Fin n)}
  {i j : Fin n} {estats : EstatsPerRank n} {chain : Nat → Fin n}

/-! ## The dependencies of a run -/

def blocks (d : Info n) : Bool := d.type = .strg || d.type = .glop

/-- The time is that of no event, and a blocking dependency has an action with a counter. -/
def InfoOk (d : Info n) : Prop :=
  d.time = 0 ∧ (blocks d → d.action = 2 ∨ d.action = 3 ∨ d.action = 15 ∨ d.action = 11)

def GraphOk (g : LinkedGraph n) : Prop :=
  ∃ lists, GraphRep g lists ∧ (∀ i, Ordered (lists i)) ∧ ∀ i, ∀ x ∈ lists i, InfoOk x.2.2

theorem infoOk_newInfo {fromTask toTask : Fin n} {type : DepType} {thread : ThreadAction}
    (hallowed : allowed g (.add fromTask toTask type thread)) :
    InfoOk (newInfo fromTask type thread) := by
  refine ⟨rfl, fun hblocks => ?_⟩
  have haction : (newInfo fromTask type thread).action = thread.action := rfl
  rw [haction]
  cases type with
  | strg =>
      simp only [allowed, Bool.or_eq_true, decide_eq_true_eq] at hallowed
      tauto
  | soft => cases hblocks
  | glop =>
      simp only [allowed, decide_eq_true_eq] at hallowed
      tauto

theorem infoOk_withAction {d : Nat} {newAction : UInt32} {x : Dep n} (hrep : GraphRep g lists)
    (hallowed : allowed g (.change d newAction)) (hx : x ∈ lists i) (hok : InfoOk x.2.2) :
    InfoOk (withAction d newAction x).2.2 := by
  unfold withAction
  split
  · next hd =>
      refine ⟨hok.1, fun hblocks => ?_⟩
      obtain ⟨c, hc, -, hcontent⟩ := cell_of_mem (hrep.list i).seg hx
      rw [hd] at hc
      simp only [allowed, hc, Option.all_some, decide_eq_true_eq, hcontent] at hallowed
      have hblocks : blocks x.2.2 := hblocks
      rw [blocks, hallowed] at hblocks
      cases hblocks
  · exact hok

theorem graphOk_step {s' : Clocked n} {l : ℚ × Operation n} (hok : GraphOk s.graph)
    (hstep : ofPartial clockedNext s l s') : GraphOk s'.graph := by
  obtain ⟨lists, hrep, hordered, hinfo⟩ := hok
  unfold ofPartial clockedNext at hstep
  split at hstep
  · next hallowed =>
      obtain ⟨g, hnext, hs'⟩ := Option.map_eq_some_iff.mp hstep
      have hgraph : s'.graph = g := by
        rw [← hs']
        split <;> rfl
      obtain ⟨lists', hrep', hordered', hcomes⟩ := hrep.next hordered hnext
      rw [hgraph]
      refine ⟨lists', hrep', hordered', fun i x hx => ?_⟩
      have hfrom := hcomes i x hx
      generalize l.2 = op at hallowed hfrom
      cases op with
      | add fromTask toTask type thread =>
          rcases hfrom with hx | rfl
          · exact hinfo i x hx
          · exact infoOk_newInfo hallowed
      | remove d => exact hinfo i x hfrom
      | change d newAction =>
          rcases hfrom with hx | ⟨y, hy, rfl⟩
          · exact hinfo i x hx
          · exact infoOk_withAction hrep hallowed hy (hinfo i y hy)
      | reset => cases hfrom
  · cases hstep

/-! ## The arcs of a chain -/

theorem blockingFrom_eq {h : Heap (Fin n) (Info n)} {back start last : Option Nat}
    {xs : List (Dep n)} {fuel : Nat} (hseg : Seg h back start xs last none)
    (hfuel : xs.length < fuel) :
    blockingFrom h fuel start = (xs.filter fun x => blocks x.2.2).map fun x => x.2.1 := by
  induction xs generalizing back start fuel with
  | nil =>
      rw [hseg.1]
      cases fuel <;> rfl
  | cons x xs ih =>
      obtain ⟨a, k, c⟩ := x
      obtain ⟨rfl, m, hcell, htail⟩ := hseg
      cases fuel with
      | zero => cases hfuel
      | succ fuel =>
          simp only [blockingFrom, hcell, ih htail (Nat.lt_of_succ_lt_succ hfuel)]
          by_cases hblocks : blocks c
          · rw [List.filter_cons_of_pos (by simpa using hblocks)]
            exact if_pos hblocks
          · rw [List.filter_cons_of_neg (by simpa using hblocks)]
            exact if_neg hblocks

theorem mem_targets (hrep : GraphRep g lists) :
    j ∈ targets g i ↔ ∃ x ∈ lists i, blocks x.2.2 ∧ x.2.1 = j := by
  have hlist := hrep.list i
  rw [targets, blockingFrom_eq hlist.seg (length_lt_loopFuel hlist.count)]
  simp [and_assoc]

theorem asksFor_chainQuery {toTask : Fin n} {d : Info n} :
    (chainQuery j).asksFor toTask d ↔ toTask = j ∧ blocks d ∧ d.action ≠ 0 := by
  have hmask : mask d.type &&& 5 ≠ 0 ↔ blocks d := by
    unfold blocks
    cases d.type <;> decide
  have hall : d.action &&& 4294967295 = d.action := UInt32.and_neg_one
  have hsame : (chainQuery j).sameChannel d = true := rfl
  rw [Query.asksFor, hsame, Bool.and_true, Query.selects, ← hmask]
  simp only [chainQuery, hall, Bool.and_eq_true, decide_eq_true_eq, and_assoc]
  exact and_congr decide_eq_true_iff (and_congr decide_eq_true_iff Iff.rfl)

theorem chainArc_eq {k d : Nat} {dep : Cell (Fin n) (Info n)}
    (hget : getDependency g (chain k) (chainQuery (chain (k + 1))) = some (some d))
    (hdep : g.heap.cells d = some dep) : chainArc g chain k = some (d, dep.content) := by
  simp only [chainArc, hget, Option.bind_eq_bind, Option.bind_some, hdep]

theorem chainArc_of_mem (hok : GraphOk g) {k : Nat} (hmem : chain (k + 1) ∈ targets g (chain k)) :
    ∃ arc, chainArc g chain k = some arc ∧ arc.2.time = 0 ∧
      (arc.2.action = 2 ∨ arc.2.action = 3 ∨ arc.2.action = 15 ∨ arc.2.action = 11) := by
  obtain ⟨lists, hrep, hordered, hinfo⟩ := hok
  obtain ⟨x, hx, hblocks, hto⟩ := (mem_targets hrep).mp hmem
  have hne : x.2.2.action ≠ 0 := by
    rcases (hinfo _ x hx).2 hblocks with h | h | h | h <;> rw [h] <;> decide
  have hsome : ((lists (chain k)).find? fun x =>
      (chainQuery (chain (k + 1))).asksFor x.2.1 x.2.2).isSome := by
    rw [List.find?_isSome]
    exact ⟨x, hx, asksFor_chainQuery.mpr ⟨hto, hblocks, hne⟩⟩
  obtain ⟨y, hy⟩ := Option.isSome_iff_exists.mp hsome
  have hmem := List.mem_of_find?_eq_some hy
  have hasks : (chainQuery (chain (k + 1))).asksFor y.2.1 y.2.2 = true :=
    List.find?_some (p := fun x : Dep n => (chainQuery (chain (k + 1))).asksFor x.2.1 x.2.2) hy
  obtain ⟨-, hyblocks, -⟩ := asksFor_chainQuery.mp hasks
  obtain ⟨c, hc, -, hcontent⟩ := cell_of_mem (hrep.list (chain k)).seg hmem
  have hget := hrep.getDependency (hordered (chain k)) (chainQuery (chain (k + 1)))
  rw [hy] at hget
  refine ⟨(y.1, y.2.2), ?_, (hinfo _ y hmem).1, (hinfo _ y hmem).2 hyblocks⟩
  rw [← hcontent]
  exact chainArc_eq hget hc

theorem chainArc_of_found (hok : GraphOk g) {root : Fin n} {depth : Nat} {before : Nat → Fin n}
    (hlook : lookForCycle g root depth before = some res) (hfound : res.found = true) {k : Nat}
    (hk : k < res.size - 1) :
    ∃ arc, chainArc g res.chain k = some arc ∧ arc.2.time = 0 ∧
      (arc.2.action = 2 ∨ arc.2.action = 3 ∨ arc.2.action = 15 ∨ arc.2.action = 11) := by
  have hchain := cycleChain_of_searchCycle hlook hfound
  have harc : res.chain (k + 1) ∈ targets g (res.chain k) := hchain.arcs k (by omega)
  exact chainArc_of_mem hok harc

/-! ## The two loops -/

/-- All times are equal, so the first arc stays the earlier one. -/
theorem earlierLoop_eq {ignoreGlops : Bool} {k : Nat}
    (harcs : ∀ i ≤ k, ∃ arc, chainArc g chain i = some arc ∧ arc.2.time = 0) :
    earlierLoop g chain ignoreGlops (k + 1) = some (some (0, 0)) := by
  induction k with
  | zero =>
      obtain ⟨arc, harc, htime⟩ := harcs 0 (Nat.le_refl 0)
      simp only [earlierLoop, harc, Option.bind_eq_bind, Option.bind_some, htime]
  | succ k ih =>
      have hloop := ih fun i hi => harcs i (Nat.le_succ_of_le hi)
      obtain ⟨arc, harc, htime⟩ := harcs (k + 1) (Nat.le_refl _)
      rw [earlierLoop, hloop]
      simp only [harc, Option.bind_eq_bind, Option.bind_some, htime, lt_self_iff_false,
        decide_false, Bool.false_and, Bool.false_eq_true, if_false]

theorem getEarlierTaskIndex_eq {ignoreGlops : Bool} {size : Nat} (hsize : 1 < size)
    (harcs : ∀ i < size - 1, ∃ arc, chainArc g chain i = some arc ∧ arc.2.time = 0) :
    getEarlierTaskIndex g chain size ignoreGlops = some (some 0) := by
  obtain ⟨k, hk⟩ := Nat.exists_eq_add_of_lt hsize
  rw [getEarlierTaskIndex, show size - 1 = k + 1 by omega, earlierLoop_eq]
  · rfl
  · exact fun i hi => harcs i (by omega)

/-- What the loop has chosen: nothing while all counters are zero, and then the largest one. -/
structure Chosen (g : LinkedGraph n) (estats : EstatsPerRank n) (chain : Nat → Fin n) (k : Nat)
    (c : Choice n) : Prop where
  none : c.pendentPointer = none → c.maxPendent = 0
  some : ∀ rank counter, c.pendentPointer = some (rank, counter) →
    c.positionChosedThread < k ∧ rank = chain c.positionChosedThread ∧
      pendentAt g estats chain c.positionChosedThread = some (counter, c.maxPendent)
  le : ∀ i < k, ∀ other, pendentAt g estats chain i = Option.some other → other.2 ≤ c.maxPendent

theorem choiceLoop_spec {k : Nat}
    (harcs : ∀ i < k, ∃ counter value, pendentAt g estats chain i = some (counter, value)) :
    ∃ c, choiceLoop g estats chain k = some c ∧ Chosen g estats chain k c := by
  induction k with
  | zero =>
      refine ⟨_, rfl, fun _ => rfl, fun rank counter h => ?_, fun i hi => ?_⟩
      · cases h
      · cases hi
  | succ k ih =>
      obtain ⟨c, hloop, hchosen⟩ := ih fun i hi => harcs i (Nat.lt_succ_of_lt hi)
      obtain ⟨counter, value, hpendent⟩ := harcs k (Nat.lt_succ_self k)
      obtain ⟨arc, harc, hrest⟩ := Option.bind_eq_some_iff.mp hpendent
      obtain ⟨counter', hcounter, heq⟩ := Option.bind_eq_some_iff.mp hrest
      cases heq
      rw [choiceLoop, hloop]
      simp only [harc, hcounter, Option.bind_eq_bind, Option.bind_some]
      split
      · next hlt =>
          refine ⟨_, rfl, ?_, ?_, ?_⟩
          · intro h
            cases h
          · intro rank counter h
            cases h
            exact ⟨Nat.lt_succ_self k, rfl, hpendent⟩
          · intro i hi other hother
            rcases Nat.lt_succ_iff_lt_or_eq.mp hi with hi | rfl
            · exact UInt32.le_trans (hchosen.le i hi other hother) (UInt32.le_of_lt hlt)
            · rw [hpendent] at hother
              cases hother
              exact UInt32.le_refl _
      · next hge =>
          refine ⟨_, rfl, hchosen.none, ?_, ?_⟩
          · intro rank counter h
            obtain ⟨hlt, hrank, hvalue⟩ := hchosen.some rank counter h
            exact ⟨Nat.lt_succ_of_lt hlt, hrank, hvalue⟩
          · intro i hi other hother
            rcases Nat.lt_succ_iff_lt_or_eq.mp hi with hi | rfl
            · exact hchosen.le i hi other hother
            · rw [hpendent] at hother
              cases hother
              exact UInt32.not_lt.mp hge

theorem pendentAt_of_arc {k : Nat} {arc : Nat × Info n} (harc : chainArc g chain k = some arc)
    (haction : arc.2.action = 2 ∨ arc.2.action = 3 ∨ arc.2.action = 15 ∨ arc.2.action = 11) :
    ∃ counter value, pendentAt g estats chain k = some (counter, value) := by
  have hcounter : ∃ counter, counterOf arc.2.action = some counter := by
    rcases haction with h | h | h | h <;> rw [h]
    · exact ⟨.pendentISend, rfl⟩
    · exact ⟨.pendentIRecv, rfl⟩
    · exact ⟨.pendentIRecv, rfl⟩
    · exact ⟨.pendentGlop, rfl⟩
  obtain ⟨counter, hcounter⟩ := hcounter
  refine ⟨counter, estats (chain k) counter, ?_⟩
  simp only [pendentAt, harc, hcounter, Option.bind_eq_bind, Option.bind_some]

theorem largestTaken
    (harcs : ∀ i < res.size - 1, ∃ counter value,
      pendentAt g estats res.chain i = some (counter, value))
    (hpositive : ∃ i < res.size - 1, ∃ pendent,
      pendentAt g estats res.chain i = some pendent ∧ 0 < pendent.2) :
    LargestTaken g estats res := by
  obtain ⟨c, hloop, hchosen⟩ := choiceLoop_spec harcs
  obtain ⟨i, hi, pendent, hpendent, hpos⟩ := hpositive
  have hmax : 0 < c.maxPendent := UInt32.lt_of_lt_of_le hpos (hchosen.le i hi pendent hpendent)
  cases hpointer : c.pendentPointer with
  | none =>
      have hzero := hchosen.none hpointer
      rw [hzero] at hmax
      cases UInt32.lt_irrefl _ hmax
  | some pointer =>
      obtain ⟨rank, counter⟩ := pointer
      obtain ⟨hlt, rfl, hvalue⟩ := hchosen.some rank counter hpointer
      refine ⟨c.positionChosedThread, hlt, counter, c.maxPendent, hvalue, ?_, hchosen.le⟩
      simp only [breakChainFrom, hloop, Option.bind_eq_bind, Option.bind_some, hpointer]

end

/-- The chain of a reported deadlock is broken as it should be exactly if its first arc is admissible
and no admissible arc was added before it. -/
theorem brokenAtOldest_iff {s : Clocked n} {tr : List (Transition (Clocked n) (ℚ × Operation n))}
    (hrun : Run (ofPartial clockedNext) clockedInit tr s) {root : Fin n} {depth : Nat}
    {before : Nat → Fin n} {res : Found (Fin n)}
    (hlook : lookForCycle s.graph root depth before = some res) (hfound : res.found = true)
    (ignoreGlops : Bool) (estats : EstatsPerRank n) :
    BrokenAtOldest s res ignoreGlops estats ↔ Earliest s res ignoreGlops 0 := by
  have hok : GraphOk s.graph := hrun.invariant (I := fun s => GraphOk s.graph)
    ⟨fun _ => [], graphRep_graphInit, fun _ => ⟨.nil, .nil⟩, fun _ x hx => by cases hx⟩
    fun _ _ _ hok hstep => graphOk_step hok hstep
  have harcs := fun k => @chainArc_of_found n s.graph res hok root depth before hlook hfound k
  have hsize := (cycleChain_of_searchCycle hlook hfound).size
  have hindex : getEarlierTaskIndex s.graph res.chain res.size ignoreGlops = some (some 0) := by
    apply getEarlierTaskIndex_eq hsize
    intro i hi
    obtain ⟨arc, harc, htime, -⟩ := harcs i hi
    exact ⟨arc, harc, htime⟩
  constructor
  · rintro ⟨⟨p, hp, hearliest⟩, -⟩
    rw [hindex] at hp
    cases hp
    exact hearliest
  · intro hearliest
    refine ⟨⟨0, hindex, hearliest⟩, fun hpositive => largestTaken ?_ hpositive⟩
    intro i hi
    obtain ⟨arc, harc, -, haction⟩ := harcs i hi
    exact pendentAt_of_arc harc haction

def low : Fin 2 := ⟨0, Nat.two_pos⟩

def high : Fin 2 := ⟨1, Nat.one_lt_two⟩

def twoSends (time : ℚ) : Clocked 2 :=
  ((exec clockedNext (clockedInit : Clocked 2)
    [(1, .add low high .strg sendAction), (time, .add high low .strg sendAction)]).get rfl).2

def twoChain (time : ℚ) : Found (Fin 2) :=
  (lookForCycle (twoSends time).graph high 3 fun _ => high).get rfl

theorem run_twoSends (time : ℚ) :
    ∃ tr, Run (ofPartial clockedNext) clockedInit tr (twoSends time) :=
  ⟨_, run_exec_get rfl⟩

theorem admissible_twoSends (time : ℚ) {i : Nat} (hi : i < 2) :
    Admissible (twoSends time).graph (twoChain time) false i := by
  have hzero : (twoChain time).chain 0 = high := rfl
  have hone : (twoChain time).chain 1 = low := rfl
  have htwo : (twoChain time).chain 2 = high := rfl
  refine ⟨hi, ?_⟩
  cases i with
  | zero =>
      have hget : getDependency (twoSends time).graph ((twoChain time).chain 0)
          (chainQuery ((twoChain time).chain (0 + 1))) = some (some 1) := by
        rw [hzero, hone]
        rfl
      exact ⟨_, chainArc_eq hget rfl, fun h => nomatch h⟩
  | succ i =>
      obtain rfl : i = 0 := by omega
      have hget : getDependency (twoSends time).graph ((twoChain time).chain (0 + 1))
          (chainQuery ((twoChain time).chain (0 + 1 + 1))) = some (some 0) := by
        rw [hone, htwo]
        rfl
      exact ⟨_, chainArc_eq hget rfl, fun h => nomatch h⟩

theorem brokenAtOldest_twoSends :
    BrokenAtOldest (twoSends 1) (twoChain 1) false fun _ _ => 0 := by
  obtain ⟨tr, hrun⟩ := run_twoSends 1
  apply (brokenAtOldest_iff hrun (Option.some_get rfl).symm rfl false fun _ _ => 0).mpr
  refine ⟨admissible_twoSends 1 Nat.two_pos, fun i hi => ?_⟩
  have hlt : i < 2 := hi.1
  cases i with
  | zero => exact le_refl _
  | succ i =>
      obtain rfl : i = 0 := by omega
      exact le_refl (1 : ℚ)

/-- The arc of the later event is taken. -/
theorem not_brokenAtOldest :
    ¬ ∀ (n : Nat) (s : Clocked n) (tr : List (Transition (Clocked n) (ℚ × Operation n))),
      Run (ofPartial clockedNext) clockedInit tr s → ∀ (root : Fin n) (depth : Nat)
        (before : Nat → Fin n) (res : Found (Fin n)),
        lookForCycle s.graph root depth before = some res → res.found = true →
          ∀ (ignoreGlops : Bool) (estats : EstatsPerRank n),
            BrokenAtOldest s res ignoreGlops estats := by
  intro h
  obtain ⟨tr, hrun⟩ := run_twoSends 2
  obtain ⟨⟨p, hp, hearliest⟩, -⟩ := h 2 (twoSends 2) tr hrun high 3 _ (twoChain 2)
    (Option.some_get rfl).symm rfl false fun _ _ => 0
  have hindex : getEarlierTaskIndex (twoSends 2).graph (twoChain 2).chain (twoChain 2).size false =
      some (some 0) := rfl
  rw [hindex] at hp
  cases hp
  have hle : (2 : ℚ) ≤ 1 := hearliest.2 1 (admissible_twoSends 2 Nat.one_lt_two)
  exact absurd hle (by decide)

end Dimemas.Utils.DeadlockBreak
