import Mathlib.Algebra.Order.Ring.Rat
import Dimemas.Library.Transitions
import Dimemas.Utils.Graph
/-!
# The deadlock analysis

`DEADLOCK_new_communic_event` and the functions that it calls, and the runs of the analysis: a
search follows every event that adds a blocking dependency, so there is no cycle before an event.
-/

namespace Dimemas.Utils.DeadlockAnalysis

open Relation
open Dimemas.Library.CycleSearch
open Dimemas.Library.Transitions
open Dimemas.Utils.Graph

/-- The operations that are given to the analysis. A message has a peer and a channel, which is
its tag and its communicator. -/
inductive Operation (n : Nat)
  | send (dest : Fin n) (channel : Int × Nat) (rendezVous : Bool)
  | recv (ori : Fin n) (channel : Int × Nat)
  | irecv (ori : Fin n) (channel : Int × Nat)
  | wait (ori : Fin n) (channel : Int × Nat)
  | globalOp (glopId commId : Nat)
deriving DecidableEq, Repr

/-- What follows the update of the graph. In one case it is asserted that the search finds a
cycle. -/
inductive Outcome
  | goesOn
  | looks
  | mustFind
deriving DecidableEq, Repr

variable {n : Nat}

/-- The dependency of `GRAPH_add_dependency` for a message. -/
def messageDependency (toTask : Fin n) (type : DepType) (action : DepAction)
    (channel : Int × Nat) : Dependency n where
  toTask := toTask
  type := type
  action := action
  channel := channel
  globalOp := 0

/-- The dependency of `GRAPH_add_dependency` for a global operation. -/
def globalDependency (toTask : Fin n) (glopId : Nat) : Dependency n where
  toTask := toTask
  type := .glop
  action := .globalOp
  channel := (0, 0)
  globalOp := glopId

def messageQuery (toTask : Fin n) (type : DepType) (action : Nat) (channel : Int × Nat) :
    Query n where
  toTask := toTask
  type := type
  action := action
  channel := some channel

def globalQuery (toTask : Fin n) : Query n where
  toTask := toTask
  type := .glop
  action := DepAction.globalOp.code
  channel := none

def newSend (g : GraphMap n) (task dest : Fin n) (channel : Int × Nat) (rendezVous : Bool) :
    Option (GraphMap n × Outcome) :=
  let strong := messageQuery task .strg (DepAction.recv.code ||| DepAction.wait.code) channel
  let soft := messageQuery task .soft DepAction.irecv.code channel
  let deps := getDependencies g dest soft
  match (getDependency g dest strong).map Dependency.action, deps with
  | some .recv, _ => some (removeDependency g dest strong, .goesOn)
  | some .wait, d :: _ =>
      if d.action = .irecv then
        some (removeDependency (removeDependency g dest strong) dest soft, .goesOn)
      else none
  | some .wait, [] =>
      some (addDependency g task (messageDependency dest .strg .send channel), .mustFind)
  | _, _ :: _ => some (changeAction g dest soft .resolved, .goesOn)
  | _, [] =>
      if rendezVous then
        some (addDependency g task (messageDependency dest .strg .send channel), .looks)
      else
        some (addDependency g task (messageDependency dest .soft .resolved channel), .goesOn)

def newRecv (g : GraphMap n) (task ori : Fin n) (channel : Int × Nat) : GraphMap n × Outcome :=
  let strong := messageQuery task .strg DepAction.send.code channel
  let soft := messageQuery task .soft DepAction.resolved.code channel
  if (getDependency g ori strong).isSome then (removeDependency g ori strong, .goesOn)
  else if (getDependency g ori soft).isSome then (changeAction g ori soft .resolved, .goesOn)
  else (addDependency g task (messageDependency ori .strg .recv channel), .looks)

def newWait (g : GraphMap n) (task ori : Fin n) (channel : Int × Nat) : GraphMap n × Outcome :=
  let own := messageQuery ori .soft DepAction.resolved.code channel
  let partner := messageQuery task .soft DepAction.resolved.code channel
  if (getDependency g task own).isSome then (removeDependency g task own, .goesOn)
  else if (getDependency g ori partner).isSome then (removeDependency g ori partner, .goesOn)
  else (addDependency g task (messageDependency ori .strg .wait channel), .looks)

def newIrecv (g : GraphMap n) (task ori : Fin n) (channel : Int × Nat) : GraphMap n × Outcome :=
  let strong := messageQuery task .strg DepAction.send.code channel
  let soft := messageQuery task .soft DepAction.resolved.code channel
  let resolved := messageDependency ori .soft .resolved channel
  if (getDependency g ori strong).isSome then
    (addDependency (removeDependency g ori strong) task resolved, .goesOn)
  else if (getDependency g ori soft).isSome then
    (addDependency (removeDependency g ori soft) task resolved, .goesOn)
  else (addDependency g task (messageDependency ori .soft .irecv channel), .goesOn)

/-- What `DEADLOCK_manage_global_dependency` does for another rank of the communicator. -/
def globalRank (glopId : Nat) (task : Fin n) (acc : GraphMap n × Bool) (toCollective : Fin n) :
    GraphMap n × Bool :=
  if task = toCollective then acc
  else
    match getDependency acc.1 toCollective (globalQuery task) with
    | some dep =>
        if dep.globalOp = glopId then
          (removeDependency acc.1 toCollective (globalQuery task), acc.2)
        else (addDependency acc.1 task (globalDependency toCollective glopId), true)
    | none => (addDependency acc.1 task (globalDependency toCollective glopId), true)

/-- `DEADLOCK_manage_global_dependency` for the ranks of a communicator. -/
def manageGlobalDependency (g : GraphMap n) (task : Fin n) (glopId : Nat)
    (globalRanks : List (Fin n)) : GraphMap n × Bool :=
  globalRanks.foldl (globalRank glopId task) (g, false)

/-- The update of the graph in `DEADLOCK_new_communic_event`. -/
def update (communicator : Nat → List (Fin n)) (g : GraphMap n) (task : Fin n) :
    Operation n → Option (GraphMap n × Outcome)
  | .send dest channel rendezVous => newSend g task dest channel rendezVous
  | .recv ori channel => some (newRecv g task ori channel)
  | .irecv ori channel => some (newIrecv g task ori channel)
  | .wait ori channel => some (newWait g task ori channel)
  | .globalOp glopId commId =>
      let (g, blocks) := manageGlobalDependency g task glopId (communicator commId)
      some (g, if blocks then .looks else .goesOn)

/-- `_is_deadlocked`: the search for a cycle. It is never deeper than the number of ranks. -/
def isDeadlocked (g : GraphMap n) (task : Fin n) : Option Bool :=
  (lookForCycle g task (n + 1) fun _ => task).map Found.found

/-- The switch of `DEADLOCK_new_communic_event`, which computes a new state of the graph. `none` is
an assertion that fails, or a search that does not end. -/
def newState (communicator : Nat → List (Fin n)) (g : GraphMap n) (task : Fin n)
    (op : Operation n) : Option (GraphMap n × Bool) := do
  let (g, outcome) ← update communicator g task op
  match outcome with
  | .goesOn => some (g, false)
  | .looks => (isDeadlocked g task).map fun res => (g, res)
  | .mustFind => (isDeadlocked g task).bind fun res => if res then some (g, true) else none

/-- A new state of the graph, which is reset when a deadlock was found. -/
def deadlockNext (communicator : Nat → List (Fin n)) (g : GraphMap n)
    (l : Fin n × Operation n) : Option (GraphMap n) :=
  (newState communicator g l.1 l.2).map fun (g, res) => if res then .empty else g

/-- The graph, if its log is open, and `with_deadlock_analysis`. -/
structure Analyzer (n : Nat) where
  graph : GraphMap n
  logOpen : Bool
  withDeadlockAnalysis : Bool

def Analyzer.init : Analyzer n := ⟨.empty, true, true⟩

/-- `GRAPH_debug` writes to the log. -/
def Analyzer.debug (a : Analyzer n) : Option (Analyzer n) := if a.logOpen then some a else none

/-- `GRAPH_fini` closes the log. -/
def Analyzer.fini (a : Analyzer n) : Option (Analyzer n) :=
  if a.logOpen then some { a with logOpen := false } else none

/-- `GRAPH_reset` closes the log too, and opens the next one. -/
def Analyzer.reset (a : Analyzer n) : Option (Analyzer n) :=
  if a.logOpen then some { a with graph := .empty } else none

/-- An operation of a rank, and how much of its trace has been read. -/
structure Event (n : Nat) where
  task : Fin n
  op : Operation n
  progression : ℚ

/-- `GRAPH_get_dependencies` for the strong dependencies on all ranks. -/
def strongDependencies (g : GraphMap n) (task : Fin n) : List (Dependency n) :=
  (g task).filter fun d => d.type = .strg

/-- `DEADLOCK_new_communic_event`, and what it returns. A rank with a strong dependency could not
advance: `GRAPH_fini` is called behind the warning, and the event goes on. `none` is also a use of
the log when it is closed. -/
def newCommunicEvent (communicator : Nat → List (Fin n)) (endAnalysis : ℚ) (a : Analyzer n)
    (e : Event n) : Option (Analyzer n × Bool) := do
  let a ← if strongDependencies a.graph e.task = [] then some a else a.debug.bind Analyzer.fini
  if endAnalysis ≤ e.progression then
    some ({ a with withDeadlockAnalysis := false }, false)
  else
    -- every case of the switch writes to the log first
    let a ← a.debug
    let (graph, res) ← newState communicator a.graph e.task e.op
    some ({ a with graph }, res)

def communicEvent (communicator : Nat → List (Fin n)) (endAnalysis : ℚ) (a : Analyzer n)
    (e : Event n) : Option (Analyzer n × Bool) :=
  if a.withDeadlockAnalysis then newCommunicEvent communicator endAnalysis a e
  else some (a, false)

/-- An event of the simulation. The graph is reset when a deadlock was found. -/
def analyzerNext (communicator : Nat → List (Fin n)) (endAnalysis : ℚ) (a : Analyzer n)
    (e : Event n) : Option (Analyzer n) :=
  (communicEvent communicator endAnalysis a e).bind fun (a, res) =>
    if res then a.reset else some a

section

variable {communicator : Nat → List (Fin n)} {g g' : GraphMap n} {task i : Fin n}
  {op : Operation n} {o : Outcome} {d : Dependency n} {channel : Int × Nat}

/-- The soft dependencies are those of an IRECV, or resolved. -/
def SoftOk (g : GraphMap n) : Prop :=
  ∀ i, ∀ d ∈ g i, d.type = .soft → d.action = .irecv ∨ d.action = .resolved

/-- There is no cycle of blocking dependencies. -/
def Acyclic (g : GraphMap n) : Prop := ∀ i, ¬ TransGen (Arc (targets g)) i i

/-- What an update does to the blocking dependencies: only the rank of the event gets new ones, and
it gets none if no search follows. -/
structure Updates (g : GraphMap n) (task : Fin n) (g' : GraphMap n) (o : Outcome) : Prop where
  off : ∀ i, i ≠ task → targets g' i ⊆ targets g i
  own : o = .goesOn → targets g' task ⊆ targets g task
  sure : o = .mustFind → TransGen (Arc (targets g')) task task
  soft : SoftOk g → SoftOk g'

theorem softOk_removeDependency (h : SoftOk g) (i : Fin n) (q : Query n) :
    SoftOk (removeDependency g i q) := by
  intro j d hd hsoft
  exact h j d (removeDependency_subset j hd) hsoft

theorem softOk_addDependency (h : SoftOk g) (i : Fin n)
    (hd : d.type = .soft → d.action = .irecv ∨ d.action = .resolved) :
    SoftOk (addDependency g i d) := by
  intro j x hx hsoft
  rcases mem_addDependency.mp hx with ⟨-, rfl⟩ | hx
  · exact hd hsoft
  · exact h j x hx hsoft

theorem softOk_changeAction (h : SoftOk g) (i : Fin n) (q : Query n) :
    SoftOk (changeAction g i q .resolved) := by
  intro j x hx hsoft
  rcases mem_changeAction hx with hx | ⟨d, -, rfl⟩
  · exact h j x hx hsoft
  · exact .inr rfl

theorem updates_removeDependency (g : GraphMap n) (task i : Fin n) (q : Query n) :
    Updates g task (removeDependency g i q) .goesOn where
  off j _ := targets_removeDependency g i q j
  own _ := targets_removeDependency g i q task
  sure h := by cases h
  soft h := softOk_removeDependency h i q

theorem updates_changeAction (g : GraphMap n) (task i : Fin n) (q : Query n) :
    Updates g task (changeAction g i q .resolved) .goesOn where
  off j _ := by rw [targets_changeAction]; exact List.Subset.refl _
  own _ := by rw [targets_changeAction]; exact List.Subset.refl _
  sure h := by cases h
  soft h := softOk_changeAction h i q

theorem updates_addSoft (g : GraphMap n) (task toTask : Fin n) {a : DepAction}
    (ha : a = .irecv ∨ a = .resolved) (channel : Int × Nat) :
    Updates g task (addDependency g task (messageDependency toTask .soft a channel)) .goesOn where
  off j _ := targets_addDependency_of_soft rfl j
  own _ := targets_addDependency_of_soft rfl task
  sure h := by cases h
  soft h := softOk_addDependency h task fun _ => ha

theorem updates_addDependency (g : GraphMap n) (task : Fin n) (hd : d.type ≠ .soft) :
    Updates g task (addDependency g task d) .looks where
  off j hj := by rw [targets_addDependency_of_ne hj]; exact List.Subset.refl _
  own h := by cases h
  sure h := by cases h
  soft h := softOk_addDependency h task fun hsoft => absurd hsoft hd

theorem Updates.trans {g₁ g₂ g₃ : GraphMap n} (h : Updates g₁ task g₂ .goesOn)
    (h' : Updates g₂ task g₃ o) : Updates g₁ task g₃ o where
  off j hj := List.Subset.trans (h'.off j hj) (h.off j hj)
  own ho := List.Subset.trans (h'.own ho) (h.own rfl)
  sure := h'.sure
  soft hsoft := h'.soft (h.soft hsoft)

/-- A SEND to a rank that already waits in a WAIT closes a cycle. -/
theorem transGen_of_wait {dest : Fin n} {mask : Nat}
    (h : getDependency g dest (messageQuery task .strg mask channel) = some d)
    (x : Dependency n) (hto : x.toTask = dest) (htype : x.type = .strg) :
    TransGen (Arc (targets (addDependency g task x))) task task := by
  obtain ⟨hmem, hasks⟩ := getFirst_eq_some h
  obtain ⟨hback, hstrong, -⟩ := selects_iff.mp (selects_of_asksFor hasks)
  apply TransGen.tail (b := dest)
  · apply TransGen.single
    exact mem_targets.mpr ⟨x, mem_addDependency.mpr (.inl ⟨rfl, rfl⟩),
      by simp [Dependency.blocks, htype], hto⟩
  · exact mem_targets.mpr ⟨d, mem_addDependency.mpr (.inr hmem),
      by simp [Dependency.blocks, hstrong, messageQuery], hback⟩

theorem Updates.mustFind {g' : GraphMap n} (h : Updates g task g' .looks)
    (hcycle : TransGen (Arc (targets g')) task task) : Updates g task g' .mustFind where
  off := h.off
  own ho := by cases ho
  sure _ := hcycle
  soft := h.soft

theorem updates_newSend {dest : Fin n} {rendezVous : Bool}
    (h : newSend g task dest channel rendezVous = some (g', o)) : Updates g task g' o := by
  unfold newSend at h
  simp only at h
  split at h
  · obtain ⟨rfl, rfl⟩ := Prod.mk.inj (Option.some.inj h)
    apply updates_removeDependency
  · split at h
    · obtain ⟨rfl, rfl⟩ := Prod.mk.inj (Option.some.inj h)
      apply Updates.trans (updates_removeDependency g task _ _)
      apply updates_removeDependency
    · cases h
  · next hwait _ =>
      obtain ⟨rfl, rfl⟩ := Prod.mk.inj (Option.some.inj h)
      obtain ⟨d, hd, -⟩ := Option.map_eq_some_iff.mp hwait
      apply Updates.mustFind
      · apply updates_addDependency
        simp [messageDependency]
      · exact transGen_of_wait hd _ rfl rfl
  · obtain ⟨rfl, rfl⟩ := Prod.mk.inj (Option.some.inj h)
    apply updates_changeAction
  · split at h
    · obtain ⟨rfl, rfl⟩ := Prod.mk.inj (Option.some.inj h)
      apply updates_addDependency
      simp [messageDependency]
    · obtain ⟨rfl, rfl⟩ := Prod.mk.inj (Option.some.inj h)
      apply updates_addSoft
      exact .inr rfl

theorem updates_newRecv (g : GraphMap n) (task ori : Fin n) (channel : Int × Nat) :
    Updates g task (newRecv g task ori channel).1 (newRecv g task ori channel).2 := by
  unfold newRecv
  simp only
  split
  · apply updates_removeDependency
  · split
    · apply updates_changeAction
    · apply updates_addDependency
      simp [messageDependency]

theorem updates_newWait (g : GraphMap n) (task ori : Fin n) (channel : Int × Nat) :
    Updates g task (newWait g task ori channel).1 (newWait g task ori channel).2 := by
  unfold newWait
  simp only
  split
  · apply updates_removeDependency
  · split
    · apply updates_removeDependency
    · apply updates_addDependency
      simp [messageDependency]

theorem updates_newIrecv (g : GraphMap n) (task ori : Fin n) (channel : Int × Nat) :
    Updates g task (newIrecv g task ori channel).1 (newIrecv g task ori channel).2 := by
  unfold newIrecv
  simp only
  split
  · apply Updates.trans (updates_removeDependency g task _ _)
    apply updates_addSoft
    exact .inr rfl
  · split
    · apply Updates.trans (updates_removeDependency g task _ _)
      apply updates_addSoft
      exact .inr rfl
    · apply updates_addSoft
      exact .inl rfl

/-- The outcome of a loop over the ranks that has blocked so far or not. -/
def outcomeOf (blocks : Bool) : Outcome := if blocks then .looks else .goesOn

theorem updates_globalRank {acc : GraphMap n × Bool} (glopId : Nat) (toCollective : Fin n)
    (h : Updates g task acc.1 (outcomeOf acc.2)) :
    Updates g task (globalRank glopId task acc toCollective).1
      (outcomeOf (globalRank glopId task acc toCollective).2) := by
  have hadd : Updates g task (addDependency acc.1 task (globalDependency toCollective glopId))
      .looks := by
    have hnew := updates_addDependency (d := globalDependency toCollective glopId) acc.1 task
      (by simp [globalDependency])
    constructor
    · intro i hi
      exact List.Subset.trans (hnew.off i hi) (h.off i hi)
    · intro ho
      cases ho
    · exact hnew.sure
    · exact fun hsoft => hnew.soft (h.soft hsoft)
  have hremove : Updates g task
      (removeDependency acc.1 toCollective (globalQuery task)) (outcomeOf acc.2) := by
    have hnew := updates_removeDependency acc.1 task toCollective (globalQuery task)
    constructor
    · intro i hi
      exact List.Subset.trans (hnew.off i hi) (h.off i hi)
    · intro ho
      exact List.Subset.trans (hnew.own rfl) (h.own ho)
    · intro ho
      unfold outcomeOf at ho
      split at ho <;> cases ho
    · exact fun hsoft => hnew.soft (h.soft hsoft)
  unfold globalRank
  split
  · exact h
  · split
    · split
      · exact hremove
      · exact hadd
    · exact hadd

theorem updates_manageGlobalDependency (g : GraphMap n) (task : Fin n) (glopId : Nat)
    (globalRanks : List (Fin n)) :
    Updates g task (manageGlobalDependency g task glopId globalRanks).1
      (outcomeOf (manageGlobalDependency g task glopId globalRanks).2) := by
  have hloop : ∀ acc : GraphMap n × Bool, Updates g task acc.1 (outcomeOf acc.2) →
      Updates g task (globalRanks.foldl (globalRank glopId task) acc).1
        (outcomeOf (globalRanks.foldl (globalRank glopId task) acc).2) := by
    induction globalRanks with
    | nil => exact fun acc h => h
    | cons i rest ih => exact fun acc h => ih _ (updates_globalRank glopId i h)
  apply hloop
  constructor
  · exact fun i _ => List.Subset.refl _
  · exact fun _ => List.Subset.refl _
  · intro ho
    cases ho
  · exact id

theorem updates_update (h : update communicator g task op = some (g', o)) :
    Updates g task g' o := by
  cases op with
  | send dest channel rendezVous => exact updates_newSend h
  | recv ori channel =>
      rw [← (Prod.mk.inj (Option.some.inj h)).1, ← (Prod.mk.inj (Option.some.inj h)).2]
      exact updates_newRecv g task ori channel
  | irecv ori channel =>
      rw [← (Prod.mk.inj (Option.some.inj h)).1, ← (Prod.mk.inj (Option.some.inj h)).2]
      exact updates_newIrecv g task ori channel
  | wait ori channel =>
      rw [← (Prod.mk.inj (Option.some.inj h)).1, ← (Prod.mk.inj (Option.some.inj h)).2]
      exact updates_newWait g task ori channel
  | globalOp glopId commId =>
      rw [← (Prod.mk.inj (Option.some.inj h)).1, ← (Prod.mk.inj (Option.some.inj h)).2]
      exact updates_manageGlobalDependency g task glopId (communicator commId)

/-- The first of the soft dependencies that a SEND asks for is that of an IRECV. -/
theorem update_isSome (communicator : Nat → List (Fin n)) (h : SoftOk g) (task : Fin n)
    (op : Operation n) : ∃ g' o, update communicator g task op = some (g', o) := by
  cases op with
  | send dest channel rendezVous =>
      have hsome : (newSend g task dest channel rendezVous).isSome := by
        unfold newSend
        simp only
        split
        · rfl
        · next d rest hwait hdeps =>
            have hd : d ∈ getDependencies g dest
                (messageQuery task .soft DepAction.irecv.code channel) := by
              rw [hdeps]
              simp
            obtain ⟨hmem, hasks⟩ := List.mem_filter.mp hd
            obtain ⟨-, htype, hbits⟩ := selects_iff.mp (selects_of_asksFor hasks)
            rcases h dest d hmem htype with haction | haction
            · rw [if_pos haction]
              rfl
            · rw [haction] at hbits
              have hzero : DepAction.resolved.code &&& DepAction.irecv.code = 0 := by decide
              exact absurd hzero hbits
        · rfl
        · rfl
        · split <;> rfl
      obtain ⟨⟨g', o⟩, hnew⟩ := Option.isSome_iff_exists.mp hsome
      exact ⟨g', o, hnew⟩
  | recv ori channel => exact ⟨_, _, rfl⟩
  | irecv ori channel => exact ⟨_, _, rfl⟩
  | wait ori channel => exact ⟨_, _, rfl⟩
  | globalOp glopId commId => exact ⟨_, _, rfl⟩

theorem Updates.acyclic_off (h : Updates g task g' o) (hacyclic : Acyclic g) (i : Fin n) :
    ¬ TransGen (ArcOff (targets g') task) i i := by
  intro hcycle
  apply hacyclic i
  have hsub : ArcOff (targets g') task ≤ Arc (targets g) := by
    intro v w ⟨hv, hw⟩
    exact h.off v hv hw
  exact TransGen.mono hsub i i hcycle

theorem Updates.acyclic (h : Updates g task g' .goesOn) (hacyclic : Acyclic g) : Acyclic g' := by
  intro i hcycle
  apply hacyclic i
  have hsub : Arc (targets g') ≤ Arc (targets g) := by
    intro v w hw
    by_cases hv : v = task
    · subst hv
      exact h.own rfl hw
    · exact h.off v hv hw
  exact TransGen.mono hsub i i hcycle

/-- A search behind an update ends, and finds the rank of the event exactly if it is on a cycle. -/
theorem Updates.lookForCycle (h : Updates g task g' o) (hacyclic : Acyclic g) {depth : Nat}
    (hdepth : n < depth) (chain : Nat → Fin n) :
    ∃ res, lookForCycle g' task depth chain = some res ∧
      (res.found = true ↔ TransGen (Arc (targets g')) task task) ∧
      (res.found = true → CycleChain (targets g') task res) := by
  have hsome := searchCycle_isSome (h.acyclic_off hacyclic)
    (show Fintype.card (Fin n) < depth by simpa using hdepth) chain
  obtain ⟨res, hres⟩ := Option.isSome_iff_exists.mp hsome
  exact ⟨res, hres, searchCycle_found_iff hres, cycleChain_of_searchCycle hres⟩

/-- A new state is without a failure. It is returned whether the rank is on a cycle then. -/
theorem newState_spec (communicator : Nat → List (Fin n)) (hsoft : SoftOk g)
    (hacyclic : Acyclic g) (task : Fin n) (op : Operation n) :
    ∃ g' o res, update communicator g task op = some (g', o) ∧ Updates g task g' o ∧
      newState communicator g task op = some (g', res) ∧
      (res = true ↔ TransGen (Arc (targets g')) task task) := by
  obtain ⟨g', o, hupdate⟩ := update_isSome communicator hsoft task op
  have hup := updates_update hupdate
  obtain ⟨res, hlook, hiff, -⟩ := hup.lookForCycle hacyclic (Nat.lt_succ_self n) fun _ => task
  have hdead : isDeadlocked g' task = some res.found := by
    rw [isDeadlocked, hlook]
    rfl
  unfold newState
  rw [hupdate]
  cases o with
  | goesOn =>
      refine ⟨g', .goesOn, false, rfl, hup, rfl, ?_⟩
      simp only [Bool.false_eq_true, false_iff]
      exact hup.acyclic hacyclic task
  | looks => exact ⟨g', .looks, res.found, rfl, hup, by simp [hdead], hiff⟩
  | mustFind =>
      have hfound : res.found = true := hiff.mpr (hup.sure rfl)
      exact ⟨g', .mustFind, true, rfl, hup, by simp [hdead, hfound], by simpa [hfound] using hiff⟩

theorem update_of_newState {res : Bool}
    (h : newState communicator g task op = some (g', res)) :
    ∃ o, update communicator g task op = some (g', o) := by
  obtain ⟨⟨g₁, o⟩, hupdate, hrest⟩ := Option.bind_eq_some_iff.mp h
  have hg : g₁ = g' := by
    cases o with
    | goesOn => exact (Prod.mk.inj (Option.some.inj hrest)).1
    | looks =>
        obtain ⟨_, -, hout⟩ := Option.map_eq_some_iff.mp hrest
        exact (Prod.mk.inj hout).1
    | mustFind =>
        obtain ⟨found, -, hout⟩ := Option.bind_eq_some_iff.mp hrest
        cases found with
        | true => exact (Prod.mk.inj (Option.some.inj hout)).1
        | false => cases hout
  exact ⟨o, by rw [hupdate, hg]⟩

structure DeadlockInv (g : GraphMap n) : Prop where
  soft : SoftOk g
  acyclic : Acyclic g

theorem deadlockInv_empty : DeadlockInv (.empty : GraphMap n) where
  soft i d hd := by cases hd
  acyclic i hcycle := by
    obtain ⟨w, hw, -⟩ := TransGen.head'_iff.mp hcycle
    cases hw

theorem deadlockInv_step {l : Fin n × Operation n} (h : DeadlockInv g)
    (hstep : ofPartial (deadlockNext communicator) g l g') : DeadlockInv g' := by
  obtain ⟨g₁, o, res, -, hup, hevent, hiff⟩ :=
    newState_spec communicator h.soft h.acyclic l.1 l.2
  simp only [ofPartial, deadlockNext, hevent, Option.map_some, Option.some.injEq] at hstep
  subst hstep
  cases res with
  | true => exact deadlockInv_empty
  | false =>
      constructor
      · exact hup.soft h.soft
      · apply acyclic_of_off (hup.acyclic_off h.acyclic)
        intro hcycle
        exact Bool.noConfusion (hiff.mpr hcycle)

/-- The analysis is off at the event, the trace of its rank has been read as far as the analysis
goes, or the rank has no strong dependency. -/
def Coordinated (endAnalysis : ℚ) (a : Analyzer n) (e : Event n) : Prop :=
  a.withDeadlockAnalysis = true → e.progression < endAnalysis →
    strongDependencies a.graph e.task = []

/-- The log is open as long as the analysis is on. -/
structure AnalyzerInv (a : Analyzer n) : Prop where
  graph : DeadlockInv a.graph
  logOpen : a.withDeadlockAnalysis = true → a.logOpen = true

theorem analyzerInv_init : AnalyzerInv (.init : Analyzer n) where
  graph := deadlockInv_empty
  logOpen _ := rfl

variable {a a' : Analyzer n} {e : Event n} {endAnalysis : ℚ}

theorem Analyzer.reset_of_logOpen (hopen : a.logOpen = true) :
    a.reset = some { a with graph := .empty } := if_pos hopen

theorem newCommunicEvent_of_coordinated (communicator : Nat → List (Fin n))
    (hopen : a.logOpen = true)
    (hprog : e.progression < endAnalysis) (hstrong : strongDependencies a.graph e.task = []) :
    newCommunicEvent communicator endAnalysis a e =
      (newState communicator a.graph e.task e.op).map fun r =>
        ({ a with graph := r.1 }, r.2) := by
  have hnot : ¬ endAnalysis ≤ e.progression := not_le.mpr hprog
  simp only [newCommunicEvent, if_pos hstrong, if_neg hnot, Analyzer.debug, if_pos hopen,
    Option.bind_eq_bind, Option.bind_some, Option.map_eq_bind]
  rfl

theorem debug_bind_fini (a : Analyzer n) : a.debug.bind Analyzer.fini = a.fini := by
  unfold Analyzer.debug
  cases hopen : a.logOpen with
  | true => rfl
  | false => simp [Analyzer.fini, hopen]

/-- The log is closed when a rank with a strong dependency advances, and then written to. -/
theorem newCommunicEvent_of_strong (hprog : e.progression < endAnalysis)
    (hstrong : strongDependencies a.graph e.task ≠ []) :
    newCommunicEvent communicator endAnalysis a e = none := by
  have hnot : ¬ endAnalysis ≤ e.progression := not_le.mpr hprog
  simp only [newCommunicEvent, if_neg hstrong, debug_bind_fini, Analyzer.fini, if_neg hnot,
    Option.bind_eq_bind]
  split
  · rfl
  · rfl

/-- At the end of the analysis it is switched off, and the graph is left as it is. -/
theorem newCommunicEvent_of_end (hopen : a.logOpen = true) (hprog : endAnalysis ≤ e.progression) :
    ∃ logOpen, newCommunicEvent communicator endAnalysis a e =
      some (⟨a.graph, logOpen, false⟩, false) := by
  simp only [newCommunicEvent, debug_bind_fini, Analyzer.fini, if_pos hopen, if_pos hprog,
    Option.bind_eq_bind]
  split
  · exact ⟨a.logOpen, rfl⟩
  · exact ⟨false, rfl⟩

theorem communicEvent_of_end (communicator : Nat → List (Fin n))
    (hopen : a.withDeadlockAnalysis = true → a.logOpen = true)
    (hend : ¬ (a.withDeadlockAnalysis = true ∧ e.progression < endAnalysis)) :
    ∃ logOpen, communicEvent communicator endAnalysis a e =
      some (⟨a.graph, logOpen, false⟩, false) := by
  obtain ⟨graph, logOpen, withDeadlockAnalysis⟩ := a
  cases withDeadlockAnalysis with
  | true =>
      have hprog : ¬ e.progression < endAnalysis := fun hlt => hend ⟨rfl, hlt⟩
      exact newCommunicEvent_of_end (hopen rfl) (not_lt.mp hprog)
  | false => exact ⟨logOpen, rfl⟩

/-- There is no cycle of blocking dependencies before an event. The search that follows the update
of the graph ends within as many calls as there are ranks, finds the rank of the event exactly if it
lies on a cycle, and then its chain is such a cycle. The event returns what was found. -/
structure SearchExact (communicator : Nat → List (Fin n)) (endAnalysis : ℚ)
    (t : Transition (Analyzer n) (Event n)) : Prop where
  acyclic : Acyclic t.pre.graph
  search : t.pre.withDeadlockAnalysis = true → t.label.progression < endAnalysis →
    ∃ g o, update communicator t.pre.graph t.label.task t.label.op = some (g, o) ∧
      (∀ depth, n < depth → ∀ chain, ∃ res, lookForCycle g t.label.task depth chain = some res ∧
        (res.found = true ↔ TransGen (Arc (targets g)) t.label.task t.label.task) ∧
        (res.found = true → CycleChain (targets g) t.label.task res)) ∧
      ∃ res, newCommunicEvent communicator endAnalysis t.pre t.label =
          some ({ t.pre with graph := g }, res) ∧
        (res = true ↔ TransGen (Arc (targets g)) t.label.task t.label.task)

theorem deadlockInv_newState {res : Bool} (h : DeadlockInv g)
    (hstate : newState communicator g task op = some (g', res)) :
    DeadlockInv (if res then .empty else g') := by
  have hstep : ofPartial (deadlockNext communicator) g (task, op) (if res then .empty else g') := by
    rw [ofPartial, deadlockNext, hstate, Option.map_some]
  exact deadlockInv_step h hstep

theorem exact_of_coordinated (h : AnalyzerInv a) (hco : Coordinated endAnalysis a e) :
    ∃ a', analyzerNext communicator endAnalysis a e = some a' ∧ AnalyzerInv a' ∧
      SearchExact communicator endAnalysis ⟨a, e, a'⟩ := by
  unfold analyzerNext
  by_cases hlooks : a.withDeadlockAnalysis = true ∧ e.progression < endAnalysis
  · obtain ⟨hon, hprog⟩ := hlooks
    have hopen := h.logOpen hon
    obtain ⟨g', o, res, hupdate, hup, hstate, hiff⟩ :=
      newState_spec communicator h.graph.soft h.graph.acyclic e.task e.op
    have hevent := newCommunicEvent_of_coordinated communicator hopen hprog (hco hon hprog)
    rw [hstate, Option.map_some] at hevent
    have hnext : (if res then ({ a with graph := g' } : Analyzer n).reset
        else some { a with graph := g' }) =
          some { a with graph := if res then .empty else g' } := by
      cases res with
      | true => exact Analyzer.reset_of_logOpen hopen
      | false => rfl
    refine ⟨{ a with graph := if res then .empty else g' }, ?_, ?_, ?_, fun _ _ => ?_⟩
    · rw [communicEvent, if_pos hon, hevent, Option.bind_some]
      exact hnext
    · exact ⟨deadlockInv_newState h.graph hstate, h.logOpen⟩
    · exact h.graph.acyclic
    · exact ⟨g', o, hupdate, fun depth hdepth chain => hup.lookForCycle h.graph.acyclic hdepth chain,
        res, hevent, hiff⟩
  · obtain ⟨logOpen, hevent⟩ :=
      communicEvent_of_end communicator h.logOpen hlooks
    refine ⟨⟨a.graph, logOpen, false⟩, by rw [hevent]; rfl, ⟨h.graph, ?_⟩, h.graph.acyclic, ?_⟩
    · exact fun hoff => Bool.noConfusion hoff
    · exact fun hon hprog => absurd ⟨hon, hprog⟩ hlooks

theorem fails_of_not_coordinated (hno : ¬ Coordinated endAnalysis a e) :
    analyzerNext communicator endAnalysis a e = none := by
  simp only [Coordinated, Classical.not_imp] at hno
  obtain ⟨hon, hprog, hstrong⟩ := hno
  rw [analyzerNext, communicEvent, if_pos hon, newCommunicEvent_of_strong hprog hstrong]
  rfl

/-- The events of a sequence do not fail and their searches are exact, if and only if no rank with a
strong dependency advances while the analysis is on. -/
theorem deadlock_search_exact_iff (communicator : Nat → List (Fin n)) (endAnalysis : ℚ)
    (es : List (Event n)) :
    (∃ tr last, exec (analyzerNext communicator endAnalysis) .init es = some (tr, last) ∧
        ∀ t ∈ tr, SearchExact communicator endAnalysis t) ↔
      Guarded (analyzerNext communicator endAnalysis) (Coordinated endAnalysis) .init es :=
  exec_iff_guarded (fun _ _ h hco => exact_of_coordinated h hco)
    (fun _ _ _ hno => fails_of_not_coordinated hno) analyzerInv_init

/-- Rank 0 sends to rank 1 and waits for a message of rank 1: the WAIT removes the dependency of
its own SEND, and the RECV of rank 1 finds none. It gets the message and advances. -/
def wrongWait : List (Event 2) :=
  [⟨0, .send 1 (5, 1) false, 1 / 5⟩, ⟨0, .irecv 1 (5, 1), 2 / 5⟩, ⟨0, .wait 1 (5, 1), 3 / 5⟩,
    ⟨1, .recv 0 (5, 1), 1 / 3⟩, ⟨1, .send 0 (5, 1) false, 2 / 3⟩]

theorem not_deadlock_search_exact :
    ¬ ∀ (n : Nat) (communicator : Nat → List (Fin n)) (endAnalysis : ℚ) (es : List (Event n)),
      ∃ tr last, exec (analyzerNext communicator endAnalysis) .init es = some (tr, last) ∧
        ∀ t ∈ tr, SearchExact communicator endAnalysis t := by
  intro h
  obtain ⟨tr, last, hexec, -⟩ := h 2 (fun _ => []) 1 wrongWait
  have hfails : (exec (analyzerNext (fun _ => []) 1) .init wrongWait).isSome = false := by
    decide +kernel
  rw [hexec] at hfails
  cases hfails

end

end Dimemas.Utils.DeadlockAnalysis
