import Dimemas.Library.CycleSearch
import Mathlib.Data.Fintype.Fin
/-!
# The dependency graph of the deadlock analysis

The functions of `graph.c`. Every rank has a list of the dependencies that leave it, in the
order of the ranks they go to. A query compares the codes of the actions bit by bit.
-/

namespace Dimemas.Utils.Graph

open Dimemas.Library.CycleSearch

/-- The actions of a dependency, with `SOFT_ACTION_RESOLVED`. -/
inductive DepAction
  | send
  | recv
  | globalOp
  | irecv
  | wait
  | resolved
deriving DecidableEq, Repr

/-- The codes of `define.h` and `graph.h`. -/
def DepAction.code : DepAction → Nat
  | .send => 2
  | .recv => 3
  | .globalOp => 11
  | .irecv => 14
  | .wait => 15
  | .resolved => 65536

/-- `STRG_DEP`, `SOFT_DEP` and `GLOP_DEP`. -/
inductive DepType
  | strg
  | soft
  | glop
deriving DecidableEq, Repr

/-- `struct dependency`, in the list of the rank that it leaves. `channel` is the tag and the
communicator of a message. -/
structure Dependency (n : Nat) where
  toTask : Fin n
  type : DepType
  action : DepAction
  channel : Int × Nat
  globalOp : Nat
deriving DecidableEq, Repr

/-- What a dependency is asked for. `action` is a mask, and no channel means `TAG_ALL` and
`COMMUNIC_ID_ALL`. -/
structure Query (n : Nat) where
  toTask : Fin n
  type : DepType
  action : Nat
  channel : Option (Int × Nat)

abbrev GraphMap (n : Nat) := Fin n → List (Dependency n)

variable {n : Nat}

/-- The ends, the type and the bits of the action of a dependency are those of the query. -/
def Query.selects (q : Query n) (d : Dependency n) : Bool :=
  d.toTask = q.toTask && d.type = q.type && (d.action.code &&& q.action) ≠ 0

def Query.comparesChannel (q : Query n) : Bool :=
  q.action ∈ [DepAction.send.code, DepAction.recv.code, DepAction.wait.code,
    DepAction.irecv.code, DepAction.resolved.code]

def Query.sameChannel (q : Query n) (d : Dependency n) : Bool :=
  !q.comparesChannel || q.channel.all (· = d.channel)

def Query.asksFor (q : Query n) (d : Dependency n) : Bool := q.selects d && q.sameChannel d

/-- The loop of `GRAPH_get_dependency`, which ends at the first dependency on a higher rank that
the query does not select. -/
def getFirst (q : Query n) : List (Dependency n) → Option (Dependency n)
  | [] => none
  | d :: ds =>
      if q.selects d then if q.sameChannel d then some d else getFirst q ds
      else if q.toTask < d.toTask then none
      else getFirst q ds

def getDependency (g : GraphMap n) (fromTask : Fin n) (q : Query n) : Option (Dependency n) :=
  getFirst q (g fromTask)

def getDependencies (g : GraphMap n) (fromTask : Fin n) (q : Query n) : List (Dependency n) :=
  (g fromTask).filter q.asksFor

/-- The insertion of `GRAPH_add_dependency`, in front of the dependencies on the same rank. -/
def addDependency (g : GraphMap n) (fromTask : Fin n) (d : Dependency n) : GraphMap n :=
  Function.update g fromTask
    ((g fromTask).takeWhile (fun x => x.toTask < d.toTask) ++ d ::
      (g fromTask).dropWhile (fun x => x.toTask < d.toTask))

/-- `GRAPH_remove_dependency_p` of the dependency that a query returned. -/
def removeDependency (g : GraphMap n) (fromTask : Fin n) (q : Query n) : GraphMap n :=
  Function.update g fromTask ((g fromTask).eraseP q.asksFor)

def changeFirst (q : Query n) (newAction : DepAction) : List (Dependency n) → List (Dependency n)
  | [] => []
  | d :: ds =>
      if q.asksFor d then { d with action := newAction } :: ds else d :: changeFirst q newAction ds

/-- `GRAPH_change_action` of the dependency that a query returned. -/
def changeAction (g : GraphMap n) (fromTask : Fin n) (q : Query n) (newAction : DepAction) :
    GraphMap n :=
  Function.update g fromTask (changeFirst q newAction (g fromTask))

def GraphMap.empty : GraphMap n := fun _ => []

def Dependency.blocks (d : Dependency n) : Bool := d.type = .strg || d.type = .glop

def targets (g : GraphMap n) (i : Fin n) : List (Fin n) :=
  ((g i).filter Dependency.blocks).map Dependency.toTask

/-- `GRAPH_look_for_cycle` with a stack of some depth. -/
def lookForCycle (g : GraphMap n) (root : Fin n) (depth : Nat) (chain : Nat → Fin n) :
    Option (Found (Fin n)) :=
  searchCycle (targets g) root depth chain

section

variable {g : GraphMap n} {i j : Fin n} {q : Query n} {d : Dependency n} {ds : List (Dependency n)}

theorem mem_targets : j ∈ targets g i ↔ ∃ d ∈ g i, d.blocks ∧ d.toTask = j := by
  simp [targets, and_assoc]

theorem selects_iff : q.selects d ↔
    d.toTask = q.toTask ∧ d.type = q.type ∧ (d.action.code &&& q.action) ≠ 0 := by
  simp [Query.selects, and_assoc]

theorem selects_of_asksFor (h : q.asksFor d) : q.selects d := by
  simp only [Query.asksFor, Bool.and_eq_true] at h
  exact h.1

theorem getFirst_eq_some (h : getFirst q ds = some d) : d ∈ ds ∧ q.asksFor d := by
  induction ds with
  | nil => cases h
  | cons x xs ih =>
      simp only [getFirst] at h
      split at h
      · next hselects =>
          split at h
          · next hsame =>
              obtain rfl := Option.some.inj h
              exact ⟨by simp, by simp [Query.asksFor, hselects, hsame]⟩
          · obtain ⟨hmem, hasks⟩ := ih h
            exact ⟨by simp [hmem], hasks⟩
      · split at h
        · cases h
        · obtain ⟨hmem, hasks⟩ := ih h
          exact ⟨by simp [hmem], hasks⟩

/-- In a list that is in order the early end of the loop does not matter. -/
theorem getFirst_eq_find? (hsorted : ds.Pairwise fun x y => x.toTask ≤ y.toTask) :
    getFirst q ds = ds.find? q.asksFor := by
  induction ds with
  | nil => rfl
  | cons x xs ih =>
      obtain ⟨hle, hrest⟩ := List.pairwise_cons.mp hsorted
      rw [getFirst, List.find?_cons, ih hrest]
      by_cases hselects : q.selects x
      · by_cases hsame : q.sameChannel x
        · simp [Query.asksFor, hselects, hsame]
        · simp [Query.asksFor, hselects, hsame]
      · rw [if_neg hselects]
        have hno : q.asksFor x = false := by simp [Query.asksFor, hselects]
        rw [hno]
        split
        · next hlt =>
            symm
            apply List.find?_eq_none.mpr
            intro y hy hasks
            have hto := (selects_iff.mp (selects_of_asksFor hasks)).1
            have hxy := hle y hy
            rw [hto] at hxy
            exact absurd hlt (not_lt.mpr hxy)
        · rfl

theorem mem_addDependency {x : Dependency n} :
    x ∈ addDependency g i d j ↔ (j = i ∧ x = d) ∨ x ∈ g j := by
  unfold addDependency
  by_cases hj : j = i
  · subst hj
    rw [Function.update_self]
    have hsplit := List.takeWhile_append_dropWhile (p := fun x => x.toTask < d.toTask) (l := g j)
    conv_rhs => rw [← hsplit]
    simp only [List.mem_append, List.mem_cons]
    tauto
  · simp [hj]

theorem removeDependency_subset (j : Fin n) : removeDependency g i q j ⊆ g j := by
  unfold removeDependency
  by_cases hj : j = i
  · subst hj
    rw [Function.update_self]
    exact List.eraseP_subset
  · rw [Function.update_of_ne hj]
    exact List.Subset.refl _

theorem mem_changeFirst {a : DepAction} {x : Dependency n} (h : x ∈ changeFirst q a ds) :
    x ∈ ds ∨ ∃ d ∈ ds, x = { d with action := a } := by
  induction ds with
  | nil => cases h
  | cons y ys ih =>
      rw [changeFirst] at h
      split at h
      · rcases List.mem_cons.mp h with rfl | hx
        · exact .inr ⟨y, by simp, rfl⟩
        · exact .inl (by simp [hx])
      · rcases List.mem_cons.mp h with rfl | hx
        · exact .inl (by simp)
        · rcases ih hx with hx | ⟨d, hd, rfl⟩
          · exact .inl (by simp [hx])
          · exact .inr ⟨d, by simp [hd], rfl⟩

theorem mem_changeAction {a : DepAction} {x : Dependency n} (h : x ∈ changeAction g i q a j) :
    x ∈ g j ∨ ∃ d ∈ g j, x = { d with action := a } := by
  unfold changeAction at h
  by_cases hj : j = i
  · subst hj
    rw [Function.update_self] at h
    exact mem_changeFirst h
  · rw [Function.update_of_ne hj] at h
    exact .inl h

theorem targets_changeAction (a : DepAction) : targets (changeAction g i q a) = targets g := by
  funext j
  unfold targets changeAction
  by_cases hj : j = i
  · subst hj
    rw [Function.update_self]
    induction g j with
    | nil => rfl
    | cons x xs ih =>
        rw [changeFirst]
        split
        · have hblocks : ({ x with action := a } : Dependency n).blocks = x.blocks := rfl
          rw [List.filter_cons, List.filter_cons, hblocks]
          split <;> rfl
        · rw [List.filter_cons, List.filter_cons]
          split
          · rw [List.map_cons, List.map_cons, ih]
          · exact ih
  · rw [Function.update_of_ne hj]

theorem targets_removeDependency (g : GraphMap n) (i : Fin n) (q : Query n) (j : Fin n) :
    targets (removeDependency g i q) j ⊆ targets g j := by
  intro x hx
  obtain ⟨d, hd, hblocks⟩ := mem_targets.mp hx
  exact mem_targets.mpr ⟨d, removeDependency_subset j hd, hblocks⟩

theorem targets_addDependency_of_ne (hj : j ≠ i) :
    targets (addDependency g i d) j = targets g j := by
  rw [targets, addDependency, Function.update_of_ne hj, targets]

theorem targets_addDependency_of_soft (h : d.blocks = false) :
    ∀ j, targets (addDependency g i d) j ⊆ targets g j := by
  intro j x hx
  obtain ⟨y, hy, hblocks, hto⟩ := mem_targets.mp hx
  rcases mem_addDependency.mp hy with ⟨-, rfl⟩ | hy
  · rw [h] at hblocks
    cases hblocks
  · exact mem_targets.mpr ⟨y, hy, hblocks, hto⟩

end

end Dimemas.Utils.Graph
