import Dimemas.Utils.DeadlockAnalysis
import Mathlib.Data.List.TakeWhile
/-!
# Dependencies of global operations

The global operations of ranks that belong to several communicators. The dependencies of the
analysis are those of the ranks that wait as long as no rank finds the dependency of another
communicator with the same operation.
-/

namespace Dimemas.Utils.CollectiveDependencies

open Dimemas.Library.Transitions
open Dimemas.Utils.Graph
open Dimemas.Utils.DeadlockAnalysis

variable {n : Nat}

/-- The communicators of an application, and the global operations that all members of one issue
in this order. -/
structure Application (n : Nat) where
  ranks : Nat → List (Fin n)
  nodup : ∀ c, (ranks c).Nodup
  glopId : Nat → Nat → Nat

/-- The analyser, the communicator in whose operation a rank is blocked, the number of operations
that are complete and what the last event returned. -/
structure State (n : Nat) where
  analyzer : Analyzer n
  inside : Fin n → Option Nat
  completed : Nat → Nat
  returned : Bool

def State.initial : State n := ⟨.init, fun _ => none, fun _ => 0, false⟩

def State.graph (s : State n) : GraphMap n := s.analyzer.graph

def Application.nextGlop (app : Application n) (s : State n) (c : Nat) : Nat :=
  app.glopId c (s.completed c)

/-- All members are in the operation when `b` enters it. -/
def Last (app : Application n) (s : State n) (b : Fin n) (c : Nat) : Prop :=
  ∀ a ∈ app.ranks c, a = b ∨ s.inside a = some c

instance (app : Application n) (s : State n) (b : Fin n) (c : Nat) : Decidable (Last app s b c) :=
  inferInstanceAs (Decidable (∀ a ∈ app.ranks c, _))

/-- The member `b` of a communicator is blocked, or all members leave with it. -/
def State.entered (app : Application n) (s : State n) (b : Fin n) (c : Nat)
    (analyzer : Analyzer n) (returned : Bool) : State n :=
  if Last app s b c then
    { analyzer, returned
      inside := fun a => if a ∈ app.ranks c then none else s.inside a
      completed := Function.update s.completed c (s.completed c + 1) }
  else { s with analyzer, returned, inside := Function.update s.inside b (some c) }

/-- A rank that enters the next operation of a communicator, and how much of its trace has been
read. -/
structure Entry (n : Nat) where
  rank : Fin n
  commId : Nat
  progression : ℚ

def Entry.event (app : Application n) (s : State n) (l : Entry n) : Event n :=
  ⟨l.rank, .globalOp (app.nextGlop s l.commId) l.commId, l.progression⟩

/-- A rank that is not blocked enters the next operation of a communicator. There is no event
behind one that returned TRUE. -/
def enter (endAnalysis : ℚ) (app : Application n) (s : State n) (l : Entry n) :
    Option (State n) :=
  if l.rank ∈ app.ranks l.commId ∧ s.inside l.rank = none ∧ s.returned = false then
    (communicEvent app.ranks endAnalysis s.analyzer (l.event app s)).map
      fun r => s.entered app l.rank l.commId r.1 r.2
  else none

/-- A rank is blocked in an operation that another member has not entered. -/
def WaitsFor (app : Application n) (s : State n) (a b : Fin n) : Prop :=
  ∃ c, s.inside a = some c ∧ b ∈ app.ranks c ∧ s.inside b ≠ some c

/-- The dependencies of global operations are those of the ranks that wait, each of them once. -/
def ArcsExact (app : Application n) (s : State n) : Prop :=
  ∀ a, (((s.graph a).filter fun d => d.type = .glop).map Dependency.toTask).Nodup ∧
    ∀ b, (∃ d ∈ s.graph a, d.type = .glop ∧ d.toTask = b) ↔ WaitsFor app s a b

/-- No other member is blocked in the same operation on another communicator of the rank. -/
def NoForeign (app : Application n) (s : State n) (l : Entry n) : Prop :=
  ∀ a ∈ app.ranks l.commId, ∀ c, s.inside a = some c → l.rank ∈ app.ranks c →
    app.nextGlop s c = app.nextGlop s l.commId → c = l.commId

/-- The analysis is on, and has not come to its end at the event. -/
def Looks (endAnalysis : ℚ) (s : State n) (l : Entry n) : Prop :=
  s.analyzer.withDeadlockAnalysis = true ∧ l.progression < endAnalysis

/-- The analysis looks at the event or the communicator has no other member, and no other member is
blocked in the same operation elsewhere. -/
def Watched (endAnalysis : ℚ) (app : Application n) (s : State n) (l : Entry n) : Prop :=
  (Looks endAnalysis s l ∨ ∀ a ∈ app.ranks l.commId, a = l.rank) ∧ NoForeign app s l

/-! ## Lists of dependencies -/

section

variable {ds : List (Dependency n)} {d : Dependency n} {b : Fin n}

/-- The dependencies of a rank in the order of `GRAPH_add_dependency`, at most one on each rank. -/
def Ordered (ds : List (Dependency n)) : Prop := ds.Pairwise fun x y => x.toTask < y.toTask

def Global (ds : List (Dependency n)) : Prop :=
  ∀ d ∈ ds, d = globalDependency d.toTask d.globalOp

/-- The insertion of `GRAPH_add_dependency`. -/
def insertDependency (d : Dependency n) (ds : List (Dependency n)) : List (Dependency n) :=
  ds.takeWhile (fun x => x.toTask < d.toTask) ++ d :: ds.dropWhile fun x => x.toTask < d.toTask

theorem mem_insertDependency {x : Dependency n} :
    x ∈ insertDependency d ds ↔ x = d ∨ x ∈ ds := by
  have hsplit := List.takeWhile_append_dropWhile (p := fun x => decide (x.toTask < d.toTask))
    (l := ds)
  conv_rhs => rw [← hsplit]
  unfold insertDependency
  simp only [List.mem_append, List.mem_cons]
  tauto

theorem Ordered.insertDependency (h : Ordered ds) (hnew : ∀ x ∈ ds, x.toTask ≠ d.toTask) :
    Ordered (insertDependency d ds) := by
  unfold CollectiveDependencies.insertDependency Ordered
  have hsplit := List.takeWhile_append_dropWhile (p := fun x => decide (x.toTask < d.toTask))
    (l := ds)
  have hbehind : ∀ x ∈ ds.dropWhile (fun x => x.toTask < d.toTask), d.toTask < x.toTask := by
    intro x hx
    have hmem : x ∈ ds := by
      rw [← hsplit]
      exact List.mem_append_right _ hx
    apply lt_of_le_of_ne _ (Ne.symm (hnew x hmem))
    cases hdrop : ds.dropWhile (fun x => x.toTask < d.toTask) with
    | nil =>
        rw [hdrop] at hx
        cases hx
    | cons y ys =>
        have hy : ¬ y.toTask < d.toTask := by
          have hhead := List.head?_dropWhile_not (fun x => decide (x.toTask < d.toTask)) ds
          rw [hdrop] at hhead
          simpa using hhead
        rw [hdrop] at hx
        have hrest : (y :: ys).Pairwise fun x y => x.toTask < y.toTask := by
          have hpair : ds.Pairwise fun x y => x.toTask < y.toTask := h
          rw [← hsplit, List.pairwise_append, hdrop] at hpair
          exact hpair.2.1
        rcases List.mem_cons.mp hx with hxy | hx
        · rw [hxy]
          exact not_lt.mp hy
        · exact (not_lt.mp hy).trans (le_of_lt ((List.pairwise_cons.mp hrest).1 x hx))
  have hpair : ds.Pairwise fun x y => x.toTask < y.toTask := h
  rw [← hsplit, List.pairwise_append] at hpair
  apply List.pairwise_append.mpr
  refine ⟨hpair.1, List.pairwise_cons.mpr ⟨hbehind, hpair.2.1⟩, fun x hx y hy => ?_⟩
  have hlt : x.toTask < d.toTask := by
    have htake := List.mem_takeWhile_imp hx
    simpa using htake
  rcases List.mem_cons.mp hy with rfl | hy
  · exact hlt
  · exact hlt.trans (hbehind y hy)

theorem asksFor_globalDependency (toTask : Fin n) (glopId : Nat) :
    (globalQuery b).asksFor (globalDependency toTask glopId) = decide (toTask = b) := by
  rw [Bool.eq_iff_iff]
  simp [globalQuery, globalDependency, Query.asksFor, Query.selects, Query.sameChannel,
    Query.comparesChannel, DepAction.code]
  exact decide_eq_true_iff

theorem asksFor_globalQuery (h : d = globalDependency d.toTask d.globalOp) :
    (globalQuery b).asksFor d = decide (d.toTask = b) := by
  have hasks := asksFor_globalDependency (b := b) d.toTask d.globalOp
  rwa [← h] at hasks

theorem getFirst_globalQuery (hordered : Ordered ds) (hglobal : Global ds) :
    getFirst (globalQuery b) ds = ds.find? fun d => d.toTask = b := by
  have hle : ds.Pairwise fun x y => x.toTask ≤ y.toTask :=
    List.Pairwise.imp (fun h => le_of_lt h) hordered
  rw [getFirst_eq_find? hle]
  clear hordered hle
  induction ds with
  | nil => rfl
  | cons d ds ih =>
      have hrest : Global ds := fun x hx => hglobal x (List.mem_cons_of_mem _ hx)
      rw [List.find?_cons, List.find?_cons, asksFor_globalQuery (hglobal d List.mem_cons_self),
        ih hrest]

theorem mem_eraseP_globalQuery (hordered : Ordered ds) (hglobal : Global ds) :
    d ∈ ds.eraseP (globalQuery b).asksFor ↔ d ∈ ds ∧ d.toTask ≠ b := by
  induction ds with
  | nil => simp
  | cons x xs ih =>
      obtain ⟨hlt, hordered⟩ := List.pairwise_cons.mp hordered
      have hrest : Global xs := fun y hy => hglobal y (List.mem_cons_of_mem _ hy)
      have hasks := asksFor_globalQuery (b := b) (hglobal x List.mem_cons_self)
      rw [List.eraseP_cons, hasks]
      by_cases hx : x.toTask = b
      · simp only [hx, decide_true, cond_true, List.mem_cons]
        constructor
        · intro hd
          refine ⟨.inr hd, ?_⟩
          rw [← hx]
          exact ne_of_gt (hlt d hd)
        · rintro ⟨rfl | hd, hne⟩
          · exact absurd hx hne
          · exact hd
      · simp only [hx, decide_false, cond_false, List.mem_cons, ih hordered hrest]
        constructor
        · rintro (rfl | ⟨hd, hne⟩)
          · exact ⟨.inl rfl, hx⟩
          · exact ⟨.inr hd, hne⟩
        · rintro ⟨rfl | hd, hne⟩
          · exact .inl rfl
          · exact .inr ⟨hd, hne⟩

end

/-! ## The ranks of a communicator -/

section

variable {g : GraphMap n} {b i j : Fin n} {glopId : Nat} {f : Bool} {d : Dependency n}

/-- The graph has dependencies of global operations only, in the order of the ranks. -/
def WellKept (g : GraphMap n) : Prop := ∀ i, Ordered (g i) ∧ Global (g i)

/-- Rank `i` waits for `b` in a global operation of the same kind. -/
def Matched (g : GraphMap n) (b : Fin n) (glopId : Nat) (i : Fin n) : Prop :=
  ∃ d ∈ g i, d.toTask = b ∧ d.globalOp = glopId

theorem Ordered.eq_of_toTask {ds : List (Dependency n)} {x y : Dependency n} (h : Ordered ds)
    (hx : x ∈ ds) (hy : y ∈ ds) (hto : x.toTask = y.toTask) : x = y := by
  induction ds with
  | nil => cases hx
  | cons z zs ih =>
      obtain ⟨hlt, hrest⟩ := List.pairwise_cons.mp h
      rcases List.mem_cons.mp hx with rfl | hx
      · rcases List.mem_cons.mp hy with rfl | hy
        · rfl
        · exact absurd hto (ne_of_lt (hlt y hy))
      · rcases List.mem_cons.mp hy with rfl | hy
        · exact absurd hto.symm (ne_of_lt (hlt x ‹x ∈ zs›))
        · exact ih hrest ‹x ∈ zs› hy

theorem getDependency_eq_some (h : WellKept g) :
    getDependency g i (globalQuery b) = some d ↔ d ∈ g i ∧ d.toTask = b := by
  rw [getDependency, getFirst_globalQuery (h i).1 (h i).2]
  constructor
  · intro hfind
    have hto := List.find?_some hfind
    exact ⟨List.mem_of_find?_eq_some hfind, by simpa using hto⟩
  · intro ⟨hd, hto⟩
    cases hfind : (g i).find? fun x => x.toTask = b with
    | none =>
        have hno := List.find?_eq_none.mp hfind d hd
        simp [hto] at hno
    | some x =>
        have hx := List.find?_some hfind
        congr 1
        apply (h i).1.eq_of_toTask (List.mem_of_find?_eq_some hfind) hd
        rw [hto]
        simpa using hx

/-- A rank in the loop: its dependency is removed, or the rank of the event gets one on it. -/
theorem globalRank_cases (h : WellKept g) (glopId : Nat) (hi : i ≠ b) :
    (Matched g b glopId i ∧ (globalRank glopId b (g, f) i).1 = removeDependency g i (globalQuery b)) ∨
    (¬ Matched g b glopId i ∧
      (globalRank glopId b (g, f) i).1 = addDependency g b (globalDependency i glopId)) := by
  unfold globalRank
  rw [if_neg (Ne.symm hi)]
  cases hget : getDependency g i (globalQuery b) with
  | none =>
      right
      refine ⟨?_, rfl⟩
      intro ⟨d, hd, hto, _⟩
      have hsome := (getDependency_eq_some h).mpr ⟨hd, hto⟩
      rw [hget] at hsome
      cases hsome
  | some d =>
      obtain ⟨hd, hto⟩ := (getDependency_eq_some h).mp hget
      by_cases hglop : d.globalOp = glopId
      · left
        refine ⟨⟨d, hd, hto, hglop⟩, ?_⟩
        simp only [hglop, if_true]
      · right
        constructor
        · intro ⟨x, hx, hxto, hxglop⟩
          have hxd := (h i).1.eq_of_toTask hx hd (hxto.trans hto.symm)
          rw [hxd] at hxglop
          exact hglop hxglop
        · simp only [hglop, if_false]

theorem addDependency_self (g : GraphMap n) (b : Fin n) (d : Dependency n) :
    addDependency g b d b = insertDependency d (g b) := Function.update_self ..

theorem WellKept.add (h : WellKept g) (hnew : ∀ d ∈ g b, d.toTask ≠ i) :
    WellKept (addDependency g b (globalDependency i glopId)) := by
  intro j
  by_cases hj : j = b
  · subst hj
    rw [addDependency_self]
    constructor
    · exact (h j).1.insertDependency hnew
    · intro d hd
      rcases mem_insertDependency.mp hd with rfl | hd
      · rfl
      · exact (h j).2 d hd
  · rw [addDependency, Function.update_of_ne hj]
    exact h j

theorem WellKept.remove (h : WellKept g) (b i : Fin n) :
    WellKept (removeDependency g i (globalQuery b)) := by
  intro j
  have hsub : (removeDependency g i (globalQuery b) j).Sublist (g j) := by
    unfold removeDependency
    by_cases hj : j = i
    · subst hj
      rw [Function.update_self]
      exact List.eraseP_sublist
    · rw [Function.update_of_ne hj]
  exact ⟨(h j).1.sublist hsub, fun d hd => (h j).2 d (hsub.subset hd)⟩

theorem mem_removeDependency (h : WellKept g) :
    d ∈ removeDependency g i (globalQuery b) j ↔ d ∈ g j ∧ ¬ (j = i ∧ d.toTask = b) := by
  unfold removeDependency
  by_cases hj : j = i
  · subst hj
    rw [Function.update_self, mem_eraseP_globalQuery (h j).1 (h j).2]
    simp
  · rw [Function.update_of_ne hj]
    simp [hj]

theorem mem_globalRank (h : WellKept g) (hi : i ≠ b) :
    d ∈ (globalRank glopId b (g, f) i).1 j ↔
      (d ∈ g j ∧ ¬ (j = i ∧ d.toTask = b ∧ d.globalOp = glopId)) ∨
      (j = b ∧ d = globalDependency i glopId ∧ ¬ Matched g b glopId i) := by
  rcases globalRank_cases (f := f) h glopId hi with ⟨hmatched, heq⟩ | ⟨hno, heq⟩
  · rw [heq, mem_removeDependency h]
    simp only [hmatched, not_true_eq_false, and_false, or_false]
    obtain ⟨x, hx, hxto, hxglop⟩ := hmatched
    apply and_congr_right
    intro hd
    apply not_congr
    apply and_congr_right
    intro hj
    subst hj
    constructor
    · intro hto
      rw [(h j).1.eq_of_toTask hd hx (hto.trans hxto.symm)]
      exact ⟨hxto, hxglop⟩
    · exact And.left
  · rw [heq, mem_addDependency]
    have hkept : d ∈ g j → ¬ (j = i ∧ d.toTask = b ∧ d.globalOp = glopId) := by
      intro hd ⟨hj, hto, hglop⟩
      subst hj
      exact hno ⟨d, hd, hto, hglop⟩
    tauto

theorem mem_foldl_globalRank {rest : List (Fin n)} (h : WellKept g) (glopId : Nat)
    (hnodup : rest.Nodup) (hnew : ∀ d ∈ g b, d.toTask ∉ rest) :
    WellKept (rest.foldl (globalRank glopId b) (g, f)).1 ∧
    ∀ j d, d ∈ (rest.foldl (globalRank glopId b) (g, f)).1 j ↔
      (d ∈ g j ∧ ¬ (j ∈ rest ∧ j ≠ b ∧ d.toTask = b ∧ d.globalOp = glopId)) ∨
      (j = b ∧ ∃ i ∈ rest, i ≠ b ∧ d = globalDependency i glopId ∧ ¬ Matched g b glopId i) := by
  induction rest generalizing g f with
  | nil => simp [h]
  | cons i rest ih =>
      obtain ⟨hi, hnodup⟩ := List.nodup_cons.mp hnodup
      rw [List.foldl_cons]
      by_cases hib : i = b
      · have hsame : globalRank glopId b (g, f) i = (g, f) := if_pos hib.symm
        rw [hsame]
        have hrest := ih (f := f) h hnodup fun d hd hmem => hnew d hd (List.mem_cons_of_mem _ hmem)
        refine ⟨hrest.1, fun j d => ?_⟩
        rw [hrest.2 j d]
        subst hib
        by_cases hji : j = i
        · simp [hji]
        · simp [hji]
      · set acc := globalRank glopId b (g, f) i with hacc
        have hone : ∀ j d, d ∈ acc.1 j ↔
            (d ∈ g j ∧ ¬ (j = i ∧ d.toTask = b ∧ d.globalOp = glopId)) ∨
            (j = b ∧ d = globalDependency i glopId ∧ ¬ Matched g b glopId i) :=
          fun j d => mem_globalRank h hib
        have hkept : WellKept acc.1 := by
          rcases globalRank_cases (f := f) h glopId hib with ⟨-, heq⟩ | ⟨-, heq⟩
          · rw [hacc, heq]
            exact h.remove b i
          · rw [hacc, heq]
            apply h.add
            intro d hd hto
            apply hnew d hd
            simp [hto]
        have hmatched : ∀ k ∈ rest, k ≠ b → (Matched acc.1 b glopId k ↔ Matched g b glopId k) := by
          intro k hk hkb
          have hki : k ≠ i := fun hki => hi (hki ▸ hk)
          unfold Matched
          simp [hone, hki, hkb]
        have hnew' : ∀ d ∈ acc.1 b, d.toTask ∉ rest := by
          intro d hd hmem
          rcases (hone b d).mp hd with ⟨hd, -⟩ | ⟨-, rfl, -⟩
          · exact hnew d hd (List.mem_cons_of_mem _ hmem)
          · exact hi hmem
        have hrest := ih (f := acc.2) hkept hnodup hnew'
        refine ⟨hrest.1, fun j d => ?_⟩
        have hblocked : (∃ k ∈ rest, k ≠ b ∧ d = globalDependency k glopId ∧
            ¬ Matched acc.1 b glopId k) ↔ ∃ k ∈ rest, k ≠ b ∧ d = globalDependency k glopId ∧
            ¬ Matched g b glopId k := by
          apply exists_congr
          intro k
          apply and_congr_right
          intro hk
          apply and_congr_right
          intro hkb
          rw [hmatched k hk hkb]
        rw [hrest.2 j d, hone, hblocked]
        simp only [List.mem_cons, exists_eq_or_imp]
        by_cases hjb : j = b
        · have hji : j ≠ i := fun hji => hib (hji.symm.trans hjb)
          simp only [hjb, Ne.symm hib, hib, ne_eq, not_true_eq_false, not_false_eq_true, true_and,
            false_and, and_false, and_true, or_assoc]
        · simp only [hjb, ne_eq, not_false_eq_true, true_and, false_and, or_false, and_assoc,
            ← not_or, ← or_and_right]

end

/-! ## Runs -/

section

variable {app : Application n} {s s' : State n} {l : Entry n} {a b x : Fin n} {c : Nat}
  {d : Dependency n} {endAnalysis : ℚ} {analyzer : Analyzer n} {returned : Bool}

@[simp] theorem graph_entered :
    (s.entered app b c analyzer returned).graph = analyzer.graph := by
  unfold State.entered State.graph
  split <;> rfl

/-- What holds as long as no rank finds the dependency of another communicator. -/
structure Exactly (app : Application n) (s : State n) : Prop where
  kept : WellKept s.graph
  arcs : ∀ a b, (∃ d ∈ s.graph a, d.toTask = b) ↔ WaitsFor app s a b
  glop : ∀ a c, s.inside a = some c → ∀ d ∈ s.graph a, d.globalOp = app.nextGlop s c
  member : ∀ a c, s.inside a = some c → a ∈ app.ranks c
  logOpen : s.analyzer.withDeadlockAnalysis = true → s.analyzer.logOpen = true

theorem Exactly.arcsExact (h : Exactly app s) : ArcsExact app s := by
  have htype : ∀ a, ∀ d ∈ s.graph a, d.type = .glop := by
    intro a d hd
    rw [(h.kept a).2 d hd]
    rfl
  intro a
  constructor
  · have hsub : ((s.graph a).filter fun d => d.type = .glop).Sublist (s.graph a) :=
      List.filter_sublist
    apply List.pairwise_map.mpr
    exact ((h.kept a).1.sublist hsub).imp fun hlt => ne_of_lt hlt
  · intro b
    rw [← h.arcs a b]
    constructor
    · intro ⟨d, hd, _, hto⟩
      exact ⟨d, hd, hto⟩
    · intro ⟨d, hd, hto⟩
      exact ⟨d, hd, htype a d hd, hto⟩

theorem Exactly.graph_eq_nil (h : Exactly app s) (hnone : s.inside b = none) : s.graph b = [] := by
  apply List.eq_nil_iff_forall_not_mem.mpr
  intro d hd
  obtain ⟨c', hin, -⟩ := (h.arcs b d.toTask).mp ⟨d, hd, rfl⟩
  rw [hnone] at hin
  cases hin

theorem enter_cases (hstep : ofPartial (enter endAnalysis app) s l s') :
    l.rank ∈ app.ranks l.commId ∧ s.inside l.rank = none ∧
      ∃ r, communicEvent app.ranks endAnalysis s.analyzer (l.event app s) = some r ∧
        s' = s.entered app l.rank l.commId r.1 r.2 := by
  simp only [ofPartial, enter, Option.ite_none_right_eq_some, Option.map_eq_some_iff] at hstep
  obtain ⟨⟨hmem, hnone, -⟩, r, hevent, hs'⟩ := hstep
  exact ⟨hmem, hnone, r, hevent, hs'.symm⟩

theorem graph_of_enter (h : Exactly app s) (hlooks : Looks endAnalysis s l)
    (hstep : ofPartial (enter endAnalysis app) s l s') :
    (∃ graph returned, s' = s.entered app l.rank l.commId { s.analyzer with graph } returned) ∧
    WellKept s'.graph ∧
    ∀ j d, d ∈ s'.graph j ↔
      (d ∈ s.graph j ∧ ¬ (j ∈ app.ranks l.commId ∧ d.toTask = l.rank ∧
        d.globalOp = app.nextGlop s l.commId)) ∨
      (j = l.rank ∧ ∃ i ∈ app.ranks l.commId, i ≠ l.rank ∧
        d = globalDependency i (app.nextGlop s l.commId) ∧
        ¬ Matched s.graph l.rank (app.nextGlop s l.commId) i) := by
  obtain ⟨hmem, hnone, r, hevent, rfl⟩ := enter_cases hstep
  obtain ⟨b, c, prog⟩ := l
  have hempty : s.graph b = [] := h.graph_eq_nil hnone
  have hstrong : strongDependencies s.analyzer.graph b = [] := by
    rw [strongDependencies, show s.analyzer.graph b = [] from hempty]
    rfl
  rw [communicEvent, if_pos hlooks.1,
    newCommunicEvent_of_coordinated _ (h.logOpen hlooks.1) hlooks.2 hstrong] at hevent
  obtain ⟨⟨graph, returned⟩, hstate, rfl⟩ := Option.map_eq_some_iff.mp hevent
  obtain ⟨o, hupdate⟩ := update_of_newState hstate
  have hgraph : graph =
      ((app.ranks c).foldl (globalRank (app.nextGlop s c) b) (s.graph, false)).1 :=
    (Prod.mk.inj (Option.some.inj hupdate)).1.symm
  have hloop := mem_foldl_globalRank (f := false) (b := b) h.kept (app.nextGlop s c)
    (app.nodup c) (by simp [hempty])
  refine ⟨⟨graph, returned, rfl⟩, ?_, fun j d => ?_⟩
  · rw [graph_entered]
    rw [← hgraph] at hloop
    exact hloop.1
  · rw [graph_entered]
    show d ∈ graph j ↔ _
    rw [hgraph, hloop.2 j d]
    by_cases hj : j = b
    · simp [hj, hempty]
    · simp [hj]

theorem graph_of_not_looks (h : Exactly app s) (hlooks : ¬ Looks endAnalysis s l)
    (hstep : ofPartial (enter endAnalysis app) s l s') :
    ∃ logOpen, s' = s.entered app l.rank l.commId ⟨s.graph, logOpen, false⟩ false := by
  obtain ⟨-, -, r, hevent, rfl⟩ := enter_cases hstep
  obtain ⟨logOpen, hend⟩ := communicEvent_of_end app.ranks
    (e := l.event app s) h.logOpen hlooks
  obtain rfl := Option.some.inj (hend.symm.trans hevent)
  exact ⟨logOpen, rfl⟩

/-- A dependency on the rank of the event that has its operation is of its communicator. -/
theorem glop_eq_iff (h : Exactly app s) (hforeign : NoForeign app s l)
    (ha : a ∈ app.ranks l.commId) (hd : d ∈ s.graph a) (hto : d.toTask = l.rank) :
    d.globalOp = app.nextGlop s l.commId ↔ s.inside a = some l.commId := by
  obtain ⟨c', hin, hb, -⟩ := (h.arcs a l.rank).mp ⟨d, hd, hto⟩
  rw [h.glop a c' hin d hd, hin]
  constructor
  · intro heq
    rw [hforeign a ha c' hin hb heq]
  · intro heq
    rw [Option.some.inj heq]

theorem matched_iff (h : Exactly app s) (hnone : s.inside l.rank = none)
    (hb : l.rank ∈ app.ranks l.commId) (hforeign : NoForeign app s l)
    (ha : a ∈ app.ranks l.commId) :
    Matched s.graph l.rank (app.nextGlop s l.commId) a ↔ s.inside a = some l.commId := by
  constructor
  · intro ⟨d, hd, hto, hglop⟩
    exact (glop_eq_iff h hforeign ha hd hto).mp hglop
  · intro hin
    have hwaits : WaitsFor app s a l.rank := ⟨l.commId, hin, hb, by simp [hnone]⟩
    obtain ⟨d, hd, hto⟩ := (h.arcs a l.rank).mpr hwaits
    exact ⟨d, hd, hto, (glop_eq_iff h hforeign ha hd hto).mpr hin⟩

/-- The dependencies that are left are those of the other communicators, and the rank of the event
has them on the members that are not blocked in its operation. -/
theorem arcs_of_enter (h : Exactly app s) (hlooks : Looks endAnalysis s l)
    (hforeign : NoForeign app s l) (hstep : ofPartial (enter endAnalysis app) s l s') :
    (∃ d ∈ s'.graph a, d.toTask = x) ↔
      (WaitsFor app s a x ∧ ¬ (x = l.rank ∧ s.inside a = some l.commId)) ∨
      (a = l.rank ∧ x ∈ app.ranks l.commId ∧ x ≠ l.rank ∧ s.inside x ≠ some l.commId) := by
  obtain ⟨hb, hnone, -⟩ := enter_cases hstep
  obtain ⟨-, -, hmem⟩ := graph_of_enter h hlooks hstep
  simp only [hmem]
  constructor
  · intro ⟨d, hd, hto⟩
    rcases hd with ⟨hd, hno⟩ | ⟨ha, i, hi, hib, rfl, hno⟩
    · left
      refine ⟨(h.arcs a x).mp ⟨d, hd, hto⟩, ?_⟩
      intro ⟨hx, hin⟩
      have ha := h.member a l.commId hin
      have hdb : d.toTask = l.rank := hto.trans hx
      exact hno ⟨ha, hdb, (glop_eq_iff h hforeign ha hd hdb).mpr hin⟩
    · right
      have hix : i = x := hto
      subst hix
      rw [matched_iff h hnone hb hforeign hi] at hno
      exact ⟨ha, hi, hib, hno⟩
  · rintro (⟨hwaits, hno⟩ | ⟨ha, hx, hxb, hin⟩)
    · obtain ⟨d, hd, hto⟩ := (h.arcs a x).mpr hwaits
      refine ⟨d, .inl ⟨hd, ?_⟩, hto⟩
      intro ⟨ha, hdb, hglop⟩
      exact hno ⟨hto.symm.trans hdb, (glop_eq_iff h hforeign ha hd hdb).mp hglop⟩
    · refine ⟨globalDependency x (app.nextGlop s l.commId), .inr ⟨ha, x, hx, hxb, rfl, ?_⟩, rfl⟩
      rw [matched_iff h hnone hb hforeign hx]
      exact hin

theorem waitsFor_entered (h : Exactly app s) (hb : b ∈ app.ranks c) (hnone : s.inside b = none)
    (analyzer : Analyzer n) (returned : Bool) :
    WaitsFor app (s.entered app b c analyzer returned) a x ↔
      (WaitsFor app s a x ∧ ¬ (x = b ∧ s.inside a = some c)) ∨
      (a = b ∧ x ∈ app.ranks c ∧ x ≠ b ∧ s.inside x ≠ some c) := by
  unfold State.entered WaitsFor
  split
  · next hlast =>
      by_cases ha : a ∈ app.ranks c
      · simp only [if_pos ha, reduceCtorEq, false_and, exists_false, false_iff]
        rintro (⟨⟨c', hin, hx, hout⟩, hno⟩ | ⟨rfl, hx, hxb, hout⟩)
        · rcases hlast a ha with rfl | hac
          · rw [hnone] at hin
            cases hin
          · obtain rfl := Option.some.inj (hac.symm.trans hin)
            rcases hlast x hx with hxb | hxc
            · exact hno ⟨hxb, hac⟩
            · exact hout hxc
        · rcases hlast x hx with hxb' | hxc
          · exact hxb hxb'
          · exact hout hxc
      · simp only [if_neg ha]
        constructor
        · intro ⟨c', hin, hx, hout⟩
          have hcc : c ≠ c' := by
            rintro rfl
            exact ha (h.member a c hin)
          refine .inl ⟨⟨c', hin, hx, ?_⟩, fun hbc => ha (h.member a c hbc.2)⟩
          by_cases hxc : x ∈ app.ranks c
          · rcases hlast x hxc with rfl | hxin
            · simp [hnone]
            · simp [hxin, hcc]
          · simpa [hxc] using hout
        · rintro (⟨⟨c', hin, hx, hout⟩, hno⟩ | ⟨rfl, -⟩)
          · refine ⟨c', hin, hx, ?_⟩
            split
            · simp
            · exact hout
          · exact absurd hb ha
  · simp only
    by_cases ha : a = b
    · subst ha
      by_cases hx : x = a
      · simp [hx, hnone]
      · simp [hx, hnone]
    · by_cases hx : x = b
      · subst hx
        simp only [Function.update_of_ne ha, Function.update_self, hnone, ha, true_and, false_and,
          or_false, ne_eq, Option.some.injEq, reduceCtorEq, not_false_eq_true, and_true]
        constructor
        · intro ⟨c', hin, hmem, hcc⟩
          refine ⟨⟨c', hin, hmem⟩, fun hac => ?_⟩
          exact hcc (Option.some.inj (hac.symm.trans hin))
        · intro ⟨⟨c', hin, hmem⟩, hac⟩
          refine ⟨c', hin, hmem, ?_⟩
          rintro rfl
          exact hac hin
      · simp [ha, hx]

theorem exactly_initial : Exactly app .initial where
  kept i := ⟨List.Pairwise.nil, fun d hd => by cases hd⟩
  arcs a b := by simp [State.initial, State.graph, Analyzer.init, GraphMap.empty, WaitsFor]
  glop a c hin := by cases hin
  member a c hin := by cases hin
  logOpen _ := rfl

/-- A rank that is blocked behind an event is the rank of the event, or was blocked in the same
operation. -/
theorem inside_entered (h : Exactly app s) {c' : Nat} (hb : b ∈ app.ranks c)
    (hin : (s.entered app b c analyzer returned).inside a = some c') :
    ((a = b ∧ c' = c) ∨ (a ≠ b ∧ s.inside a = some c')) ∧
      app.nextGlop (s.entered app b c analyzer returned) c' = app.nextGlop s c' := by
  unfold State.entered at hin ⊢
  split at hin
  · next hlast =>
      rw [if_pos hlast]
      simp only at hin
      split at hin
      · cases hin
      · next ha =>
          have hcc : c' ≠ c := by
            rintro rfl
            exact ha (h.member a c' hin)
          have hab : a ≠ b := by
            rintro rfl
            exact ha hb
          refine ⟨.inr ⟨hab, hin⟩, ?_⟩
          simp only [Application.nextGlop, Function.update_of_ne hcc]
  · next hlast =>
      rw [if_neg hlast]
      simp only at hin
      refine ⟨?_, rfl⟩
      by_cases ha : a = b
      · subst ha
        rw [Function.update_self] at hin
        exact .inl ⟨rfl, (Option.some.inj hin).symm⟩
      · rw [Function.update_of_ne ha] at hin
        exact .inr ⟨ha, hin⟩

@[simp] theorem analyzer_entered :
    (s.entered app b c analyzer returned).analyzer = analyzer := by
  unfold State.entered
  split <;> rfl

theorem Exactly.keep_of_looks (h : Exactly app s) (hlooks : Looks endAnalysis s l)
    (hforeign : NoForeign app s l) (hstep : ofPartial (enter endAnalysis app) s l s') :
    Exactly app s' := by
  obtain ⟨hb, hnone, -⟩ := enter_cases hstep
  obtain ⟨⟨graph, returned, rfl⟩, hkept, hmem⟩ := graph_of_enter h hlooks hstep
  constructor
  · exact hkept
  · intro a x
    rw [arcs_of_enter h hlooks hforeign hstep, waitsFor_entered h hb hnone]
  · intro a c' hin d hd
    obtain ⟨hcase, hglop⟩ := inside_entered h hb hin
    rw [hglop]
    rcases (hmem a d).mp hd with ⟨hd, -⟩ | ⟨ha, i, -, -, rfl, -⟩
    · rcases hcase with ⟨rfl, -⟩ | ⟨-, hin⟩
      · rw [h.graph_eq_nil hnone] at hd
        cases hd
      · exact h.glop a c' hin d hd
    · rcases hcase with ⟨-, rfl⟩ | ⟨hne, -⟩
      · rfl
      · exact absurd ha hne
  · intro a c' hin
    rcases (inside_entered h hb hin).1 with ⟨rfl, rfl⟩ | ⟨-, hin⟩
    · exact hb
    · exact h.member a c' hin
  · rw [analyzer_entered]
    exact h.logOpen

/-- An event on a communicator without other members does not block its rank. -/
theorem Exactly.keep_of_alone (h : Exactly app s) (hlooks : ¬ Looks endAnalysis s l)
    (halone : ∀ a ∈ app.ranks l.commId, a = l.rank)
    (hstep : ofPartial (enter endAnalysis app) s l s') : Exactly app s' := by
  obtain ⟨hb, hnone, -⟩ := enter_cases hstep
  obtain ⟨logOpen, rfl⟩ := graph_of_not_looks h hlooks hstep
  have hnot : ∀ a, s.inside a ≠ some l.commId := by
    intro a hin
    rw [halone a (h.member a l.commId hin), hnone] at hin
    cases hin
  constructor
  · rw [graph_entered]
    exact h.kept
  · intro a x
    rw [graph_entered, waitsFor_entered h hb hnone, h.arcs]
    constructor
    · exact fun hwaits => .inl ⟨hwaits, fun hx => hnot a hx.2⟩
    · rintro (⟨hwaits, -⟩ | ⟨-, hx, hne, -⟩)
      · exact hwaits
      · exact absurd (halone x hx) hne
  · intro a c' hin d hd
    obtain ⟨hcase, hglop⟩ := inside_entered h hb hin
    rw [graph_entered] at hd
    have hd : d ∈ s.graph a := hd
    rw [hglop]
    rcases hcase with ⟨rfl, -⟩ | ⟨-, hin⟩
    · rw [h.graph_eq_nil hnone] at hd
      cases hd
    · exact h.glop a c' hin d hd
  · intro a c' hin
    rcases (inside_entered h hb hin).1 with ⟨rfl, rfl⟩ | ⟨-, hin⟩
    · exact hb
    · exact h.member a c' hin
  · rw [analyzer_entered]
    exact fun hoff => Bool.noConfusion hoff

theorem Exactly.keep (h : Exactly app s) (hwatched : Watched endAnalysis app s l)
    (hstep : ofPartial (enter endAnalysis app) s l s') : Exactly app s' := by
  by_cases hlooks : Looks endAnalysis s l
  · exact h.keep_of_looks hlooks hwatched.2 hstep
  · exact h.keep_of_alone hlooks (hwatched.1.resolve_left hlooks) hstep

/-- An event that the analysis does not look at leaves the arcs of the members that waited, and adds
none on those that have not entered. -/
theorem alone_of_arcsExact (h : Exactly app s) (hlooks : ¬ Looks endAnalysis s l)
    (hstep : ofPartial (enter endAnalysis app) s l s') (hexact : ArcsExact app s') :
    ∀ a ∈ app.ranks l.commId, a = l.rank := by
  obtain ⟨hb, hnone, -⟩ := enter_cases hstep
  obtain ⟨logOpen, rfl⟩ := graph_of_not_looks h hlooks hstep
  have hwaits : ∀ i j,
      WaitsFor app (s.entered app l.rank l.commId ⟨s.graph, logOpen, false⟩ false) i j ↔
        WaitsFor app s i j := by
    intro i j
    rw [← (hexact i).2 j, ← (h.arcsExact i).2 j, graph_entered]
  intro a ha
  by_contra hne
  by_cases hin : s.inside a = some l.commId
  · have hold : WaitsFor app s a l.rank := ⟨l.commId, hin, hb, by simp [hnone]⟩
    rcases (waitsFor_entered h hb hnone _ _).mp ((hwaits a l.rank).mpr hold) with hnew | hnew
    · exact hnew.2 ⟨rfl, hin⟩
    · exact hne hnew.1
  · obtain ⟨c', hc', -⟩ := (hwaits l.rank a).mp
      ((waitsFor_entered h hb hnone _ _).mpr (.inr ⟨rfl, ha, hne, hin⟩))
    rw [hnone] at hc'
    cases hc'

/-- The dependency of a rank that waits on another communicator is removed. -/
theorem noForeign_of_arcsExact (h : Exactly app s) (hlooks : Looks endAnalysis s l)
    (hstep : ofPartial (enter endAnalysis app) s l s') (hexact : ArcsExact app s') :
    NoForeign app s l := by
  obtain ⟨hb, hnone, -⟩ := enter_cases hstep
  obtain ⟨⟨graph, returned, rfl⟩, hkept, hmem⟩ := graph_of_enter h hlooks hstep
  intro a ha c' hin hbc hglop
  by_contra hcc
  have hab : a ≠ l.rank := by
    rintro rfl
    rw [hnone] at hin
    cases hin
  have hlast : ¬ Last app s l.rank l.commId := by
    intro hlast
    rcases hlast a ha with hab' | hac
    · exact hab hab'
    · exact hcc (Option.some.inj (hin.symm.trans hac))
  have hwaits : WaitsFor app
      (s.entered app l.rank l.commId { s.analyzer with graph } returned) a l.rank := by
    unfold State.entered
    rw [if_neg hlast]
    refine ⟨c', ?_, hbc, ?_⟩
    · exact (Function.update_of_ne hab (some l.commId) s.inside).trans hin
    · intro heq
      have hself := (Function.update_self l.rank (some l.commId) s.inside).symm.trans heq
      exact hcc (Option.some.inj hself).symm
  obtain ⟨d, hd, -, hto⟩ := ((hexact a).2 l.rank).mpr hwaits
  rcases (hmem a d).mp hd with ⟨hd, hno⟩ | ⟨hab', -⟩
  · exact hno ⟨ha, hto, (h.glop a c' hin d hd).trans hglop⟩
  · exact hab hab'

theorem noForeign_of_alone (hnone : s.inside l.rank = none)
    (halone : ∀ a ∈ app.ranks l.commId, a = l.rank) : NoForeign app s l := by
  intro a ha c' hin
  rw [halone a ha, hnone] at hin
  cases hin

theorem watched_of_arcsExact (h : Exactly app s)
    (hstep : ofPartial (enter endAnalysis app) s l s') (hexact : ArcsExact app s') :
    Watched endAnalysis app s l := by
  by_cases hlooks : Looks endAnalysis s l
  · exact ⟨.inl hlooks, noForeign_of_arcsExact h hlooks hstep hexact⟩
  · have halone := alone_of_arcsExact h hlooks hstep hexact
    exact ⟨.inr halone, noForeign_of_alone (enter_cases hstep).2.1 halone⟩

/-- The dependencies behind a step are exact, and none is left of the operation whose last member
has entered it. -/
def ExactBehind (app : Application n) (t : Transition (State n) (Entry n)) : Prop :=
  ArcsExact app t.post ∧
    (Last app t.pre t.label.rank t.label.commId →
      ∀ a ∈ app.ranks t.label.commId, ∀ d ∈ t.post.graph a, d.type ≠ .glop)

theorem exactBehind_iff {t : Transition (State n) (Entry n)}
    (hstep : ofPartial (enter endAnalysis app) t.pre t.label t.post) :
    ExactBehind app t ↔ ArcsExact app t.post := by
  refine ⟨And.left, fun hexact => ⟨hexact, fun hlast a ha d hd htype => ?_⟩⟩
  obtain ⟨c', hin, -⟩ := ((hexact a).2 d.toTask).mp ⟨d, hd, htype, rfl⟩
  obtain ⟨-, -, r, -, hpost⟩ := enter_cases hstep
  rw [hpost, State.entered, if_pos hlast] at hin
  simp [ha] at hin

/-- The dependencies are exact behind every event of a run if and only if the analysis looks at each
event on a communicator with other members, and no rank enters an operation while another member
waits for it in the same operation of another communicator. -/
theorem collective_dependencies_exact_iff {tr : List (Transition (State n) (Entry n))}
    (hrun : Run (ofPartial (enter endAnalysis app)) .initial tr s) :
    (∀ t ∈ tr, ExactBehind app t) ↔ ∀ t ∈ tr, Watched endAnalysis app t.pre t.label := by
  have hsteps := hrun.transition_invariant (I := fun _ => True) trivial fun _ _ _ _ _ => trivial
  calc (∀ t ∈ tr, ExactBehind app t)
      ↔ ∀ t ∈ tr, ArcsExact app t.post :=
        forall₂_congr fun t ht => exactBehind_iff (hsteps t ht).2.2
    _ ↔ ∀ t ∈ tr, Watched endAnalysis app t.pre t.label :=
        hrun.forall_post_iff_of_guard exactly_initial (fun s h => h.arcsExact)
          (fun s l s' h hwatched hstep => h.keep hwatched hstep)
          (fun s l s' h hstep hexact => watched_of_arcsExact h hstep hexact)

end

/-- All ranks are members of all communicators, whose operations are of one kind. -/
def sameKind (n : Nat) : Application n where
  ranks _ := List.finRange n
  nodup _ := List.nodup_finRange n
  glopId _ _ := 0

def overlapping : Application 3 where
  ranks c := if c = 0 then List.finRange 3 else (List.finRange 3).tail
  nodup c := by split <;> decide
  glopId c _ := c

/-- The ranks of the smaller communicator meet twice before they follow rank `i`. -/
def entries (i j k : Fin 3) : List (Entry 3) :=
  [⟨i, 0, 1 / 4⟩, ⟨j, 1, 1 / 4⟩, ⟨k, 1, 1 / 4⟩, ⟨k, 1, 1 / 2⟩, ⟨j, 1, 1 / 2⟩, ⟨k, 0, 3 / 4⟩,
    ⟨j, 0, 3 / 4⟩]

theorem collective_dependencies_exact_iff_overlapping :
    (∀ t ∈ ((exec (enter 1 overlapping) .initial (entries 0 1 2)).get (by decide +kernel)).1,
      ExactBehind overlapping t) ↔
    ∀ t ∈ ((exec (enter 1 overlapping) .initial (entries 0 1 2)).get (by decide +kernel)).1,
      Watched 1 overlapping t.pre t.label :=
  collective_dependencies_exact_iff (run_exec_get (by decide +kernel))

/-- The ranks enter two communicators, and the event of rank 1 removes the dependency of rank 0
instead of a search that finds the deadlock. -/
theorem collective_dependencies_not_exact :
    ¬ ∀ (endAnalysis : ℚ) (app : Application 2) (tr : List (Transition (State 2) (Entry 2)))
      (s : State 2), Run (ofPartial (enter endAnalysis app)) .initial tr s →
        ∀ t ∈ tr, ExactBehind app t := by
  intro h
  let one := (enter 1 (sameKind 2) .initial ⟨0, 0, 1 / 2⟩).get (by decide +kernel)
  let two := (enter 1 (sameKind 2) one ⟨1, 1, 1 / 2⟩).get (by decide +kernel)
  have hone : ofPartial (enter 1 (sameKind 2)) .initial ⟨0, 0, 1 / 2⟩ one :=
    (Option.some_get _).symm
  have htwo : ofPartial (enter 1 (sameKind 2)) one ⟨1, 1, 1 / 2⟩ two := (Option.some_get _).symm
  have hexact := (h 1 (sameKind 2) _ two (.snoc (.snoc .nil hone) htwo) ⟨one, ⟨1, 1, 1 / 2⟩, two⟩
    (by simp)).1
  have hwaits : WaitsFor (sameKind 2) two 0 1 :=
    ⟨0, by decide +kernel, by decide +kernel, by decide +kernel⟩
  obtain ⟨d, hd, -⟩ := ((hexact 0).2 1).mpr hwaits
  have hempty : two.graph 0 = [] := by decide +kernel
  rw [hempty] at hd
  cases hd

end Dimemas.Utils.CollectiveDependencies
