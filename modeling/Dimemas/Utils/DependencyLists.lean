import Dimemas.Library.Transitions
import Dimemas.Utils.Graph
import Dimemas.Utils.ListQueue
import Mathlib.Algebra.Order.Field.Rat
/-!
# The linked lists of the dependency graph

The functions of `graph.c` statement by statement over an explicit heap of dependencies, and what
the lists stand for after any sequence of operations. A dependency is inserted in front of those on
the same rank, so the newest one comes first.
-/

namespace Dimemas.Utils.DependencyLists

open Dimemas.Library.LinkedList
open Dimemas.Library.Transitions
open Dimemas.Utils.Graph
open Dimemas.Utils.ListQueue

/-- What is read from the action of a thread. `send` and `recv` are the tags and the communicators of
the two descriptions. -/
structure ThreadAction where
  action : UInt32
  send : Int × Int
  recv : Int × Int
  glopId : Int
  fileOffset : Nat
deriving DecidableEq, Repr

/-- `struct dependency` without its links and without the rank it goes to. -/
structure Info (n : Nat) where
  fromTask : Fin n
  action : UInt32
  type : DepType
  p2pTag : Int
  p2pCommunicId : Int
  globalOp : Int
  fileOffset : Nat
  time : ℚ
deriving DecidableEq, Repr

structure DependencyQueue where
  firstDep : Option Nat
  lastDep : Option Nat
  numDeps : Int
deriving DecidableEq, Repr

/-- `_graph_map` and the dependencies. -/
structure LinkedGraph (n : Nat) where
  heap : Heap (Fin n) (Info n)
  map : Fin n → DependencyQueue

/-- The arguments of `GRAPH_get_dependency` other than the rank it leaves. -/
structure Query (n : Nat) where
  toTask : Fin n
  type : UInt32
  action : UInt32
  messTag : Int
  communicId : Int

variable {n : Nat}

/-- `STRG_DEP`, `SOFT_DEP` and `GLOP_DEP`. -/
def mask : DepType → UInt32
  | .strg => 1
  | .soft => 2
  | .glop => 4

def graphInit : LinkedGraph n := ⟨Heap.empty, fun _ => ⟨none, none, 0⟩⟩

/-- The fields of `GRAPH_add_dependency`. The time is that of a local variable, which hides the
simulated time. -/
def newInfo (fromTask : Fin n) (type : DepType) (thread : ThreadAction) : Info n :=
  let channel :=
    if thread.action = 2 then thread.send
    else if thread.action = 3 ∨ thread.action = 14 ∨ thread.action = 15 then thread.recv
    else (0, 0)
  { fromTask := fromTask
    action := thread.action
    type := type
    p2pTag := channel.1
    p2pCommunicId := channel.2
    globalOp := if type = .glop then thread.glopId else 0
    fileOffset := thread.fileOffset
    time := 0 }

/-- Bound on the dependencies that a loop over a list can visit. -/
def loopFuel (q : DependencyQueue) : Nat := q.numDeps.toNat + 1

def linkDependency (h : Heap (Fin n) (Info n)) (q : DependencyQueue) (newDep : Nat)
    (toTask : Fin n) : Option (Heap (Fin n) (Info n) × DependencyQueue) :=
  match q.firstDep with
  | none => do
      -- I'm the first one
      let h ← h.setPrev newDep none
      let h ← h.setNext newDep none
      some (h, ⟨some newDep, some newDep, q.numDeps + 1⟩)
  | some _ => do
      let found ← h.walk (fun task _ => task < toTask) (loopFuel q) q.firstDep none
      match found.1 with
      | some d =>
          let dep ← h.cells d
          let h ← h.setPrev newDep dep.prev
          let h ← h.setNext newDep (some d)
          match dep.prev with
          | some before =>
              let h ← h.setNext before (some newDep)
              let h ← h.setPrev d (some newDep)
              some (h, { q with numDeps := q.numDeps + 1 })
          | none =>
              -- I'm the first one
              let h ← h.setPrev d (some newDep)
              some (h, { q with firstDep := some newDep, numDeps := q.numDeps + 1 })
      | none =>
          -- I'm the last one
          let h ← h.setNext newDep none
          let h ← h.setPrev newDep q.lastDep
          let last ← q.lastDep
          let h ← h.setNext last (some newDep)
          some (h, { q with lastDep := some newDep, numDeps := q.numDeps + 1 })

/-- `GRAPH_add_dependency`. The address of the dependency is that of the break. -/
def addDependency (g : LinkedGraph n) (fromTask toTask : Fin n) (type : DepType)
    (thread : ThreadAction) : Option (LinkedGraph n) := do
  let (h, newDep) := g.heap.alloc ⟨none, none, toTask, newInfo fromTask type thread⟩
  let (h, q) ← linkDependency h (g.map fromTask) newDep toTask
  some ⟨h, Function.update g.map fromTask q⟩

def unlinkDependency (h : Heap (Fin n) (Info n)) (q : DependencyQueue)
    (d : Cell (Fin n) (Info n)) : Option (Heap (Fin n) (Info n) × DependencyQueue) := do
  let (h, q) ← match d.prev with
    | some before => (h.setNext before d.next).map fun h => (h, q)
    | none => some (h, { q with firstDep := d.next })
  match d.next with
  | some behind => (h.setPrev behind d.prev).map fun h => (h, q)
  | none => some (h, { q with lastDep := d.prev })

def removeDependencyP (g : LinkedGraph n) (d : Nat) : Option (LinkedGraph n) := do
  let dep ← g.heap.cells d
  let fromTask := dep.content.fromTask
  let (h, q) ← unlinkDependency g.heap (g.map fromTask) dep
  let h ← h.free d
  let q := { q with numDeps := q.numDeps - 1 }
  if 0 ≤ q.numDeps then some ⟨h, Function.update g.map fromTask q⟩ else none

def changeAction (g : LinkedGraph n) (d : Nat) (newAction : UInt32) : Option (LinkedGraph n) :=
  (g.heap.cells d).map fun dep =>
    { g with heap := g.heap.update d (some { dep with content :=
        { dep.content with action := newAction } }) }

/-- The loop of `GRAPH_reset` over the list of a rank. -/
def freeList (h : Heap (Fin n) (Info n)) : Nat → Option Nat → Option (Heap (Fin n) (Info n))
  | _, none => some h
  | 0, some _ => none
  | fuel + 1, some current => do
      let dep ← h.cells current
      let h ← h.free current
      freeList h fuel dep.next

/-- `GRAPH_reset`, for the ranks that are left. -/
def resetRanks (g : LinkedGraph n) : List (Fin n) → Option (LinkedGraph n)
  | [] => some g
  | i :: ranks => do
      let h ← freeList g.heap (loopFuel (g.map i)) (g.map i).firstDep
      resetRanks ⟨h, Function.update g.map i ⟨none, none, 0⟩⟩ ranks

def graphReset (g : LinkedGraph n) : Option (LinkedGraph n) := resetRanks g (List.finRange n)

/-- The ends, the type and the bits of the action of a dependency are those of the query. -/
def Query.selects (q : Query n) (toTask : Fin n) (d : Info n) : Bool :=
  toTask = q.toTask && (mask d.type &&& q.type) ≠ 0 && (d.action &&& q.action) ≠ 0

/-- SEND, RECV, WAIT, IRECV and `SOFT_ACTION_RESOLVED`. -/
def Query.oneAction (q : Query n) : Bool :=
  q.action = 2 || q.action = 3 || q.action = 15 || q.action = 14 || q.action = 65536

def Query.sameChannel (q : Query n) (d : Info n) : Bool :=
  !q.oneAction || (d.p2pCommunicId = q.communicId && d.p2pTag = q.messTag) ||
    (q.messTag = -1 && q.communicId = -1)

def Query.asksFor (q : Query n) (toTask : Fin n) (d : Info n) : Bool :=
  q.selects toTask d && q.sameChannel d

/-- The loop of `GRAPH_get_dependency`. -/
def getFrom (h : Heap (Fin n) (Info n)) (q : Query n) : Nat → Option Nat → Option (Option Nat)
  | _, none => some none
  | 0, some _ => none
  | fuel + 1, some d => do
      let dep ← h.cells d
      if q.selects dep.key dep.content then
        if q.sameChannel dep.content then some (some d) else getFrom h q fuel dep.next
      else if q.toTask < dep.key then some none
      else getFrom h q fuel dep.next

/-- `GRAPH_get_dependency`: the address of a dependency, or NULL. -/
def getDependency (g : LinkedGraph n) (fromTask : Fin n) (q : Query n) : Option (Option Nat) :=
  getFrom g.heap q (loopFuel (g.map fromTask)) (g.map fromTask).firstDep

inductive Operation (n : Nat)
  | add (fromTask toTask : Fin n) (type : DepType) (thread : ThreadAction)
  | remove (d : Nat)
  | change (d : Nat) (newAction : UInt32)
  | reset

def next (g : LinkedGraph n) : Operation n → Option (LinkedGraph n)
  | .add fromTask toTask type thread => addDependency g fromTask toTask type thread
  | .remove d => removeDependencyP g d
  | .change d newAction => changeAction g d newAction
  | .reset => graphReset g

/-! ## What the lists stand for -/

/-- A dependency with its address. The addresses are handed out in the order of the calls of
`GRAPH_add_dependency`. -/
abbrev Dep (n : Nat) := Entry (Fin n) (Info n)

/-- The links and the count of the list of a rank are those of the dependencies `xs`. -/
structure ListRep (h : Heap (Fin n) (Info n)) (q : DependencyQueue) (i : Fin n)
    (xs : List (Dep n)) : Prop where
  seg : Seg h none q.firstDep xs q.lastDep none
  count : q.numDeps = xs.length
  nodup : (addrs xs).Nodup
  fromTask : ∀ x ∈ xs, x.2.2.fromTask = i

/-- Every rank has its list, and every dependency is in the list of its rank. -/
structure GraphRep (g : LinkedGraph n) (lists : Fin n → List (Dep n)) : Prop where
  wf : g.heap.WellFormed
  list : ∀ i, ListRep g.heap (g.map i) i (lists i)
  live : ∀ a c, g.heap.cells a = some c → a ∈ addrs (lists c.content.fromTask)

/-- A list is in the order of the ranks, and the dependencies on one rank are in the reverse order
of their calls. -/
structure Ordered (xs : List (Dep n)) : Prop where
  sorted : xs.Pairwise fun x y => x.2.1 ≤ y.2.1
  newest : xs.Pairwise fun x y => x.2.1 = y.2.1 → y.1 < x.1

section

variable {h : Heap (Fin n) (Info n)} {q : DependencyQueue} {xs ys : List (Dep n)}
  {back start last stop : Option Nat} {g : LinkedGraph n} {lists : Fin n → List (Dep n)}
  {i : Fin n}

theorem cell_of_mem (hseg : Seg h back start xs last stop) {x : Dep n} (hx : x ∈ xs) :
    ∃ c, h.cells x.1 = some c ∧ c.key = x.2.1 ∧ c.content = x.2.2 := by
  induction xs generalizing back start with
  | nil => cases hx
  | cons y ys ih =>
      obtain ⟨a, k, c⟩ := y
      obtain ⟨-, m, hcell, htail⟩ := hseg
      rcases List.mem_cons.mp hx with rfl | hx
      · exact ⟨_, hcell, rfl, rfl⟩
      · exact ih htail hx

theorem GraphRep.rank_of_mem (hrep : GraphRep g lists) {a : Nat} (ha : a ∈ addrs (lists i)) :
    ∃ c, g.heap.cells a = some c ∧ c.content.fromTask = i := by
  obtain ⟨x, hx, rfl⟩ := List.mem_map.mp ha
  obtain ⟨c, hc, -, hcontent⟩ := cell_of_mem (hrep.list i).seg hx
  refine ⟨c, hc, ?_⟩
  rw [hcontent]
  exact (hrep.list i).fromTask x hx

theorem GraphRep.rank_eq (hrep : GraphRep g lists) {j : Fin n} {a : Nat}
    (hi : a ∈ addrs (lists i)) (hj : a ∈ addrs (lists j)) : i = j := by
  obtain ⟨c, hc, rfl⟩ := hrep.rank_of_mem hi
  obtain ⟨d, hd, rfl⟩ := hrep.rank_of_mem hj
  rw [hc] at hd
  cases hd
  rfl

theorem ListRep.congr {h' : Heap (Fin n) (Info n)} (hlist : ListRep h q i xs)
    (hsame : ∀ a ∈ addrs xs, h'.cells a = h.cells a) : ListRep h' q i xs where
  seg := hlist.seg.congr hsame
  count := hlist.count
  nodup := hlist.nodup
  fromTask := hlist.fromTask

/-- The list of one rank is replaced: its new dependencies were free before, and the old ones that it
no longer has are freed. -/
theorem GraphRep.replace (hrep : GraphRep g lists) (hwf : h.WellFormed) (hlist : ListRep h q i ys)
    (hsame : ∀ a, a ∉ addrs ys → a ∉ addrs (lists i) → h.cells a = g.heap.cells a)
    (hfreed : ∀ a ∈ addrs (lists i), a ∉ addrs ys → h.cells a = none)
    (hnew : ∀ a ∈ addrs ys, a ∉ addrs (lists i) → g.heap.cells a = none) :
    GraphRep ⟨h, Function.update g.map i q⟩ (Function.update lists i ys) := by
  constructor
  · exact hwf
  · intro j
    show ListRep h (Function.update g.map i q j) j (Function.update lists i ys j)
    by_cases hj : j = i
    · subst hj
      rw [Function.update_self, Function.update_self]
      exact hlist
    · rw [Function.update_of_ne hj, Function.update_of_ne hj]
      apply (hrep.list j).congr
      intro a ha
      have hold : a ∉ addrs (lists i) := fun hi => hj (hrep.rank_eq ha hi)
      apply hsame a _ hold
      intro hys
      obtain ⟨c, hc, -⟩ := hrep.rank_of_mem ha
      rw [hnew a hys hold] at hc
      cases hc
  · intro a c hc
    by_cases hys : a ∈ addrs ys
    · obtain ⟨x, hx, rfl⟩ := List.mem_map.mp hys
      obtain ⟨d, hd, -, hcontent⟩ := cell_of_mem hlist.seg hx
      have hcd : d = c := Option.some.inj (hd.symm.trans hc)
      rw [← hcd, hcontent, hlist.fromTask x hx, Function.update_self]
      exact hys
    · have hold : a ∉ addrs (lists i) := by
        intro hi
        have hnone : h.cells a = none := hfreed a hi hys
        have hsome : h.cells a = some c := hc
        rw [hnone] at hsome
        cases hsome
      have hmem := hrep.live a c ((hsame a hys hold).symm.trans hc)
      have hj : c.content.fromTask ≠ i := fun hj => hold (hj ▸ hmem)
      rw [Function.update_of_ne hj]
      exact hmem

theorem GraphRep.unique {lists' : Fin n → List (Dep n)} (hrep : GraphRep g lists)
    (hrep' : GraphRep g lists') : lists = lists' := by
  funext j
  exact (hrep.list j).seg.unique (hrep'.list j).seg

theorem graphRep_graphInit : GraphRep (graphInit : LinkedGraph n) fun _ => [] where
  wf _ _ := rfl
  list _ := ⟨⟨rfl, rfl⟩, rfl, .nil, fun _ hx => by cases hx⟩
  live _ _ hc := by cases hc

theorem length_lt_loopFuel (hcount : q.numDeps = xs.length) : xs.length < loopFuel q := by
  simp [loopFuel, hcount]

/-! ## The insertion -/

/-- The new dependency is put behind those on a lower rank, and no cell of another list is written. -/
theorem linkDependency_rep {new : Nat} {toTask : Fin n} {info : Info n} (hwf : h.WellFormed)
    (hseg : Seg h none q.firstDep xs q.lastDep none) (hcount : q.numDeps = xs.length)
    (hnodup : (addrs xs).Nodup) (hnew : h.cells new = some ⟨none, none, toTask, info⟩)
    (hfresh : new ∉ addrs xs) :
    ∃ h' q', linkDependency h q new toTask = some (h', q') ∧ h'.WellFormed ∧
      Seg h' none q'.firstDep ((xs.takeWhile fun x => x.2.1 < toTask) ++
        (new, toTask, info) :: xs.dropWhile fun x => x.2.1 < toTask) q'.lastDep none ∧
      q'.numDeps = q.numDeps + 1 ∧ ∀ a ∉ addrs xs, a ≠ new → h'.cells a = h.cells a := by
  obtain ⟨tmp1, tmp2, hwalk, hpre, hpost⟩ :=
    hseg.walk_eq (p := fun task _ => task < toTask) (length_lt_loopFuel hcount)
  have hsplit := List.takeWhile_append_dropWhile (p := fun x : Dep n => x.2.1 < toTask) (l := xs)
  generalize (xs.takeWhile fun x => x.2.1 < toTask) = pre at hpre hsplit ⊢
  generalize (xs.dropWhile fun x => x.2.1 < toTask) = post at hpost hsplit ⊢
  subst hsplit
  have hlt := hwf.lt_brk hnew
  rw [addrs_append, List.nodup_append] at hnodup
  rw [addrs_append, List.mem_append, not_or] at hfresh
  obtain ⟨hnodupPre, hnodupPost, hdisjoint⟩ := hnodup
  obtain ⟨hfreshPre, hfreshPost⟩ := hfresh
  -- the new dependency with its links, before its neighbours are written
  have hlinked : ∀ before behind : Option Nat,
      let h₁ := h.update new (some ⟨behind, before, toTask, info⟩)
      h₁.WellFormed ∧ Seg h₁ none q.firstDep pre tmp2 tmp1 ∧ Seg h₁ tmp2 tmp1 post q.lastDep none ∧
        h₁.cells new = some ⟨behind, before, toTask, info⟩ ∧
        ∀ a, a ≠ new → h₁.cells a = h.cells a := fun before behind =>
    ⟨hwf.update hlt _, hpre.update hfreshPre _, hpost.update hfreshPost _,
      Heap.cells_update_self _ _ _, fun a ha => Heap.cells_update_of_ne _ _ ha⟩
  cases hq : q.firstDep with
  | none =>
      rw [hq] at hseg
      obtain ⟨rfl, rfl⟩ := List.append_eq_nil_iff.mp hseg.eq_nil_of_null
      obtain ⟨hwf₁, -, -, hnew₁, hsame₁⟩ := hlinked none none
      refine ⟨_, ⟨some new, some new, q.numDeps + 1⟩, ?_, hwf₁, ?_, rfl, fun a _ ha => hsame₁ a ha⟩
      · rw [linkDependency, hq]
        show ((h.setPrev new none).bind fun h => (h.setNext new none).bind fun h => _) = _
        rw [← Option.bind_assoc, Heap.setPrev_setNext hnew]
        rfl
      · exact ⟨rfl, none, hnew₁, rfl, rfl⟩
  | some head =>
      cases tmp1 with
      | some d =>
          cases post with
          | nil => cases hpost.1
          | cons x rest =>
              obtain ⟨a, k, c⟩ := x
              obtain ⟨hd, m, hcell, -⟩ := hpost
              cases hd
              obtain ⟨hwf₁, hpre₁, hpost₁, hnew₁, hsame₁⟩ := hlinked tmp2 (some d)
              have hlinks := Heap.setPrev_setNext hnew tmp2 (some d)
              cases tmp2 with
              | none =>
                  have hnil : pre = [] := by
                    by_contra hne
                    simpa [List.getLast?_eq_some_getLast hne] using hpre.last_eq_getLast?
                  subst hnil
                  obtain ⟨h₂, hprev, hwf₂, hseg₂, hin, hsame₂⟩ :=
                    setPrev_rest (some new) hwf₁ hpost₁ hnodupPost rfl
                  have hne : new ≠ d := fun heq => hfreshPost (heq ▸ hin)
                  refine ⟨h₂, { q with firstDep := some new, numDeps := q.numDeps + 1 }, ?_, hwf₂,
                    ⟨rfl, some d, (hsame₂ new hne).trans hnew₁, hseg₂⟩, rfl, ?_⟩
                  · rw [linkDependency, hq]
                    simp only [← hq, hwalk, hcell, Option.bind_eq_bind, Option.bind_some]
                    rw [← Option.bind_assoc, hlinks, Option.bind_some, hprev, Option.bind_some]
                  · intro a ha hanew
                    have had : a ≠ d := fun heq => ha (by simp [heq])
                    rw [hsame₂ a had, hsame₁ a hanew]
              | some before =>
                  obtain ⟨h₂, hnext, hwf₂, hseg₂, hin₂, hsame₂⟩ :=
                    setNext_front (some new) hwf₁ hpre₁ hnodupPre rfl
                  have hpost₂ := hpost₁.congr fun b hb =>
                    hsame₂ b fun heq => hdisjoint before hin₂ b hb heq.symm
                  obtain ⟨h₃, hprev, hwf₃, hseg₃, hin₃, hsame₃⟩ :=
                    setPrev_rest (some new) hwf₂ hpost₂ hnodupPost rfl
                  have hpre₃ := hseg₂.congr fun b hb => hsame₃ b (hdisjoint b hb d hin₃)
                  have hne₂ : new ≠ before := fun heq => hfreshPre (heq ▸ hin₂)
                  have hne₃ : new ≠ d := fun heq => hfreshPost (heq ▸ hin₃)
                  refine ⟨h₃, { q with numDeps := q.numDeps + 1 }, ?_, hwf₃,
                    seg_insert hpre₃ hseg₃ ?_, rfl, ?_⟩
                  · rw [linkDependency, hq]
                    simp only [← hq, hwalk, hcell, Option.bind_eq_bind, Option.bind_some]
                    rw [← Option.bind_assoc, hlinks, Option.bind_some, hnext, Option.bind_some,
                      hprev, Option.bind_some]
                  · rw [hsame₃ new hne₃, hsame₂ new hne₂, hnew₁]
                  · intro a ha hanew
                    rw [addrs_append, List.mem_append, not_or] at ha
                    have had : a ≠ d := fun heq => ha.2 (heq ▸ hin₃)
                    have habefore : a ≠ before := fun heq => ha.1 (heq ▸ hin₂)
                    rw [hsame₃ a had, hsame₂ a habefore, hsame₁ a hanew]
      | none =>
          -- every dependency is on a lower rank: the new one becomes the last one
          have hnil := hpost.eq_nil_of_null
          subst hnil
          obtain ⟨-, hlast⟩ := hpost
          obtain ⟨hwf₁, hpre₁, -, hnew₁, hsame₁⟩ := hlinked tmp2 none
          have hlinks := Heap.setNext_setPrev hnew tmp2 none
          have hpos : tmp2 ≠ none := by
            intro hnone
            have hget := hpre.last_eq_getLast?
            cases pre with
            | nil =>
                have hfirst := hpre.1
                rw [hq] at hfirst
                cases hfirst
            | cons x pre => simp [hnone, List.getLast?_cons] at hget
          obtain ⟨before, hbefore⟩ := Option.ne_none_iff_exists'.mp hpos
          obtain ⟨h₂, hnext, hwf₂, hseg₂, hin₂, hsame₂⟩ :=
            setNext_front (some new) hwf₁ hpre₁ hnodupPre hbefore
          have hne : new ≠ before := fun heq => hfreshPre (heq ▸ hin₂)
          refine ⟨h₂, { q with lastDep := some new, numDeps := q.numDeps + 1 }, ?_, hwf₂,
            seg_insert hseg₂ ⟨rfl, rfl⟩ ((hsame₂ new hne).trans hnew₁), rfl, ?_⟩
          · rw [linkDependency, hq]
            simp only [← hq, hwalk, Option.bind_eq_bind, Option.bind_some, ← hlast]
            rw [← Option.bind_assoc, hlinks, Option.bind_some, hbefore, Option.bind_some, ← hbefore,
              hnext, Option.bind_some]
          · intro a ha hanew
            rw [List.append_nil] at ha
            have habefore : a ≠ before := fun heq => ha (heq ▸ hin₂)
            rw [hsame₂ a habefore, hsame₁ a hanew]

def insertDep (x : Dep n) (xs : List (Dep n)) : List (Dep n) :=
  (xs.takeWhile fun y => y.2.1 < x.2.1) ++ x :: xs.dropWhile fun y => y.2.1 < x.2.1

theorem insertDep_perm (x : Dep n) (xs : List (Dep n)) : (insertDep x xs).Perm (x :: xs) := by
  have hsplit := List.takeWhile_append_dropWhile (p := fun y : Dep n => y.2.1 < x.2.1) (l := xs)
  unfold insertDep
  nth_rewrite 3 [← hsplit]
  exact List.perm_middle

theorem le_of_mem_dropWhile {toTask : Fin n} (hsorted : xs.Pairwise fun x y => x.2.1 ≤ y.2.1)
    {y : Dep n} (hy : y ∈ xs.dropWhile fun x => x.2.1 < toTask) : toTask ≤ y.2.1 := by
  induction xs with
  | nil => cases hy
  | cons x xs ih =>
      obtain ⟨hle, hsorted⟩ := List.pairwise_cons.mp hsorted
      by_cases hx : x.2.1 < toTask
      · rw [List.dropWhile_cons_of_pos (by simpa using hx)] at hy
        exact ih hsorted hy
      · rw [List.dropWhile_cons_of_neg (by simpa using hx)] at hy
        have hxle : toTask ≤ x.2.1 := not_lt.mp hx
        rcases List.mem_cons.mp hy with rfl | hy
        · exact hxle
        · exact hxle.trans (hle y hy)

theorem Ordered.insertDep (hordered : Ordered xs) {x : Dep n} (hlt : ∀ y ∈ xs, y.1 < x.1) :
    Ordered (insertDep x xs) := by
  have hbefore : ∀ y ∈ xs.takeWhile fun y => y.2.1 < x.2.1, y.2.1 < x.2.1 := by
    intro y hy
    simpa using List.mem_takeWhile_imp hy
  have hbehind : ∀ y ∈ xs.dropWhile fun y => y.2.1 < x.2.1, x.2.1 ≤ y.2.1 := fun y hy =>
    le_of_mem_dropWhile hordered.sorted hy
  have htake := List.takeWhile_sublist (fun y : Dep n => decide (y.2.1 < x.2.1)) (l := xs)
  have hdrop := List.dropWhile_sublist (fun y : Dep n => decide (y.2.1 < x.2.1)) (l := xs)
  constructor
  · apply List.pairwise_append.mpr
    refine ⟨hordered.sorted.sublist htake, ?_, ?_⟩
    · exact List.pairwise_cons.mpr ⟨hbehind, hordered.sorted.sublist hdrop⟩
    · intro y hy z hz
      rcases List.mem_cons.mp hz with rfl | hz
      · exact (hbefore y hy).le
      · exact (hbefore y hy).le.trans (hbehind z hz)
  · apply List.pairwise_append.mpr
    refine ⟨hordered.newest.sublist htake, ?_, ?_⟩
    · refine List.pairwise_cons.mpr ⟨fun y hy _ => ?_, hordered.newest.sublist hdrop⟩
      exact hlt y (hdrop.subset hy)
    · intro y hy z hz heq
      have hlow := hbefore y hy
      rcases List.mem_cons.mp hz with rfl | hz
      · exact absurd heq hlow.ne
      · exact absurd heq (hlow.trans_le (hbehind z hz)).ne

theorem GraphRep.addDependency (hrep : GraphRep g lists) (fromTask toTask : Fin n) (type : DepType)
    (thread : ThreadAction) :
    ∃ g', addDependency g fromTask toTask type thread = some g' ∧
      GraphRep g' (Function.update lists fromTask
        (insertDep (g.heap.brk, toTask, newInfo fromTask type thread) (lists fromTask))) := by
  have hlist := hrep.list fromTask
  have hfresh : g.heap.brk ∉ addrs (lists fromTask) := by
    intro hmem
    obtain ⟨c, hc, -⟩ := hrep.rank_of_mem hmem
    exact Nat.lt_irrefl _ (hrep.wf.lt_brk hc)
  have halloc : ∀ a, a ≠ g.heap.brk → (g.heap.alloc
      ⟨none, none, toTask, newInfo fromTask type thread⟩).1.cells a = g.heap.cells a :=
    fun a ha => Heap.cells_update_of_ne _ _ ha
  have hseg := hlist.seg.congr fun a ha => halloc a fun heq => hfresh (heq ▸ ha)
  obtain ⟨h', q', hlink, hwf', hseg', hcount', hsame⟩ :=
    linkDependency_rep (hrep.wf.alloc _) hseg hlist.count hlist.nodup
      (Heap.cells_update_self _ _ _) hfresh
  have hperm := insertDep_perm (g.heap.brk, toTask, newInfo fromTask type thread) (lists fromTask)
  have hmem : ∀ a, a ∈ addrs (insertDep (g.heap.brk, toTask, newInfo fromTask type thread)
      (lists fromTask)) ↔ a = g.heap.brk ∨ a ∈ addrs (lists fromTask) := by
    intro a
    rw [addrs, (hperm.map Prod.fst).mem_iff]
    exact List.mem_cons
  refine ⟨⟨h', Function.update g.map fromTask q'⟩, ?_, hrep.replace hwf' ?_ ?_ ?_ ?_⟩
  · rw [DependencyLists.addDependency]
    exact congrArg (fun r => r.bind fun r => some (LinkedGraph.mk r.1
      (Function.update g.map fromTask r.2))) hlink
  · constructor
    · exact hseg'
    · rw [hcount', hlist.count, hperm.length_eq]
      rfl
    · exact ((hperm.map Prod.fst).nodup_iff).mpr (List.nodup_cons.mpr ⟨hfresh, hlist.nodup⟩)
    · intro x hx
      rcases List.mem_cons.mp (hperm.mem_iff.mp hx) with rfl | hx
      · rfl
      · exact hlist.fromTask x hx
  · intro a ha hold
    rw [hmem, not_or] at ha
    rw [hsame a hold ha.1, halloc a ha.1]
  · intro a ha hnot
    rw [hmem, not_or] at hnot
    exact absurd ha hnot.2
  · intro a ha hold
    rcases (hmem a).mp ha with rfl | ha
    · exact hrep.wf _ (Nat.le_refl _)
    · exact absurd ha hold

/-! ## The removal -/

theorem unlinkDependency_rep {pre rest : List (Dep n)} {a : Nat} {k : Fin n} {c : Info n}
    {dep : Cell (Fin n) (Info n)} (hwf : h.WellFormed)
    (hseg : Seg h none q.firstDep (pre ++ (a, k, c) :: rest) q.lastDep none)
    (hnodup : (addrs (pre ++ rest)).Nodup) (hdep : h.cells a = some dep) :
    ∃ h' q', unlinkDependency h q dep = some (h', q') ∧ h'.WellFormed ∧
      Seg h' none q'.firstDep (pre ++ rest) q'.lastDep none ∧ q'.numDeps = q.numDeps ∧
      ∀ b ∉ addrs (pre ++ rest), h'.cells b = h.cells b := by
  obtain ⟨mid, here, hpre, hhere, m, hcell, hrest⟩ := seg_append.mp hseg
  rw [hcell] at hdep
  cases hdep
  rw [addrs_append, List.nodup_append] at hnodup
  obtain ⟨hnodupPre, hnodupRest, hdisjoint⟩ := hnodup
  cases mid with
  | none =>
      have hnil : pre = [] := by
        by_contra hne
        simpa [List.getLast?_eq_some_getLast hne] using hpre.last_eq_getLast?
      subst hnil
      cases m with
      | none =>
          have hnil := hrest.eq_nil_of_null
          subst hnil
          exact ⟨h, { q with firstDep := none, lastDep := none }, rfl, hwf, ⟨rfl, rfl⟩, rfl,
            fun _ _ => rfl⟩
      | some behind =>
          obtain ⟨h₁, hprev, hwf₁, hseg₁, hin, hsame⟩ := setPrev_rest none hwf hrest hnodupRest rfl
          refine ⟨h₁, { q with firstDep := some behind }, ?_, hwf₁, hseg₁, rfl, ?_⟩
          · simp only [unlinkDependency, Option.bind_eq_bind, Option.bind_some, hprev,
              Option.map_some]
          · exact fun b hb => hsame b fun heq => hb (heq ▸ hin)
  | some before =>
      obtain ⟨h₁, hnext, hwf₁, hseg₁, hin₁, hsame₁⟩ := setNext_front m hwf hpre hnodupPre rfl
      have hkeep₁ : ∀ b ∉ addrs (pre ++ rest), h₁.cells b = h.cells b := by
        intro b hb
        apply hsame₁ b
        rintro rfl
        exact hb (addrs_append pre rest ▸ List.mem_append_left _ hin₁)
      cases m with
      | none =>
          have hnil := hrest.eq_nil_of_null
          subst hnil
          refine ⟨h₁, { q with lastDep := some before }, ?_, hwf₁, ?_, rfl, hkeep₁⟩
          · simp only [unlinkDependency, Option.bind_eq_bind, hnext, Option.map_some,
              Option.bind_some]
          · rw [List.append_nil]
            exact hseg₁
      | some behind =>
          have hrest₁ := hrest.congr fun b hb =>
            hsame₁ b fun heq => hdisjoint before hin₁ b hb heq.symm
          obtain ⟨h₂, hprev, hwf₂, hseg₂, hin₂, hsame₂⟩ :=
            setPrev_rest (some before) hwf₁ hrest₁ hnodupRest rfl
          have hpre₂ := hseg₁.congr fun b hb => hsame₂ b (hdisjoint b hb behind hin₂)
          refine ⟨h₂, q, ?_, hwf₂, seg_append.mpr ⟨_, _, hpre₂, hseg₂⟩, rfl, ?_⟩
          · simp only [unlinkDependency, Option.bind_eq_bind, hnext, Option.map_some,
              Option.bind_some, hprev]
          · intro b hb
            rw [hsame₂ b, hkeep₁ b hb]
            rintro rfl
            exact hb (addrs_append pre rest ▸ List.mem_append_right _ hin₂)

theorem GraphRep.removeDependencyP (hrep : GraphRep g lists) {d : Nat} {g' : LinkedGraph n}
    (hremove : removeDependencyP g d = some g') :
    ∃ i, GraphRep g' (Function.update lists i ((lists i).eraseP fun x => x.1 = d)) := by
  obtain ⟨dep, hdep, hrest⟩ := Option.bind_eq_some_iff.mp hremove
  have hmem := hrep.live d dep hdep
  have hlist := hrep.list dep.content.fromTask
  refine ⟨dep.content.fromTask, ?_⟩
  generalize dep.content.fromTask = i at hmem hlist hrest ⊢
  obtain ⟨x, hx, hxd⟩ := List.mem_map.mp hmem
  obtain ⟨⟨a, k, c⟩, pre, rest, -, ha, hsplit, herase⟩ :=
    List.exists_of_eraseP (p := fun x : Dep n => decide (x.1 = d)) hx (by simpa using hxd)
  obtain rfl : a = d := by simpa using ha
  have hnodup := hlist.nodup
  have hseg := hlist.seg
  rw [hsplit] at hseg hnodup
  rw [addrs_append, addrs_cons, List.nodup_middle, List.nodup_cons, ← addrs_append] at hnodup
  obtain ⟨hfresh, hnodup⟩ := hnodup
  obtain ⟨h₁, q₁, hunlink, hwf₁, hseg₁, hcount₁, hsame₁⟩ :=
    unlinkDependency_rep hrep.wf hseg hnodup hdep
  have hcell₁ : h₁.cells a = some dep := (hsame₁ a hfresh).trans hdep
  have hmid : ∀ b, b ∈ addrs (lists i) ↔ b = a ∨ b ∈ addrs (pre ++ rest) := by
    intro b
    rw [hsplit]
    simp only [addrs_append, addrs_cons, List.mem_append, List.mem_cons]
    tauto
  have hlength : (lists i).length = (pre ++ rest).length + 1 := by
    rw [hsplit]
    simp only [List.length_append, List.length_cons]
    omega
  have hnum : q₁.numDeps - 1 = (pre ++ rest).length := by
    rw [hcount₁, hlist.count, hlength]
    push_cast
    omega
  simp only [hunlink, Option.bind_eq_bind, Option.bind_some, Heap.free_of_cell hcell₁, hnum,
    Int.natCast_nonneg, if_true, Option.some.injEq] at hrest
  rw [← hrest, herase]
  apply hrep.replace (hwf₁.update (hwf₁.lt_brk hcell₁) none)
  · constructor
    · exact hseg₁.update hfresh none
    · rfl
    · exact hnodup
    · intro y hy
      apply hlist.fromTask
      rw [hsplit]
      rcases List.mem_append.mp hy with hy | hy
      · exact List.mem_append_left _ hy
      · exact List.mem_append_right _ (List.mem_cons_of_mem _ hy)
  · intro b hb hold
    rw [hmid, not_or] at hold
    rw [Heap.cells_update_of_ne _ _ hold.1, hsame₁ b hb]
  · intro b hb hnot
    rcases (hmid b).mp hb with rfl | hb
    · exact Heap.cells_update_self _ _ _
    · exact absurd hb hnot
  · intro b hb hold
    exact absurd ((hmid b).mpr (.inr hb)) hold

/-! ## The other operations -/

def withAction (d : Nat) (newAction : UInt32) (x : Dep n) : Dep n :=
  if x.1 = d then (x.1, x.2.1, { x.2.2 with action := newAction }) else x

theorem seg_withAction {d : Nat} {dep : Cell (Fin n) (Info n)} (hdep : h.cells d = some dep)
    (newAction : UInt32) (hseg : Seg h back start xs last stop) :
    Seg (h.update d (some { dep with content := { dep.content with action := newAction } })) back
      start (xs.map (withAction d newAction)) last stop := by
  induction xs generalizing back start with
  | nil => exact hseg
  | cons x xs ih =>
      obtain ⟨a, k, c⟩ := x
      obtain ⟨hstart, m, hcell, htail⟩ := hseg
      by_cases ha : a = d
      · subst ha
        rw [hcell] at hdep
        cases hdep
        rw [List.map_cons, withAction, if_pos rfl]
        exact ⟨hstart, m, Heap.cells_update_self _ _ _, ih htail⟩
      · rw [List.map_cons, withAction, if_neg ha]
        exact ⟨hstart, m, (Heap.cells_update_of_ne _ _ ha).trans hcell, ih htail⟩

theorem withAction_fst (d : Nat) (newAction : UInt32) (x : Dep n) :
    (withAction d newAction x).1 = x.1 := by
  unfold withAction
  split <;> rfl

theorem withAction_toTask (d : Nat) (newAction : UInt32) (x : Dep n) :
    (withAction d newAction x).2.1 = x.2.1 := by
  unfold withAction
  split <;> rfl

theorem withAction_fromTask (d : Nat) (newAction : UInt32) (x : Dep n) :
    (withAction d newAction x).2.2.fromTask = x.2.2.fromTask := by
  unfold withAction
  split <;> rfl

theorem addrs_withAction (d : Nat) (newAction : UInt32) (xs : List (Dep n)) :
    addrs (xs.map (withAction d newAction)) = addrs xs := by
  rw [addrs, List.map_map]
  exact List.map_congr_left fun x _ => withAction_fst d newAction x

theorem GraphRep.changeAction (hrep : GraphRep g lists) {d : Nat} {newAction : UInt32}
    {g' : LinkedGraph n} (hchange : changeAction g d newAction = some g') :
    ∃ i, GraphRep g' (Function.update lists i ((lists i).map (withAction d newAction))) := by
  obtain ⟨dep, hdep, rfl⟩ := Option.map_eq_some_iff.mp hchange
  have hmem := hrep.live d dep hdep
  refine ⟨dep.content.fromTask, ?_⟩
  have hlist := hrep.list dep.content.fromTask
  have hmap : g.map = Function.update g.map dep.content.fromTask (g.map dep.content.fromTask) :=
    (Function.update_eq_self _ _).symm
  rw [hmap]
  apply hrep.replace (hrep.wf.update (hrep.wf.lt_brk hdep) _)
  · constructor
    · exact seg_withAction hdep newAction hlist.seg
    · rw [List.length_map]
      exact hlist.count
    · rw [addrs_withAction]
      exact hlist.nodup
    · intro x hx
      obtain ⟨y, hy, rfl⟩ := List.mem_map.mp hx
      rw [withAction_fromTask]
      exact hlist.fromTask y hy
  · intro a ha hold
    exact Heap.cells_update_of_ne _ _ fun heq => hold (heq ▸ hmem)
  · intro a ha hnot
    rw [addrs_withAction] at hnot
    exact absurd ha hnot
  · intro a ha hold
    rw [addrs_withAction] at ha
    exact absurd ha hold

theorem freeList_rep {fuel : Nat} (hwf : h.WellFormed) (hseg : Seg h back start xs last none)
    (hnodup : (addrs xs).Nodup) (hfuel : xs.length < fuel) :
    ∃ h', freeList h fuel start = some h' ∧ h'.WellFormed ∧ (∀ a ∈ addrs xs, h'.cells a = none) ∧
      ∀ a ∉ addrs xs, h'.cells a = h.cells a := by
  induction xs generalizing h back start fuel with
  | nil =>
      rw [hseg.1]
      cases fuel with
      | zero => cases hfuel
      | succ fuel => exact ⟨h, rfl, hwf, fun a ha => absurd ha List.not_mem_nil, fun _ _ => rfl⟩
  | cons x xs ih =>
      obtain ⟨a, k, c⟩ := x
      obtain ⟨rfl, m, hcell, htail⟩ := hseg
      obtain ⟨hfresh, hnodup⟩ := List.nodup_cons.mp hnodup
      cases fuel with
      | zero => cases hfuel
      | succ fuel =>
          obtain ⟨h', hfree, hwf', hnone, hsame⟩ :=
            ih (hwf.update (hwf.lt_brk hcell) none) (htail.update hfresh none) hnodup
              (Nat.lt_of_succ_lt_succ hfuel)
          refine ⟨h', ?_, hwf', ?_, ?_⟩
          · simp only [freeList, hcell, Option.bind_eq_bind, Option.bind_some,
              Heap.free_of_cell hcell, hfree]
          · intro b hb
            rcases List.mem_cons.mp hb with rfl | hb
            · exact (hsame _ hfresh).trans (Heap.cells_update_self _ _ _)
            · exact hnone b hb
          · intro b hb
            rw [addrs_cons, List.mem_cons, not_or] at hb
            rw [hsame b hb.2, Heap.cells_update_of_ne _ _ hb.1]

theorem GraphRep.resetRanks (hrep : GraphRep g lists) (ranks : List (Fin n)) :
    ∃ g' lists', resetRanks g ranks = some g' ∧ GraphRep g' lists' ∧
      ∀ j, lists' j = if j ∈ ranks then [] else lists j := by
  induction ranks generalizing g lists with
  | nil => exact ⟨g, lists, rfl, hrep, fun j => by simp⟩
  | cons i ranks ih =>
      have hlist := hrep.list i
      obtain ⟨h', hfree, hwf', hnone, hsame⟩ :=
        freeList_rep hrep.wf hlist.seg hlist.nodup (length_lt_loopFuel hlist.count)
      have hnext : GraphRep ⟨h', Function.update g.map i ⟨none, none, 0⟩⟩
          (Function.update lists i []) := by
        apply hrep.replace hwf'
        · exact ⟨⟨rfl, rfl⟩, rfl, .nil, fun x hx => by cases hx⟩
        · exact fun a _ hold => hsame a hold
        · exact fun a ha _ => hnone a ha
        · intro a ha
          cases ha
      obtain ⟨g', lists', hreset, hrep', hlists'⟩ := ih hnext
      refine ⟨g', lists', ?_, hrep', ?_⟩
      · simp only [DependencyLists.resetRanks, hfree, Option.bind_eq_bind, Option.bind_some, hreset]
      · intro j
        rw [hlists' j]
        by_cases hj : j = i
        · subst hj
          simp
        · simp [hj]

theorem GraphRep.graphReset (hrep : GraphRep g lists) :
    ∃ g', graphReset g = some g' ∧ GraphRep g' fun _ => [] := by
  obtain ⟨g', lists', hreset, hrep', hlists'⟩ := hrep.resetRanks (List.finRange n)
  have hnil : lists' = fun _ => [] := by
    funext j
    rw [hlists' j, if_pos (List.mem_finRange j)]
  exact ⟨g', hreset, hnil ▸ hrep'⟩

/-! ## The query -/

variable {q' : Query n}

theorem Query.selects_toTask {toTask : Fin n} {d : Info n} (hselects : q'.selects toTask d) :
    toTask = q'.toTask := by
  simp only [Query.selects, Bool.and_eq_true, decide_eq_true_eq] at hselects
  exact hselects.1.1

/-- In a list that is in order the early end of the loop misses nothing. -/
theorem getFrom_eq {fuel : Nat} (hseg : Seg h back start xs last none)
    (hsorted : xs.Pairwise fun x y => x.2.1 ≤ y.2.1) (hfuel : xs.length < fuel) :
    getFrom h q' fuel start = some ((xs.find? fun x => q'.asksFor x.2.1 x.2.2).map Prod.fst) := by
  induction xs generalizing back start fuel with
  | nil =>
      rw [hseg.1]
      cases fuel with
      | zero => cases hfuel
      | succ fuel => rfl
  | cons x xs ih =>
      obtain ⟨a, k, c⟩ := x
      obtain ⟨rfl, m, hcell, htail⟩ := hseg
      obtain ⟨hle, hsorted⟩ := List.pairwise_cons.mp hsorted
      cases fuel with
      | zero => cases hfuel
      | succ fuel =>
          have hrest := ih htail hsorted (Nat.lt_of_succ_lt_succ hfuel)
          rw [List.find?_cons]
          simp only [getFrom, hcell, Option.bind_eq_bind, Option.bind_some, hrest]
          by_cases hselects : q'.selects k c
          · by_cases hsame : q'.sameChannel c
            · simp [Query.asksFor, hselects, hsame]
            · simp [Query.asksFor, hselects, hsame]
          · have hno : q'.asksFor k c = false := by simp [Query.asksFor, hselects]
            rw [if_neg hselects, hno]
            by_cases hlt : q'.toTask < k
            · have hnone : (xs.find? fun x => q'.asksFor x.2.1 x.2.2) = none := by
                apply List.find?_eq_none.mpr
                intro y hy hasks
                rw [Query.asksFor, Bool.and_eq_true] at hasks
                have hto := Query.selects_toTask hasks.1
                have hky : k ≤ y.2.1 := hle y hy
                rw [hto] at hky
                exact absurd hlt (not_lt.mpr hky)
              rw [if_pos hlt, hnone]
              rfl
            · rw [if_neg hlt]

def firstAdded (q : Query n) (xs : List (Dep n)) : Option Nat :=
  ((xs.filter fun x => q.asksFor x.2.1 x.2.2).map Prod.fst).min?

theorem Ordered.find?_eq_firstAdded_iff (hordered : Ordered xs) (q : Query n) :
    (xs.find? fun x => q.asksFor x.2.1 x.2.2).map Prod.fst = firstAdded q xs ↔
      xs.countP (fun x => q.asksFor x.2.1 x.2.2) ≤ 1 := by
  have hnewest := hordered.newest.filter fun x => q.asksFor x.2.1 x.2.2
  have hasks : ∀ x ∈ xs.filter fun x => q.asksFor x.2.1 x.2.2, x.2.1 = q.toTask := by
    intro x hx
    have hx := (List.mem_filter.mp hx).2
    rw [Query.asksFor, Bool.and_eq_true] at hx
    exact Query.selects_toTask hx.1
  rw [← List.head?_filter, List.countP_eq_length_filter, firstAdded]
  generalize xs.filter (fun x => q.asksFor x.2.1 x.2.2) = ys at hnewest hasks
  cases ys with
  | nil => simp
  | cons x ys =>
      cases ys with
      | nil => simp
      | cons y ys =>
          have hlt : y.1 < x.1 := by
            apply (List.pairwise_cons.mp hnewest).1 y List.mem_cons_self
            rw [hasks x List.mem_cons_self, hasks y (List.mem_cons_of_mem x List.mem_cons_self)]
          constructor
          · intro heq
            have hmin := (List.min?_eq_some_iff.mp heq.symm).2 y.1 (by simp)
            omega
          · intro hlength
            simp at hlength

theorem GraphRep.getDependency (hrep : GraphRep g lists) (hordered : Ordered (lists i))
    (q : Query n) : getDependency g i q =
      some (((lists i).find? fun x => q.asksFor x.2.1 x.2.2).map Prod.fst) :=
  getFrom_eq (hrep.list i).seg hordered.sorted (length_lt_loopFuel (hrep.list i).count)

/-! ## Every sequence of operations -/

/-- Where a dependency of a rank comes from after an operation. -/
def ComesFrom (g : LinkedGraph n) (lists : Fin n → List (Dep n)) (i : Fin n) (x : Dep n) :
    Operation n → Prop
  | .add fromTask toTask type thread =>
      x ∈ lists i ∨ x = (g.heap.brk, toTask, newInfo fromTask type thread)
  | .remove _ => x ∈ lists i
  | .change d newAction => x ∈ lists i ∨ ∃ y ∈ lists i, x = withAction d newAction y
  | .reset => False

theorem Ordered.withAction (hordered : Ordered xs) (d : Nat) (newAction : UInt32) :
    Ordered (xs.map (withAction d newAction)) := by
  constructor
  · apply List.pairwise_map.mpr
    apply hordered.sorted.imp
    intro x y hxy
    rw [withAction_toTask, withAction_toTask]
    exact hxy
  · apply List.pairwise_map.mpr
    apply hordered.newest.imp
    intro x y hxy
    rw [withAction_toTask, withAction_toTask, withAction_fst, withAction_fst]
    exact hxy

theorem forall_update {P : Fin n → List (Dep n) → Prop} (hlists : ∀ j, P j (lists j))
    (hys : P i ys) : ∀ j, P j (Function.update lists i ys j) := by
  intro j
  by_cases hj : j = i
  · subst hj
    rw [Function.update_self]
    exact hys
  · rw [Function.update_of_ne hj]
    exact hlists j

theorem comesFrom_update {op : Operation n}
    (hlists : ∀ j, ∀ x ∈ lists j, ComesFrom g lists j x op)
    (hys : ∀ x ∈ ys, ComesFrom g lists i x op) :
    ∀ j, ∀ x ∈ Function.update lists i ys j, ComesFrom g lists j x op :=
  forall_update (P := fun j xs => ∀ x ∈ xs, ComesFrom g lists j x op) hlists hys

theorem GraphRep.next {op : Operation n} {g' : LinkedGraph n} (hrep : GraphRep g lists)
    (hordered : ∀ i, Ordered (lists i)) (hnext : next g op = some g') :
    ∃ lists', GraphRep g' lists' ∧ (∀ i, Ordered (lists' i)) ∧
      ∀ i, ∀ x ∈ lists' i, ComesFrom g lists i x op := by
  cases op with
  | add fromTask toTask type thread =>
      obtain ⟨g₁, hadd, hrep₁⟩ := hrep.addDependency fromTask toTask type thread
      obtain rfl : g₁ = g' := Option.some.inj (hadd.symm.trans hnext)
      refine ⟨_, hrep₁, forall_update hordered ?_, comesFrom_update ?_ ?_⟩
      · apply (hordered fromTask).insertDep
        intro y hy
        obtain ⟨c, hc, -⟩ := hrep.rank_of_mem (List.mem_map_of_mem hy)
        exact hrep.wf.lt_brk hc
      · exact fun i x hx => .inl hx
      · intro x hx
        rcases List.mem_cons.mp ((insertDep_perm _ _).mem_iff.mp hx) with rfl | hx
        · exact .inr rfl
        · exact .inl hx
  | remove d =>
      obtain ⟨i, hrep'⟩ := hrep.removeDependencyP hnext
      refine ⟨_, hrep', forall_update hordered ?_, comesFrom_update ?_ ?_⟩
      · exact ⟨(hordered i).sorted.sublist List.eraseP_sublist,
          (hordered i).newest.sublist List.eraseP_sublist⟩
      · exact fun i x hx => hx
      · exact fun x hx => List.mem_of_mem_eraseP hx
  | change d newAction =>
      obtain ⟨i, hrep'⟩ := hrep.changeAction hnext
      refine ⟨_, hrep', forall_update hordered ((hordered i).withAction d newAction),
        comesFrom_update ?_ ?_⟩
      · exact fun i x hx => .inl hx
      · intro x hx
        obtain ⟨y, hy, hxy⟩ := List.mem_map.mp hx
        exact .inr ⟨y, hy, hxy.symm⟩
  | reset =>
      obtain ⟨g₁, hreset, hrep₁⟩ := hrep.graphReset
      obtain rfl : g₁ = g' := Option.some.inj (hreset.symm.trans hnext)
      exact ⟨_, hrep₁, fun _ => ⟨.nil, .nil⟩, fun i x hx => by cases hx⟩

def Consistent (g : LinkedGraph n) : Prop :=
  ∃ lists, GraphRep g lists ∧ ∀ i, Ordered (lists i)

theorem consistent_graphInit : Consistent (graphInit : LinkedGraph n) :=
  ⟨fun _ => [], graphRep_graphInit, fun _ => ⟨.nil, .nil⟩⟩

theorem consistent_next {op : Operation n} {g' : LinkedGraph n} (hcons : Consistent g)
    (hnext : DependencyLists.next g op = some g') : Consistent g' := by
  obtain ⟨lists, hrep, hordered⟩ := hcons
  obtain ⟨lists', hrep', hordered', -⟩ := hrep.next hordered hnext
  exact ⟨lists', hrep', hordered'⟩

end

/-- After any operations the links spell lists that are in order, with their counts. A query for one
action returns the dependency that was added first exactly if it is the only one. -/
theorem fifo_iff {g : LinkedGraph n} {tr : List (Transition (LinkedGraph n) (Operation n))}
    (hrun : Run (ofPartial next) graphInit tr g) :
    ∃ lists, GraphRep g lists ∧
      (∀ i, (lists i).Pairwise fun x y => x.2.1 ≤ y.2.1) ∧
      ∀ i (q : Query n), q.oneAction →
        (getDependency g i q = some (firstAdded q (lists i)) ↔
          (lists i).countP (fun x => q.asksFor x.2.1 x.2.2) ≤ 1) := by
  obtain ⟨lists, hrep, hordered⟩ := hrun.invariant consistent_graphInit
    fun _ _ _ hcons hstep => consistent_next hcons hstep
  refine ⟨lists, hrep, fun i => (hordered i).sorted, fun i q _ => ?_⟩
  rw [hrep.getDependency (hordered i), Option.some.injEq]
  exact (hordered i).find?_eq_firstAdded_iff q

def sendAction : ThreadAction := ⟨2, (5, 1), (0, 0), 0, 0⟩

def recvAction : ThreadAction := ⟨3, (5, 1), (0, 0), 0, 0⟩

/-- Rank `i` has dependencies on two ranks. The first of two equal ones is removed, and in the end a
query for SENDs to rank `j` asks for two. -/
def severalDependencies (i j k : Fin 3) : List (Operation 3) :=
  [.add i k .strg sendAction, .add i j .strg sendAction, .add i j .strg sendAction,
    .add j i .strg recvAction, .remove 1, .add i j .soft recvAction, .change 4 65536,
    .add i j .strg recvAction]

theorem fifo_iff_several :
    let g := ((exec next graphInit (severalDependencies 0 1 2)).get rfl).2
    ∃ lists, GraphRep g lists ∧ (∀ i, (lists i).Pairwise fun x y => x.2.1 ≤ y.2.1) ∧
      ∀ i (q : Query 3), q.oneAction → (getDependency g i q = some (firstAdded q (lists i)) ↔
        (lists i).countP (fun x => q.asksFor x.2.1 x.2.2) ≤ 1) :=
  fifo_iff (run_exec_get rfl)

/-- Of two equal dependencies the second one is returned. -/
theorem not_fifo :
    ¬ ∀ (n : Nat) (g : LinkedGraph n) (tr : List (Transition (LinkedGraph n) (Operation n))),
      Run (ofPartial next) graphInit tr g → ∃ lists, GraphRep g lists ∧
        (∀ i, (lists i).Pairwise fun x y => x.2.1 ≤ y.2.1) ∧
        ∀ i (q : Query n), q.oneAction → getDependency g i q = some (firstAdded q (lists i)) := by
  intro h
  obtain ⟨g₁, hadd₁, hrep₁⟩ :=
    (graphRep_graphInit (n := 2)).addDependency 0 1 .strg sendAction
  obtain ⟨g₂, hadd₂, hrep₂⟩ := hrep₁.addDependency 0 1 .strg sendAction
  have hrun : Run (ofPartial next) graphInit
      [⟨graphInit, .add 0 1 .strg sendAction, g₁⟩, ⟨g₁, .add 0 1 .strg sendAction, g₂⟩] g₂ :=
    .snoc (.snoc .nil hadd₁) hadd₂
  obtain ⟨lists, hrep, -, hfifo⟩ := h 2 g₂ _ hrun
  have hnext₁ : next graphInit (.add 0 1 .strg sendAction) = some g₁ := hadd₁
  have hnext₂ : next g₁ (.add 0 1 .strg sendAction) = some g₂ := hadd₂
  obtain ⟨lists', hrep', hordered⟩ :=
    consistent_next (consistent_next consistent_graphInit hnext₁) hnext₂
  have hfirst := hfifo 0 ⟨1, 1, 2, 5, 1⟩ rfl
  rw [hrep'.unique hrep] at hordered
  rw [hrep.getDependency (hordered 0), Option.some.injEq, (hordered 0).find?_eq_firstAdded_iff,
    hrep.unique hrep₂, Function.update_self, Function.update_self] at hfirst
  have hasks : Query.asksFor (⟨1, 1, 2, 5, 1⟩ : Query 2) 1 (newInfo 0 .strg sendAction) = true := rfl
  simp [insertDep, hasks] at hfirst

end Dimemas.Utils.DependencyLists
