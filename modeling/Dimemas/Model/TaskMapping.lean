import Dimemas.Library.Holes
import Dimemas.Model.MessageSizes
import Mathlib.Algebra.BigOperators.Group.List.Basic
import Mathlib.Algebra.Ring.Nat
/-!
# Predefined mappings of tasks to nodes

`TASK_Map_Filling_Nodes`, `TASK_Map_N_Tasks_Per_Node` and `TASK_Map_Interleaved`. Their first pass
gives accelerator nodes to the tasks that use one, the second gives nodes to the other tasks. A
result is `none` where the behaviour of the code is undefined.
-/

namespace Dimemas.Model.TaskMapping

open Dimemas.Library.Holes
open Dimemas.Model.MessageSizes

/-- A node, whose GPU is one of the entries of its queue of CPUs. -/
structure Node where
  cpus : Nat
  accelerator : Bool
  hasAcceleratedTask : Bool
  gpu : accelerator = true → 0 < cpus

def Node.free (node : Node) : Bool := node.accelerator && !node.hasAcceleratedTask

structure FirstPass where
  taskMapping : List Int
  nodes : List Node
  tasksInNode : List Int
  lastTaskAssigned : Nat

def unmapped (taskCount : Nat) (nodes : List Node) : FirstPass where
  taskMapping := List.replicate taskCount (-1)
  nodes := nodes
  tasksInNode := List.replicate nodes.length 0
  lastTaskAssigned := 0

def FirstPass.mapTo (s : FirstPass) (tasksIt iNode : Nat) : FirstPass where
  taskMapping := s.taskMapping.set tasksIt iNode
  nodes := s.nodes.modify iNode fun node => { node with hasAcceleratedTask := true }
  tasksInNode := s.tasksInNode.modify iNode (· + 1)
  lastTaskAssigned := s.lastTaskAssigned + 1

/-- The search of a node for an accelerated task. The node found is also marked through the pointer
`cpu`, which nothing has set: the argument says whether it points to memory that is not used. -/
def mapAccelerated (cpu : Bool) (suits : Nat → FirstPass → Nat → Bool) (s : FirstPass)
    (tasksIt : Nat) : Option FirstPass :=
  match (List.range s.nodes.length).find? (suits tasksIt s) with
  | none => some s
  | some iNode =>
      if tasksIt < s.taskMapping.length ∧ cpu = true then some (s.mapTo tasksIt iNode) else none

/-- The tasks of an application are given by whether they use an accelerator. -/
def mapAcceleratedTasks (cpu : Bool) (suits : Nat → FirstPass → Nat → Bool) (s : FirstPass)
    (tasks : List Bool) : Option FirstPass :=
  tasks.zipIdx.foldlM (fun s task => if task.1 then mapAccelerated cpu suits s task.2 else some s) s

def firstPass (cpu : Bool) (suits : Nat → FirstPass → Nat → Bool) (ptaskQueue : List (List Bool))
    (s : FirstPass) : Option FirstPass :=
  ptaskQueue.foldlM (mapAcceleratedTasks cpu suits) s

def freeNode (taskCount tasksIt : Nat) (s : FirstPass) (iNode : Nat) : Bool :=
  tasksIt < taskCount && s.nodes[iNode]?.any Node.free

def freeNodeBelow (nTasksPerNode : Int) (_tasksIt : Nat) (s : FirstPass) (iNode : Nat) : Bool :=
  s.tasksInNode[iNode]?.any (· < nTasksPerNode) && s.nodes[iNode]?.any Node.free

def skipMapped (taskMapping : List Int) (lastTaskAssigned : Nat) : Nat :=
  lastTaskAssigned + ((taskMapping.drop lastTaskAssigned).takeWhile (· ≠ -1)).length

/-- The entry at the cursor is read also when the cursor is behind the last one. A task that gets the
node is also marked through `cpu`. -/
def assignNext (cpu : Bool) (iNode : Int) (s : List Int × Nat) : Option (List Int × Nat) :=
  let lastTaskAssigned := skipMapped s.1 s.2
  match s.1[lastTaskAssigned]? with
  | none => none
  | some nodeid =>
      if nodeid = -1 then
        if cpu = true then some (s.1.set lastTaskAssigned iNode, lastTaskAssigned + 1) else none
      else some (s.1, lastTaskAssigned)

/-- The loop over the queue of CPUs, with the GPU. It has a pointer `cpu` of its own. -/
def fillCpus (iNode : Int) : Nat → List Int × Nat → Option (List Int × Nat)
  | 0, s => some s
  | cpus + 1, s => (assignNext true iNode s).bind (fillCpus iNode cpus)

def fillNodes (iNode : Nat) : List Node → List Int × Nat → Option (List Int × Nat)
  | [], s => some s
  | node :: nodes, s =>
      (if s.2 < s.1.length then fillCpus iNode node.cpus s else some s).bind
        (fillNodes (iNode + 1) nodes)

def taskMapFillingNodes (cpu : Bool) (nodes : List Node) (ptaskQueue : List (List Bool))
    (taskCount : Nat) : Option (List Int) :=
  (firstPass cpu (freeNode taskCount) ptaskQueue (unmapped taskCount nodes)).bind fun s =>
    (fillNodes 0 nodes (s.taskMapping, 0)).map fun s =>
      s.1.map fun nodeid => if nodeid = -1 then (nodes.length : Int) - 1 else nodeid

/-- The loop over the tasks, which ends when the node is full. -/
def assignTasks (nTasksPerNode iNode : Int) : List Int → Int → List Int × Int
  | [], tasksInNode => ([], tasksInNode)
  | nodeid :: taskMapping, tasksInNode =>
      if nodeid = -1 then
        if tasksInNode + 1 = nTasksPerNode then (iNode :: taskMapping, tasksInNode + 1)
        else
          let rest := assignTasks nTasksPerNode iNode taskMapping (tasksInNode + 1)
          (iNode :: rest.1, rest.2)
      else
        let rest := assignTasks nTasksPerNode iNode taskMapping tasksInNode
        (nodeid :: rest.1, rest.2)

def assignCpus (nTasksPerNode iNode : Int) : Nat → List Int × Int → List Int × Int
  | 0, s => s
  | cpus + 1, s =>
      let s := assignTasks nTasksPerNode iNode s.1 s.2
      if s.2 = nTasksPerNode then s else assignCpus nTasksPerNode iNode cpus s

def assignNodes (nTasksPerNode : Int) (iNode : Nat) : List (Node × Int) → List Int → List Int
  | [], taskMapping => taskMapping
  | (node, tasksInNode) :: nodes, taskMapping =>
      assignNodes nTasksPerNode (iNode + 1) nodes
        (if tasksInNode = nTasksPerNode then taskMapping
        else (assignCpus nTasksPerNode iNode node.cpus (taskMapping, tasksInNode)).1)

/-- The second `none` is the null pointer. -/
def taskMapNTasksPerNode (cpu : Bool) (nodes : List Node) (ptaskQueue : List (List Bool))
    (nTasksPerNode : Int) : Option (Option (List Int)) :=
  let totalTaskCount := (ptaskQueue.map List.length).sum
  if toInt (nTasksPerNode * nodes.length) < totalTaskCount then some none
  else
    (firstPass cpu (freeNodeBelow nTasksPerNode) ptaskQueue (unmapped totalTaskCount nodes)).map
      fun s => some (assignNodes nTasksPerNode 0 (nodes.zip s.tasksInNode) s.taskMapping)

def interleaveNode (cpu : Bool) (s : List Int × Nat) (iNode : Nat) : Option (List Int × Nat) :=
  if s.2 < s.1.length then assignNext cpu iNode s else some s

def interleaveNodes (cpu : Bool) (nNodes : Nat) (s : List Int × Nat) : Option (List Int × Nat) :=
  (List.range nNodes).foldlM (interleaveNode cpu) s

def interleave (cpu : Bool) (nNodes : Nat) : Nat → List Int × Nat → Option (List Int × Nat)
  | 0, s => some s
  | i + 1, s =>
      (if s.2 < s.1.length then interleaveNodes cpu nNodes s else some s).bind
        (interleave cpu nNodes i)

def taskMapInterleaved (cpu : Bool) (nodes : List Node) (ptaskQueue : List (List Bool))
    (taskCount : Nat) : Option (List Int) :=
  (firstPass cpu (freeNode taskCount) ptaskQueue (unmapped taskCount nodes)).bind fun s =>
    (interleave cpu nodes.length taskCount (s.taskMapping, s.lastTaskAssigned)).map Prod.fst

/-! ## The first pass -/

def freeNodes (nodes : List Node) : List Nat :=
  (List.range nodes.length).filter fun iNode => nodes[iNode]?.any Node.free

def acceleratedTasks (tasks : List Bool) : List Nat :=
  (tasks.zipIdx.filter Prod.fst).map Prod.snd

/-- No task has been counted on a node that is free. -/
def Fresh (s : FirstPass) : Prop :=
  ∀ iNode ∈ freeNodes s.nodes, s.tasksInNode[iNode]? = some 0

section

variable {cpu : Bool} {suits : Nat → FirstPass → Nat → Bool} {s : FirstPass} {nodes : List Node}
variable {tasks : List Bool} {ts fs : List Nat} {f t i : Nat}

theorem nodup_freeNodes (nodes : List Node) : (freeNodes nodes).Nodup :=
  List.nodup_range.filter _

theorem lt_of_mem_freeNodes (h : i ∈ freeNodes nodes) : i < nodes.length :=
  List.mem_range.mp (List.mem_filter.mp h).1

theorem mem_freeNodes :
    i ∈ freeNodes nodes ↔ ∃ node, nodes[i]? = some node ∧ node.free = true := by
  rw [freeNodes, List.mem_filter, List.mem_range, Option.any_eq_true]
  constructor
  · rintro ⟨-, node, hnode, hfree⟩
    exact ⟨node, hnode, hfree⟩
  · rintro ⟨node, hnode, hfree⟩
    exact ⟨(List.getElem?_eq_some_iff.mp hnode).1, node, hnode, hfree⟩

/-- A node that gets a task is not free any more. -/
theorem freeNodes_modify (h : freeNodes nodes = f :: fs) :
    freeNodes (nodes.modify f fun node => { node with hasAcceleratedTask := true }) = fs := by
  have hnodup : f ∉ fs := (List.nodup_cons.mp (h ▸ nodup_freeNodes nodes)).1
  have hother : ∀ i, ((nodes.modify f fun node => { node with hasAcceleratedTask := true })[i]?.any
      Node.free) = (i ≠ f && nodes[i]?.any Node.free) := fun i => by
    rw [List.getElem?_modify]
    by_cases hi : f = i
    · subst hi
      cases nodes[f]? with
      | none => simp
      | some node => simp [Node.free]
    · simp [hi, Ne.symm hi]
  calc freeNodes (nodes.modify f fun node => { node with hasAcceleratedTask := true })
    _ = (List.range nodes.length).filter fun i => i ≠ f && nodes[i]?.any Node.free := by
        simp only [freeNodes, List.length_modify, hother]
    _ = (f :: fs).filter (· ≠ f) := by
        rw [← h, freeNodes, List.filter_filter]
    _ = fs := by
        rw [List.filter_cons_of_neg (by simp), List.filter_eq_self]
        intro i hi
        exact decide_eq_true fun hif => hnodup (hif ▸ hi)

theorem mem_acceleratedTasks : t ∈ acceleratedTasks tasks ↔ tasks[t]? = some true := by
  rw [acceleratedTasks, List.mem_map]
  constructor
  · rintro ⟨⟨b, u⟩, hmem, rfl⟩
    rw [List.mem_filter, List.mem_zipIdx_iff_getElem?] at hmem
    exact hmem.1.trans (congrArg some hmem.2)
  · intro h
    exact ⟨(true, t), List.mem_filter.mpr ⟨List.mem_zipIdx_iff_getElem?.mpr h, rfl⟩, rfl⟩

theorem nodup_acceleratedTasks (tasks : List Bool) : (acceleratedTasks tasks).Nodup := by
  have hsub : (acceleratedTasks tasks).Sublist (tasks.zipIdx.map Prod.snd) :=
    List.filter_sublist.map _
  rw [List.zipIdx_map_snd] at hsub
  exact hsub.nodup List.nodup_range'

theorem mapAcceleratedTasks_eq :
    mapAcceleratedTasks cpu suits s tasks =
      (acceleratedTasks tasks).foldlM (mapAccelerated cpu suits) s := by
  have hgen : ∀ (l : List (Bool × Nat)) (s : FirstPass),
      l.foldlM (fun s task => if task.1 then mapAccelerated cpu suits s task.2 else some s) s =
        ((l.filter Prod.fst).map Prod.snd).foldlM (mapAccelerated cpu suits) s := fun l => by
    induction l with
    | nil => exact fun _ => rfl
    | cons task l ih =>
        intro s
        obtain ⟨accelerator, t⟩ := task
        cases accelerator with
        | false => exact ih s
        | true => exact congrArg ((mapAccelerated cpu suits s t).bind ·) (funext ih)
  exact hgen _ s

/-- Only the nodes that are free suit. -/
def Suitable (suits : Nat → FirstPass → Nat → Bool) (ts : List Nat) : Prop :=
  ∀ s, Fresh s → ∀ t ∈ ts, ∀ i < s.nodes.length, suits t s i = s.nodes[i]?.any Node.free

theorem find_suitable (hsuits : Suitable suits ts) (hfresh : Fresh s) (ht : t ∈ ts) :
    (List.range s.nodes.length).find? (suits t s) = (freeNodes s.nodes).head? := by
  rw [freeNodes, ← List.head?_filter]
  exact congrArg List.head?
    (List.filter_congr fun i hi => hsuits s hfresh t ht i (List.mem_range.mp hi))

theorem fresh_mapTo (hfree : freeNodes s.nodes = f :: fs) (hfresh : Fresh s) :
    Fresh (s.mapTo t f) := by
  intro i hi
  have hfs : i ∈ fs := freeNodes_modify hfree ▸ hi
  have hne : f ≠ i := by
    rintro rfl
    exact (List.nodup_cons.mp (hfree ▸ nodup_freeNodes s.nodes)).1 hfs
  show (s.tasksInNode.modify f (· + 1))[i]? = some 0
  rw [List.getElem?_modify_ne _ _ hne]
  exact hfresh i (hfree ▸ List.mem_cons_of_mem f hfs)

theorem mapAccelerated_noFree (hsuits : Suitable suits ts) (hfresh : Fresh s) (ht : t ∈ ts)
    (hfree : freeNodes s.nodes = []) : mapAccelerated cpu suits s t = some s := by
  rw [mapAccelerated, find_suitable hsuits hfresh ht, hfree]
  rfl

theorem mapAccelerated_free (hsuits : Suitable suits ts) (hfresh : Fresh s) (ht : t ∈ ts)
    (hfree : freeNodes s.nodes = f :: fs) :
    mapAccelerated cpu suits s t =
      if t < s.taskMapping.length ∧ cpu = true then some (s.mapTo t f) else none := by
  rw [mapAccelerated, find_suitable hsuits hfresh ht, hfree]
  rfl

theorem sum_modify_succ {l : List Int} (hf : f < l.length) :
    (l.modify f (· + 1)).sum = l.sum + 1 := by
  induction l generalizing f with
  | nil => exact absurd hf (Nat.not_lt_zero f)
  | cons c l ih =>
      cases f with
      | zero =>
          show c + 1 + l.sum = c + l.sum + 1
          omega
      | succ f =>
          show c + (l.modify f (· + 1)).sum = c + l.sum + 1
          rw [ih (Nat.lt_of_succ_lt_succ hf)]
          omega

theorem firstPass_stops (hsuits : Suitable suits ts) (hfresh : Fresh s) (hts : ts ≠ [])
    (hfree : freeNodes s.nodes ≠ []) : ts.foldlM (mapAccelerated false suits) s = none := by
  obtain ⟨t, ts, rfl⟩ := List.exists_cons_of_ne_nil hts
  obtain ⟨f, fs, hfs⟩ := List.exists_cons_of_ne_nil hfree
  rw [List.foldlM_cons, mapAccelerated_free hsuits hfresh List.mem_cons_self hfs, if_neg (by simp)]
  rfl

theorem firstPass_noFree (hsuits : Suitable suits ts) (hfresh : Fresh s)
    (hfree : freeNodes s.nodes = []) : ts.foldlM (mapAccelerated cpu suits) s = some s := by
  induction ts with
  | nil => rfl
  | cons t ts ih =>
      have hrest : Suitable suits ts := fun s hs u hu => hsuits s hs u (List.mem_cons_of_mem t hu)
      rw [List.foldlM_cons, mapAccelerated_noFree hsuits hfresh List.mem_cons_self hfree]
      exact ih hrest

/-- The first pass gives the free nodes in order to the accelerated tasks in order. -/
theorem firstPass_maps (hsuits : Suitable suits ts) (hfresh : Fresh s)
    (hts : ∀ t ∈ ts, t < s.taskMapping.length) :
    ∃ s', ts.foldlM (mapAccelerated true suits) s = some s' ∧
      s'.taskMapping = place s.taskMapping ts ((freeNodes s.nodes).map Nat.cast) ∧
      s'.lastTaskAssigned = s.lastTaskAssigned + min ts.length (freeNodes s.nodes).length ∧
      s'.tasksInNode.sum = s.tasksInNode.sum + (min ts.length (freeNodes s.nodes).length : Nat) ∧
      ∀ i, s'.tasksInNode[i]? = s.tasksInNode[i]?.map
        (· + (((freeNodes s.nodes).take ts.length).count i : Int)) := by
  induction ts generalizing s with
  | nil =>
      refine ⟨s, rfl, place_nil.symm, by simp, by simp, fun i => ?_⟩
      simp
  | cons t ts ih =>
      have hrest : Suitable suits ts := fun s hs u hu => hsuits s hs u (List.mem_cons_of_mem t hu)
      cases hfree : freeNodes s.nodes with
      | nil =>
          refine ⟨s, firstPass_noFree hsuits hfresh hfree, rfl, by simp, by simp, fun i => ?_⟩
          simp
      | cons f fs =>
          have ht : t < s.taskMapping.length := hts t List.mem_cons_self
          have hfs : freeNodes (s.mapTo t f).nodes = fs := freeNodes_modify hfree
          have hlengths : ∀ u ∈ ts, u < (s.mapTo t f).taskMapping.length := fun u hu => by
            show u < (s.taskMapping.set t f).length
            rw [List.length_set]
            exact hts u (List.mem_cons_of_mem t hu)
          have hf : f < s.tasksInNode.length :=
            (List.getElem?_eq_some_iff.mp (hfresh f (hfree ▸ List.mem_cons_self))).1
          obtain ⟨s', hrun, hmapping, hlast, hsum, hcounts⟩ :=
            ih hrest (fresh_mapTo hfree hfresh) hlengths
          refine ⟨s', ?_, ?_, ?_, ?_, fun i => ?_⟩
          · rw [List.foldlM_cons, mapAccelerated_free hsuits hfresh List.mem_cons_self hfree,
              if_pos ⟨ht, rfl⟩]
            exact hrun
          · rw [hmapping, hfs]
            rfl
          · rw [hlast, hfs]
            show s.lastTaskAssigned + 1 + _ = _
            simp only [List.length_cons]
            omega
          · rw [hsum, hfs]
            show (s.tasksInNode.modify f (· + 1)).sum + _ = _
            rw [sum_modify_succ hf]
            simp only [List.length_cons]
            omega
          · rw [hcounts i, hfs]
            show ((s.tasksInNode.modify f (· + 1))[i]?).map _ = _
            rw [List.getElem?_modify, List.length_cons, List.take_succ_cons, List.count_cons]
            cases s.tasksInNode[i]? with
            | none => rfl
            | some c =>
                by_cases hi : f = i
                · simp [hi]
                  omega
                · simp [hi]

end

/-! ## The cursor of the second pass -/

/-- The tasks before the cursor are mapped. -/
structure Front (s : List Int × Nat) : Prop where
  le : s.2 ≤ s.1.length
  mapped : -1 ∉ s.1.take s.2

/-- The last task is not mapped before the second pass is over, and the cursor is behind it then. -/
structure EndsOpen (s : List Int × Nat) : Prop extends Front s where
  last : -1 ∈ s.1 → s.1.getLast? = some (-1)
  inside : s.2 < s.1.length ↔ -1 ∈ s.1

/-- The last task was mapped by the first pass, and the cursor stays inside. -/
structure EndsMapped (s : List Int × Nat) : Prop extends Front s where
  last : s.1.getLast? ≠ some (-1)
  inside : s.2 < s.1.length

section

variable {s s' : List Int × Nat} {m pre post : List Int} {nodeid : Int} {last k : Nat}

theorem skipMapped_append (hpre : -1 ∉ pre) (hlast : last ≤ pre.length) :
    skipMapped (pre ++ -1 :: post) last = pre.length := by
  have hmapped : ∀ x ∈ pre.drop last, decide (x ≠ -1) = true := fun x hx =>
    decide_eq_true fun h => hpre (h ▸ List.mem_of_mem_drop hx)
  rw [skipMapped, List.drop_append_of_le_length hlast, List.takeWhile_append_of_pos hmapped,
    List.takeWhile_cons_of_neg (by simp), List.append_nil, List.length_drop]
  omega

theorem skipMapped_of_notMem (hm : -1 ∉ m) (hlast : last ≤ m.length) :
    skipMapped m last = m.length := by
  have hmapped : (m.drop last).takeWhile (· ≠ -1) = m.drop last :=
    List.takeWhile_eq_self_iff.mpr fun x hx =>
      decide_eq_true fun h => hm (h ▸ List.mem_of_mem_drop hx)
  rw [skipMapped, hmapped, List.length_drop]
  omega

theorem Front.le_first (hfront : Front (pre ++ -1 :: post, last)) : last ≤ pre.length := by
  by_contra hlt
  obtain ⟨k, hk⟩ : ∃ k, last - pre.length = k + 1 := ⟨last - pre.length - 1, by omega⟩
  apply hfront.mapped
  show -1 ∈ (pre ++ -1 :: post).take last
  rw [List.take_append, hk, List.take_succ_cons]
  exact List.mem_append_right _ List.mem_cons_self

theorem assignNext_notMem (hfront : Front s) (hm : -1 ∉ s.1) : assignNext true nodeid s = none := by
  rw [assignNext, skipMapped_of_notMem hm hfront.le]
  simp

theorem assignNext_first (hfront : Front (pre ++ -1 :: post, last)) (hpre : -1 ∉ pre) :
    assignNext true nodeid (pre ++ -1 :: post, last) =
      some (pre ++ nodeid :: post, pre.length + 1) := by
  rw [assignNext, skipMapped_append hpre hfront.le_first]
  simp

theorem assignNext_unset (hfront : Front s) (hm : -1 ∈ s.1) : assignNext false nodeid s = none := by
  obtain ⟨m, last⟩ := s
  obtain ⟨pre, post, hsplit, hpre⟩ := List.eq_append_cons_of_mem hm
  obtain rfl : m = pre ++ -1 :: post := hsplit
  rw [assignNext, skipMapped_append hpre hfront.le_first]
  simp

theorem assignNext_mem (hfront : Front s) (hm : -1 ∈ s.1) :
    ∃ pre post, -1 ∉ pre ∧ s.1 = pre ++ -1 :: post ∧
      assignNext true nodeid s = some (pre ++ nodeid :: post, pre.length + 1) := by
  obtain ⟨pre, post, hs, hpre⟩ := List.eq_append_cons_of_mem hm
  obtain ⟨m, last⟩ := s
  obtain rfl : m = pre ++ -1 :: post := hs
  exact ⟨pre, post, hpre, rfl, assignNext_first hfront hpre⟩

theorem front_assigned (hpre : -1 ∉ pre) (hid : nodeid ≠ -1) :
    Front (pre ++ nodeid :: post, pre.length + 1) where
  le := by
    show pre.length + 1 ≤ (pre ++ nodeid :: post).length
    rw [List.length_append, List.length_cons]
    omega
  mapped := by
    show -1 ∉ (pre ++ nodeid :: post).take (pre.length + 1)
    rw [List.take_append, List.take_of_length_le (Nat.le_succ _), Nat.add_sub_cancel_left,
      List.take_succ_cons, List.take_zero, List.mem_append, List.mem_singleton]
    rintro (h | h)
    · exact hpre h
    · exact hid h.symm

theorem endsOpen_assigned (hopen : EndsOpen (pre ++ -1 :: post, last)) (hpre : -1 ∉ pre)
    (hid : nodeid ≠ -1) : EndsOpen (pre ++ nodeid :: post, pre.length + 1) := by
  have hmem : -1 ∈ pre ++ nodeid :: post ↔ -1 ∈ post := by
    rw [List.mem_append, List.mem_cons]
    simp [hpre, hid.symm]
  have hend : post ≠ [] → post.getLast? = some (-1) := fun hpost => by
    have hlast := hopen.last (List.mem_append_right _ List.mem_cons_self)
    rwa [List.getLast?_append_of_ne_nil _ (List.cons_ne_nil _ _),
      List.getLast?_cons_of_ne_nil hpost] at hlast
  refine ⟨front_assigned hpre hid, fun h => ?_, ?_⟩
  · have hpost : post ≠ [] := List.ne_nil_of_mem (hmem.mp h)
    show (pre ++ nodeid :: post).getLast? = some (-1)
    rw [List.getLast?_append_of_ne_nil _ (List.cons_ne_nil _ _),
      List.getLast?_cons_of_ne_nil hpost, hend hpost]
  · show pre.length + 1 < (pre ++ nodeid :: post).length ↔ -1 ∈ pre ++ nodeid :: post
    rw [hmem, List.length_append, List.length_cons]
    constructor
    · intro hlt
      have hpost : post ≠ [] := by
        rintro rfl
        exact absurd hlt (by simp)
      exact List.mem_of_getLast? (hend hpost)
    · intro h
      have hpos : 0 < post.length := List.length_pos_of_mem h
      omega

theorem endsMapped_assigned (hmapped : EndsMapped (pre ++ -1 :: post, last)) (hpre : -1 ∉ pre)
    (hid : nodeid ≠ -1) : EndsMapped (pre ++ nodeid :: post, pre.length + 1) := by
  have hpost : post ≠ [] := by
    rintro rfl
    apply hmapped.last
    rw [List.getLast?_append_of_ne_nil _ (List.cons_ne_nil _ _)]
    rfl
  refine ⟨front_assigned hpre hid, ?_, ?_⟩
  · have hlast := hmapped.last
    rw [List.getLast?_append_of_ne_nil _ (List.cons_ne_nil _ _),
      List.getLast?_cons_of_ne_nil hpost] at hlast ⊢
    exact hlast
  · show pre.length + 1 < (pre ++ nodeid :: post).length
    have hpos : 0 < post.length := List.length_pos_iff.mpr hpost
    rw [List.length_append, List.length_cons]
    omega

/-- What holds at the cursor after every task that is assigned. -/
structure Kept (P : List Int × Nat → Prop) : Prop where
  front : ∀ {s}, P s → Front s
  assigned : ∀ {pre post last nodeid}, P (pre ++ -1 :: post, last) → -1 ∉ pre → nodeid ≠ -1 →
    P (pre ++ nodeid :: post, pre.length + 1)

theorem kept_endsOpen : Kept EndsOpen where
  front h := h.toFront
  assigned h hpre hid := endsOpen_assigned h hpre hid

theorem kept_endsMapped : Kept EndsMapped where
  front h := h.toFront
  assigned h hpre hid := endsMapped_assigned h hpre hid

variable {P : List Int × Nat → Prop} {cpus : Nat}

theorem assignNext_fills (hP : Kept P) (hs : P s) (hid : nodeid ≠ -1) (hm : -1 ∈ s.1) :
    ∃ last, assignNext true nodeid s = some (fillHoles (-1) s.1 [nodeid], last) ∧
      P (fillHoles (-1) s.1 [nodeid], last) := by
  obtain ⟨m, last⟩ := s
  obtain ⟨pre, post, hpre, hsplit, hassign⟩ := @assignNext_mem (m, last) nodeid (hP.front hs) hm
  obtain rfl : m = pre ++ -1 :: post := hsplit
  refine ⟨pre.length + 1, ?_, ?_⟩
  · rw [hassign, fillHoles_first hpre]
  · rw [fillHoles_first hpre]
    exact hP.assigned hs hpre hid

theorem fillCpus_fills (hP : Kept P) (hs : P s) (hid : nodeid ≠ -1)
    (hcpus : cpus ≤ s.1.count (-1)) :
    ∃ last, fillCpus nodeid cpus s =
        some (fillHoles (-1) s.1 (List.replicate cpus nodeid), last) ∧
      P (fillHoles (-1) s.1 (List.replicate cpus nodeid), last) := by
  induction cpus generalizing s with
  | zero =>
      rw [List.replicate_zero, fillHoles_nil]
      exact ⟨s.2, rfl, hs⟩
  | succ cpus ih =>
      have hm : -1 ∈ s.1 := List.count_pos_iff.mp (by omega)
      have hvs : -1 ∉ [nodeid] := fun h => hid (List.mem_singleton.mp h).symm
      obtain ⟨last, hassign, hnext⟩ := assignNext_fills hP hs hid hm
      have hcount : cpus ≤ (fillHoles (-1) s.1 [nodeid]).count (-1) := by
        rw [count_hole_fillHoles hvs, List.length_singleton]
        omega
      have hjoin : fillHoles (-1) (fillHoles (-1) s.1 [nodeid]) (List.replicate cpus nodeid) =
          fillHoles (-1) s.1 (List.replicate (cpus + 1) nodeid) := fillHoles_fillHoles hvs
      obtain ⟨last', hrun, hkept⟩ := ih hnext hcount
      rw [← hjoin, fillCpus, hassign]
      exact ⟨last', hrun, hkept⟩

/-- With more CPUs than tasks the entry behind the last one is read. -/
theorem fillCpus_stops (hP : Kept P) (hs : P s) (hid : nodeid ≠ -1)
    (hcpus : s.1.count (-1) < cpus) : fillCpus nodeid cpus s = none := by
  induction cpus generalizing s with
  | zero => exact absurd hcpus (Nat.not_lt_zero _)
  | succ cpus ih =>
      rw [fillCpus]
      by_cases hm : -1 ∈ s.1
      · have hvs : -1 ∉ [nodeid] := fun h => hid (List.mem_singleton.mp h).symm
        obtain ⟨last, hassign, hnext⟩ := assignNext_fills hP hs hid hm
        have hcount : (fillHoles (-1) s.1 [nodeid]).count (-1) < cpus := by
          have hpos : 0 < s.1.count (-1) := List.count_pos_iff.mpr hm
          rw [count_hole_fillHoles hvs, List.length_singleton]
          omega
        rw [hassign]
        exact ih hnext hcount
      · rw [assignNext_notMem (hP.front hs) hm]
        rfl

end

/-! ## The fill mapping -/

/-- The nodes in the order in which the fill mapping assigns them, once for each CPU. -/
def slots (iNode : Nat) : List Node → List Int
  | [] => []
  | node :: nodes => List.replicate node.cpus (iNode : Int) ++ slots (iNode + 1) nodes

/-- The CPUs of the first `k` nodes. -/
def cpusBefore (nodes : List Node) (k : Nat) : Nat := ((nodes.take k).map Node.cpus).sum

/-- The tasks are at least the CPUs, or the last one takes the last CPU of a node. -/
def EndsAtNode (nodes : List Node) (tasks : Nat) : Prop :=
  cpusBefore nodes nodes.length ≤ tasks ∨ ∃ k ≤ nodes.length, tasks = cpusBefore nodes k

section

variable {node : Node} {nodes : List Node} {s : List Int × Nat} {iNode tasks k : Nat}

theorem cpusBefore_cons : cpusBefore (node :: nodes) (k + 1) = node.cpus + cpusBefore nodes k := by
  rw [cpusBefore, List.take_succ_cons, List.map_cons, List.sum_cons]
  rfl

theorem le_of_mem_slots {nodeid : Int} (h : nodeid ∈ slots iNode nodes) :
    (iNode : Int) ≤ nodeid ∧ nodeid < iNode + nodes.length := by
  induction nodes generalizing iNode with
  | nil => exact nomatch h
  | cons node nodes ih =>
      rw [List.length_cons]
      rcases List.mem_append.mp h with h | h
      · rw [List.eq_of_mem_replicate h]
        omega
      · have hrest := ih h
        omega

theorem notMem_slots : -1 ∉ slots iNode nodes := fun h => by
  have hle := (le_of_mem_slots h).1
  omega

theorem endsAtNode_cons : EndsAtNode (node :: nodes) tasks ↔
    tasks = 0 ∨ node.cpus ≤ tasks ∧ EndsAtNode nodes (tasks - node.cpus) := by
  simp only [EndsAtNode, List.length_cons, cpusBefore_cons]
  constructor
  · rintro (h | ⟨k, hk, h⟩)
    · exact .inr ⟨by omega, .inl (by omega)⟩
    · cases k with
      | zero => exact .inl h
      | succ k =>
          rw [cpusBefore_cons] at h
          exact .inr ⟨by omega, .inr ⟨k, by omega, by omega⟩⟩
  · rintro (h | ⟨hle, h | ⟨k, hk, h⟩⟩)
    · exact .inr ⟨0, Nat.zero_le _, h⟩
    · exact .inl (by omega)
    · refine .inr ⟨k + 1, by omega, ?_⟩
      rw [cpusBefore_cons]
      omega

theorem endsAtNode_zero : EndsAtNode nodes 0 := .inr ⟨0, Nat.zero_le _, rfl⟩

theorem ne_neg_one (iNode : Nat) : (iNode : Int) ≠ -1 := by omega

theorem notMem_replicate {cpus : Nat} : (-1 : Int) ∉ List.replicate cpus (iNode : Int) := fun h =>
  ne_neg_one iNode (List.eq_of_mem_replicate h).symm

/-- When the first pass mapped the last task, every CPU of every node is tried. -/
theorem fillNodes_endsMapped (hs : EndsMapped s) :
    (cpusBefore nodes nodes.length ≤ s.1.count (-1) → ∃ last,
      fillNodes iNode nodes s = some (fillHoles (-1) s.1 (slots iNode nodes), last)) ∧
    (s.1.count (-1) < cpusBefore nodes nodes.length → fillNodes iNode nodes s = none) := by
  induction nodes generalizing iNode s with
  | nil =>
      refine ⟨fun _ => ⟨s.2, ?_⟩, fun h => absurd h (Nat.not_lt_zero _)⟩
      rw [slots, fillHoles_nil]
      rfl
  | cons node nodes ih =>
      rw [List.length_cons, cpusBefore_cons, fillNodes, if_pos hs.inside]
      by_cases hcpus : node.cpus ≤ s.1.count (-1)
      · obtain ⟨last, hfill, hkept⟩ :=
          fillCpus_fills kept_endsMapped hs (ne_neg_one iNode) hcpus
        have hcount : (fillHoles (-1) s.1 (List.replicate node.cpus (iNode : Int))).count (-1) =
            s.1.count (-1) - node.cpus := by
          rw [count_hole_fillHoles notMem_replicate, List.length_replicate]
        have hrest := @ih (fillHoles (-1) s.1 (List.replicate node.cpus (iNode : Int)), last)
          (iNode + 1) hkept
        rw [hcount, fillHoles_fillHoles notMem_replicate] at hrest
        rw [hfill]
        exact ⟨fun h => hrest.1 (by omega), fun h => hrest.2 (by omega)⟩
      · rw [fillCpus_stops kept_endsMapped hs (ne_neg_one iNode) (by omega)]
        exact ⟨fun h => absurd h (by omega), fun _ => rfl⟩

/-- Otherwise the pass ends with the node that gets the last task. -/
theorem fillNodes_endsOpen (hs : EndsOpen s) :
    (EndsAtNode nodes (s.1.count (-1)) → ∃ last,
      fillNodes iNode nodes s = some (fillHoles (-1) s.1 (slots iNode nodes), last)) ∧
    (¬ EndsAtNode nodes (s.1.count (-1)) → fillNodes iNode nodes s = none) := by
  induction nodes generalizing iNode s with
  | nil =>
      refine ⟨fun _ => ⟨s.2, ?_⟩, fun h => absurd (.inl (Nat.zero_le _)) h⟩
      rw [slots, fillHoles_nil]
      rfl
  | cons node nodes ih =>
      rw [endsAtNode_cons, fillNodes]
      by_cases hm : -1 ∈ s.1
      · have hpos : 0 < s.1.count (-1) := List.count_pos_iff.mpr hm
        rw [if_pos (hs.inside.mpr hm)]
        by_cases hcpus : node.cpus ≤ s.1.count (-1)
        · obtain ⟨last, hfill, hkept⟩ := fillCpus_fills kept_endsOpen hs (ne_neg_one iNode) hcpus
          have hcount : (fillHoles (-1) s.1 (List.replicate node.cpus (iNode : Int))).count (-1) =
              s.1.count (-1) - node.cpus := by
            rw [count_hole_fillHoles notMem_replicate, List.length_replicate]
          have hrest := @ih (fillHoles (-1) s.1 (List.replicate node.cpus (iNode : Int)), last)
            (iNode + 1) hkept
          rw [hcount, fillHoles_fillHoles notMem_replicate] at hrest
          rw [hfill]
          refine ⟨fun h => ?_, fun h => ?_⟩
          · rcases h with h | h
            · omega
            · exact hrest.1 h.2
          · exact hrest.2 fun hends => h (.inr ⟨hcpus, hends⟩)
        · rw [fillCpus_stops kept_endsOpen hs (ne_neg_one iNode) (by omega)]
          refine ⟨fun h => ?_, fun _ => rfl⟩
          rcases h with h | h
          · omega
          · exact absurd h.1 hcpus
      · have hzero : s.1.count (-1) = 0 := List.count_eq_zero.mpr hm
        rw [if_neg (fun h => hm (hs.inside.mp h)), hzero]
        refine ⟨fun _ => ?_, fun h => absurd (.inl rfl) h⟩
        have hrest := (@ih s (iNode + 1) hs).1 (hzero ▸ endsAtNode_zero)
        rw [fillHoles_of_notMem hm] at hrest ⊢
        exact hrest

end

/-! ## The interleaved mapping -/

/-- The nodes in the order in which the interleaved mapping assigns them. -/
def rounds (nNodes : Nat) : Nat → List Int
  | 0 => []
  | i + 1 => (List.range nNodes).map Nat.cast ++ rounds nNodes i

section

variable {s s' : List Int × Nat} {nNodes i t : Nat} {ids : List Nat} {nodeid : Int} {cpu : Bool}

theorem notMem_cast (ids : List Nat) : (-1 : Int) ∉ ids.map Nat.cast := fun h => by
  obtain ⟨id, -, hid⟩ := List.mem_map.mp h
  exact ne_neg_one id hid

theorem mem_rounds (h : nodeid ∈ rounds nNodes i) : 0 ≤ nodeid ∧ nodeid < nNodes := by
  induction i with
  | zero => exact nomatch h
  | succ i ih =>
      rcases List.mem_append.mp h with h | h
      · obtain ⟨id, hid, rfl⟩ := List.mem_map.mp h
        have hlt := List.mem_range.mp hid
        omega
      · exact ih h

theorem length_rounds : (rounds nNodes i).length = i * nNodes := by
  induction i with
  | zero => rw [Nat.zero_mul, rounds, List.length_nil]
  | succ i ih =>
      rw [rounds, List.length_append, List.length_map, List.length_range, ih, Nat.succ_mul,
        Nat.add_comm]

theorem interleaveNodes_fills (hs : EndsOpen s) :
    ∃ last, ids.foldlM (interleaveNode true) s =
        some (fillHoles (-1) s.1 (ids.map Nat.cast), last) ∧
      EndsOpen (fillHoles (-1) s.1 (ids.map Nat.cast), last) := by
  induction ids generalizing s with
  | nil =>
      rw [List.map_nil, fillHoles_nil]
      exact ⟨s.2, rfl, hs⟩
  | cons id ids ih =>
      have hvs : (-1 : Int) ∉ [(id : Int)] := notMem_cast [id]
      have hjoin : fillHoles (-1) (fillHoles (-1) s.1 [(id : Int)]) (ids.map Nat.cast) =
          fillHoles (-1) s.1 ((id :: ids).map Nat.cast) := fillHoles_fillHoles hvs
      have hfirst : ∃ last, interleaveNode true s id =
            some (fillHoles (-1) s.1 [(id : Int)], last) ∧
          EndsOpen (fillHoles (-1) s.1 [(id : Int)], last) := by
        rw [interleaveNode]
        by_cases hm : -1 ∈ s.1
        · rw [if_pos (hs.inside.mpr hm)]
          exact assignNext_fills kept_endsOpen hs (ne_neg_one id) hm
        · rw [if_neg fun h => hm (hs.inside.mp h), fillHoles_of_notMem hm]
          exact ⟨s.2, rfl, hs⟩
      obtain ⟨last, hassign, hnext⟩ := hfirst
      obtain ⟨last', hrun, hkept⟩ := ih hnext
      rw [← hjoin, List.foldlM_cons, hassign]
      exact ⟨last', hrun, hkept⟩

theorem interleave_fills (hs : EndsOpen s) :
    ∃ last, interleave true nNodes i s = some (fillHoles (-1) s.1 (rounds nNodes i), last) := by
  induction i generalizing s with
  | zero =>
      rw [rounds, fillHoles_nil]
      exact ⟨s.2, rfl⟩
  | succ i ih =>
      have hround : ∃ last, (if s.2 < s.1.length then interleaveNodes true nNodes s else some s) =
            some (fillHoles (-1) s.1 ((List.range nNodes).map Nat.cast), last) ∧
          EndsOpen (fillHoles (-1) s.1 ((List.range nNodes).map Nat.cast), last) := by
        by_cases hm : -1 ∈ s.1
        · rw [if_pos (hs.inside.mpr hm)]
          exact interleaveNodes_fills hs
        · rw [if_neg fun h => hm (hs.inside.mp h), fillHoles_of_notMem hm]
          exact ⟨s.2, rfl, hs⟩
      obtain ⟨last, hfill, hnext⟩ := hround
      obtain ⟨last', hrun⟩ := ih hnext
      rw [fillHoles_fillHoles (notMem_cast _)] at hrun
      rw [interleave, hfill]
      exact ⟨last', hrun⟩

/-- The first task that is assigned is marked through the pointer that nothing has set. -/
theorem interleave_stops (hs : EndsOpen s) (hm : -1 ∈ s.1) (hnodes : 0 < nNodes) (hi : 0 < i) :
    interleave false nNodes i s = none := by
  obtain ⟨nNodes, rfl⟩ := Nat.exists_eq_succ_of_ne_zero (Nat.ne_of_gt hnodes)
  obtain ⟨i, rfl⟩ := Nat.exists_eq_succ_of_ne_zero (Nat.ne_of_gt hi)
  have hinside := hs.inside.mpr hm
  have hfirst : interleaveNode false s 0 = none := by
    rw [interleaveNode, if_pos hinside]
    exact assignNext_unset hs.toFront hm
  rw [interleave, if_pos hinside, interleaveNodes, List.range_succ_eq_map, List.foldlM_cons, hfirst]
  rfl

theorem assignNext_keeps (h : assignNext cpu nodeid s = some s') (ht : t < s.2) :
    s'.1[t]? = s.1[t]? ∧ t < s'.2 := by
  have hskip : s.2 ≤ skipMapped s.1 s.2 := Nat.le_add_right _ _
  rw [assignNext] at h
  split at h
  · exact nomatch h
  · split at h
    · obtain ⟨-, h⟩ := Option.ite_none_right_eq_some.mp h
      obtain rfl := Option.some_injective _ h
      exact ⟨List.getElem?_set_ne (by omega), by omega⟩
    · obtain rfl := Option.some_injective _ h
      exact ⟨rfl, by omega⟩

theorem interleaveNodes_keeps (h : ids.foldlM (interleaveNode cpu) s = some s') (ht : t < s.2) :
    s'.1[t]? = s.1[t]? ∧ t < s'.2 := by
  induction ids generalizing s with
  | nil =>
      obtain rfl := Option.some_injective _ h
      exact ⟨rfl, ht⟩
  | cons id ids ih =>
      rw [List.foldlM_cons] at h
      obtain ⟨mid, hmid, hrest⟩ := Option.bind_eq_some_iff.mp h
      have hfirst : mid.1[t]? = s.1[t]? ∧ t < mid.2 := by
        rw [interleaveNode] at hmid
        split at hmid
        · exact assignNext_keeps hmid ht
        · obtain rfl := Option.some_injective _ hmid
          exact ⟨rfl, ht⟩
      have hafter := ih hrest hfirst.2
      exact ⟨hafter.1.trans hfirst.1, hafter.2⟩

theorem interleave_keeps (h : interleave cpu nNodes i s = some s') (ht : t < s.2) :
    s'.1[t]? = s.1[t]? := by
  induction i generalizing s with
  | zero =>
      obtain rfl := Option.some_injective _ h
      rfl
  | succ i ih =>
      rw [interleave] at h
      obtain ⟨mid, hmid, hrest⟩ := Option.bind_eq_some_iff.mp h
      have hfirst : mid.1[t]? = s.1[t]? ∧ t < mid.2 := by
        split at hmid
        · exact interleaveNodes_keeps hmid ht
        · obtain rfl := Option.some_injective _ hmid
          exact ⟨rfl, ht⟩
      exact (ih hrest hfirst.2).trans hfirst.1

end

/-! ## The mapping with a number of tasks for each node -/

/-- The nodes in the order in which they are assigned, as often as there is room for tasks. -/
def slotsBelow (nTasksPerNode : Int) (iNode : Nat) : List (Node × Int) → List Int
  | [] => []
  | (node, tasksInNode) :: nodes =>
      (if 0 < node.cpus then List.replicate (nTasksPerNode - tasksInNode).toNat (iNode : Int)
        else []) ++ slotsBelow nTasksPerNode (iNode + 1) nodes

section

variable {nTasksPerNode iNode tasksInNode : Int} {m : List Int} {cpus : Nat}

theorem assignTasks_notMem (hm : -1 ∉ m) :
    assignTasks nTasksPerNode iNode m tasksInNode = (m, tasksInNode) := by
  induction m with
  | nil => rfl
  | cons nodeid m ih =>
      have hid : nodeid ≠ -1 := fun h => hm (h ▸ List.mem_cons_self)
      rw [assignTasks, if_neg hid, ih fun h => hm (List.mem_cons_of_mem nodeid h)]

theorem assignTasks_fills (hroom : tasksInNode < nTasksPerNode) :
    assignTasks nTasksPerNode iNode m tasksInNode =
      (fillHoles (-1) m (List.replicate (nTasksPerNode - tasksInNode).toNat iNode),
        tasksInNode + min (m.count (-1)) (nTasksPerNode - tasksInNode).toNat) := by
  induction m generalizing tasksInNode with
  | nil => simp [assignTasks, fillHoles]
  | cons nodeid m ih =>
      obtain ⟨k, hk⟩ : ∃ k, (nTasksPerNode - tasksInNode).toNat = k + 1 :=
        ⟨(nTasksPerNode - tasksInNode).toNat - 1, by omega⟩
      rw [hk, List.replicate_succ, assignTasks, fillHoles]
      by_cases hid : nodeid = -1
      · rw [if_pos hid, if_pos hid, hid, List.count_cons_self]
        by_cases hfull : tasksInNode + 1 = nTasksPerNode
        · obtain rfl : k = 0 := by omega
          rw [if_pos hfull, List.replicate_zero, fillHoles_nil]
          exact Prod.ext rfl (by simp)
        · have hnext : (nTasksPerNode - (tasksInNode + 1)).toNat = k := by omega
          rw [if_neg hfull, ih (by omega), hnext]
          refine Prod.ext rfl ?_
          show tasksInNode + 1 + ((min (m.count (-1)) k : Nat) : Int) =
            tasksInNode + ((min (m.count (-1) + 1) (k + 1) : Nat) : Int)
          omega
      · rw [if_neg hid, if_neg hid, ih hroom, hk, List.replicate_succ,
          List.count_cons_of_ne hid]

theorem assignCpus_notMem (hm : -1 ∉ m) :
    (assignCpus nTasksPerNode iNode cpus (m, tasksInNode)).1 = m := by
  induction cpus with
  | zero => rfl
  | succ cpus ih =>
      rw [assignCpus, assignTasks_notMem hm]
      split
      · rfl
      · exact ih

/-- The first CPU takes all the tasks that the node has room for. -/
theorem assignCpus_fills (hid : iNode ≠ -1) (hroom : tasksInNode < nTasksPerNode) :
    (assignCpus nTasksPerNode iNode (cpus + 1) (m, tasksInNode)).1 =
      fillHoles (-1) m (List.replicate (nTasksPerNode - tasksInNode).toNat iNode) := by
  have hvs : -1 ∉ List.replicate (nTasksPerNode - tasksInNode).toNat iNode := fun h =>
    hid (List.eq_of_mem_replicate h).symm
  rw [assignCpus, assignTasks_fills hroom]
  split
  · rfl
  · rename_i hfull
    apply assignCpus_notMem
    rw [← List.count_eq_zero, count_hole_fillHoles hvs, List.length_replicate]
    have hne : tasksInNode + ((min (m.count (-1)) (nTasksPerNode - tasksInNode).toNat : Nat) : Int) ≠
      nTasksPerNode := hfull
    omega

theorem assignNodes_fills {nodes : List (Node × Int)} {iNode : Nat}
    (hroom : ∀ p ∈ nodes, p.2 ≤ nTasksPerNode) :
    assignNodes nTasksPerNode iNode nodes m =
      fillHoles (-1) m (slotsBelow nTasksPerNode iNode nodes) := by
  induction nodes generalizing iNode m with
  | nil =>
      rw [slotsBelow, fillHoles_nil]
      rfl
  | cons p nodes ih =>
      obtain ⟨node, tasksInNode⟩ := p
      have hle : tasksInNode ≤ nTasksPerNode := hroom _ List.mem_cons_self
      have hnode : (if tasksInNode = nTasksPerNode then m
            else (assignCpus nTasksPerNode iNode node.cpus (m, tasksInNode)).1) =
          fillHoles (-1) m (if 0 < node.cpus then
            List.replicate (nTasksPerNode - tasksInNode).toNat (iNode : Int) else []) := by
        by_cases hfull : tasksInNode = nTasksPerNode
        · have hzero : (nTasksPerNode - tasksInNode).toNat = 0 := by omega
          rw [if_pos hfull, hzero, List.replicate_zero, ite_self, fillHoles_nil]
        · rw [if_neg hfull]
          cases node.cpus with
          | zero =>
              rw [if_neg (Nat.lt_irrefl 0), fillHoles_nil]
              rfl
          | succ cpus =>
              rw [if_pos (Nat.succ_pos cpus)]
              exact assignCpus_fills (ne_neg_one iNode) (by omega)
      have hvs : (-1 : Int) ∉ if 0 < node.cpus then
          List.replicate (nTasksPerNode - tasksInNode).toNat (iNode : Int) else [] := by
        split
        · exact notMem_replicate
        · exact List.not_mem_nil
      rw [assignNodes, hnode, ih fun p hp => hroom p (List.mem_cons_of_mem _ hp),
        fillHoles_fillHoles hvs]
      rfl

end

end Dimemas.Model.TaskMapping
