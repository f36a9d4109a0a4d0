import Dimemas.Model.TaskMapping
/-!
# What the predefined mappings give

The nodes of the tasks under the three predefined mappings, for one application.
-/

namespace Dimemas.Model.PredefinedMappings

open Dimemas.Library.Holes
open Dimemas.Model.MessageSizes
open Dimemas.Model.TaskMapping

/-- The accelerated tasks that get a node while accelerator nodes remain. -/
def servedTasks (nodes : List Node) (tasks : List Bool) : List Nat :=
  (acceleratedTasks tasks).take (freeNodes nodes).length

def usedNodes (nodes : List Node) (tasks : List Bool) : List Nat :=
  (freeNodes nodes).take (acceleratedTasks tasks).length

def plainTasks (nodes : List Node) (tasks : List Bool) : Nat :=
  tasks.length - (servedTasks nodes tasks).length

/-- Every task has a node, and the accelerated tasks that are served have different ones that are
free. -/
structure WellMapped (nodes : List Node) (tasks : List Bool) (mapping : List Int) : Prop where
  length : mapping.length = tasks.length
  inRange : ∀ nodeid ∈ mapping, 0 ≤ nodeid ∧ nodeid < nodes.length
  accelerated : ∀ task ∈ servedTasks nodes tasks, ∃ iNode ∈ freeNodes nodes,
    mapping[task]? = some (iNode : Int)
  distinct : ∀ task ∈ servedTasks nodes tasks, ∀ task' ∈ servedTasks nodes tasks,
    mapping[task]? = mapping[task']? → task = task'

def Node.processors (node : Node) : Nat := node.cpus - if node.accelerator then 1 else 0

structure Mapped (cpu : Bool) (nodes : List Node) (tasks : List Bool) (nTasksPerNode : Int) :
    Prop where
  filling : ∃ mapping, taskMapFillingNodes cpu nodes [tasks] tasks.length = some mapping ∧
    WellMapped nodes tasks mapping ∧
    ∀ iNode node, nodes[iNode]? = some node → iNode + 1 < nodes.length →
      mapping.count (iNode : Int) ≤ Node.processors node
  perNode : ∃ result, taskMapNTasksPerNode cpu nodes [tasks] nTasksPerNode = some result ∧
    ∀ mapping, result = some mapping → WellMapped nodes tasks mapping ∧
      ∀ iNode < nodes.length, (mapping.count (iNode : Int) : Int) ≤ nTasksPerNode
  interleaved : ∃ mapping, taskMapInterleaved cpu nodes [tasks] tasks.length = some mapping ∧
    WellMapped nodes tasks mapping

/-- The tasks use all CPUs, or the last one takes the last CPU of a node. -/
def TasksEnd (nodes : List Node) (tasks : List Bool) : Prop :=
  cpusBefore nodes nodes.length ≤ plainTasks nodes tasks ∨
    tasks.length - 1 ∉ servedTasks nodes tasks ∧
      ∃ k ≤ nodes.length, plainTasks nodes tasks = cpusBefore nodes k

/-- The tasks that come to an accelerator node leave one of its CPUs for the GPU. -/
def GpusLeft (nodes : List Node) (tasks : List Bool) : Prop :=
  ∀ iNode node, nodes[iNode]? = some node → iNode + 1 < nodes.length → node.accelerator = true →
    plainTasks nodes tasks - cpusBefore nodes iNode + (usedNodes nodes tasks).count iNode <
      node.cpus

/-- The inputs for which the mappings are as expected. -/
structure Fits (cpu : Bool) (nodes : List Node) (tasks : List Bool) (nTasksPerNode : Int) :
    Prop where
  hosted : tasks = [] ∨ nodes ≠ []
  /-- The pointer that is not set does no harm. The interleaved mapping uses it for every task. -/
  pointer : tasks = [] ∨ cpu = true
  ends : TasksEnd nodes tasks
  gpus : GpusLeft nodes tasks
  room : toInt (nTasksPerNode * nodes.length) < tasks.length ∨ nodes = [] ∨
    0 ≤ nTasksPerNode ∧ (tasks.length : Int) ≤
      nTasksPerNode * (nodes.countP fun node => 0 < node.cpus)
  /-- The accelerated tasks that get a node are the first ones of the application. -/
  first : ∀ task < (servedTasks nodes tasks).length, task ∈ servedTasks nodes tasks

/-! ## The first pass -/

def firstMapping (nodes : List Node) (tasks : List Bool) : List Int :=
  place (List.replicate tasks.length (-1)) (acceleratedTasks tasks)
    ((freeNodes nodes).map Nat.cast)

section

variable {cpu : Bool} {suits : Nat → FirstPass → Nat → Bool} {nodes : List Node}
variable {tasks : List Bool} {k t i : Nat} {nodeid : Int}

theorem length_servedTasks (nodes : List Node) (tasks : List Bool) :
    (servedTasks nodes tasks).length =
      min (acceleratedTasks tasks).length (freeNodes nodes).length := by
  rw [servedTasks, List.length_take, Nat.min_comm]

theorem nodup_servedTasks (nodes : List Node) (tasks : List Bool) :
    (servedTasks nodes tasks).Nodup :=
  (List.take_sublist _ _).nodup (nodup_acceleratedTasks tasks)

theorem lt_of_mem_acceleratedTasks (h : t ∈ acceleratedTasks tasks) : t < tasks.length :=
  (List.getElem?_eq_some_iff.mp (mem_acceleratedTasks.mp h)).1

theorem lt_of_mem_servedTasks (h : t ∈ servedTasks nodes tasks) : t < tasks.length :=
  lt_of_mem_acceleratedTasks (List.mem_of_mem_take h)

theorem length_servedTasks_le (nodes : List Node) (tasks : List Bool) :
    (servedTasks nodes tasks).length ≤ tasks.length := by
  have hsub : servedTasks nodes tasks ⊆ List.range tasks.length := fun t ht =>
    List.mem_range.mpr (lt_of_mem_servedTasks ht)
  have hle := ((nodup_servedTasks nodes tasks).subperm hsub).length_le
  rwa [List.length_range] at hle

theorem count_usedNodes_le_one : (usedNodes nodes tasks).count i ≤ 1 :=
  List.nodup_iff_count_le_one.mp ((List.take_sublist _ _).nodup (nodup_freeNodes nodes)) i

theorem count_usedNodes_eq_zero {node : Node} (hnode : nodes[i]? = some node)
    (haccelerator : node.accelerator = false) : (usedNodes nodes tasks).count i = 0 := by
  rw [List.count_eq_zero]
  intro hmem
  obtain ⟨node', hnode', hfree⟩ := mem_freeNodes.mp (List.mem_of_mem_take hmem)
  obtain rfl : node = node' := Option.some_injective _ (hnode.symm.trans hnode')
  rw [Node.free, haccelerator, Bool.false_and] at hfree
  exact Bool.false_ne_true hfree

theorem firstMapping_eq : firstMapping nodes tasks =
    place (List.replicate tasks.length (-1)) (servedTasks nodes tasks)
      ((freeNodes nodes).map Nat.cast) := by
  rw [firstMapping, ← place_take, List.length_map]
  rfl

@[simp] theorem length_firstMapping : (firstMapping nodes tasks).length = tasks.length := by
  rw [firstMapping, length_place, List.length_replicate]

theorem firstMapping_notMem (ht : t ∉ servedTasks nodes tasks) (hlt : t < tasks.length) :
    (firstMapping nodes tasks)[t]? = some (-1) := by
  rw [firstMapping_eq, getElem?_place_of_notMem ht, List.getElem?_replicate, if_pos hlt]

theorem firstMapping_served (hk : (servedTasks nodes tasks)[k]? = some t) :
    ∃ iNode, (freeNodes nodes)[k]? = some iNode ∧
      (firstMapping nodes tasks)[t]? = some (iNode : Int) := by
  have hlt : k < (servedTasks nodes tasks).length := (List.getElem?_eq_some_iff.mp hk).1
  have hfree : k < (freeNodes nodes).length := by
    rw [length_servedTasks] at hlt
    omega
  have ht : t < (List.replicate tasks.length (-1 : Int)).length := by
    rw [List.length_replicate]
    exact lt_of_mem_servedTasks (List.mem_of_getElem? hk)
  refine ⟨(freeNodes nodes)[k], List.getElem?_eq_getElem hfree, ?_⟩
  rw [firstMapping_eq, getElem?_place (nodup_servedTasks nodes tasks)
    (by rwa [List.length_map]) hk ht, List.getElem?_map, List.getElem?_eq_getElem hfree]
  rfl

theorem firstMapping_eq_neg_one_iff (hlt : t < tasks.length) :
    (firstMapping nodes tasks)[t]? = some (-1) ↔ t ∉ servedTasks nodes tasks := by
  constructor
  · intro h hmem
    obtain ⟨k, hk⟩ := List.mem_iff_getElem?.mp hmem
    obtain ⟨iNode, -, hnode⟩ := firstMapping_served hk
    exact ne_neg_one iNode (Option.some_injective _ (hnode.symm.trans h))
  · exact fun h => firstMapping_notMem h hlt

theorem mem_firstMapping (h : nodeid ∈ firstMapping nodes tasks) :
    nodeid = -1 ∨ 0 ≤ nodeid ∧ nodeid < nodes.length := by
  rcases mem_place h with h | h
  · exact .inl (List.eq_of_mem_replicate h)
  · obtain ⟨iNode, hmem, rfl⟩ := List.mem_map.mp h
    have hlt := lt_of_mem_freeNodes hmem
    exact .inr ⟨by omega, by omega⟩

theorem served_unmapped : ∀ t ∈ servedTasks nodes tasks,
    (List.replicate tasks.length (-1 : Int))[t]? = some (-1) := fun t ht => by
  rw [List.getElem?_replicate, if_pos (lt_of_mem_servedTasks ht)]

theorem count_firstMapping (i : Nat) :
    (firstMapping nodes tasks).count (i : Int) = (usedNodes nodes tasks).count i := by
  have hused : ((freeNodes nodes).map (Nat.cast : Nat → Int)).take
      (servedTasks nodes tasks).length = (usedNodes nodes tasks).map Nat.cast := by
    rw [length_servedTasks, ← List.map_take, usedNodes, Nat.min_def]
    split
    · rfl
    · rw [List.take_of_length_le (Nat.le_refl _), List.take_of_length_le (by omega)]
  have hzero : (List.replicate tasks.length (-1 : Int)).count (i : Int) = 0 :=
    List.count_eq_zero.mpr fun h => ne_neg_one i (List.eq_of_mem_replicate h)
  rw [firstMapping_eq, count_place (ne_neg_one i) (nodup_servedTasks nodes tasks) served_unmapped,
    hused, hzero, Nat.zero_add, List.count_map_of_injective _ _ Nat.cast_injective]

theorem count_neg_one_firstMapping :
    (firstMapping nodes tasks).count (-1) = plainTasks nodes tasks := by
  have hplace := count_hole_place (notMem_cast (freeNodes nodes)) (nodup_servedTasks nodes tasks)
    (@served_unmapped nodes tasks)
  have hle := length_servedTasks nodes tasks
  rw [← firstMapping_eq, List.length_take, List.length_map, List.count_replicate_self] at hplace
  rw [plainTasks]
  omega

theorem suitable_freeNode : Suitable (freeNode tasks.length) (acceleratedTasks tasks) := by
  intro s _ t ht i _
  rw [freeNode, decide_eq_true (lt_of_mem_acceleratedTasks ht), Bool.true_and]

theorem suitable_freeNodeBelow {n : Int} (hn : 0 < n ∨ tasks = []) :
    Suitable (freeNodeBelow n) (acceleratedTasks tasks) := by
  intro s hfresh t ht i hi
  rcases hn with hn | rfl
  · rw [freeNodeBelow]
    cases hfree : s.nodes[i]?.any Node.free with
    | false => rw [Bool.and_false]
    | true =>
        have hmem : i ∈ freeNodes s.nodes :=
          List.mem_filter.mpr ⟨List.mem_range.mpr hi, hfree⟩
        rw [hfresh i hmem]
        simpa using hn
  · exact nomatch ht

theorem fresh_unmapped : Fresh (unmapped tasks.length nodes) := by
  intro i hi
  have hlt : i < nodes.length := lt_of_mem_freeNodes hi
  exact (List.getElem?_replicate ..).trans (if_pos hlt)

theorem firstPass_eq : firstPass cpu suits [tasks] (unmapped tasks.length nodes) =
    (acceleratedTasks tasks).foldlM (mapAccelerated cpu suits) (unmapped tasks.length nodes) := by
  rw [firstPass, List.foldlM_cons, mapAcceleratedTasks_eq]
  exact Option.bind_fun_some _

theorem servedTasks_eq_nil :
    servedTasks nodes tasks = [] ↔ acceleratedTasks tasks = [] ∨ freeNodes nodes = [] := by
  rw [← List.length_eq_zero_iff, ← List.length_eq_zero_iff, ← List.length_eq_zero_iff,
    length_servedTasks]
  omega

theorem firstPass_none (hsuits : Suitable suits (acceleratedTasks tasks))
    (h : ¬ (servedTasks nodes tasks = [] ∨ cpu = true)) :
    firstPass cpu suits [tasks] (unmapped tasks.length nodes) = none := by
  rw [not_or, servedTasks_eq_nil, not_or, Bool.not_eq_true] at h
  rw [firstPass_eq, h.2]
  exact firstPass_stops hsuits fresh_unmapped h.1.1 h.1.2

theorem firstPass_some (hsuits : Suitable suits (acceleratedTasks tasks))
    (h : servedTasks nodes tasks = [] ∨ cpu = true) :
    ∃ s, firstPass cpu suits [tasks] (unmapped tasks.length nodes) = some s ∧
      s.taskMapping = firstMapping nodes tasks ∧
      s.lastTaskAssigned = (servedTasks nodes tasks).length ∧
      s.tasksInNode.sum = (servedTasks nodes tasks).length ∧
      ∀ i, s.tasksInNode[i]? = if i < nodes.length then
        some ((usedNodes nodes tasks).count i : Int) else none := by
  have hlengths : ∀ t ∈ acceleratedTasks tasks,
      t < (unmapped tasks.length nodes).taskMapping.length := fun t ht => by
    show t < (List.replicate tasks.length (-1 : Int)).length
    rw [List.length_replicate]
    exact lt_of_mem_acceleratedTasks ht
  obtain ⟨s, hrun, hmapping, hlast, hsum, hcounts⟩ :=
    firstPass_maps hsuits fresh_unmapped hlengths
  refine ⟨s, ?_, hmapping, ?_, ?_, fun i => ?_⟩
  · rw [firstPass_eq]
    cases cpu with
    | true => exact hrun
    | false =>
        rcases servedTasks_eq_nil.mp (h.resolve_right Bool.false_ne_true) with hnil | hnil
        · rw [hnil] at hrun ⊢
          exact hrun
        · rw [firstPass_noFree hsuits fresh_unmapped hnil] at hrun ⊢
          exact hrun
  · rw [hlast, length_servedTasks]
    exact Nat.zero_add _
  · have hzero : (unmapped tasks.length nodes).tasksInNode.sum = 0 := by
      show (List.replicate nodes.length (0 : Int)).sum = 0
      simp
    rw [hsum, hzero, length_servedTasks, Int.zero_add]
    rfl
  · rw [hcounts i]
    show ((List.replicate nodes.length (0 : Int))[i]?).map _ = _
    rw [List.getElem?_replicate]
    split
    · exact congrArg some (Int.zero_add _)
    · rfl

end

/-! ## The three mappings -/

section

variable {cpu : Bool} {nodes : List Node} {tasks : List Bool} {vs mapping : List Int}
variable {i iNode u : Nat} {node : Node} {n : Int}

/-- A mapping is complete when the second pass has a node for each of its tasks. -/
theorem wellMapped_iff (hvs : ∀ v ∈ vs, 0 ≤ v ∧ v < nodes.length) :
    WellMapped nodes tasks (fillHoles (-1) (firstMapping nodes tasks) vs) ↔
      plainTasks nodes tasks ≤ vs.length := by
  have hnotMem : -1 ∉ vs := fun h => absurd (hvs (-1) h).1 (by decide)
  have hcount : (fillHoles (-1) (firstMapping nodes tasks) vs).count (-1) =
      plainTasks nodes tasks - vs.length := by
    rw [count_hole_fillHoles hnotMem, count_neg_one_firstMapping]
  have hserved : ∀ {k t : Nat}, (servedTasks nodes tasks)[k]? = some t →
      ∃ iNode, (freeNodes nodes)[k]? = some iNode ∧
        (fillHoles (-1) (firstMapping nodes tasks) vs)[t]? = some (iNode : Int) := fun hk => by
    obtain ⟨iNode, hfree, hnode⟩ := firstMapping_served hk
    exact ⟨iNode, hfree, getElem?_fillHoles_of_ne hnode (ne_neg_one iNode)⟩
  constructor
  · intro h
    have hzero : (fillHoles (-1) (firstMapping nodes tasks) vs).count (-1) = 0 :=
      List.count_eq_zero.mpr fun hmem => absurd (h.inRange (-1) hmem).1 (by decide)
    omega
  · intro hle
    have hmapped : -1 ∉ fillHoles (-1) (firstMapping nodes tasks) vs := by
      rw [← List.count_eq_zero]
      omega
    refine ⟨by rw [length_fillHoles, length_firstMapping], fun nodeid hid => ?_,
      fun task htask => ?_, fun task htask task' htask' heq => ?_⟩
    · rcases mem_fillHoles hid with h | h
      · exact (mem_firstMapping h).resolve_left fun hneg => hmapped (hneg ▸ hid)
      · exact hvs nodeid h
    · obtain ⟨k, hk⟩ := List.mem_iff_getElem?.mp htask
      obtain ⟨iNode, hfree, hnode⟩ := hserved hk
      exact ⟨iNode, List.mem_of_getElem? hfree, hnode⟩
    · obtain ⟨k, hk⟩ := List.mem_iff_getElem?.mp htask
      obtain ⟨k', hk'⟩ := List.mem_iff_getElem?.mp htask'
      obtain ⟨iNode, hfree, hnode⟩ := hserved hk
      obtain ⟨iNode', hfree', hnode'⟩ := hserved hk'
      have hsame : iNode = iNode' := by
        have hcast := Option.some_injective _ (hnode.symm.trans (heq.trans hnode'))
        omega
      have hindex : k = k' := by
        have hlt : k < (freeNodes nodes).length := (List.getElem?_eq_some_iff.mp hfree).1
        exact (List.getElem?_inj hlt (nodup_freeNodes nodes)).mp
          (hfree.trans (hsame ▸ hfree'.symm))
      exact Option.some_injective _ (hk.symm.trans (hindex ▸ hk'))

/-- The nodes that the fill mapping gives in its second pass and to the tasks that are left. -/
def fillOrder (nodes : List Node) (tasks : List Bool) : List Int :=
  slots 0 nodes ++ List.replicate tasks.length ((nodes.length : Int) - 1)

theorem mem_fillOrder (hhosted : tasks = [] ∨ nodes ≠ []) :
    ∀ v ∈ fillOrder nodes tasks, 0 ≤ v ∧ v < nodes.length := by
  intro v h
  rcases List.mem_append.mp h with h | h
  · have hle := le_of_mem_slots h
    omega
  · have htasks : tasks ≠ [] := by
      rintro rfl
      exact nomatch h
    have hpos : 0 < nodes.length := List.length_pos_iff.mpr (hhosted.resolve_left htasks)
    rw [List.eq_of_mem_replicate h]
    omega

theorem notMem_fillOrder (hhosted : tasks = [] ∨ nodes ≠ []) : -1 ∉ fillOrder nodes tasks :=
  fun h => absurd (mem_fillOrder hhosted (-1) h).1 (by decide)

theorem count_take_slots (hnode : nodes[i]? = some node) :
    ((slots iNode nodes).take u).count ((iNode + i : Nat) : Int) =
      min node.cpus (u - cpusBefore nodes i) := by
  induction nodes generalizing iNode i u with
  | nil => exact nomatch hnode
  | cons first nodes ih =>
      rw [slots, List.take_append, List.count_append, List.take_replicate, List.length_replicate]
      cases i with
      | zero =>
          obtain rfl : first = node := Option.some_injective _ hnode
          have hrest : ((slots (iNode + 1) nodes).take (u - first.cpus)).count
              ((iNode + 0 : Nat) : Int) = 0 := by
            rw [List.count_eq_zero]
            intro hmem
            have hle := (le_of_mem_slots (List.mem_of_mem_take hmem)).1
            omega
          rw [hrest, Nat.add_zero, Nat.add_zero, List.count_replicate_self, Nat.min_comm]
          rfl
      | succ i =>
          have hfirst : (List.replicate (min u first.cpus) (iNode : Int)).count
              ((iNode + (i + 1) : Nat) : Int) = 0 := by
            rw [List.count_eq_zero]
            intro hmem
            have heq := List.eq_of_mem_replicate hmem
            omega
          have hrest := @ih i (iNode + 1) (u - first.cpus) hnode
          rw [hfirst, Nat.zero_add, cpusBefore_cons, ← Nat.sub_sub, ← hrest,
            Nat.add_right_comm iNode 1 i]
          rfl

/-- The last node alone gets the tasks that are left. -/
theorem count_take_fillOrder (hnode : nodes[i]? = some node) (hi : i + 1 < nodes.length) :
    ((fillOrder nodes tasks).take u).count (i : Int) =
      min node.cpus (u - cpusBefore nodes i) := by
  have hslots := @count_take_slots nodes i 0 u node hnode
  have hrest : ((List.replicate tasks.length ((nodes.length : Int) - 1)).take
      (u - (slots 0 nodes).length)).count (i : Int) = 0 := by
    rw [List.count_eq_zero]
    intro hmem
    have heq := List.eq_of_mem_replicate (List.mem_of_mem_take hmem)
    omega
  rw [Nat.zero_add] at hslots
  rw [fillOrder, List.take_append, List.count_append, hslots, hrest, Nat.add_zero]

theorem getLast_firstMapping :
    (firstMapping nodes tasks).getLast? = (firstMapping nodes tasks)[tasks.length - 1]? := by
  rw [List.getLast?_eq_getElem?, length_firstMapping]

/-- The second pass of the fill mapping ends without reading behind the last task exactly when the
tasks end at a node. -/
theorem fillNodes_firstMapping :
    (TasksEnd nodes tasks → ∃ last, fillNodes 0 nodes (firstMapping nodes tasks, 0) =
      some (fillHoles (-1) (firstMapping nodes tasks) (slots 0 nodes), last)) ∧
    (¬ TasksEnd nodes tasks → fillNodes 0 nodes (firstMapping nodes tasks, 0) = none) := by
  have hfront : Front (firstMapping nodes tasks, 0) := ⟨Nat.zero_le _, List.not_mem_nil⟩
  by_cases hlast : tasks.length - 1 ∈ servedTasks nodes tasks
  · have hlt := lt_of_mem_servedTasks hlast
    have hends : EndsMapped (firstMapping nodes tasks, 0) := by
      refine ⟨hfront, ?_, ?_⟩
      · show (firstMapping nodes tasks).getLast? ≠ some (-1)
        rw [getLast_firstMapping]
        exact fun h => (firstMapping_eq_neg_one_iff hlt).mp h hlast
      · show 0 < (firstMapping nodes tasks).length
        rw [length_firstMapping]
        omega
    have hspec := @fillNodes_endsMapped nodes (firstMapping nodes tasks, 0) 0 hends
    rw [count_neg_one_firstMapping] at hspec
    refine ⟨fun h => hspec.1 (h.resolve_right fun h => h.1 hlast), fun h => hspec.2 ?_⟩
    exact Nat.lt_of_not_le fun hle => h (.inl hle)
  · have hends : EndsOpen (firstMapping nodes tasks, 0) := by
      refine ⟨hfront, fun hmem => ?_, ?_⟩
      · have hpos : 0 < tasks.length :=
          @length_firstMapping nodes tasks ▸ List.length_pos_of_mem hmem
        show (firstMapping nodes tasks).getLast? = some (-1)
        rw [getLast_firstMapping]
        exact firstMapping_notMem hlast (by omega)
      · show 0 < (firstMapping nodes tasks).length ↔ -1 ∈ firstMapping nodes tasks
        rw [length_firstMapping]
        constructor
        · intro hpos
          exact List.mem_of_getElem? (firstMapping_notMem hlast (by omega))
        · intro hmem
          exact @length_firstMapping nodes tasks ▸ List.length_pos_of_mem hmem
    have hspec := @fillNodes_endsOpen nodes (firstMapping nodes tasks, 0) 0 hends
    rw [count_neg_one_firstMapping] at hspec
    refine ⟨fun h => hspec.1 (h.imp_right And.right), fun h => hspec.2 fun hat => h ?_⟩
    exact hat.imp_right fun hk => ⟨hlast, hk⟩

theorem taskMapFillingNodes_eq (hpointer : servedTasks nodes tasks = [] ∨ cpu = true)
    (hends : TasksEnd nodes tasks) :
    taskMapFillingNodes cpu nodes [tasks] tasks.length =
      some (fillHoles (-1) (firstMapping nodes tasks) (fillOrder nodes tasks)) := by
  obtain ⟨s, hrun, hmapping, -⟩ := firstPass_some suitable_freeNode hpointer
  obtain ⟨last, hfill⟩ := fillNodes_firstMapping.1 hends
  have hle : (fillHoles (-1) (firstMapping nodes tasks) (slots 0 nodes)).count (-1) ≤
      tasks.length := by
    calc (fillHoles (-1) (firstMapping nodes tasks) (slots 0 nodes)).count (-1)
      _ ≤ (fillHoles (-1) (firstMapping nodes tasks) (slots 0 nodes)).length := List.count_le_length
      _ = tasks.length := by rw [length_fillHoles, length_firstMapping]
  rw [taskMapFillingNodes, hrun, Option.bind_some, hmapping, hfill, Option.map_some,
    map_eq_fillHoles hle, fillHoles_fillHoles notMem_slots]
  rfl

theorem taskMapFillingNodes_none
    (h : ¬ ((servedTasks nodes tasks = [] ∨ cpu = true) ∧ TasksEnd nodes tasks)) :
    taskMapFillingNodes cpu nodes [tasks] tasks.length = none := by
  by_cases hpointer : servedTasks nodes tasks = [] ∨ cpu = true
  · obtain ⟨s, hrun, hmapping, -⟩ := firstPass_some suitable_freeNode hpointer
    have hstops := fillNodes_firstMapping.2 fun hends => h ⟨hpointer, hends⟩
    rw [taskMapFillingNodes, hrun, Option.bind_some, hmapping, hstops]
    rfl
  · rw [taskMapFillingNodes, firstPass_none suitable_freeNode hpointer]
    rfl

theorem hosted_of_wellMapped (h : WellMapped nodes tasks mapping) : tasks = [] ∨ nodes ≠ [] := by
  by_contra hnot
  rw [not_or, not_not] at hnot
  obtain ⟨nodeid, mapping', hmapping⟩ := @List.exists_cons_of_ne_nil _ mapping (by
    rintro rfl
    exact hnot.1 (List.length_eq_zero_iff.mp h.length.symm))
  have hrange := h.inRange nodeid (hmapping ▸ List.mem_cons_self)
  rw [hnot.2] at hrange
  exact absurd hrange.1 (Int.not_le.mpr hrange.2)

theorem filling_iff :
    (∃ mapping, taskMapFillingNodes cpu nodes [tasks] tasks.length = some mapping ∧
      WellMapped nodes tasks mapping ∧
      ∀ iNode node, nodes[iNode]? = some node → iNode + 1 < nodes.length →
        mapping.count (iNode : Int) ≤ Node.processors node) ↔
    (tasks = [] ∨ nodes ≠ []) ∧ (servedTasks nodes tasks = [] ∨ cpu = true) ∧
      TasksEnd nodes tasks ∧ GpusLeft nodes tasks := by
  -- The tasks on a node that is not the last one.
  have hcount : (tasks = [] ∨ nodes ≠ []) → ∀ {i node}, nodes[i]? = some node →
      i + 1 < nodes.length →
        (fillHoles (-1) (firstMapping nodes tasks) (fillOrder nodes tasks)).count (i : Int) =
          (usedNodes nodes tasks).count i +
            min node.cpus (plainTasks nodes tasks - cpusBefore nodes i) :=
    fun hhosted i node hnode hi => by
      rw [count_fillHoles (ne_neg_one i) (notMem_fillOrder hhosted), count_neg_one_firstMapping,
        count_firstMapping, count_take_fillOrder hnode hi]
  constructor
  · rintro ⟨mapping, hrun, hmapped, hplaced⟩
    have hhosted := hosted_of_wellMapped hmapped
    have hdefined : (servedTasks nodes tasks = [] ∨ cpu = true) ∧ TasksEnd nodes tasks := by
      by_contra hnot
      rw [taskMapFillingNodes_none hnot] at hrun
      exact nomatch hrun
    rw [taskMapFillingNodes_eq hdefined.1 hdefined.2] at hrun
    obtain rfl := Option.some_injective _ hrun
    refine ⟨hhosted, hdefined.1, hdefined.2, fun i node hnode hi haccelerator => ?_⟩
    have hle := hplaced i node hnode hi
    have hgpu := node.gpu haccelerator
    rw [hcount hhosted hnode hi, Node.processors, haccelerator, if_pos rfl] at hle
    omega
  · rintro ⟨hhosted, hpointer, hends, hgpus⟩
    refine ⟨_, taskMapFillingNodes_eq hpointer hends,
      (wellMapped_iff (mem_fillOrder hhosted)).mpr ?_, fun i node hnode hi => ?_⟩
    · rw [fillOrder, List.length_append, List.length_replicate, plainTasks]
      omega
    · rw [hcount hhosted hnode hi, Node.processors]
      cases haccelerator : node.accelerator with
      | false =>
          rw [count_usedNodes_eq_zero hnode haccelerator, if_neg Bool.false_ne_true]
          omega
      | true =>
          have hleft := hgpus i node hnode hi haccelerator
          rw [if_pos rfl]
          omega

theorem mem_servedTasks_iff
    (hfirst : ∀ task < (servedTasks nodes tasks).length, task ∈ servedTasks nodes tasks) (t : Nat) :
    t ∈ servedTasks nodes tasks ↔ t < (servedTasks nodes tasks).length := by
  have hsub : List.range (servedTasks nodes tasks).length ⊆ servedTasks nodes tasks := fun t ht =>
    hfirst t (List.mem_range.mp ht)
  have hperm := (List.nodup_range.subperm hsub).perm_of_length_le (by rw [List.length_range])
  rw [← hperm.mem_iff, List.mem_range]

theorem endsOpen_served
    (hfirst : ∀ task < (servedTasks nodes tasks).length, task ∈ servedTasks nodes tasks) :
    EndsOpen (firstMapping nodes tasks, (servedTasks nodes tasks).length) := by
  have hle := length_servedTasks_le nodes tasks
  have hmem : ∀ t, (firstMapping nodes tasks)[t]? = some (-1) ↔
      (servedTasks nodes tasks).length ≤ t ∧ t < tasks.length := fun t => by
    by_cases hlt : t < tasks.length
    · rw [firstMapping_eq_neg_one_iff hlt, mem_servedTasks_iff hfirst, Nat.not_lt]
      simp [hlt]
    · rw [List.getElem?_eq_none (by rw [length_firstMapping]; omega)]
      simp [hlt]
  refine ⟨⟨?_, ?_⟩, fun h => ?_, ?_⟩
  · show (servedTasks nodes tasks).length ≤ (firstMapping nodes tasks).length
    rwa [length_firstMapping]
  · show -1 ∉ (firstMapping nodes tasks).take (servedTasks nodes tasks).length
    intro h
    obtain ⟨t, ht⟩ := List.mem_iff_getElem?.mp h
    rw [List.getElem?_take] at ht
    split at ht
    · have hat := ((hmem t).mp ht).1
      omega
    · exact nomatch ht
  · show (firstMapping nodes tasks).getLast? = some (-1)
    obtain ⟨t, ht⟩ := List.mem_iff_getElem?.mp h
    have hat := (hmem t).mp ht
    rw [getLast_firstMapping]
    exact (hmem _).mpr ⟨by omega, by omega⟩
  · show (servedTasks nodes tasks).length < (firstMapping nodes tasks).length ↔
      -1 ∈ firstMapping nodes tasks
    rw [length_firstMapping]
    constructor
    · intro hlt
      exact List.mem_of_getElem? ((hmem _).mpr ⟨Nat.le_refl _, hlt⟩)
    · intro h
      obtain ⟨t, ht⟩ := List.mem_iff_getElem?.mp h
      have hat := (hmem t).mp ht
      omega

theorem servedTasks_of_pointer (h : tasks = [] ∨ cpu = true) :
    servedTasks nodes tasks = [] ∨ cpu = true :=
  h.imp_left fun htasks => by rw [htasks, servedTasks_eq_nil]; exact .inl rfl

/-- When no accelerated task gets a node, the tasks are all open for the second pass. -/
theorem endsOpen_plain (h : servedTasks nodes tasks = []) :
    EndsOpen (firstMapping nodes tasks, (servedTasks nodes tasks).length) := by
  apply endsOpen_served
  rw [h]
  exact fun _ hlt => absurd hlt (Nat.not_lt_zero _)

/-- A task that the interleaved mapping gives a node to is marked through the pointer. -/
theorem pointer_of_interleaved (hhosted : tasks = [] ∨ nodes ≠ [])
    (hserved : servedTasks nodes tasks = [] ∨ cpu = true)
    (h : taskMapInterleaved cpu nodes [tasks] tasks.length = some mapping) :
    tasks = [] ∨ cpu = true := by
  by_contra hnot
  obtain ⟨htasks, hcpu⟩ := not_or.mp hnot
  have hnil : servedTasks nodes tasks = [] := hserved.resolve_right hcpu
  obtain rfl : cpu = false := Bool.eq_false_iff.mpr hcpu
  obtain ⟨s, hrun, hmapping, hlast, -⟩ := firstPass_some suitable_freeNode hserved
  have hpos : 0 < tasks.length := List.length_pos_iff.mpr htasks
  have hmem : -1 ∈ firstMapping nodes tasks :=
    List.mem_of_getElem? (firstMapping_notMem (by rw [hnil]; exact List.not_mem_nil) hpos)
  have hstops := interleave_stops (endsOpen_plain hnil) hmem
    (List.length_pos_iff.mpr (hhosted.resolve_left htasks)) hpos
  rw [taskMapInterleaved, hrun, Option.bind_some, hmapping, hlast, hstops] at h
  exact nomatch h

theorem interleaved_iff (hhosted : tasks = [] ∨ nodes ≠ [])
    (hpointer : tasks = [] ∨ cpu = true) :
    (∃ mapping, taskMapInterleaved cpu nodes [tasks] tasks.length = some mapping ∧
      WellMapped nodes tasks mapping) ↔
    ∀ task < (servedTasks nodes tasks).length, task ∈ servedTasks nodes tasks := by
  obtain ⟨s, hrun, hmapping, hlast, -⟩ :=
    firstPass_some suitable_freeNode (servedTasks_of_pointer hpointer)
  have hpass : taskMapInterleaved cpu nodes [tasks] tasks.length =
      (interleave cpu nodes.length tasks.length
        (firstMapping nodes tasks, (servedTasks nodes tasks).length)).map Prod.fst := by
    rw [taskMapInterleaved, hrun, Option.bind_some, hmapping, hlast]
  constructor
  · rintro ⟨mapping, hresult, hmapped⟩ t ht
    by_contra hnot
    rw [hpass] at hresult
    obtain ⟨s', hs', rfl⟩ := Option.map_eq_some_iff.mp hresult
    have hlt : t < tasks.length := Nat.lt_of_lt_of_le ht (length_servedTasks_le nodes tasks)
    -- The cursor starts behind this task.
    have hkept : s'.1[t]? = some (-1) :=
      (interleave_keeps hs' ht).trans (firstMapping_notMem hnot hlt)
    exact absurd (hmapped.inRange (-1) (List.mem_of_getElem? hkept)).1 (by decide)
  · intro hfirst
    have hfill : ∃ last, interleave cpu nodes.length tasks.length
        (firstMapping nodes tasks, (servedTasks nodes tasks).length) =
          some (fillHoles (-1) (firstMapping nodes tasks) (rounds nodes.length tasks.length),
            last) := by
      rcases hpointer with rfl | rfl
      · rw [List.length_nil, rounds, fillHoles_nil]
        exact ⟨_, rfl⟩
      · exact interleave_fills (endsOpen_served hfirst)
    obtain ⟨last, hfill⟩ := hfill
    rw [hpass, hfill]
    refine ⟨_, rfl, (wellMapped_iff fun v hv => mem_rounds hv).mpr ?_⟩
    rw [length_rounds, plainTasks]
    rcases hhosted with rfl | hnodes
    · exact Nat.le_trans (Nat.sub_le _ _) (Nat.zero_le _)
    · have hpos : 0 < nodes.length := List.length_pos_iff.mpr hnodes
      exact Nat.le_trans (Nat.sub_le _ _) (Nat.le_mul_of_pos_right _ hpos)

/-- The room of the nodes for the tasks of the second pass. -/
theorem length_slotsBelow {pairs : List (Node × Int)}
    (hpairs : ∀ p ∈ pairs, p.2 ≤ n ∧ (p.1.cpus = 0 → p.2 = 0)) :
    ((slotsBelow n iNode pairs).length : Int) + (pairs.map Prod.snd).sum =
      n * (pairs.map Prod.fst).countP fun node => 0 < node.cpus := by
  induction pairs generalizing iNode with
  | nil => simp [slotsBelow]
  | cons p pairs ih =>
      obtain ⟨node, c⟩ := p
      obtain ⟨hroom, hnone⟩ : c ≤ n ∧ (node.cpus = 0 → c = 0) := hpairs _ List.mem_cons_self
      have hrest := @ih (iNode + 1) fun p hp => hpairs p (List.mem_cons_of_mem _ hp)
      rw [slotsBelow, List.length_append, List.map_cons, List.map_cons, List.sum_cons,
        List.countP_cons]
      by_cases hcpus : 0 < node.cpus
      · have hmul : ∀ k : Nat, n * ((k + 1 : Nat) : Int) = n * k + n := fun k => by
          rw [Nat.cast_succ, Int.mul_add, Int.mul_one]
        rw [if_pos hcpus, List.length_replicate, if_pos (decide_eq_true hcpus), hmul, ← hrest]
        show (((n - c).toNat + (slotsBelow n (iNode + 1) pairs).length : Nat) : Int) + (c + _) = _
        omega
      · rw [if_neg hcpus, if_neg (by simpa using hcpus), hnone (by omega)]
        refine Eq.trans ?_ hrest
        show ((0 + (slotsBelow n (iNode + 1) pairs).length : Nat) : Int) + (0 + _) = _
        omega

theorem mem_slotsBelow {pairs : List (Node × Int)} {v : Int} (hv : v ∈ slotsBelow n iNode pairs) :
    (iNode : Int) ≤ v ∧ v < iNode + pairs.length := by
  induction pairs generalizing iNode with
  | nil => exact nomatch hv
  | cons p pairs ih =>
      rw [List.length_cons]
      rcases List.mem_append.mp hv with hv | hv
      · split at hv
        · rw [List.eq_of_mem_replicate hv]
          omega
        · exact nomatch hv
      · have hrest := ih hv
        omega

theorem count_slotsBelow {pairs : List (Node × Int)} {c : Int}
    (hpair : pairs[i]? = some (node, c)) :
    (slotsBelow n iNode pairs).count ((iNode + i : Nat) : Int) ≤ (n - c).toNat := by
  induction pairs generalizing iNode i with
  | nil => exact absurd hpair (by simp)
  | cons p pairs ih =>
      obtain ⟨first, d⟩ := p
      rw [slotsBelow, List.count_append]
      cases i with
      | zero =>
          have heq : (first, d) = (node, c) := Option.some_injective _ hpair
          have hc : d = c := congrArg Prod.snd heq
          have hrest : (slotsBelow n (iNode + 1) pairs).count ((iNode + 0 : Nat) : Int) = 0 := by
            rw [List.count_eq_zero]
            intro hmem
            have hle := (mem_slotsBelow hmem).1
            omega
          rw [hrest, Nat.add_zero, hc]
          split
          · exact Nat.le_trans List.count_le_length (by rw [List.length_replicate])
          · exact Nat.zero_le _
      | succ i =>
          have hfirst : (if 0 < first.cpus then List.replicate (n - d).toNat (iNode : Int)
              else []).count ((iNode + (i + 1) : Nat) : Int) = 0 := by
            rw [List.count_eq_zero]
            intro hmem
            split at hmem
            · have heq := List.eq_of_mem_replicate hmem
              omega
            · exact List.not_mem_nil hmem
          have hrest := @ih i (iNode + 1) hpair
          rw [hfirst, Nat.zero_add]
          rwa [Nat.add_right_comm, Nat.add_assoc] at hrest

theorem taskMapNTasksPerNode_eq (hpointer : servedTasks nodes tasks = [] ∨ cpu = true)
    (hnull : ¬ toInt (n * nodes.length) < tasks.length) (hsuits : 0 < n ∨ tasks = [])
    (hn : nodes = [] ∨ 0 ≤ n) :
    ∃ pairs : List (Node × Int),
      taskMapNTasksPerNode cpu nodes [tasks] n =
        some (some (fillHoles (-1) (firstMapping nodes tasks) (slotsBelow n 0 pairs))) ∧
      pairs.map Prod.fst = nodes ∧
      (pairs.map Prod.snd).sum = (servedTasks nodes tasks).length ∧
      (∀ p ∈ pairs, p.2 ≤ n ∧ (p.1.cpus = 0 → p.2 = 0)) ∧
      ∀ {i node}, nodes[i]? = some node →
        pairs[i]? = some (node, ((usedNodes nodes tasks).count i : Int)) := by
  obtain ⟨s, hrun, hmapping, -, hsum, hcounts⟩ :=
    firstPass_some (suitable_freeNodeBelow hsuits) hpointer
  have hlength : s.tasksInNode.length = nodes.length := by
    apply Nat.le_antisymm
    · apply Nat.le_of_not_lt
      intro hlt
      have hsome := hcounts nodes.length
      rw [if_neg (Nat.lt_irrefl _), List.getElem?_eq_getElem hlt] at hsome
      exact nomatch hsome
    · apply Nat.le_of_not_lt
      intro hlt
      have hnone := hcounts s.tasksInNode.length
      rw [if_pos hlt, List.getElem?_eq_none (Nat.le_refl _)] at hnone
      exact nomatch hnone
  have hat : ∀ {i node}, nodes[i]? = some node →
      (nodes.zip s.tasksInNode)[i]? = some (node, ((usedNodes nodes tasks).count i : Int)) :=
    fun {i} node hnode => List.getElem?_zip_eq_some.mpr
      ⟨hnode, (hcounts i).trans (if_pos (List.getElem?_eq_some_iff.mp hnode).1)⟩
  have hpairs : ∀ p ∈ nodes.zip s.tasksInNode, p.2 ≤ n ∧ (p.1.cpus = 0 → p.2 = 0) := by
    intro p hp
    obtain ⟨i, hi⟩ := List.mem_iff_getElem?.mp hp
    have hnode := (List.getElem?_zip_eq_some.mp hi).1
    have hcount : p.2 = ((usedNodes nodes tasks).count i : Int) :=
      congrArg Prod.snd (Option.some_injective _ (hi.symm.trans (hat hnode)))
    have hpos : 0 ≤ n := hn.resolve_left (List.ne_nil_of_mem (List.mem_of_getElem? hnode))
    refine ⟨?_, fun hcpus => ?_⟩
    · rw [hcount]
      rcases hsuits with hlt | rfl
      · have hone := @count_usedNodes_le_one nodes tasks i
        omega
      · exact hpos
    · have haccelerator : p.1.accelerator = false := by
        rw [← Bool.not_eq_true]
        exact fun h => absurd hcpus (Nat.ne_of_gt (p.1.gpu h))
      rw [hcount, count_usedNodes_eq_zero hnode haccelerator]
      rfl
  have htotal : ([tasks].map List.length).sum = tasks.length := Nat.add_zero _
  refine ⟨nodes.zip s.tasksInNode, ?_, List.map_fst_zip hlength.ge, ?_, hpairs, hat⟩
  · rw [taskMapNTasksPerNode, htotal]
    show (if toInt (n * nodes.length) < tasks.length then some none else _) = _
    rw [if_neg hnull, hrun, Option.map_some, hmapping, assignNodes_fills fun p hp => (hpairs p hp).1]
  · rw [List.map_snd_zip hlength.le, hsum]

theorem perNode_iff (hpointer : servedTasks nodes tasks = [] ∨ cpu = true) :
    (∃ result, taskMapNTasksPerNode cpu nodes [tasks] n = some result ∧
      ∀ mapping, result = some mapping → WellMapped nodes tasks mapping ∧
        ∀ iNode < nodes.length, (mapping.count (iNode : Int) : Int) ≤ n) ↔
    toInt (n * nodes.length) < tasks.length ∨ nodes = [] ∨
      0 ≤ n ∧ (tasks.length : Int) ≤ n * (nodes.countP fun node => 0 < node.cpus) := by
  by_cases hnull : toInt (n * nodes.length) < tasks.length
  · have htotal : ([tasks].map List.length).sum = tasks.length := Nat.add_zero _
    have hrun : taskMapNTasksPerNode cpu nodes [tasks] n = some none := by
      rw [taskMapNTasksPerNode, htotal]
      exact if_pos hnull
    exact ⟨fun _ => .inl hnull, fun _ => ⟨none, hrun, fun _ h => nomatch h⟩⟩
  have hzero : ∀ {z : Int}, z = 0 → ¬ toInt z < tasks.length → tasks = [] := by
    rintro z rfl hz
    have htoInt : toInt 0 = 0 := rfl
    rw [htoInt] at hz
    exact List.length_eq_zero_iff.mp (by omega)
  have hsuits : nodes = [] ∨ 0 ≤ n → 0 < n ∨ tasks = [] := by
    rintro (rfl | hle)
    · exact .inr (hzero (Int.mul_zero n) hnull)
    · rcases Int.lt_or_eq_of_le hle with hlt | rfl
      · exact .inl hlt
      · exact .inr (hzero (Int.zero_mul _) hnull)
  -- The mapping that is returned, with the room of its nodes.
  have hmap : nodes = [] ∨ 0 ≤ n → ∃ mapping,
      taskMapNTasksPerNode cpu nodes [tasks] n = some (some mapping) ∧
      (WellMapped nodes tasks mapping ↔
        (tasks.length : Int) ≤ n * (nodes.countP fun node => 0 < node.cpus)) ∧
      ∀ iNode < nodes.length, (mapping.count (iNode : Int) : Int) ≤ n := fun hn => by
    obtain ⟨pairs, hrun, hfst, hsum, hpairs, hat⟩ :=
      taskMapNTasksPerNode_eq hpointer hnull (hsuits hn) hn
    have hlength : pairs.length = nodes.length := by rw [← hfst, List.length_map]
    have hvs : ∀ v ∈ slotsBelow n 0 pairs, 0 ≤ v ∧ v < nodes.length := fun v hv => by
      have hmem := mem_slotsBelow hv
      rw [hlength] at hmem
      omega
    refine ⟨_, hrun, ?_, fun i hi => ?_⟩
    · have hroom := @length_slotsBelow 0 n pairs hpairs
      have hle := length_servedTasks_le nodes tasks
      rw [hfst, hsum] at hroom
      rw [wellMapped_iff hvs, plainTasks, ← hroom]
      omega
    · have hnode := List.getElem?_eq_getElem hi
      have hslots := @count_slotsBelow i 0 _ n pairs _ (hat hnode)
      have htake : ((slotsBelow n 0 pairs).take (plainTasks nodes tasks)).count (i : Int) ≤
          (slotsBelow n 0 pairs).count (i : Int) := (List.take_sublist _ _).count_le _
      have hused := (hpairs _ (List.mem_of_getElem? (hat hnode))).1
      rw [Nat.zero_add] at hslots
      rw [count_fillHoles (ne_neg_one i) fun h => absurd (hvs (-1) h).1 (by decide),
        count_neg_one_firstMapping, count_firstMapping]
      have hcount : ((usedNodes nodes tasks).count i : Int) ≤ n := hused
      omega
  constructor
  · rintro ⟨result, hrun, hresult⟩
    refine .inr ?_
    by_cases hnodes : nodes = []
    · exact .inl hnodes
    have hpos : 0 < nodes.length := List.length_pos_iff.mpr hnodes
    have htotal : ([tasks].map List.length).sum = tasks.length := Nat.add_zero _
    have hsome : ∃ mapping, result = some mapping := by
      rw [taskMapNTasksPerNode, htotal] at hrun
      obtain ⟨s, -, hs⟩ := Option.map_eq_some_iff.mp ((if_neg hnull).symm.trans hrun)
      exact ⟨_, hs.symm⟩
    obtain ⟨mapping, rfl⟩ := hsome
    obtain ⟨hmapped, hcounts⟩ := hresult mapping rfl
    have hn : 0 ≤ n := Int.le_trans (Int.natCast_nonneg _) (hcounts 0 hpos)
    obtain ⟨mapping', hrun', hiff, -⟩ := hmap (.inr hn)
    have hsame : mapping = mapping' :=
      Option.some_injective _ (Option.some_injective _ (hrun.symm.trans hrun'))
    exact .inr ⟨hn, hiff.mp (hsame ▸ hmapped)⟩
  · intro h
    have hroom := h.resolve_left hnull
    obtain ⟨mapping, hrun, hiff, hcounts⟩ := hmap (hroom.imp_right And.left)
    refine ⟨some mapping, hrun, ?_⟩
    rintro _ ⟨⟩
    refine ⟨hiff.mpr ?_, hcounts⟩
    rcases hroom with rfl | hroom
    · rw [hzero (Int.mul_zero n) hnull]
      simp
    · exact hroom.2

/-- The mappings are as expected exactly for the inputs that fit. -/
theorem mapped_iff : Mapped cpu nodes tasks n ↔ Fits cpu nodes tasks n := by
  constructor
  · intro h
    obtain ⟨hhosted, hserved, hends, hgpus⟩ := filling_iff.mp h.filling
    obtain ⟨mapping, hrun, -⟩ := h.interleaved
    have hpointer := pointer_of_interleaved hhosted hserved hrun
    exact ⟨hhosted, hpointer, hends, hgpus, (perNode_iff hserved).mp h.perNode,
      (interleaved_iff hhosted hpointer).mp h.interleaved⟩
  · intro h
    have hserved : servedTasks nodes tasks = [] ∨ cpu = true := servedTasks_of_pointer h.pointer
    exact ⟨filling_iff.mpr ⟨h.hosted, hserved, h.ends, h.gpus⟩,
      (perNode_iff hserved).mpr h.room, (interleaved_iff h.hosted h.pointer).mpr h.first⟩

/-- One task on a node of two CPUs: the entry behind the only one is read. -/
theorem not_mapped : ¬ ∀ (cpu : Bool) (nodes : List Node) (tasks : List Bool) (n : Int),
    Mapped cpu nodes tasks n := by
  intro h
  obtain ⟨mapping, hrun, -⟩ := (h true [⟨2, false, false, nofun⟩] [false] 1).filling
  exact nomatch hrun

end

end Dimemas.Model.PredefinedMappings
