import Dimemas.Model.MessageSizes
import Mathlib.Algebra.Order.Field.Rat
import Mathlib.Data.List.Infix
import Mathlib.Data.List.Nodup
import Mathlib.Data.Rat.Init
/-!
# Definitions of machines and nodes

`SIMULATOR_set_machine_definition`, `SIMULATOR_set_node_definition`,
`SIMULATOR_set_multiple_node_definition` and `SIMULATOR_check_correct_definitions`, and the nodes
that the definitions of a configuration fill.
-/

namespace Dimemas.Model.NodeDefinitions

open Dimemas.Model.MessageSizes

/-- A node of the vector, with the machine it was made for and the machines named by the definitions
that filled it. -/
structure Node where
  machine : Nat
  filledBy : List Nat

structure Machine where
  firstNodeId : Int
  numberOfNodes : Int
  loadedNodes : Int

structure Simulator where
  machines : List Machine
  nodes : List Node
  lastNodeUnid : Nat
  lastNodeId : Nat
  machinesLoaded : Nat
  dedicatedConnectionsCount : Int
  dedicatedConnectionsLoaded : Int
  /-- The ids of the nodes that were filled outside the vector. -/
  outside : List Int

def noNodeId : Int := -1

def maxNodes : Int := 256

def emptyMachine (unset : Int × Int) : Machine := ⟨unset.1, maxNodes, unset.2⟩

def init (unset : List (Int × Int)) (dedicatedConnections : Int × Int) : Simulator where
  machines := unset.map emptyMachine
  nodes := []
  lastNodeUnid := 0
  lastNodeId := 0
  machinesLoaded := 0
  dedicatedConnectionsCount := dedicatedConnections.1
  dedicatedConnectionsLoaded := dedicatedConnections.2
  outside := []

structure MachineFields where
  numberOfNodes : Int
  networkBandwidth : ℚ
  numberOfBuses : Int
  globalOperationModel : Int

def MachineFields.problem (f : MachineFields) : Option String :=
  if f.numberOfNodes ≤ 0 then some "invalid number of nodes"
  else if f.networkBandwidth < 0 then some "invalid network bandwidth"
  else if f.numberOfBuses < 0 then some "invalid number of buses"
  else if f.globalOperationModel < 1 ∨ 3 < f.globalOperationModel then
    some "invalid global operation model"
  else none

structure NodeFields where
  noProcessors : Int
  noMemBuses : Int
  noMemInLinks : Int
  noMemOutLinks : Int
  noInput : Int
  noOutput : Int
  localStartup : ℚ
  remoteStartup : ℚ
  relative : ℚ
  localBandwidth : ℚ
  externalNetStartup : ℚ

def NodeFields.problem (f : NodeFields) : Option String :=
  if f.noProcessors ≤ 0 then some "invalid number of processors"
  else if f.noMemBuses < 0 then some "invalid intra-node buses"
  else if f.noMemInLinks < 0 then some "invalid intra-node input links"
  else if f.noMemOutLinks < 0 then some "invalid intra-node output links"
  else if f.noInput < 0 then some "invalid inter-node input links"
  else if f.noOutput < 0 then some "invalid inter-node output links"
  else if f.localStartup < 0 then some "invalid intra-node startup"
  else if f.remoteStartup < 0 then some "invalid inter-node startup"
  else if f.relative < 0 then some "invalid CPU ratio"
  else if f.localBandwidth < 0 then some "invalid intra-node bandwidth"
  else if f.externalNetStartup < 0 then some "invalid WAN startup"
  else none

def simulatorGetMachine (s : Simulator) (machineId : Int) : Option Machine :=
  if machineId < 0 then none else s.machines[machineId.toNat]?

/-- The vector of nodes is made longer, and the nodes from `first_node_id` on are made empty. -/
def machineFillMachineFields (machine : Nat) (numberOfNodes : Int) (s : Simulator) : Simulator :=
  { s with
    machines := s.machines.set machine ⟨s.lastNodeUnid, numberOfNodes, 0⟩
    nodes := s.nodes.take s.lastNodeUnid ++
      List.replicate (s.nodes.length + numberOfNodes.toNat - s.lastNodeUnid) ⟨machine, []⟩ }

def simulatorSetMachineDefinition (machineId : Int) (f : MachineFields) (s : Simulator) :
    Option String × Simulator :=
  if machineId < 0 then (some "invalid machine id", s)
  else
    match simulatorGetMachine s machineId with
    | none => (some "machine does not exist", s)
    | some _ =>
        match f.problem with
        | some problem => (some problem, s)
        | none =>
            let s := machineFillMachineFields machineId.toNat f.numberOfNodes s
            (none, { s with
              lastNodeUnid := s.lastNodeUnid + f.numberOfNodes.toNat
              machinesLoaded := s.machinesLoaded + 1 })

def nodeFillNodeFields (nodeId : Int) (machine : Nat) (s : Simulator) : Simulator :=
  if 0 ≤ nodeId ∧ nodeId < s.nodes.length then
    { s with nodes := s.nodes.modify nodeId.toNat fun node =>
        { node with filledBy := node.filledBy ++ [machine] } }
  else { s with outside := s.outside ++ [nodeId] }

/-- The sum is one of `int`s. -/
def addLoadedNodes (machine : Nat) (count : Int) (s : Simulator) : Simulator :=
  { s with machines := s.machines.modify machine fun machine =>
      { machine with loadedNodes := toInt (machine.loadedNodes + count) } }

def isNull (s : Simulator) (nodeId : Int) : Bool := s.nodes.isEmpty && nodeId == 0

def setNode (effectiveNodeId machineId : Int) (f : NodeFields) (s : Simulator) :
    Option String × Simulator :=
  match simulatorGetMachine s machineId with
  | none => (some "invalid machine id", s)
  | some machine =>
      if toInt (machine.loadedNodes + 1) > machine.numberOfNodes then
        (some "more nodes defined than total machine nodes", s)
      else if isNull s effectiveNodeId then (some "invalid node id", s)
      else
        match f.problem with
        | some problem => (some problem, s)
        | none =>
            (none, addLoadedNodes machineId.toNat 1
              (nodeFillNodeFields effectiveNodeId machineId.toNat s))

def simulatorSetNodeDefinition (nodeId machineId : Int) (f : NodeFields) (s : Simulator) :
    Option String × Simulator :=
  if nodeId = noNodeId then
    setNode s.lastNodeId machineId f { s with lastNodeId := s.lastNodeId + 1 }
  else setNode nodeId machineId f s

def fillNodes (machine : Nat) : Nat → Simulator → Option String × Simulator
  | 0, s => (none, s)
  | count + 1, s =>
      if isNull s s.lastNodeId then (some "invalid node identifier", s)
      else
        let s := nodeFillNodeFields s.lastNodeId machine s
        fillNodes machine count { s with lastNodeId := s.lastNodeId + 1 }

def simulatorSetMultipleNodeDefinition (machineId nodeCount : Int) (f : NodeFields)
    (s : Simulator) : Option String × Simulator :=
  match simulatorGetMachine s machineId with
  | none => (some "invalid machine id", s)
  | some machine =>
      if toInt (machine.loadedNodes + nodeCount) > machine.numberOfNodes then
        (some "more nodes defined than total machine nodes", s)
      else if nodeCount ≤ 0 then (some "invalid node count", s)
      else
        match f.problem with
        | some problem => (some problem, s)
        | none =>
            match fillNodes machineId.toNat nodeCount.toNat s with
            | (some problem, s) => (some problem, s)
            | (none, s) => (none, addLoadedNodes machineId.toNat nodeCount s)

def simulatorCheckCorrectDefinitions (s : Simulator) : Bool :=
  s.machines.length == s.machinesLoaded &&
    s.machines.all (fun machine => machine.loadedNodes == machine.numberOfNodes) &&
    s.dedicatedConnectionsCount == s.dedicatedConnectionsLoaded

inductive Definition
  | machine (machineId : Int) (fields : MachineFields)
  | node (nodeId machineId : Int) (fields : NodeFields)
  | multiNode (machineId nodeCount : Int) (fields : NodeFields)

def define : Definition → Simulator → Option String × Simulator
  | .machine machineId f => simulatorSetMachineDefinition machineId f
  | .node nodeId machineId f => simulatorSetNodeDefinition nodeId machineId f
  | .multiNode machineId nodeCount f => simulatorSetMultipleNodeDefinition machineId nodeCount f

/-- The state after a definition that returns `TRUE`. -/
def defined (s : Simulator) (d : Definition) : Option Simulator :=
  match define d s with
  | (none, s) => some s
  | (some _, _) => none

def load (ds : List Definition) (s : Simulator) : Option Simulator := ds.foldlM defined s

/-! ## The nodes that are filled -/

/-- Every node is filled once, by a definition that names its machine. -/
structure Placed (s : Simulator) : Prop where
  inside : s.outside = []
  filled : ∀ node ∈ s.nodes, node.filledBy = [node.machine]

/-- The machines of the nodes, in the order of the machine definitions. -/
def owners (ds : List Definition) : List Nat :=
  ds.flatMap fun
    | .machine machineId f => List.replicate f.numberOfNodes.toNat machineId.toNat
    | _ => []

def implicitMachines (ds : List Definition) : List Nat :=
  ds.flatMap fun
    | .node nodeId machineId _ => if nodeId = noNodeId then [machineId.toNat] else []
    | .multiNode machineId nodeCount _ => List.replicate nodeCount.toNat machineId.toNat
    | _ => []

def explicitIds (ds : List Definition) : List Int :=
  ds.flatMap fun
    | .node nodeId _ _ => if nodeId = noNodeId then [] else [nodeId]
    | _ => []

/-- The nodes without an id come in the order of the machine definitions, and the others have
different ids behind them, each one of a node of its machine. -/
structure InOrder (ds : List Definition) : Prop where
  implicit : ∀ pre, pre <+: ds → implicitMachines pre <+: owners pre
  explicit : ∀ pre nodeId machineId f, pre ++ [.node nodeId machineId f] <+: ds →
    nodeId ≠ noNodeId → ∃ id : Nat, nodeId = id ∧ (owners pre)[id]? = some machineId.toNat
  distinct : (explicitIds ds).Nodup
  behind : ∀ nodeId ∈ explicitIds ds, ((implicitMachines ds).length : Int) ≤ nodeId
  total : (implicitMachines ds).length + (explicitIds ds).length = (owners ds).length

/-- No node was filled outside the vector, twice or for another machine. -/
structure Clean (s : Simulator) : Prop where
  inside : s.outside = []
  filled : ∀ node ∈ s.nodes, node.filledBy = [] ∨ node.filledBy = [node.machine]

/-- What the nodes have to do with the definitions read. `past` is what was true of them before. -/
structure Tracks (machines names : List Nat) (ids : List Int) (past : Prop) (s : Simulator) :
    Prop where
  machine : s.nodes.map Node.machine = machines
  unid : s.lastNodeUnid = s.nodes.length
  last : s.lastNodeId = names.length
  clean : Clean s ↔ past ∧ names <+: machines ∧ ids.Nodup ∧
    ∀ id ∈ ids, (names.length : Int) ≤ id ∧ id < machines.length
  filled : Clean s → ∀ k node, s.nodes[k]? = some node →
    (node.filledBy ≠ [] ↔ k < names.length ∨ (k : Int) ∈ ids)

section

variable {s s' : Simulator} {machines names : List Nat} {ids : List Int} {past : Prop}
variable {machine k : Nat} {nodeId : Int} {node : Node}

theorem Tracks.length (h : Tracks machines names ids past s) : s.nodes.length = machines.length := by
  rw [← h.machine, List.length_map]

/-- Only the nodes, the cursors and the stores outside matter. -/
theorem Tracks.congr (h : Tracks machines names ids past s) (hnodes : s'.nodes = s.nodes)
    (hunid : s'.lastNodeUnid = s.lastNodeUnid) (hlast : s'.lastNodeId = s.lastNodeId)
    (houtside : s'.outside = s.outside) : Tracks machines names ids past s' := by
  have hclean : Clean s' ↔ Clean s := by
    constructor
    · exact fun hs => ⟨houtside ▸ hs.inside, hnodes ▸ hs.filled⟩
    · exact fun hs => ⟨houtside.symm ▸ hs.inside, hnodes.symm ▸ hs.filled⟩
  refine ⟨by rw [hnodes, h.machine], by rw [hunid, hnodes, h.unid], by rw [hlast, h.last],
    hclean.trans h.clean, fun hs => ?_⟩
  rw [hnodes]
  exact h.filled (hclean.mp hs)

theorem Tracks.machineDefinition (h : Tracks machines names ids past s) (numberOfNodes : Int) :
    Tracks (machines ++ List.replicate numberOfNodes.toNat machine) names ids
      (past ∧ names <+: machines ∧ ∀ id ∈ ids, id < machines.length)
      { machineFillMachineFields machine numberOfNodes s with
        lastNodeUnid := s.lastNodeUnid + numberOfNodes.toNat
        machinesLoaded := s.machinesLoaded + 1 } := by
  have hnodes : (machineFillMachineFields machine numberOfNodes s).nodes =
      s.nodes ++ List.replicate numberOfNodes.toNat ⟨machine, []⟩ := by
    show s.nodes.take s.lastNodeUnid ++
      List.replicate (s.nodes.length + numberOfNodes.toNat - s.lastNodeUnid) ⟨machine, []⟩ = _
    rw [h.unid, List.take_length, Nat.add_sub_cancel_left]
  have hclean : Clean { machineFillMachineFields machine numberOfNodes s with
      lastNodeUnid := s.lastNodeUnid + numberOfNodes.toNat
      machinesLoaded := s.machinesLoaded + 1 } ↔ Clean s := by
    constructor
    · intro hs
      refine ⟨hs.inside, fun node hnode => hs.filled node ?_⟩
      show node ∈ (machineFillMachineFields machine numberOfNodes s).nodes
      rw [hnodes]
      exact List.mem_append_left _ hnode
    · intro hs
      refine ⟨hs.inside, fun node hnode => ?_⟩
      have hmem : node ∈ s.nodes ++ List.replicate numberOfNodes.toNat ⟨machine, []⟩ :=
        hnodes ▸ hnode
      rcases List.mem_append.mp hmem with hold | hnew
      · exact hs.filled node hold
      · rw [List.eq_of_mem_replicate hnew]
        exact .inl rfl
  refine ⟨?_, ?_, h.last, ?_, fun hs k node hnode => ?_⟩
  · show ((machineFillMachineFields machine numberOfNodes s).nodes).map Node.machine = _
    rw [hnodes, List.map_append, h.machine, List.map_replicate]
  · show s.lastNodeUnid + numberOfNodes.toNat =
      (machineFillMachineFields machine numberOfNodes s).nodes.length
    rw [hnodes, List.length_append, List.length_replicate, h.unid]
  · rw [hclean, h.clean, List.length_append]
    constructor
    · rintro ⟨hpast, hlisted, hnodup, hids⟩
      refine ⟨⟨hpast, hlisted, fun id hid => (hids id hid).2⟩,
        hlisted.trans (List.prefix_append _ _), hnodup, fun id hid => ?_⟩
      have hbounds := hids id hid
      exact ⟨hbounds.1, by omega⟩
    · rintro ⟨⟨hpast, hlisted, hlt⟩, -, hnodup, hids⟩
      exact ⟨hpast, hlisted, hnodup, fun id hid => ⟨(hids id hid).1, hlt id hid⟩⟩
  · have hold := h.filled (hclean.mp hs) k
    obtain ⟨-, hlisted, -, hids⟩ := h.clean.mp (hclean.mp hs)
    have hat : (s.nodes ++ List.replicate numberOfNodes.toNat ⟨machine, []⟩)[k]? = some node :=
      hnodes ▸ hnode
    by_cases hlt : k < s.nodes.length
    · rw [List.getElem?_append_left hlt] at hat
      exact hold node hat
    · have hnew : node = ⟨machine, []⟩ := by
        rw [List.getElem?_append_right (by omega)] at hat
        exact List.eq_of_mem_replicate (List.mem_of_getElem? hat)
      have hle := hlisted.length_le
      have hlength := h.length
      rw [hnew]
      refine ⟨fun hne => absurd rfl hne, ?_⟩
      rintro (hk | hk)
      · omega
      · have hbounds := hids k hk
        omega

theorem clean_iff : Clean s ↔ s.outside = [] ∧
    ∀ (k : Nat) (node : Node), s.nodes[k]? = some node →
      node.filledBy = [] ∨ node.filledBy = [node.machine] := by
  constructor
  · exact fun h => ⟨h.inside, fun k node hnode => h.filled node (List.mem_of_getElem? hnode)⟩
  · rintro ⟨hinside, hfilled⟩
    refine ⟨hinside, fun node hnode => ?_⟩
    obtain ⟨k, hk⟩ := List.mem_iff_getElem?.mp hnode
    exact hfilled k node hk

theorem nodeFillNodeFields_inside (hk : k < s.nodes.length) :
    nodeFillNodeFields (k : Int) machine s =
      { s with nodes := s.nodes.modify k fun node =>
          { node with filledBy := node.filledBy ++ [machine] } } :=
  if_pos ⟨Int.natCast_nonneg k, Int.ofNat_lt.mpr hk⟩

theorem nodeFillNodeFields_frame : (nodeFillNodeFields nodeId machine s).nodes.map Node.machine =
      s.nodes.map Node.machine ∧
    (nodeFillNodeFields nodeId machine s).lastNodeUnid = s.lastNodeUnid ∧
    (nodeFillNodeFields nodeId machine s).lastNodeId = s.lastNodeId := by
  rw [nodeFillNodeFields]
  split
  · refine ⟨?_, rfl, rfl⟩
    apply List.ext_getElem?
    intro k
    show ((s.nodes.modify nodeId.toNat _).map Node.machine)[k]? = _
    rw [List.getElem?_map, List.getElem?_map, List.getElem?_modify]
    cases s.nodes[k]? with
    | none => rfl
    | some node =>
        show some (Node.machine (if nodeId.toNat = k then _ else node)) = some node.machine
        split <;> rfl
  · exact ⟨rfl, rfl, rfl⟩

theorem getElem?_fill (hk : k < s.nodes.length) (j : Nat) :
    (nodeFillNodeFields (k : Int) machine s).nodes[j]? = s.nodes[j]?.map fun node =>
      if k = j then { node with filledBy := node.filledBy ++ [machine] } else node := by
  rw [nodeFillNodeFields_inside hk]
  exact List.getElem?_modify ..

theorem clean_nodeFillNodeFields : Clean (nodeFillNodeFields nodeId machine s) ↔
    Clean s ∧ ∃ k node, nodeId = (k : Nat) ∧ s.nodes[k]? = some node ∧ node.filledBy = [] ∧
      node.machine = machine := by
  by_cases hin : 0 ≤ nodeId ∧ nodeId < s.nodes.length
  · obtain ⟨k, rfl⟩ := Int.eq_ofNat_of_zero_le hin.1
    have hk : k < s.nodes.length := Int.ofNat_lt.mp hin.2
    have hat := List.getElem?_eq_getElem hk
    have houtside : (nodeFillNodeFields (k : Int) machine s).outside = s.outside := by
      rw [nodeFillNodeFields_inside hk]
    rw [clean_iff, clean_iff, houtside]
    constructor
    · rintro ⟨hinside, hfilled⟩
      have hself := hfilled k { s.nodes[k] with filledBy := s.nodes[k].filledBy ++ [machine] } (by
        rw [getElem?_fill hk, hat, Option.map_some, if_pos rfl])
      have hempty : s.nodes[k].filledBy = [] ∧ s.nodes[k].machine = machine := by
        rcases hself with h | h
        · exact absurd h (by simp)
        · cases hlist : s.nodes[k].filledBy with
          | nil =>
              rw [hlist] at h
              exact ⟨rfl, (List.singleton_inj.mp h).symm⟩
          | cons m ms =>
              rw [hlist] at h
              exact absurd (congrArg List.length h) (by simp)
      refine ⟨⟨hinside, fun j node hnode => ?_⟩, k, _, rfl, hat, hempty⟩
      by_cases hj : k = j
      · subst hj
        rw [hat] at hnode
        obtain rfl := Option.some_injective _ hnode
        exact .inl hempty.1
      · exact hfilled j node (by rw [getElem?_fill hk, hnode, Option.map_some, if_neg hj])
    · rintro ⟨⟨hinside, hfilled⟩, k', node, hid, hnode, hempty, hmachine⟩
      obtain rfl : k = k' := Int.ofNat_inj.mp hid
      refine ⟨hinside, fun j node' hnode' => ?_⟩
      rw [getElem?_fill hk] at hnode'
      obtain ⟨old, hold, rfl⟩ := Option.map_eq_some_iff.mp hnode'
      by_cases hj : k = j
      · subst hj
        obtain rfl : node = old := Option.some_injective _ (hnode.symm.trans hold)
        rw [if_pos rfl, hempty, hmachine]
        exact .inr rfl
      · rw [if_neg hj]
        exact hfilled j old hold
  · constructor
    · intro h
      have houtside := h.inside
      rw [nodeFillNodeFields, if_neg hin] at houtside
      exact absurd houtside (by simp)
    · rintro ⟨-, k, node, rfl, hnode, -⟩
      have hk : k < s.nodes.length := (List.getElem?_eq_some_iff.mp hnode).1
      exact absurd ⟨Int.natCast_nonneg k, Int.ofNat_lt.mpr hk⟩ hin

theorem filled_nodeFillNodeFields (hk : k < s.nodes.length) {j : Nat} {node' : Node}
    (hnode' : (nodeFillNodeFields (k : Int) machine s).nodes[j]? = some node') :
    ∃ node, s.nodes[j]? = some node ∧ (node'.filledBy ≠ [] ↔ j = k ∨ node.filledBy ≠ []) := by
  rw [getElem?_fill hk] at hnode'
  obtain ⟨node, hnode, rfl⟩ := Option.map_eq_some_iff.mp hnode'
  refine ⟨node, hnode, ?_⟩
  by_cases hj : k = j
  · simp [hj]
  · simp [hj, Ne.symm hj]

theorem concat_prefix_iff :
    names ++ [machine] <+: machines ↔ names <+: machines ∧ machines[names.length]? = some machine := by
  constructor
  · rintro ⟨rest, rfl⟩
    refine ⟨⟨machine :: rest, by simp⟩, ?_⟩
    simp
  · rintro ⟨⟨rest, rfl⟩, h⟩
    rw [List.getElem?_append_right (Nat.le_refl _), Nat.sub_self] at h
    cases rest with
    | nil => exact nomatch h
    | cons m rest =>
        obtain rfl := Option.some_injective _ h
        exact ⟨rest, by simp⟩

theorem Tracks.getElem? (h : Tracks machines names ids past s) :
    machines[k]? = some machine ↔ ∃ node, s.nodes[k]? = some node ∧ node.machine = machine := by
  rw [← h.machine, List.getElem?_map, Option.map_eq_some_iff]

theorem Tracks.unfilled (h : Tracks machines names ids past s) (hs : Clean s)
    (hnode : s.nodes[k]? = some node) :
    node.filledBy = [] ↔ names.length ≤ k ∧ (k : Int) ∉ ids := by
  have hfilled := h.filled hs k node hnode
  rw [← not_iff_not, ← Ne, hfilled]
  constructor
  · rintro (hlt | hmem) ⟨hle, hnot⟩
    · exact absurd hlt (Nat.not_lt.mpr hle)
    · exact hnot hmem
  · intro hnot
    by_cases hmem : (k : Int) ∈ ids
    · exact .inr hmem
    · exact .inl (Nat.lt_of_not_le fun hle => hnot ⟨hle, hmem⟩)

theorem Tracks.implicitNode (h : Tracks machines names ids past s) :
    Tracks machines (names ++ [machine]) ids past
      { nodeFillNodeFields s.lastNodeId machine s with lastNodeId := s.lastNodeId + 1 } := by
  obtain ⟨hmachine, hunid, -⟩ := @nodeFillNodeFields_frame s machine s.lastNodeId
  have hclean : Clean { nodeFillNodeFields s.lastNodeId machine s with
      lastNodeId := s.lastNodeId + 1 } ↔ Clean (nodeFillNodeFields s.lastNodeId machine s) :=
    ⟨fun hs => ⟨hs.inside, hs.filled⟩, fun hs => ⟨hs.inside, hs.filled⟩⟩
  have hlength : (nodeFillNodeFields s.lastNodeId machine s).nodes.length = s.nodes.length := by
    rw [← List.length_map Node.machine, hmachine, List.length_map]
  refine ⟨hmachine.trans h.machine, ?_, ?_, ?_, fun hs j node' hnode' => ?_⟩
  · exact hunid.trans (h.unid.trans hlength.symm)
  · show s.lastNodeId + 1 = (names ++ [machine]).length
    rw [List.length_append, List.length_singleton, h.last]
  · rw [hclean, clean_nodeFillNodeFields, concat_prefix_iff, List.length_append,
      List.length_singleton]
    constructor
    · rintro ⟨hs, k, node, hid, hnode, hempty, hname⟩
      obtain rfl : s.lastNodeId = k := Int.ofNat_inj.mp hid
      obtain ⟨hpast, hlisted, hnodup, hids⟩ := h.clean.mp hs
      have hfree := ((h.unfilled hs hnode).mp hempty).2
      refine ⟨hpast, ⟨hlisted, h.last ▸ h.getElem?.mpr ⟨node, hnode, hname⟩⟩, hnodup,
        fun id hid => ?_⟩
      have hbounds := hids id hid
      have hne : id ≠ (s.lastNodeId : Int) := fun heq => hfree (heq ▸ hid)
      rw [h.last] at hne
      omega
    · rintro ⟨hpast, ⟨hlisted, hname⟩, hnodup, hids⟩
      have hs : Clean s := h.clean.mpr ⟨hpast, hlisted, hnodup, fun id hid => by
        have hbounds := hids id hid
        omega⟩
      obtain ⟨node, hnode, hname⟩ := h.getElem?.mp hname
      rw [← h.last] at hnode
      refine ⟨hs, s.lastNodeId, node, rfl, hnode, (h.unfilled hs hnode).mpr ⟨h.last.ge, ?_⟩, hname⟩
      intro hmem
      have hbounds := hids _ hmem
      rw [h.last] at hbounds
      omega
  · obtain ⟨hold, k, node, hid, hnode, -⟩ := clean_nodeFillNodeFields.mp (hclean.mp hs)
    obtain rfl : s.lastNodeId = k := Int.ofNat_inj.mp hid
    obtain ⟨old, hat, hfilled⟩ :=
      filled_nodeFillNodeFields (List.getElem?_eq_some_iff.mp hnode).1 hnode'
    rw [hfilled, h.filled hold j old hat, List.length_append, List.length_singleton, h.last,
      Nat.lt_succ_iff_lt_or_eq]
    tauto

theorem Tracks.explicitNode (h : Tracks machines names ids past s) :
    Tracks machines names (ids ++ [nodeId])
      (past ∧ ∃ k : Nat, nodeId = k ∧ machines[k]? = some machine)
      (nodeFillNodeFields nodeId machine s) := by
  obtain ⟨hmachine, hunid, hlast⟩ := @nodeFillNodeFields_frame s machine nodeId
  have hlength : (nodeFillNodeFields nodeId machine s).nodes.length = s.nodes.length := by
    rw [← List.length_map Node.machine, hmachine, List.length_map]
  refine ⟨hmachine.trans h.machine, ?_, hlast.trans h.last, ?_, fun hs j node' hnode' => ?_⟩
  · exact hunid.trans (h.unid.trans hlength.symm)
  · rw [clean_nodeFillNodeFields, List.nodup_append_comm, List.singleton_append, List.nodup_cons]
    simp only [List.mem_append, List.mem_singleton]
    constructor
    · rintro ⟨hs, k, node, rfl, hnode, hempty, hname⟩
      obtain ⟨hpast, hlisted, hnodup, hids⟩ := h.clean.mp hs
      obtain ⟨hle, hfree⟩ := (h.unfilled hs hnode).mp hempty
      have hlt : k < machines.length := h.length ▸ (List.getElem?_eq_some_iff.mp hnode).1
      refine ⟨⟨hpast, k, rfl, h.getElem?.mpr ⟨node, hnode, hname⟩⟩, hlisted, ⟨hfree, hnodup⟩, ?_⟩
      rintro id (hid | rfl)
      · exact hids id hid
      · omega
    · rintro ⟨⟨hpast, k, rfl, hname⟩, hlisted, ⟨hfree, hnodup⟩, hids⟩
      have hs : Clean s := h.clean.mpr ⟨hpast, hlisted, hnodup, fun id hid => hids id (.inl hid)⟩
      obtain ⟨node, hnode, hname⟩ := h.getElem?.mp hname
      have hle := (hids k (.inr rfl)).1
      exact ⟨hs, k, node, rfl, hnode, (h.unfilled hs hnode).mpr ⟨by omega, hfree⟩, hname⟩
  · obtain ⟨hold, k, node, rfl, hnode, -⟩ := clean_nodeFillNodeFields.mp hs
    obtain ⟨old, hat, hfilled⟩ :=
      filled_nodeFillNodeFields (List.getElem?_eq_some_iff.mp hnode).1 hnode'
    rw [hfilled, h.filled hold j old hat, List.mem_append, List.mem_singleton, Int.ofNat_inj]
    tauto

theorem Tracks.fillNodes {count : Nat} (h : Tracks machines names ids past s)
    (hfill : fillNodes machine count s = (none, s')) :
    Tracks machines (names ++ List.replicate count machine) ids past s' := by
  induction count generalizing names s with
  | zero =>
      obtain rfl : s = s' := congrArg Prod.snd hfill
      rwa [List.replicate_zero, List.append_nil]
  | succ count ih =>
      rw [NodeDefinitions.fillNodes] at hfill
      split at hfill
      · exact nomatch congrArg Prod.fst hfill
      · have hframe := (@nodeFillNodeFields_frame s machine s.lastNodeId).2.2
        have hstep : Tracks machines (names ++ [machine]) ids past
            { nodeFillNodeFields s.lastNodeId machine s with
              lastNodeId := (nodeFillNodeFields s.lastNodeId machine s).lastNodeId + 1 } :=
          h.implicitNode.congr rfl rfl (congrArg Nat.succ hframe) rfl
        have hnext := ih hstep hfill
        rwa [List.append_assoc, List.singleton_append] at hnext

end

/-! ## Configurations -/

/-- What the definitions keep to while they are read. -/
structure Past (ds : List Definition) : Prop where
  implicit : ∀ pre, pre <+: ds → implicitMachines pre <+: owners pre
  explicit : ∀ pre nodeId machineId f, pre ++ [.node nodeId machineId f] <+: ds →
    nodeId ≠ noNodeId → ∃ id : Nat, nodeId = id ∧ (owners pre)[id]? = some machineId.toNat

section

variable {s s' : Simulator} {ds : List Definition} {d : Definition} {unset : List (Int × Int)}
variable {dedicatedConnections : Int × Int}

theorem owners_concat : owners (ds ++ [d]) = owners ds ++ owners [d] := List.flatMap_append

theorem implicitMachines_concat :
    implicitMachines (ds ++ [d]) = implicitMachines ds ++ implicitMachines [d] :=
  List.flatMap_append

theorem explicitIds_concat : explicitIds (ds ++ [d]) = explicitIds ds ++ explicitIds [d] :=
  List.flatMap_append

@[simp] theorem owners_machine {machineId : Int} {f : MachineFields} :
    owners [.machine machineId f] = List.replicate f.numberOfNodes.toNat machineId.toNat :=
  List.append_nil _

@[simp] theorem owners_node {nodeId machineId : Int} {f : NodeFields} :
    owners [.node nodeId machineId f] = [] := rfl

@[simp] theorem owners_multiNode {machineId nodeCount : Int} {f : NodeFields} :
    owners [.multiNode machineId nodeCount f] = [] := rfl

@[simp] theorem implicitMachines_machine {machineId : Int} {f : MachineFields} :
    implicitMachines [.machine machineId f] = [] := rfl

@[simp] theorem implicitMachines_node {nodeId machineId : Int} {f : NodeFields} :
    implicitMachines [.node nodeId machineId f] =
      if nodeId = noNodeId then [machineId.toNat] else [] :=
  List.append_nil _

@[simp] theorem implicitMachines_multiNode {machineId nodeCount : Int} {f : NodeFields} :
    implicitMachines [.multiNode machineId nodeCount f] =
      List.replicate nodeCount.toNat machineId.toNat :=
  List.append_nil _

@[simp] theorem explicitIds_machine {machineId : Int} {f : MachineFields} :
    explicitIds [.machine machineId f] = [] := rfl

@[simp] theorem explicitIds_node {nodeId machineId : Int} {f : NodeFields} :
    explicitIds [.node nodeId machineId f] = if nodeId = noNodeId then [] else [nodeId] :=
  List.append_nil _

@[simp] theorem explicitIds_multiNode {machineId nodeCount : Int} {f : NodeFields} :
    explicitIds [.multiNode machineId nodeCount f] = [] := rfl

theorem past_nil : Past [] := by
  refine ⟨fun pre hpre => ?_, fun pre nodeId machineId f hpre => ?_⟩
  · obtain rfl := List.prefix_nil.mp hpre
    exact List.prefix_refl _
  · exact absurd (List.prefix_nil.mp hpre) (by simp)

theorem past_concat : Past (ds ++ [d]) ↔ Past ds ∧
    implicitMachines (ds ++ [d]) <+: owners (ds ++ [d]) ∧
    ∀ nodeId machineId f, d = .node nodeId machineId f → nodeId ≠ noNodeId →
      ∃ id : Nat, nodeId = id ∧ (owners ds)[id]? = some machineId.toNat := by
  constructor
  · intro h
    refine ⟨⟨fun pre hpre => h.implicit pre (hpre.trans (List.prefix_append _ _)),
      fun pre nodeId machineId f hpre => h.explicit pre nodeId machineId f
        (hpre.trans (List.prefix_append _ _))⟩, h.implicit _ (List.prefix_refl _), ?_⟩
    rintro nodeId machineId f rfl
    exact h.explicit ds nodeId machineId f (List.prefix_refl _)
  · rintro ⟨h, himplicit, hexplicit⟩
    refine ⟨fun pre hpre => ?_, fun pre nodeId machineId f hpre => ?_⟩
    · rcases List.prefix_concat_iff.mp hpre with rfl | hpre
      · exact himplicit
      · exact h.implicit pre hpre
    · rcases List.prefix_concat_iff.mp hpre with heq | hpre
      · obtain ⟨rfl, hd⟩ := List.append_inj' heq rfl
        exact hexplicit nodeId machineId f (List.singleton_inj.mp hd).symm
      · exact h.explicit pre nodeId machineId f hpre

theorem Past.lt_length (h : Past ds) : ∀ id ∈ explicitIds ds, id < (owners ds).length := by
  induction ds using List.reverseRecOn with
  | nil => exact fun id hid => nomatch hid
  | append_singleton ds d ih =>
      intro id hid
      obtain ⟨hpast, -, hexplicit⟩ := past_concat.mp h
      rw [explicitIds_concat] at hid
      rw [owners_concat, List.length_append]
      rcases List.mem_append.mp hid with hid | hid
      · have hlt := ih hpast id hid
        omega
      · cases d with
        | machine machineId f => exact nomatch hid
        | multiNode machineId nodeCount f => exact nomatch hid
        | node nodeId machineId f =>
            by_cases hno : nodeId = noNodeId
            · rw [explicitIds_node, if_pos hno] at hid
              exact nomatch hid
            · rw [explicitIds_node, if_neg hno, List.mem_singleton] at hid
              obtain ⟨k, hk, hat⟩ := hexplicit nodeId machineId f rfl hno
              have hlt := (List.getElem?_eq_some_iff.mp hat).1
              omega

theorem nodeFillNodeFields_lastNodeId {nodeId : Int} {machine lastNodeId : Nat} :
    nodeFillNodeFields nodeId machine { s with lastNodeId := lastNodeId } =
      { nodeFillNodeFields nodeId machine s with lastNodeId := lastNodeId } := by
  unfold nodeFillNodeFields
  show (if 0 ≤ nodeId ∧ nodeId < s.nodes.length then _ else _) = _
  split <;> rfl

theorem define_machine {machineId : Int} {f : MachineFields}
    (h : define (.machine machineId f) s = (none, s')) :
    s' = { machineFillMachineFields machineId.toNat f.numberOfNodes s with
      lastNodeUnid := s.lastNodeUnid + f.numberOfNodes.toNat
      machinesLoaded := s.machinesLoaded + 1 } := by
  rw [define, simulatorSetMachineDefinition] at h
  split at h
  · exact nomatch congrArg Prod.fst h
  · split at h
    · exact nomatch congrArg Prod.fst h
    · split at h
      · exact nomatch congrArg Prod.fst h
      · exact (congrArg Prod.snd h).symm

theorem setNode_eq {effectiveNodeId machineId : Int} {f : NodeFields}
    (h : setNode effectiveNodeId machineId f s = (none, s')) :
    s' = addLoadedNodes machineId.toNat 1
      (nodeFillNodeFields effectiveNodeId machineId.toNat s) := by
  rw [setNode] at h
  split at h
  · exact nomatch congrArg Prod.fst h
  · split at h
    · exact nomatch congrArg Prod.fst h
    · split at h
      · exact nomatch congrArg Prod.fst h
      · split at h
        · exact nomatch congrArg Prod.fst h
        · exact (congrArg Prod.snd h).symm

theorem define_multiNode {machineId nodeCount : Int} {f : NodeFields}
    (h : define (.multiNode machineId nodeCount f) s = (none, s')) :
    ∃ filled, fillNodes machineId.toNat nodeCount.toNat s = (none, filled) ∧
      s' = addLoadedNodes machineId.toNat nodeCount filled := by
  rw [define, simulatorSetMultipleNodeDefinition] at h
  split at h
  · exact nomatch congrArg Prod.fst h
  · split at h
    · exact nomatch congrArg Prod.fst h
    · split at h
      · exact nomatch congrArg Prod.fst h
      · split at h
        · exact nomatch congrArg Prod.fst h
        · split at h
          · exact nomatch congrArg Prod.fst h
          · rename_i filled hfill
            exact ⟨filled, hfill, (congrArg Prod.snd h).symm⟩

theorem Tracks.past {machines names : List Nat} {ids : List Int} {past past' : Prop}
    (h : Tracks machines names ids past s)
    (hpast : names <+: machines → ids.Nodup →
      (∀ id ∈ ids, (names.length : Int) ≤ id ∧ id < machines.length) → (past ↔ past')) :
    Tracks machines names ids past' s := by
  refine ⟨h.machine, h.unid, h.last, h.clean.trans ?_, h.filled⟩
  constructor
  · rintro ⟨hp, hlisted, hnodup, hids⟩
    exact ⟨(hpast hlisted hnodup hids).mp hp, hlisted, hnodup, hids⟩
  · rintro ⟨hp, hlisted, hnodup, hids⟩
    exact ⟨(hpast hlisted hnodup hids).mpr hp, hlisted, hnodup, hids⟩

/-- What one definition that returns `TRUE` fills. -/
theorem tracks_define
    (htracks : Tracks (owners ds) (implicitMachines ds) (explicitIds ds) (Past ds) s)
    (h : define d s = (none, s')) :
    Tracks (owners (ds ++ [d])) (implicitMachines (ds ++ [d])) (explicitIds (ds ++ [d]))
      (Past (ds ++ [d])) s' := by
  rw [owners_concat, implicitMachines_concat, explicitIds_concat]
  cases d with
  | machine machineId f =>
      have hstep := @Tracks.machineDefinition _ _ _ _ _ machineId.toNat htracks f.numberOfNodes
      rw [define_machine h, owners_machine, implicitMachines_machine, explicitIds_machine,
        List.append_nil, List.append_nil]
      refine hstep.past fun hlisted _ _ => ?_
      rw [past_concat, implicitMachines_concat, owners_concat, implicitMachines_machine,
        owners_machine, List.append_nil]
      constructor
      · rintro ⟨hpast, -, -⟩
        exact ⟨hpast, hlisted, fun _ _ _ h => nomatch h⟩
      · rintro ⟨hpast, -, -⟩
        exact ⟨hpast, hpast.implicit ds (List.prefix_refl _), hpast.lt_length⟩
  | node nodeId machineId f =>
      rw [owners_node, implicitMachines_node, explicitIds_node, List.append_nil]
      rw [define, simulatorSetNodeDefinition] at h
      by_cases hno : nodeId = noNodeId
      · rw [if_pos hno] at h
        rw [if_pos hno, if_pos hno, List.append_nil, setNode_eq h, nodeFillNodeFields_lastNodeId]
        have hstep := @Tracks.implicitNode _ _ _ _ _ machineId.toNat htracks
        have hfilled := hstep.past fun hlisted _ _ => show Past ds ↔
            Past (ds ++ [.node nodeId machineId f]) from by
          rw [past_concat, implicitMachines_concat, owners_concat, implicitMachines_node,
            owners_node, List.append_nil, if_pos hno]
          constructor
          · intro hpast
            refine ⟨hpast, hlisted, ?_⟩
            rintro _ _ _ ⟨⟩ hne
            exact absurd hno hne
          · exact And.left
        exact hfilled.congr rfl rfl rfl rfl
      · rw [if_neg hno] at h
        rw [if_neg hno, if_neg hno, List.append_nil, setNode_eq h]
        have hstep := @Tracks.explicitNode _ _ _ _ _ machineId.toNat nodeId htracks
        have hfilled := hstep.past fun hlisted _ _ => show _ ↔
            Past (ds ++ [.node nodeId machineId f]) from by
          rw [past_concat, implicitMachines_concat, owners_concat, implicitMachines_node,
            owners_node, List.append_nil, if_neg hno, List.append_nil]
          constructor
          · rintro ⟨hpast, hat⟩
            refine ⟨hpast, hlisted, ?_⟩
            rintro _ _ _ ⟨⟩ -
            exact hat
          · rintro ⟨hpast, -, hexplicit⟩
            exact ⟨hpast, hexplicit nodeId machineId f rfl hno⟩
        exact hfilled.congr rfl rfl rfl rfl
  | multiNode machineId nodeCount f =>
      obtain ⟨filled, hfill, rfl⟩ := define_multiNode h
      rw [owners_multiNode, implicitMachines_multiNode, explicitIds_multiNode, List.append_nil,
        List.append_nil]
      have hstep := htracks.fillNodes hfill
      have hfilled := hstep.past fun hlisted _ _ => show Past ds ↔
          Past (ds ++ [.multiNode machineId nodeCount f]) from by
        rw [past_concat, implicitMachines_concat, owners_concat, implicitMachines_multiNode,
          owners_multiNode, List.append_nil]
        exact ⟨fun hpast => ⟨hpast, hlisted, fun _ _ _ h => nomatch h⟩, And.left⟩
      exact hfilled.congr rfl rfl rfl rfl

/-- Definitions that all return `TRUE` fill nodes as they are listed. -/
theorem tracks_load (h : load ds (init unset dedicatedConnections) = some s) :
    Tracks (owners ds) (implicitMachines ds) (explicitIds ds) (Past ds) s := by
  induction ds using List.reverseRecOn generalizing s with
  | nil =>
      obtain rfl := Option.some_injective _ h
      refine ⟨rfl, rfl, rfl, ?_, fun _ k node hnode => nomatch hnode⟩
      have hclean : Clean (init unset dedicatedConnections) := ⟨rfl, fun node hnode => nomatch hnode⟩
      exact ⟨fun _ => ⟨past_nil, List.prefix_refl _, List.nodup_nil, fun id hid => nomatch hid⟩,
        fun _ => hclean⟩
  | append_singleton ds d ih =>
      rw [load, List.foldlM_append] at h
      obtain ⟨mid, hmid, hlast⟩ := Option.bind_eq_some_iff.mp h
      obtain ⟨next, hnext, hnil⟩ := Option.bind_eq_some_iff.mp hlast
      obtain rfl := Option.some_injective _ hnil
      apply tracks_define (ih hmid)
      rw [defined] at hnext
      cases hd : define d mid with
      | mk problem s' =>
          rw [hd] at hnext
          cases problem with
          | none => rw [← Option.some_injective _ hnext]
          | some problem => exact nomatch hnext

/-- Different ids from `low` on are at most the numbers up to `high`, and all of them if they are as
many. -/
theorem length_ids {low high : Nat} {ids : List Int} (hle : low ≤ high) (hnodup : ids.Nodup)
    (hids : ∀ id ∈ ids, (low : Int) ≤ id ∧ id < high) :
    low + ids.length ≤ high ∧
      (high ≤ low + ids.length ↔ ∀ k : Nat, low ≤ k → k < high → (k : Int) ∈ ids) := by
  have hrange : ∀ id : Int, id ∈ (List.range' low (high - low)).map Nat.cast ↔
      (low : Int) ≤ id ∧ id < high := fun id => by
    rw [List.mem_map]
    constructor
    · rintro ⟨k, hk, rfl⟩
      rw [List.mem_range'_1] at hk
      omega
    · intro hid
      exact ⟨id.toNat, by rw [List.mem_range'_1]; omega, by omega⟩
  have hsub : ids.Subperm ((List.range' low (high - low)).map Nat.cast) :=
    hnodup.subperm fun id hid => (hrange id).mpr (hids id hid)
  have hlength : ((List.range' low (high - low)).map (Nat.cast : Nat → Int)).length =
      high - low := by
    rw [List.length_map, List.length_range']
  have hbound := hsub.length_le
  refine ⟨by omega, fun hmany k hk hlt => ?_, fun hall => ?_⟩
  · have hperm := hsub.perm_of_length_le (by omega)
    rw [hperm.mem_iff, hrange]
    omega
  · have hnodup' : ((List.range' low (high - low)).map (Nat.cast : Nat → Int)).Nodup :=
      List.Nodup.map Nat.cast_injective List.nodup_range'
    have hsub' : ((List.range' low (high - low)).map Nat.cast).Subperm ids := hnodup'.subperm
      fun id hid => by
        obtain ⟨k, hk, rfl⟩ := List.mem_map.mp hid
        rw [List.mem_range'_1] at hk
        exact hall k hk.1 (by omega)
    have hbound' := hsub'.length_le
    omega

/-- Nodes that were filled well are all filled when there are as many definitions. -/
theorem placed_iff_clean {machines names : List Nat} {ids : List Int} {past : Prop}
    (h : Tracks machines names ids past s) :
    Placed s ↔ Clean s ∧ names.length + ids.length = machines.length := by
  have hlength := h.length
  constructor
  · intro hplaced
    have hclean : Clean s := ⟨hplaced.inside, fun node hnode => .inr (hplaced.filled node hnode)⟩
    obtain ⟨-, hlisted, hnodup, hids⟩ := h.clean.mp hclean
    refine ⟨hclean, Nat.le_antisymm (length_ids hlisted.length_le hnodup hids).1 ?_⟩
    apply (length_ids hlisted.length_le hnodup hids).2.mpr
    intro k hle hlt
    have hk : k < s.nodes.length := by omega
    have hnode := List.getElem?_eq_getElem hk
    have hfilled := hplaced.filled _ (List.getElem_mem hk)
    have hne : s.nodes[k].filledBy ≠ [] := by
      rw [hfilled]
      exact List.cons_ne_nil _ _
    exact ((h.filled hclean k _ hnode).mp hne).resolve_left (Nat.not_lt.mpr hle)
  · rintro ⟨hclean, htotal⟩
    obtain ⟨-, hlisted, hnodup, hids⟩ := h.clean.mp hclean
    refine ⟨hclean.inside, fun node hnode => (hclean.filled node hnode).resolve_left ?_⟩
    obtain ⟨k, hk⟩ := List.mem_iff_getElem?.mp hnode
    have hlt := (List.getElem?_eq_some_iff.mp hk).1
    rw [← Ne, h.filled hclean k node hk, or_iff_not_imp_left]
    intro hnot
    exact (length_ids hlisted.length_le hnodup hids).2.mp htotal.ge k (Nat.le_of_not_lt hnot)
      (by omega)

/-- Every node of every machine is filled once and for its machine exactly when the definitions are
in order. -/
theorem placed_iff (h : load ds (init unset dedicatedConnections) = some s) :
    Placed s ↔ InOrder ds := by
  have htracks := tracks_load h
  rw [placed_iff_clean htracks, htracks.clean]
  constructor
  · rintro ⟨⟨hpast, -, hnodup, hids⟩, htotal⟩
    exact ⟨hpast.implicit, hpast.explicit, hnodup, fun id hid => (hids id hid).1, htotal⟩
  · intro horder
    have hpast : Past ds := ⟨horder.implicit, horder.explicit⟩
    exact ⟨⟨hpast, hpast.implicit ds (List.prefix_refl _), horder.distinct, fun id hid =>
      ⟨horder.behind id hid, hpast.lt_length id hid⟩⟩, horder.total⟩

end

def twoMachines (first second : Int) : List Definition :=
  [.machine 0 ⟨1, 0, 0, 1⟩, .machine 1 ⟨1, 0, 0, 1⟩,
    .node noNodeId first ⟨1, 0, 0, 0, 0, 0, 0, 0, 1, 0, 0⟩,
    .node noNodeId second ⟨1, 0, 0, 0, 0, 0, 0, 0, 1, 0, 0⟩]

/-- The state after the definitions, whose nodes are filled from the machines given. -/
def twoNodes (first second : Nat) : Simulator where
  machines := [⟨0, 1, 1⟩, ⟨1, 1, 1⟩]
  nodes := [⟨0, [first]⟩, ⟨1, [second]⟩]
  lastNodeUnid := 2
  lastNodeId := 2
  machinesLoaded := 2
  dedicatedConnectionsCount := 0
  dedicatedConnectionsLoaded := 0
  outside := []

theorem inOrder_twoMachines : InOrder (twoMachines 0 1) := by
  have hload : load (twoMachines 0 1) (init [(0, 0), (0, 0)] (0, 0)) = some (twoNodes 0 1) := rfl
  apply (placed_iff hload).mp
  refine ⟨rfl, fun node hnode => ?_⟩
  rcases List.mem_pair.mp hnode with rfl | rfl
  · rfl
  · rfl

/-- The node of the second machine is listed first, and fills the node of the first one. -/
theorem not_placed : ¬ ∀ (unset : List (Int × Int)) (dedicatedConnections : Int × Int)
    (ds : List Definition) (s : Simulator),
      load ds (init unset dedicatedConnections) = some s →
        simulatorCheckCorrectDefinitions s = true → Placed s := by
  intro h
  have hload : load (twoMachines 1 0) (init [(0, 0), (0, 0)] (0, 0)) = some (twoNodes 1 0) := rfl
  have hplaced := h _ _ _ _ hload rfl
  have hfilled := hplaced.filled ⟨0, [1]⟩ List.mem_cons_self
  exact absurd (List.singleton_inj.mp hfilled) (by decide)

end Dimemas.Model.NodeDefinitions
