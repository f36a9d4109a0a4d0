import Dimemas.Library.Tally
import Mathlib.Algebra.Field.Rat
/-!
# The cost of a collective operation

`calcula_temps_operacio_global` and the functions that it calls. Times and bandwidths are
rational numbers here. The counters of the communicator say how many nodes of each machine
and how many tasks of each node take part.
-/

namespace Dimemas.Model.CollectiveCost

inductive GopModel
  | zero
  | cte
  | lin
  | log
deriving DecidableEq, Repr

/-- `GOP_SIZE_CURR` to `GOP_SIZE_SIR`. -/
inductive GopSize
  | curr
  | min
  | max
  | mean
  | twoMax
  | sir
deriving DecidableEq, Repr

inductive FanType
  | fanIn
  | fanOut
deriving DecidableEq, Repr

structure GlobalOpInformation where
  finModel : GopModel
  finSize : GopSize
  foutModel : GopModel
  foutSize : GopSize

structure Node where
  machine : Nat
  bandwidth : ℚ
  localStartup : ℚ
  remoteStartup : ℚ
  externalNetStartup : ℚ

structure Machine where
  numberOfNodes : Nat
  remoteBandwidth : ℚ
  numMessagesOnNetwork : Nat
  globalOpsInfo : Nat → Option GlobalOpInformation

structure Wan where
  bandwidth : ℚ
  globalOpsInfo : Nat → Option GlobalOpInformation
  flightTimes : Nat → Nat → ℚ

/-- The nodes by their `nodeid`, the machines by their `id` and the external network. -/
structure Platform where
  node : Nat → Node
  machine : Nat → Machine
  wan : Wan

/-- The description of the operation in the action of a thread. -/
structure GlobalOpDesc where
  glopId : Nat
  bytesSend : Nat
  bytesRecvd : Nat

/-- The queues `nodes_per_machine` and `tasks_per_node` of a communicator. -/
structure Counters where
  nodesPerMachine : Nat → List Nat
  tasksPerNode : List (Nat × Nat)

/-- The result of `calcula_fan`. -/
structure Fan where
  temps : ℚ
  latencia : ℚ
deriving DecidableEq

/-- The times of both fans of an operation. -/
structure Fans where
  fin : Fan
  fout : Fan

structure Temps where
  latencia : ℚ
  recursos : ℚ
  total : ℚ
deriving DecidableEq

def bwNsPerByte (bandw : ℚ) : ℚ :=
  if bandw ≠ 0 then 1000000000 / 2 ^ 20 / bandw else 0

def provideLog (n : Nat) : Nat :=
  ((List.range n).find? fun i => n ≤ 2 ^ i).getD 0

/-- How many pairs of tasks communicate in a stage: every `j` of the inner loop of
`compute_contention_stage` is one. -/
def parallelComm (ntasks i : Nat) : Nat :=
  (List.range (ntasks - 1)).countP fun j => 2 ^ i - 1 ≤ j ∧ (j - (2 ^ i - 1)) % 2 ^ (i + 1) = 0

def computeContentionStage (ntasks numBusos : Nat) : Nat :=
  if numBusos = 0 then provideLog ntasks
  else
    ((List.range (provideLog ntasks)).map fun i =>
      if parallelComm ntasks i % numBusos = 0 then parallelComm ntasks i / numBusos
      else 1 + parallelComm ntasks i / numBusos).sum

/-- `mess_size` in `calcula_fan`. -/
def messSize (sizeType : GopSize) (tipusDeFan : FanType) (bytesSend bytesRecvd : Nat) : Nat :=
  match sizeType with
  | .curr =>
      match tipusDeFan with
      | .fanIn => bytesSend
      | .fanOut => bytesRecvd
  | .min => Nat.min bytesSend bytesRecvd
  | .max => Nat.max bytesSend bytesRecvd
  | .mean => (bytesSend + bytesRecvd) / 2
  | .twoMax => 2 * Nat.max bytesSend bytesRecvd
  | .sir => bytesSend + bytesRecvd

def calculaFan (bandw : ℚ) (numPartners numBusos : Nat) (tipusDeFan : FanType) (model : GopModel)
    (sizeType : GopSize) (bytesSend bytesRecvd : Nat) (startup : ℚ) : Fan :=
  let bandw := bwNsPerByte bandw
  let messSize := messSize sizeType tipusDeFan bytesSend bytesRecvd
  match model with
  | .zero => ⟨0, 0⟩
  | .cte => ⟨startup + messSize * bandw, startup⟩
  | .lin =>
      let factor : ℚ := numPartners - 1
      ⟨(startup + messSize * bandw) * factor, startup * factor⟩
  | .log =>
      let factor : ℚ := computeContentionStage numPartners numBusos
      ⟨(startup + messSize * bandw) * factor, startup * factor⟩

/-- The two calls of `calcula_fan` for the same network. -/
def calculaFans (bandw : ℚ) (numPartners numBusos : Nat) (glopInfo : GlobalOpInformation)
    (op : GlobalOpDesc) (startup : ℚ) : Fans where
  fin := calculaFan bandw numPartners numBusos .fanIn glopInfo.finModel glopInfo.finSize
    op.bytesSend op.bytesRecvd startup
  fout := calculaFan bandw numPartners numBusos .fanOut glopInfo.foutModel glopInfo.foutSize
    op.bytesSend op.bytesRecvd startup

def Fans.none : Fans := ⟨⟨0, 0⟩, ⟨0, 0⟩⟩

def Fans.suma (f : Fans) : ℚ :=
  f.fin.temps + f.fin.latencia + f.fout.temps + f.fout.latencia

variable (P : Platform) (nodeOf : Nat → Nat) (counters : Counters) (op : GlobalOpDesc)

/-- What the loop over the nodes of a machine does: it keeps the longest times so far. -/
def tempsNode (glopInfo : GlobalOpInformation) (acc : ℚ × Fans) (nodeid : Nat) :
    Option (ℚ × Fans) := do
  let node := P.node nodeid
  let entry ← counters.tasksPerNode.find? fun x => x.1 = nodeid
  let taux := calculaFans node.bandwidth entry.2 0 glopInfo op node.localStartup
  pure (if taux.suma > acc.1 then (taux.suma, taux) else acc)

/-- The times within the node of a machine where they are longest. -/
def calculaTempsMaximIntraNodes (machine : Nat) (glopInfo : GlobalOpInformation) : Option Fans :=
  ((counters.nodesPerMachine machine).foldlM (tempsNode P counters op glopInfo)
    (0, Fans.none)).map Prod.snd

/-- The variables of the loop over the machines: `taux` keeps its value from one machine to the
next one. -/
structure MachinesTemps where
  taux : Fans
  sumaMaxim : ℚ
  node : Fans
  int : Fans

def tempsMachine (acc : MachinesTemps) (others : Nat) : Option MachinesTemps := do
  let node := P.node (nodeOf others)
  let machine := P.machine node.machine
  let glopInfo ← machine.globalOpsInfo op.glopId
  let nodes := (counters.nodesPerMachine node.machine).length
  let taux := if 1 < machine.numberOfNodes ∧ 0 < nodes then
      calculaFans machine.remoteBandwidth nodes machine.numMessagesOnNetwork glopInfo op
        node.remoteStartup
    else acc.taux
  let tauxn ← calculaTempsMaximIntraNodes P counters op node.machine glopInfo
  let suma := taux.suma + tauxn.suma
  pure (if suma > acc.sumaMaxim then ⟨taux, suma, tauxn, taux⟩ else { acc with taux := taux })

def calculaMaximFlightTimes (thread : Nat) (commMachineThreads : List Nat) : ℚ × ℚ :=
  let indexOrigen := (P.node (nodeOf thread)).machine
  commMachineThreads.foldl (fun (maxIn, maxOut) others =>
    if others = thread then (maxIn, maxOut)
    else
      let machine := (P.node (nodeOf others)).machine
      let flightIn := P.wan.flightTimes machine indexOrigen
      let flightOut := P.wan.flightTimes indexOrigen machine
      (if flightIn > maxIn then flightIn else maxIn,
        if flightOut > maxOut then flightOut else maxOut)) (0, 0)

/-- The times of the external network, with the startup of the node that the loop over the
machines ended with. `bandwExterna` is the result of `recompute_external_network_bandwidth`. -/
def tempsExterns (size thread : Nat) (commMachineThreads : List Nat) (bandwExterna : ℚ) :
    Option (Fans × ℚ × ℚ) := do
  if commMachineThreads.length > 1 then
    let last ← commMachineThreads.getLast?
    let glopInfo ← P.wan.globalOpsInfo op.glopId
    let bandwExterna := if P.wan.bandwidth ≠ 0 then bandwExterna else 0
    let ext := calculaFans bandwExterna size 0 glopInfo op (P.node (nodeOf last)).externalNetStartup
    pure (ext, calculaMaximFlightTimes P nodeOf thread commMachineThreads)
  else
    pure (Fans.none, 0, 0)

/-- `calcula_temps_operacio_global` for the root of an operation, the threads that reserved the
resources of their machines and the size of the communicator. -/
def calculaTempsOperacioGlobal (size thread : Nat) (commMachineThreads : List Nat)
    (bandwExterna : ℚ) : Option Temps := do
  let machines ← commMachineThreads.foldlM (tempsMachine P nodeOf counters op)
    ⟨Fans.none, 0, Fans.none, Fans.none⟩
  let (ext, flightIn, flightOut) ← tempsExterns P nodeOf op size thread commMachineThreads
    bandwExterna
  let temps := machines.node.fin.temps + machines.node.fout.temps + machines.int.fin.temps +
    machines.int.fout.temps + ext.fin.temps + ext.fout.temps
  let latencia := machines.node.fin.latencia + machines.node.fout.latencia +
    machines.int.fin.latencia + machines.int.fout.latencia + ext.fin.latencia + ext.fout.latencia
  pure ⟨latencia, temps, temps + (flightIn + flightOut)⟩

end Dimemas.Model.CollectiveCost
