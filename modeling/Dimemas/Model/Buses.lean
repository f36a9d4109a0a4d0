import Mathlib.Data.Rat.Defs
import Dimemas.Model.NetworkLinks
/-!
# The buses of a machine

Messages between the nodes of one machine take one bus each and collective operations
all of them. `really_send_internal_network` and `global_op_get_all_buses` take buses or
queue their thread, and the two handlers that release them,
`COMMUNIC_internal_resources_COM_TIMER_OUT` and
`free_global_communication_resources`, wake up the threads of the queue.
-/

namespace Dimemas.Model.Buses

open Dimemas.Model.Links Dimemas.Model.LinkOwnership Dimemas.Model.NetworkLinks

inductive CommunicPolicy
  | fifo | rr | boost
deriving DecidableEq, Repr

/-- What is fixed in a run: the nodes of every communication, `num_messages_on_network`, the
communication policy of the machine, and the threads whose action is a GLOBAL_OP. -/
structure Machine where
  ends : Ends
  numMessagesOnNetwork : Nat
  policy : CommunicPolicy
  globalOp : Nat → Bool

/-- The fields of `machine->network` and `thread->number_buses`. `begun` marks the threads whose
transfer was requested; `calls` and `ratios` record the calls of `LINKS_get_network_links`
and the value of `ratio` at the calls of `recompute_internal_network_bandwidth`, which
panics if it is 0. -/
structure BusState where
  currOnNetwork : Int
  threadsOnNetwork : List Nat
  queue : List Nat
  numberBuses : Nat → Int
  begun : Nat → Bool
  calls : List GetCall
  ratios : List ℚ

abbrev MachineState := LinkState × BusState

def MachineState.init (noInput noOutput : Nat → Nat) : MachineState :=
  (.init noInput noOutput, ⟨0, [], [], fun _ => 0, fun _ => false, [], []⟩)

variable (m : Machine)

/-- `recompute_internal_network_bandwidth`, as far as it may panic. -/
def recomputeInternalNetworkBandwidth (b : BusState) : BusState :=
  let ratio : ℚ :=
    if b.currOnNetwork ≤ m.numMessagesOnNetwork then 1
    else m.numMessagesOnNetwork / b.currOnNetwork
  { b with ratios := b.ratios ++ [ratio] }

/-- `really_send_internal_network`. The transfer that it starts computes the bandwidth. -/
def reallySendInternalNetwork (s : MachineState) (t : Nat) : Option MachineState := do
  let (granted, links) ← getNetworkLinks s.1 t (m.ends.node t) (m.ends.nodePartner t)
  let b := { s.2 with calls := s.2.calls ++ [⟨t, s.1, granted, links⟩] }
  if granted then
    if m.numMessagesOnNetwork = 0 then some (links, recomputeInternalNetworkBandwidth m b)
    else if m.policy = .fifo ∧ m.numMessagesOnNetwork ≤ b.currOnNetwork then
      some (links, { b with queue := b.queue ++ [t] })
    else
      some (links, recomputeInternalNetworkBandwidth m { b with
        currOnNetwork := b.currOnNetwork + 1
        threadsOnNetwork := b.threadsOnNetwork ++ [t] })
  else some (links, b)

/-- `global_op_get_all_buses`. What follows once the thread has all buses (the links to the
external network and the operation itself) does not concern the buses. -/
def globalOpGetAllBuses (b : BusState) (t : Nat) : BusState :=
  if m.numMessagesOnNetwork ≠ 0 ∧ b.numberBuses t = 0 ∧ b.currOnNetwork ≠ 0 then
    { b with
      numberBuses := Function.update b.numberBuses t (m.numMessagesOnNetwork - b.currOnNetwork)
      currOnNetwork := m.numMessagesOnNetwork
      queue := b.queue ++ [t] }
  else
    { b with
      currOnNetwork := m.numMessagesOnNetwork
      threadsOnNetwork := b.threadsOnNetwork ++ List.replicate m.numMessagesOnNetwork t }

/-- What both release handlers do for the first thread that waits for a bus: a SEND is sent
again, a GLOBAL_OP gets the free buses and goes on if it has all of them. -/
def wakeBusWaiter (s : MachineState) : Option MachineState :=
  match s.2.queue with
  | [] => none
  | first :: rest =>
      if m.globalOp first then
        let aux : Int := m.numMessagesOnNetwork - s.2.currOnNetwork
        let b : BusState := { s.2 with
          numberBuses := Function.update s.2.numberBuses first (s.2.numberBuses first + aux)
          currOnNetwork := s.2.currOnNetwork + aux }
        if b.numberBuses first = m.numMessagesOnNetwork then
          some (s.1, globalOpGetAllBuses m { b with queue := rest } first)
        else some (s.1, b)
      else reallySendInternalNetwork m (s.1, { s.2 with queue := rest }) first

/-- A transfer that ended is not counted any more. -/
def freeBus (b : BusState) : BusState :=
  recomputeInternalNetworkBandwidth m { b with
    currOnNetwork := if 0 < b.currOnNetwork then b.currOnNetwork - 1 else b.currOnNetwork }

def internalResourcesComTimerOut (s : MachineState) (t : Nat) : Option MachineState := do
  let b ←
    if m.numMessagesOnNetwork = 0 then some s.2
    else if t ∈ s.2.threadsOnNetwork then
      some { s.2 with threadsOnNetwork := s.2.threadsOnNetwork.erase t }
    else none
  let s ← freeThreadLink (reallySendInternalNetwork m) (s.1, b) t .localLink
  let s ← freeThreadLink (reallySendInternalNetwork m) s t .partnerLink
  let s : MachineState := (s.1, freeBus m s.2)
  if m.numMessagesOnNetwork ≠ 0 ∧ s.2.queue ≠ [] then wakeBusWaiter m s else some s

/-- The loop of `free_global_communication_resources` over the threads that wait for a bus. -/
def wakeBusWaiters : Nat → MachineState → Option MachineState
  | 0, s => some s
  | n + 1, s =>
      if s.2.currOnNetwork < m.numMessagesOnNetwork then
        (wakeBusWaiter m s).bind (wakeBusWaiters n)
      else some s

/-- `free_global_communication_resources` for the machine, of which `t` is the thread in the
operation's list of machines. -/
def freeGlobalCommunicationResources (s : MachineState) (t : Nat) : Option MachineState :=
  let b := { s.2 with
    numberBuses := Function.update s.2.numberBuses t 0
    currOnNetwork := 0
    threadsOnNetwork := s.2.threadsOnNetwork.drop m.numMessagesOnNetwork }
  wakeBusWaiters m b.queue.length (s.1, b)

/-! ## Runs -/

inductive BusLabel
  | send (t : Nat)
  | netResources (t : Nat)
  | globalOp (t : Nat)
  | groupResources (t : Nat)
deriving DecidableEq, Repr

/-- A new SEND thread asks for its transfer, the resources event of a transfer or of a
collective operation is processed, or a thread that is in no operation begins one. -/
def busNext (s : MachineState) : BusLabel → Option MachineState
  | .send t =>
      if !m.globalOp t && !s.2.begun t then
        reallySendInternalNetwork m
          (s.1, { s.2 with begun := Function.update s.2.begun t true }) t
      else none
  | .netResources t =>
      if !m.globalOp t ∧ t ∈ s.2.threadsOnNetwork then internalResourcesComTimerOut m s t
      else none
  | .globalOp t =>
      if m.globalOp t ∧ t ∉ s.2.queue ∧ t ∉ s.2.threadsOnNetwork then
        some (s.1, globalOpGetAllBuses m s.2 t)
      else none
  | .groupResources t =>
      if m.globalOp t ∧ t ∈ s.2.threadsOnNetwork then freeGlobalCommunicationResources m s t
      else none

end Dimemas.Model.Buses
