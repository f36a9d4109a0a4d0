import Dimemas.Model.Links
/-!
# The links of a collective operation over several machines

A non blocking collective operation that spans several machines reserves their links to
the external network, which have one link in each direction: one thread of every machine,
once it has the buses, gets the output link, and when all have theirs, they get the
input links. The operation starts when the last one has both.
-/

namespace Dimemas.Model.WanReservation

open Dimemas.Model.Links (LinkType)

/-- A thread that waits for a link of the external network: the one of this machine in the
operation, or another communication. -/
inductive Waiter
  | rep
  | other (thread : Nat)
deriving DecidableEq, Repr

structure ExternalNet where
  freeOutLink : Bool
  freeInLink : Bool
  thForOut : List Waiter
  thForIn : List Waiter
deriving DecidableEq, Repr

/-- The links of a thread, and whether it has got its buses. -/
structure Rep where
  hasBuses : Bool
  localLink : Bool
  partnerLink : Bool
deriving DecidableEq, Repr

/-- What happens to the threads of the operation. -/
inductive GlopEvent
  | tookLink (machine : Nat) (inOut : LinkType)
  | withLinks (machine : Nat)
  | start
deriving DecidableEq, Repr

/-- The threads of the operation are known by their machines. `mThreadsWithLinks` is the queue of
the operation, `blockingWithLinks` counts `communicator->m_threads_with_links`, and
`threads` are those that were put back to the threads of the operation. -/
structure ReserveState where
  net : Nat → ExternalNet
  rep : Nat → Rep
  mThreadsWithLinks : List Nat
  blockingWithLinks : Nat
  threads : List Nat
  history : List GlopEvent

namespace ReserveState

def init : ReserveState where
  net _ := ⟨true, true, [], []⟩
  rep _ := ⟨false, false, false⟩
  mThreadsWithLinks := []
  blockingWithLinks := 0
  threads := []
  history := []

def setNet (s : ReserveState) (m : Nat) (net : ExternalNet) : ReserveState :=
  { s with net := Function.update s.net m net }

def setRep (s : ReserveState) (m : Nat) (rep : Rep) : ReserveState :=
  { s with rep := Function.update s.rep m rep }

def record (s : ReserveState) (e : GlopEvent) : ReserveState :=
  { s with history := s.history ++ [e] }

end ReserveState

/-- `LINKS_get_single_wan_link` for the thread of the machine. -/
def getSingleWanLink (s : ReserveState) (m : Nat) : LinkType → Bool × ReserveState
  | .outLink =>
      if (s.rep m).localLink then (true, s)
      else if (s.net m).freeOutLink then
        (true, ((s.setNet m { s.net m with freeOutLink := false }).setRep m
          { s.rep m with localLink := true }).record (.tookLink m .outLink))
      else (false, s.setNet m { s.net m with thForOut := (s.net m).thForOut ++ [.rep] })
  | .inLink =>
      if (s.rep m).partnerLink then (true, s)
      else if (s.net m).freeInLink then
        (true, ((s.setNet m { s.net m with freeInLink := false }).setRep m
          { s.rep m with partnerLink := true }).record (.tookLink m .inLink))
      else (false, s.setNet m { s.net m with thForIn := (s.net m).thForIn ++ [.rep] })

variable (machines : List Nat)

/-- `global_op_get_all_in_links`. The threads that are not the first of their machine are in the
queue of the operation already. -/
def globalOpGetAllInLinks (s : ReserveState) (m : Nat) : ReserveState :=
  let s := { s with threads := s.threads ++ [m] }
  if s.threads.length ≠ machines.length then s
  else { s with mThreadsWithLinks := [] }.record .start

/-- The loop of `global_op_get_all_out_links` that asks for the input links. -/
def getInLinks : List Nat → ReserveState → ReserveState
  | [], s => s
  | m :: rest, s =>
      let (granted, s) := getSingleWanLink s m .inLink
      getInLinks rest (if granted then globalOpGetAllInLinks machines s m else s)

def globalOpGetAllOutLinks (s : ReserveState) (m : Nat) : ReserveState :=
  if 1 < machines.length then
    let s := { s with mThreadsWithLinks := s.mThreadsWithLinks ++ [m] }.record (.withLinks m)
    if s.mThreadsWithLinks.length ≠ machines.length then s
    else getInLinks machines machines s
  else globalOpGetAllInLinks machines s m

/-- The output link in `global_op_get_all_buses` and in `global_op_reserva_links`. -/
def reserveOutLink (s : ReserveState) (m : Nat) : ReserveState :=
  let (granted, s) := getSingleWanLink s m .outLink
  if granted then globalOpGetAllOutLinks machines s m else s

/-- `global_op_get_all_buses` for a thread that has got all its buses. -/
def globalOpGetAllBuses (s : ReserveState) (m : Nat) : ReserveState :=
  let s := s.setRep m { s.rep m with hasBuses := true }
  if 1 < machines.length then reserveOutLink machines s m else globalOpGetAllOutLinks machines s m

/-- `global_op_reserva_links`. The threads of the operation are those of a non blocking one, but
they are compared with the queue of the blocking ones. -/
def globalOpReservaLinks (s : ReserveState) (m : Nat) : ReserveState :=
  if machines.length ≠ s.blockingWithLinks then reserveOutLink machines s m
  else
    let (granted, s) := getSingleWanLink s m .inLink
    if granted then globalOpGetAllInLinks machines s m else s

/-- The link that `LINKS_free_wan_link` frees and the first thread that waits for it. Another
communication may take the link, or not (`taken`). -/
def freeOutLink (s : ReserveState) (m : Nat) (taken : Bool) : ReserveState :=
  match (s.net m).thForOut with
  | [] => s.setNet m { s.net m with freeOutLink := true }
  | .rep :: rest =>
      globalOpReservaLinks machines
        (s.setNet m { s.net m with freeOutLink := true, thForOut := rest }) m
  | .other _ :: rest =>
      s.setNet m { s.net m with freeOutLink := !taken, thForOut := rest }

def freeInLink (s : ReserveState) (m : Nat) (taken : Bool) : ReserveState :=
  match (s.net m).thForIn with
  | [] => s.setNet m { s.net m with freeInLink := true }
  | .rep :: rest =>
      globalOpReservaLinks machines
        (s.setNet m { s.net m with freeInLink := true, thForIn := rest }) m
  | .other _ :: rest =>
      s.setNet m { s.net m with freeInLink := !taken, thForIn := rest }

inductive ReserveLabel
  | buses (m : Nat)
  | otherGets (m thread : Nat) (inOut : LinkType)
  | otherFrees (m : Nat) (inOut : LinkType) (taken : Bool)
  | blocking (withLinks : Nat)
deriving DecidableEq, Repr

/-- The thread of a machine gets its buses, another communication gets or frees a link, or a
blocking operation of the communicator reserves its links. -/
def reserveNext (s : ReserveState) : ReserveLabel → Option ReserveState
  | .buses m =>
      if m ∈ machines ∧ (s.rep m).hasBuses = false then some (globalOpGetAllBuses machines s m)
      else none
  | .otherGets m thread .outLink =>
      if (s.net m).freeOutLink then some (s.setNet m { s.net m with freeOutLink := false })
      else
        some (s.setNet m { s.net m with thForOut := (s.net m).thForOut ++ [.other thread] })
  | .otherGets m thread .inLink =>
      if (s.net m).freeInLink then some (s.setNet m { s.net m with freeInLink := false })
      else some (s.setNet m { s.net m with thForIn := (s.net m).thForIn ++ [.other thread] })
  | .otherFrees m .outLink taken =>
      if (s.net m).freeOutLink = false ∧ (s.rep m).localLink = false then
        some (freeOutLink machines s m taken)
      else none
  | .otherFrees m .inLink taken =>
      if (s.net m).freeInLink = false ∧ (s.rep m).partnerLink = false then
        some (freeInLink machines s m taken)
      else none
  | .blocking withLinks => some { s with blockingWithLinks := withLinks }

end Dimemas.Model.WanReservation
