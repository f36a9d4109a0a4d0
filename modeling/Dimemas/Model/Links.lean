import Dimemas.Library.Reservations
/-!
# The network links of a machine

The links that the nodes of one machine have for messages between them, as
`NODE_Fill_Node_Fields` creates them, `LINKS_get_network_links` reserves them (with
`roba_out_link`, which takes an output link away from a communication that waits for
its input link) and `LINKS_free_network_link` puts them back and wakes up the threads
that wait.
-/

namespace Dimemas.Model.Links

open Dimemas.Library.Reservations

inductive LinkType
  | inLink | outLink
deriving DecidableEq, Repr

def LinkType.other : LinkType → LinkType
  | .inLink => .outLink
  | .outLink => .inLink

/-- `struct t_link`, a link of a node. -/
structure Link where
  node : Nat
  type : LinkType
  linkid : Nat
deriving DecidableEq, Repr

/-- The input or the output links of a node. -/
structure LinkPool where
  node : Nat
  type : LinkType
deriving DecidableEq, Repr

def Link.pool (link : Link) : LinkPool := ⟨link.node, link.type⟩

/-- The fields of a thread that refer to links. -/
inductive LinkRole
  | localLink | localHdLink | partnerLink | partnerHdLink
deriving DecidableEq, Repr

/-- The fields of the nodes and threads that `links.c` works on: `free_in_links`,
`busy_out_links` and so on are the two queues of the ledger at a pool, `th_for_in` and
`th_for_out` are `thFor`, `local_link` and so on are the slots of the ledger, and
`linkThread` is `link->thread`. -/
structure LinkState where
  infiniteNetLinks : Nat → Bool
  halfDuplexLinks : Nat → Bool
  ledger : Ledger LinkPool Link (Nat × LinkRole)
  thFor : LinkPool → List Nat
  partnerNode : Nat → Option Nat
  linkThread : Link → Option Nat

/-- The links that `NODE_Fill_Node_Fields` creates: a node without links in one direction has
those of the other one in both. -/
def nodeLinks (noInput noOutput : Nat → Nat) (p : LinkPool) : List Link :=
  let count :=
    if noInput p.node = 0 ∨ noOutput p.node = 0 then max (noInput p.node) (noOutput p.node)
    else
      match p.type with
      | .inLink => noInput p.node
      | .outLink => noOutput p.node
  (List.range count).map fun j => ⟨p.node, p.type, j + 1⟩

namespace LinkState

/-- `NODE_Fill_Node_Fields` for every node of the machine. -/
def init (noInput noOutput : Nat → Nat) : LinkState where
  infiniteNetLinks n := noInput n = 0 && noOutput n = 0
  halfDuplexLinks n := noInput n = 0 || noOutput n = 0
  ledger := ⟨nodeLinks noInput noOutput, fun _ => [], fun _ => none⟩
  thFor _ := []
  partnerNode _ := none
  linkThread _ := none

variable (s : LinkState)

def setPartnerNode (thread : Nat) (node : Option Nat) : LinkState :=
  { s with partnerNode := Function.update s.partnerNode thread node }

/-- `outFIFO_queue` of the free links of the pool and `inFIFO_queue` to its busy ones. Only
the link of a sender's own node refers to the thread. -/
def takeLink (p : LinkPool) (thread : Nat) (role : LinkRole) : Option LinkState := do
  let link ← (s.ledger.free p).head?
  let ledger ← s.ledger.acquire p (thread, role)
  some { s with
    ledger := ledger
    linkThread := Function.update s.linkThread link
      (if role = .localLink then some thread else none) }

def linkBusy (thread node : Nat) (inOut : LinkType) : LinkState :=
  { s with thFor := Function.update s.thFor ⟨node, inOut⟩ (s.thFor ⟨node, inOut⟩ ++ [thread]) }

def linkBusyPrimer (thread node : Nat) (inOut : LinkType) : LinkState :=
  { s with thFor := Function.update s.thFor ⟨node, inOut⟩ (thread :: s.thFor ⟨node, inOut⟩) }

/-- `extract_from_queue(&(node->th_for_in), …)`. -/
def extractWaiting (thread node : Nat) : LinkState :=
  { s with
    thFor := Function.update s.thFor ⟨node, .inLink⟩ ((s.thFor ⟨node, .inLink⟩).erase thread) }

/-- The fields that change when the output link of `candidat` is stolen. As an input link it
serves as the half duplex partner of the link that was that of `candidat`. -/
def stealLink (link : Link) (candidat thread : Nat) (inOut : LinkType) : LinkState :=
  match inOut with
  | .outLink => { s with
      linkThread := Function.update s.linkThread link (some thread)
      ledger := (s.ledger.transfer (candidat, .localLink) (thread, .localLink)).transfer
        (candidat, .localHdLink) (thread, .localHdLink) }
  | .inLink => { s with
      linkThread := Function.update s.linkThread link none
      ledger := (s.ledger.transfer (candidat, .localLink) (thread, .partnerHdLink)).transfer
        (candidat, .localHdLink) (thread, .partnerLink) }

/-- The first busy output link of the node that is the own link of a communication without
an input link. -/
def candidate (node : Nat) : Option (Link × Nat) :=
  (s.ledger.busy ⟨node, .outLink⟩).findSome? fun link => do
    let candidat ← s.linkThread link
    if s.ledger.slot (candidat, .localLink) = some link ∧
        s.ledger.slot (candidat, .partnerLink) = none then
      some (link, candidat)
    else none

end LinkState

/-- `roba_out_link`. The queue of a null `partner_node` and a failed assertion both end the
program. -/
def robaOutLink (s : LinkState) (thread node : Nat) (inOut : LinkType) (testOnly : Bool) :
    Option (Bool × LinkState) :=
  if inOut = .inLink ∧ !s.halfDuplexLinks node then some (false, s)
  else
    match s.candidate node with
    | none => some (false, s)
    | some (link, candidat) => do
        let partner ← s.partnerNode candidat
        if candidat ∉ s.thFor ⟨partner, .inLink⟩ then none
        else if testOnly then some (true, s)
        else
          let s := (s.extractWaiting candidat partner).stealLink link candidat thread inOut
          some (true, s.linkBusyPrimer candidat node .outLink)

/-- How the first half of `LINKS_get_network_links` ends: it returns FALSE, or it goes on
with the value of `out_link_robable`. -/
inductive OutPhase
  | busy (s : LinkState)
  | goOn (s : LinkState) (outLinkRobable : Bool)

/-- The output link in `LINKS_get_network_links`. -/
def getOutLink (s : LinkState) (thread node : Nat) : Option OutPhase :=
  if s.infiniteNetLinks node then some (.goOn s false)
  else
    match s.ledger.slot (thread, .localLink), s.ledger.free ⟨node, .outLink⟩ with
    | some _, _ => some (.goOn s false)
    | none, [] => do
        let (outLinkRobable, s) ← robaOutLink s thread node .outLink true
        if outLinkRobable then some (.goOn s true)
        else some (.busy (s.linkBusy thread node .outLink))
    | none, _ :: _ => do
        let s ← s.takeLink ⟨node, .outLink⟩ thread .localLink
        if s.halfDuplexLinks node then
          let s ← s.takeLink ⟨node, .inLink⟩ thread .localHdLink
          some (.goOn s false)
        else some (.goOn s false)

/-- `roba_out_link` where it was found before that there is a link to steal. -/
def robaAssert (s : LinkState) (thread node : Nat) (inOut : LinkType) : Option LinkState := do
  let (linkRobat, s) ← robaOutLink s thread node inOut false
  if linkRobat then some s else none

/-- The steal of an output link that was put off. -/
def robaOutIfRobable (s : LinkState) (thread node : Nat) (outLinkRobable : Bool) :
    Option LinkState :=
  if outLinkRobable then robaAssert s thread node .outLink else some s

/-- The input link in `LINKS_get_network_links`. Nothing is done for a partner with infinite
links, whatever `outLinkRobable` is. -/
def getInLink (s : LinkState) (thread node nodePartner : Nat) (outLinkRobable : Bool) :
    Option (Bool × LinkState) :=
  if s.infiniteNetLinks nodePartner then some (true, s)
  else
    match s.ledger.slot (thread, .partnerLink), s.ledger.free ⟨nodePartner, .inLink⟩ with
    | some _, _ => (robaOutIfRobable s thread node outLinkRobable).map fun s => (true, s)
    | none, [] => do
        let (inLinkRobable, s) ← robaOutLink s thread nodePartner .inLink true
        if inLinkRobable then
          let s ← robaOutIfRobable s thread node outLinkRobable
          let s ← robaAssert s thread nodePartner .inLink
          some (true, s)
        else if outLinkRobable then some (false, s.linkBusy thread node .outLink)
        else some (false, s.linkBusy thread nodePartner .inLink)
    | none, _ :: _ => do
        let s ← robaOutIfRobable s thread node outLinkRobable
        let s ← s.takeLink ⟨nodePartner, .inLink⟩ thread .partnerLink
        if s.halfDuplexLinks nodePartner then
          let s ← s.takeLink ⟨nodePartner, .outLink⟩ thread .partnerHdLink
          some (true, s)
        else some (true, s)

def getNetworkLinks (s : LinkState) (thread node nodePartner : Nat) :
    Option (Bool × LinkState) :=
  if node = nodePartner then some (true, s)
  else do
    match ← getOutLink (s.setPartnerNode thread (some nodePartner)) thread node with
    | .busy s => some (false, s)
    | .goOn s outLinkRobable =>
        let (granted, s) ← getInLink s thread node nodePartner outLinkRobable
        if granted then some (true, s.setPartnerNode thread none) else some (false, s)

/-! ## Putting links back -/

section

variable {ρ : Type}

/-- `outFIFO_queue` of the threads that wait at the pool, and the call of `really_send` (or
`really_RMA`) for the first one. -/
def wakeFirst (reallySend : LinkState × ρ → Nat → Option (LinkState × ρ)) (s : LinkState × ρ)
    (p : LinkPool) : Option (LinkState × ρ) :=
  match s.1.thFor p with
  | [] => some s
  | first :: rest =>
      reallySend ({ s.1 with thFor := Function.update s.1.thFor p rest }, s.2) first

/-- The half duplex partner of a link that a thread frees. -/
def LinkType.hdRole : LinkType → LinkRole
  | .inLink => .partnerHdLink
  | .outLink => .localHdLink

/-- `inFIFO_queue` to the free links of the pool and `extract_from_queue` from its busy ones,
which ends the program if the link is not there. -/
def LinkState.putBack (s : LinkState) (p : LinkPool) (link : Link) : Option LinkState :=
  if link ∈ s.ledger.busy p then some { s with ledger := s.ledger.putBack p link } else none

/-- A link goes back to the free ones of its node together with its half duplex partner. -/
def putBackLinks (s : LinkState) (link : Link) (thread : Nat) : Option LinkState := do
  let s ← s.putBack link.pool link
  if s.halfDuplexLinks link.node then
    let hdLink ← s.ledger.slot (thread, link.type.hdRole)
    s.putBack ⟨link.node, link.type.other⟩ hdLink
  else some s

/-- `LINKS_free_network_link`, in a machine of which `ρ` is the rest. -/
def freeNetworkLink (reallySend : LinkState × ρ → Nat → Option (LinkState × ρ))
    (s : LinkState × ρ) (link : Link) (thread : Nat) : Option (LinkState × ρ) := do
  let links ← putBackLinks s.1 link thread
  if links.halfDuplexLinks link.node then
    let s ← wakeFirst reallySend (links, s.2) ⟨link.node, link.type.other⟩
    wakeFirst reallySend s link.pool
  else wakeFirst reallySend (links, s.2) link.pool

def freeThreadLink (reallySend : LinkState × ρ → Nat → Option (LinkState × ρ))
    (s : LinkState × ρ) (thread : Nat) (role : LinkRole) : Option (LinkState × ρ) :=
  match s.1.ledger.slot (thread, role) with
  | none => some s
  | some link => freeNetworkLink reallySend s link thread

end

end Dimemas.Model.Links
