import Dimemas.Model.Buses
import Dimemas.Model.LinkSteps
/-!
# Transfers of one-sided operations on the network

`really_RMA` takes the links and buses of a machine as the messages between its nodes do.
`COMMUNIC_internal_resources_COM_TIMER_OUT` puts those of a message back, and nothing puts back
those of a transfer.
-/

namespace Dimemas.Model.RmaNetwork

open Dimemas.Library.Reservations
open Dimemas.Model.Links Dimemas.Model.LinkOwnership Dimemas.Model.Buses

abbrev TaskId := Nat

/-- The nodes of the tasks and of the machine. -/
structure Platform where
  nodeOf : TaskId → Nat
  noInput : Nat → Nat
  noOutput : Nat → Nat
  numMessagesOnNetwork : Nat
  policy : CommunicPolicy

/-- A copy of a thread that transfers, made when the thread had left a number of fences, or a
message between two nodes. -/
inductive Comm
  | rma (thread target : TaskId) (fences : Nat)
  | message (node nodePartner : Nat)

/-- The communications made so far, the buses and their queue, the communications of which an event
is to come, and the transfers of which it came. -/
structure Traffic where
  comms : List Comm
  currOnNetwork : Nat
  threadsOnNetwork : List Nat
  queue : List Nat
  running : List Nat
  completed : List Nat

abbrev Network := LinkState × Traffic

variable (p : Platform)

def Network.initial : Network := (.init p.noInput p.noOutput, ⟨[], 0, [], [], [], []⟩)

def nodeOfComm : Option Comm → Nat
  | some (.rma thread _ _) => p.nodeOf thread
  | some (.message node _) => node
  | none => 0

def nodePartnerOfComm : Option Comm → Nat
  | some (.rma _ target _) => p.nodeOf target
  | some (.message _ nodePartner) => nodePartner
  | none => 0

def ends (comms : List Comm) : Ends :=
  ⟨fun i => nodeOfComm p comms[i]?, fun i => nodePartnerOfComm p comms[i]?⟩

/-- Whether a communication is between two nodes. -/
def Remote (comms : List Comm) (i : Nat) : Prop :=
  (ends p comms).node i ≠ (ends p comms).nodePartner i

instance (comms : List Comm) (i : Nat) : Decidable (Remote p comms i) :=
  inferInstanceAs (Decidable (_ ≠ _))

/-- What is done once there are links. A communication that takes no bus is under way. -/
def getBus (b : Traffic) (i : Nat) (bus : Bool) : Traffic :=
  if bus ∧ p.numMessagesOnNetwork ≠ 0 then
    if p.policy = .fifo ∧ p.numMessagesOnNetwork ≤ b.currOnNetwork then
      { b with queue := b.queue ++ [i] }
    else
      { b with
        currOnNetwork := b.currOnNetwork + 1
        threadsOnNetwork := b.threadsOnNetwork ++ [i]
        running := b.running ++ [i] }
  else { b with running := b.running ++ [i] }

def reallyTransfer (x : Network) (i : Nat) (bus : Bool) : Option Network :=
  let e := ends p x.2.comms
  (getNetworkLinks x.1 i (e.node i) (e.nodePartner i)).map fun (granted, links) =>
    (links, if granted then getBus p x.2 i bus else x.2)

def reallyRMA (x : Network) (i : Nat) : Option Network :=
  reallyTransfer p x i (decide (Remote p x.2.comms i))

/-- `really_send_internal_network`. -/
def reallySend (x : Network) (i : Nat) : Option Network := reallyTransfer p x i true

def wakeUp (x : Network) (i : Nat) : Option Network :=
  match x.2.comms[i]? with
  | some (.rma ..) => reallyRMA p x i
  | some (.message ..) => reallySend p x i
  | none => none

/-- The bus of a message that has left the network, which panics if it has none. -/
def leaveBus (b : Traffic) (i : Nat) : Option Traffic :=
  if p.numMessagesOnNetwork = 0 then some b
  else if i ∈ b.threadsOnNetwork then
    some { b with threadsOnNetwork := b.threadsOnNetwork.erase i }
  else none

def wakeBusWaiter (x : Network) : Option Network :=
  if p.numMessagesOnNetwork = 0 then some x
  else
    match x.2.queue with
    | [] => some x
    | first :: rest => wakeUp p (x.1, { x.2 with queue := rest }) first

/-- `COMMUNIC_internal_resources_COM_TIMER_OUT`. -/
def internalResources (x : Network) (i : Nat) : Option Network :=
  (leaveBus p x.2 i).bind fun b =>
    (freeThreadLink (wakeUp p) (x.1, b) i .localLink).bind fun x =>
      (freeThreadLink (wakeUp p) x i .partnerLink).bind fun x =>
        wakeBusWaiter p (x.1, { x.2 with currOnNetwork := x.2.currOnNetwork - 1 })

def addComm (x : Network) (c : Comm) : Network := (x.1, { x.2 with comms := x.2.comms ++ [c] })

def takeEvent (x : Network) (i : Nat) : Network :=
  (x.1, { x.2 with running := x.2.running.erase i })

def complete (x : Network) (i : Nat) : Network :=
  (x.1, { x.2 with
    running := x.2.running.erase i
    completed := x.2.completed ++ [i] })

/-- A communication holds a bus, or one of its fields refers to a busy link. -/
def Holds (x : Network) (i : Nat) : Prop :=
  i ∈ x.2.threadsOnNetwork ∨
    ∃ role link, x.1.ledger.slot (i, role) = some link ∧ link ∈ x.1.ledger.busy link.pool

/-- There is nothing to take for a transfer within a node. Between nodes it is so if the buses are
not limited and the partner has infinite links, and the node has infinite links or gave none. -/
def NothingToTake (x : Network) (i : Nat) : Prop :=
  ¬ Remote p x.2.comms i ∨
    (p.numMessagesOnNetwork = 0 ∧
      x.1.infiniteNetLinks ((ends p x.2.comms).nodePartner i) = true ∧
      (x.1.infiniteNetLinks ((ends p x.2.comms).node i) = true ∨
        x.1.ledger.slot (i, .localLink) = none))

instance (x : Network) (i : Nat) : Decidable (NothingToTake p x i) :=
  inferInstanceAs (Decidable (_ ∨ _))

/-! ## What holds between the calls -/

/-- The lists that have the communications that were granted their links. -/
def Listed (b : Traffic) (i : Nat) : Prop := i ∈ b.running ∨ i ∈ b.queue ∨ i ∈ b.completed

/-- A communication that was granted its links has them, or its partner has infinite links and it
was to steal one. Between nodes it has a bus until its event, and a transfer behind it. -/
structure NetInv (ph : Nat → CommPhase) (x : Network) : Prop where
  links : LinkInv (ends p x.2.comms) (nodeLinks p.noInput p.noOutput) ph x.1
  infinite : x.1.infiniteNetLinks = (LinkState.init p.noInput p.noOutput).infiniteNetLinks
  half : x.1.halfDuplexLinks = (LinkState.init p.noInput p.noOutput).halfDuplexLinks
  made : ∀ i, ph i ≠ .idle ∨ Listed x.2 i → i < x.2.comms.length
  once : ∀ i, x.2.running.count i + x.2.queue.count i + x.2.completed.count i ≤ 1
  granted : ∀ i, Listed x.2 i → ph i = .granted true true ∨
    (ph i = .idle ∧ x.1.infiniteNetLinks ((ends p x.2.comms).nodePartner i) = true)
  bus : ∀ i, i ∈ x.2.running ∨ i ∈ x.2.completed → Remote p x.2.comms i →
    p.numMessagesOnNetwork ≠ 0 → i ∈ x.2.threadsOnNetwork
  onNetwork : ∀ i ∈ x.2.threadsOnNetwork, p.numMessagesOnNetwork ≠ 0 ∧ Remote p x.2.comms i ∧
    (i ∈ x.2.running ∨ i ∈ x.2.completed)
  threadsOnce : x.2.threadsOnNetwork.Nodup
  messages : ∀ (i n n' : Nat), x.2.comms[i]? = some (.message n n') → n ≠ n'

variable {p} {ph ph' : Nat → CommPhase} {x x' : Network} {i j : Nat} {bus : Bool} {c : Comm}

theorem NetInv.not_waiting (h : NetInv p ph x) (hi : Listed x.2 i) : ¬ (ph i).Waiting := by
  rintro (hwait | hwait)
  · rcases h.granted i hi with hph | ⟨hph, -⟩
    · rw [hph] at hwait
      cases hwait
    · rw [hph] at hwait
      cases hwait
  · rcases h.granted i hi with hph | ⟨hph, -⟩
    · rw [hph] at hwait
      cases hwait
    · rw [hph] at hwait
      cases hwait

theorem NetInv.not_onNetwork (h : NetInv p ph x) (hi : ¬ Listed x.2 i) :
    i ∉ x.2.threadsOnNetwork := by
  intro hin
  rcases (h.onNetwork i hin).2.2 with hrun | hdone
  · exact hi (Or.inl hrun)
  · exact hi (Or.inr (Or.inr hdone))

theorem netInv_initial : NetInv p (fun _ => .idle) (Network.initial p) where
  links := linkInv_init (ends p []) p.noInput p.noOutput
  infinite := rfl
  half := rfl
  made i hi := by
    rcases hi with hph | hrun | hqueue | hdone
    · exact absurd rfl hph
    · exact absurd hrun List.not_mem_nil
    · exact absurd hqueue List.not_mem_nil
    · exact absurd hdone List.not_mem_nil
  once i := Nat.zero_le 1
  granted i hi := by
    rcases hi with hrun | hqueue | hdone
    · exact absurd hrun List.not_mem_nil
    · exact absurd hqueue List.not_mem_nil
    · exact absurd hdone List.not_mem_nil
  bus i hi := by
    rcases hi with hrun | hdone
    · exact absurd hrun List.not_mem_nil
    · exact absurd hdone List.not_mem_nil
  onNetwork i hi := absurd hi List.not_mem_nil
  threadsOnce := List.nodup_nil
  messages i n n' hi := by cases hi

theorem linkInv_ends {e e' : Ends} {all : LinkPool → List Link} {s : LinkState}
    (h : LinkInv e all ph s)
    (hends : ∀ i, ph i ≠ .idle → e'.node i = e.node i ∧ e'.nodePartner i = e.nodePartner i) :
    LinkInv e' all ph s := by
  have hpool : ∀ i, ph i ≠ .idle → ∀ r, e'.pool (i, r) = e.pool (i, r) := by
    intro i hi r
    obtain ⟨hnode, hpartner⟩ := hends i hi
    cases r with
    | localLink => rw [Ends.pool, Ends.pool, hnode]
    | localHdLink => rw [Ends.pool, Ends.pool, hnode]
    | partnerLink => rw [Ends.pool, Ends.pool, hpartner]
    | partnerHdLink => rw [Ends.pool, Ends.pool, hpartner]
  have hhold : e'.hold s ph = e.hold s ph := by
    funext k
    obtain ⟨i, r⟩ := k
    by_cases hi : ph i = .idle
    · have hnone : CommPhase.idle.hold r = .empty := by cases r <;> rfl
      rw [Ends.hold, Ends.hold, hi, hnone, ite_self, ite_self]
    · rw [Ends.hold, Ends.hold, Ends.uses, Ends.uses, hpool i hi r, (hends i hi).1, (hends i hi).2]
  have howned : ∀ k, e.hold s ph k = .owned → e'.pool k = e.pool k := by
    rintro ⟨i, r⟩ hk
    apply hpool i _ r
    intro hi
    rw [Ends.hold, hi] at hk
    have hnone : CommPhase.idle.hold r = .empty := by cases r <;> rfl
    rw [hnone, ite_self] at hk
    cases hk
  refine ⟨h.pools, ⟨?_, ?_⟩, h.paired, fun i q => ?_, h.nodup, fun i hi => ?_⟩
  · rw [hhold]
    obtain ⟨hitems, hnodup, hempty, hbusy, hunique, hcovered, hstale⟩ := h.consistent
    refine ⟨hitems, hnodup, hempty, fun k hk => ?_, fun k k' hk hk' hplace => ?_,
      fun q l hl => ?_, hstale⟩
    · rw [howned k hk]
      exact hbusy k hk
    · rw [howned k hk, howned k' hk'] at hplace
      exact hunique k k' hk hk' hplace
    · obtain ⟨k, hk, hplace, hslot⟩ := hcovered q l hl
      exact ⟨k, hk, (howned k hk).trans hplace, hslot⟩
  · rw [hhold]
    exact h.sound.owners
  · rw [h.queued i q]
    by_cases hi : ph i = .idle
    · rw [hi]
      constructor
      · rintro (⟨hph, -⟩ | ⟨hph, -⟩) <;> cases hph
      · rintro (⟨hph, -⟩ | ⟨hph, -⟩) <;> cases hph
    · rw [(hends i hi).1, (hends i hi).2]
  · rw [h.partner i hi, (hends i (by rw [hi]; exact CommPhase.noConfusion)).2]

theorem ends_append (hi : i < x.2.comms.length) :
    (ends p (x.2.comms ++ [c])).node i = (ends p x.2.comms).node i ∧
      (ends p (x.2.comms ++ [c])).nodePartner i = (ends p x.2.comms).nodePartner i := by
  have hsame : (x.2.comms ++ [c])[i]? = x.2.comms[i]? := List.getElem?_append_left hi
  exact ⟨congrArg (nodeOfComm p) hsame, congrArg (nodePartnerOfComm p) hsame⟩

theorem remote_append (hi : i < x.2.comms.length) :
    Remote p (x.2.comms ++ [c]) i ↔ Remote p x.2.comms i := by
  rw [Remote, Remote, (ends_append hi).1, (ends_append hi).2]

theorem NetInv.addComm (h : NetInv p ph x) (hc : ∀ n n', c = .message n n' → n ≠ n') :
    NetInv p ph (addComm x c) where
  links := linkInv_ends h.links fun i hi => ends_append (h.made i (Or.inl hi))
  infinite := h.infinite
  half := h.half
  made i hi := by
    show i < (x.2.comms ++ [c]).length
    rw [List.length_append]
    exact Nat.lt_add_right _ (h.made i hi)
  once := h.once
  granted i hi := by
    rw [RmaNetwork.addComm, (ends_append (h.made i (Or.inr hi))).2]
    exact h.granted i hi
  bus i hi hremote := by
    have hlisted : Listed x.2 i := hi.imp id Or.inr
    exact h.bus i hi ((remote_append (h.made i (Or.inr hlisted))).mp hremote)
  onNetwork i hi := by
    obtain ⟨hnum, hremote, hlist⟩ := h.onNetwork i hi
    have hlisted : Listed x.2 i := hlist.imp id Or.inr
    exact ⟨hnum, (remote_append (h.made i (Or.inr hlisted))).mpr hremote, hlist⟩
  threadsOnce := h.threadsOnce
  messages i n n' hi := by
    have hi' : (x.2.comms ++ [c])[i]? = some (.message n n') := hi
    by_cases hlt : i < x.2.comms.length
    · rw [List.getElem?_append_left hlt] at hi'
      exact h.messages i n n' hi'
    · rw [List.getElem?_append_right (Nat.le_of_not_lt hlt)] at hi'
      apply hc n n'
      exact List.mem_singleton.mp (List.mem_of_getElem? hi') |>.symm

/-! ## Calls -/

theorem NetInv.call {links : LinkState} (h : NetInv p ph x) (hmade : i < x.2.comms.length)
    (hout : ¬ Listed x.2 i)
    (hlinks : LinkInv (ends p x.2.comms) (nodeLinks p.noInput p.noOutput) ph' links)
    (hinfinite : links.infiniteNetLinks = x.1.infiniteNetLinks)
    (hhalf : links.halfDuplexLinks = x.1.halfDuplexLinks) (hothers : OthersKept ph ph' i) :
    NetInv p ph' (links, x.2) where
  links := hlinks
  infinite := hinfinite.trans h.infinite
  half := hhalf.trans h.half
  made j hj := by
    rcases hj with hph | hlisted
    · by_cases hij : j = i
      · exact hij ▸ hmade
      · rcases hothers j hij with heq | ⟨hin, -⟩
        · exact h.made j (Or.inl (heq ▸ hph))
        · apply h.made j (Or.inl _)
          rw [hin]
          exact CommPhase.noConfusion
    · exact h.made j (Or.inr hlisted)
  once := h.once
  granted j hj := by
    have hij : j ≠ i := fun heq => hout (heq ▸ hj)
    rw [hinfinite]
    rcases hothers j hij with heq | ⟨hin, -⟩
    · rw [heq]
      exact h.granted j hj
    · exact absurd (Or.inr hin) (h.not_waiting hj)
  bus := h.bus
  onNetwork := h.onNetwork
  threadsOnce := h.threadsOnce
  messages := h.messages

theorem count_concat (l : List Nat) (i j : Nat) :
    (l ++ [i]).count j = l.count j + if i = j then 1 else 0 := by
  rw [List.count_append, List.count_singleton]
  by_cases hij : i = j
  · rw [if_pos hij, if_pos (beq_iff_eq.mpr hij)]
  · rw [if_neg hij, if_neg fun h => hij (beq_iff_eq.mp h)]

theorem count_of_not_listed {b : Traffic} (h : ¬ Listed b i) :
    b.running.count i = 0 ∧ b.queue.count i = 0 ∧ b.completed.count i = 0 := by
  refine ⟨List.count_eq_zero.mpr ?_, List.count_eq_zero.mpr ?_, List.count_eq_zero.mpr ?_⟩
  · exact fun hin => h (Or.inl hin)
  · exact fun hin => h (Or.inr (Or.inl hin))
  · exact fun hin => h (Or.inr (Or.inr hin))

theorem NetInv.enqueue (h : NetInv p ph x) (hmade : i < x.2.comms.length) (hout : ¬ Listed x.2 i)
    (hph : ph i = .granted true true ∨
      (ph i = .idle ∧ x.1.infiniteNetLinks ((ends p x.2.comms).nodePartner i) = true)) :
    NetInv p ph (x.1, { x.2 with queue := x.2.queue ++ [i] }) := by
  have hlisted (j : Nat) (hj : Listed { x.2 with queue := x.2.queue ++ [i] } j) :
      j = i ∨ Listed x.2 j := by
    rcases hj with hrun | hqueue | hdone
    · exact Or.inr (Or.inl hrun)
    · rcases List.mem_append.mp hqueue with hold | hnew
      · exact Or.inr (Or.inr (Or.inl hold))
      · exact Or.inl (List.mem_singleton.mp hnew)
    · exact Or.inr (Or.inr (Or.inr hdone))
  refine ⟨h.links, h.infinite, h.half, ?_, ?_, ?_, h.bus, h.onNetwork, h.threadsOnce, h.messages⟩
  · intro j hj
    rcases hj with hphase | hj
    · exact h.made j (Or.inl hphase)
    · rcases hlisted j hj with heq | hold
      · exact heq ▸ hmade
      · exact h.made j (Or.inr hold)
  · intro j
    have honce := h.once j
    show x.2.running.count j + (x.2.queue ++ [i]).count j + x.2.completed.count j ≤ 1
    rw [count_concat]
    split
    · next hij =>
        obtain ⟨hrun, hqueue, hdone⟩ := count_of_not_listed hout
        rw [← hij, hrun, hqueue, hdone]
    · omega
  · intro j hj
    rcases hlisted j hj with heq | hold
    · exact heq ▸ hph
    · exact h.granted j hold

/-- A communication goes on, with a bus if it is between nodes and these are limited. -/
theorem NetInv.start {threads : List Nat} (curr : Nat) (h : NetInv p ph x)
    (hmade : i < x.2.comms.length) (hout : ¬ Listed x.2 i)
    (hph : ph i = .granted true true ∨
      (ph i = .idle ∧ x.1.infiniteNetLinks ((ends p x.2.comms).nodePartner i) = true))
    (hthreads : (p.numMessagesOnNetwork ≠ 0 ∧ Remote p x.2.comms i ∧
        threads = x.2.threadsOnNetwork ++ [i]) ∨
      (¬ (p.numMessagesOnNetwork ≠ 0 ∧ Remote p x.2.comms i) ∧ threads = x.2.threadsOnNetwork)) :
    NetInv p ph (x.1, { x.2 with
      currOnNetwork := curr
      threadsOnNetwork := threads
      running := x.2.running ++ [i] }) := by
  have hlisted (j : Nat) (hj : Listed { x.2 with
      currOnNetwork := curr
      threadsOnNetwork := threads
      running := x.2.running ++ [i] } j) : j = i ∨ Listed x.2 j := by
    rcases hj with hrun | hqueue | hdone
    · rcases List.mem_append.mp hrun with hold | hnew
      · exact Or.inr (Or.inl hold)
      · exact Or.inl (List.mem_singleton.mp hnew)
    · exact Or.inr (Or.inr (Or.inl hqueue))
    · exact Or.inr (Or.inr (Or.inr hdone))
  have hfresh : i ∉ x.2.threadsOnNetwork := h.not_onNetwork hout
  have hsub (j : Nat) (hj : j ∈ x.2.threadsOnNetwork) : j ∈ threads := by
    rcases hthreads with ⟨-, -, heq⟩ | ⟨-, heq⟩
    · rw [heq]
      exact List.mem_append_left _ hj
    · exact heq ▸ hj
  have hmem (j : Nat) (hj : j ∈ threads) :
      (j = i ∧ p.numMessagesOnNetwork ≠ 0 ∧ Remote p x.2.comms i) ∨
        j ∈ x.2.threadsOnNetwork := by
    rcases hthreads with ⟨hnum, hremote, heq⟩ | ⟨-, heq⟩
    · rw [heq] at hj
      rcases List.mem_append.mp hj with hold | hnew
      · exact Or.inr hold
      · exact Or.inl ⟨List.mem_singleton.mp hnew, hnum, hremote⟩
    · exact Or.inr (heq ▸ hj)
  refine ⟨h.links, h.infinite, h.half, ?_, ?_, ?_, ?_, ?_, ?_, h.messages⟩
  · intro j hj
    rcases hj with hphase | hj
    · exact h.made j (Or.inl hphase)
    · rcases hlisted j hj with heq | hold
      · exact heq ▸ hmade
      · exact h.made j (Or.inr hold)
  · intro j
    have honce := h.once j
    show (x.2.running ++ [i]).count j + x.2.queue.count j + x.2.completed.count j ≤ 1
    rw [count_concat]
    split
    · next hij =>
        obtain ⟨hrun, hqueue, hdone⟩ := count_of_not_listed hout
        rw [← hij, hrun, hqueue, hdone]
    · omega
  · intro j hj
    rcases hlisted j hj with heq | hold
    · exact heq ▸ hph
    · exact h.granted j hold
  · intro j hj hremote hnum
    show j ∈ threads
    have hremote' : Remote p x.2.comms j := hremote
    rcases hj with hrun | hdone
    · rcases List.mem_append.mp hrun with hold | hnew
      · exact hsub j (h.bus j (Or.inl hold) hremote hnum)
      · rw [List.mem_singleton.mp hnew] at hremote' ⊢
        rcases hthreads with ⟨-, -, heq⟩ | ⟨hnot, -⟩
        · rw [heq]
          exact List.mem_append_right _ (List.mem_singleton_self i)
        · exact absurd ⟨hnum, hremote'⟩ hnot
    · exact hsub j (h.bus j (Or.inr hdone) hremote hnum)
  · intro j hj
    rcases hmem j hj with ⟨heq, hnum, hremote⟩ | hold
    · rw [heq]
      exact ⟨hnum, hremote, Or.inl (List.mem_append_right _ (List.mem_singleton_self i))⟩
    · obtain ⟨hnum, hremote, hlist⟩ := h.onNetwork j hold
      exact ⟨hnum, hremote, hlist.imp (List.mem_append_left _) id⟩
  · show threads.Nodup
    rcases hthreads with ⟨-, -, heq⟩ | ⟨-, heq⟩
    · rw [heq, List.nodup_append_comm]
      exact List.nodup_cons.mpr ⟨hfresh, h.threadsOnce⟩
    · rw [heq]
      exact h.threadsOnce

theorem NetInv.getBus (h : NetInv p ph x) (hmade : i < x.2.comms.length) (hout : ¬ Listed x.2 i)
    (hph : ph i = .granted true true ∨
      (ph i = .idle ∧ x.1.infiniteNetLinks ((ends p x.2.comms).nodePartner i) = true))
    (hbus : bus = true ↔ Remote p x.2.comms i) :
    NetInv p ph (x.1, getBus p x.2 i bus) := by
  unfold RmaNetwork.getBus
  split
  · next hlimit =>
      split
      · exact h.enqueue hmade hout hph
      · exact h.start _ hmade hout hph (Or.inl ⟨hlimit.2, hbus.mp hlimit.1, rfl⟩)
  · next hlimit =>
      apply h.start x.2.currOnNetwork hmade hout hph (Or.inr ⟨_, rfl⟩)
      exact fun hboth => hlimit ⟨hbus.mpr hboth.2, hboth.1⟩

/-- What a call for a communication leaves as it is. -/
structure Kept (x x' : Network) (ph ph' : Nat → CommPhase) (i : Nat) : Prop where
  comms : x'.2.comms = x.2.comms
  completed : x'.2.completed = x.2.completed
  phases : ∀ j, j ≠ i → ¬ (ph j).Waiting → ph' j = ph j
  running : ∀ j, j ≠ i → (j ∈ x'.2.running ↔ j ∈ x.2.running)
  queue : ∀ j, j ≠ i → (j ∈ x'.2.queue ↔ j ∈ x.2.queue)

theorem comms_getBus (b : Traffic) : (getBus p b i bus).comms = b.comms := by
  unfold getBus
  split
  · split <;> rfl
  · rfl

theorem completed_getBus (b : Traffic) : (getBus p b i bus).completed = b.completed := by
  unfold getBus
  split
  · split <;> rfl
  · rfl

theorem mem_concat_of_ne {l : List Nat} (hj : j ≠ i) : j ∈ l ++ [i] ↔ j ∈ l := by
  rw [List.mem_append, List.mem_singleton]
  exact or_iff_left hj

theorem running_getBus (b : Traffic) (hj : j ≠ i) :
    j ∈ (getBus p b i bus).running ↔ j ∈ b.running := by
  unfold getBus
  split
  · split
    · exact Iff.rfl
    · exact mem_concat_of_ne hj
  · exact mem_concat_of_ne hj

theorem queue_getBus (b : Traffic) (hj : j ≠ i) :
    j ∈ (getBus p b i bus).queue ↔ j ∈ b.queue := by
  unfold getBus
  split
  · split
    · exact mem_concat_of_ne hj
    · exact Iff.rfl
  · exact Iff.rfl

/-- `LINKS_get_network_links`, and a bus for a communication that has its links. -/
theorem NetInv.reallyTransfer (h : NetInv p ph x) (hmade : i < x.2.comms.length)
    (hout : ¬ Listed x.2 i) (hready : (ph i).Ready) (hbus : bus = true ↔ Remote p x.2.comms i)
    (hcall : reallyTransfer p x i bus = some x') :
    ∃ ph', NetInv p ph' x' ∧ Kept x x' ph ph' i := by
  obtain ⟨⟨granted, links⟩, hget, heq⟩ := Option.map_eq_some_iff.mp hcall
  obtain ⟨hinfinite, hcases⟩ := h.links.getNetworkLinks_cases hready hget
  have hhalf := LinkSteps.half_getNetworkLinks hget
  rw [← heq]
  rcases hcases with ⟨hsteals, hgranted, hidle, hlinks⟩ | ⟨ph', hlinks, hafter, hothers, -⟩
  · have hnet := h.call hmade hout hlinks hinfinite hhalf fun j _ => Or.inl rfl
    refine ⟨ph, ?_, ?_, ?_, fun j _ _ => rfl, fun j hj => ?_, fun j hj => ?_⟩
    · simp only [hgranted, if_true]
      apply hnet.getBus hmade hout _ hbus
      right
      refine ⟨hidle, ?_⟩
      rw [hinfinite]
      exact hsteals.2.2
    · simp only [hgranted, if_true]
      exact comms_getBus x.2
    · simp only [hgranted, if_true]
      exact completed_getBus x.2
    · simp only [hgranted, if_true]
      exact running_getBus x.2 hj
    · simp only [hgranted, if_true]
      exact queue_getBus x.2 hj
  · have hnet := h.call hmade hout hlinks hinfinite hhalf hothers
    have hphases (j : Nat) (hj : j ≠ i) (hwait : ¬ (ph j).Waiting) : ph' j = ph j := by
      rcases hothers j hj with hsame | ⟨hin, -⟩
      · exact hsame
      · exact absurd (Or.inr hin) hwait
    refine ⟨ph', ?_⟩
    cases granted with
    | true =>
        exact ⟨hnet.getBus hmade hout (Or.inl hafter) hbus, comms_getBus x.2, completed_getBus x.2,
          hphases, fun j hj => running_getBus x.2 hj, fun j hj => queue_getBus x.2 hj⟩
    | false =>
        exact ⟨hnet, rfl, rfl, hphases, fun j _ => Iff.rfl, fun j _ => Iff.rfl⟩

theorem NetInv.wakeUp (h : NetInv p ph x) (hmade : i < x.2.comms.length)
    (hout : ¬ Listed x.2 i) (hready : (ph i).Ready) (hcall : wakeUp p x i = some x') :
    ∃ ph', NetInv p ph' x' ∧ Kept x x' ph ph' i := by
  unfold RmaNetwork.wakeUp at hcall
  split at hcall
  · exact h.reallyTransfer hmade hout hready decide_eq_true_iff hcall
  · next n n' hcomm =>
      apply h.reallyTransfer hmade hout hready _ hcall
      have hremote : Remote p x.2.comms i := by
        show nodeOfComm p x.2.comms[i]? ≠ nodePartnerOfComm p x.2.comms[i]?
        rw [hcomm]
        exact h.messages i n n' hcomm
      exact ⟨fun _ => hremote, fun _ => rfl⟩
  · cases hcall

/-- The first thread that waits for a link is woken up. -/
theorem NetInv.wake {q : LinkPool} {rest : List Nat} (h : NetInv p ph x)
    (hthFor : x.1.thFor q = i :: rest)
    (hcall : RmaNetwork.wakeUp p
      ({ x.1 with thFor := Function.update x.1.thFor q rest }, x.2) i = some x') :
    ∃ ph', NetInv p ph' x' ∧ Kept x x' ph ph' i ∧ (ph i).Waiting := by
  have hin : i ∈ x.1.thFor q := by
    rw [hthFor]
    exact List.mem_cons_self
  have hwaiting := h.links.waiting hin
  have hmade : i < x.2.comms.length := by
    apply h.made i (Or.inl _)
    intro hidle
    rw [hidle] at hwaiting
    rcases hwaiting with hw | hw <;> cases hw
  have hout : ¬ Listed x.2 i := fun hlisted => h.not_waiting hlisted hwaiting
  have hothers := othersKept_update ph (t := i) (ph i).woken
  have hnet := h.call hmade hout (h.links.wake hthFor) rfl rfl hothers
  have hready : (Function.update ph i (ph i).woken i).Ready := by
    rw [Function.update_self]
    exact hwaiting.woken.imp_right Or.inl
  obtain ⟨ph', hnet', hkept⟩ := hnet.wakeUp hmade hout hready hcall
  refine ⟨ph', hnet', ⟨hkept.comms, hkept.completed, fun j hj hwait => ?_, hkept.running,
    hkept.queue⟩, hwaiting⟩
  have hsame : Function.update ph i (ph i).woken j = ph j := Function.update_of_ne hj ..
  rw [← hsame] at hwait ⊢
  exact hkept.phases j hj hwait

/-! ## The release of a message -/

/-- The message `i` releases its links: it is in the phase `q`, or it has none. -/
def Releasing (x : Network) (ph : Nat → CommPhase) (i : Nat) (q : CommPhase) (x' : Network) :
    Prop :=
  ∃ ph', NetInv p ph' x' ∧ x'.2.comms = x.2.comms ∧ x'.2.completed = x.2.completed ∧
    (∀ j ∈ x.2.completed, ph' j = ph j) ∧ (ph' i = q ∨ ph' i = .idle) ∧ ¬ Listed x'.2 i

variable {x₀ : Network} {ph₀ : Nat → CommPhase} {q q' : CommPhase} {role : LinkRole}

theorem Releasing.wake {r : LinkPool} {first : Nat} {rest : List Nat} (hq : ¬ q.Waiting)
    (h : Releasing (p := p) x₀ ph₀ i q x) (hthFor : x.1.thFor r = first :: rest)
    (hcall : RmaNetwork.wakeUp p
      ({ x.1 with thFor := Function.update x.1.thFor r rest }, x.2) first = some x') :
    Releasing (p := p) x₀ ph₀ i q x' := by
  obtain ⟨ph, hnet, hcomms, hcompleted, hphases, hphase, hout⟩ := h
  obtain ⟨ph', hnet', hkept, hwaiting⟩ := hnet.wake hthFor hcall
  have hidle : ¬ CommPhase.idle.Waiting := by rintro (hw | hw) <;> cases hw
  have hnot : ¬ (ph i).Waiting := by
    rcases hphase with heq | heq
    · rw [heq]
      exact hq
    · rw [heq]
      exact hidle
  have hne : i ≠ first := fun heq => hnot (heq ▸ hwaiting)
  refine ⟨ph', hnet', hkept.comms.trans hcomms, hkept.completed.trans hcompleted, fun j hj => ?_,
    ?_, ?_⟩
  · have hlisted : Listed x.2 j := Or.inr (Or.inr (hcompleted ▸ hj))
    have hwait := hnet.not_waiting hlisted
    rw [hkept.phases j (fun heq => hwait (heq ▸ hwaiting)) hwait]
    exact hphases j hj
  · rw [hkept.phases i hne hnot]
    exact hphase
  · rintro (hrun | hqueue | hdone)
    · exact hout (Or.inl ((hkept.running i hne).mp hrun))
    · exact hout (Or.inr (Or.inl ((hkept.queue i hne).mp hqueue)))
    · rw [hkept.completed] at hdone
      exact hout (Or.inr (Or.inr hdone))

theorem Releasing.free (hq' : ¬ q'.Waiting)
    (h : Releasing (p := p) x₀ ph₀ i q x) (hmade : i < x.2.comms.length)
    (hunused : ∀ ph, NetInv p ph x → ph i = q → x.1.ledger.slot (i, role) = none →
      LinkInv (ends p x.2.comms) (nodeLinks p.noInput p.noOutput) (Function.update ph i q') x.1)
    (hput : ∀ ph link links, NetInv p ph x → ph i = q → x.1.ledger.slot (i, role) = some link →
      putBackLinks x.1 link i = some links →
      LinkInv (ends p x.2.comms) (nodeLinks p.noInput p.noOutput) (Function.update ph i q') links ∧
        links.infiniteNetLinks = x.1.infiniteNetLinks)
    (hfree : freeThreadLink (RmaNetwork.wakeUp p) x i role = some x') :
    Releasing (p := p) x₀ ph₀ i q' x' := by
  obtain ⟨ph, hnet, hcomms, hcompleted, hphases, hphase, hout⟩ := h
  have hother (j : Nat) (hj : j ∈ x₀.2.completed) : Function.update ph i q' j = ph₀ j := by
    have hne : j ≠ i := by
      intro heq
      apply hout
      rw [heq, ← hcompleted] at hj
      exact Or.inr (Or.inr hj)
    rw [Function.update_of_ne hne]
    exact hphases j hj
  apply freeThreadLink_preserves (J := Releasing (p := p) x₀ ph₀ i q')
    (fun _ _ _ _ _ hx hthFor hsend => hx.wake hq' hthFor hsend) _ _ hfree
  · intro hslot
    rcases hphase with heq | hidle
    · have hnet' := hnet.call hmade hout (hunused ph hnet heq hslot) rfl rfl
        (othersKept_update ph q')
      exact ⟨_, hnet', hcomms, hcompleted, hother, Or.inl (Function.update_self ..), hout⟩
    · exact ⟨ph, hnet, hcomms, hcompleted, hphases, Or.inr hidle, hout⟩
  · intro link links hslot hlinks
    rcases hphase with heq | hidle
    · obtain ⟨hinv, hinfinite⟩ := hput ph link links hnet heq hslot hlinks
      have hnet' := hnet.call hmade hout hinv hinfinite (LinkSteps.half_putBackLinks hlinks)
        (othersKept_update ph q')
      exact ⟨_, hnet', hcomms, hcompleted, hother, Or.inl (Function.update_self ..), hout⟩
    · have hnone : CommPhase.idle.hold role = .empty := by cases role <;> rfl
      rw [hnet.links.slot_eq_none (hidle ▸ hnone)] at hslot
      cases hslot

theorem NetInv.leave {b : Traffic} (h : NetInv p ph x) (hrun : i ∈ x.2.running)
    (hleave : leaveBus p (takeEvent x i).2 i = some b) :
    NetInv p ph (x.1, b) ∧ ¬ Listed b i ∧ b.comms = x.2.comms ∧ b.completed = x.2.completed := by
  have honce := h.once i
  have hpos : 0 < x.2.running.count i := List.count_pos_iff.mpr hrun
  have hzero : x.2.queue.count i = 0 ∧ x.2.completed.count i = 0 := by omega
  have hgone : i ∉ x.2.running.erase i := by
    rw [← List.count_eq_zero, List.count_erase_self]
    omega
  obtain ⟨threads, hsub, hnot, hnodup, heq⟩ : ∃ threads : List Nat,
      (∀ j, j ≠ i → (j ∈ threads ↔ j ∈ x.2.threadsOnNetwork)) ∧ i ∉ threads ∧ threads.Nodup ∧
        b = { x.2 with running := x.2.running.erase i, threadsOnNetwork := threads } := by
    unfold leaveBus at hleave
    split at hleave
    · next hnum =>
        refine ⟨x.2.threadsOnNetwork, fun j _ => Iff.rfl, ?_, h.threadsOnce,
          (Option.some.inj hleave).symm⟩
        exact fun hin => (h.onNetwork i hin).1 hnum
    · split at hleave
      · refine ⟨x.2.threadsOnNetwork.erase i, fun j hj => ?_, h.threadsOnce.not_mem_erase,
          h.threadsOnce.erase i, (Option.some.inj hleave).symm⟩
        exact List.mem_erase_of_ne hj
      · cases hleave
  have hlisted (j : Nat) (hj : Listed b j) : j ≠ i ∧ Listed x.2 j := by
    rw [heq] at hj
    rcases hj with hin | hin | hin
    · exact ⟨fun hij => hgone (hij ▸ hin), Or.inl (List.mem_of_mem_erase hin)⟩
    · exact ⟨fun hij => List.count_eq_zero.mp hzero.1 (hij ▸ hin), Or.inr (Or.inl hin)⟩
    · exact ⟨fun hij => List.count_eq_zero.mp hzero.2 (hij ▸ hin), Or.inr (Or.inr hin)⟩
  have hout : ¬ Listed b i := fun hi => (hlisted i hi).1 rfl
  have hcomms : b.comms = x.2.comms := by rw [heq]
  have hcompleted : b.completed = x.2.completed := by rw [heq]
  have hthreads : b.threadsOnNetwork = threads := by rw [heq]
  have hrunning : b.running = x.2.running.erase i := by rw [heq]
  have hback (j : Nat) (hj : j ∈ b.running ∨ j ∈ b.completed) :
      j ≠ i ∧ (j ∈ x.2.running ∨ j ∈ x.2.completed) := by
    have hj' : Listed b j := hj.imp id Or.inr
    refine ⟨(hlisted j hj').1, ?_⟩
    rw [hrunning, hcompleted] at hj
    exact hj.imp List.mem_of_mem_erase id
  refine ⟨⟨?_, h.infinite, h.half, ?_, ?_, ?_, ?_, ?_, ?_, ?_⟩, hout, hcomms, hcompleted⟩
  · show LinkInv (ends p b.comms) _ ph x.1
    rw [hcomms]
    exact h.links
  · intro j hj
    show j < b.comms.length
    rw [hcomms]
    exact h.made j (hj.imp id fun hin => (hlisted j hin).2)
  · intro j
    have hj := h.once j
    show b.running.count j + b.queue.count j + b.completed.count j ≤ 1
    rw [heq]
    have hle : (x.2.running.erase i).count j ≤ x.2.running.count j :=
      List.erase_sublist.count_le j
    show (x.2.running.erase i).count j + x.2.queue.count j + x.2.completed.count j ≤ 1
    omega
  · intro j hj
    show _ ∨ (_ ∧ x.1.infiniteNetLinks ((ends p b.comms).nodePartner j) = true)
    rw [hcomms]
    exact h.granted j (hlisted j hj).2
  · intro j hj hremote hnum
    have hremote' : Remote p b.comms j := hremote
    rw [hcomms] at hremote'
    obtain ⟨hne, hin⟩ := hback j hj
    show j ∈ b.threadsOnNetwork
    rw [hthreads, hsub j hne]
    exact h.bus j hin hremote' hnum
  · intro j hj
    have hj' : j ∈ b.threadsOnNetwork := hj
    rw [hthreads] at hj'
    have hne : j ≠ i := fun hij => hnot (hij ▸ hj')
    obtain ⟨hnum, hremote, hin⟩ := h.onNetwork j ((hsub j hne).mp hj')
    refine ⟨hnum, ?_, ?_⟩
    · show Remote p b.comms j
      rw [hcomms]
      exact hremote
    · show j ∈ b.running ∨ j ∈ b.completed
      rw [hrunning, hcompleted]
      exact hin.imp (fun hr => (List.mem_erase_of_ne hne).mpr hr) id
  · show b.threadsOnNetwork.Nodup
    rw [hthreads]
    exact hnodup
  · show ∀ (j n n' : Nat), b.comms[j]? = some (.message n n') → n ≠ n'
    rw [hcomms]
    exact h.messages

theorem NetInv.curr (h : NetInv p ph x) (curr : Nat) :
    NetInv p ph (x.1, { x.2 with currOnNetwork := curr }) :=
  ⟨h.links, h.infinite, h.half, h.made, h.once, h.granted, h.bus, h.onNetwork, h.threadsOnce,
    h.messages⟩

/-- The first thread that waits for a bus is taken out of the queue. -/
theorem NetInv.dequeue {rest : List Nat} (h : NetInv p ph x) (hqueue : x.2.queue = i :: rest) :
    NetInv p ph (x.1, { x.2 with queue := rest }) ∧ ¬ Listed { x.2 with queue := rest } i := by
  have honce := h.once i
  rw [hqueue, List.count_cons_self] at honce
  have hsub (j : Nat) (hj : Listed { x.2 with queue := rest } j) : Listed x.2 j := by
    rcases hj with hin | hin | hin
    · exact Or.inl hin
    · right
      left
      rw [hqueue]
      exact List.mem_cons_of_mem i hin
    · exact Or.inr (Or.inr hin)
  refine ⟨⟨h.links, h.infinite, h.half, fun j hj => ?_, fun j => ?_, fun j hj => ?_, h.bus,
    h.onNetwork, h.threadsOnce, h.messages⟩, ?_⟩
  · exact h.made j (hj.imp id (hsub j))
  · have hj := h.once j
    have hle : rest.count j ≤ x.2.queue.count j := by
      rw [hqueue]
      exact List.count_le_count_cons
    show x.2.running.count j + rest.count j + x.2.completed.count j ≤ 1
    omega
  · exact h.granted j (hsub j hj)
  · rintro (hin | hin | hin)
    · have hpos : 0 < x.2.running.count i := List.count_pos_iff.mpr hin
      omega
    · have hpos : 0 < rest.count i := List.count_pos_iff.mpr hin
      omega
    · have hpos : 0 < x.2.completed.count i := List.count_pos_iff.mpr hin
      omega

theorem NetInv.ready (h : NetInv p ph x) (hi : Listed x.2 i) : (ph i).Ready := by
  rcases h.granted i hi with heq | ⟨heq, -⟩
  · exact Or.inr (Or.inr heq)
  · exact Or.inl heq

theorem NetInv.wakeBusWaiter (h : NetInv p ph x) (hcall : wakeBusWaiter p x = some x') :
    ∃ ph', NetInv p ph' x' ∧ x'.2.comms = x.2.comms ∧ x'.2.completed = x.2.completed ∧
      ∀ j ∈ x.2.completed, ph' j = ph j := by
  unfold RmaNetwork.wakeBusWaiter at hcall
  split at hcall
  · rw [← Option.some.inj hcall]
    exact ⟨ph, h, rfl, rfl, fun j _ => rfl⟩
  · split at hcall
    · rw [← Option.some.inj hcall]
      exact ⟨ph, h, rfl, rfl, fun j _ => rfl⟩
    · next first rest hqueue =>
        have hlisted : Listed x.2 first := by
          right
          left
          rw [hqueue]
          exact List.mem_cons_self
        obtain ⟨hnet, hout⟩ := h.dequeue hqueue
        obtain ⟨ph', hnet', hkept⟩ :=
          hnet.wakeUp (h.made first (Or.inr hlisted)) hout (h.ready hlisted) hcall
        refine ⟨ph', hnet', hkept.comms, hkept.completed, fun j hj => ?_⟩
        have hdone : Listed { x.2 with queue := rest } j := Or.inr (Or.inr hj)
        exact hkept.phases j (fun heq => hout (heq ▸ hdone)) (hnet.not_waiting hdone)

/-- `COMMUNIC_internal_resources_COM_TIMER_OUT` for a message. -/
theorem NetInv.internalResources (h : NetInv p ph x) (hrun : i ∈ x.2.running)
    (hcall : internalResources p (takeEvent x i) i = some x') :
    ∃ ph', NetInv p ph' x' ∧ x'.2.comms = x.2.comms ∧ x'.2.completed = x.2.completed ∧
      ∀ j ∈ x.2.completed, ph' j = ph j := by
  obtain ⟨b, hleave, hcall⟩ := Option.bind_eq_some_iff.mp hcall
  obtain ⟨x₁, hlocal, hcall⟩ := Option.bind_eq_some_iff.mp hcall
  obtain ⟨x₂, hpartner, hlast⟩ := Option.bind_eq_some_iff.mp hcall
  obtain ⟨hnet, hout, hcomms, hcompleted⟩ := h.leave hrun hleave
  have hmade : i < x.2.comms.length := h.made i (Or.inr (Or.inl hrun))
  have hnotWaiting (outSide inSide : Bool) : ¬ (CommPhase.granted outSide inSide).Waiting := by
    rintro (hw | hw) <;> cases hw
  have hphase : ph i = .granted true true ∨ ph i = .idle :=
    (h.granted i (Or.inl hrun)).imp id And.left
  have h₀ : Releasing (p := p) x ph i (.granted true true) (x.1, b) :=
    ⟨ph, hnet, hcomms, hcompleted, fun j _ => rfl, hphase, hout⟩
  have h₁ : Releasing (p := p) x ph i (.granted false true) x₁ := by
    apply h₀.free (hnotWaiting false true) _ _ _ hlocal
    · show i < b.comms.length
      rw [hcomms]
      exact hmade
    · exact fun ph' hnet' heq hslot => hnet'.links.releaseLocal heq hslot
    · exact fun ph' link links hnet' heq hslot hput => hnet'.links.freeLocal heq hslot hput
  have hmade₁ : i < x₁.2.comms.length := by
    obtain ⟨-, -, hcomms₁, -⟩ := h₁
    rw [hcomms₁]
    exact hmade
  have h₂ : Releasing (p := p) x ph i (.granted false false) x₂ := by
    apply h₁.free (hnotWaiting false false) hmade₁ _ _ hpartner
    · exact fun ph' hnet' heq hslot => hnet'.links.releasePartner heq hslot
    · exact fun ph' link links hnet' heq hslot hput => hnet'.links.freePartner heq hslot hput
  obtain ⟨ph₂, hnet₂, hcomms₂, hcompleted₂, hphases₂, -⟩ := h₂
  obtain ⟨ph', hnet', hcomms', hcompleted', hphases'⟩ :=
    (hnet₂.curr (x₂.2.currOnNetwork - 1)).wakeBusWaiter hlast
  refine ⟨ph', hnet', hcomms'.trans hcomms₂, hcompleted'.trans hcompleted₂, fun j hj => ?_⟩
  rw [hphases' j (hcompleted₂ ▸ hj)]
  exact hphases₂ j hj

/-- The event of a transfer is handled: nothing is released. -/
theorem NetInv.complete (h : NetInv p ph x) (hrun : i ∈ x.2.running) :
    NetInv p ph (complete x i) := by
  have hback (j : Nat) (hj : j ∈ x.2.running.erase i ∨ j ∈ x.2.completed ++ [i]) :
      j ∈ x.2.running ∨ j ∈ x.2.completed := by
    rcases hj with hin | hin
    · exact Or.inl (List.mem_of_mem_erase hin)
    · rcases List.mem_append.mp hin with hold | hnew
      · exact Or.inr hold
      · exact Or.inl (List.mem_singleton.mp hnew ▸ hrun)
  have hlisted (j : Nat) (hj : Listed (RmaNetwork.complete x i).2 j) : Listed x.2 j := by
    rcases hj with hin | hin | hin
    · exact (hback j (Or.inl hin)).imp id Or.inr
    · exact Or.inr (Or.inl hin)
    · exact (hback j (Or.inr hin)).imp id Or.inr
  refine ⟨h.links, h.infinite, h.half, fun j hj => ?_, fun j => ?_, fun j hj => ?_,
    fun j hj => h.bus j (hback j hj), fun j hj => ?_, h.threadsOnce, h.messages⟩
  · exact h.made j (hj.imp id (hlisted j))
  · have honce := h.once j
    show (x.2.running.erase i).count j + x.2.queue.count j + (x.2.completed ++ [i]).count j ≤ 1
    rw [count_concat]
    by_cases hij : i = j
    · rw [if_pos hij, ← hij, List.count_erase_self]
      have hpos : 0 < x.2.running.count i := List.count_pos_iff.mpr hrun
      rw [← hij] at honce
      omega
    · rw [if_neg hij, List.count_erase_of_ne (Ne.symm hij)]
      exact honce
  · exact h.granted j (hlisted j hj)
  · obtain ⟨hnum, hremote, hin⟩ := h.onNetwork j hj
    refine ⟨hnum, hremote, ?_⟩
    show j ∈ x.2.running.erase i ∨ j ∈ x.2.completed ++ [i]
    by_cases hij : j = i
    · rw [hij]
      exact Or.inr (List.mem_append_right _ (List.mem_singleton_self i))
    · exact hin.imp (fun hr => (List.mem_erase_of_ne hij).mpr hr) (List.mem_append_left _)

/-! ## What a transfer holds -/

theorem NetInv.mem_threadsOnNetwork (h : NetInv p ph x)
    (hi : i ∈ x.2.running ∨ i ∈ x.2.completed) : i ∈ x.2.threadsOnNetwork ↔
      p.numMessagesOnNetwork ≠ 0 ∧ Remote p x.2.comms i := by
  constructor
  · intro hin
    obtain ⟨hnum, hremote, -⟩ := h.onNetwork i hin
    exact ⟨hnum, hremote⟩
  · rintro ⟨hnum, hremote⟩
    exact h.bus i hi hremote hnum

/-- A field refers to a link if its side has one, unless the communication was given none. -/
theorem NetInv.slot_iff (h : NetInv p ph x) (hi : i ∈ x.2.running ∨ i ∈ x.2.completed) :
    (∃ link, x.1.ledger.slot (i, role) = some link ∧ link ∈ x.1.ledger.busy link.pool) ↔
      (ends p x.2.comms).uses x.1 (i, role) = true ∧ ph i = .granted true true := by
  have hlisted : Listed x.2 i := hi.imp id Or.inr
  constructor
  · rintro ⟨link, hslot, -⟩
    constructor
    · by_contra hnot
      rw [h.links.consistent.empty (i, role) (if_neg hnot)] at hslot
      cases hslot
    · rcases h.granted i hlisted with heq | ⟨hidle, -⟩
      · exact heq
      · have hnone : CommPhase.idle.hold role = .empty := by cases role <;> rfl
        rw [h.links.slot_eq_none (hidle ▸ hnone)] at hslot
        cases hslot
  · rintro ⟨huses, hph⟩
    have howned : (ph i).hold role = .owned := by
      rw [hph]
      cases role <;> rfl
    obtain ⟨link, hbusy, hslot⟩ := h.links.exists_slot huses howned
    have hpool := h.links.pools _ link (h.links.consistent.mem_all hbusy)
    refine ⟨link, hslot, ?_⟩
    rw [hpool]
    exact hbusy

theorem NetInv.holds_iff_uses (h : NetInv p ph x) (hi : i ∈ x.2.running ∨ i ∈ x.2.completed) :
    Holds x i ↔ (p.numMessagesOnNetwork ≠ 0 ∧ Remote p x.2.comms i) ∨
      ∃ role, (ends p x.2.comms).uses x.1 (i, role) = true ∧ ph i = .granted true true := by
  rw [Holds, h.mem_threadsOnNetwork hi]
  apply or_congr Iff.rfl
  constructor
  · rintro ⟨role, hslot⟩
    exact ⟨role, (h.slot_iff hi).mp hslot⟩
  · rintro ⟨role, huses⟩
    exact ⟨role, (h.slot_iff hi).mpr huses⟩

/-- A half duplex side has a link of its own. -/
theorem finite_of_uses {e : Ends} {s : LinkState} (huses : e.uses s (i, role) = true) :
    e.node i ≠ e.nodePartner i ∧ s.infiniteNetLinks (e.pool (i, role)).node = false := by
  simp only [Ends.uses, Bool.and_eq_true, decide_eq_true_eq] at huses
  exact ⟨huses.1.1, by simpa using huses.1.2⟩

/-- A transfer whose event is to come or came holds something unless there was nothing to take. -/
theorem NetInv.holds_iff (h : NetInv p ph x) (hi : i ∈ x.2.running ∨ i ∈ x.2.completed) :
    Holds x i ↔ ¬ NothingToTake p x i := by
  have hlisted : Listed x.2 i := hi.imp id Or.inr
  rw [h.holds_iff_uses hi]
  constructor
  · rintro hholds (hlocal | ⟨hnum, hpartner, hnode⟩)
    · rcases hholds with ⟨-, hremote⟩ | ⟨role, huses, -⟩
      · exact hlocal hremote
      · exact hlocal (finite_of_uses huses).1
    · rcases hholds with ⟨hnum', -⟩ | ⟨role, huses, hph⟩
      · exact hnum' hnum
      · obtain ⟨hne, hfinite⟩ := finite_of_uses huses
        have hown (hfinite : x.1.infiniteNetLinks ((ends p x.2.comms).node i) = false) : False := by
          have huses' : (ends p x.2.comms).uses x.1 (i, .localLink) = true := by
            rw [uses_localLink hne, hfinite]
            rfl
          rcases hnode with hinfinite | hslot
          · rw [hfinite] at hinfinite
            cases hinfinite
          · obtain ⟨link, hlink, -⟩ := (h.slot_iff hi).mpr ⟨huses', hph⟩
            rw [hslot] at hlink
            cases hlink
        cases role with
        | localLink => exact hown hfinite
        | localHdLink => exact hown hfinite
        | partnerLink => exact Bool.noConfusion (hpartner.symm.trans hfinite)
        | partnerHdLink => exact Bool.noConfusion (hpartner.symm.trans hfinite)
  · intro hsome
    by_contra hnone
    apply hsome
    by_cases hremote : Remote p x.2.comms i
    · right
      have hnum : p.numMessagesOnNetwork = 0 := by
        by_contra hnum
        exact hnone (Or.inl ⟨hnum, hremote⟩)
      rcases h.granted i hlisted with hph | ⟨hidle, hpartner⟩
      · have hunused (role : LinkRole) : (ends p x.2.comms).uses x.1 (i, role) = false := by
          apply Bool.eq_false_iff.mpr
          intro huses
          exact hnone (Or.inr ⟨role, huses, hph⟩)
        have hlocal := hunused .localLink
        have hpartner := hunused .partnerLink
        rw [uses_localLink hremote] at hlocal
        rw [uses_partnerLink hremote] at hpartner
        exact ⟨hnum, by simpa using hpartner, Or.inl (by simpa using hlocal)⟩
      · exact ⟨hnum, hpartner, Or.inr (h.links.slot_eq_none (by rw [hidle]; rfl))⟩
    · exact Or.inl hremote

/-- What a completed transfer holds is a matter of its ends and its phase. -/
theorem NetInv.holds_congr (h : NetInv p ph x) (h' : NetInv p ph' x') (hi : i ∈ x.2.completed)
    (hi' : i ∈ x'.2.completed)
    (hnode : (ends p x'.2.comms).node i = (ends p x.2.comms).node i)
    (hpartner : (ends p x'.2.comms).nodePartner i = (ends p x.2.comms).nodePartner i)
    (hph : ph' i = ph i) : Holds x' i ↔ Holds x i := by
  have huses (role : LinkRole) : (ends p x'.2.comms).uses x'.1 (i, role) =
      (ends p x.2.comms).uses x.1 (i, role) := by
    cases role <;>
      simp only [Ends.uses, Ends.pool, hnode, hpartner, h.infinite, h'.infinite, h.half, h'.half]
  rw [h.holds_iff_uses (Or.inr hi), h'.holds_iff_uses (Or.inr hi'), Remote, Remote, hnode,
    hpartner, hph]
  simp only [huses]

end Dimemas.Model.RmaNetwork
