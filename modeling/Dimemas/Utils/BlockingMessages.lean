import Dimemas.Utils.DeadlockAnalysis
/-!
# Blocking messages in the deadlock analysis

Programs of rendezvous SENDs and blocking RECVs. The operations that have not been matched make
the graph of who waits for whom. The analysis follows this graph until a RECV finds its partner
in a RECV on the same channel: the mask of a SEND selects a RECV too.
-/

namespace Dimemas.Utils.BlockingMessages

open Relation
open Dimemas.Library.CycleSearch
open Dimemas.Library.Transitions
open Dimemas.Utils.Graph
open Dimemas.Utils.DeadlockAnalysis

variable {n : Nat}

/-- A rendezvous SEND to the peer or a RECV from it. -/
structure Message (n : Nat) where
  isSend : Bool
  peer : Fin n
  channel : Int × Nat
deriving DecidableEq, Repr

def Message.op (x : Message n) : Operation n :=
  if x.isSend then .send x.peer x.channel true else .recv x.peer x.channel

def Message.dependency (x : Message n) : Dependency n :=
  messageDependency x.peer .strg (if x.isSend then .send else .recv) x.channel

/-- The operation `y` of the peer of `x` matches the operation `x` of a rank. -/
def Message.Answers (y : Message n) (task : Fin n) (x : Message n) : Prop :=
  y.isSend = !x.isSend ∧ y.peer = task ∧ y.channel = x.channel

instance (y : Message n) (task : Fin n) (x : Message n) : Decidable (y.Answers task x) :=
  inferInstanceAs (Decidable (_ ∧ _))

abbrev Pending (n : Nat) := Fin n → Option (Message n)

/-- A rank issues an operation: it is matched by that of its peer, or has to wait. -/
def Pending.issue (p : Pending n) (task : Fin n) (x : Message n) : Pending n :=
  if (p x.peer).any (·.Answers task x) then Function.update p x.peer none
  else Function.update p task (some x)

def Pending.Waits (p : Pending n) (i j : Fin n) : Prop := ∃ x, p i = some x ∧ x.peer = j

/-- An operation that a rank issues, and how much of its trace has been read. -/
structure Issue (n : Nat) where
  task : Fin n
  message : Message n
  progression : ℚ

def Issue.event (l : Issue n) : Event n := ⟨l.task, l.message.op, l.progression⟩

/-- `returned` is the result of the last event. -/
structure BlockingState (n : Nat) where
  analyzer : Analyzer n
  pending : Pending n
  returned : Bool

def BlockingState.init : BlockingState n := ⟨.init, fun _ => none, false⟩

/-- The simulation starts anew behind an event that returned TRUE. -/
def BlockingState.restart (s : BlockingState n) : Option (Analyzer n) :=
  if s.returned then s.analyzer.reset else some s.analyzer

def BlockingState.unmatched (s : BlockingState n) : Pending n :=
  if s.returned then fun _ => none else s.pending

/-- A rank whose last operation was matched issues the next one. -/
def blockingNext (endAnalysis : ℚ) (s : BlockingState n) (l : Issue n) :
    Option (BlockingState n) :=
  if s.unmatched l.task = none then do
    let a ← s.restart
    let (analyzer, returned) ← communicEvent (fun _ => []) endAnalysis a l.event
    some ⟨analyzer, s.unmatched.issue l.task l.message, returned⟩
  else none

/-- The arcs of the graph are those of the ranks that wait, and TRUE was returned exactly if there
is a cycle of them. -/
def Exact (s : BlockingState n) : Prop :=
  (∀ i j, (∃ d ∈ s.analyzer.graph i, d.type = .strg ∧ d.toTask = j) ↔ s.pending.Waits i j) ∧
    (s.returned = true ↔ ∃ i, TransGen s.pending.Waits i i)

/-- The operation is not a RECV from a rank that is in a RECV from this one on the same channel. -/
def NoRecvMeets (s : BlockingState n) (l : Issue n) : Prop :=
  ¬ (l.message.isSend = false ∧
    s.unmatched l.message.peer = some ⟨false, l.task, l.message.channel⟩)

/-- The analysis has not come to its end at the event, and no RECV meets a RECV. -/
def Watched (endAnalysis : ℚ) (s : BlockingState n) (l : Issue n) : Prop :=
  l.progression < endAnalysis ∧ NoRecvMeets s l

instance (endAnalysis : ℚ) (s : BlockingState n) (l : Issue n) :
    Decidable (Watched endAnalysis s l) :=
  inferInstanceAs (Decidable (_ ∧ ¬ (_ ∧ _)))

def graphOf (p : Pending n) : GraphMap n := fun i => (p i).toList.map Message.dependency

section

variable {p : Pending n} {task i j : Fin n} {x y : Message n} {channel : Int × Nat}
  {b : Bool}

theorem arc_graphOf : Arc (targets (graphOf p)) i j ↔ p.Waits i j := by
  unfold Arc Pending.Waits
  rw [mem_targets, graphOf]
  cases p i with
  | none => simp
  | some x => simp [Message.dependency, messageDependency, Dependency.blocks]

theorem transGen_graphOf : TransGen (Arc (targets (graphOf p))) i j ↔ TransGen p.Waits i j := by
  have heq : Arc (targets (graphOf p)) = p.Waits := by
    funext i j
    exact propext arc_graphOf
  rw [heq]

theorem softOk_graphOf (p : Pending n) : SoftOk (graphOf p) := by
  intro i d hd hsoft
  obtain ⟨x, -, rfl⟩ := List.mem_map.mp hd
  cases hsoft

theorem graphOf_update_none (p : Pending n) (i : Fin n) :
    graphOf (Function.update p i none) = Function.update (graphOf p) i [] := by
  funext j
  by_cases hj : j = i
  · subst hj
    simp [graphOf]
  · simp [graphOf, Function.update_of_ne hj]

theorem addDependency_graphOf (hnone : p task = none) (x : Message n) :
    addDependency (graphOf p) task x.dependency = graphOf (Function.update p task (some x)) := by
  unfold addDependency
  funext j
  by_cases hj : j = task
  · subst hj
    simp [graphOf, hnone]
  · simp [graphOf, Function.update_of_ne hj]

/-- A mask that selects SENDs and RECVs, with which the channel is compared. -/
def MessageMask (mask : Nat) : Prop :=
  DepAction.send.code &&& mask ≠ 0 ∧ DepAction.recv.code &&& mask ≠ 0 ∧
    mask ∈ [DepAction.send.code, DepAction.recv.code, DepAction.wait.code,
      DepAction.irecv.code, DepAction.resolved.code]

theorem messageMask_send : MessageMask DepAction.send.code := by
  unfold MessageMask
  decide

theorem messageMask_recv_wait : MessageMask (DepAction.recv.code ||| DepAction.wait.code) := by
  unfold MessageMask
  decide

theorem asksFor_dependency {mask : Nat} (hmask : MessageMask mask) :
    (messageQuery task .strg mask channel).asksFor y.dependency ↔
      y.peer = task ∧ y.channel = channel := by
  obtain ⟨hsend, hrecv, hmem⟩ := hmask
  have hbits : y.dependency.action.code &&& mask ≠ 0 := by
    unfold Message.dependency messageDependency
    cases y.isSend with
    | true => exact hsend
    | false => exact hrecv
  have hselects : (messageQuery task .strg mask channel).selects y.dependency ↔
      y.peer = task := by
    rw [selects_iff]
    constructor
    · exact fun h => h.1
    · exact fun h => ⟨h, rfl, hbits⟩
  have hcompares : (messageQuery task .strg mask channel).comparesChannel = true :=
    decide_eq_true hmem
  have hsame : (messageQuery task .strg mask channel).sameChannel y.dependency ↔
      y.channel = channel := by
    unfold Query.sameChannel
    rw [hcompares]
    show decide (channel = y.channel) = true ↔ y.channel = channel
    rw [decide_eq_true_eq, eq_comm]
  unfold Query.asksFor
  rw [Bool.and_eq_true, hselects, hsame]

/-- The query finds the operation of the other rank if it is one on the channel with the rank. -/
theorem getDependency_graphOf {mask : Nat} (hmask : MessageMask mask) (hy : p j = some y)
    (hpeer : y.peer = task) (hchannel : y.channel = channel) :
    getDependency (graphOf p) j (messageQuery task .strg mask channel) = some y.dependency := by
  have hasks : (messageQuery task .strg mask channel).asksFor y.dependency :=
    (asksFor_dependency hmask).mpr ⟨hpeer, hchannel⟩
  have hlist : graphOf p j = [y.dependency] := by
    unfold graphOf
    rw [hy]
    rfl
  rw [getDependency, getFirst_eq_find?, hlist, List.find?_cons_of_pos hasks]
  rw [hlist]
  simp

theorem getDependency_graphOf_eq_none {mask : Nat} (hmask : MessageMask mask)
    (hno : ∀ y, p j = some y → ¬ (y.peer = task ∧ y.channel = channel)) :
    getDependency (graphOf p) j (messageQuery task .strg mask channel) = none := by
  apply Option.eq_none_iff_forall_ne_some.mpr
  intro d hd
  obtain ⟨hmem, hasks⟩ := getFirst_eq_some hd
  obtain ⟨y, hy, rfl⟩ := List.mem_map.mp hmem
  exact hno y (Option.mem_toList.mp hy) ((asksFor_dependency hmask).mp hasks)

theorem removeDependency_graphOf {mask : Nat} (hmask : MessageMask mask) (hy : p j = some y)
    (hpeer : y.peer = task) (hchannel : y.channel = channel) :
    removeDependency (graphOf p) j (messageQuery task .strg mask channel) =
      graphOf (Function.update p j none) := by
  have hasks : (messageQuery task .strg mask channel).asksFor y.dependency :=
    (asksFor_dependency hmask).mpr ⟨hpeer, hchannel⟩
  rw [graphOf_update_none, removeDependency]
  congr 1
  unfold graphOf
  rw [hy]
  simp [hasks]

theorem getSoft_graphOf {mask : Nat} {channel : Int × Nat} :
    getDependency (graphOf p) j (messageQuery task .soft mask channel) = none ∧
      getDependencies (graphOf p) j (messageQuery task .soft mask channel) = [] := by
  have hnot : ∀ d ∈ graphOf p j, ¬ (messageQuery task .soft mask channel).asksFor d := by
    intro d hd hasks
    obtain ⟨y, -, rfl⟩ := List.mem_map.mp hd
    have htype := (selects_iff.mp (selects_of_asksFor hasks)).2.1
    cases htype
  constructor
  · apply Option.eq_none_iff_forall_ne_some.mpr
    intro d hd
    obtain ⟨hmem, hasks⟩ := getFirst_eq_some hd
    exact hnot d hmem hasks
  · exact List.filter_eq_nil_iff.mpr hnot

theorem not_answers_of_isSend (hx : x.isSend = y.isSend) : ¬ y.Answers task x := by
  intro h
  have hne := h.1
  rw [hx] at hne
  exact Bool.not_ne_self _ hne.symm

theorem dependency_action (hx : x.isSend = b) :
    x.dependency.action = if b then .send else .recv := by
  rw [← hx]
  rfl

theorem issue_of_answers (hy : p x.peer = some y) (hyes : y.Answers task x) :
    p.issue task x = Function.update p x.peer none := by
  simp [Pending.issue, hy, hyes]

theorem issue_of_not_answers (hno : ∀ y, p x.peer = some y → ¬ y.Answers task x) :
    p.issue task x = Function.update p task (some x) := by
  unfold Pending.issue
  rw [if_neg]
  intro hany
  obtain ⟨y, hy, hyes⟩ := (Option.any_eq_true ..).mp hany
  exact hno y hy (of_decide_eq_true hyes)

/-- A SEND finds the RECV of its peer on the channel, or waits. -/
theorem newSend_graphOf (hnone : p task = none) (hsend : x.isSend = true) :
    ∃ o, newSend (graphOf p) task x.peer x.channel true = some (graphOf (p.issue task x), o) := by
  have hadd : addDependency (graphOf p) task
      (messageDependency x.peer .strg .send x.channel) =
        graphOf (Function.update p task (some x)) := by
    rw [← addDependency_graphOf hnone, Message.dependency, hsend]
    rfl
  unfold newSend
  simp only [getSoft_graphOf.2]
  by_cases hmeets : ∃ y, p x.peer = some y ∧ y.peer = task ∧ y.channel = x.channel
  · obtain ⟨y, hy, hpeer, hchannel⟩ := hmeets
    rw [getDependency_graphOf messageMask_recv_wait hy hpeer hchannel, Option.map_some]
    cases hback : y.isSend with
    | true =>
        have hno : ∀ z, p x.peer = some z → ¬ z.Answers task x := by
          intro z hz
          obtain rfl := Option.some.inj (hy.symm.trans hz)
          exact not_answers_of_isSend (hsend.trans hback.symm)
        rw [dependency_action hback, issue_of_not_answers hno, ← hadd]
        exact ⟨.looks, rfl⟩
    | false =>
        have hyes : y.Answers task x := ⟨by rw [hback, hsend]; rfl, hpeer, hchannel⟩
        rw [dependency_action hback, issue_of_answers hy hyes,
          ← removeDependency_graphOf messageMask_recv_wait hy hpeer hchannel]
        exact ⟨.goesOn, rfl⟩
  · have hno : ∀ z, p x.peer = some z → ¬ (z.peer = task ∧ z.channel = x.channel) :=
      fun z hz h => hmeets ⟨z, hz, h⟩
    rw [getDependency_graphOf_eq_none messageMask_recv_wait hno,
      issue_of_not_answers fun z hz h => hno z hz h.2, ← hadd]
    exact ⟨.looks, rfl⟩

/-- A RECV finds the operation of its peer on the channel, whichever it is, or waits. -/
theorem newRecv_graphOf (hnone : p task = none) (hrecv : x.isSend = false)
    (hnot : p x.peer ≠ some ⟨false, task, x.channel⟩) :
    (newRecv (graphOf p) task x.peer x.channel).1 = graphOf (p.issue task x) := by
  have hadd : addDependency (graphOf p) task
      (messageDependency x.peer .strg .recv x.channel) =
        graphOf (Function.update p task (some x)) := by
    rw [← addDependency_graphOf hnone, Message.dependency, hrecv]
    rfl
  unfold newRecv
  simp only [getSoft_graphOf.1]
  by_cases hmeets : ∃ y, p x.peer = some y ∧ y.peer = task ∧ y.channel = x.channel
  · obtain ⟨y, hy, hpeer, hchannel⟩ := hmeets
    have hback : y.isSend = true := by
      by_contra hback
      apply hnot
      rw [hy, ← hpeer, ← hchannel, ← Bool.not_eq_true _ |>.mp hback]
    have hyes : y.Answers task x := ⟨by rw [hback, hrecv]; rfl, hpeer, hchannel⟩
    rw [getDependency_graphOf messageMask_send hy hpeer hchannel,
      issue_of_answers hy hyes,
      ← removeDependency_graphOf messageMask_send hy hpeer hchannel]
    rfl
  · have hno : ∀ z, p x.peer = some z → ¬ (z.peer = task ∧ z.channel = x.channel) :=
      fun z hz h => hmeets ⟨z, hz, h⟩
    rw [getDependency_graphOf_eq_none messageMask_send hno,
      issue_of_not_answers fun z hz h => hno z hz h.2, ← hadd]
    rfl

theorem newRecv_meets (hrecv : p j = some ⟨false, task, channel⟩) :
    (newRecv (graphOf p) task j channel).1 = graphOf (Function.update p j none) := by
  have hget : getDependency (graphOf p) j (messageQuery task .strg DepAction.send.code channel) =
      some (Message.dependency ⟨false, task, channel⟩) :=
    getDependency_graphOf messageMask_send hrecv rfl rfl
  have hremove : removeDependency (graphOf p) j
      (messageQuery task .strg DepAction.send.code channel) = graphOf (Function.update p j none) :=
    removeDependency_graphOf messageMask_send hrecv rfl rfl
  unfold newRecv
  simp only [hget]
  exact hremove

/-- The analysis is on, and its graph is that of the operations that have not been matched. -/
def Faithful (s : BlockingState n) : Prop :=
  s.analyzer = ⟨graphOf s.pending, true, true⟩ ∧
    (s.returned = true ↔ ∃ i, TransGen s.pending.Waits i i)

theorem exact_of_faithful {s : BlockingState n} (h : Faithful s) : Exact s := by
  refine ⟨fun i j => ?_, h.2⟩
  rw [h.1, ← arc_graphOf, Arc, mem_targets]
  have hstrg : ∀ d ∈ graphOf s.pending i, d.type = .strg ∧ d.blocks := by
    intro d hd
    obtain ⟨y, -, rfl⟩ := List.mem_map.mp hd
    exact ⟨rfl, rfl⟩
  constructor
  · intro ⟨d, hd, _, hto⟩
    exact ⟨d, hd, (hstrg d hd).2, hto⟩
  · intro ⟨d, hd, _, hto⟩
    exact ⟨d, hd, (hstrg d hd).1, hto⟩

theorem not_waits_init : ¬ ∃ i, TransGen (BlockingState.init : BlockingState n).pending.Waits i i := by
  intro ⟨i, hcycle⟩
  obtain ⟨w, ⟨x, hx, _⟩, _⟩ := TransGen.head'_iff.mp hcycle
  cases hx

theorem faithful_init : Faithful (.init : BlockingState n) := by
  refine ⟨rfl, ?_⟩
  simp only [not_waits_init, iff_false]
  exact Bool.false_ne_true

theorem Faithful.restart {s : BlockingState n} (h : Faithful s) :
    s.restart = some ⟨graphOf s.unmatched, true, true⟩ ∧ DeadlockInv (graphOf s.unmatched) := by
  have hwaits : s.restart = some ⟨graphOf s.unmatched, true, true⟩ ∧
      ¬ ∃ i, TransGen s.unmatched.Waits i i := by
    unfold BlockingState.restart BlockingState.unmatched
    rw [h.1]
    split
    · exact ⟨rfl, not_waits_init⟩
    · next hnot => exact ⟨rfl, fun hcycle => hnot (h.2.mpr hcycle)⟩
  refine ⟨hwaits.1, ?_, ?_⟩
  · exact softOk_graphOf _
  · intro i hcycle
    exact hwaits.2 ⟨i, transGen_graphOf.mp hcycle⟩

theorem strongDependencies_graphOf (hnone : p task = none) :
    strongDependencies (graphOf p) task = [] := by
  simp [strongDependencies, graphOf, hnone]

theorem update_graphOf (hnone : p task = none)
    (hnot : ¬ (x.isSend = false ∧ p x.peer = some ⟨false, task, x.channel⟩)) :
    ∃ o, update (fun _ => []) (graphOf p) task x.op = some (graphOf (p.issue task x), o) := by
  unfold Message.op
  cases hx : x.isSend with
  | true => exact newSend_graphOf hnone hx
  | false =>
      have hgraph := newRecv_graphOf hnone hx fun hmeets => hnot ⟨hx, hmeets⟩
      exact ⟨(newRecv (graphOf p) task x.peer x.channel).2, by rw [← hgraph]; rfl⟩

end

section

variable {s s' : BlockingState n} {l : Issue n} {endAnalysis : ℚ}

/-- What an event of a rank that may issue does, while the analysis goes on. -/
theorem blockingNext_spec (h : Faithful s) (hnone : s.unmatched l.task = none)
    (hprog : l.progression < endAnalysis) :
    ∃ g o res, update (fun _ => []) (graphOf s.unmatched) l.task l.message.op = some (g, o) ∧
      blockingNext endAnalysis s l =
        some ⟨⟨g, true, true⟩, s.unmatched.issue l.task l.message, res⟩ ∧
      (res = true ↔ ∃ i, TransGen (Arc (targets g)) i i) := by
  obtain ⟨hrestart, hinv⟩ := h.restart
  obtain ⟨g, o, res, hupdate, hup, hstate, hiff⟩ :=
    newState_spec (fun _ => []) hinv.soft hinv.acyclic l.task l.message.op
  refine ⟨g, o, res, hupdate, ?_, ?_⟩
  · have hevent := newCommunicEvent_of_coordinated (fun _ => [])
      (a := ⟨graphOf s.unmatched, true, true⟩) (e := l.event) rfl hprog
      (strongDependencies_graphOf hnone)
    rw [blockingNext, if_pos hnone, hrestart, Option.bind_eq_bind, Option.bind_some, communicEvent,
      if_pos rfl, hevent, show newState _ _ l.event.task l.event.op = _ from hstate]
    rfl
  · rw [hiff]
    constructor
    · exact fun hcycle => ⟨l.task, hcycle⟩
    · rintro ⟨i, hcycle⟩
      by_contra hnot
      exact acyclic_of_off (hup.acyclic_off hinv.acyclic) hnot i hcycle

theorem blockingNext_of_end (h : Faithful s) (hnone : s.unmatched l.task = none)
    (hprog : endAnalysis ≤ l.progression) :
    ∃ logOpen, blockingNext endAnalysis s l =
      some ⟨⟨graphOf s.unmatched, logOpen, false⟩, s.unmatched.issue l.task l.message, false⟩ := by
  obtain ⟨logOpen, hevent⟩ := communicEvent_of_end (fun _ => [])
    (a := ⟨graphOf s.unmatched, true, true⟩) (e := l.event) (fun _ => rfl)
    (fun hlooks => not_lt.mpr hprog hlooks.2)
  refine ⟨logOpen, ?_⟩
  rw [blockingNext, if_pos hnone, h.restart.1, Option.bind_eq_bind, Option.bind_some, hevent]
  rfl

theorem unmatched_of_blockingNext (hstep : blockingNext endAnalysis s l = some s') :
    s.unmatched l.task = none := by
  unfold blockingNext at hstep
  split at hstep
  · next hnone => exact hnone
  · cases hstep

theorem faithful_blockingNext (h : Faithful s) (hwatched : Watched endAnalysis s l)
    (hstep : ofPartial (blockingNext endAnalysis) s l s') : Faithful s' := by
  have hnone := unmatched_of_blockingNext hstep
  obtain ⟨g, o, res, hupdate, hnext, hiff⟩ := blockingNext_spec h hnone hwatched.1
  obtain rfl := Option.some.inj (hnext.symm.trans hstep)
  obtain ⟨o', hupdate'⟩ := update_graphOf hnone hwatched.2
  rw [hupdate'] at hupdate
  obtain ⟨rfl, -⟩ := Prod.mk.inj (Option.some.inj hupdate)
  refine ⟨rfl, hiff.trans ?_⟩
  constructor
  · exact fun ⟨i, hcycle⟩ => ⟨i, transGen_graphOf.mp hcycle⟩
  · exact fun ⟨i, hcycle⟩ => ⟨i, transGen_graphOf.mpr hcycle⟩

theorem not_exact_of_recvMeets (h : Faithful s) (hprog : l.progression < endAnalysis)
    (hmeets : ¬ NoRecvMeets s l) (hstep : ofPartial (blockingNext endAnalysis) s l s') :
    ¬ Exact s' := by
  obtain ⟨hrecv, hpeer⟩ := not_not.mp hmeets
  have hnone := unmatched_of_blockingNext hstep
  obtain ⟨g, o, res, hupdate, hnext, -⟩ := blockingNext_spec h hnone hprog
  obtain rfl := Option.some.inj (hnext.symm.trans hstep)
  have hne : l.task ≠ l.message.peer := by
    intro heq
    rw [← heq, hnone] at hpeer
    cases hpeer
  have hg : g = graphOf (Function.update s.unmatched l.message.peer none) := by
    rw [Message.op, hrecv] at hupdate
    rw [← (Prod.mk.inj (Option.some.inj hupdate)).1]
    exact newRecv_meets hpeer
  have hwaits : (s.unmatched.issue l.task l.message).Waits l.task l.message.peer := by
    rw [issue_of_not_answers]
    · exact ⟨l.message, Function.update_self .., rfl⟩
    · intro y hy
      obtain rfl := Option.some.inj (hpeer.symm.trans hy)
      exact not_answers_of_isSend hrecv
  intro hexact
  obtain ⟨d, hd, -⟩ := (hexact.1 l.task l.message.peer).mpr hwaits
  have hd : d ∈ g l.task := hd
  rw [hg, graphOf, Function.update_of_ne hne, hnone] at hd
  cases hd

/-- An operation that is issued at the end of the analysis adds no arc, and removes none. -/
theorem not_exact_of_end (h : Faithful s) (hprog : endAnalysis ≤ l.progression)
    (hstep : ofPartial (blockingNext endAnalysis) s l s') : ¬ Exact s' := by
  have hnone := unmatched_of_blockingNext hstep
  obtain ⟨logOpen, hnext⟩ := blockingNext_of_end h hnone hprog
  obtain rfl := Option.some.inj (hnext.symm.trans hstep)
  intro hexact
  have hwaits : ∀ i j, (s.unmatched.issue l.task l.message).Waits i j ↔ s.unmatched.Waits i j := by
    intro i j
    rw [← arc_graphOf (p := s.unmatched), Arc, mem_targets]
    refine (hexact.1 i j).symm.trans ?_
    constructor
    · exact fun ⟨d, hd, htype, hto⟩ => ⟨d, hd, by simp [Dependency.blocks, htype], hto⟩
    · rintro ⟨d, hd, -, hto⟩
      obtain ⟨y, -, rfl⟩ := List.mem_map.mp hd
      exact ⟨_, hd, rfl, hto⟩
  by_cases hmeets : ∃ y, s.unmatched l.message.peer = some y ∧ y.Answers l.task l.message
  · obtain ⟨y, hy, hyes⟩ := hmeets
    rw [issue_of_answers hy hyes] at hwaits
    obtain ⟨x, hx, -⟩ := (hwaits l.message.peer l.task).mpr ⟨y, hy, hyes.2.1⟩
    rw [Function.update_self] at hx
    cases hx
  · rw [issue_of_not_answers fun y hy hyes => hmeets ⟨y, hy, hyes⟩] at hwaits
    obtain ⟨x, hx, -⟩ :=
      (hwaits l.task l.message.peer).mp ⟨l.message, Function.update_self .., rfl⟩
    rw [hnone] at hx
    cases hx

/-- The analysis of a run is exact if and only if its events come before the end of the analysis
and no RECV meets a RECV. The next event does not fail then. -/
theorem blocking_messages_exact {tr : List (Transition (BlockingState n) (Issue n))}
    (hrun : Run (ofPartial (blockingNext endAnalysis)) .init tr s) :
    ((∀ t ∈ tr, Exact t.post) ↔ ∀ t ∈ tr, Watched endAnalysis t.pre t.label) ∧
      ((∀ t ∈ tr, Watched endAnalysis t.pre t.label) →
        ∀ l : Issue n, s.unmatched l.task = none → (blockingNext endAnalysis s l).isSome) := by
  constructor
  · apply hrun.forall_post_iff_of_guard (Q := Faithful) faithful_init
    · exact fun _ => exact_of_faithful
    · exact fun _ _ _ h hwatched hstep => faithful_blockingNext h hwatched hstep
    · intro s l s' h hstep hexact
      by_cases hprog : l.progression < endAnalysis
      · refine ⟨hprog, ?_⟩
        by_contra hmeets
        exact not_exact_of_recvMeets h hprog hmeets hstep hexact
      · exact absurd hexact (not_exact_of_end h (not_lt.mp hprog) hstep)
  · intro hall l hnone
    have h := hrun.invariant_of_guard faithful_init
      (fun _ _ _ h hwatched hstep => faithful_blockingNext h hwatched hstep) hall
    by_cases hprog : l.progression < endAnalysis
    · obtain ⟨g, o, res, -, hnext, -⟩ := blockingNext_spec h hnone hprog
      rw [hnext]
      rfl
    · obtain ⟨logOpen, hnext⟩ := blockingNext_of_end h hnone (not_lt.mp hprog)
      rw [hnext]
      rfl

/-- Ranks `i` and `j` exchange a message, rank `k` waits for `i`, and then `i` and `j` both SEND
first. -/
def sends (i j k : Fin 3) : List (Issue 3) :=
  [⟨i, ⟨true, j, (5, 1)⟩, 1 / 4⟩, ⟨j, ⟨false, i, (5, 1)⟩, 1 / 4⟩, ⟨k, ⟨false, i, (7, 1)⟩, 1 / 2⟩,
    ⟨i, ⟨true, j, (5, 1)⟩, 1 / 2⟩, ⟨j, ⟨true, i, (5, 1)⟩, 1 / 2⟩]

theorem blocking_messages_exact_sends :
    let run := (exec (blockingNext 1) .init (sends 0 1 2)).get (by decide +kernel)
    run.1.length = 5 ∧ ∀ t ∈ run.1, Exact t.post := by
  refine ⟨by decide +kernel, ?_⟩
  apply (blocking_messages_exact (run_exec_get (by decide +kernel))).1.mpr
  decide +kernel

/-- Two ranks that both RECV first: the second RECV is taken for the SEND of the first. -/
theorem not_blocking_messages_exact :
    ¬ ∀ (n : Nat) (endAnalysis : ℚ) (tr : List (Transition (BlockingState n) (Issue n)))
      (s : BlockingState n), Run (ofPartial (blockingNext endAnalysis)) .init tr s →
        ∀ t ∈ tr, Exact t.post := by
  intro h
  let first : Issue 2 := ⟨0, ⟨false, 1, (5, 1)⟩, 1 / 2⟩
  let second : Issue 2 := ⟨1, ⟨false, 0, (5, 1)⟩, 1 / 2⟩
  let one := (blockingNext 1 .init first).get (by decide +kernel)
  let two := (blockingNext 1 one second).get (by decide +kernel)
  have hone : ofPartial (blockingNext 1) .init first one := (Option.some_get _).symm
  have htwo : ofPartial (blockingNext 1) one second two := (Option.some_get _).symm
  have hrun := (Run.nil.snoc hone).snoc htwo
  have hexact : Exact two := h 2 1 _ _ hrun ⟨one, second, two⟩ (by simp)
  have hpending : two.pending 1 = some second.message := by decide +kernel
  obtain ⟨d, hd, -⟩ := (hexact.1 1 0).mpr ⟨second.message, hpending, rfl⟩
  have hempty : two.analyzer.graph 1 = [] := by decide +kernel
  rw [hempty] at hd
  cases hd

end

end Dimemas.Utils.BlockingMessages
