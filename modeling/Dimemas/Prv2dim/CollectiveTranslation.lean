import Dimemas.Prv2dim.TaskTranslation
import Mathlib.Data.List.Basic
/-!
# The translation of collective calls

A collective call is taken from the event that begins its block and from those of its sizes, its root
and its communicator, and it is written when the records of one time have been processed. The
identifier of the operation is looked up in a table that has the operations in another order than
the blocks.
-/

namespace Dimemas.Prv2dim.CollectiveTranslation

open Dimemas.Prv2dim.TaskTranslation

/-! ## The numbers of the operations -/

/-- `BlockId2GlobalOpId`, with the numbers of `DimCollectiveOp`. -/
def blockId2GlobalOpId : List Int :=
  [-1, 0, 1, 2, 3, 4, 5, 6, 7, 8, 9, 10, 11, 12, 13, 14, 15,
    16, 17, 18, 19, 12, 21, 22, 23, 24, 25, 26, 27, 28, 29, 30, 31]

/-- `MPIEventEncoding_DimemasBlockId`. Each of the 195 entries of `MPI_Table` has the block with the
number of the call. -/
def dimemasBlockId (value : Int) : Option Nat :=
  if 0 ≤ value ∧ value < 195 then some value.toNat else none

/-- `MPIEventEncoding_GlobalOpId`. Nothing is known behind the end of the table. -/
def mpiGlobalOpId (value : Int) : Option Int :=
  (dimemasBlockId value).bind fun blockId => blockId2GlobalOpId[blockId]?

inductive Collective
  | barrier | bcast | gather | gatherv | scatter | scatterv | allgather | allgatherv
  | alltoall | alltoallv | reduce | allreduce | reduceScatter | reduceScatterBlock | scan
  | alltoallw
deriving DecidableEq

/-- The number of a collective in `DimCollectiveOp`. -/
def Collective.id : Collective → Int
  | .barrier => 0
  | .bcast => 1
  | .gather => 2
  | .gatherv => 3
  | .scatter => 4
  | .scatterv => 5
  | .allgather => 6
  | .allgatherv => 7
  | .alltoall => 8
  | .alltoallv => 9
  | .reduce => 10
  | .allreduce => 11
  | .reduceScatter => 12
  | .reduceScatterBlock => 13
  | .scan => 14
  | .alltoallw => 15

/-- The MPI calls that are collectives, and whether a call is blocking. Dimemas has no neighbourhood
collectives. -/
def mpiCalls : List (Int × Collective × Bool) :=
  [(7, .bcast, true), (8, .barrier, true), (9, .reduce, true), (10, .allreduce, true),
    (11, .alltoall, true), (12, .alltoallv, true), (13, .gather, true), (14, .gatherv, true),
    (15, .scatter, true), (16, .scatterv, true), (17, .allgather, true), (18, .allgatherv, true),
    (30, .scan, true), (80, .reduceScatter, true), (154, .reduce, false), (155, .allreduce, false),
    (156, .barrier, false), (157, .bcast, false), (158, .alltoall, false),
    (159, .alltoallv, false), (160, .allgather, false), (161, .allgatherv, false),
    (162, .gather, false), (163, .gatherv, false), (164, .scatter, false),
    (165, .scatterv, false), (166, .reduceScatter, false), (167, .scan, false),
    (168, .reduceScatterBlock, true), (169, .reduceScatterBlock, false), (170, .alltoallw, true),
    (171, .alltoallw, false)]

def mpiCall (value : Int) : Option (Collective × Bool) := mpiCalls.lookup value

def mpitypeCollective : Int := 50000002

def mpiGlobalOpSendSize : Int := 50100001

def mpiGlobalOpRecvSize : Int := 50100002

def mpiGlobalOpRoot : Int := 50100003

def mpiGlobalOpComm : Int := 50100004

def mpiWaitVal : Int := 5

def mpiInitVal : Int := 31

/-! ## The translation -/

def int32 (i : Int) : Int := i.bmod 4294967296

structure GlobalOp where
  communicatorId : Int
  sendSize : Int
  recvSize : Int
  globalOpId : Int
  root : Bool
deriving DecidableEq

def GlobalOp.getGlobalOpId (op : GlobalOp) : Int :=
  if 16 ≤ op.globalOpId then op.globalOpId - 16 else op.globalOpId

def GlobalOp.getSynch (op : GlobalOp) : Bool := op.globalOpId ≤ 16

/-- The records of collective operations in the output trace. The barrier of `MPI_Init` is the one
that is written on demand. -/
inductive Record
  | globalOp (id communicatorId : Int) (root : Bool) (sendSize recvSize : Int) (synch : Bool)
  | globalOpWait (id communicatorId : Int) (root : Bool) (sendSize recvSize : Int)
  | initBarrier
deriving DecidableEq

/-- What of a task changes at the events of blocks and of collective operations. The last block of
the stack is its first element. -/
structure Info where
  mpiBlockIdStack : List Int
  partialGlobalOp : Option GlobalOp
  globalOpFields : Nat
  nonBlockingGlopsInFlight : List GlobalOp
  mpiWaitWithCommunication : Bool
  glopCounter : Nat
  written : List Record

def Info.initial : Info := ⟨[], none, 0, [], false, 0, []⟩

/-- What is processed: an event, a physical receive, and the end of the records of one flush. -/
inductive Step
  | event (e : Event)
  | physicalRecv
  | flushed
deriving DecidableEq

/-- `ToDimemas` for a global operation. -/
def Info.writeGlobalOp (s : Info) (op : GlobalOp) : Info :=
  { s with
    nonBlockingGlopsInFlight :=
      if op.getSynch then s.nonBlockingGlopsInFlight else s.nonBlockingGlopsInFlight ++ [op]
    glopCounter := s.glopCounter + 1
    written := s.written ++ [.globalOp op.getGlobalOpId op.communicatorId op.root op.sendSize
      op.recvSize op.getSynch] }

/-- `Event2GlobalOp` for the operation and the number of its fields. -/
def event2GlobalOp (op : GlobalOp) (fields : Nat) (e : Event) : GlobalOp × Nat :=
  if e.type = mpiGlobalOpSendSize then ({ op with sendSize := int32 e.value }, fields + 1)
  else if e.type = mpiGlobalOpRecvSize then ({ op with recvSize := int32 e.value }, fields + 1)
  else if e.type = mpiGlobalOpRoot then
    (if e.value = 1 then { op with root := true } else op, fields + 1)
  else if e.type = mpiGlobalOpComm then
    ({ op with communicatorId := int32 e.value }, fields + 1)
  else (op, fields)

def Info.fillGlobalOp (s : Info) (e : Event) : Info :=
  match s.partialGlobalOp with
  | some op =>
      { s with
        partialGlobalOp := some (event2GlobalOp op s.globalOpFields e).1
        globalOpFields := (event2GlobalOp op s.globalOpFields e).2 }
  | none => s

def Info.beginGlobalOp (s : Info) (e : Event) : Option Info :=
  if e.type = mpitypeCollective ∧ e.value ≠ 0 then
    (mpiGlobalOpId e.value).map fun id =>
      { s with partialGlobalOp := some ⟨0, 0, 0, id, false⟩, globalOpFields := 1 }
  else some s

/-- An `MPI_Wait` without communication is for the oldest operation in flight. -/
def Info.waitGlobalOp (s : Info) (value : Int) : Info :=
  if value = mpiWaitVal ∧ s.mpiWaitWithCommunication = false then
    match s.nonBlockingGlopsInFlight with
    | op :: ops =>
        { s with
          nonBlockingGlopsInFlight := ops
          written := s.written ++ [.globalOpWait op.getGlobalOpId op.communicatorId op.root
            op.sendSize op.recvSize] }
    | [] => s
  else s

/-- The barrier at the end of `MPI_Init`. -/
def Info.initBarrier (generateMPIInitBarrier : Bool) (s : Info) (value : Int) : Info :=
  if value = mpiInitVal ∧ generateMPIInitBarrier then
    { s with written := s.written ++ [.initBarrier] }
  else s

def Info.mpiBlock (generateMPIInitBarrier : Bool) (s : Info) (e : Event) : Info :=
  if isMPIBlock e.type then
    if isBlockBegin e.value then
      { s with
        mpiBlockIdStack := e.value :: s.mpiBlockIdStack
        mpiWaitWithCommunication :=
          if e.value = mpiWaitVal then false else s.mpiWaitWithCommunication }
    else
      match s.mpiBlockIdStack with
      | [] => s
      | value :: values =>
          (Info.initBarrier generateMPIInitBarrier { s with mpiBlockIdStack := values }
            value).waitGlobalOp value
  else s

/-- `FinalizeGlobalOp`, if an operation is pending. -/
def Info.finalizeGlobalOp (s : Info) : Info :=
  match s.partialGlobalOp with
  | some op =>
      if 2 ≤ s.globalOpFields then
        { s.writeGlobalOp op with partialGlobalOp := none, globalOpFields := 0 }
      else { s with partialGlobalOp := none }
  | none => s

/-- `ToDimemas` for a record of the task, and the end of `ReorderAndFlush`. -/
def Info.step (generateMPIInitBarrier : Bool) (s : Info) : Step → Option Info
  | .event e =>
      if isPseudoLogicRecv e.type then some s
      else ((s.fillGlobalOp e).beginGlobalOp e).map (Info.mpiBlock generateMPIInitBarrier · e)
  | .physicalRecv =>
      some { s with
        mpiWaitWithCommunication :=
          if s.mpiBlockIdStack.head? = some mpiWaitVal then true else s.mpiWaitWithCommunication }
  | .flushed => some s.finalizeGlobalOp

def Info.run (generateMPIInitBarrier : Bool) : Info → List Step → Option Info
  | s, [] => some s
  | s, x :: xs => (s.step generateMPIInitBarrier x).bind (Info.run generateMPIInitBarrier · xs)

/-! ## Sequences with collective calls -/

def Step.typeValue : Step → Option (Int × Int)
  | .event e => some (e.type, e.value)
  | _ => none

/-- The events of the sizes, the root and the communicator of a call. -/
def globalOpFieldTypes : List Int :=
  [mpiGlobalOpSendSize, mpiGlobalOpRecvSize, mpiGlobalOpRoot, mpiGlobalOpComm]

/-- A collective call. The events of its sizes, its root and its communicator come in any order
between its begin and its end. Other events, which are of no MPI call, messages and the end of the
records of one time may come between them. -/
structure Call where
  value : Int
  kind : Collective × Bool
  isCall : mpiCall value = some kind
  sendSize : Int
  recvSize : Int
  root : Bool
  communicator : Int
  beginTime : Nat
  endTime : Nat
  body : List Step
  others : ∀ x ∈ body.filterMap Step.typeValue, x.1 ∈ globalOpFieldTypes ∨ isMPIBlock x.1 = false
  fields : ((body.filterMap Step.typeValue).filter fun x => x.1 ∈ globalOpFieldTypes).Perm
    [(mpiGlobalOpSendSize, sendSize), (mpiGlobalOpRecvSize, recvSize),
      (mpiGlobalOpRoot, if root then 1 else 0), (mpiGlobalOpComm, communicator)]

def Call.steps (c : Call) : List Step :=
  .event ⟨mpitypeCollective, c.value, c.beginTime⟩ :: c.body ++
    [.event ⟨mpitypeCollective, 0, c.endTime⟩]

def Call.record (c : Call) : Record :=
  .globalOp c.kind.1.id c.communicator c.root c.sendSize c.recvSize c.kind.2

def Call.waitRecord (c : Call) : Record :=
  .globalOpWait c.kind.1.id c.communicator c.root c.sendSize c.recvSize

/-- Steps that are not about collective operations or `MPI_Wait`. -/
def Step.IsOther : Step → Prop
  | .event e =>
      (e.type ≠ mpitypeCollective ∨ e.value = 0) ∧
        (isMPIBlock e.type = true → e.value ≠ mpiWaitVal) ∧
        e.type ∉ globalOpFieldTypes
  | _ => True

/-- The parts of the events of a task: its collective calls, its `MPI_Wait` calls with or without an
associated message, and single steps. -/
inductive Item
  | call (c : Call)
  | wait (message : Bool) (beginTime endTime : Nat)
  | other (x : Step) (isOther : x.IsOther)

def mpitypePtop : Int := 50000001

def Item.steps : Item → List Step
  | .call c => c.steps
  | .wait message beginTime endTime =>
      .event ⟨mpitypePtop, mpiWaitVal, beginTime⟩ ::
        ((if message then [.physicalRecv] else []) ++ [.event ⟨mpitypePtop, 0, endTime⟩])
  | .other x _ => [x]

/-- The records of a task are flushed after its last event. -/
def steps (items : List Item) : List Step := items.flatMap Item.steps ++ [.flushed]

def calls (items : List Item) : List Call :=
  items.filterMap fun
    | .call c => some c
    | _ => none

/-- The non-blocking calls that are waited for, in the order of the waits: a wait without a message is
for the oldest call that has not been waited for. -/
def waitedCalls : List Call → List Item → List Call
  | _, [] => []
  | inFlight, .call c :: items =>
      waitedCalls (if c.kind.2 then inFlight else inFlight ++ [c]) items
  | c :: inFlight, .wait false _ _ :: items => c :: waitedCalls inFlight items
  | inFlight, _ :: items => waitedCalls inFlight items

def Record.isGlobalOp : Record → Bool
  | .globalOp .. => true
  | _ => false

def Record.isWait : Record → Bool
  | .globalOpWait .. => true
  | _ => false

def Record.isNonBlocking : Record → Bool
  | .globalOp _ _ _ _ _ synch => !synch
  | _ => false

/-- The collective calls of a task are translated: one operation for each call, one wait for each
call that is waited for, and no wait before its operation. -/
def Translated (generateMPIInitBarrier : Bool) (items : List Item) : Prop :=
  ∃ s, Info.initial.run generateMPIInitBarrier (steps items) = some s ∧
    s.written.filter Record.isGlobalOp = (calls items).map Call.record ∧
    s.written.filter Record.isWait = (waitedCalls [] items).map Call.waitRecord ∧
    ∀ written, written <+: s.written →
      written.countP Record.isWait ≤ written.countP Record.isNonBlocking

/-! ## The identifiers that are written -/

def writtenId (value : Int) : Option Int :=
  (mpiGlobalOpId value).map fun id => (⟨0, 0, 0, id, false⟩ : GlobalOp).getGlobalOpId

def Step.begunId : Step → Option Int
  | .event e => if e.type = mpitypeCollective ∧ e.value ≠ 0 then writtenId e.value else none
  | _ => none

def Record.opId : Record → Option Int
  | .globalOp id .. => some id
  | _ => none

def Info.pendingIds (s : Info) : List Int := (s.partialGlobalOp.map GlobalOp.getGlobalOpId).toList

def Info.writtenIds (s : Info) : List Int := s.written.filterMap Record.opId

theorem getGlobalOpId_event2GlobalOp (op : GlobalOp) (fields : Nat) (e : Event) :
    (event2GlobalOp op fields e).1.getGlobalOpId = op.getGlobalOpId := by
  unfold event2GlobalOp
  split_ifs <;> rfl

theorem pendingIds_fillGlobalOp (s : Info) (e : Event) :
    (s.fillGlobalOp e).pendingIds = s.pendingIds := by
  unfold Info.fillGlobalOp
  split
  next op h => simp [Info.pendingIds, h, getGlobalOpId_event2GlobalOp]
  · rfl

theorem written_fillGlobalOp (s : Info) (e : Event) : (s.fillGlobalOp e).written = s.written := by
  unfold Info.fillGlobalOp
  split <;> rfl

/-- A call that begins takes the place of the operation that is pending. -/
theorem beginGlobalOp_eq_some {s s' : Info} {e : Event} (h : s.beginGlobalOp e = some s') :
    s'.written = s.written ∧
      ((e.type = mpitypeCollective ∧ e.value ≠ 0 ∧
          (writtenId e.value).toList = s'.pendingIds ∧ (writtenId e.value).isSome) ∨
        (¬(e.type = mpitypeCollective ∧ e.value ≠ 0) ∧ s' = s)) := by
  unfold Info.beginGlobalOp at h
  split at h
  next hb =>
    obtain ⟨id, hid, hs'⟩ := Option.map_eq_some_iff.mp h
    subst hs'
    refine ⟨rfl, Or.inl ⟨hb.1, hb.2, ?_, ?_⟩⟩
    · simp [writtenId, hid, Info.pendingIds, GlobalOp.getGlobalOpId]
    · simp [writtenId, hid]
  next hb => exact ⟨by rw [Option.some.inj h], Or.inr ⟨hb, (Option.some.inj h).symm⟩⟩

theorem waitGlobalOp_pendingIds (s : Info) (value : Int) :
    (s.waitGlobalOp value).pendingIds = s.pendingIds := by
  unfold Info.waitGlobalOp
  split
  · split <;> rfl
  · rfl

theorem waitGlobalOp_writtenIds (s : Info) (value : Int) :
    (s.waitGlobalOp value).writtenIds = s.writtenIds := by
  unfold Info.waitGlobalOp
  split
  · split
    · simp [Info.writtenIds, Record.opId]
    · rfl
  · rfl

theorem mpiBlock_pendingIds (init : Bool) (s : Info) (e : Event) :
    (s.mpiBlock init e).pendingIds = s.pendingIds := by
  unfold Info.mpiBlock
  split
  · split
    · rfl
    · split
      · rfl
      · rw [waitGlobalOp_pendingIds]
        unfold Info.initBarrier
        split <;> rfl
  · rfl

theorem mpiBlock_writtenIds (init : Bool) (s : Info) (e : Event) :
    (s.mpiBlock init e).writtenIds = s.writtenIds := by
  unfold Info.mpiBlock
  split
  · split
    · rfl
    · split
      · rfl
      · rw [waitGlobalOp_writtenIds]
        unfold Info.initBarrier
        split
        · simp [Info.writtenIds, Record.opId]
        · rfl
  · rfl

theorem finalizeGlobalOp_ids (s : Info) :
    (s.finalizeGlobalOp.writtenIds ++ s.finalizeGlobalOp.pendingIds).Sublist
      (s.writtenIds ++ s.pendingIds) := by
  unfold Info.finalizeGlobalOp
  split
  next op h =>
    split
    · simp [Info.writeGlobalOp, Info.writtenIds, Info.pendingIds, Record.opId, h]
    · simp [Info.writtenIds, Info.pendingIds]
  · simp

/-- The numbers that are written or pending after a step are among those before it and that of the
call that begins. -/
theorem step_ids {init : Bool} {s s' : Info} {x : Step} (h : s.step init x = some s') :
    (s'.writtenIds ++ s'.pendingIds).Sublist
      (s.writtenIds ++ s.pendingIds ++ x.begunId.toList) := by
  cases x with
  | event e =>
    simp only [Info.step] at h
    split at h
    next =>
      rw [← Option.some.inj h]
      exact List.sublist_append_left _ _
    next =>
      obtain ⟨t, ht, hs'⟩ := Option.map_eq_some_iff.mp h
      have hbegin := beginGlobalOp_eq_some ht
      have hwritten : t.writtenIds = s.writtenIds := by
        unfold Info.writtenIds
        rw [hbegin.1, written_fillGlobalOp]
      rw [← hs', mpiBlock_writtenIds, mpiBlock_pendingIds, hwritten]
      rcases hbegin.2 with ⟨htype, hvalue, hids, -⟩ | ⟨hno, hts⟩
      · have hid : (Step.event e).begunId = writtenId e.value := by
          simp [Step.begunId, htype, hvalue]
        rw [hid, hids]
        exact (List.sublist_append_left _ _).append_right _
      · rw [hts, pendingIds_fillGlobalOp]
        exact List.sublist_append_left _ _
  | physicalRecv =>
    rw [← Option.some.inj h]
    exact List.sublist_append_left _ _
  | flushed =>
    rw [← Option.some.inj h]
    exact (finalizeGlobalOp_ids s).trans (List.sublist_append_left _ _)

theorem run_ids {init : Bool} {xs : List Step} : ∀ {s s' : Info}, s.run init xs = some s' →
    (s'.writtenIds ++ s'.pendingIds).Sublist
      (s.writtenIds ++ s.pendingIds ++ xs.filterMap Step.begunId) := by
  induction xs with
  | nil =>
    intro s s' h
    rw [Option.some.inj h]
    exact List.sublist_append_left _ _
  | cons x xs ih =>
    intro s s' h
    obtain ⟨t, ht, hrun⟩ := Option.bind_eq_some_iff.mp h
    have hx : (x :: xs).filterMap Step.begunId = x.begunId.toList ++ xs.filterMap Step.begunId := by
      cases hb : x.begunId <;> simp [hb]
    rw [hx, ← List.append_assoc]
    exact (ih hrun).trans ((step_ids ht).append_right _)

/-! ## The table of the operations -/

theorem mem_of_mpiCall {value : Int} {kind : Collective × Bool} (h : mpiCall value = some kind) :
    (value, kind) ∈ mpiCalls := by
  obtain ⟨before, after, hcalls, -⟩ := List.lookup_eq_some_iff.mp h
  rw [hcalls]
  exact List.mem_append_right _ List.mem_cons_self

/-- No MPI call has the number of its operation in the table. -/
theorem writtenId_ne_of_mem :
    ∀ call ∈ mpiCalls, writtenId call.1 ≠ some call.2.1.id ∧ call.1 ≠ 0 := by
  decide

theorem begunId_begin (c : Call) :
    (Step.event ⟨mpitypeCollective, c.value, c.beginTime⟩).begunId = writtenId c.value := by
  have hvalue : c.value ≠ 0 := (writtenId_ne_of_mem _ (mem_of_mpiCall c.isCall)).2
  simp [Step.begunId, hvalue]

/-- Only the first step of a call begins an operation. -/
theorem begunId_body {c : Call} {x : Step} (hx : x ∈ c.body) : x.begunId = none := by
  cases x with
  | event e =>
    have hfield : (e.type, e.value) ∈ c.body.filterMap Step.typeValue :=
      List.mem_filterMap.mpr ⟨_, hx, rfl⟩
    have htype : e.type ≠ mpitypeCollective := by
      intro htype
      have hno : ¬(mpitypeCollective ∈ globalOpFieldTypes ∨
          isMPIBlock mpitypeCollective = false) := by decide
      have hother := c.others _ hfield
      rw [htype] at hother
      exact hno hother
    simp [Step.begunId, htype]
  | physicalRecv => rfl
  | flushed => rfl

theorem begunIds_call (c : Call) :
    c.steps.filterMap Step.begunId = (writtenId c.value).toList := by
  have hbody : c.body.filterMap Step.begunId = [] :=
    List.filterMap_eq_nil_iff.mpr fun _ hx => begunId_body hx
  have hend : [Step.event ⟨mpitypeCollective, 0, c.endTime⟩].filterMap Step.begunId = [] := by
    simp [Step.begunId]
  unfold Call.steps
  rw [List.filterMap_append, hend, List.append_nil, List.filterMap_cons, hbody, begunId_begin]
  cases writtenId c.value <;> rfl

theorem begunId_of_isOther {x : Step} (h : x.IsOther) : x.begunId = none := by
  cases x with
  | event e =>
    apply if_neg
    rintro ⟨htype, hvalue⟩
    exact h.1.elim (· htype) hvalue
  | physicalRecv => rfl
  | flushed => rfl

theorem begunIds_items (items : List Item) :
    (items.flatMap Item.steps).filterMap Step.begunId =
      (calls items).flatMap fun c => (writtenId c.value).toList := by
  induction items with
  | nil => rfl
  | cons item items ih =>
    rw [List.flatMap_cons, List.filterMap_append, ih]
    cases item with
    | call c =>
      have hcalls : calls (.call c :: items) = c :: calls items := rfl
      rw [hcalls, List.flatMap_cons, Item.steps, begunIds_call]
    | wait message beginTime endTime =>
      have hcalls : calls (.wait message beginTime endTime :: items) = calls items := rfl
      rw [hcalls]
      cases message <;> simp [Item.steps, Step.begunId, mpitypePtop, mpitypeCollective]
    | other x isOther =>
      have hcalls : calls (.other x isOther :: items) = calls items := rfl
      rw [hcalls]
      simp [Item.steps, begunId_of_isOther isOther]

theorem length_flatMap_toList_le (cs : List Call) :
    (cs.flatMap fun c => (writtenId c.value).toList).length ≤ cs.length := by
  induction cs with
  | nil => exact le_refl 0
  | cons c cs ih =>
    rw [List.flatMap_cons, List.length_append, List.length_cons]
    have hone : (writtenId c.value).toList.length ≤ 1 := by
      cases writtenId c.value <;> simp
    omega

theorem opIds_filter (records : List Record) :
    (records.filter Record.isGlobalOp).filterMap Record.opId = records.filterMap Record.opId := by
  induction records with
  | nil => rfl
  | cons record records ih =>
    cases record <;> simp [Record.isGlobalOp, Record.opId, List.filter_cons, List.filterMap_cons, ih]

theorem ids_eq_of_written {init : Bool} {items : List Item} {s : Info}
    (hrun : Info.initial.run init (steps items) = some s)
    (hops : s.written.filter Record.isGlobalOp = (calls items).map Call.record) :
    (calls items).map (fun c => c.kind.1.id) =
      (calls items).flatMap fun c => (writtenId c.value).toList := by
  have hids : s.writtenIds = (calls items).map fun c => c.kind.1.id := by
    unfold Info.writtenIds
    rw [← opIds_filter, hops, List.filterMap_map]
    exact congrFun List.filterMap_eq_map' _
  have hsub : s.writtenIds.Sublist ((steps items).filterMap Step.begunId) :=
    (List.sublist_append_left _ _).trans (run_ids hrun)
  have hbegun : (steps items).filterMap Step.begunId =
      (calls items).flatMap fun c => (writtenId c.value).toList := by
    unfold steps
    rw [List.filterMap_append, begunIds_items]
    exact List.append_nil _
  rw [hids, hbegun] at hsub
  apply hsub.eq_of_length_le
  rw [List.length_map]
  exact length_flatMap_toList_le _

theorem calls_eq_nil_of_translated {init : Bool} {items : List Item}
    (h : Translated init items) : calls items = [] := by
  obtain ⟨s, hrun, hops, -⟩ := h
  have hids := ids_eq_of_written hrun hops
  cases hcalls : calls items with
  | nil => rfl
  | cons c cs =>
    exfalso
    rw [hcalls, List.map_cons, List.flatMap_cons] at hids
    have hne := (writtenId_ne_of_mem _ (mem_of_mpiCall c.isCall)).1
    cases hid : writtenId c.value with
    | some id =>
      rw [hid] at hids hne
      exact hne (congrArg some (List.cons.inj hids).1.symm)
    | none =>
      have hlength := congrArg List.length hids
      have hle := length_flatMap_toList_le cs
      rw [hid] at hlength
      simp at hlength
      simp at hle
      omega

/-! ## Sequences without collective calls -/

/-- Nothing of a collective operation has been seen. -/
structure Info.Quiet (s : Info) : Prop where
  pending : s.partialGlobalOp = none
  inFlight : s.nonBlockingGlopsInFlight = []
  operations : ∀ record ∈ s.written, record = .initBarrier

theorem Info.Quiet.initBarrier {s : Info} (h : s.Quiet) (init : Bool) (value : Int) :
    (s.initBarrier init value).Quiet := by
  unfold Info.initBarrier
  split
  · refine ⟨h.pending, h.inFlight, fun record hrecord => ?_⟩
    rcases List.mem_append.mp hrecord with hold | hnew
    · exact h.operations record hold
    · exact List.mem_singleton.mp hnew
  · exact h

theorem Info.Quiet.waitGlobalOp {s : Info} (h : s.Quiet) (value : Int) :
    (s.waitGlobalOp value).Quiet := by
  unfold Info.waitGlobalOp
  rw [h.inFlight]
  split <;> exact h

theorem Info.Quiet.mpiBlock {s : Info} (h : s.Quiet) (init : Bool) (e : Event) :
    (s.mpiBlock init e).Quiet := by
  unfold Info.mpiBlock
  split
  · split
    · exact ⟨h.pending, h.inFlight, h.operations⟩
    · split
      · exact h
      next value values _ =>
        have hpop : Info.Quiet { s with mpiBlockIdStack := values } :=
          ⟨h.pending, h.inFlight, h.operations⟩
        exact (hpop.initBarrier init value).waitGlobalOp value
  · exact h

/-- A step that begins no collective call is processed, and nothing is written for it. -/
theorem Info.Quiet.step {s : Info} (h : s.Quiet) (init : Bool) {x : Step}
    (hx : ∀ e, x = .event e → e.type ≠ mpitypeCollective ∨ e.value = 0) :
    ∃ s', s.step init x = some s' ∧ s'.Quiet := by
  cases x with
  | event e =>
    have hno : ¬(e.type = mpitypeCollective ∧ e.value ≠ 0) := by
      rintro ⟨htype, hvalue⟩
      exact (hx e rfl).elim (· htype) hvalue
    have hfill : s.fillGlobalOp e = s := by
      unfold Info.fillGlobalOp
      rw [h.pending]
    have hbegin : s.beginGlobalOp e = some s := if_neg hno
    simp only [Info.step, hfill, hbegin]
    split
    · exact ⟨s, rfl, h⟩
    · exact ⟨_, rfl, h.mpiBlock init e⟩
  | physicalRecv => exact ⟨_, rfl, h.pending, h.inFlight, h.operations⟩
  | flushed =>
    refine ⟨s, ?_, h⟩
    unfold Info.step Info.finalizeGlobalOp
    rw [h.pending]

theorem Info.Quiet.run {init : Bool} {xs : List Step}
    (hxs : ∀ e, Step.event e ∈ xs → e.type ≠ mpitypeCollective ∨ e.value = 0) :
    ∀ {s : Info}, s.Quiet → ∃ s', s.run init xs = some s' ∧ s'.Quiet := by
  induction xs with
  | nil => exact fun h => ⟨_, rfl, h⟩
  | cons x xs ih =>
    intro s h
    obtain ⟨t, ht, hquiet⟩ := h.step init fun e he => hxs e (he ▸ List.mem_cons_self)
    obtain ⟨s', hs', hquiet'⟩ := ih (fun e he => hxs e (List.mem_cons_of_mem _ he)) hquiet
    refine ⟨s', ?_, hquiet'⟩
    unfold Info.run
    rw [ht]
    exact hs'

theorem type_of_mem_steps {items : List Item} (hcalls : calls items = []) {e : Event}
    (he : Step.event e ∈ steps items) : e.type ≠ mpitypeCollective ∨ e.value = 0 := by
  rcases List.mem_append.mp he with hitem | hlast
  · obtain ⟨item, hmem, hstep⟩ := List.mem_flatMap.mp hitem
    cases item with
    | call c => exact absurd (List.filterMap_eq_nil_iff.mp hcalls _ hmem) (Option.some_ne_none c)
    | wait message beginTime endTime =>
      left
      rcases List.mem_cons.mp hstep with hbegin | hrest
      · rw [Step.event.inj hbegin]
        exact ne_of_beq_false rfl
      · rcases List.mem_append.mp hrest with hmessage | hend
        · cases message <;> simp at hmessage
        · rw [Step.event.inj (List.mem_singleton.mp hend)]
          exact ne_of_beq_false rfl
    | other x isOther =>
      rw [← List.mem_singleton.mp hstep] at isOther
      exact isOther.1
  · exact absurd (List.mem_singleton.mp hlast) (by simp)

theorem waitedCalls_of_calls_eq_nil {items : List Item} (hcalls : calls items = []) :
    waitedCalls [] items = [] := by
  induction items with
  | nil => rfl
  | cons item items ih =>
    cases item with
    | call c => exact absurd hcalls (List.cons_ne_nil _ _)
    | wait message beginTime endTime => cases message <;> exact ih hcalls
    | other x isOther => exact ih hcalls

theorem filter_eq_nil_of_initBarrier {written : List Record} {q : Record → Bool}
    (h : ∀ record ∈ written, record = .initBarrier) (hq : q .initBarrier = false) :
    written.filter q = [] := by
  apply List.filter_eq_nil_iff.mpr
  intro record hrecord
  rw [h record hrecord, hq]
  exact Bool.false_ne_true

theorem translated_of_calls_eq_nil {init : Bool} {items : List Item} (hcalls : calls items = []) :
    Translated init items := by
  have hinitial : Info.initial.Quiet := ⟨rfl, rfl, fun _ h => absurd h List.not_mem_nil⟩
  obtain ⟨s, hrun, hquiet⟩ : ∃ s, Info.initial.run init (steps items) = some s ∧ s.Quiet :=
    hinitial.run fun _ he => type_of_mem_steps hcalls he
  refine ⟨s, hrun, ?_, ?_, fun written hfirst => ?_⟩
  · rw [hcalls]
    exact filter_eq_nil_of_initBarrier hquiet.operations rfl
  · rw [waitedCalls_of_calls_eq_nil hcalls]
    exact filter_eq_nil_of_initBarrier hquiet.operations rfl
  · have hnone : written.filter Record.isWait = [] :=
      filter_eq_nil_of_initBarrier (fun record h => hquiet.operations record (hfirst.subset h)) rfl
    rw [List.countP_eq_length_filter, hnone]
    exact Nat.zero_le _

/-- The collective calls of a task are translated exactly if there are none. -/
theorem translated_iff_no_calls {init : Bool} {items : List Item} :
    Translated init items ↔ calls items = [] :=
  ⟨calls_eq_nil_of_translated, translated_of_calls_eq_nil⟩

/-- An `MPI_Bcast` of 1000 bytes. -/
def bcast : Call where
  value := 7
  kind := (.bcast, true)
  isCall := rfl
  sendSize := 1000
  recvSize := 1000
  root := true
  communicator := 1
  beginTime := 10
  endTime := 20
  body := [.event ⟨mpiGlobalOpSendSize, 1000, 10⟩, .event ⟨mpiGlobalOpRecvSize, 1000, 10⟩,
    .event ⟨mpiGlobalOpRoot, 1, 10⟩, .event ⟨mpiGlobalOpComm, 1, 10⟩, .flushed]
  others := by decide
  fields := List.Perm.refl _

/-- The broadcast is written as an `MPI_Allgather`. -/
theorem not_translated : ¬ ∀ init items, Translated init items := by
  intro h
  obtain ⟨s, hrun, hops, -⟩ := h false [.call bcast]
  have hwritten : (Info.initial.run false (steps [.call bcast])).map Info.written =
      some [.globalOp 6 1 true 1000 1000 true] := rfl
  rw [hrun] at hwritten
  rw [Option.some.inj hwritten] at hops
  exact absurd hops (by decide)

end Dimemas.Prv2dim.CollectiveTranslation
