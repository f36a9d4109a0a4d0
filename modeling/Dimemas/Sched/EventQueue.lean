import Dimemas.Library.StableQueue
import Dimemas.Utils.Equeue
import Dimemas.Utils.ListQueue
/-!
# The event queue and its two implementations

`Event_queue` is a `t_queue` of linked items or, under `USE_EQUEUE`, an `EqueueC`.
`QueueOps` is the interface that `events.c` uses; `Implements` says that an
implementation behaves as the sorted list of the pending events. Both
implementations do, and so both return what a stable priority queue returns.
-/

namespace Dimemas.Sched.EventQueue

open Dimemas.Library.LinkedList Dimemas.Library.StableQueue
open Dimemas.Utils.ListQueue Dimemas.Utils.Equeue

/-- The `M_*` modules an event can be addressed to. -/
inductive EventModule
  | sch | com | fs | ev | port | mem | ctxtSw | rma
deriving DecidableEq, Repr

/-- `struct t_event`. `ident` is the address of the record, so that two events are the
same pointer exactly when they are equal. -/
structure TEvent (τ : Type) where
  ident : Nat
  eventTime : τ
  module : EventModule
  thread : Option Nat
  info : Int
  daemon : Bool
deriving DecidableEq, Repr

variable {τ Q : Type}

/-- The operations of `Event_queue`. `none` is a panic or an invalid memory access. -/
structure QueueOps (τ : Type) (Q : Type) where
  create : Q
  insert : Q → TEvent τ → Option Q
  extract : Q → TEvent τ → Option Q
  outFifo : Q → Option (Q × Option (TEvent τ))
  top : Q → Option (Option (TEvent τ))
  count : Q → Int
  scan : (TEvent τ → Bool) → Q → Option (Q × Option (TEvent τ))

section

variable [LinearOrder τ]

def insertEvent (q : Heap τ (TEvent τ) × TQueue) (e : TEvent τ) :
    Option (Heap τ (TEvent τ) × TQueue) :=
  insertBehind (fun k => k ≤ e.eventTime) q.1 q.2 e.eventTime e

/-- The linked queue of `list.c`. -/
def listEventQueue : QueueOps τ (Heap τ (TEvent τ) × TQueue) where
  create := (Heap.empty, createQueue)
  insert := insertEvent
  extract q e := extractFromQueue q.1 q.2 e
  outFifo q := (outFifoEvent q.1 q.2).map fun (h, q, e) => ((h, q), e)
  top q := topEvent q.1 q.2
  count q := countQueue q.2
  scan found q := (scanQueue found q.1 q.2).map fun (q', e) => ((q.1, q'), e)

/-- The multimap queue of `listE.cc`. -/
def multimapEventQueue : QueueOps τ (EqueueC τ (TEvent τ)) where
  create := EqueueC.empty
  insert q e := some (q.insert e e.eventTime)
  extract q e := some (q.extract e)
  outFifo q := some q.pop
  top q := some q.top
  count q := q.count
  scan found q := q.scan found

end

/-! ## Both behave as a sorted list -/

/-- `view q l` says that `q` holds the events `l`, in this order; every operation acts
on that list. -/
structure Implements [LinearOrder τ] (ops : QueueOps τ Q) (view : Q → List (TEvent τ) → Prop) :
    Prop where
  create : view ops.create []
  insert : ∀ q l e, view q l →
    ∃ q', ops.insert q e = some q' ∧ view q' (insertAfter TEvent.eventTime e l)
  extract : ∀ q l e, view q l → e ∈ l →
    ∃ q', ops.extract q e = some q' ∧ view q' (l.erase e)
  extract_absent : ∀ q l e, view q l → e ∉ l →
    ops.extract q e = none ∨ ∃ q', ops.extract q e = some q' ∧ view q' l
  outFifo_nil : ∀ q, view q [] → ∃ q', ops.outFifo q = some (q', none) ∧ view q' []
  outFifo_cons : ∀ q e l, view q (e :: l) →
    ∃ q', ops.outFifo q = some (q', some e) ∧ view q' l
  top : ∀ q l, view q l → ops.top q = some l.head?
  count : ∀ q l, view q l → ops.count q = l.length
  scan : ∀ q l found, view q l →
    ∃ q', ops.scan found q = some (q', l.find? found) ∧ view q' l

/-- The items of a queue that holds the events `l`. -/
def items (l : List (TEvent τ)) : List (τ × TEvent τ) := l.map fun e => (e.eventTime, e)

@[simp] theorem map_snd_items (l : List (TEvent τ)) : (items l).map Prod.snd = l := by
  rw [items, List.map_map]
  exact List.map_id l

section

variable [LinearOrder τ]

theorem items_insertAfter (l : List (TEvent τ)) (e : TEvent τ) :
    items (insertAfter TEvent.eventTime e l) =
      ((items l).takeWhile fun x => x.1 ≤ e.eventTime) ++
        (e.eventTime, e) :: (items l).dropWhile fun x => x.1 ≤ e.eventTime := by
  simp only [items, insertAfter, List.map_append, List.map_cons, List.takeWhile_map,
    List.dropWhile_map]
  rfl

theorem items_erase (l : List (TEvent τ)) (e : TEvent τ) :
    items (l.erase e) = (items l).eraseP fun x => x.2 = e := by
  rw [items, items, List.eraseP_map, List.erase_eq_eraseP']
  rfl

def listView (q : Heap τ (TEvent τ) × TQueue) (l : List (TEvent τ)) : Prop :=
  Holds q.1 q.2 (items l)

def multimapView (q : EqueueC τ (TEvent τ)) (l : List (TEvent τ)) : Prop :=
  q.evQ = items l ∧ q.Ecount = l.length

theorem listEventQueue_implements : Implements (τ := τ) listEventQueue listView where
  create := holds_createQueue
  insert q l e hview := by
    obtain ⟨h', q', heq, hholds⟩ :=
      holds_insertBehind hview (fun k => k ≤ e.eventTime) e.eventTime e
    exact ⟨(h', q'), heq, by rwa [listView, items_insertAfter]⟩
  extract q l e hview hmem := by
    obtain ⟨h', q', heq, hholds⟩ :=
      holds_extractFromQueue hview (show e ∈ (items l).map Prod.snd by rwa [map_snd_items])
    exact ⟨(h', q'), heq, by rwa [listView, items_erase]⟩
  extract_absent q l e hview hmem := by
    exact .inl (extractFromQueue_absent hview (by rwa [map_snd_items]))
  outFifo_nil q hview := by
    refine ⟨q, ?_, hview⟩
    simp only [listEventQueue, holds_outFifoEvent_nil hview, Option.map_some]
  outFifo_cons q e l hview := by
    obtain ⟨h', q', heq, hholds⟩ := holds_outFifoEvent_cons hview
    refine ⟨(h', q'), ?_, hholds⟩
    simp only [listEventQueue, heq, Option.map_some]
  top q l hview := by
    change topEvent q.1 q.2 = some l.head?
    rw [holds_topEvent hview, ← List.head?_map, map_snd_items]
  count q l hview := by
    change countQueue q.2 = l.length
    rw [hview.countQueue, items, List.length_map]
  scan q l found hview := by
    obtain ⟨cursor, heq⟩ := holds_scanQueue hview found
    obtain ⟨xs, hrep, hxs⟩ := hview
    refine ⟨(q.1, { q.2 with curr := cursor }), ?_, xs, ?_, hxs⟩
    · simp only [listEventQueue, heq, Option.map_some, map_snd_items]
    · exact ⟨hrep.wf, hrep.seg, hrep.nodup, hrep.count⟩

theorem multimapEventQueue_implements : Implements (τ := τ) multimapEventQueue multimapView where
  create := ⟨rfl, rfl⟩
  insert q l e hview := by
    refine ⟨_, rfl, ?_, ?_⟩
    · rw [EqueueC.insert, multimapInsert_eq, hview.1, ← items_insertAfter]
    · rw [EqueueC.insert, hview.2, length_insertAfter]
      rfl
  extract q l e hview hmem := by
    have hin : e ∈ q.evQ.map Prod.snd := by rwa [hview.1, map_snd_items]
    refine ⟨_, rfl, ?_, ?_⟩
    · rw [EqueueC.extract, if_pos hin, hview.1, items_erase]
    · rw [EqueueC.extract, if_pos hin, hview.2, List.length_erase_of_mem hmem]
      have hpos := List.length_pos_of_mem hmem
      change (l.length : Int) - 1 = ((l.length - 1 : Nat) : Int)
      omega
  extract_absent q l e hview hmem := by
    have hout : e ∉ q.evQ.map Prod.snd := by rwa [hview.1, map_snd_items]
    refine .inr ⟨q, ?_, hview⟩
    change some (q.extract e) = some q
    rw [EqueueC.extract, if_neg hout]
  outFifo_nil q hview := by
    refine ⟨q, ?_, hview⟩
    simp [multimapEventQueue, EqueueC.pop, hview.1, items]
  outFifo_cons q e l hview := by
    refine ⟨{ q with evQ := items l, Ecount := q.Ecount - 1 }, ?_, rfl, ?_⟩
    · simp [multimapEventQueue, EqueueC.pop, hview.1, items]
    · simp [hview.2]
  top q l hview := by
    simp only [multimapEventQueue, EqueueC.top, hview.1, ← List.head?_map, map_snd_items]
  count q l hview := hview.2
  scan q l found hview := by
    obtain ⟨cursor, heq⟩ := scan_eq found q
    refine ⟨{ q with curr := cursor }, ?_, hview⟩
    change q.scan found = _
    rw [heq, hview.1, map_snd_items]

/-! ## Sequences of operations -/

inductive QueueAction (τ : Type)
  | insert (e : TEvent τ)
  | extract (e : TEvent τ)
  | pop

/-- Runs a sequence of operations and collects what its pops return. -/
def runActions (ops : QueueOps τ Q) : Q → List (QueueAction τ) → Option (List (Option (TEvent τ)))
  | _, [] => some []
  | q, .insert e :: acts => do
      let q ← ops.insert q e
      runActions ops q acts
  | q, .extract e :: acts => do
      let q ← ops.extract q e
      runActions ops q acts
  | q, .pop :: acts => do
      let (q, e) ← ops.outFifo q
      let returned ← runActions ops q acts
      some (e :: returned)

/-- What a stable priority queue returns for a sequence of operations that extracts only
pending events: the bag lists them in the order of their insertion. -/
inductive StableRun : List (TEvent τ) → List (QueueAction τ) → List (Option (TEvent τ)) → Prop
  | nil {b : List (TEvent τ)} : StableRun b [] []
  | insert {b : List (TEvent τ)} {e : TEvent τ} {acts : List (QueueAction τ)}
      {returned : List (Option (TEvent τ))} :
      StableRun (b ++ [e]) acts returned → StableRun b (.insert e :: acts) returned
  | extract {b : List (TEvent τ)} {e : TEvent τ} {acts : List (QueueAction τ)}
      {returned : List (Option (TEvent τ))} :
      e ∈ b → StableRun (b.erase e) acts returned → StableRun b (.extract e :: acts) returned
  | popEmpty {acts : List (QueueAction τ)} {returned : List (Option (TEvent τ))} :
      StableRun [] acts returned → StableRun [] (.pop :: acts) (none :: returned)
  | pop {b b' : List (TEvent τ)} {e : TEvent τ} {acts : List (QueueAction τ)}
      {returned : List (Option (TEvent τ))} :
      PopsTo TEvent.eventTime b e b' → StableRun b' acts returned →
      StableRun b (.pop :: acts) (some e :: returned)

/-- Every extraction names an event that is pending at that point; `b` lists the pending
events in the order of their insertion. -/
def ExtractsPresent : List (TEvent τ) → List (QueueAction τ) → Prop
  | _, [] => True
  | b, .insert e :: acts => ExtractsPresent (b ++ [e]) acts
  | b, .extract e :: acts => e ∈ b ∧ ExtractsPresent (b.erase e) acts
  | b, .pop :: acts =>
      match popFirstMin TEvent.eventTime b with
      | none => ExtractsPresent [] acts
      | some (_, b') => ExtractsPresent b' acts

theorem exists_stableRun {b : List (TEvent τ)} {acts : List (QueueAction τ)}
    (hpresent : ExtractsPresent b acts) : ∃ returned, StableRun b acts returned := by
  induction acts generalizing b with
  | nil => exact ⟨[], .nil⟩
  | cons act acts ih =>
      cases act with
      | insert e =>
          obtain ⟨returned, hrun⟩ := ih hpresent
          exact ⟨returned, .insert hrun⟩
      | extract e =>
          obtain ⟨returned, hrun⟩ := ih hpresent.2
          exact ⟨returned, .extract hpresent.1 hrun⟩
      | pop =>
          rw [ExtractsPresent] at hpresent
          cases hpop : popFirstMin TEvent.eventTime b with
          | none =>
              obtain rfl := popFirstMin_eq_none.mp hpop
              simp only [hpop] at hpresent
              obtain ⟨returned, hrun⟩ := ih hpresent
              exact ⟨none :: returned, .popEmpty hrun⟩
          | some p =>
              simp only [hpop] at hpresent
              obtain ⟨returned, hrun⟩ := ih hpresent
              exact ⟨some p.1 :: returned, .pop (popsTo_of_popFirstMin hpop) hrun⟩

/-- An implementation that behaves as the sorted list returns what the bag returns. -/
theorem runActions_of_stableRun {ops : QueueOps τ Q} {view : Q → List (TEvent τ) → Prop}
    (himpl : Implements ops view) {b l : List (TEvent τ)} {q : Q}
    {acts : List (QueueAction τ)} {returned : List (Option (TEvent τ))}
    (hview : view q l) (hrep : Represents TEvent.eventTime l b)
    (hrun : StableRun b acts returned) : runActions ops q acts = some returned := by
  induction hrun generalizing q l with
  | nil => rfl
  | @insert b e acts returned _ ih =>
      obtain ⟨q', heq, hview'⟩ := himpl.insert q l e hview
      rw [runActions, heq]
      exact ih hview' (hrep.insertAfter e)
  | @extract b e acts returned hmem _ ih =>
      obtain ⟨q', heq, hview'⟩ := himpl.extract q l e hview (hrep.mem_iff.mpr hmem)
      rw [runActions, heq]
      exact ih hview' (hrep.erase e)
  | popEmpty _ ih =>
      obtain rfl := hrep.eq_nil_iff.mpr rfl
      obtain ⟨q', heq, hview'⟩ := himpl.outFifo_nil q hview
      rw [runActions, heq]
      simp only [Option.bind_eq_bind, Option.bind_some, ih hview' hrep]
  | @pop b b' e acts returned hpop _ ih =>
      cases l with
      | nil =>
          obtain rfl := hrep.eq_nil_iff.mp rfl
          obtain ⟨before, after, heq, -⟩ := hpop
          simp at heq
      | cons x l =>
          obtain ⟨b'', hpop', hrep'⟩ := hrep.popsTo
          obtain ⟨rfl, rfl⟩ := popsTo_unique hpop hpop'
          obtain ⟨q', heq, hview'⟩ := himpl.outFifo_cons q e l hview
          rw [runActions, heq]
          simp only [Option.bind_eq_bind, Option.bind_some, ih hview' hrep']

end

end Dimemas.Sched.EventQueue
