import Dimemas.PrvUtils.Paraver
import Mathlib.Algebra.Order.Group.Nat
/-!
# What the calls give to the sort

The events of a run of calls are the groups of the accepted ones, whose keys are the objects with
the times. The states and the communications do not depend on the collapser.
-/

namespace Dimemas.PrvUtils.Emission

open Dimemas.Library.Grouping
open Dimemas.Library.Merging (Ordered)
open Dimemas.PrvUtils.ParaverRecords
open Dimemas.PrvUtils.ExternalSort
open Dimemas.PrvUtils.Paraver

abbrev Key := Object × UInt64

def Key.time (k : Key) : Nat := k.2.toNat

abbrev EventGroup := Group Key (UInt64 × UInt64)

abbrev EventInput := Input Key (UInt64 × UInt64)

def group (c : EventCollapser) : EventGroup := ⟨(c.object, c.timestamp), c.events⟩

def groupRecord (g : EventGroup) : List SimpleParaverRecord :=
  EventCollapser.flush ⟨g.key.1, g.key.2, g.items⟩

def input (s : Settings) : Call → List EventInput
  | .event object time type value =>
      if isInternal type then []
      else (s.eventTime time).toList.map fun t => .item (object, toPrvTime t) (type, value)
  | .startOp object time =>
      (s.eventTime time).toList.map fun t => .cut (object, toPrvTime t)
  | _ => []

def others (s : Settings) : Call → List SimpleParaverRecord
  | .state object initTime endTime state => s.newState object initTime endTime state
  | .comm sender logS phyS receiver logR phyR size tag =>
      s.p2pComm sender logS phyS receiver logR phyR size tag
  | _ => []

/-- Everything that a run of calls gives to the sort, and the collapser behind it. -/
def outputs (s : Settings) : EventCollapser → List Call → EventCollapser × List SimpleParaverRecord
  | c, [] => (c, [])
  | c, call :: calls =>
      let (c, rs) := s.output c call
      let (c, rs') := outputs s c calls
      (c, rs ++ rs')

section

variable {s : Settings} {c : EventCollapser} {r : SimpleParaverRecord}

theorem type_of_mem_flush (h : r ∈ c.flush) : r.type = prvEvent := by
  unfold EventCollapser.flush at h
  split at h
  · simp at h
  · rw [List.mem_singleton] at h
    rw [h]
    rfl

theorem type_of_mem_others {call : Call} (h : r ∈ others s call) : r.type ≠ prvEvent := by
  cases call with
  | event object time type value => simp [others] at h
  | startOp object time => simp [others] at h
  | state object initTime endTime state =>
      simp only [others, Settings.newState] at h
      split at h
      · simp at h
      · rw [List.mem_singleton] at h
        rw [h]
        simp only [record]
        split <;> decide
  | comm sender logS phyS receiver logR phyR size tag =>
      simp only [others, Settings.p2pComm] at h
      split at h
      · rw [List.mem_singleton] at h
        rw [h]
        exact (by decide : prvComm ≠ prvEvent)
      · simp at h

theorem isLastEvent_iff (object : Object) (timestamp : UInt64) :
    c.isLastEvent object timestamp = true ↔ (group c).key = (object, timestamp) := by
  simp [EventCollapser.isLastEvent, group]

theorem flush_group (c : EventCollapser) : (group c).flush.flatMap groupRecord = c.flush := by
  by_cases h : (group c).items = []
  · have hevents : c.events = [] := h
    rw [flush_of_nil h, List.flatMap_nil, EventCollapser.flush, hevents]
    rfl
  · rw [flush_of_ne h, List.flatMap_singleton]
    rfl

structure Steps (c : EventCollapser) (i : EventInput)
    (result : EventCollapser × List SimpleParaverRecord) : Prop where
  group : group result.1 = ((group c).step i).1
  records : result.2 = ((Emission.group c).step i).2.flatMap groupRecord

theorem newEvent_steps (c : EventCollapser) (object : Object) (timestamp type value : UInt64) :
    Steps c (.item (object, timestamp) (type, value)) (c.newEvent object timestamp type value) := by
  unfold EventCollapser.newEvent
  by_cases hlast : c.isLastEvent object timestamp = true
  · have hkey := (isLastEvent_iff object timestamp).mp hlast
    rw [if_pos hlast]
    constructor
    · rw [Group.step, if_pos hkey, ← hkey]
      rfl
    · rw [Group.step, if_pos hkey]
      rfl
  · have hkey := mt (isLastEvent_iff object timestamp).mpr hlast
    rw [if_neg hlast]
    constructor
    · rw [Group.step, if_neg hkey]
      rfl
    · rw [Group.step, if_neg hkey]
      exact (flush_group c).symm

theorem startOp_steps (c : EventCollapser) (object : Object) (timestamp : UInt64) :
    Steps c (.cut (object, timestamp)) (if c.isLastEvent object timestamp
      then (emptied object timestamp, c.flush) else (c, [])) := by
  by_cases hlast : c.isLastEvent object timestamp = true
  · have hkey := (isLastEvent_iff object timestamp).mp hlast
    rw [if_pos hlast]
    constructor
    · rw [Group.step, if_pos hkey]
      rfl
    · rw [Group.step, if_pos hkey]
      exact (flush_group c).symm
  · have hkey := mt (isLastEvent_iff object timestamp).mpr hlast
    rw [if_neg hlast]
    constructor
    · rw [Group.step, if_neg hkey]
    · rw [Group.step, if_neg hkey]
      rfl

theorem output_cases (s : Settings) (c : EventCollapser) (call : Call) :
    (input s call = [] ∧ s.output c call = (c, others s call)) ∨
    ∃ i, input s call = [i] ∧ Steps c i (s.output c call) ∧ others s call = [] := by
  cases call with
  | event object time type value =>
      simp only [input, Settings.output, Settings.paraverEvent]
      by_cases htype : isInternal type = true
      · rw [if_pos htype, if_pos htype]
        exact Or.inl ⟨rfl, rfl⟩
      rw [if_neg htype, if_neg htype]
      cases s.eventTime time with
      | none => exact Or.inl ⟨rfl, rfl⟩
      | some t => exact Or.inr ⟨_, rfl, newEvent_steps c object (toPrvTime t) type value, rfl⟩
  | startOp object time =>
      simp only [input, Settings.output, Settings.startOp]
      cases s.eventTime time with
      | none => exact Or.inl ⟨rfl, rfl⟩
      | some t => exact Or.inr ⟨_, rfl, startOp_steps c object (toPrvTime t), rfl⟩
  | state object initTime endTime state => exact Or.inl ⟨rfl, rfl⟩
  | comm sender logS phyS receiver logR phyR size tag => exact Or.inl ⟨rfl, rfl⟩

/-- The records of a run of calls and of the last flush. -/
def written (s : Settings) (c : EventCollapser) (calls : List Call) : List SimpleParaverRecord :=
  (outputs s c calls).2 ++ (outputs s c calls).1.flush

theorem written_cons (s : Settings) (c : EventCollapser) (call : Call) (calls : List Call) :
    written s c (call :: calls) = (s.output c call).2 ++ written s (s.output c call).1 calls := by
  simp only [written, outputs, List.append_assoc]

theorem type_of_mem_groupRecord {g : EventGroup} (h : r ∈ groupRecord g) : r.type = prvEvent :=
  type_of_mem_flush h

theorem filter_events {rs : List SimpleParaverRecord} (h : ∀ r ∈ rs, r.type = prvEvent) :
    rs.filter (·.type = prvEvent) = rs ∧ rs.filter (·.type ≠ prvEvent) = [] := by
  constructor
  · apply List.filter_eq_self.mpr
    intro r hr
    exact decide_eq_true (h r hr)
  · apply List.filter_eq_nil_iff.mpr
    intro r hr
    simpa using h r hr

theorem filter_others {rs : List SimpleParaverRecord} (h : ∀ r ∈ rs, r.type ≠ prvEvent) :
    rs.filter (·.type = prvEvent) = [] ∧ rs.filter (·.type ≠ prvEvent) = rs := by
  constructor
  · apply List.filter_eq_nil_iff.mpr
    intro r hr
    simpa using h r hr
  · apply List.filter_eq_self.mpr
    intro r hr
    exact decide_eq_true (h r hr)

theorem events_written (s : Settings) (c : EventCollapser) (calls : List Call) :
    (written s c calls).filter (·.type = prvEvent) =
      (groups (group c) (calls.flatMap (input s))).flatMap groupRecord := by
  induction calls generalizing c with
  | nil =>
      rw [List.flatMap_nil, groups, flush_group]
      exact (filter_events fun r => type_of_mem_flush).1
  | cons call calls ih =>
      rw [written_cons, List.filter_append, ih, List.flatMap_cons]
      rcases output_cases s c call with ⟨hinput, houtput⟩ | ⟨i, hinput, hsteps, hothers⟩
      · rw [hinput, houtput, (filter_others fun r => type_of_mem_others).1]
        rfl
      · rw [hinput, hsteps.group, hsteps.records]
        rw [(filter_events fun r hr => ?_).1]
        · simp only [List.singleton_append, groups, List.flatMap_append]
        · obtain ⟨g, -, hg⟩ := List.mem_flatMap.mp hr
          exact type_of_mem_groupRecord hg

theorem others_written (s : Settings) (c : EventCollapser) (calls : List Call) :
    (written s c calls).filter (·.type ≠ prvEvent) = calls.flatMap (others s) := by
  induction calls generalizing c with
  | nil => exact (filter_events fun r => type_of_mem_flush).2
  | cons call calls ih =>
      rw [written_cons, List.filter_append, ih, List.flatMap_cons]
      rcases output_cases s c call with ⟨hinput, houtput⟩ | ⟨i, hinput, hsteps, hothers⟩
      · rw [houtput, (filter_others fun r => type_of_mem_others).2]
      · rw [hothers, hsteps.records, (filter_events fun r hr => ?_).2]
        obtain ⟨g, -, hg⟩ := List.mem_flatMap.mp hr
        exact type_of_mem_groupRecord hg

theorem groupRecord_of_ne {g : EventGroup} (h : g.items ≠ []) :
    ∃ text, groupRecord g = [record prvEvent g.key.1 g.key.2 text] := by
  obtain ⟨key, items⟩ := g
  cases items with
  | nil => contradiction
  | cons e es => exact ⟨_, rfl⟩

theorem time_of_mem_groupRecord {g : EventGroup} (h : r ∈ groupRecord g) : time r = g.key.time := by
  unfold groupRecord EventCollapser.flush at h
  split at h
  · simp at h
  · rw [List.mem_singleton] at h
    rw [h]
    rfl

theorem ordered_groupRecords_iff {gs : List EventGroup} (h : ∀ g ∈ gs, g.items ≠ []) :
    Ordered time (gs.flatMap groupRecord) ↔ gs.Pairwise fun a b => a.key.time ≤ b.key.time := by
  induction gs with
  | nil => simp [Ordered]
  | cons g gs ih =>
      obtain ⟨text, htext⟩ := groupRecord_of_ne (h g List.mem_cons_self)
      rw [List.flatMap_cons, htext, List.singleton_append, Ordered, List.pairwise_cons,
        List.pairwise_cons, ← Ordered, ih fun g' hg' => h g' (List.mem_cons_of_mem g hg')]
      apply and_congr_left
      intro _
      constructor
      · intro hle g' hg'
        obtain ⟨text', htext'⟩ := groupRecord_of_ne (h g' (List.mem_cons_of_mem g hg'))
        apply hle (record prvEvent g'.key.1 g'.key.2 text')
        exact List.mem_flatMap.mpr ⟨g', hg', htext' ▸ List.mem_singleton_self _⟩
      · intro hle r hr
        obtain ⟨g', hg', hr⟩ := List.mem_flatMap.mp hr
        rw [time_of_mem_groupRecord hr]
        exact hle g' hg'

/-- The events that are written are in order exactly when the accepted ones are, with those that the
collapser held. -/
theorem ordered_events_iff (s : Settings) (c : EventCollapser) (calls : List Call) :
    Ordered time ((written s c calls).filter (·.type = prvEvent)) ↔
      ((group c).pairs ++ (calls.flatMap (input s)).flatMap Input.pairs).Pairwise
        fun a b => a.1.time ≤ b.1.time := by
  rw [events_written, ordered_groupRecords_iff fun g => ne_nil_of_mem_groups, ← pairs_groups]
  exact (pairwise_pairs_iff Key.time _ fun g => ne_nil_of_mem_groups).symm

/-! ## The trace -/

variable {stableSort : List SimpleParaverRecord → List SimpleParaverRecord}

def after (stableSort : List SimpleParaverRecord → List SimpleParaverRecord) (p : State)
    (output : EventCollapser × List SimpleParaverRecord) : State where
  settings := p.settings
  collapser := output.1
  traceMerger :=
    output.2.foldl (ExternalSort.newRecord maxInFlightRecords stableSort) p.traceMerger

theorem foldl_call {p : State} (h : p.settings.generarParaver = true) (calls : List Call) :
    calls.foldl (State.call stableSort) p =
      after stableSort p (outputs p.settings p.collapser calls) := by
  induction calls generalizing p with
  | nil => rfl
  | cons call calls ih =>
      have hcall : p.call stableSort call =
          after stableSort p (p.settings.output p.collapser call) := by
        rw [State.call, if_pos h]
        rfl
      have hnext := @ih (after stableSort p (p.settings.output p.collapser call)) h
      rw [List.foldl_cons, hcall, hnext]
      simp only [after, outputs, List.foldl_append]

theorem foldl_call_of_not {p : State} (h : p.settings.generarParaver = false) (calls : List Call) :
    calls.foldl (State.call stableSort) p = p := by
  induction calls with
  | nil => rfl
  | cons call calls ih =>
      have hcall : p.call stableSort call = p := by
        rw [State.call, h]
        rfl
      rw [List.foldl_cons, hcall, ih]

theorem finish_foldl_call {p : State} (h : p.settings.generarParaver = true) (calls : List Call) :
    ((calls.foldl (State.call stableSort) p).finish stableSort true).2 =
      ((written p.settings p.collapser calls).foldl
        (ExternalSort.newRecord maxInFlightRecords stableSort) p.traceMerger).generateFinalTrace
        maxInFlightRecords stableSort := by
  rw [foldl_call h]
  simp only [after, State.finish, State.newRecords, h, Bool.and_self, if_true, written,
    List.foldl_append]

end

end Dimemas.PrvUtils.Emission
