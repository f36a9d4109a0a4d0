import Dimemas.PrvUtils.Emission
import Mathlib.Tactic.Linarith
/-!
# The order of the final trace

While the simulation runs, the events are written at the current time. The events of the critical
path are written behind its end, from the start of the path.
-/

namespace Dimemas.PrvUtils.TraceOrder

open Dimemas.Library.Grouping
open Dimemas.Library.Merging (Ordered)
open Dimemas.PrvUtils.ParaverRecords
open Dimemas.PrvUtils.ExternalSort
open Dimemas.PrvUtils.Paraver
open Dimemas.PrvUtils.Emission

/-! ## The critical path -/

structure CpNode where
  ptask : Int32
  task : Int32
  thread : Int32
  finalTime : ℚ
deriving DecidableEq

def CpNode.object (n : CpNode) : Object := ⟨0, n.ptask, n.task, n.thread⟩

def paraverCpBlock : UInt64 := 90
def paraverCpEnter : UInt64 := 1
def paraverCpExit : UInt64 := 0

/-- The turns of the loop over `CP_to_paraver` with `cpnp` and `diff2`. -/
def showCpNodes : Option CpNode → ℚ → List CpNode → List Call
  | _, _, [] => []
  | previous, diff, n :: next =>
      let enter :=
        if previous.map CpNode.object = some n.object then []
        else [.event n.object diff paraverCpBlock paraverCpEnter]
      let leave :=
        if next.head?.map CpNode.object = some n.object then []
        else [.event n.object n.finalTime paraverCpBlock paraverCpExit]
      enter ++ leave ++ showCpNodes (some n) n.finalTime next

def showCpGraph (path : List CpNode) : List Call := showCpNodes none 0 path

/-! ## Runs -/

/-- What the simulator writes. Events are written at the current time. -/
inductive Action
  | event (object : Object) (type value : UInt64)
  | startOp (object : Object)
  | state (object : Object) (initTime endTime : ℚ) (state : Int)
  | comm (sender : Object) (logS phyS : ℚ) (receiver : Object) (logR phyR : ℚ) (size tag : Int32)

def Action.call (currentTime : ℚ) : Action → Call
  | .event object type value => .event object currentTime type value
  | .startOp object => .startOp object currentTime
  | .state object initTime endTime st => .state object initTime endTime st
  | .comm sender logS phyS receiver logR phyR size tag =>
      .comm sender logS phyS receiver logR phyR size tag

/-- A simulation behind `PARAVER_Init`, with the group that the collapser holds there. The critical
path is empty when there is no analysis. -/
structure Run where
  settings : Settings
  generates : settings.generarParaver = true
  start_nonneg : 0 ≤ settings.startParaver
  collapser : EventCollapser
  files : Files
  moments : List (ℚ × Action)
  clock : moments.Pairwise fun a b => a.1 ≤ b.1
  range : ∀ m ∈ moments, 0 ≤ m.1 ∧ m.1 < 18446744073709551615
  criticalPath : List CpNode

def Run.simulated (run : Run) : List Call := run.moments.map fun m => m.2.call m.1

def Run.calls (run : Run) : List Call := run.simulated ++ showCpGraph run.criticalPath

def Run.state (run : Run) : State where
  settings := run.settings
  collapser := run.collapser
  traceMerger := ExternalSort.init run.files

/-- The records that reach `NewRecord`. -/
def Run.written (run : Run) : List SimpleParaverRecord :=
  Emission.written run.settings run.collapser run.calls

def Run.trace (stableSort : List SimpleParaverRecord → List SimpleParaverRecord) (run : Run) :
    Option (List (List Char)) :=
  ((run.calls.foldl (State.call stableSort) run.state).finish stableSort true).2

/-- The pairs that a call gives to the trace, with their object and time. -/
def accepted (s : Settings) : Call → List (Key × (UInt64 × UInt64))
  | .event object time type value =>
      if isInternal type then []
      else (s.eventTime time).toList.map fun t => ((object, toPrvTime t), (type, value))
  | _ => []

def Run.events (run : Run) : List SimpleParaverRecord :=
  run.written.filter (·.type = prvEvent)

def Run.simulatedPairs (run : Run) : List (Key × (UInt64 × UInt64)) :=
  run.simulated.flatMap (accepted run.settings)

def Run.pathPairs (run : Run) : List (Key × (UInt64 × UInt64)) :=
  (showCpGraph run.criticalPath).flatMap (accepted run.settings)

def Run.heldPairs (run : Run) : List (Key × (UInt64 × UInt64)) := (group run.collapser).pairs

/-- Events in the order of their times, every pair in one record with its object and its time, and a
trace in the order of the times. -/
structure Run.Correct (stableSort : List SimpleParaverRecord → List SimpleParaverRecord)
    (run : Run) : Prop where
  events : Ordered time run.events
  pairs : ∃ gs : List EventGroup, run.events = gs.flatMap groupRecord ∧
    (∀ g ∈ gs, g.items ≠ []) ∧
    gs.flatMap Group.pairs = run.heldPairs ++ run.simulatedPairs ++ run.pathPairs
  trace : (∃ r ∈ run.written, r.type ≠ prvEvent) → ∃ body : List SimpleParaverRecord,
    run.trace stableSort = some (body.map SimpleParaverRecord.toTracefile) ∧
    body.Perm run.written ∧ Ordered time body

/-- No pair is accepted before the group that the collapser holds at the start, and the critical
path is in order and has no pair before one of the simulation. -/
structure Run.InOrder (run : Run) : Prop where
  held : ∀ a ∈ run.heldPairs, ∀ b ∈ run.simulatedPairs ++ run.pathPairs, a.1.time ≤ b.1.time
  critical : ∀ a ∈ run.simulatedPairs, ∀ b ∈ run.pathPairs, a.1.time ≤ b.1.time
  path : run.pathPairs.Pairwise fun a b => a.1.time ≤ b.1.time

section

variable {s : Settings}

/-! ## Times -/

theorem round_mono {t t' : ℚ} (ht : 0 ≤ t) (hle : t ≤ t') :
    (2 * t.num.natAbs + t.den) / (2 * t.den) ≤ (2 * t'.num.natAbs + t'.den) / (2 * t'.den) := by
  have hnum : t.num.natAbs * t'.den ≤ t'.num.natAbs * t.den := by
    have hcross := (Rat.le_iff t t').mp hle
    have h₁ := Rat.num_nonneg.mpr ht
    have h₂ := Rat.num_nonneg.mpr (ht.trans hle)
    zify
    rwa [abs_of_nonneg h₁, abs_of_nonneg h₂]
  have hden : 0 < 2 * t'.den := Nat.mul_pos (by decide) t'.den_pos
  rw [Nat.le_div_iff_mul_le hden]
  apply Nat.le_of_mul_le_mul_left _ t.den_pos
  generalize hq : (2 * t.num.natAbs + t.den) / (2 * t.den) = q
  have hdiv : q * (2 * t.den) ≤ 2 * t.num.natAbs + t.den := hq ▸ Nat.div_mul_le_self _ _
  calc t.den * (q * (2 * t'.den))
    _ = t'.den * (q * (2 * t.den)) := by ring
    _ ≤ t'.den * (2 * t.num.natAbs + t.den) := Nat.mul_le_mul_left _ hdiv
    _ = 2 * (t.num.natAbs * t'.den) + t.den * t'.den := by ring
    _ ≤ 2 * (t'.num.natAbs * t.den) + t.den * t'.den := by omega
    _ = t.den * (2 * t'.num.natAbs + t'.den) := by ring

theorem toNat_toPrvTime {t : ℚ} (ht : 0 ≤ t) (hlt : t < 18446744073709551615) :
    (toPrvTime t).toNat = (2 * t.num.natAbs + t.den) / (2 * t.den) := by
  apply UInt64.toNat_ofNat_of_lt'
  have hnum : t.num.natAbs < 18446744073709551615 * t.den := by
    have hcross := (Rat.lt_iff t 18446744073709551615).mp hlt
    simp only [Rat.den_ofNat, Rat.num_ofNat] at hcross
    have := Rat.num_nonneg.mpr ht
    omega
  have hpos := t.den_pos
  apply Nat.div_lt_of_lt_mul
  calc 2 * t.num.natAbs + t.den
    _ < 2 * (18446744073709551615 * t.den) + 2 * t.den := by omega
    _ = 2 * t.den * UInt64.size := by
      rw [UInt64.size]
      ring

theorem toPrvTime_mono {t t' : ℚ} (ht : 0 ≤ t) (hle : t ≤ t') (hlt : t' < 18446744073709551615) :
    (toPrvTime t).toNat ≤ (toPrvTime t').toNat := by
  rw [toNat_toPrvTime ht (lt_of_le_of_lt hle hlt), toNat_toPrvTime (ht.trans hle) hlt]
  exact round_mono ht hle

theorem eventTime_mono (hstart : 0 ≤ s.startParaver) {t t' u u' : ℚ} (hle : t ≤ t') (ht : 0 ≤ t)
    (hlt : t' < 18446744073709551615) (hu : s.eventTime t = some u) (hu' : s.eventTime t' = some u') :
    (toPrvTime u).toNat ≤ (toPrvTime u').toNat := by
  unfold Settings.eventTime at hu hu'
  split at hu
  · cases hu
  split at hu'
  · cases hu'
  by_cases hinitial : s.paraverInitialTimer = true
  · rw [if_pos hinitial] at hu hu'
    split at hu
    · cases hu
    split at hu'
    · cases hu'
    obtain rfl := Option.some.inj hu
    obtain rfl := Option.some.inj hu'
    apply toPrvTime_mono
    · linarith
    · linarith
    · linarith
  · rw [if_neg hinitial] at hu hu'
    obtain rfl := Option.some.inj hu
    obtain rfl := Option.some.inj hu'
    exact toPrvTime_mono ht hle hlt

/-! ## The order -/

theorem accepted_eq (s : Settings) (call : Call) :
    (input s call).flatMap Input.pairs = accepted s call := by
  cases call with
  | event object time type value =>
      simp only [input, accepted]
      split
      · rfl
      · cases s.eventTime time <;> rfl
  | startOp object time =>
      simp only [input, accepted]
      cases s.eventTime time <;> rfl
  | state object initTime endTime st => rfl
  | comm sender logS phyS receiver logR phyR size tag => rfl

theorem flatMap_accepted (run : Run) :
    (run.calls.flatMap (input run.settings)).flatMap Input.pairs =
      run.simulatedPairs ++ run.pathPairs := by
  have heq : (fun call => (input run.settings call).flatMap Input.pairs) = accepted run.settings :=
    funext (accepted_eq run.settings)
  rw [List.flatMap_assoc, heq, Run.calls, List.flatMap_append]
  rfl

theorem time_of_mem_accepted {t : ℚ} {a : Action} {x : Key × (UInt64 × UInt64)}
    (h : x ∈ accepted s (a.call t)) : ∃ u, s.eventTime t = some u ∧ x.1.2 = toPrvTime u := by
  cases a with
  | event object type value =>
      simp only [Action.call, accepted] at h
      split at h
      · simp at h
      · obtain ⟨u, hu, rfl⟩ := List.mem_map.mp h
        exact ⟨u, by simpa using hu, rfl⟩
  | startOp object => simp [Action.call, accepted] at h
  | state object initTime endTime st => simp [Action.call, accepted] at h
  | comm sender logS phyS receiver logR phyR size tag => simp [Action.call, accepted] at h

theorem pairwise_accepted (s : Settings) (call : Call) :
    (accepted s call).Pairwise fun a b => a.1.time ≤ b.1.time := by
  cases call with
  | event object time type value =>
      simp only [accepted]
      split
      · exact .nil
      · cases s.eventTime time with
        | none => exact .nil
        | some t => exact List.pairwise_singleton _ _
  | startOp object time => exact .nil
  | state object initTime endTime st => exact .nil
  | comm sender logS phyS receiver logR phyR size tag => exact .nil

/-- The events of the simulation are in order, since its clock is. -/
theorem pairwise_simulatedPairs (run : Run) :
    run.simulatedPairs.Pairwise fun a b => a.1.time ≤ b.1.time := by
  rw [Run.simulatedPairs, Run.simulated, List.pairwise_flatMap, List.pairwise_map]
  constructor
  · intro call _
    exact pairwise_accepted _ call
  · apply run.clock.imp_of_mem
    intro m m' hm hm' hle x hx y hy
    obtain ⟨u, hu, hxu⟩ := time_of_mem_accepted hx
    obtain ⟨u', hu', hyu⟩ := time_of_mem_accepted hy
    rw [Key.time, Key.time, hxu, hyu]
    exact eventTime_mono run.start_nonneg hle (run.range m hm).1 (run.range m' hm').2 hu hu'

theorem pairwise_heldPairs (run : Run) :
    run.heldPairs.Pairwise fun a b => a.1.time ≤ b.1.time := by
  rw [Run.heldPairs, Group.pairs, List.pairwise_map]
  exact List.pairwise_of_forall fun _ _ => le_rfl

/-- The events that reach the sort are in order exactly when the critical path comes behind them. -/
theorem ordered_events_iff_inOrder (run : Run) : Ordered time run.events ↔ run.InOrder := by
  have heq : Ordered time run.events ↔
      (run.heldPairs ++ (run.simulatedPairs ++ run.pathPairs)).Pairwise
        fun a b => a.1.time ≤ b.1.time := by
    rw [Run.events, Run.written, ordered_events_iff, flatMap_accepted]
    rfl
  rw [heq, List.pairwise_append, List.pairwise_append]
  constructor
  · rintro ⟨-, ⟨-, hpath, hcritical⟩, hheld⟩
    exact ⟨hheld, hcritical, hpath⟩
  · intro h
    exact ⟨pairwise_heldPairs run, ⟨pairwise_simulatedPairs run, h.path, h.critical⟩, h.held⟩

/-- The trace of a run is correct exactly when the accepted events are in the order of their times:
those that the collapser held, those of the simulation and those of the critical path. -/
theorem correct_iff {stableSort : List SimpleParaverRecord → List SimpleParaverRecord}
    (hsort : StableSort stableSort) (run : Run) : run.Correct stableSort ↔ run.InOrder := by
  constructor
  · intro h
    exact (ordered_events_iff_inOrder run).mp h.events
  · intro h
    have hevents := (ordered_events_iff_inOrder run).mpr h
    refine ⟨hevents, ⟨_, events_written _ _ _, fun g => ne_nil_of_mem_groups, ?_⟩, ?_⟩
    · rw [pairs_groups, flatMap_accepted, List.append_assoc]
      rfl
    · intro hstate
      rw [Run.trace, finish_foldl_call run.generates]
      exact (keeps_newRecords hsort run.written).exists_trace (by decide) hsort
        ((represents_init run.files).newRecords run.written) hstate hevents

/-- A run without an analysis of the critical path is in order when the collapser is void at its
start. -/
theorem inOrder_of_no_path {run : Run} (hpath : run.criticalPath = [])
    (hvoid : run.collapser.events = []) : run.InOrder := by
  have hheld : run.heldPairs = [] := by
    rw [Run.heldPairs, Group.pairs, group, hvoid]
    rfl
  have hpairs : run.pathPairs = [] := by
    rw [Run.pathPairs, hpath]
    rfl
  constructor
  · rw [hheld]
    simp
  · rw [hpairs]
    simp
  · rw [hpairs]
    exact .nil

/-- The path starts at time 0, so that a trace of the whole simulation is in order only when it has
no other events behind this time. -/
theorem time_eq_zero_of_path {run : Run} (h : run.InOrder) {n : CpNode} {path : List CpNode}
    (hpath : run.criticalPath = n :: path) (hinitial : run.settings.paraverInitialTimer = false)
    (hstop : 0 ≤ run.settings.stopParaver) :
    ∀ a ∈ run.simulatedPairs, a.1.time = 0 := by
  have htime : run.settings.eventTime 0 = some 0 := by
    have hnot : ¬ (run.settings.paraverFinalTimer = true ∧ run.settings.stopParaver < 0) :=
      fun hlt => not_lt.mpr hstop hlt.2
    rw [Settings.eventTime, if_neg hnot, hinitial]
    rfl
  have hmem : ((n.object, toPrvTime 0), (paraverCpBlock, paraverCpEnter)) ∈ run.pathPairs := by
    rw [Run.pathPairs, hpath]
    apply List.mem_flatMap.mpr
    refine ⟨.event n.object 0 paraverCpBlock paraverCpEnter, ?_, ?_⟩
    · simp [showCpGraph, showCpNodes]
    · simp only [accepted, htime]
      exact List.mem_singleton_self _
  intro a ha
  exact Nat.le_zero.mp (h.critical a ha _ hmem)

end

/-! ## An event of the simulation before a critical path -/

def firstObject : Object := ⟨1, 0, 0, 0⟩

def wholeTrace : Settings where
  generarParaver := true
  paraverInitialTimer := false
  startParaver := 0
  paraverFinalTimer := false
  stopParaver := 0

/-- A thread that writes a state and an event at time 5. -/
def runWithPath (path : List CpNode) : Run where
  settings := wholeTrace
  generates := rfl
  start_nonneg := le_rfl
  collapser := emptied firstObject 0
  files := fun _ => none
  moments := [(5, .state firstObject 0 5 prvRunningSt), (5, .event firstObject 1 1)]
  clock := List.pairwise_pair.mpr le_rfl
  range := by
    intro m hm
    have h5 : m.1 = 5 := by
      rcases List.mem_cons.mp hm with rfl | hm
      · rfl
      · rw [List.mem_singleton.mp hm]
    rw [h5]
    norm_num
  criticalPath := path

/-- Without a path the trace is in order. -/
theorem correct_runWithPath_nil :
    (runWithPath []).Correct fun rs => rs.mergeSort fun a b => time a ≤ time b :=
  (correct_iff stableSort_mergeSort (runWithPath [])).mpr (inOrder_of_no_path rfl rfl)

/-- With a path the event at time 5 comes before one at time 0. -/
theorem not_correct_runWithPath :
    ¬ ∀ stableSort, StableSort stableSort → ∀ run : Run, run.Correct stableSort := by
  intro h
  have hcorrect := h _ stableSort_mergeSort (runWithPath [⟨0, 0, 0, 5⟩])
  have horder := (ordered_events_iff_inOrder _).mp hcorrect.events
  have hzero := time_eq_zero_of_path horder rfl rfl le_rfl
    ((firstObject, toPrvTime 5), (1, 1)) (by decide)
  exact absurd hzero (by decide)

end Dimemas.PrvUtils.TraceOrder
