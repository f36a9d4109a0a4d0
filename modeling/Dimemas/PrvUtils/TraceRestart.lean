import Dimemas.PrvUtils.Emission
import Mathlib.Algebra.BigOperators.Group.List.Basic
/-!
# A trace that is started again

A simulation that is restarted ends its trace without printing it, and initialises the module with
the same arguments. The collapser is not initialised.
-/

namespace Dimemas.PrvUtils.TraceRestart

open Dimemas.Library.Grouping
open Dimemas.PrvUtils.ParaverRecords
open Dimemas.PrvUtils.ExternalSort
open Dimemas.PrvUtils.Paraver
open Dimemas.PrvUtils.Emission

def boot : State where
  settings := ⟨false, false, 0, false, 0⟩
  collapser := emptied ⟨-1, -1, -1, -1⟩ 0
  traceMerger := ⟨fun _ => none, [], 0⟩

variable (stableSort : List SimpleParaverRecord → List SimpleParaverRecord)

def trace (p : State) (calls : List Call) : Option (List (List Char)) :=
  ((calls.foldl (State.call stableSort) p).finish stableSort true).2

def restartedTrace (args : Arguments) (p : State) (aborted calls : List Call) :
    Option (List (List Char)) := do
  let p := ((aborted.foldl (State.call stableSort) p).finish stableSort false).1
  let p ← p.init args
  trace stableSort p calls

def held (p : State) (aborted : List Call) : List (UInt64 × UInt64) :=
  (aborted.foldl (State.call stableSort) p).collapser.events

section

variable {stableSort}
variable {s : Settings} {c c' : EventCollapser} {args : Arguments} {p : State}
variable {e : ExternalSort} {rs : List SimpleParaverRecord}

/-! ## The files of a restart -/

theorem newRecord_statesAndComms (size : Nat) (e : ExternalSort) (r : SimpleParaverRecord) :
    (e.newRecord size stableSort r).files .statesAndComms = e.files .statesAndComms := by
  unfold ExternalSort.newRecord
  have hne : FileName.statesAndComms ≠ .events := FileName.noConfusion
  split
  · exact write_of_ne hne [r]
  · dsimp only
    split
    · calc (e.flushRecords stableSort).files .statesAndComms
        _ = write e.files (.tmp e.numFiles) (stableSort e.records) .statesAndComms :=
          flushRecords_files FileName.noConfusion
        _ = e.files .statesAndComms := write_of_ne FileName.noConfusion _
    · rfl

theorem newRecords_statesAndComms (size : Nat) (e : ExternalSort) (rs : List SimpleParaverRecord) :
    (rs.foldl (ExternalSort.newRecord size stableSort) e).files .statesAndComms =
      e.files .statesAndComms := by
  induction rs generalizing e with
  | nil => rfl
  | cons r rs ih => rw [List.foldl_cons, ih, newRecord_statesAndComms]

theorem init_statesAndComms (files : Files) :
    (ExternalSort.init files).files .statesAndComms = files .statesAndComms := by
  have hne₁ : FileName.statesAndComms ≠ .tmp 0 := FileName.noConfusion
  have hne₂ : FileName.statesAndComms ≠ .events := FileName.noConfusion
  calc (ExternalSort.init files).files .statesAndComms
    _ = Function.update files .events (some []) .statesAndComms :=
      update_of_ne hne₁ (some []) (Function.update files .events (some []))
    _ = files .statesAndComms := update_of_ne hne₂ (some []) files

theorem newRecords_events (size : Nat) (h : ∀ r ∈ rs, r.type = prvEvent)
    (e : ExternalSort) :
    (rs.foldl (ExternalSort.newRecord size stableSort) e).numFiles = e.numFiles ∧
      (rs.foldl (ExternalSort.newRecord size stableSort) e).records = e.records := by
  induction rs generalizing e with
  | nil => exact ⟨rfl, rfl⟩
  | cons r rs ih =>
      have hr := h r List.mem_cons_self
      have hstep : e.newRecord size stableSort r = { e with files := write e.files .events [r] } :=
        if_pos hr
      rw [List.foldl_cons, hstep]
      exact ih (fun r' hr' => h r' (List.mem_cons_of_mem r hr')) _

theorem generateFinalTrace_events (size : Nat) (h : ∀ r ∈ rs, r.type = prvEvent)
    {files : Files} (hfile : files .statesAndComms = none) :
    (rs.foldl (ExternalSort.newRecord size stableSort) (ExternalSort.init files)).generateFinalTrace
      size stableSort = none := by
  have hstates := @newRecords_statesAndComms stableSort size (ExternalSort.init files) rs
  rw [init_statesAndComms, hfile] at hstates
  have hcount := @newRecords_events stableSort rs size h (ExternalSort.init files)
  generalize rs.foldl (ExternalSort.newRecord size stableSort) (ExternalSort.init files) = e
    at hstates hcount ⊢
  have hnum : e.numFiles = 0 := hcount.1
  have hrecords : e.records = [] := hcount.2
  have hunlink : unlink e.files (.tmp 0) .statesAndComms = none :=
    (update_of_ne FileName.noConfusion _ _).trans hstates
  simp [ExternalSort.generateFinalTrace, ExternalSort.sortStatesAndComms, hrecords, hnum,
    mergePasses, mergeNames, hunlink]

theorem generateFinalTrace_files (hsort : StableSort stableSort) (rs : List SimpleParaverRecord)
    {files files' : Files} (h : files .statesAndComms = none) (h' : files' .statesAndComms = none) :
    (rs.foldl (ExternalSort.newRecord maxInFlightRecords stableSort)
        (ExternalSort.init files)).generateFinalTrace maxInFlightRecords stableSort =
      (rs.foldl (ExternalSort.newRecord maxInFlightRecords stableSort)
        (ExternalSort.init files')).generateFinalTrace maxInFlightRecords stableSort := by
  by_cases hstate : ∃ r ∈ rs, r.type ≠ prvEvent
  · have hsize : 0 < maxInFlightRecords := by decide
    obtain ⟨run, -, -, htrace⟩ :=
      exists_generateFinalTrace hsize hsort (keeps_newRecords hsort rs) hstate
    calc _
      _ = _ := htrace _ ((represents_init files).newRecords rs)
      _ = _ := (htrace _ ((represents_init files').newRecords rs)).symm
  · have hevents : ∀ r ∈ rs, r.type = prvEvent := by
      intro r hr
      by_contra htype
      exact hstate ⟨r, hr, htype⟩
    rw [generateFinalTrace_events _ hevents h, generateFinalTrace_events _ hevents h']

/-! ## A void collapser -/

theorem newEvent_of_void (h : c.events = []) (object : Object) (timestamp type value : UInt64) :
    c.newEvent object timestamp type value = (⟨object, timestamp, [(type, value)]⟩, []) := by
  obtain ⟨object', timestamp', events⟩ := c
  cases h
  unfold EventCollapser.newEvent
  split
  case isTrue hlast =>
    simp only [EventCollapser.isLastEvent, Bool.and_eq_true, decide_eq_true_eq] at hlast
    rw [hlast.1, hlast.2]
    rfl
  case isFalse => rfl

theorem flush_of_void (h : c.events = []) : c.flush = [] := by
  rw [EventCollapser.flush, h]
  rfl

theorem startOp_of_void (h : c.events = []) (object : Object) (time : ℚ) :
    (s.startOp c object time).1.events = [] ∧ (s.startOp c object time).2 = [] := by
  unfold Settings.startOp
  split
  · exact ⟨h, rfl⟩
  · split
    · exact ⟨rfl, flush_of_void h⟩
    · exact ⟨h, rfl⟩

theorem output_of_void (h : c.events = []) (h' : c'.events = []) (call : Call) :
    (s.output c call).2 = (s.output c' call).2 ∧
      ((s.output c call).1 = (s.output c' call).1 ∨
        (s.output c call).1.events = [] ∧ (s.output c' call).1.events = []) := by
  cases call with
  | event object time type value =>
      simp only [Settings.output, Settings.paraverEvent]
      split
      · exact ⟨rfl, Or.inr ⟨h, h'⟩⟩
      · cases s.eventTime time with
        | none => exact ⟨rfl, Or.inr ⟨h, h'⟩⟩
        | some t =>
            simp only [newEvent_of_void h, newEvent_of_void h']
            exact ⟨trivial, Or.inl trivial⟩
  | startOp object time =>
      obtain ⟨hvoid, hrecords⟩ := @startOp_of_void s c h object time
      obtain ⟨hvoid', hrecords'⟩ := @startOp_of_void s c' h' object time
      exact ⟨hrecords.trans hrecords'.symm, Or.inr ⟨hvoid, hvoid'⟩⟩
  | state object initTime endTime st => exact ⟨rfl, Or.inr ⟨h, h'⟩⟩
  | comm sender logS phyS receiver logR phyR size tag => exact ⟨rfl, Or.inr ⟨h, h'⟩⟩

theorem written_of_void (h : c.events = []) (h' : c'.events = []) (calls : List Call) :
    written s c calls = written s c' calls := by
  induction calls generalizing c c' with
  | nil =>
      simp only [written, outputs, flush_of_void h, flush_of_void h']
  | cons call calls ih =>
      rw [written_cons, written_cons]
      obtain ⟨hrecords, hnext | ⟨hvoid, hvoid'⟩⟩ := @output_of_void s c c' h h' call
      · rw [hrecords, hnext]
      · rw [hrecords, ih hvoid hvoid']

/-! ## The length of the text -/

theorem joined_append (a b : Int) (xs ys : List Int) :
    joined a (xs ++ b :: ys) = joined a xs ++ ':' :: joined b ys := by
  simp [joined]

/-- More pairs in front make the text longer. -/
theorem eventText_append {l₁ l₂ : List (UInt64 × UInt64)} (h₁ : l₁ ≠ []) (h₂ : l₂ ≠ []) :
    ∃ text₂ text, eventText l₂ = some text₂ ∧ eventText (l₁ ++ l₂) = some text ∧
      text₂.text.length < text.text.length := by
  obtain ⟨e₁, es₁, rfl⟩ := List.exists_cons_of_ne_nil h₁
  obtain ⟨e₂, es₂, rfl⟩ := List.exists_cons_of_ne_nil h₂
  refine ⟨_, _, rfl, rfl, ?_⟩
  have hnumbers : (es₁.append (e₂ :: es₂)).flatMap (fun e => [(e.1.toNat : Int), (e.2.toNat : Int)]) =
      es₁.flatMap (fun e => [(e.1.toNat : Int), (e.2.toNat : Int)]) ++ (e₂.1.toNat : Int) ::
        ((e₂.2.toNat : Int) :: es₂.flatMap fun e => [(e.1.toNat : Int), (e.2.toNat : Int)]) := by
    rw [List.append_eq, List.flatMap_append, List.flatMap_cons]
    rfl
  simp only [joinedWord]
  rw [hnumbers, ← List.cons_append, joined_append, List.length_append, List.length_cons]
  omega

def lineLength (r : SimpleParaverRecord) : Nat := r.toTracefile.length

def groupLength (g : EventGroup) : Nat := ((groupRecord g).map lineLength).sum

theorem toTracefile_event (object : Object) (timestamp : UInt64) (text : Word) :
    (record prvEvent object timestamp text).toTracefile =
      line prvEvent.toInt object.cpu.toInt (object.ptask.toInt + 1) (object.task.toInt + 1)
        (object.thread.toInt + 1) timestamp.toNat text.text :=
  rfl

theorem lineLength_lt {object : Object} {timestamp : UInt64} {text₁ text₂ : Word}
    (h : text₁.text.length < text₂.text.length) :
    lineLength (record prvEvent object timestamp text₁) <
      lineLength (record prvEvent object timestamp text₂) := by
  rw [lineLength, lineLength, toTracefile_event, toTracefile_event]
  simp only [line, List.length_append, List.length_cons]
  omega

theorem groupLength_pos {g : EventGroup} (h : g.items ≠ []) : 0 < groupLength g := by
  obtain ⟨text, htext⟩ := groupRecord_of_ne h
  rw [groupLength, htext, List.map_singleton, List.sum_singleton]
  rw [lineLength, toTracefile_event]
  simp only [line, List.length_append, List.length_cons]
  omega

theorem groupLength_lt (k : Key) (l₁ l₂ : List (UInt64 × UInt64)) (h₁ : l₁ ≠ []) (h₂ : l₂ ≠ []) :
    groupLength ⟨k, l₂⟩ < groupLength ⟨k, l₁ ++ l₂⟩ := by
  obtain ⟨text₂, text, htext₂, htext, hlt⟩ := eventText_append h₁ h₂
  simp only [groupLength, groupRecord, EventCollapser.flush, htext₂, htext, List.map_cons,
    List.map_nil, List.sum_cons, List.sum_nil, Nat.add_zero]
  exact lineLength_lt hlt

theorem length_events_lt (h : c.events ≠ []) (h' : c'.events = []) (calls : List Call) :
    (((written s c' calls).filter (·.type = prvEvent)).map lineLength).sum <
      (((written s c calls).filter (·.type = prvEvent)).map lineLength).sum := by
  have hsum (gs : List EventGroup) :
      ((gs.flatMap groupRecord).map lineLength).sum = (gs.map groupLength).sum := by
    induction gs with
    | nil => rfl
    | cons g gs ih => rw [List.flatMap_cons, List.map_append, List.sum_append, ih]; rfl
  rw [events_written, events_written, hsum, hsum]
  exact size_groups_lt (fun g => groupLength_pos) groupLength_lt h h' _

/-! ## Restarts -/

theorem Settings.init_init (s : Settings) (args : Arguments) :
    (s.init args).init args = s.init args := by
  unfold Settings.init
  by_cases hstart : 0 < args.startTime <;> by_cases hend : 0 < args.endTime
  all_goals simp only [hstart, hend, if_true, if_false]

theorem Settings.init_generarParaver (s : Settings) (args : Arguments) :
    (s.init args).generarParaver = s.generarParaver := by
  unfold Settings.init
  by_cases hstart : 0 < args.startTime <;> by_cases hend : 0 < args.endTime
  all_goals simp only [hstart, hend, if_true, if_false]

/-- A module that was initialised to write a trace. -/
structure Initialised (args : Arguments) (p : State) : Prop where
  generar : p.settings.generarParaver = true
  settings : p.settings.init args = p.settings
  window : ¬ (p.settings.paraverInitialTimer ∧ p.settings.paraverFinalTimer ∧
    p.settings.stopParaver ≤ p.settings.startParaver)

theorem Initialised.init (h : Initialised args p) :
    p.init args = some { p with traceMerger := ExternalSort.init p.traceMerger.files } := by
  have htrue : (args.outputTrace || p.settings.generarParaver) = true := by
    rw [h.generar, Bool.or_true]
  have hgenerar : { p.settings with generarParaver := true } = p.settings := by
    rw [← h.generar]
  unfold State.init
  simp only [htrue, hgenerar, if_true, h.settings, if_neg h.window]

theorem init_boot (h : boot.init args = some p) :
    p = boot ∨ Initialised args p ∧ p.collapser = boot.collapser ∧
      p.traceMerger = ExternalSort.init boot.traceMerger.files := by
  unfold State.init at h
  dsimp only at h
  split at h
  case isFalse hgenerar =>
    exact Or.inl (Option.some.inj h).symm
  case isTrue hgenerar =>
    split at h
    · cases h
    case isFalse hwindow =>
      obtain rfl := Option.some.inj h
      refine Or.inr ⟨⟨?_, Settings.init_init _ _, hwindow⟩, rfl, rfl⟩
      exact (Settings.init_generarParaver _ _).trans hgenerar

theorem restartedTrace_eq (h : Initialised args p) (aborted calls : List Call) :
    ∃ files : Files, files .statesAndComms = p.traceMerger.files .statesAndComms ∧
      restartedTrace stableSort args p aborted calls =
        ((written p.settings (outputs p.settings p.collapser aborted).1 calls).foldl
          (ExternalSort.newRecord maxInFlightRecords stableSort)
          (ExternalSort.init files)).generateFinalTrace maxInFlightRecords stableSort := by
  let p' := after stableSort p (outputs p.settings p.collapser aborted)
  have h' : Initialised args p' := ⟨h.generar, h.settings, h.window⟩
  refine ⟨p'.traceMerger.files, newRecords_statesAndComms _ _ _, ?_⟩
  rw [restartedTrace, foldl_call h.generar]
  have hinit : (p'.finish stableSort false).1.init args =
      some { p' with traceMerger := ExternalSort.init p'.traceMerger.files } := h'.init
  rw [hinit, Option.bind_eq_bind, Option.bind_some]
  exact @finish_foldl_call stableSort
    { p' with traceMerger := ExternalSort.init p'.traceMerger.files } h.generar calls

theorem length_merge {run run' rs es : List SimpleParaverRecord} (h : run.Perm run')
    (hrs : rs = run' ++ es) :
    (((List.merge run es less).map SimpleParaverRecord.toTracefile).map List.length).sum =
      (rs.map lineLength).sum := by
  have hperm : (List.merge run es less).Perm rs := by
    rw [hrs]
    exact (List.merge_perm_append less).trans (h.append_right es)
  rw [List.map_map]
  exact (hperm.map lineLength).sum_eq

theorem generateFinalTrace_ne (hsort : StableSort stableSort) (h : c.events ≠ [])
    (h' : c'.events = []) {calls : List Call} (hothers : calls.flatMap (others s) ≠ [])
    (files files' : Files) :
    ((written s c calls).foldl (ExternalSort.newRecord maxInFlightRecords stableSort)
        (ExternalSort.init files)).generateFinalTrace maxInFlightRecords stableSort ≠
      ((written s c' calls).foldl (ExternalSort.newRecord maxInFlightRecords stableSort)
        (ExternalSort.init files')).generateFinalTrace maxInFlightRecords stableSort := by
  have hsize : 0 < maxInFlightRecords := by decide
  have hstate (c : EventCollapser) : ∃ r ∈ written s c calls, r.type ≠ prvEvent := by
    obtain ⟨r, hr⟩ := List.exists_mem_of_ne_nil _ hothers
    rw [← others_written s c] at hr
    exact ⟨r, (List.mem_filter.mp hr).1, by simpa using (List.mem_filter.mp hr).2⟩
  obtain ⟨run, hperm, -, htrace⟩ := exists_generateFinalTrace hsize hsort
    (keeps_newRecords hsort (written s c calls)) (hstate c)
  obtain ⟨run', hperm', -, htrace'⟩ := exists_generateFinalTrace hsize hsort
    (keeps_newRecords hsort (written s c' calls)) (hstate c')
  rw [htrace _ ((represents_init files).newRecords _),
    htrace' _ ((represents_init files').newRecords _)]
  intro heq
  have hlength := congrArg (fun lines => (lines.map List.length).sum) (Option.some.inj heq)
  rw [length_merge hperm rfl, length_merge hperm' rfl, List.map_append, List.map_append,
    List.sum_append, List.sum_append, others_written, others_written] at hlength
  have hlt := @length_events_lt s c c' h h' calls
  omega

/-- What an aborted run leaves is seen unless the collapser is void. -/
theorem restartedTrace_iff_held (hsort : StableSort stableSort) (h : Initialised args p)
    (hvoid : p.collapser.events = [])
    (hmerger : p.traceMerger = ExternalSort.init boot.traceMerger.files)
    (aborted calls : List Call) :
    restartedTrace stableSort args p aborted calls = trace stableSort p calls ↔
      calls.flatMap (others p.settings) = [] ∨ held stableSort p aborted = [] := by
  obtain ⟨files, hfiles, hrestarted⟩ := @restartedTrace_eq stableSort args p h aborted calls
  have hnone : boot.traceMerger.files .statesAndComms = none := rfl
  have hheld : held stableSort p aborted = (outputs p.settings p.collapser aborted).1.events := by
    rw [held, foldl_call h.generar]
    rfl
  rw [hmerger, init_statesAndComms, hnone] at hfiles
  rw [hrestarted, hheld, trace, finish_foldl_call h.generar, hmerger]
  constructor
  · intro heq
    by_contra hnot
    rw [not_or] at hnot
    exact generateFinalTrace_ne hsort hnot.2 hvoid hnot.1 _ _ heq
  · rintro (hothers | hcollapser)
    · have hevents (c : EventCollapser) : ∀ r ∈ written p.settings c calls, r.type = prvEvent := by
        have hfilter := others_written p.settings c calls
        rw [hothers, List.filter_eq_nil_iff] at hfilter
        intro r hr
        simpa using hfilter r hr
      rw [generateFinalTrace_events _ (hevents _) hfiles,
        generateFinalTrace_events _ (hevents _) hnone]
    · rw [written_of_void hcollapser hvoid]
      exact generateFinalTrace_files hsort _ hfiles hnone

theorem restartedTrace_boot (h : boot.init args = some boot) (aborted calls : List Call) :
    restartedTrace stableSort args boot aborted calls = trace stableSort boot calls ∧
      held stableSort boot aborted = [] := by
  have haborted : aborted.foldl (State.call stableSort) boot = boot := foldl_call_of_not rfl aborted
  constructor
  · have hfinish : (boot.finish stableSort false).1 = boot := rfl
    rw [restartedTrace, haborted, hfinish, h]
    rfl
  · rw [held, haborted]
    rfl

/-- After any two aborted runs the trace is that of the calls behind the restart exactly when the
collapser is void at the end of both, or the calls write no state and no communication, so that
there is no trace. -/
theorem restartedTraces_iff (hsort : StableSort stableSort) (h : boot.init args = some p)
    (aborted aborted' calls : List Call) :
    (restartedTrace stableSort args p aborted calls = trace stableSort p calls ∧
      restartedTrace stableSort args p aborted' calls = trace stableSort p calls) ↔
    calls.flatMap (others p.settings) = [] ∨
      held stableSort p aborted = [] ∧ held stableSort p aborted' = [] := by
  rcases init_boot h with rfl | ⟨hinit, hcollapser, hmerger⟩
  · have hboot := @restartedTrace_boot stableSort args h aborted calls
    have hboot' := @restartedTrace_boot stableSort args h aborted' calls
    exact iff_of_true ⟨hboot.1, hboot'.1⟩ (Or.inr ⟨hboot.2, hboot'.2⟩)
  · have hvoid : p.collapser.events = [] := by
      rw [hcollapser]
      rfl
    rw [restartedTrace_iff_held hsort hinit hvoid hmerger,
      restartedTrace_iff_held hsort hinit hvoid hmerger, ← or_and_left]

end

/-! ## An event before a restart -/

def firstObject : Object := ⟨1, 0, 0, 0⟩

def wholeTrace : State where
  settings := ⟨true, false, 0, false, 0⟩
  collapser := emptied ⟨-1, -1, -1, -1⟩ 0
  traceMerger := ExternalSort.init fun _ => none

theorem init_boot_wholeTrace : boot.init ⟨true, 0, 0⟩ = some wholeTrace := by
  simp [State.init, Settings.init, boot, wholeTrace]

/-- An aborted run without events, and one whose event was written when an operation started. -/
theorem restartedTraces_void :
    let sort := fun rs : List SimpleParaverRecord => rs.mergeSort fun a b => time a ≤ time b
    let event := Call.event firstObject 5 1 1
    let calls := [Call.state firstObject 0 5 prvRunningSt]
    restartedTrace sort ⟨true, 0, 0⟩ wholeTrace [] calls = trace sort wholeTrace calls ∧
      restartedTrace sort ⟨true, 0, 0⟩ wholeTrace [event, .startOp firstObject 5] calls =
        trace sort wholeTrace calls :=
  (restartedTraces_iff stableSort_mergeSort init_boot_wholeTrace _ _ _).mpr
    (Or.inr ⟨rfl, rfl⟩)

/-- The last event of an aborted run is in the trace behind the restart. -/
theorem not_restartedTraces_eq :
    ¬ ∀ stableSort, StableSort stableSort → ∀ args p, boot.init args = some p →
      ∀ aborted aborted' calls,
        restartedTrace stableSort args p aborted calls = trace stableSort p calls ∧
          restartedTrace stableSort args p aborted' calls = trace stableSort p calls := by
  intro h
  have heq := (h _ stableSort_mergeSort _ _ init_boot_wholeTrace [.event firstObject 5 1 1] []
    [.state firstObject 0 5 prvRunningSt]).1
  have hinit : Initialised ⟨true, 0, 0⟩ wholeTrace := by
    constructor
    · rfl
    · simp [Settings.init, wholeTrace]
    · simp [wholeTrace]
  rcases (restartedTrace_iff_held stableSort_mergeSort hinit rfl rfl _ _).mp heq with hothers | hheld
  · simp [others, Settings.newState, Settings.stateTimes, wholeTrace] at hothers
  · cases hheld

end Dimemas.PrvUtils.TraceRestart
