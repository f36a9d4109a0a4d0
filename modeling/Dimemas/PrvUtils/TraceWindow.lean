import Dimemas.Library.Assignment
import Dimemas.PrvUtils.Emission
/-!
# The window of a trace

What is written with a window of times, as the restriction of what is written without one. An event
is kept or not, a state is cut, and the instants of a communication are moved into the window.
-/

namespace Dimemas.PrvUtils.TraceWindow

open Dimemas.Library.Assignment
open Dimemas.PrvUtils.ParaverRecords
open Dimemas.PrvUtils.Paraver
open Dimemas.PrvUtils.Emission

/-- A window of times with an optional start and stop. -/
structure Window where
  start : Option ℚ
  stop : Option ℚ
  nonneg : ∀ a ∈ start, 0 ≤ a
  lt : ∀ b ∈ stop, start.getD 0 < b

namespace Window

def first (w : Window) : ℚ := w.start.getD 0

/-- Times that are not given are -DBL_MAX, which is treated like every time that is not positive. -/
def arguments (w : Window) : Arguments where
  outputTrace := true
  startTime := w.start.getD (-1)
  endTime := w.stop.getD (-1)

/-- The settings before `PARAVER_Init`. -/
def unset : Settings := ⟨true, false, 0, false, 0⟩

def settings (w : Window) : Settings := unset.init w.arguments

def NotAfter (w : Window) (t : ℚ) : Prop := ∀ b ∈ w.stop, t ≤ b

def Contains (w : Window) (t : ℚ) : Prop := w.first ≤ t ∧ w.NotAfter t

instance (w : Window) (t : ℚ) : Decidable (w.NotAfter t) :=
  inferInstanceAs (Decidable (∀ b ∈ w.stop, t ≤ b))

instance (w : Window) (t : ℚ) : Decidable (w.Contains t) :=
  inferInstanceAs (Decidable (_ ∧ _))

def lower (w : Window) (t : ℚ) : ℚ := max w.first t

def upper (w : Window) (t : ℚ) : ℚ :=
  match w.stop with
  | none => t
  | some b => min t b

end Window

/-- The part of `PARAVER_Running` and the other calls for states in front of `NewState`. -/
def passes : Call → Bool
  | .state _ initTime endTime _ => initTime ≠ endTime
  | _ => true

def emitted (s : Settings) (c : EventCollapser) (calls : List Call) : List SimpleParaverRecord :=
  written s c (calls.filter passes)

def instants : Call → List ℚ
  | .event _ time _ _ => [time]
  | .startOp _ time => [time]
  | .state _ initTime endTime _ => [initTime, endTime]
  | .comm _ logS phyS _ logR phyR _ _ => [logS, phyS, logR, phyR]

structure Valid (call : Call) : Prop where
  nonneg : ∀ t ∈ instants call, 0 ≤ t
  ordered : ∀ object initTime endTime state, call = .state object initTime endTime state →
    initTime ≤ endTime

/-- The instants of a restricted call are within the window and in the order of the call. -/
structure Fits (w : Window) (call call' : Call) : Prop where
  bounded : ∀ t ∈ instants call', 0 ≤ t ∧ ∀ b ∈ w.stop, t ≤ b - w.first
  ordered : ∀ p ∈ (instants call).zip (instants call'),
    ∀ q ∈ (instants call).zip (instants call'), p.1 ≤ q.1 → p.2 ≤ q.2

/-- The restriction of a call to a window. A communication is unchanged if all of it is in the
window. -/
def Restricts (w : Window) : Call → Option Call → Prop
  | .event object time type value, r =>
      r = if w.Contains time then some (.event object (time - w.first) type value) else none
  | .startOp object time, r =>
      r = if w.Contains time then some (.startOp object (time - w.first)) else none
  | .state object initTime endTime state, r =>
      r = if w.lower initTime < w.upper endTime then
          some (.state object (w.lower initTime - w.first) (w.upper endTime - w.first) state)
        else none
  | .comm sender logS phyS receiver logR phyR size tag, r =>
      ((∀ t ∈ [logS, phyS, logR, phyR], w.Contains t) →
        r = some (.comm sender (logS - w.first) (phyS - w.first) receiver (logR - w.first)
          (phyR - w.first) size tag)) ∧
      ∀ call' ∈ r, ∃ logS' phyS' logR' phyR',
        call' = .comm sender logS' phyS' receiver logR' phyR' size tag

/-- What is written with the window is what is written without it for restricted calls. -/
def Restriction (w : Window) (c : EventCollapser) (calls : List Call) : Prop :=
  ∃ restricted : List (Option Call),
    List.Forall₂ (fun call r => Restricts w call r ∧ ∀ call' ∈ r, Fits w call call')
      calls restricted ∧
    emitted w.settings c calls = emitted Window.unset c (restricted.filterMap id)

/-- A state that has a single instant in common with the window. -/
def Touches (w : Window) : Call → Prop
  | .state _ initTime endTime _ => initTime ≠ endTime ∧ (endTime = w.first ∨ initTime ∈ w.stop)
  | _ => False

def NeverTouches (w : Window) (calls : List Call) : Prop := ∀ call ∈ calls, ¬ Touches w call

section

variable {w : Window} {a b t : ℚ}

theorem first_nonneg (w : Window) : 0 ≤ w.first := by
  cases hstart : w.start with
  | none =>
      rw [Window.first, hstart]
      exact le_refl 0
  | some a =>
      rw [Window.first, hstart]
      exact w.nonneg a hstart

theorem settings_start (w : Window) : w.settings.startParaver = w.first ∧
    (w.settings.paraverInitialTimer = true ↔ 0 < w.first) := by
  have hstop (s : Settings) (b : ℚ) (h : s.startParaver = w.first ∧
      (s.paraverInitialTimer = true ↔ 0 < w.first)) :
      (if 0 < b then { s with paraverFinalTimer := true, stopParaver := b } else s).startParaver =
        w.first ∧
      ((if 0 < b then { s with paraverFinalTimer := true, stopParaver := b }
        else s).paraverInitialTimer = true ↔ 0 < w.first) := by
    split
    · exact h
    · exact h
  apply hstop
  cases hstart : w.start with
  | none =>
      have hfirst : w.first = 0 := congrArg (fun start => Option.getD start 0) hstart
      have hnone : w.arguments.startTime = -1 :=
        congrArg (fun start => Option.getD start (-1)) hstart
      have htime : ¬ 0 < w.arguments.startTime := by
        rw [hnone]
        decide
      rw [if_neg htime, hfirst]
      exact ⟨rfl, iff_of_false Bool.false_ne_true (lt_irrefl 0)⟩
  | some a =>
      have hfirst : w.first = a := congrArg (fun start => Option.getD start 0) hstart
      have htime : w.arguments.startTime = a :=
        congrArg (fun start => Option.getD start (-1)) hstart
      rw [htime, hfirst]
      by_cases hpos : 0 < a
      · rw [if_pos hpos]
        exact ⟨rfl, iff_of_true rfl hpos⟩
      · rw [if_neg hpos]
        have hzero : a = 0 := le_antisymm (not_lt.mp hpos) (w.nonneg a hstart)
        exact ⟨hzero.symm, iff_of_false Bool.false_ne_true hpos⟩

theorem settings_final (w : Window) :
    (w.settings.paraverFinalTimer = false ∧ w.stop = none) ∨
      (w.settings.paraverFinalTimer = true ∧ w.stop = some w.settings.stopParaver) := by
  have hunset : (if 0 < w.arguments.startTime then { Window.unset with
      paraverInitialTimer := true, startParaver := w.arguments.startTime }
      else { Window.unset with startParaver := 0 }).paraverFinalTimer = false := by
    split
    · rfl
    · rfl
  rw [Window.settings, Settings.init]
  cases hstop : w.stop with
  | none =>
      have hnone : w.arguments.endTime = -1 :=
        congrArg (fun stop => Option.getD stop (-1)) hstop
      have htime : ¬ 0 < w.arguments.endTime := by
        rw [hnone]
        decide
      rw [if_neg htime]
      exact Or.inl ⟨hunset, rfl⟩
  | some b =>
      have htime : w.arguments.endTime = b := congrArg (fun stop => Option.getD stop (-1)) hstop
      have hpos : 0 < b := lt_of_le_of_lt (first_nonneg w) (w.lt b hstop)
      rw [htime, if_pos hpos]
      exact Or.inr ⟨rfl, rfl⟩

theorem settings_after (w : Window) (t : ℚ) :
    (w.settings.paraverFinalTimer = true ∧ w.settings.stopParaver < t) ↔ ¬ w.NotAfter t := by
  unfold Window.NotAfter
  rcases settings_final w with ⟨hfinal, hstop⟩ | ⟨hfinal, hstop⟩
  · rw [hfinal, hstop]
    exact iff_of_false (fun h => Bool.false_ne_true h.1) fun h =>
      h fun b hb => absurd hb (Option.not_mem_none b)
  · rw [hfinal, hstop]
    constructor
    · exact fun h hle => absurd (hle _ rfl) (not_le.mpr h.2)
    · intro h
      refine ⟨rfl, not_le.mp fun hle => h fun b hb => ?_⟩
      rw [← Option.some.inj hb]
      exact hle

theorem settings_upper (w : Window) (t : ℚ) :
    (if w.settings.paraverFinalTimer = true ∧ w.settings.stopParaver < t then
      w.settings.stopParaver else t) = w.upper t := by
  unfold Window.upper
  rcases settings_final w with ⟨hfinal, hstop⟩ | ⟨hfinal, hstop⟩
  · rw [hfinal, hstop, if_neg fun h => Bool.false_ne_true h.1]
  · rw [hfinal, hstop]
    by_cases hlt : w.settings.stopParaver < t
    · rw [if_pos ⟨rfl, hlt⟩]
      exact (min_eq_right hlt.le).symm
    · rw [if_neg fun h => hlt h.2]
      exact (min_eq_left (not_lt.mp hlt)).symm

/-- Where no start is set the window starts at 0, and what is done without one is what is done with
that start. -/
theorem if_initial {β : Type} (w : Window) {out : Prop} [Decidable out] {x y : β}
    (hzero : w.first = 0 → ¬ out ∧ x = y) :
    (if w.settings.paraverInitialTimer = true then if out then none else some x else some y) =
      if out then none else some x := by
  by_cases hpos : 0 < w.first
  · rw [if_pos ((settings_start w).2.mpr hpos)]
  · obtain ⟨hnot, heq⟩ := hzero (le_antisymm (not_lt.mp hpos) (first_nonneg w))
    rw [if_neg (mt (settings_start w).2.mp hpos), if_neg hnot, heq]

theorem lower_eq (w : Window) (t : ℚ) : (if t < w.first then w.first else t) = w.lower t := by
  by_cases hlt : t < w.first
  · rw [if_pos hlt]
    exact (max_eq_left hlt.le).symm
  · rw [if_neg hlt]
    exact (max_eq_right (not_lt.mp hlt)).symm

theorem lower_of_zero (hzero : w.first = 0) (ht : 0 ≤ t) : w.lower t = t :=
  max_eq_right (hzero.trans_le ht)

theorem upper_nonneg (w : Window) (ht : 0 ≤ t) : 0 ≤ w.upper t := by
  unfold Window.upper
  cases hstop : w.stop with
  | none => exact ht
  | some b => exact le_min ht (first_nonneg w |>.trans (w.lt b hstop).le)

theorem eventTime_eq (w : Window) (h : 0 ≤ t) :
    w.settings.eventTime t = if w.Contains t then some (t - w.first) else none := by
  unfold Settings.eventTime
  rw [(settings_start w).1]
  by_cases hafter : w.NotAfter t
  · rw [if_neg (mt (settings_after w t).mp (not_not.mpr hafter)), if_initial w fun hzero => ?_]
    · by_cases hlt : t < w.first
      · have hout : ¬ w.Contains t := fun hin => absurd hin.1 (not_le.mpr hlt)
        rw [if_pos hlt, if_neg hout]
      · have hin : w.Contains t := ⟨not_lt.mp hlt, hafter⟩
        rw [if_neg hlt, if_pos hin]
    · rw [hzero, sub_zero]
      exact ⟨not_lt.mpr h, rfl⟩
  · have hout : ¬ w.Contains t := fun hin => hafter hin.2
    rw [if_pos ((settings_after w t).mpr hafter), if_neg hout]

/-- Two times that are not both out of the window on the same side. -/
def Meets (w : Window) (t u : ℚ) : Prop :=
  w.NotAfter t ∧ ¬ (t < w.first ∧ w.upper u < w.first)

instance (w : Window) (t u : ℚ) : Decidable (Meets w t u) :=
  inferInstanceAs (Decidable (_ ∧ _))

theorem stateTimes_eq (w : Window) {initTime endTime : ℚ} (h : 0 ≤ initTime) :
    w.settings.stateTimes initTime endTime =
      if Meets w initTime endTime then
        some (w.lower initTime - w.first, w.upper endTime - w.first)
      else none := by
  unfold Settings.stateTimes
  simp only [settings_upper, (settings_start w).1, lower_eq]
  by_cases hafter : w.NotAfter initTime
  · rw [if_neg (mt (settings_after w initTime).mp (not_not.mpr hafter)),
      if_initial w fun hzero => ?_]
    · by_cases hout : initTime < w.first ∧ w.upper endTime < w.first
      · have hnot : ¬ Meets w initTime endTime := fun hmeets => hmeets.2 hout
        rw [if_pos hout, if_neg hnot]
      · have hmeets : Meets w initTime endTime := ⟨hafter, hout⟩
        rw [if_neg hout, if_pos hmeets]
    · rw [lower_of_zero hzero h, hzero, sub_zero, sub_zero]
      exact ⟨fun hout => absurd h (not_le.mpr hout.1), rfl⟩
  · have hnot : ¬ Meets w initTime endTime := fun hmeets => hafter hmeets.1
    rw [if_pos ((settings_after w initTime).mpr hafter), if_neg hnot]

theorem commTimes_eq (w : Window) {send recv : ℚ} (hsend : 0 ≤ send) (hrecv : 0 ≤ recv) :
    w.settings.commTimes send recv =
      if Meets w send recv then
        some (w.lower send - w.first, w.lower (w.upper recv) - w.first)
      else none := by
  unfold Settings.commTimes
  simp only [settings_upper, (settings_start w).1, lower_eq]
  by_cases hafter : w.NotAfter send
  · rw [if_neg (mt (settings_after w send).mp (not_not.mpr hafter)), if_initial w fun hzero => ?_]
    · by_cases hout : send < w.first ∧ w.upper recv < w.first
      · have hnot : ¬ Meets w send recv := fun hmeets => hmeets.2 hout
        rw [if_pos hout, if_neg hnot]
      · have hmeets : Meets w send recv := ⟨hafter, hout⟩
        rw [if_neg hout, if_pos hmeets]
    · rw [lower_of_zero hzero hsend, lower_of_zero hzero (upper_nonneg w hrecv), hzero, sub_zero,
        sub_zero]
      exact ⟨fun hout => absurd hsend (not_le.mpr hout.1), rfl⟩
  · have hnot : ¬ Meets w send recv := fun hmeets => hafter hmeets.1
    rw [if_pos ((settings_after w send).mpr hafter), if_neg hnot]

end

/-! ## One call -/

def clip (s : Settings) : Call → Option Call
  | .event object time type value => (s.eventTime time).map fun t => .event object t type value
  | .startOp object time => (s.eventTime time).map fun t => .startOp object t
  | .state object initTime endTime state =>
      (s.stateTimes initTime endTime).map fun ts => .state object ts.1 ts.2 state
  | .comm sender logS phyS receiver logR phyR size tag =>
      (s.commTimes logS logR).bind fun log => (s.commTimes phyS phyR).map fun phy =>
        .comm sender log.1 phy.1 receiver log.2 phy.2 size tag

theorem unset_eventTime (t : ℚ) : Window.unset.eventTime t = some t :=
  if_neg fun h => Bool.false_ne_true h.1

theorem unset_stateTimes (t u : ℚ) : Window.unset.stateTimes t u = some (t, u) := by
  have hout (v : ℚ) : ¬ (Window.unset.paraverFinalTimer = true ∧ Window.unset.stopParaver < v) :=
    fun h => Bool.false_ne_true h.1
  unfold Settings.stateTimes
  simp only [if_neg (hout t), if_neg (hout u)]
  rfl

theorem unset_commTimes (t u : ℚ) : Window.unset.commTimes t u = some (t, u) := by
  have hout (v : ℚ) : ¬ (Window.unset.paraverFinalTimer = true ∧ Window.unset.stopParaver < v) :=
    fun h => Bool.false_ne_true h.1
  unfold Settings.commTimes
  simp only [if_neg (hout t), if_neg (hout u)]
  rfl

theorem output_clip (s : Settings) (c : EventCollapser) (call : Call) :
    s.output c call = match clip s call with
      | none => (c, [])
      | some call' => Window.unset.output c call' := by
  cases call with
  | event object time type value =>
      simp only [Settings.output, Settings.paraverEvent, clip]
      by_cases htype : isInternal type = true
      · rw [if_pos htype]
        cases s.eventTime time with
        | none => rfl
        | some t => exact (if_pos htype).symm
      · rw [if_neg htype]
        cases s.eventTime time with
        | none => rfl
        | some t => simp only [Option.map_some, if_neg htype, unset_eventTime]
  | startOp object time =>
      simp only [Settings.output, Settings.startOp, clip]
      cases s.eventTime time with
      | none => rfl
      | some t => simp only [Option.map_some, unset_eventTime]
  | state object initTime endTime state =>
      simp only [Settings.output, Settings.newState, clip]
      cases s.stateTimes initTime endTime with
      | none => rfl
      | some ts => simp only [Option.map_some, unset_stateTimes]
  | comm sender logS phyS receiver logR phyR size tag =>
      simp only [Settings.output, Settings.p2pComm, clip]
      cases s.commTimes logS logR with
      | none => rfl
      | some log =>
          cases s.commTimes phyS phyR with
          | none => rfl
          | some phy => simp only [Option.bind_some, Option.map_some, unset_commTimes]

theorem written_clip (s : Settings) (c : EventCollapser) (calls : List Call) :
    written s c calls = written Window.unset c (calls.filterMap (clip s)) := by
  induction calls generalizing c with
  | nil => rfl
  | cons call calls ih =>
      rw [written_cons, output_clip]
      cases hclip : clip s call with
      | none =>
          rw [List.filterMap_cons_none hclip]
          exact ih c
      | some call' =>
          rw [List.filterMap_cons_some hclip, written_cons]
          exact congrArg _ (ih _)

def kept (w : Window) (call : Call) : Option Call :=
  if passes call then clip w.settings call else none

theorem emitted_eq (w : Window) (c : EventCollapser) (calls : List Call) :
    emitted w.settings c calls = written Window.unset c (calls.filterMap (kept w)) := by
  rw [emitted, written_clip, List.filterMap_filter]
  rfl

section

variable {w : Window} {call call' : Call} {t u : ℚ}

theorem upper_of_notAfter (h : w.NotAfter t) : w.upper t = t := by
  unfold Window.upper
  cases hstop : w.stop with
  | none => rfl
  | some b => exact min_eq_left (h b hstop)

theorem upper_le (w : Window) (t : ℚ) : w.upper t ≤ t ∧ ∀ b ∈ w.stop, w.upper t ≤ b := by
  unfold Window.upper
  cases hstop : w.stop with
  | none => exact ⟨le_refl t, fun b hb => absurd hb (Option.not_mem_none b)⟩
  | some b =>
      refine ⟨min_le_left t b, fun b' hb => ?_⟩
      rw [← Option.some.inj hb]
      exact min_le_right t b

theorem upper_mono (h : t ≤ u) : w.upper t ≤ w.upper u := by
  unfold Window.upper
  cases w.stop with
  | none => exact h
  | some b => exact min_le_min_right b h

theorem lower_upper_mono (h : t ≤ u) : w.lower (w.upper t) ≤ w.lower (w.upper u) :=
  max_le_max_left w.first (upper_mono h)

theorem lower_upper_bounded (w : Window) (t : ℚ) :
    0 ≤ w.lower (w.upper t) - w.first ∧
      ∀ b ∈ w.stop, w.lower (w.upper t) - w.first ≤ b - w.first := by
  refine ⟨sub_nonneg.mpr (le_max_left _ _), fun b hb => ?_⟩
  apply sub_le_sub_right
  exact max_le (w.lt b hb).le ((upper_le w t).2 b hb)

theorem kept_event (h : 0 ≤ t) (object : Object) (type value : UInt64) :
    Restricts w (.event object t type value) (kept w (.event object t type value)) := by
  show (w.settings.eventTime t).map _ = _
  rw [eventTime_eq w h]
  split
  · rfl
  · rfl

theorem kept_startOp (h : 0 ≤ t) (object : Object) :
    Restricts w (.startOp object t) (kept w (.startOp object t)) := by
  show (w.settings.eventTime t).map _ = _
  rw [eventTime_eq w h]
  split
  · rfl
  · rfl

theorem meets_iff (hlt : t < u) : Meets w t u ↔ w.NotAfter t ∧ w.first ≤ u := by
  have hupper : w.upper u < w.first ↔ u < w.first := by
    unfold Window.upper
    cases hstop : w.stop with
    | none => exact Iff.rfl
    | some b =>
        have hb : ¬ b < w.first := not_lt.mpr (w.lt b hstop).le
        exact min_lt_iff.trans (or_iff_left hb)
  apply and_congr_right
  intro _
  rw [hupper, ← not_lt]
  exact not_congr ⟨fun h => h.2, fun h => ⟨hlt.trans h, h⟩⟩

/-- The state from `t` to `u` has a part of positive length in the window. -/
theorem lower_lt_upper_iff (hlt : t < u) :
    w.lower t < w.upper u ↔ w.first < u ∧ ∀ b ∈ w.stop, t < b := by
  unfold Window.lower Window.upper
  cases hstop : w.stop with
  | none =>
      constructor
      · intro h
        exact ⟨(max_lt_iff.mp h).1, fun b hb => absurd hb (Option.not_mem_none b)⟩
      · exact fun h => max_lt h.1 hlt
  | some b =>
      constructor
      · intro h
        obtain ⟨hfirst, ht⟩ := max_lt_iff.mp h
        refine ⟨(lt_min_iff.mp hfirst).1, fun b' hb => ?_⟩
        rw [← Option.some.inj hb]
        exact (lt_min_iff.mp ht).2
      · intro h
        exact max_lt (lt_min h.1 (w.lt b hstop)) (lt_min hlt (h.2 b rfl))

theorem not_lower_lt_upper (hle : u ≤ t) : ¬ w.lower t < w.upper u := by
  have hlower : t ≤ w.lower t := le_max_right _ _
  exact not_lt.mpr (((upper_le w u).1.trans hle).trans hlower)

/-- A state is kept or dropped by its positive length unless it only touches the window. -/
theorem meets_iff_lt (hlt : t < u) (hend : u ≠ w.first) (hinit : t ∉ w.stop) :
    Meets w t u ↔ w.lower t < w.upper u := by
  rw [meets_iff hlt, lower_lt_upper_iff hlt]
  constructor
  · intro h
    refine ⟨lt_of_le_of_ne h.2 hend.symm, fun b hb => lt_of_le_of_ne (h.1 b hb) fun heq => ?_⟩
    rw [heq] at hinit
    exact hinit hb
  · exact fun h => ⟨fun b hb => (h.2 b hb).le, h.1.le⟩

theorem kept_state (ht : 0 ≤ t) (hle : t ≤ u) (object : Object) (state : Int)
    (hnot : ¬ Touches w (.state object t u state)) :
    Restricts w (.state object t u state) (kept w (.state object t u state)) := by
  by_cases heq : t = u
  · have hpasses : passes (.state object t u state) = false := by
      rw [heq]
      exact decide_eq_false (not_not.mpr rfl)
    rw [kept, if_neg (ne_true_of_eq_false hpasses)]
    exact (if_neg (not_lower_lt_upper heq.ge)).symm
  · have hpasses : passes (.state object t u state) = true := decide_eq_true heq
    have hend : u ≠ w.first := fun hend => hnot ⟨heq, Or.inl hend⟩
    have hinit : t ∉ w.stop := fun hinit => hnot ⟨heq, Or.inr hinit⟩
    have hiff := meets_iff_lt (lt_of_le_of_ne hle heq) hend hinit
    rw [kept, if_pos hpasses]
    show (w.settings.stateTimes t u).map _ = _
    rw [stateTimes_eq w ht]
    by_cases hmeets : Meets w t u
    · rw [if_pos hmeets, if_pos (hiff.mp hmeets)]
      rfl
    · rw [if_neg hmeets, if_neg (mt hiff.mpr hmeets)]
      rfl

theorem kept_touches (ht : 0 ≤ t) (hle : t ≤ u) (object : Object) (state : Int)
    (htouch : Touches w (.state object t u state)) :
    ¬ w.lower t < w.upper u ∧ ∃ t' u', kept w (.state object t u state) =
      some (.state object t' u' state) := by
  obtain ⟨hne, hends⟩ := htouch
  have hlt : t < u := lt_of_le_of_ne hle hne
  have hmeets : Meets w t u := by
    apply (meets_iff hlt).mpr
    rcases hends with hend | hinit
    · exact ⟨fun b hb => (hlt.trans_eq hend).le.trans (w.lt b hb).le, hend.ge⟩
    · refine ⟨fun b hb => ?_, (w.lt t hinit).le.trans hle⟩
      rw [Option.some.inj (hinit.symm.trans hb)]
  have hpasses : passes (.state object t u state) = true := decide_eq_true hne
  constructor
  · rw [lower_lt_upper_iff hlt]
    rintro ⟨hfirst, hstop⟩
    rcases hends with hend | hinit
    · exact absurd hend hfirst.ne'
    · exact absurd (hstop t hinit) (lt_irrefl t)
  · refine ⟨w.lower t - w.first, w.upper u - w.first, ?_⟩
    rw [kept, if_pos hpasses]
    show (w.settings.stateTimes t u).map _ = _
    rw [stateTimes_eq w ht, if_pos hmeets]
    rfl

def moved (w : Window) (t : ℚ) : ℚ := w.lower (w.upper t) - w.first

theorem moved_of_contains (h : w.Contains t) : moved w t = t - w.first := by
  rw [moved, upper_of_notAfter h.2, Window.lower, max_eq_right h.1]

theorem moved_of_notAfter (h : w.NotAfter t) : moved w t = w.lower t - w.first := by
  rw [moved, upper_of_notAfter h]

theorem meets_of_contains (ht : w.Contains t) : Meets w t u :=
  ⟨ht.2, fun h => absurd ht.1 (not_le.mpr h.1)⟩

theorem commTimes_moved (ht : 0 ≤ t) (hu : 0 ≤ u) :
    w.settings.commTimes t u = if Meets w t u then some (moved w t, moved w u) else none := by
  rw [commTimes_eq w ht hu]
  by_cases hmeets : Meets w t u
  · rw [if_pos hmeets, if_pos hmeets, moved_of_notAfter hmeets.1]
    rfl
  · rw [if_neg hmeets, if_neg hmeets]

theorem kept_comm {logS phyS logR phyR : ℚ} (hlogS : 0 ≤ logS) (hphyS : 0 ≤ phyS)
    (hlogR : 0 ≤ logR) (hphyR : 0 ≤ phyR) (sender receiver : Object) (size tag : Int32) :
    kept w (.comm sender logS phyS receiver logR phyR size tag) =
      if Meets w logS logR ∧ Meets w phyS phyR then
        some (.comm sender (moved w logS) (moved w phyS) receiver (moved w logR) (moved w phyR)
          size tag)
      else none := by
  show (w.settings.commTimes logS logR).bind _ = _
  rw [commTimes_moved hlogS hlogR, commTimes_moved hphyS hphyR]
  by_cases hlog : Meets w logS logR
  · by_cases hphy : Meets w phyS phyR
    · rw [if_pos hlog, if_pos hphy, if_pos ⟨hlog, hphy⟩]
      rfl
    · rw [if_pos hlog, if_neg hphy, if_neg fun h => hphy h.2]
      rfl
  · have hnot : ¬ (Meets w logS logR ∧ Meets w phyS phyR) := fun h => hlog h.1
    rw [if_neg hlog, if_neg hnot]
    rfl

theorem restricts_comm {logS phyS logR phyR : ℚ} (hlogS : 0 ≤ logS) (hphyS : 0 ≤ phyS)
    (hlogR : 0 ≤ logR) (hphyR : 0 ≤ phyR) (sender receiver : Object) (size tag : Int32) :
    Restricts w (.comm sender logS phyS receiver logR phyR size tag)
      (kept w (.comm sender logS phyS receiver logR phyR size tag)) := by
  rw [kept_comm hlogS hphyS hlogR hphyR]
  constructor
  · intro hall
    obtain ⟨hin₁, hall⟩ := List.forall_mem_cons.mp hall
    obtain ⟨hin₂, hall⟩ := List.forall_mem_cons.mp hall
    obtain ⟨hin₃, hall⟩ := List.forall_mem_cons.mp hall
    have hin₄ := hall phyR List.mem_cons_self
    rw [if_pos ⟨meets_of_contains hin₁, meets_of_contains hin₂⟩, moved_of_contains hin₁,
      moved_of_contains hin₂, moved_of_contains hin₃, moved_of_contains hin₄]
  · intro call' hcall
    split at hcall
    · exact ⟨_, _, _, _, (Option.some.inj hcall).symm⟩
    · exact absurd hcall (Option.not_mem_none call')

theorem instants_kept (hvalid : Valid call) (hkept : kept w call = some call') :
    instants call' = (instants call).map (moved w) := by
  have hnonneg := hvalid.nonneg
  cases call with
  | event object time type value =>
      have htime : 0 ≤ time := hnonneg time List.mem_cons_self
      rw [kept_event htime object type value] at hkept
      split at hkept
      · next hin =>
          rw [← Option.some.inj hkept]
          exact congrArg (fun t => [t]) (moved_of_contains hin).symm
      · exact absurd hkept.symm (Option.some_ne_none call')
  | startOp object time =>
      have htime : 0 ≤ time := hnonneg time List.mem_cons_self
      rw [kept_startOp htime object] at hkept
      split at hkept
      · next hin =>
          rw [← Option.some.inj hkept]
          exact congrArg (fun t => [t]) (moved_of_contains hin).symm
      · exact absurd hkept.symm (Option.some_ne_none call')
  | state object initTime endTime state =>
      have hinit : 0 ≤ initTime := hnonneg initTime List.mem_cons_self
      have hle := hvalid.ordered object initTime endTime state rfl
      rw [kept] at hkept
      split at hkept
      · next hpasses =>
          have hlt : initTime < endTime := lt_of_le_of_ne hle (of_decide_eq_true hpasses)
          simp only [clip, stateTimes_eq w hinit] at hkept
          split at hkept
          · next hmeets =>
              have hend : w.first ≤ w.upper endTime := by
                have hfirst := ((meets_iff hlt).mp hmeets).2
                unfold Window.upper
                cases hstop : w.stop with
                | none => exact hfirst
                | some b => exact le_min hfirst (w.lt b hstop).le
              have hmoved : moved w endTime = w.upper endTime - w.first := by
                rw [moved, Window.lower, max_eq_right hend]
              rw [← Option.some.inj hkept]
              show [_, _] = [_, _]
              rw [moved_of_notAfter hmeets.1, hmoved]
          · exact absurd hkept.symm (Option.some_ne_none call')
      · exact absurd hkept.symm (Option.some_ne_none call')
  | comm sender logS phyS receiver logR phyR size tag =>
      obtain ⟨hlogS, hnonneg⟩ := List.forall_mem_cons.mp hnonneg
      obtain ⟨hphyS, hnonneg⟩ := List.forall_mem_cons.mp hnonneg
      obtain ⟨hlogR, hnonneg⟩ := List.forall_mem_cons.mp hnonneg
      rw [kept_comm hlogS hphyS hlogR (hnonneg phyR List.mem_cons_self)] at hkept
      split at hkept
      · rw [← Option.some.inj hkept]
        rfl
      · exact absurd hkept.symm (Option.some_ne_none call')

theorem fits_kept (hvalid : Valid call) (hkept : kept w call = some call') :
    Fits w call call' := by
  have hinstants := instants_kept hvalid hkept
  constructor
  · rw [hinstants]
    intro t ht
    obtain ⟨u, -, heq⟩ := List.mem_map.mp ht
    rw [← heq]
    exact lower_upper_bounded w u
  · have hzip : (instants call).zip (instants call') =
        (instants call).map fun t => (t, moved w t) := by
      rw [hinstants]
      have hmap := @List.zip_map' _ _ _ id (moved w) (instants call)
      rw [List.map_id] at hmap
      exact hmap
    rw [hzip]
    intro p hp q hq hle
    obtain ⟨t, -, ht⟩ := List.mem_map.mp hp
    obtain ⟨u, -, hu⟩ := List.mem_map.mp hq
    rw [← ht, ← hu] at hle ⊢
    exact sub_le_sub_right (lower_upper_mono hle) w.first

theorem restricts_kept (hvalid : Valid call) (hnot : ¬ Touches w call) :
    Restricts w call (kept w call) := by
  have hnonneg := hvalid.nonneg
  cases call with
  | event object time type value => exact kept_event (hnonneg time List.mem_cons_self) _ _ _
  | startOp object time => exact kept_startOp (hnonneg time List.mem_cons_self) _
  | state object initTime endTime state =>
      exact kept_state (hnonneg initTime List.mem_cons_self)
        (hvalid.ordered object initTime endTime state rfl) _ _ hnot
  | comm sender logS phyS receiver logR phyR size tag =>
      obtain ⟨hlogS, hnonneg⟩ := List.forall_mem_cons.mp hnonneg
      obtain ⟨hphyS, hnonneg⟩ := List.forall_mem_cons.mp hnonneg
      obtain ⟨hlogR, hnonneg⟩ := List.forall_mem_cons.mp hnonneg
      exact restricts_comm hlogS hphyS hlogR (hnonneg phyR List.mem_cons_self) _ _ _ _

theorem passes_of_restricts (hrestricts : Restricts w call (some call')) : passes call' = true := by
  cases call with
  | event object time type value =>
      have heq : some call' = _ := hrestricts
      split at heq
      · rw [Option.some.inj heq]
        rfl
      · exact absurd heq (Option.some_ne_none call')
  | startOp object time =>
      have heq : some call' = _ := hrestricts
      split at heq
      · rw [Option.some.inj heq]
        rfl
      · exact absurd heq (Option.some_ne_none call')
  | state object initTime endTime state =>
      have heq : some call' = _ := hrestricts
      split at heq
      · next hlt =>
          rw [Option.some.inj heq]
          exact decide_eq_true fun hsame => absurd (sub_left_injective hsame) hlt.ne
      · exact absurd heq (Option.some_ne_none call')
  | comm sender logS phyS receiver logR phyR size tag =>
      obtain ⟨_, _, _, _, heq⟩ := hrestricts.2 call' rfl
      rw [heq]
      rfl

end

/-! ## Runs of calls -/

def isState : Call → Bool
  | .state .. => true
  | _ => false

def isStateRecord (r : SimpleParaverRecord) : Bool := r.type = prvState || r.type = prvStateRun

section

variable {w : Window} {c : EventCollapser} {calls : List Call} {call : Call}

theorem isStateRecord_events {rs : List SimpleParaverRecord} (h : ∀ r ∈ rs, r.type = prvEvent) :
    rs.countP isStateRecord = 0 := by
  apply List.countP_eq_zero.mpr
  intro r hr
  rw [isStateRecord, h r hr]
  decide

theorem countP_output (c : EventCollapser) (call : Call) :
    (Window.unset.output c call).2.countP isStateRecord = if isState call then 1 else 0 := by
  rcases output_cases Window.unset c call with ⟨-, houtput⟩ | ⟨i, -, hsteps, hothers⟩
  · rw [houtput]
    cases call with
    | event object time type value => rfl
    | startOp object time => rfl
    | state object initTime endTime state =>
        simp only [others, Settings.newState, unset_stateTimes, isState]
        split
        · rfl
        · rfl
    | comm sender logS phyS receiver logR phyR size tag =>
        simp only [others, Settings.p2pComm, unset_commTimes, isState]
        rfl
  · have hevents : (Window.unset.output c call).2.countP isStateRecord = 0 := by
      rw [hsteps.records]
      apply isStateRecord_events
      intro r hr
      obtain ⟨g, -, hg⟩ := List.mem_flatMap.mp hr
      exact type_of_mem_groupRecord hg
    rw [hevents]
    cases call with
    | state object initTime endTime state =>
        simp only [others, Settings.newState, unset_stateTimes] at hothers
        exact absurd hothers (List.cons_ne_nil _ _)
    | event object time type value => rfl
    | startOp object time => rfl
    | comm sender logS phyS receiver logR phyR size tag => rfl

theorem countP_written (c : EventCollapser) (calls : List Call) :
    (written Window.unset c calls).countP isStateRecord = calls.countP isState := by
  induction calls generalizing c with
  | nil => exact isStateRecord_events fun r => type_of_mem_flush
  | cons call calls ih =>
      rw [written_cons, List.countP_append, ih, countP_output, List.countP_cons, Nat.add_comm]

def keepsState (r : Option Call) : Bool := (r.map isState).getD false

theorem keepsState_ite {p : Prop} [Decidable p] (h : isState call = false) :
    keepsState (if p then some call else none) = false := by
  split
  · exact h
  · rfl

theorem keepsState_kept {r : Option Call} (hvalid : Valid call) (hr : Restricts w call r)
    (hkeeps : keepsState r = true) : keepsState (kept w call) = true := by
  cases call with
  | event object time type value =>
      have hr' : r = _ := hr
      rw [hr', keepsState_ite rfl] at hkeeps
      exact absurd hkeeps Bool.false_ne_true
  | startOp object time =>
      have hr' : r = _ := hr
      rw [hr', keepsState_ite rfl] at hkeeps
      exact absurd hkeeps Bool.false_ne_true
  | state object initTime endTime state =>
      have hinit : 0 ≤ initTime := hvalid.nonneg initTime List.mem_cons_self
      have hle := hvalid.ordered object initTime endTime state rfl
      have hr' : r = _ := hr
      by_cases htouch : Touches w (.state object initTime endTime state)
      · rw [hr', if_neg (kept_touches hinit hle object state htouch).1] at hkeeps
        exact absurd hkeeps Bool.false_ne_true
      · have hkept : kept w (.state object initTime endTime state) = _ :=
          kept_state hinit hle object state htouch
        rw [hkept, ← hr']
        exact hkeeps
  | comm sender logS phyS receiver logR phyR size tag =>
      cases r with
      | none => exact absurd hkeeps Bool.false_ne_true
      | some call' =>
          obtain ⟨_, _, _, _, heq⟩ := hr.2 call' rfl
          rw [heq] at hkeeps
          exact absurd hkeeps Bool.false_ne_true

theorem not_touches {r : Option Call} (hvalid : Valid call)
    (hr : Restricts w call r) (hkeeps : keepsState (kept w call) = true → keepsState r = true) :
    ¬ Touches w call := by
  intro htouch
  cases call with
  | state object initTime endTime state =>
      have hinit : 0 ≤ initTime := hvalid.nonneg initTime List.mem_cons_self
      have hle := hvalid.ordered object initTime endTime state rfl
      obtain ⟨hnot, t', u', hkept⟩ := kept_touches hinit hle object state htouch
      have hr' : r = _ := hr
      rw [if_neg hnot] at hr'
      rw [hkept, hr'] at hkeeps
      exact Bool.false_ne_true (hkeeps rfl)
  | event object time type value => exact htouch
  | startOp object time => exact htouch
  | comm sender logS phyS receiver logR phyR size tag => exact htouch

/-- The calls for states are not cut short again. -/
theorem filter_passes {restricted : List (Option Call)}
    (h : List.Forall₂ (fun call r => Restricts w call r ∧ ∀ call' ∈ r, Fits w call call')
      calls restricted) :
    (restricted.filterMap id).filter passes = restricted.filterMap id := by
  induction h with
  | nil => rfl
  | @cons call r calls restricted hr _ ih =>
      cases r with
      | none =>
          rw [List.filterMap_cons_none rfl]
          exact ih
      | some call' =>
          rw [List.filterMap_cons_some (f := id) rfl,
            List.filter_cons_of_pos (passes_of_restricts hr.1), ih]

theorem Restriction.neverTouches (hvalid : ∀ call ∈ calls, Valid call)
    (h : Restriction w c calls) : NeverTouches w calls := by
  obtain ⟨restricted, hforall, hwritten⟩ := h
  have hcount : restricted.countP keepsState =
      calls.countP fun call => keepsState (kept w call) := by
    have hstates := congrArg (List.countP isStateRecord) hwritten
    rw [emitted_eq, emitted, filter_passes hforall, countP_written, countP_written,
      List.countP_filterMap, List.countP_filterMap] at hstates
    exact hstates.symm
  have hvalids : List.Forall₂ (fun r call => Valid call ∧ Restricts w call r) restricted calls :=
    List.Forall₂.flip ((List.forall₂_and_left calls restricted).mpr
      ⟨hvalid, hforall.imp fun _ _ hr => hr.1⟩)
  have hpairs := forall₂_of_countP_eq hvalids (fun r call hr => keepsState_kept hr.1 hr.2)
    hcount.ge
  have hnot : List.Forall₂ (fun call _ => ¬ Touches w call ∧ True) calls restricted :=
    List.Forall₂.flip (hpairs.imp fun _ _ hr => ⟨not_touches hr.1.1 hr.1.2 hr.2, trivial⟩)
  exact ((List.forall₂_and_left calls restricted).mp hnot).1

theorem restriction_of_neverTouches (hvalid : ∀ call ∈ calls, Valid call)
    (hnot : NeverTouches w calls) : Restriction w c calls := by
  have hforall : List.Forall₂ (fun call r => Restricts w call r ∧ ∀ call' ∈ r, Fits w call call')
      calls (calls.map (kept w)) := by
    apply List.forall₂_map_right_iff.mpr
    apply List.forall₂_same.mpr
    intro call hcall
    exact ⟨restricts_kept (hvalid call hcall) (hnot call hcall), fun call' hkept =>
      fits_kept (hvalid call hcall) hkept⟩
  refine ⟨calls.map (kept w), hforall, ?_⟩
  rw [emitted_eq, emitted, filter_passes hforall, List.filterMap_map]
  rfl

end

def fiveToTen : Window where
  start := some 5
  stop := some 10
  nonneg a ha := by
    rw [← Option.some.inj ha]
    decide
  lt b hb := by
    rw [← Option.some.inj hb]
    decide

def thread : Object := ⟨1, 0, 0, 0⟩

def otherThread : Object := ⟨2, 0, 1, 0⟩

theorem valid_state {object : Object} {initTime endTime : ℚ} {state : Int} (h : 0 ≤ initTime)
    (hle : initTime ≤ endTime) : Valid (.state object initTime endTime state) := by
  refine ⟨?_, fun object' i e state' heq => ?_⟩
  · exact List.forall_mem_cons.mpr ⟨h, List.forall_mem_singleton.mpr (h.trans hle)⟩
  · obtain ⟨-, hi, he, -⟩ := Call.state.inj heq
    rw [← hi, ← he]
    exact hle

instance (w : Window) : (call : Call) → Decidable (Touches w call)
  | .state _ _ _ _ => inferInstanceAs (Decidable (_ ∧ _))
  | .event _ _ _ _ => .isFalse id
  | .startOp _ _ => .isFalse id
  | .comm _ _ _ _ _ _ _ _ => .isFalse id

/-- Records in front of the window, in it, behind it and over its borders. -/
def mixedCalls : List Call :=
  [.state thread 0 4 prvRunningSt, .event thread 4 60000019 1, .state thread 4 7 prvRunningSt,
    .comm thread 3 4 otherThread 8 9 64 1, .event thread 6 60000019 0,
    .comm thread 6 7 otherThread 8 9 64 2, .state thread 7 12 prvRunningSt, .startOp thread 11]

end Dimemas.PrvUtils.TraceWindow
