import Mathlib.Data.List.Count
import Dimemas.Library.Transitions
import Dimemas.Model.WanReservation
/-!
# The reservation phases of a collective operation

While every thread that is woken up asks for the link that it waited for, the threads of
the operation go through the phases of the reservation one after the other: all get
their output links first, then all get their input links, and the operation starts once.
-/

namespace Dimemas.Model.WanPhases

open Dimemas.Library.Transitions
open Dimemas.Model.Links (LinkType)
open Dimemas.Model.WanReservation

inductive RepPhase
  | idle | asksOut | waitsOut | hasOut | waitsIn | hasBoth
deriving DecidableEq, Repr

namespace RepPhase

def holdsOut : RepPhase → Bool
  | hasOut | waitsIn | hasBoth => true
  | _ => false

def inPhase : RepPhase → Bool
  | waitsIn | hasBoth => true
  | _ => false

def history (m : Nat) : RepPhase → List GlopEvent
  | idle | asksOut | waitsOut => []
  | hasOut | waitsIn => [.tookLink m .outLink, .withLinks m]
  | hasBoth => [.tookLink m .outLink, .withLinks m, .tookLink m .inLink]

theorem eq_hasOut {q : RepPhase} (hholds : q.holdsOut) (hin : q.inPhase = false) :
    q = hasOut := by
  revert hholds hin
  cases q <;> decide

end RepPhase

def About (m : Nat) : GlopEvent → Bool
  | .tookLink m' _ => m' = m
  | .withLinks m' => m' = m
  | .start => false

def repHistory (s : ReserveState) (m : Nat) : List GlopEvent :=
  s.history.filter (About m)

/-- The data of the thread of a machine are those of its phase. -/
structure RepOk (s : ReserveState) (m : Nat) (q : RepPhase) : Prop where
  hasBuses : (s.rep m).hasBuses = decide (q ≠ .idle)
  localLink : (s.rep m).localLink = q.holdsOut
  partnerLink : (s.rep m).partnerLink = decide (q = .hasBoth)
  waitsOut : (s.net m).thForOut.count .rep = if q = .waitsOut then 1 else 0
  waitsIn : (s.net m).thForIn.count .rep = if q = .waitsIn then 1 else 0
  history : repHistory s m = q.history m

structure InPhases (machines : List Nat) (ph : Nat → RepPhase) (s : ReserveState) : Prop where
  reps : ∀ m ∈ machines, RepOk s m (ph m)
  outside : ∀ m, m ∉ machines →
    Waiter.rep ∉ (s.net m).thForOut ∧ Waiter.rep ∉ (s.net m).thForIn
  withLinks : (∃ m ∈ machines, ph m ≠ .hasBoth) →
    s.mThreadsWithLinks.length = machines.countP fun m => (ph m).holdsOut
  threads : s.threads.length = machines.countP fun m => ph m = .hasBoth
  starts : s.history.count .start = if ∀ m ∈ machines, ph m = .hasBoth then 1 else 0

/-- The input links come after all output links, and no thread is between two requests. -/
structure Staged (machines : List Nat) (ph : Nat → RepPhase) : Prop where
  inPhase : (∃ m ∈ machines, (ph m).inPhase) → ∀ m ∈ machines, (ph m).inPhase
  notAllOut : ∃ m ∈ machines, ph m ≠ .hasOut
  settled : ∀ m ∈ machines, ph m ≠ .asksOut

def Good (machines : List Nat) (s : ReserveState) : Prop :=
  ∃ ph, InPhases machines ph s ∧ Staged machines ph

variable {machines : List Nat} {ph : Nat → RepPhase} {s s' : ReserveState} {m : Nat} {q : RepPhase}

theorem good_init (hne : machines ≠ []) : Good machines .init := by
  obtain ⟨m, hm⟩ := List.exists_mem_of_ne_nil _ hne
  refine ⟨fun _ => .idle, ⟨fun m _ => ?_, ?_, ?_, ?_, ?_⟩, ⟨?_, ⟨m, hm, by decide⟩, ?_⟩⟩
  · constructor <;> simp [ReserveState.init, RepPhase.holdsOut, repHistory, RepPhase.history]
  · simp [ReserveState.init]
  · simp [ReserveState.init, RepPhase.holdsOut]
  · simp [ReserveState.init]
  · rw [if_neg fun h => absurd (h m hm) (by decide)]
    rfl
  · simp [RepPhase.inPhase]
  · simp

theorem countP_update (ph : Nat → RepPhase) (q : RepPhase) (hnodup : machines.Nodup)
    (hm : m ∈ machines) (p : RepPhase → Bool) :
    (machines.countP fun i => p (Function.update ph m q i)) + (p (ph m)).toNat =
      (machines.countP fun i => p (ph i)) + (p q).toNat := by
  induction machines with
  | nil => cases hm
  | cons i rest ih =>
      obtain ⟨hi, hrest⟩ := List.nodup_cons.mp hnodup
      rw [List.countP_cons, List.countP_cons]
      by_cases him : i = m
      · subst him
        have hsame : (rest.countP fun j => p (Function.update ph i q j)) =
            rest.countP fun j => p (ph j) := by
          apply List.countP_congr
          intro j hj
          have hji : j ≠ i := by
            rintro rfl
            exact hi hj
          rw [Function.update_of_ne hji]
        rw [hsame, Function.update_self]
        cases p (ph i) <;> cases p q <;> simp
      · have hm' : m ∈ rest := (List.mem_cons.mp hm).resolve_left fun h => him h.symm
        have ih' := ih hrest hm'
        rw [Function.update_of_ne him]
        omega

structure ConcernsOnly (m : Nat) (s s' : ReserveState) : Prop where
  net : ∀ i, i ≠ m → s'.net i = s.net i
  rep : ∀ i, i ≠ m → s'.rep i = s.rep i
  history : ∀ i, i ≠ m → repHistory s' i = repHistory s i

theorem RepOk.of_other (h : RepOk s m q) {i : Nat} (hother : ConcernsOnly i s s') (hne : m ≠ i) :
    RepOk s' m q := by
  constructor
  · rw [hother.rep m hne, h.hasBuses]
  · rw [hother.rep m hne, h.localLink]
  · rw [hother.rep m hne, h.partnerLink]
  · rw [hother.net m hne, h.waitsOut]
  · rw [hother.net m hne, h.waitsIn]
  · rw [hother.history m hne, h.history]

theorem InPhases.update (h : InPhases machines ph s) (hm : m ∈ machines)
    (hother : ConcernsOnly m s s') (hrep : RepOk s' m q)
    (hwith : (∃ i ∈ machines, Function.update ph m q i ≠ .hasBoth) →
      s'.mThreadsWithLinks.length =
        machines.countP fun i => (Function.update ph m q i).holdsOut)
    (hthreads : s'.threads.length =
      machines.countP fun i => Function.update ph m q i = .hasBoth)
    (hstarts : s'.history.count .start =
      if ∀ i ∈ machines, Function.update ph m q i = .hasBoth then 1 else 0) :
    InPhases machines (Function.update ph m q) s' := by
  refine ⟨fun i hi => ?_, fun i hi => ?_, hwith, hthreads, hstarts⟩
  · by_cases him : i = m
    · subst him
      rwa [Function.update_self]
    · rw [Function.update_of_ne him]
      exact (h.reps i hi).of_other hother him
  · have him : i ≠ m := by
      rintro rfl
      exact hi hm
    rw [hother.net i him]
    exact h.outside i hi

/-- A thread that stays without its input link does not change the counts if it keeps its output
link or stays without it. -/
theorem InPhases.update_waiting (h : InPhases machines ph s) (hnodup : machines.Nodup)
    (hm : m ∈ machines) (hother : ConcernsOnly m s s') (hrep : RepOk s' m q)
    (hholds : q.holdsOut = (ph m).holdsOut) (hph : ph m ≠ .hasBoth) (hq : q ≠ .hasBoth)
    (hwith : s'.mThreadsWithLinks = s.mThreadsWithLinks) (hthreads : s'.threads = s.threads)
    (hhistory : s'.history.count .start = s.history.count .start) :
    InPhases machines (Function.update ph m q) s' := by
  refine h.update hm hother hrep (fun _ => ?_) ?_ ?_
  · have hcount := countP_update ph q hnodup hm RepPhase.holdsOut
    rw [hwith, h.withLinks ⟨m, hm, hph⟩]
    rw [hholds] at hcount
    omega
  · have hcount := countP_update ph q hnodup hm (fun r => decide (r = .hasBoth))
    rw [hthreads, h.threads]
    simpa [hph, hq] using hcount.symm
  · rw [hhistory, h.starts, if_neg fun hall => hph (hall m hm), if_neg fun hall => ?_]
    exact hq (by simpa using hall m hm)

/-! ## The requests for the links -/

@[simp] theorem repHistory_record_tookLink {inOut : LinkType} {i : Nat} :
    repHistory (s.record (.tookLink m inOut)) i =
      repHistory s i ++ if m = i then [.tookLink m inOut] else [] := by
  by_cases hmi : m = i <;> simp [repHistory, ReserveState.record, About, hmi]

@[simp] theorem repHistory_record_withLinks {i : Nat} :
    repHistory (s.record (.withLinks m)) i =
      repHistory s i ++ if m = i then [.withLinks m] else [] := by
  by_cases hmi : m = i <;> simp [repHistory, ReserveState.record, About, hmi]

@[simp] theorem repHistory_record_start {i : Nat} :
    repHistory (s.record .start) i = repHistory s i := by
  simp [repHistory, ReserveState.record, About]

@[simp] theorem repHistory_setNet {net : ExternalNet} {i : Nat} :
    repHistory (s.setNet m net) i = repHistory s i := rfl

@[simp] theorem repHistory_setRep {rep : Rep} {i : Nat} :
    repHistory (s.setRep m rep) i = repHistory s i := rfl

theorem concernsOnly_setNet {net : ExternalNet} : ConcernsOnly m s (s.setNet m net) :=
  ⟨fun _ hi => Function.update_of_ne hi .., fun _ _ => rfl, fun _ _ => rfl⟩

theorem concernsOnly_setRep {rep : Rep} : ConcernsOnly m s (s.setRep m rep) :=
  ⟨fun _ _ => rfl, fun _ hi => Function.update_of_ne hi .., fun _ _ => rfl⟩

theorem concernsOnly_takeLink {net : ExternalNet} {rep : Rep} {inOut : LinkType} :
    ConcernsOnly m s (((s.setNet m net).setRep m rep).record (.tookLink m inOut)) :=
  ⟨fun _ hi => Function.update_of_ne hi .., fun _ hi => Function.update_of_ne hi ..,
    fun _ hi => by simp [Ne.symm hi]⟩

/-- A thread of which all other data stay asks for its input link. -/
def inStep (machines : List Nat) (s : ReserveState) (m : Nat) : ReserveState :=
  let (granted, s) := getSingleWanLink s m .inLink
  if granted then globalOpGetAllInLinks machines s m else s

theorem InPhases.inStep (hnodup : machines.Nodup) (h : InPhases machines ph s) (hm : m ∈ machines)
    (hph : ph m = .hasOut) :
    ∃ q, q.inPhase ∧ InPhases machines (Function.update ph m q) (inStep machines s m) := by
  have hrep := h.reps m hm
  have hnotAll : ¬ ∀ i ∈ machines, ph i = .hasBoth := fun hall => by
    rw [hall m hm] at hph
    cases hph
  rw [hph] at hrep
  have hpartner : (s.rep m).partnerLink = false := hrep.partnerLink
  by_cases hfree : (s.net m).freeInLink
  · -- the thread has both links
    refine ⟨.hasBoth, rfl, ?_⟩
    let s₀ : ReserveState := ((s.setNet m { s.net m with freeInLink := false }).setRep m
      { s.rep m with partnerLink := true }).record (.tookLink m .inLink)
    let s₁ : ReserveState := { s₀ with threads := s.threads ++ [m] }
    have hstep : WanPhases.inStep machines s m =
        if s₁.threads.length ≠ machines.length then s₁
        else { s₁ with mThreadsWithLinks := [] }.record .start := by
      simp only [WanPhases.inStep, getSingleWanLink, hpartner, hfree, if_true, Bool.false_eq_true,
        if_false, globalOpGetAllInLinks]
      rfl
    have htake : ConcernsOnly m s s₀ := concernsOnly_takeLink
    have hother : ConcernsOnly m s s₁ := ⟨htake.net, htake.rep, htake.history⟩
    have hrep₁ : RepOk s₁ m .hasBoth := by
      constructor
      · simpa [s₁, s₀, ReserveState.setRep, ReserveState.record] using hrep.hasBuses
      · have hlocal : (s.rep m).localLink = true := hrep.localLink
        simpa [s₁, s₀, ReserveState.setRep, ReserveState.record, RepPhase.holdsOut] using hlocal
      · simp [s₁, s₀, ReserveState.setRep, ReserveState.record]
      · simpa [s₁, s₀, ReserveState.setRep, ReserveState.setNet, ReserveState.record] using
          hrep.waitsOut
      · simpa [s₁, s₀, ReserveState.setRep, ReserveState.setNet, ReserveState.record] using
          hrep.waitsIn
      · calc
          repHistory s₁ m = repHistory s m ++ [.tookLink m .inLink] := by
            show repHistory (ReserveState.record _ _) m = _
            simp
          _ = _ := by rw [hrep.history]; rfl
    have hthreads : s₁.threads.length =
        machines.countP fun i => Function.update ph m .hasBoth i = .hasBoth := by
      have hcount := countP_update ph .hasBoth hnodup hm
        (fun r => decide (r = .hasBoth))
      have hold := h.threads
      simp only [hph, reduceCtorEq, decide_false, decide_true, Bool.toNat_false,
        Bool.toNat_true] at hcount
      simp only [s₁, List.length_append, List.length_singleton]
      omega
    have hcountP := List.countP_eq_length
      (p := fun i => decide (Function.update ph m .hasBoth i = .hasBoth)) (l := machines)
    simp only [decide_eq_true_eq] at hcountP
    have hnoStart : s₁.history.count .start = 0 := by
      have hstarts := h.starts
      rw [if_neg hnotAll] at hstarts
      simpa [s₁, s₀, ReserveState.record, ReserveState.setRep, ReserveState.setNet] using hstarts
    have hwith : s₁.mThreadsWithLinks.length =
        machines.countP fun i => (Function.update ph m .hasBoth i).holdsOut := by
      have hcount := countP_update ph .hasBoth hnodup hm RepPhase.holdsOut
      have hold := h.withLinks ⟨m, hm, by rw [hph]; decide⟩
      rw [hph, show RepPhase.holdsOut .hasOut = RepPhase.holdsOut .hasBoth from rfl] at hcount
      calc
        s₁.mThreadsWithLinks.length = s.mThreadsWithLinks.length := rfl
        _ = _ := by omega
    rw [hstep]
    by_cases hall : ∀ i ∈ machines, Function.update ph m .hasBoth i = .hasBoth
    · -- it is the last one
      rw [if_neg (not_not.mpr (hthreads.trans (hcountP.mpr hall)))]
      have hother' : ConcernsOnly m s ({ s₁ with mThreadsWithLinks := [] }.record .start) :=
        ⟨hother.net, hother.rep, fun i hi => by
          rw [repHistory_record_start]
          exact hother.history i hi⟩
      refine h.update hm hother' ⟨hrep₁.hasBuses, hrep₁.localLink, hrep₁.partnerLink,
        hrep₁.waitsOut, hrep₁.waitsIn, ?_⟩ (fun hex => ?_) hthreads ?_
      · rw [repHistory_record_start]
        exact hrep₁.history
      · obtain ⟨i, hi, hne⟩ := hex
        exact absurd (hall i hi) hne
      · rw [if_pos hall]
        simp [ReserveState.record, hnoStart]
    · rw [if_pos fun hlength => hall (hcountP.mp (hthreads.symm.trans hlength))]
      refine h.update hm hother hrep₁ (fun _ => hwith) hthreads ?_
      rw [if_neg hall, hnoStart]
  · -- the thread waits for its input link
    refine ⟨.waitsIn, rfl, ?_⟩
    have hstep : WanPhases.inStep machines s m =
        s.setNet m { s.net m with thForIn := (s.net m).thForIn ++ [.rep] } := by
      simp only [WanPhases.inStep, getSingleWanLink, hpartner, hfree, Bool.false_eq_true, if_false]
    rw [hstep]
    refine h.update_waiting hnodup hm concernsOnly_setNet ?_ (by rw [hph]; rfl)
      (by rw [hph]; decide) (by decide) rfl rfl rfl
    constructor
    · exact hrep.hasBuses
    · exact hrep.localLink
    · exact hrep.partnerLink
    · simpa [ReserveState.setNet] using hrep.waitsOut
    · have hwaits := hrep.waitsIn
      simp only [reduceCtorEq, if_false] at hwaits
      simp [ReserveState.setNet, hwaits]
    · exact hrep.history

theorem InPhases.getInLinks (hnodup : machines.Nodup) {l : List Nat}
    (h : InPhases machines ph s) (hl : l.Nodup) (hsub : ∀ i ∈ l, i ∈ machines)
    (hph : ∀ i ∈ l, ph i = .hasOut) :
    ∃ ph', InPhases machines ph' (getInLinks machines l s) ∧
      (∀ i ∈ l, (ph' i).inPhase) ∧ ∀ i, i ∉ l → ph' i = ph i := by
  induction l generalizing ph s with
  | nil => exact ⟨ph, h, by simp, fun _ _ => rfl⟩
  | cons m rest ih =>
      obtain ⟨hm, hrest⟩ := List.nodup_cons.mp hl
      obtain ⟨q, hq, h₁⟩ := h.inStep hnodup (hsub m List.mem_cons_self) (hph m List.mem_cons_self)
      have hne : ∀ i ∈ rest, i ≠ m := by
        rintro i hi rfl
        exact hm hi
      obtain ⟨ph', h', hin, hkept⟩ := ih h₁ hrest
        (fun i hi => hsub i (List.mem_cons_of_mem _ hi)) fun i hi => by
          rw [Function.update_of_ne (hne i hi)]
          exact hph i (List.mem_cons_of_mem _ hi)
      refine ⟨ph', h', fun i hi => ?_, fun i hi => ?_⟩
      · rcases List.mem_cons.mp hi with rfl | hi
        · rw [hkept i hm, Function.update_self]
          exact hq
        · exact hin i hi
      · rw [List.mem_cons, not_or] at hi
        rw [hkept i hi.2, Function.update_of_ne hi.1]

theorem staged_of_all (hne : machines ≠ []) (hall : ∀ i ∈ machines, (ph i).inPhase) :
    Staged machines ph := by
  obtain ⟨m, hm⟩ := List.exists_mem_of_ne_nil _ hne
  refine ⟨fun _ => hall, ⟨m, hm, fun hq => ?_⟩, fun i hi hq => ?_⟩
  · have hin := hall m hm
    rw [hq] at hin
    cases hin
  · have hin := hall i hi
    rw [hq] at hin
    cases hin

/-- One thread goes to another phase before any thread is in the second one. -/
theorem staged_update (hsettled : ∀ i ∈ machines, i ≠ m → ph i ≠ .asksOut)
    (hnone : ∀ i ∈ machines, i ≠ m → ¬ (ph i).inPhase) (hq : q.inPhase = false)
    (hasks : q ≠ .asksOut) (hnotAll : ∃ i ∈ machines, Function.update ph m q i ≠ .hasOut) :
    Staged machines (Function.update ph m q) := by
  refine ⟨fun ⟨i, hi, hin⟩ => ?_, hnotAll, fun i hi => ?_⟩
  · by_cases him : i = m
    · rw [him, Function.update_self, hq] at hin
      cases hin
    · rw [Function.update_of_ne him] at hin
      exact absurd hin (hnone i hi him)
  · by_cases him : i = m
    · rwa [him, Function.update_self]
    · rw [Function.update_of_ne him]
      exact hsettled i hi him

def joinLinks (s : ReserveState) (m : Nat) : ReserveState :=
  let s₀ := ((s.setNet m { s.net m with freeOutLink := false }).setRep m
    { s.rep m with localLink := true }).record (.tookLink m .outLink)
  { s₀ with mThreadsWithLinks := s.mThreadsWithLinks ++ [m] }.record (.withLinks m)

theorem reserveOutLink_free (hlength : 1 < machines.length) (hlocal : (s.rep m).localLink = false)
    (hfree : (s.net m).freeOutLink = true) :
    reserveOutLink machines s m =
      if (joinLinks s m).mThreadsWithLinks.length ≠ machines.length then joinLinks s m
      else getInLinks machines machines (joinLinks s m) := by
  simp only [reserveOutLink, getSingleWanLink, hlocal, hfree, if_true, Bool.false_eq_true,
    if_false, globalOpGetAllOutLinks, hlength]
  rfl

theorem concernsOnly_joinLinks : ConcernsOnly m s (joinLinks s m) := by
  have htake : ConcernsOnly m s (((s.setNet m { s.net m with freeOutLink := false }).setRep m
    { s.rep m with localLink := true }).record (.tookLink m .outLink)) := concernsOnly_takeLink
  refine ⟨htake.net, htake.rep, fun i hi => ?_⟩
  simp only [joinLinks, repHistory_record_withLinks, if_neg (Ne.symm hi), List.append_nil]
  exact htake.history i hi

theorem RepOk.joinLinks (h : RepOk s m .asksOut) : RepOk (joinLinks s m) m .hasOut := by
  constructor
  · simpa [WanPhases.joinLinks, ReserveState.setRep, ReserveState.record] using h.hasBuses
  · simp [WanPhases.joinLinks, ReserveState.setRep, ReserveState.record, RepPhase.holdsOut]
  · simpa [WanPhases.joinLinks, ReserveState.setRep, ReserveState.record] using h.partnerLink
  · simpa [WanPhases.joinLinks, ReserveState.setRep, ReserveState.setNet, ReserveState.record]
      using h.waitsOut
  · simpa [WanPhases.joinLinks, ReserveState.setRep, ReserveState.setNet, ReserveState.record]
      using h.waitsIn
  · have htook : repHistory (((s.setNet m { s.net m with freeOutLink := false }).setRep m
        { s.rep m with localLink := true }).record (.tookLink m .outLink)) m =
          [.tookLink m .outLink] := by
      simp [h.history, RepPhase.history]
    calc
      repHistory (WanPhases.joinLinks s m) m = repHistory _ m ++ [.withLinks m] := by
        simp only [WanPhases.joinLinks, repHistory_record_withLinks, if_true]
        rfl
      _ = [.tookLink m .outLink] ++ [.withLinks m] := congrArg (· ++ [_]) htook

theorem InPhases.joinLinks (hnodup : machines.Nodup) (h : InPhases machines ph s)
    (hm : m ∈ machines) (hph : ph m = .asksOut) :
    InPhases machines (Function.update ph m .hasOut) (joinLinks s m) := by
  have hrep := h.reps m hm
  rw [hph] at hrep
  refine h.update hm concernsOnly_joinLinks hrep.joinLinks (fun _ => ?_) ?_ ?_
  · have hcount := countP_update ph .hasOut hnodup hm RepPhase.holdsOut
    have hold := h.withLinks ⟨m, hm, by rw [hph]; decide⟩
    rw [hph] at hcount
    simp only [WanPhases.joinLinks, ReserveState.record, List.length_append,
      List.length_singleton, hold]
    exact hcount.symm
  · have hboth := countP_update ph .hasOut hnodup hm (fun r => decide (r = .hasBoth))
    calc
      (WanPhases.joinLinks s m).threads.length = s.threads.length := rfl
      _ = _ := by
        rw [h.threads]
        simpa [hph] using hboth.symm
  · have hstarts := h.starts
    rw [if_neg fun hall => by cases hph.symm.trans (hall m hm)] at hstarts
    rw [if_neg fun hall => by
      have hboth := hall m hm
      rw [Function.update_self] at hboth
      cases hboth]
    simpa [WanPhases.joinLinks, ReserveState.record, ReserveState.setRep, ReserveState.setNet]
      using hstarts

theorem InPhases.waitOut (hnodup : machines.Nodup) (h : InPhases machines ph s)
    (hm : m ∈ machines) (hph : ph m = .asksOut) :
    InPhases machines (Function.update ph m .waitsOut)
      (s.setNet m { s.net m with thForOut := (s.net m).thForOut ++ [.rep] }) := by
  have hrep := h.reps m hm
  rw [hph] at hrep
  refine h.update_waiting hnodup hm concernsOnly_setNet ?_ (by rw [hph]; rfl)
    (by rw [hph]; decide) (by decide) rfl rfl rfl
  constructor
  · exact hrep.hasBuses
  · exact hrep.localLink
  · exact hrep.partnerLink
  · have hwaits := hrep.waitsOut
    simp only [reduceCtorEq, if_false] at hwaits
    simp [ReserveState.setNet, hwaits]
  · simpa [ReserveState.setNet] using hrep.waitsIn
  · exact hrep.history

/-- The output link of a thread that asks for it, before any thread is in the second phase. -/
theorem InPhases.reserveOutLink (hnodup : machines.Nodup) (hlength : 1 < machines.length)
    (h : InPhases machines ph s) (hm : m ∈ machines) (hph : ph m = .asksOut)
    (hsettled : ∀ i ∈ machines, i ≠ m → ph i ≠ .asksOut)
    (hnone : ∀ i ∈ machines, ¬ (ph i).inPhase) : Good machines (reserveOutLink machines s m) := by
  have hlocal : (s.rep m).localLink = false := by
    rw [(h.reps m hm).localLink, hph]
    rfl
  have hothers : ∀ i ∈ machines, i ≠ m → ¬ (ph i).inPhase := fun i hi _ => hnone i hi
  by_cases hfree : (s.net m).freeOutLink
  · have h₁ := h.joinLinks hnodup hm hph
    have hlengths : (WanPhases.joinLinks s m).mThreadsWithLinks.length =
        machines.countP fun i => (Function.update ph m .hasOut i).holdsOut :=
      h₁.withLinks ⟨m, hm, by rw [Function.update_self]; decide⟩
    have hcountP := List.countP_eq_length
      (p := fun i => (Function.update ph m .hasOut i).holdsOut) (l := machines)
    rw [reserveOutLink_free hlength hlocal hfree]
    by_cases hall : ∀ i ∈ machines, (Function.update ph m .hasOut i).holdsOut
    · -- it is the last one
      rw [if_neg (not_not.mpr (hlengths.trans (hcountP.mpr hall)))]
      have hout : ∀ i ∈ machines, Function.update ph m .hasOut i = .hasOut := by
        intro i hi
        apply RepPhase.eq_hasOut (hall i hi)
        by_cases him : i = m
        · rw [him, Function.update_self]
          rfl
        · rw [Function.update_of_ne him]
          simpa using hnone i hi
      obtain ⟨ph', h', hin, -⟩ := h₁.getInLinks hnodup hnodup (fun _ hi => hi) hout
      exact ⟨ph', h', staged_of_all (List.ne_nil_of_mem hm) hin⟩
    · rw [if_pos fun hfull => hall (hcountP.mp (hlengths.symm.trans hfull))]
      refine ⟨_, h₁, staged_update hsettled hothers rfl (by decide) ?_⟩
      by_contra hno
      refine hall fun i hi => ?_
      have hout : Function.update ph m .hasOut i = .hasOut := by
        by_contra hne
        exact hno ⟨i, hi, hne⟩
      rw [hout]
      rfl
  · have hstep : WanReservation.reserveOutLink machines s m =
        s.setNet m { s.net m with thForOut := (s.net m).thForOut ++ [.rep] } := by
      simp only [WanReservation.reserveOutLink, getSingleWanLink, hlocal, hfree,
        Bool.false_eq_true, if_false]
    rw [hstep]
    exact ⟨_, h.waitOut hnodup hm hph, staged_update hsettled hothers rfl (by decide)
      ⟨m, hm, by rw [Function.update_self]; decide⟩⟩

/-! ## Runs -/

/-- Whoever is woken up by a link that becomes free asks for this link. -/
def WakesRight (machines : List Nat) (s : ReserveState) : ReserveLabel → Prop
  | .otherFrees m .outLink _ =>
      (s.net m).thForOut.head? = some .rep → machines.length ≠ s.blockingWithLinks
  | .otherFrees m .inLink _ =>
      (s.net m).thForIn.head? = some .rep → machines.length = s.blockingWithLinks
  | _ => True

instance (machines : List Nat) (s : ReserveState) :
    (l : ReserveLabel) → Decidable (WakesRight machines s l)
  | .otherFrees _ .outLink _ => inferInstanceAs (Decidable (_ → _))
  | .otherFrees _ .inLink _ => inferInstanceAs (Decidable (_ → _))
  | .buses _ => .isTrue trivial
  | .otherGets _ _ _ => .isTrue trivial
  | .blocking _ => .isTrue trivial

/-- Every thread takes its output link, joins the threads with links and takes its input link, in
this order and once, it waits for a link only when it is the next one that it needs, and
the operation is started once, and is started when all threads have got their buses and
none of them waits. -/
def Orderly (machines : List Nat) (s : ReserveState) : Prop :=
  (∀ m ∈ machines, repHistory s m <+: RepPhase.hasBoth.history m) ∧
  (∀ m ∈ machines, (Waiter.rep ∈ (s.net m).thForOut → repHistory s m = []) ∧
    (Waiter.rep ∈ (s.net m).thForIn → repHistory s m = RepPhase.waitsIn.history m)) ∧
  s.history.count .start ≤ 1 ∧
  ((∀ m ∈ machines, (s.rep m).hasBuses ∧ Waiter.rep ∉ (s.net m).thForOut ∧
      Waiter.rep ∉ (s.net m).thForIn) →
    (∀ m ∈ machines, repHistory s m = RepPhase.hasBoth.history m) ∧
    s.history.count .start = 1)

theorem RepOk.mem_thForOut (h : RepOk s m q) : Waiter.rep ∈ (s.net m).thForOut ↔ q = .waitsOut := by
  rw [← List.count_pos_iff, h.waitsOut]
  split <;> simp [*]

theorem RepOk.mem_thForIn (h : RepOk s m q) : Waiter.rep ∈ (s.net m).thForIn ↔ q = .waitsIn := by
  rw [← List.count_pos_iff, h.waitsIn]
  split <;> simp [*]

theorem orderly_of_good (h : Good machines s) : Orderly machines s := by
  obtain ⟨ph, h, hstaged⟩ := h
  refine ⟨fun m hm => ?_, fun m hm => ⟨fun hwaits => ?_, fun hwaits => ?_⟩, ?_, fun hall => ?_⟩
  · rw [(h.reps m hm).history]
    cases ph m <;> simp [RepPhase.history, List.prefix_iff_eq_append]
  · rw [(h.reps m hm).history, (h.reps m hm).mem_thForOut.mp hwaits]
    rfl
  · rw [(h.reps m hm).history, (h.reps m hm).mem_thForIn.mp hwaits]
  · rw [h.starts]
    split <;> omega
  · -- a thread that does not wait has its output link or both
    have hphase : ∀ m ∈ machines, ph m = .hasOut ∨ ph m = .hasBoth := by
      intro m hm
      obtain ⟨hbuses, hout, hin⟩ := hall m hm
      have hidle := (h.reps m hm).hasBuses
      rw [(h.reps m hm).mem_thForOut] at hout
      rw [(h.reps m hm).mem_thForIn] at hin
      have hasks := hstaged.settled m hm
      rw [hbuses] at hidle
      revert hidle hout hin hasks
      generalize ph m = q
      cases q <;> decide
    obtain ⟨m, hm, hne⟩ := hstaged.notAllOut
    have hboth : ∀ i ∈ machines, ph i = .hasBoth := by
      have hin : (ph m).inPhase := by
        rw [(hphase m hm).resolve_left hne]
        rfl
      intro i hi
      apply (hphase i hi).resolve_left
      intro hout
      have hin' := hstaged.inPhase ⟨m, hm, hin⟩ i hi
      rw [hout] at hin'
      cases hin'
    refine ⟨fun i hi => ?_, by rw [h.starts, if_pos hboth]⟩
    rw [(h.reps i hi).history, hboth i hi]

theorem InPhases.setOthers (h : InPhases machines ph s) {net : ExternalNet}
    (hout : net.thForOut.count .rep = (s.net m).thForOut.count .rep)
    (hin : net.thForIn.count .rep = (s.net m).thForIn.count .rep) :
    InPhases machines ph (s.setNet m net) := by
  have hcounts : ∀ i, ((s.setNet m net).net i).thForOut.count .rep =
      (s.net i).thForOut.count .rep ∧
      ((s.setNet m net).net i).thForIn.count .rep = (s.net i).thForIn.count .rep := by
    intro i
    unfold ReserveState.setNet
    by_cases him : i = m
    · subst him
      simpa using ⟨hout, hin⟩
    · simp [Function.update_of_ne him]
  refine ⟨fun i hi => ?_, fun i hi => ?_, h.withLinks, h.threads, h.starts⟩
  · have hrep := h.reps i hi
    exact ⟨hrep.hasBuses, hrep.localLink, hrep.partnerLink,
      (hcounts i).1.trans hrep.waitsOut, (hcounts i).2.trans hrep.waitsIn, hrep.history⟩
  · have hold := h.outside i hi
    rw [← List.count_eq_zero, ← List.count_eq_zero] at hold ⊢
    rwa [(hcounts i).1, (hcounts i).2]

/-- The first thread of the queue for the output link is taken out of it. -/
theorem InPhases.popOut (hnodup : machines.Nodup) (h : InPhases machines ph s)
    {rest : List Waiter} (hqueue : (s.net m).thForOut = .rep :: rest) :
    m ∈ machines ∧ ph m = .waitsOut ∧ InPhases machines (Function.update ph m .asksOut)
      (s.setNet m { s.net m with freeOutLink := true, thForOut := rest }) := by
  have hm : m ∈ machines := by
    by_contra hm
    have hold := (h.outside m hm).1
    simp [hqueue] at hold
  have hrep := h.reps m hm
  have hph : ph m = .waitsOut := hrep.mem_thForOut.mp (by simp [hqueue])
  rw [hph] at hrep
  refine ⟨hm, hph, h.update_waiting hnodup hm concernsOnly_setNet ?_ (by rw [hph]; rfl)
    (by rw [hph]; decide) (by decide) rfl rfl rfl⟩
  constructor
  · exact hrep.hasBuses
  · exact hrep.localLink
  · exact hrep.partnerLink
  · have hcount := hrep.waitsOut
    rw [hqueue] at hcount
    simpa [ReserveState.setNet] using hcount
  · simpa [ReserveState.setNet] using hrep.waitsIn
  · exact hrep.history

theorem InPhases.popIn (hnodup : machines.Nodup) (h : InPhases machines ph s)
    {rest : List Waiter} (hqueue : (s.net m).thForIn = .rep :: rest) :
    m ∈ machines ∧ ph m = .waitsIn ∧ InPhases machines (Function.update ph m .hasOut)
      (s.setNet m { s.net m with freeInLink := true, thForIn := rest }) := by
  have hm : m ∈ machines := by
    by_contra hm
    have hold := (h.outside m hm).2
    simp [hqueue] at hold
  have hrep := h.reps m hm
  have hph : ph m = .waitsIn := hrep.mem_thForIn.mp (by simp [hqueue])
  rw [hph] at hrep
  refine ⟨hm, hph, h.update_waiting hnodup hm concernsOnly_setNet ?_ (by rw [hph]; rfl)
    (by rw [hph]; decide) (by decide) rfl rfl rfl⟩
  constructor
  · exact hrep.hasBuses
  · exact hrep.localLink
  · exact hrep.partnerLink
  · simpa [ReserveState.setNet] using hrep.waitsOut
  · have hcount := hrep.waitsIn
    rw [hqueue] at hcount
    simpa [ReserveState.setNet] using hcount
  · exact hrep.history

theorem Staged.not_inPhase (h : Staged machines ph) (hm : m ∈ machines)
    (hph : (ph m).inPhase = false) : ∀ i ∈ machines, ¬ (ph i).inPhase := by
  intro i hi hin
  rw [h.inPhase ⟨i, hi, hin⟩ m hm] at hph
  cases hph

theorem Staged.askOutLink (h : Staged machines ph) (hnodup : machines.Nodup)
    (hlength : 1 < machines.length) (hm : m ∈ machines) (hph : (ph m).inPhase = false)
    (hasks : InPhases machines (Function.update ph m .asksOut) s) :
    Good machines (reserveOutLink machines s m) := by
  apply hasks.reserveOutLink hnodup hlength hm (Function.update_self ..)
  · intro i hi him
    rw [Function.update_of_ne him]
    exact h.settled i hi
  · intro i hi
    by_cases him : i = m
    · rw [him, Function.update_self]
      decide
    · rw [Function.update_of_ne him]
      exact h.not_inPhase hm hph i hi

theorem good_step (hnodup : machines.Nodup) (hlength : 1 < machines.length) {l : ReserveLabel}
    (hgood : Good machines s) (hwakes : WakesRight machines s l)
    (hstep : reserveNext machines s l = some s') : Good machines s' := by
  obtain ⟨ph, h, hstaged⟩ := hgood
  cases l with
  | buses m =>
      simp only [reserveNext] at hstep
      split at hstep
      · next hcond =>
          obtain ⟨hm, hbuses⟩ := hcond
          obtain rfl := Option.some.inj hstep
          have hrep := h.reps m hm
          have hph : ph m = .idle := by
            have hidle := hrep.hasBuses
            rw [hbuses] at hidle
            simpa using hidle
          rw [hph] at hrep
          have hasks : InPhases machines (Function.update ph m .asksOut)
              (s.setRep m { s.rep m with hasBuses := true }) := by
            refine h.update_waiting hnodup hm concernsOnly_setRep ?_ (by rw [hph]; rfl)
              (by rw [hph]; decide) (by decide) rfl rfl rfl
            constructor
            · simp [ReserveState.setRep]
            · have hlocal : (s.rep m).localLink = false := hrep.localLink
              simpa [ReserveState.setRep, RepPhase.holdsOut] using hlocal
            · simpa [ReserveState.setRep] using hrep.partnerLink
            · exact hrep.waitsOut
            · exact hrep.waitsIn
            · exact hrep.history
          rw [globalOpGetAllBuses, if_pos hlength]
          exact hstaged.askOutLink hnodup hlength hm (by rw [hph]; rfl) hasks
      · cases hstep
  | otherGets m thread inOut =>
      refine ⟨ph, ?_, hstaged⟩
      cases inOut <;> simp only [reserveNext] at hstep <;> split at hstep <;>
        obtain rfl := Option.some.inj hstep <;> apply h.setOthers <;> simp
  | otherFrees m inOut taken =>
      cases inOut with
      | outLink =>
          simp only [reserveNext] at hstep
          split at hstep
          swap
          · cases hstep
          obtain rfl := Option.some.inj hstep
          unfold freeOutLink
          split
          · next hqueue => exact ⟨ph, h.setOthers (by simp) (by simp), hstaged⟩
          · next rest hqueue =>
              obtain ⟨hm, hph, hasks⟩ := h.popOut hnodup hqueue
              have hcompare := hwakes (by rw [hqueue]; rfl)
              rw [globalOpReservaLinks, if_pos (by exact hcompare)]
              exact hstaged.askOutLink hnodup hlength hm (by rw [hph]; rfl) hasks
          · next rest hqueue =>
              exact ⟨ph, h.setOthers (by simp [hqueue]) (by simp), hstaged⟩
      | inLink =>
          simp only [reserveNext] at hstep
          split at hstep
          swap
          · cases hstep
          obtain rfl := Option.some.inj hstep
          unfold freeInLink
          split
          · next hqueue => exact ⟨ph, h.setOthers (by simp) (by simp), hstaged⟩
          · next rest hqueue =>
              obtain ⟨hm, hph, hout⟩ := h.popIn hnodup hqueue
              have hcompare := hwakes (by rw [hqueue]; rfl)
              rw [globalOpReservaLinks, if_neg (by exact not_not.mpr hcompare)]
              obtain ⟨q, hq, h'⟩ := hout.inStep hnodup hm (Function.update_self ..)
              rw [Function.update_idem] at h'
              refine ⟨_, h', staged_of_all (List.ne_nil_of_mem hm) fun i hi => ?_⟩
              by_cases him : i = m
              · rwa [him, Function.update_self]
              · rw [Function.update_of_ne him]
                exact hstaged.inPhase ⟨m, hm, by rw [hph]; rfl⟩ i hi
          · next rest hqueue =>
              exact ⟨ph, h.setOthers (by simp) (by simp [hqueue]), hstaged⟩
  | blocking withLinks =>
      obtain rfl := Option.some.inj hstep
      refine ⟨ph, ⟨fun m hm => ?_, h.outside, h.withLinks, h.threads, h.starts⟩, hstaged⟩
      have hrep := h.reps m hm
      exact ⟨hrep.hasBuses, hrep.localLink, hrep.partnerLink, hrep.waitsOut, hrep.waitsIn,
        hrep.history⟩

theorem repHistory_globalOpGetAllInLinks {i : Nat} :
    repHistory (globalOpGetAllInLinks machines s m) i = repHistory s i := by
  simp only [globalOpGetAllInLinks]
  split
  · rfl
  · rw [repHistory_record_start]
    rfl

theorem inStep_tooEarly (machines : List Nat) (hrep : RepOk s m .asksOut) :
    repHistory (inStep machines s m) m = [.tookLink m .inLink] ∨
      repHistory (inStep machines s m) m = [] ∧
        Waiter.rep ∈ ((inStep machines s m).net m).thForIn := by
  have hpartner : (s.rep m).partnerLink = false := hrep.partnerLink
  have hhistory : repHistory s m = [] := hrep.history
  by_cases hfree : (s.net m).freeInLink
  · left
    simp [inStep, getSingleWanLink, hpartner, hfree, repHistory_globalOpGetAllInLinks, hhistory]
  · right
    constructor
    · simpa [inStep, getSingleWanLink, hpartner, hfree] using hhistory
    · simp [inStep, getSingleWanLink, hpartner, hfree, ReserveState.setNet]

theorem repHistory_reserveOutLink_again (hlength : 1 < machines.length) (hrep : RepOk s m .hasOut)
    (hwith : s.mThreadsWithLinks.length = machines.length) :
    repHistory (reserveOutLink machines s m) m =
      RepPhase.hasOut.history m ++ [.withLinks m] := by
  have hlocal : (s.rep m).localLink = true := hrep.localLink
  have hmore : (s.mThreadsWithLinks ++ [m]).length ≠ machines.length := by
    rw [List.length_append, hwith, List.length_singleton]
    omega
  simp only [reserveOutLink, getSingleWanLink, hlocal, if_true, globalOpGetAllOutLinks, hlength]
  rw [if_pos (by exact hmore), repHistory_record_withLinks, if_pos rfl, ← hrep.history]
  rfl

/-- Who asks for another link than the one that became free does not go on in order. -/
theorem wakesRight_of_orderly (hlength : 1 < machines.length) (hnodup : machines.Nodup)
    {l : ReserveLabel} (hgood : Good machines s) (hstep : reserveNext machines s l = some s')
    (horderly : Orderly machines s') : WakesRight machines s l := by
  obtain ⟨ph, h, hstaged⟩ := hgood
  cases l with
  | buses m => trivial
  | otherGets m thread inOut => trivial
  | blocking withLinks => trivial
  | otherFrees m inOut taken =>
      cases inOut <;> simp only [reserveNext] at hstep <;> split at hstep <;>
        cases hstep
      · -- the input link
        intro hhead
        by_contra hcompare
        obtain ⟨rest, hqueue⟩ := List.head?_eq_some_iff.mp hhead
        obtain ⟨hm, hph, hout⟩ := h.popIn hnodup hqueue
        have hrep := hout.reps m hm
        rw [Function.update_self] at hrep
        have hall := hstaged.inPhase ⟨m, hm, by rw [hph]; rfl⟩
        have hwith : s.mThreadsWithLinks.length = machines.length := by
          rw [h.withLinks ⟨m, hm, by rw [hph]; decide⟩]
          apply List.countP_eq_length.mpr
          intro i hi
          have hin := hall i hi
          revert hin
          generalize ph i = q
          cases q <;> decide
        simp only [freeInLink, hqueue] at horderly
        rw [globalOpReservaLinks, if_pos (by exact hcompare)] at horderly
        have hprefix := horderly.1 m hm
        rw [repHistory_reserveOutLink_again hlength hrep hwith] at hprefix
        simp [RepPhase.history] at hprefix
      · -- the output link
        intro hhead hcompare
        obtain ⟨rest, hqueue⟩ := List.head?_eq_some_iff.mp hhead
        obtain ⟨hm, hph, hasks⟩ := h.popOut hnodup hqueue
        have hrep := hasks.reps m hm
        rw [Function.update_self] at hrep
        simp only [freeOutLink, hqueue] at horderly
        rw [globalOpReservaLinks, if_neg (by exact not_not.mpr hcompare)] at horderly
        rcases inStep_tooEarly machines hrep with htook | ⟨hnone, hwaits⟩
        · have hprefix : repHistory (inStep machines _ m) m <+: _ := horderly.1 m hm
          rw [htook] at hprefix
          simp [RepPhase.history] at hprefix
        · have hhistory : repHistory (inStep machines _ m) m = _ := (horderly.2.1 m hm).2 hwaits
          rw [hnone] at hhistory
          cases hhistory

/-- The threads of an operation reserve their links in order along a run exactly if everyone who
is woken up by a link asks for this link, and then the operation starts once, as soon as
no thread of it waits. -/
theorem reservation_orderly (hnodup : machines.Nodup) (hlength : 1 < machines.length)
    {tr : List (Transition ReserveState ReserveLabel)}
    (hrun : Run (ofPartial (reserveNext machines)) .init tr s) :
    (∀ t ∈ tr, Orderly machines t.post) ↔ ∀ t ∈ tr, WakesRight machines t.pre t.label :=
  hrun.forall_post_iff_of_guard (Q := Good machines)
    (good_init (List.ne_nil_of_length_pos (by omega))) (fun _ => orderly_of_good)
    (fun _ _ _ hgood hwakes hstep => good_step hnodup hlength hgood hwakes hstep)
    fun _ _ _ hgood hstep horderly => wakesRight_of_orderly hlength hnodup hgood hstep horderly

/-- Two machines. The output link of the first one and the input link of the second one are busy, and
both representatives wait and are woken up. -/
def contended : List ReserveLabel :=
  [.otherGets 0 5 .outLink, .otherGets 1 6 .inLink, .buses 0, .buses 1, .otherFrees 0 .outLink true,
    .blocking 2, .otherFrees 1 .inLink true]

theorem reservation_orderly_contended :
    let run := (exec (reserveNext [0, 1]) .init contended).get (by rfl)
    (∀ t ∈ run.1, Orderly [0, 1] t.post) ∧ run.2.history.count .start = 1 := by
  refine ⟨?_, rfl⟩
  apply (reservation_orderly (by decide) (by decide) (run_exec_get (by rfl))).mpr
  decide

/-- The input link of the first machine is busy when both threads have their output links. When
it becomes free nobody takes it, and the operation never starts. -/
theorem not_orderly_busyInLink :
    let s := ((exec (reserveNext [0, 1]) .init
      [.otherGets 0 5 .inLink, .buses 0, .buses 1, .otherFrees 0 .inLink true]).get (by rfl)).2
    ¬ Orderly [0, 1] s ∧ (s.net 0).freeInLink = true ∧ s.mThreadsWithLinks = [0, 1, 0] := by
  refine ⟨fun h => ?_, rfl, rfl⟩
  exact absurd (h.2.2.2 (by decide)).2 (by decide)

end Dimemas.Model.WanPhases
