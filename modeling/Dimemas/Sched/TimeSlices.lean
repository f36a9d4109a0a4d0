import Dimemas.Library.Transitions
import Dimemas.Sched.Dispatch
import Mathlib.Data.Rat.Floor
/-!
# The time slices of a burst

The quanta that the policies RR, BOOST and UNIX_SVR4 are configured with, and what they give to a
thread in any sequence of calls. A burst ends if every slice is taken from a quantum that is not
zero.
-/

namespace Dimemas.Sched.TimeSlices

open Dimemas.Library.Transitions
open Dimemas.Sched.Threads
open Dimemas.Sched.Dispatch

/-! ## Configurations -/

/-- What `RR_init` reads, in seconds. -/
structure RrFile where
  contextSwitch : ℚ
  busyWait : ℚ
  quantum : ℚ

/-- What `svr4_init` reads, in seconds and per cent. -/
structure Svr4File where
  contextSwitch : ℚ
  busyWait : ℚ
  priorityPreemptive : Bool
  minimumTimePreemption : ℚ
  quantumFactor : ℚ

/-- The policies with time slices, each with its file if there is one. -/
inductive Configuration
  | rr (file : Option RrFile)
  | boost
  | svr4 (file : Option Svr4File)

/-- The scheduler of `MACHINE_Init_Empty_Machine`. -/
def emptyScheduler (policy : Policy) : Scheduler where
  policy := policy
  priorityPreemptive := false
  lostCpuOnSend := false
  contextSwitch := 0
  quantum := 3000
  quantumFactor := 0
  contextSwitch_nonneg := noContextSwitch_nonneg

def nanoseconds (seconds : ℚ) : ℚ := seconds * 1000000000

theorem nanoseconds_nonneg {seconds : ℚ} (h : ¬ seconds < 0) : 0 ≤ nanoseconds seconds :=
  mul_nonneg (not_lt.mp h) (by decide)

/-- `RR_init`. `none` is an error in the file. -/
def rrInit (file : Option RrFile) (sched : Scheduler) : Option Scheduler :=
  match file with
  | none => some sched
  | some file =>
      if h : file.contextSwitch < 0 then none
      else if file.busyWait < 0 then none
      else if file.quantum < 0 then none
      else some { sched with
        contextSwitch := nanoseconds file.contextSwitch
        contextSwitch_nonneg := nanoseconds_nonneg h
        quantum := nanoseconds file.quantum }

def svr4Init (file : Option Svr4File) (sched : Scheduler) : Option Scheduler :=
  match file with
  | none => some { sched with quantumFactor := 0 }
  | some file =>
      if h : file.contextSwitch < 0 then none
      else if file.busyWait < 0 then none
      else if file.minimumTimePreemption < 0 then none
      else if file.quantumFactor < 0 then none
      else some { sched with
        contextSwitch := nanoseconds file.contextSwitch
        contextSwitch_nonneg := nanoseconds_nonneg h
        priorityPreemptive := file.priorityPreemptive
        quantumFactor := file.quantumFactor }

/-- The scheduler that the simulation begins with. `SCH_boost_init` reads no quantum. -/
def Configuration.init : Configuration → Option Scheduler
  | .rr file => rrInit file (emptyScheduler .rr)
  | .boost => some (emptyScheduler .boost)
  | .svr4 file => svr4Init file (emptyScheduler .svr4)

/-! ## Calls -/

/-- `ts_slpret` in `config_ts_dptbl`. -/
def tsSlpret (tsUmdpri : Nat) : Nat :=
  if tsUmdpri < 10 then 50
  else if tsUmdpri < 20 then 51
  else if tsUmdpri < 30 then 52
  else if tsUmdpri < 35 then 53
  else if tsUmdpri < 40 then 54
  else if tsUmdpri < 45 then 55
  else if tsUmdpri = 45 then 56
  else if tsUmdpri = 46 then 57
  else if tsUmdpri < 59 then 58
  else 59

def levelQuantum (sched : Scheduler) (tsUmdpri : Nat) : ℚ :=
  tsQuantum tsUmdpri * sched.quantumFactor / 100

def quantumOf (sched : Scheduler) (th : Thread) : ℚ :=
  if sched.policy = .svr4 then levelQuantum sched th.tsUmdpri else sched.quantum

/-- The calls between which the policies keep their parameters. Other modules set `loose_cpu` and the
actions. -/
inductive Call
  | getExecutionTime
  | looseCpu (b : Bool)
  | actions (as : List Action)
  | threadToReady
  | recvMiss
  | clearParameters

def hasDuration : Action → Bool
  | .work d => 0 < d
  | _ => true

/-- `svr4_info` with SCH_INFO_RECV_MISS. -/
def svr4RecvMiss (th : Thread) : Thread := { th with tsUmdpri := tsSlpret th.tsUmdpri }

/-- `RR_clear_parameters`, `SCH_boost_clear_parameters` and `svr4_clear_parameters`. The priority of
BOOST is not looked at. -/
def clearParameters (sched : Scheduler) (th : Thread) : Thread :=
  if sched.policy = .svr4 then { th with tsUmdpri := 59 } else { th with lastQuantum := 0 }

def next (sched : Scheduler) (th : Thread) : Call → Option Thread
  | .getExecutionTime => (getExecutionTime sched th).map Prod.snd
  | .looseCpu b => some { th with looseCpu := b }
  | .actions as => if as.all hasDuration then some { th with action := as } else none
  | .threadToReady => some (if sched.policy = .svr4 then svr4Expire th else th)
  | .recvMiss => some (if sched.policy = .svr4 then svr4RecvMiss th else th)
  | .clearParameters => some (clearParameters sched th)

/-- `RR_init_scheduler_parameters` and its siblings, for a thread without actions. -/
def initSchedulerParameters (th : Thread) : Thread :=
  { th with action := [], lastQuantum := 0, tsUmdpri := 59, fullQuantum := false }

def slice (sched : Scheduler) (t : Transition Thread Call) : Option ℚ :=
  match t.label with
  | .getExecutionTime => (getExecutionTime sched t.pre).map Prod.fst
  | _ => none

def slices (sched : Scheduler) (tr : List (Transition Thread Call)) : List ℚ :=
  tr.filterMap (slice sched)

/-- What is left of a quantum behind the last whole nanosecond before its end. -/
def tailOf (q : ℚ) : ℚ := q - (⌈q⌉ - 1)

/-- No slice is shorter, but the first one and the one that ends the burst. -/
def leastSlice (sched : Scheduler) : ℚ :=
  if sched.policy = .svr4 then
    min (min (min (tailOf (levelQuantum sched 0)) (tailOf (levelQuantum sched 10)))
      (min (tailOf (levelQuantum sched 20)) (tailOf (levelQuantum sched 30))))
      (min (tailOf (levelQuantum sched 40)) (tailOf (levelQuantum sched 59)))
  else sched.quantum

def maxDispatches (sched : Scheduler) (d : ℚ) : Nat := ⌊d / leastSlice sched⌋.toNat + 2

/-- The slices of the runs are as they should be, and those of the second one add up to its burst,
which is `d` long. Behind it are the actions `rest`. -/
structure SlicesEnd (sched : Scheduler) (d : ℚ) (rest : List Action)
    (before tr : List (Transition Thread Call)) (th : Thread) : Prop where
  slice : ∀ t ∈ before ++ tr, ∀ ti ∈ slice sched t, 0 < ti ∧ ti ≤ quantumOf sched t.pre
  last : ∀ t ∈ before ++ tr, t.post.lastQuantum ≤ quantumOf sched t.post
  sum : (∃ left, 0 < left ∧ th.action = .work left :: rest ∧
      (getExecutionTime sched th).isSome ∧ (slices sched tr).sum + left = d) ∨
    (th.action = rest ∧ (slices sched tr).sum = d)
  finite : (slices sched tr).length ≤ maxDispatches sched d

/-- A quantum that is given is not zero, and a thread that changes its level has not used more than
the new quantum. -/
def StepOk (sched : Scheduler) (th : Thread) : Call → Prop
  | .getExecutionTime => 0 < quantumOf sched th
  | .recvMiss => sched.policy = .svr4 → th.lastQuantum ≤ levelQuantum sched (tsSlpret th.tsUmdpri)
  | .clearParameters => sched.policy = .svr4 → th.lastQuantum ≤ levelQuantum sched 59
  | _ => True

section

variable {sched : Scheduler} {th th' : Thread} {d ti : ℚ} {rest : List Action} {c : Call}

/-! ## A slice -/

theorem toLong_eq {q : ℚ} (h : 0 ≤ q) : toLong q = ⌊q⌋ := by
  rw [toLong, Rat.floor_def', Int.tdiv_eq_ediv_of_nonneg (Rat.num_nonneg.mpr h)]

theorem toLong_le {q : ℚ} (h : 0 ≤ q) : (toLong q : ℚ) ≤ q := by
  rw [toLong_eq h]
  exact Int.floor_le q

theorem toLong_nonneg {q : ℚ} (h : 0 ≤ q) : (0 : ℚ) ≤ toLong q := by
  rw [toLong_eq h]
  exact_mod_cast Int.floor_nonneg.mpr h

theorem tailOf_pos (q : ℚ) : 0 < tailOf q := by
  have h := Int.ceil_lt_add_one q
  unfold tailOf
  linarith

/-- The time up to the end of a quantum, from a whole nanosecond on. -/
theorem tailOf_le {q : ℚ} {z : Int} (h : (z : ℚ) < q) : tailOf q ≤ q - z := by
  have hle : z ≤ ⌈q⌉ - 1 := Int.le_sub_one_of_lt (Int.lt_ceil.mpr h)
  have hcast : (z : ℚ) ≤ ⌈q⌉ - 1 := by exact_mod_cast hle
  unfold tailOf
  linarith

/-- What a call of `get_execution_time` does: the slice is a whole quantum or the rest of one, or it
is the whole burst. -/
structure Slice (sched : Scheduler) (th : Thread) (d : ℚ) (rest : List Action) (ti : ℚ)
    (th' : Thread) : Prop where
  eq : (∃ used, ti = min d (quantumOf sched th - used) ∧
      (used = 0 ∨ used = th.lastQuantum ∧ used < quantumOf sched th) ∧
      th'.lastQuantum = if sched.policy = .svr4 then (toLong (used + ti) : ℚ) else used + ti)
  action : th'.action = if d - ti = 0 then rest else .work (d - ti) :: rest
  level : th'.tsUmdpri = th.tsUmdpri

/-- What holds of a thread at any time. -/
structure ThreadOk (sched : Scheduler) (th : Thread) : Prop where
  bursts : th.action.all hasDuration
  nonneg : 0 ≤ th.lastQuantum
  whole : sched.policy = .svr4 → ∃ z : Int, th.lastQuantum = z
  last : th.lastQuantum ≤ quantumOf sched th

theorem slice_quantumBurst (hpolicy : sched.policy ≠ .svr4) (hok : ThreadOk sched th)
    (haction : th.action = .work d :: rest)
    (h : quantumBurst sched.quantum th = some (ti, th')) : Slice sched th d rest ti th' := by
  have hquantum : quantumOf sched th = sched.quantum := if_neg hpolicy
  have hlast := hok.last
  rw [hquantum] at hlast
  unfold quantumBurst at h
  rw [haction] at h
  simp only at h
  split at h
  · obtain ⟨rfl, rfl⟩ := Prod.mk.inj (Option.some.inj h)
    constructor
    · refine ⟨0, ?_, .inl rfl, ?_⟩
      · rw [hquantum, sub_zero]
      · rw [if_neg hpolicy, zero_add]
    · rfl
    · rfl
  · next hrest =>
      have hne : th.lastQuantum ≠ sched.quantum := fun heq => hrest (by simp [heq])
      obtain ⟨rfl, rfl⟩ := Prod.mk.inj (Option.some.inj h)
      constructor
      · refine ⟨th.lastQuantum, ?_, .inr ⟨rfl, ?_⟩, ?_⟩
        · rw [hquantum, min_comm]
        · rw [hquantum]
          exact lt_of_le_of_ne hlast hne
        · rw [if_neg hpolicy]
      · rfl
      · rfl

theorem slice_svr4 (hpolicy : sched.policy = .svr4) (haction : th.action = .work d :: rest)
    (h : svr4GetExecutionTime sched th = some (ti, th')) : Slice sched th d rest ti th' := by
  have hquantum : quantumOf sched th = tsQuantum th.tsUmdpri * sched.quantumFactor / 100 :=
    if_pos hpolicy
  unfold svr4GetExecutionTime at h
  rw [haction] at h
  simp only at h
  split at h
  · next hused =>
      simp only [Bool.and_eq_true, decide_eq_true_eq] at hused
      obtain ⟨rfl, rfl⟩ := Prod.mk.inj (Option.some.inj h)
      constructor
      · refine ⟨th.lastQuantum, ?_, .inr ⟨rfl, ?_⟩, ?_⟩
        · rw [hquantum]
        · rw [hquantum]
          exact hused.1
        · rw [if_pos hpolicy]
      · rfl
      · rfl
  · obtain ⟨rfl, rfl⟩ := Prod.mk.inj (Option.some.inj h)
    constructor
    · refine ⟨0, ?_, .inl rfl, ?_⟩
      · rw [hquantum, sub_zero]
      · rw [if_pos hpolicy, zero_add]
    · rfl
    · rfl

/-- A configured scheduler has one of the three policies, and no quantum below zero. -/
structure Configured (sched : Scheduler) : Prop where
  policy : sched.policy = .rr ∨ sched.policy = .boost ∨ sched.policy = .svr4
  quantum : 0 ≤ sched.quantum
  quantumFactor : 0 ≤ sched.quantumFactor

theorem configured_emptyScheduler {policy : Policy}
    (h : policy = .rr ∨ policy = .boost ∨ policy = .svr4) : Configured (emptyScheduler policy) :=
  ⟨h, Nat.cast_nonneg 3000, le_refl 0⟩

theorem Configuration.configured {config : Configuration} (h : config.init = some sched) :
    Configured sched := by
  cases config with
  | rr file =>
      have hempty : Configured (emptyScheduler .rr) := configured_emptyScheduler (.inl rfl)
      cases file with
      | none =>
          cases h
          exact hempty
      | some file =>
          simp only [Configuration.init, rrInit] at h
          split at h
          · cases h
          · split at h
            · cases h
            · split at h
              · cases h
              · next hquantum =>
                  cases h
                  exact ⟨.inl rfl, nanoseconds_nonneg hquantum, le_refl 0⟩
  | boost =>
      cases h
      exact configured_emptyScheduler (.inr (.inl rfl))
  | svr4 file =>
      have hempty : Configured (emptyScheduler .svr4) := configured_emptyScheduler (.inr (.inr rfl))
      cases file with
      | none =>
          cases h
          exact ⟨hempty.policy, hempty.quantum, le_refl 0⟩
      | some file =>
          simp only [Configuration.init, svr4Init] at h
          split at h
          · cases h
          · split at h
            · cases h
            · split at h
              · cases h
              · split at h
                · cases h
                · next hfactor =>
                    cases h
                    exact ⟨.inr (.inr rfl), hempty.quantum, not_lt.mp hfactor⟩

theorem tsQuantum_cases (l : Nat) : ∃ k, k ∈ [0, 10, 20, 30, 40, 59] ∧ tsQuantum l = tsQuantum k := by
  unfold tsQuantum
  by_cases h₁ : l < 10
  · exact ⟨0, by simp, by simp [h₁]⟩
  · by_cases h₂ : l < 20
    · exact ⟨10, by simp, by simp [h₁, h₂]⟩
    · by_cases h₃ : l < 30
      · exact ⟨20, by simp, by simp [h₁, h₂, h₃]⟩
      · by_cases h₄ : l < 40
        · exact ⟨30, by simp, by simp [h₁, h₂, h₃, h₄]⟩
        · by_cases h₅ : l < 59
          · exact ⟨40, by simp, by simp [h₁, h₂, h₃, h₄, h₅]⟩
          · exact ⟨59, by simp, by simp [h₁, h₂, h₃, h₄, h₅]⟩

theorem tsQuantum_pos (l : Nat) : 0 < tsQuantum l := by
  obtain ⟨k, hk, heq⟩ := tsQuantum_cases l
  rw [heq]
  simp only [List.mem_cons, List.not_mem_nil, or_false] at hk
  rcases hk with rfl | rfl | rfl | rfl | rfl | rfl <;> norm_num [tsQuantum]

theorem leastSlice_le (hpolicy : sched.policy = .svr4) (l : Nat) :
    leastSlice sched ≤ tailOf (levelQuantum sched l) := by
  obtain ⟨k, hk, heq⟩ := tsQuantum_cases l
  have hlevel : levelQuantum sched l = levelQuantum sched k := by
    rw [levelQuantum, heq, levelQuantum]
  rw [leastSlice, if_pos hpolicy, hlevel]
  simp only [List.mem_cons, List.not_mem_nil, or_false] at hk
  rcases hk with rfl | rfl | rfl | rfl | rfl | rfl <;> simp

theorem leastSlice_pos_of_svr4 (hpolicy : sched.policy = .svr4) : 0 < leastSlice sched := by
  rw [leastSlice, if_pos hpolicy]
  simp only [lt_min_iff, tailOf_pos, and_self]

theorem quantumOf_nonneg (hconfig : Configured sched) (th : Thread) : 0 ≤ quantumOf sched th := by
  unfold quantumOf levelQuantum
  split
  · have hfactor := hconfig.quantumFactor
    have hlevel := (tsQuantum_pos th.tsUmdpri).le
    positivity
  · exact hconfig.quantum

theorem slice_of_getExecutionTime (hconfig : Configured sched) (hok : ThreadOk sched th)
    (h : getExecutionTime sched th = some (ti, th')) :
    ∃ d rest, th.action = .work d :: rest ∧ 0 < d ∧ Slice sched th d rest ti th' := by
  obtain ⟨d, rest, haction⟩ := (gives_getExecutionTime h).work
  have hbursts := hok.bursts
  rw [haction, List.all_cons, Bool.and_eq_true] at hbursts
  have hd : 0 < d := of_decide_eq_true hbursts.1
  refine ⟨d, rest, haction, hd, ?_⟩
  unfold getExecutionTime at h
  rcases hconfig.policy with hpolicy | hpolicy | hpolicy
  · rw [hpolicy] at h
    exact slice_quantumBurst (by rw [hpolicy]; decide) hok haction h
  · rw [hpolicy] at h
    exact slice_quantumBurst (by rw [hpolicy]; decide) hok haction h
  · rw [hpolicy] at h
    exact slice_svr4 hpolicy haction h

theorem Slice.bounds (hslice : Slice sched th d rest ti th') (hok : ThreadOk sched th) (hd : 0 < d)
    (hquantum : 0 < quantumOf sched th) :
    0 < ti ∧ ti ≤ quantumOf sched th ∧ ti ≤ d ∧ 0 ≤ th'.lastQuantum ∧
      th'.lastQuantum ≤ quantumOf sched th ∧
      (sched.policy = .svr4 → ∃ z : Int, th'.lastQuantum = z) := by
  obtain ⟨used, hti, hused, hlast⟩ := hslice.eq
  have hnonneg : 0 ≤ used := by
    rcases hused with rfl | ⟨rfl, -⟩
    · exact le_refl 0
    · exact hok.nonneg
  have hlt : used < quantumOf sched th := by
    rcases hused with rfl | ⟨-, hlt⟩
    · exact hquantum
    · exact hlt
  have hpos : 0 < ti := by
    rw [hti]
    exact lt_min hd (sub_pos.mpr hlt)
  have hend : used + ti ≤ quantumOf sched th := by
    have hle : ti ≤ quantumOf sched th - used := by
      rw [hti]
      exact min_le_right ..
    linarith
  have hsum : 0 ≤ used + ti := by linarith
  refine ⟨hpos, by linarith, by rw [hti]; exact min_le_left .., ?_⟩
  rw [hlast]
  split
  · next hpolicy =>
      exact ⟨toLong_nonneg hsum, (toLong_le hsum).trans hend, fun _ => ⟨_, rfl⟩⟩
  · next hpolicy => exact ⟨hsum, hend, fun h => absurd h hpolicy⟩

/-- The next slice of RR and BOOST is a whole quantum, or it ends the burst. -/
def Full (sched : Scheduler) (th : Thread) : Prop :=
  sched.policy ≠ .svr4 → th.lastQuantum = 0 ∨ th.lastQuantum = sched.quantum

theorem Slice.least (hslice : Slice sched th d rest ti th') (hok : ThreadOk sched th)
    (hquantum : 0 < quantumOf sched th) (hlt : ti < d) :
    Full sched th' ∧ (Full sched th → leastSlice sched ≤ ti) := by
  obtain ⟨used, hti, hused, hlast⟩ := hslice.eq
  have hrest : ti = quantumOf sched th - used := by
    rw [hti] at hlt ⊢
    exact min_eq_right (le_of_lt (by
      by_contra hge
      rw [min_eq_left (not_lt.mp hge)] at hlt
      exact lt_irrefl _ hlt))
  by_cases hpolicy : sched.policy = .svr4
  · refine ⟨fun hne => absurd hpolicy hne, fun _ => ?_⟩
    have hlevel : quantumOf sched th = levelQuantum sched th.tsUmdpri := if_pos hpolicy
    have htail : tailOf (quantumOf sched th) ≤ ti := by
      rw [hrest]
      rcases hused with rfl | ⟨rfl, husedlt⟩
      · have h := tailOf_le (z := 0) (by rw [Int.cast_zero]; exact hquantum)
        rwa [Int.cast_zero] at h
      · obtain ⟨z, hz⟩ := hok.whole hpolicy
        rw [hz] at husedlt ⊢
        exact tailOf_le husedlt
    rw [hlevel] at htail
    exact (leastSlice_le hpolicy th.tsUmdpri).trans htail
  · have hlevel : quantumOf sched th = sched.quantum := if_neg hpolicy
    constructor
    · intro _
      right
      rw [hlast, if_neg hpolicy, hrest, hlevel]
      ring
    · intro hfull
      rw [leastSlice, if_neg hpolicy, hrest, hlevel]
      rcases hused with rfl | ⟨rfl, husedlt⟩
      · rw [sub_zero]
      · rcases hfull hpolicy with hzero | hwhole
        · rw [hzero, sub_zero]
        · rw [hlevel, hwhole] at husedlt
          exact absurd husedlt (lt_irrefl _)

theorem getExecutionTime_isSome (hconfig : Configured sched)
    (haction : th.action = .work d :: rest) : (getExecutionTime sched th).isSome := by
  unfold getExecutionTime
  rcases hconfig.policy with hpolicy | hpolicy | hpolicy
  · simp only [hpolicy, rrGetExecutionTime, quantumBurst, haction]
    split <;> rfl
  · simp only [hpolicy, boostGetExecutionTime, quantumBurst, haction]
    split <;> rfl
  · simp only [hpolicy, svr4GetExecutionTime, haction]
    split <;> rfl

/-! ## Runs -/

theorem tsQuantum_svr4Expire (th : Thread) :
    tsQuantum th.tsUmdpri ≤ tsQuantum (svr4Expire th).tsUmdpri := by
  unfold svr4Expire
  split
  · show tsQuantum th.tsUmdpri ≤ tsQuantum (th.tsUmdpri - 10)
    obtain ⟨k, hk⟩ : ∃ k, k = th.tsUmdpri - 10 := ⟨_, rfl⟩
    unfold tsQuantum
    split_ifs <;> first | omega | norm_num
  · exact le_refl _

theorem threadOk_initSchedulerParameters (hconfig : Configured sched) (th : Thread) :
    ThreadOk sched (initSchedulerParameters th) where
  bursts := rfl
  nonneg := le_refl 0
  whole _ := ⟨0, Int.cast_zero.symm⟩
  last := quantumOf_nonneg hconfig _

theorem ThreadOk.next (hok : ThreadOk sched th) (hconfig : Configured sched)
    (hstep : StepOk sched th c) (hnext : next sched th c = some th') : ThreadOk sched th' := by
  cases c with
  | getExecutionTime =>
      obtain ⟨⟨ti, th₁⟩, hget, rfl⟩ := Option.map_eq_some_iff.mp hnext
      obtain ⟨d, rest, haction, hd, hslice⟩ := slice_of_getExecutionTime hconfig hok hget
      obtain ⟨-, -, hle, hnonneg, hlast, hwhole⟩ := hslice.bounds hok hd hstep
      have hbursts := hok.bursts
      rw [haction, List.all_cons, Bool.and_eq_true] at hbursts
      refine ⟨?_, hnonneg, hwhole, ?_⟩
      · rw [hslice.action]
        split
        · exact hbursts.2
        · next hne =>
            have hpos : 0 < d - ti := lt_of_le_of_ne (sub_nonneg.mpr hle) (Ne.symm hne)
            rw [List.all_cons, Bool.and_eq_true]
            exact ⟨decide_eq_true hpos, hbursts.2⟩
      · have hquantum : quantumOf sched th₁ = quantumOf sched th := by
          rw [quantumOf, hslice.level, quantumOf]
        rw [hquantum]
        exact hlast
  | looseCpu b =>
      cases hnext
      exact ⟨hok.bursts, hok.nonneg, hok.whole, hok.last⟩
  | actions as =>
      rw [TimeSlices.next] at hnext
      split at hnext
      · next has =>
          cases hnext
          exact ⟨has, hok.nonneg, hok.whole, hok.last⟩
      · cases hnext
  | threadToReady =>
      by_cases hpolicy : sched.policy = .svr4
      · have hth : th' = svr4Expire th := by
          rw [TimeSlices.next, if_pos hpolicy] at hnext
          exact (Option.some.inj hnext).symm
        have haction : th'.action = th.action := by
          rw [hth, svr4Expire]
          split <;> rfl
        have hlast : th'.lastQuantum = th.lastQuantum := by
          rw [hth, svr4Expire]
          split <;> rfl
        refine ⟨?_, ?_, ?_, ?_⟩
        · rw [haction]
          exact hok.bursts
        · rw [hlast]
          exact hok.nonneg
        · rw [hlast]
          exact hok.whole
        · rw [hlast]
          apply hok.last.trans
          rw [quantumOf, if_pos hpolicy, quantumOf, if_pos hpolicy, hth]
          have hle := tsQuantum_svr4Expire th
          have hfactor := hconfig.quantumFactor
          unfold levelQuantum
          gcongr
      · rw [TimeSlices.next, if_neg hpolicy] at hnext
        cases hnext
        exact hok
  | recvMiss =>
      by_cases hpolicy : sched.policy = .svr4
      · rw [TimeSlices.next, if_pos hpolicy] at hnext
        cases hnext
        refine ⟨hok.bursts, hok.nonneg, hok.whole, ?_⟩
        rw [quantumOf, if_pos hpolicy]
        exact hstep hpolicy
      · rw [TimeSlices.next, if_neg hpolicy] at hnext
        cases hnext
        exact hok
  | clearParameters =>
      rw [TimeSlices.next, clearParameters] at hnext
      by_cases hpolicy : sched.policy = .svr4
      · rw [if_pos hpolicy] at hnext
        cases hnext
        refine ⟨hok.bursts, hok.nonneg, hok.whole, ?_⟩
        rw [quantumOf, if_pos hpolicy]
        exact hstep hpolicy
      · rw [if_neg hpolicy] at hnext
        cases hnext
        refine ⟨hok.bursts, le_refl 0, fun h => absurd h hpolicy, ?_⟩
        exact quantumOf_nonneg hconfig _

/-- A call that gives no time keeps the actions, and RR and BOOST go on with a whole quantum. -/
theorem next_other (hget : c ≠ .getExecutionTime) (hactions : ∀ as, c ≠ .actions as)
    (hnext : next sched th c = some th') :
    th'.action = th.action ∧ (Full sched th → Full sched th') := by
  cases c with
  | getExecutionTime => exact absurd rfl hget
  | looseCpu b =>
      cases hnext
      exact ⟨rfl, id⟩
  | actions as => exact absurd rfl (hactions as)
  | threadToReady =>
      cases hnext
      split
      · next hpolicy =>
          refine ⟨?_, fun _ hne => absurd hpolicy hne⟩
          unfold svr4Expire
          split <;> rfl
      · exact ⟨rfl, id⟩
  | recvMiss =>
      cases hnext
      split
      · next hpolicy => exact ⟨rfl, fun _ hne => absurd hpolicy hne⟩
      · exact ⟨rfl, id⟩
  | clearParameters =>
      cases hnext
      unfold clearParameters
      split
      · next hpolicy => exact ⟨rfl, fun _ hne => absurd hpolicy hne⟩
      · exact ⟨rfl, fun _ _ => .inl rfl⟩

theorem slices_append (tr : List (Transition Thread Call)) (t : Transition Thread Call) :
    slices sched (tr ++ [t]) = slices sched tr ++ (slice sched t).toList := by
  rw [slices, List.filterMap_append, slices]
  cases h : slice sched t with
  | none => rw [List.filterMap_cons_none h, List.filterMap_nil, Option.toList_none]
  | some ti => rw [List.filterMap_cons_some h, List.filterMap_nil, Option.toList_some]

def BurstLeft (sched : Scheduler) (d : ℚ) (rest : List Action) (ss : List ℚ) (th : Thread) : Prop :=
  (∃ left, 0 < left ∧ th.action = .work left :: rest ∧ ss.sum + left = d ∧
      ss.length * leastSlice sched ≤ ss.sum + leastSlice sched ∧ (ss ≠ [] → Full sched th)) ∨
    (th.action = rest ∧ ss.sum = d ∧ ss.length * leastSlice sched ≤ d + 2 * leastSlice sched)

theorem leastSlice_nonneg (hconfig : Configured sched) : 0 ≤ leastSlice sched := by
  by_cases hpolicy : sched.policy = .svr4
  · exact (leastSlice_pos_of_svr4 hpolicy).le
  · rw [leastSlice, if_neg hpolicy]
    exact hconfig.quantum

theorem burstLeft_slice {ss : List ℚ} (hconfig : Configured sched) (hok : ThreadOk sched th)
    (hleft : BurstLeft sched d rest ss th) (hrest : th.action ≠ rest)
    (hquantum : 0 < quantumOf sched th) (hget : getExecutionTime sched th = some (ti, th')) :
    BurstLeft sched d rest (ss ++ [ti]) th' := by
  obtain ⟨left, hpos, haction, hsum, hcount, hfull⟩ := hleft.resolve_right fun h => hrest h.1
  obtain ⟨left', rest', haction', -, hslice⟩ := slice_of_getExecutionTime hconfig hok hget
  rw [haction] at haction'
  cases haction'
  obtain ⟨hti, -, hle, -⟩ := hslice.bounds hok hpos hquantum
  have hleast := leastSlice_nonneg hconfig
  have hlength : ((ss ++ [ti]).length : ℚ) = ss.length + 1 := by
    rw [List.length_append, List.length_singleton]
    push_cast
    rfl
  rw [BurstLeft, hlength, List.sum_append, List.sum_singleton]
  by_cases hend : left - ti = 0
  · right
    refine ⟨?_, by linarith, ?_⟩
    · rw [hslice.action, if_pos hend]
    · linarith
  · left
    have hlt : ti < left := lt_of_le_of_ne hle fun heq => hend (sub_eq_zero.mpr heq.symm)
    obtain ⟨hnext, hslow⟩ := hslice.least hok hquantum hlt
    refine ⟨left - ti, sub_pos.mpr hlt, ?_, by linarith, ?_, fun _ => hnext⟩
    · rw [hslice.action, if_neg hend]
    · by_cases hss : ss = []
      · subst hss
        simp only [List.length_nil, List.sum_nil, Nat.cast_zero]
        linarith
      · have htiLeast := hslow (hfull hss)
        linarith

theorem burstLeft_run {tr : List (Transition Thread Call)} (hconfig : Configured sched)
    (hok : ThreadOk sched th) (haction : th.action = .work d :: rest)
    (hrun : Run (ofPartial (next sched)) th tr th')
    (hburst : ∀ t ∈ tr, t.pre.action ≠ rest ∧ ∀ as, t.label ≠ .actions as)
    (hsteps : ∀ t ∈ tr, StepOk sched t.pre t.label) :
    BurstLeft sched d rest (slices sched tr) th' := by
  have hbursts := hok.bursts
  rw [haction, List.all_cons, Bool.and_eq_true] at hbursts
  have hd : 0 < d := of_decide_eq_true hbursts.1
  induction hrun with
  | nil =>
      left
      refine ⟨d, hd, haction, ?_, ?_, fun h => absurd rfl h⟩
      · rw [slices, List.filterMap_nil, List.sum_nil, zero_add]
      · rw [slices, List.filterMap_nil, List.length_nil, List.sum_nil, Nat.cast_zero, zero_mul,
          zero_add]
        exact leastSlice_nonneg hconfig
  | @snoc tr mid c th' hprefix hlast ih =>
      have hold : ∀ t ∈ tr, t ∈ tr ++ [⟨mid, c, th'⟩] := fun t ht => List.mem_append_left _ ht
      have hnew : (⟨mid, c, th'⟩ : Transition Thread Call) ∈ tr ++ [⟨mid, c, th'⟩] :=
        List.mem_append_right _ (List.mem_singleton_self _)
      have hleft := ih (fun t ht => hburst t (hold t ht)) fun t ht => hsteps t (hold t ht)
      have hokMid : ThreadOk sched mid := hprefix.invariant_of_guard hok
        (fun _ _ _ hok hstep hnext => hok.next hconfig hstep hnext) fun t ht => hsteps t (hold t ht)
      obtain ⟨hrest, hactions⟩ := hburst _ hnew
      have hstep := hsteps _ hnew
      rw [slices_append]
      by_cases hc : c = .getExecutionTime
      · subst hc
        obtain ⟨⟨ti, th₁⟩, hget, hth⟩ := Option.map_eq_some_iff.mp hlast
        obtain rfl : th₁ = th' := hth
        have hslice : slice sched ⟨mid, .getExecutionTime, th₁⟩ = some ti := by
          show (getExecutionTime sched mid).map Prod.fst = some ti
          rw [hget]
          rfl
        rw [hslice]
        exact burstLeft_slice hconfig hokMid hleft hrest hstep hget
      · have hslice : slice sched ⟨mid, c, th'⟩ = none := by
          cases c with
          | getExecutionTime => exact absurd rfl hc
          | _ => rfl
        obtain ⟨hsame, hfull⟩ := next_other hc hactions hlast
        rw [hslice, Option.toList_none, List.append_nil]
        obtain ⟨left, hpos, haction', hsum, hcount, hfullMid⟩ :=
          hleft.resolve_right fun h => hrest h.1
        exact .inl ⟨left, hpos, hsame.trans haction', hsum, hcount, fun h => hfull (hfullMid h)⟩

theorem slice_eq_some {t : Transition Thread Call} (h : slice sched t = some ti) :
    t.label = .getExecutionTime ∧ ∃ th, getExecutionTime sched t.pre = some (ti, th) := by
  unfold slice at h
  split at h
  · next hlabel =>
      obtain ⟨⟨ti', th⟩, hget, rfl⟩ := Option.map_eq_some_iff.mp h
      exact ⟨hlabel, th, hget⟩
  · cases h

theorem length_slices_le {tr : List (Transition Thread Call)} (hconfig : Configured sched)
    (hleft : BurstLeft sched d rest (slices sched tr) th')
    (hsteps : ∀ t ∈ tr, StepOk sched t.pre t.label) :
    (slices sched tr).length ≤ maxDispatches sched d := by
  have hcount : (slices sched tr).length * leastSlice sched ≤ d + 2 * leastSlice sched := by
    have hleast := leastSlice_nonneg hconfig
    rcases hleft with ⟨left, hpos, -, hsum, hcount, -⟩ | ⟨-, -, hcount⟩
    · linarith
    · exact hcount
  cases hslices : slices sched tr with
  | nil => exact Nat.zero_le _
  | cons ti ss =>
      obtain ⟨t, ht, hti⟩ := List.mem_filterMap.mp (hslices ▸ List.mem_cons_self (a := ti) (l := ss))
      have hstep := hsteps t ht
      rw [(slice_eq_some hti).1] at hstep
      have hpos : 0 < leastSlice sched := by
        by_cases hpolicy : sched.policy = .svr4
        · exact leastSlice_pos_of_svr4 hpolicy
        · have hquantum : 0 < quantumOf sched t.pre := hstep
          rw [quantumOf, if_neg hpolicy] at hquantum
          rw [leastSlice, if_neg hpolicy]
          exact hquantum
      rw [← hslices]
      have hdiv : (((slices sched tr).length : Int) - 2 : Int) ≤ ⌊d / leastSlice sched⌋ := by
        rw [Int.le_floor, le_div_iff₀ hpos]
        push_cast
        linarith
      unfold maxDispatches
      omega

end

def newThread : Thread where
  action := []
  looseCpu := true
  doingContextSwitch := false
  doingBusyWait := false
  minTimeToBePreempted := 0
  nextEventTimer := 0
  event := none
  cpu := 0
  sstaskId := 0
  sstaskType := 0
  priority := 0
  forcesPreemption := 0
  lastQuantum := 0
  tsUmdpri := 59
  fullQuantum := false

def workingThread : Thread := { initSchedulerParameters newThread with action := [.work 5] }

theorem run_workingThread (sched : Scheduler) :
    Run (ofPartial (next sched)) (initSchedulerParameters newThread)
      [⟨initSchedulerParameters newThread, .actions [.work 5], workingThread⟩] workingThread :=
  .snoc .nil rfl

def dispatched (sched : Scheduler) (h : (next sched workingThread .getExecutionTime).isSome) :
    List (Transition Thread Call) :=
  [⟨workingThread, .getExecutionTime, (next sched workingThread .getExecutionTime).get h⟩]

theorem run_dispatched {sched : Scheduler}
    (h : (next sched workingThread .getExecutionTime).isSome) :
    Run (ofPartial (next sched)) workingThread (dispatched sched h)
      ((next sched workingThread .getExecutionTime).get h) :=
  .snoc .nil (Option.some_get h).symm

theorem burst_dispatched {sched : Scheduler}
    (h : (next sched workingThread .getExecutionTime).isSome) :
    ∀ t ∈ dispatched sched h, t.pre.action ≠ [] ∧ ∀ as, t.label ≠ .actions as := by
  intro t ht
  rw [List.mem_singleton.mp ht]
  refine ⟨List.cons_ne_nil _ _, ?_⟩
  intro as hlabel
  cases hlabel

instance (sched : Scheduler) (th : Thread) : (c : Call) → Decidable (StepOk sched th c)
  | .getExecutionTime => inferInstanceAs (Decidable (_ < _))
  | .recvMiss => inferInstanceAs (Decidable (_ → _))
  | .clearParameters => inferInstanceAs (Decidable (_ → _))
  | .looseCpu _ => .isTrue trivial
  | .actions _ => .isTrue trivial
  | .threadToReady => .isTrue trivial

def dispatches : List Call :=
  [.getExecutionTime, .threadToReady, .getExecutionTime, .threadToReady, .getExecutionTime]

def working (d : ℚ) : Thread := { initSchedulerParameters newThread with action := [.work d] }

theorem run_working (sched : Scheduler) {d : ℚ} (hd : 0 < d) :
    Run (ofPartial (next sched)) (initSchedulerParameters newThread)
      [⟨initSchedulerParameters newThread, .actions [.work d], working d⟩] (working d) := by
  refine .snoc .nil ?_
  show (if _ then _ else _) = _
  rw [if_pos (by simp [hasDuration, hd])]
  rfl

def dispatchedRun (sched : Scheduler) (d : ℚ) :
    Option (List (Transition Thread Call) × Thread) :=
  exec (next sched) (working d) dispatches

theorem no_actions_dispatchedRun {sched : Scheduler} {d : ℚ} (h : (dispatchedRun sched d).isSome)
    (hne : ∀ t ∈ ((dispatchedRun sched d).get h).1, t.pre.action ≠ []) :
    ∀ t ∈ ((dispatchedRun sched d).get h).1,
      t.pre.action ≠ [] ∧ ∀ as, t.label ≠ .actions as := by
  intro t ht
  refine ⟨hne t ht, fun as hactions => ?_⟩
  have hlabel : t.label ∈ dispatches := label_mem_of_exec_get ht
  rw [hactions] at hlabel
  simp [dispatches] at hlabel

def svr4WithFactor : Configuration := .svr4 (some ⟨0, 0, true, 0, 1⟩)

theorem svr4WithFactor_isSome : svr4WithFactor.init.isSome := by decide +kernel

theorem dispatchedRun_rr_isSome : (dispatchedRun (emptyScheduler .rr) 8000).isSome := by
  decide +kernel

theorem dispatchedRun_svr4_isSome :
    (dispatchedRun (svr4WithFactor.init.get svr4WithFactor_isSome) 1000).isSome := by
  decide +kernel

def defaultSvr4 : Scheduler := { emptyScheduler .svr4 with quantumFactor := 0 }

end Dimemas.Sched.TimeSlices
