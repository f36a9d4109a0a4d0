import Dimemas.Library.Shares
import Mathlib.Data.List.Forall2
/-!
# The streams of the applications

`DAP_io_init` shares the streams that can be opened among the applications, and
`DAP_allocate_streams` shares those of an application among its threads.
-/

namespace Dimemas.Input.StreamBudget

open Dimemas.Library.Shares

/-- The sum of counters, as the loops over applications and tasks add them. -/
def total (counts : List Nat) : Nat := counts.foldr (fun count rest => count + rest) 0

@[simp] theorem total_nil : total [] = 0 := rfl

@[simp] theorem total_cons (count : Nat) (counts : List Nat) :
    total (count :: counts) = count + total counts := rfl

/-- `fp_share`. A stream is not opened before it is used. -/
structure FpShare where
  lastTaskId : Nat
  lastThreadId : Nat
  fp : Option Nat

/-- The fields of `app_struct` that the streams need. The threads of all tasks are counted when the
header of the trace is read. -/
structure AppStruct where
  threadsCount : List Nat
  totalThreadsCount : Nat
  counted : totalThreadsCount = total threadsCount
  streamsCount : Nat
  streams : List FpShare
  streamsIdxs : List (List Nat)

structure MainStruct where
  apps : List AppStruct
  ioInit : Bool
  errorString : Option String

/-- The loops over tasks and threads in `DAP_allocate_streams`. -/
def indexStreams (assignedStreams totalThreadsCount : Nat) : Nat → List Nat → List (List Nat)
  | _, [] => []
  | currentThread, count :: counts =>
      ((List.range count).map fun thread =>
        (currentThread + thread) * assignedStreams / totalThreadsCount) ::
          indexStreams assignedStreams totalThreadsCount (currentThread + count) counts

def allocateStreams (app : AppStruct) (assignedStreams : Nat) : AppStruct :=
  { app with
    streamsCount := assignedStreams
    streams := List.replicate assignedStreams ⟨0, 0, none⟩
    streamsIdxs := indexStreams assignedStreams app.totalThreadsCount 0 app.threadsCount }

def streamsPerApp (totalApiThreads totalAvailableStreams : Nat) (app : AppStruct) : Nat :=
  if totalApiThreads ≤ totalAvailableStreams then app.totalThreadsCount
  else app.totalThreadsCount / totalApiThreads * totalAvailableStreams

/-- The second loop of `DAP_io_init`, from the application `appsIt` on. -/
def shareStreams (totalApiThreads totalAvailableStreams : Nat) :
    Nat → List AppStruct → List AppStruct × Option String
  | _, [] => ([], none)
  | appsIt, app :: apps =>
      let assigned := streamsPerApp totalApiThreads totalAvailableStreams app
      if assigned = 0 then
        (app :: apps, some ("streams per app is 0 for app=" ++ toString appsIt))
      else
        let (rest, error) := shareStreams totalApiThreads totalAvailableStreams (appsIt + 1) apps
        (allocateStreams app assigned :: rest, error)

/-- `DAP_io_init`. Two of the streams are kept for a Paraver trace. With less than two streams the
difference of the source wraps, and here it is zero. -/
def ioInit (availableStreams : Nat) (s : MainStruct) : Bool × MainStruct :=
  if s.ioInit then (true, s)
  else
    let totalApiThreads := total (s.apps.map AppStruct.totalThreadsCount)
    match shareStreams totalApiThreads (availableStreams - 2) 0 s.apps with
    | (apps, some error) => (false, { s with apps := apps, errorString := some error })
    | (apps, none) => (true, { s with apps := apps, ioInit := true })

def MainStruct.share (s : MainStruct) (availableStreams : Nat) (app : AppStruct) : Nat :=
  streamsPerApp (total (s.apps.map AppStruct.totalThreadsCount)) (availableStreams - 2) app

/-- The streams of an application `after`, which are one to as many as it has threads, are used by
its threads in order. -/
structure Shared (before after : AppStruct) : Prop where
  threads : after.threadsCount = before.threadsCount
  pos : 1 ≤ after.streamsCount
  le : after.streamsCount ≤ before.totalThreadsCount
  indexed : after.streamsIdxs.map List.length = before.threadsCount
  lt : ∀ i ∈ after.streamsIdxs.flatten, i < after.streamsCount
  sorted : after.streamsIdxs.flatten.Pairwise fun i j => i ≤ j
  used : ∀ i < after.streamsCount, i ∈ after.streamsIdxs.flatten

/-- All applications have their streams, and two streams are left. -/
structure Budgeted (availableStreams : Nat) (s : MainStruct) (result : Bool × MainStruct) :
    Prop where
  success : result.1 = true
  shared : List.Forall₂ Shared s.apps result.2.apps
  budget : total (result.2.apps.map AppStruct.streamsCount) ≤ availableStreams - 2

section

variable {apps : List AppStruct} {app : AppStruct} {s : MainStruct}
variable {assigned available threads : Nat}

theorem indexStreams_flatten (assigned threads : Nat) (counts : List Nat) (current : Nat) :
    (indexStreams assigned threads current counts).flatten =
      (List.range (total counts)).map fun thread => place assigned threads (current + thread) := by
  induction counts generalizing current with
  | nil => rfl
  | cons count counts ih =>
      rw [indexStreams, List.flatten_cons, ih, total_cons, List.range_add, List.map_append,
        List.map_map]
      apply congrArg
      apply List.map_congr_left
      intro thread _
      rw [Function.comp_apply, Nat.add_assoc]

theorem indexStreams_length (assigned threads : Nat) (counts : List Nat) (current : Nat) :
    (indexStreams assigned threads current counts).map List.length = counts := by
  induction counts generalizing current with
  | nil => rfl
  | cons count counts ih =>
      rw [indexStreams, List.map_cons, ih, List.length_map, List.length_range]

/-- The threads of all tasks get the places of the streams in order. -/
theorem allocateStreams_flatten (app : AppStruct) (assigned : Nat) :
    (allocateStreams app assigned).streamsIdxs.flatten = places assigned app.totalThreadsCount := by
  have hflatten := indexStreams_flatten assigned app.totalThreadsCount app.threadsCount 0
  rw [← app.counted] at hflatten
  calc (allocateStreams app assigned).streamsIdxs.flatten
      = (List.range app.totalThreadsCount).map fun thread =>
          place assigned app.totalThreadsCount (0 + thread) := hflatten
    _ = places assigned app.totalThreadsCount := by
          apply List.map_congr_left
          intro thread _
          rw [Nat.zero_add]

theorem shared_allocateStreams (hpos : 1 ≤ assigned) (hle : assigned ≤ app.totalThreadsCount) :
    Shared app (allocateStreams app assigned) := by
  refine ⟨rfl, hpos, hle, indexStreams_length _ _ _ _, ?_, ?_, ?_⟩
  · rw [allocateStreams_flatten]
    exact fun i hi => lt_of_mem_places hpos hi
  · rw [allocateStreams_flatten]
    exact places_sorted assigned app.totalThreadsCount
  · rw [allocateStreams_flatten]
    exact fun i hi => mem_places hi hle

theorem shareStreams_eq (hne : ∀ app ∈ apps, streamsPerApp threads available app ≠ 0)
    (appsIt : Nat) :
    shareStreams threads available appsIt apps =
      (apps.map fun app => allocateStreams app (streamsPerApp threads available app), none) := by
  induction apps generalizing appsIt with
  | nil => rfl
  | cons app apps ih =>
      obtain ⟨happ, hrest⟩ := List.forall_mem_cons.mp hne
      rw [shareStreams, if_neg happ, ih hrest]
      rfl

theorem ioInit_eq (hinit : s.ioInit = false) (hne : ∀ app ∈ s.apps, s.share available app ≠ 0) :
    ioInit available s = (true, { s with
      apps := s.apps.map fun app => allocateStreams app (s.share available app)
      ioInit := true }) := by
  have hshare := shareStreams_eq hne 0
  simp only [ioInit, hinit, if_neg Bool.false_ne_true, hshare]
  rfl

theorem budgeted_of_share (hinit : s.ioInit = false)
    (hshare : ∀ app ∈ s.apps,
      1 ≤ s.share available app ∧ s.share available app ≤ app.totalThreadsCount)
    (hbudget : total (s.apps.map (s.share available)) ≤ available - 2) :
    Budgeted available s (ioInit available s) := by
  have hne : ∀ app ∈ s.apps, s.share available app ≠ 0 := fun app happ =>
    Nat.one_le_iff_ne_zero.mp (hshare app happ).1
  rw [ioInit_eq hinit hne]
  refine ⟨rfl, ?_, ?_⟩
  · apply List.forall₂_map_right_iff.mpr
    apply List.forall₂_same.mpr
    intro app happ
    exact shared_allocateStreams (hshare app happ).1 (hshare app happ).2
  · rw [List.map_map]
    exact hbudget

theorem share_alone (happs : s.apps = [app]) (hpos : 0 < app.totalThreadsCount)
    (hmore : available - 2 < total (s.apps.map AppStruct.totalThreadsCount)) :
    s.share available app = available - 2 := by
  have hall : total (s.apps.map AppStruct.totalThreadsCount) = app.totalThreadsCount := by
    rw [happs]
    rfl
  rw [MainStruct.share, streamsPerApp, if_neg (Nat.not_le.mpr hmore), hall, Nat.div_self hpos,
    Nat.one_mul]

/-- The first of several applications has less threads than all of them: its quotient is zero. -/
theorem ioInit_fails {first second : AppStruct} {rest : List AppStruct} (hinit : s.ioInit = false)
    (happs : s.apps = first :: second :: rest) (hsecond : 0 < second.totalThreadsCount)
    (hmore : available - 2 < total (s.apps.map AppStruct.totalThreadsCount)) :
    (ioInit available s).1 = false := by
  have hless : first.totalThreadsCount < total (s.apps.map AppStruct.totalThreadsCount) := by
    rw [happs, List.map_cons, List.map_cons, total_cons, total_cons]
    omega
  have hzero : s.share available first = 0 := by
    rw [MainStruct.share, streamsPerApp, if_neg (Nat.not_le.mpr hmore), Nat.div_eq_of_lt hless,
      Nat.zero_mul]
  have hfail : shareStreams (total (s.apps.map AppStruct.totalThreadsCount)) (available - 2) 0
      s.apps = (s.apps, some ("streams per app is 0 for app=" ++ toString 0)) := by
    conv_lhs => rw [happs]
    rw [shareStreams, ← happs]
    exact if_pos hzero
  simp only [ioInit, hinit, if_neg Bool.false_ne_true, hfail]

/-- The streams are shared as they should be exactly if there are enough for all threads or all are
for one application. -/
theorem budgeted_iff (hinit : s.ioInit = false)
    (hpos : ∀ app ∈ s.apps, 0 < app.totalThreadsCount)
    (havailable : s.apps.length + 2 ≤ available) :
    Budgeted available s (ioInit available s) ↔
      s.apps.length ≤ 1 ∨ total (s.apps.map AppStruct.totalThreadsCount) ≤ available - 2 := by
  by_cases henough : total (s.apps.map AppStruct.totalThreadsCount) ≤ available - 2
  · have hshare (app : AppStruct) : s.share available app = app.totalThreadsCount :=
      if_pos henough
    refine ⟨fun _ => Or.inr henough, fun _ => budgeted_of_share hinit ?_ ?_⟩
    · intro app happ
      rw [hshare]
      exact ⟨hpos app happ, Nat.le_refl _⟩
    · rw [List.map_congr_left fun app _ => hshare app]
      exact henough
  · have hmore := Nat.lt_of_not_le henough
    cases happs : s.apps with
    | nil =>
      rw [happs] at hmore
      exact absurd hmore (Nat.not_lt_zero _)
    | cons first apps =>
      cases apps with
      | nil =>
        have hfirst : 0 < first.totalThreadsCount := hpos first (happs ▸ List.mem_cons_self)
        have hshare := share_alone happs hfirst hmore
        rw [happs] at hmore havailable
        simp only [List.map_cons, List.map_nil, total_cons, total_nil] at hmore
        rw [List.length_singleton] at havailable
        refine ⟨fun _ => Or.inl (Nat.le_refl 1), fun _ => budgeted_of_share hinit ?_ ?_⟩
        · intro app happ
          rw [happs] at happ
          rw [List.mem_singleton.mp happ, hshare]
          omega
        · rw [happs, List.map_cons, hshare]
          exact Nat.le_refl _
      | cons second rest =>
        have hsecond : 0 < second.totalThreadsCount :=
          hpos second (happs ▸ List.mem_cons_of_mem first List.mem_cons_self)
        have hfails := ioInit_fails hinit happs hsecond hmore
        rw [happs] at henough
        constructor
        · intro h
          exact absurd (hfails.symm.trans h.success) Bool.false_ne_true
        · intro h
          rcases h with hone | hle
          · rw [List.length_cons, List.length_cons] at hone
            omega
          · exact absurd hle henough

end

def appOf (tasksCount : Nat) : AppStruct where
  threadsCount := List.replicate tasksCount 1
  totalThreadsCount := total (List.replicate tasksCount 1)
  counted := rfl
  streamsCount := 0
  streams := []
  streamsIdxs := []

def twoApps : MainStruct := ⟨[appOf 3, appOf 3], false, none⟩

theorem pos_twoApps : ∀ app ∈ twoApps.apps, 0 < app.totalThreadsCount :=
  List.forall_mem_cons.mpr ⟨by decide, List.forall_mem_singleton.mpr (by decide)⟩

/-- Eight streams are enough for the six threads, and seven are not. -/
theorem budgeted_iff_twoApps :
    Budgeted 8 twoApps (ioInit 8 twoApps) ∧ ¬ Budgeted 7 twoApps (ioInit 7 twoApps) := by
  constructor
  · exact (budgeted_iff rfl pos_twoApps (by decide)).mpr (.inr (by decide))
  · intro hbudgeted
    rcases (budgeted_iff rfl pos_twoApps (by decide)).mp hbudgeted with hone | henough
    · exact absurd hone (by decide)
    · exact absurd henough (by decide)

theorem not_budgeted :
    ¬ ∀ (s : MainStruct) (available : Nat), s.ioInit = false →
      (∀ app ∈ s.apps, 0 < app.totalThreadsCount) → s.apps.length + 2 ≤ available →
      Budgeted available s (ioInit available s) := by
  intro h
  have hbudgeted := h twoApps 6 rfl pos_twoApps (by decide)
  have hfails : (ioInit 6 twoApps).1 = false := by decide
  exact absurd (hfails.symm.trans hbudgeted.success) Bool.false_ne_true

end Dimemas.Input.StreamBudget
