import Mathlib.Algebra.Ring.Nat
import Mathlib.Data.List.Basic
import Mathlib.Logic.Function.Basic
import Dimemas.Library.Transitions
/-!
# The synchronisations of a host with its accelerator

In a task with an accelerator the first thread is the host and the last one runs the kernels. The
two meet in the pseudo global operations of negative communicators. Each of them may need a startup
on its own processor, behind which it calls `ACCELERATOR_synchronization` again.
-/

namespace Dimemas.Model.AcceleratorSync

open Dimemas.Library.Transitions

/-- What a thread does next. A thread that waits has no event, and behind `COM_TIMER_OUT` the host
goes on with its next action. -/
inductive Pending
  | none | waiting | startup | comTimerOut
deriving DecidableEq

structure AccThread where
  blckdInGlobalOp : Bool
  startupDone : Bool
  doingAccComm : Bool
  commId : Int
  pending : Pending

/-- The fields of a task with `synchronized`, the number of synchronisations that have ended. -/
structure AccTask where
  hostSync : Option Nat
  kernelSync : Option Nat
  kernelByComm : Int
  threads : Nat → AccThread
  synchronized : Nat

def kernel (threadsCount threadid : Nat) : Bool := threadsCount == threadid + 1

def host (threadsCount threadid : Nat) : Bool := !kernel threadsCount threadid && threadid == 0

/-- Which of the startups that `compute_startup` gives are not zero. -/
structure Startups where
  host : Bool
  kernel : Bool

def AccTask.init : AccTask := ⟨none, none, -1, fun _ => ⟨false, false, false, 0, .none⟩, 0⟩

def AccTask.setThread (s : AccTask) (t : Nat) (x : AccThread) : AccTask :=
  { s with threads := Function.update s.threads t x }

/-- `SCHEDULER_thread_to_ready_return` with a startup. -/
def AccTask.initiateStartup (s : AccTask) (t : Nat) : AccTask :=
  s.setThread t { s.threads t with doingAccComm := true, pending := .startup }

/-- The kernel thread goes on with its next action, and the host does behind a last startup. -/
def AccTask.unlock (s : AccTask) (hostTh kernelTh : Nat) : AccTask :=
  let s := s.setThread kernelTh
    { s.threads kernelTh with startupDone := false, blckdInGlobalOp := false, pending := .none }
  let s := s.setThread hostTh
    { s.threads hostTh with
      startupDone := false, blckdInGlobalOp := false, doingAccComm := true, pending := .comTimerOut }
  { s with
    hostSync := none, kernelSync := none, kernelByComm := -1, synchronized := s.synchronized + 1 }

def AccTask.proceed (s : AccTask) (hostTh kernelTh : Nat) (startups : Startups) : AccTask :=
  if (s.threads hostTh).startupDone = false ∧ startups.host then s.initiateStartup hostTh
  else if (s.threads kernelTh).startupDone = false ∧ startups.kernel then s.initiateStartup kernelTh
  else s.unlock hostTh kernelTh

def AccTask.checkSyncStatus (s : AccTask) (t : Nat) (isHost : Bool) (startups : Startups) :
    AccTask :=
  match s.hostSync, s.kernelSync with
  | some hostTh, some kernelTh =>
      if isHost then s.proceed t kernelTh startups else s.proceed hostTh t startups
  | _, _ => s

def kernelOfComm (commId : Int) : Int := if commId ≠ -1 then -1 * (commId + 2) else -1

/-- `ACCELERATOR_synchronization`. The errors end the program. -/
def AccTask.synchronization (threadsCount : Nat) (s : AccTask) (t : Nat) (commId : Int)
    (startups : Startups) : Option AccTask :=
  let x := s.threads t
  if host threadsCount t then
    if s.hostSync.isSome ∧ x.blckdInGlobalOp = false then none
    else if x.blckdInGlobalOp = false then
      let s := { s.setThread t { x with blckdInGlobalOp := true } with
        hostSync := some t, kernelByComm := kernelOfComm commId }
      some (s.checkSyncStatus t true startups)
    else some (s.checkSyncStatus t true startups)
  else if kernel threadsCount t then
    if s.kernelSync.isSome ∧ x.blckdInGlobalOp = false then none
    else if s.hostSync.isSome ∧ s.kernelByComm ≠ -1 ∧ s.kernelByComm ≠ t then none
    else
      let s := { s.setThread t { x with blckdInGlobalOp := true } with kernelSync := some t }
      some (s.checkSyncStatus t false startups)
  else none

/-- A thread comes to a synchronisation, its startup ends, or the last startup of the host ends. -/
inductive Step
  | call (t : Nat) (commId : Int) (startups : Startups)
  | startupOut (t : Nat) (startups : Startups)
  | comTimerOut (t : Nat)

/-- The scheduler calls the synchronisation for the first action of a thread that runs. -/
def step (threadsCount : Nat) (s : AccTask) : Step → Option AccTask
  | .call t commId startups =>
      if (s.threads t).pending = .none ∧ commId < 0 then
        (s.setThread t { s.threads t with commId := commId, pending := .waiting }).synchronization
          threadsCount t commId startups
      else none
  | .startupOut t startups =>
      if (s.threads t).pending = .startup then
        (s.setThread t { s.threads t with
          doingAccComm := false, startupDone := true, pending := .waiting }).synchronization
            threadsCount t (s.threads t).commId startups
      else none
  | .comTimerOut t =>
      if (s.threads t).pending = .comTimerOut then
        some (s.setThread t { s.threads t with doingAccComm := false, pending := .none })
      else none

/-! ## The phases of a task -/

structure AccThread.Free (x : AccThread) : Prop where
  blckd : x.blckdInGlobalOp = false
  done : x.startupDone = false
  pending : (x.pending = .none ∧ x.doingAccComm = false) ∨
    (x.pending = .comTimerOut ∧ x.doingAccComm = true)

structure AccThread.Waits (x : AccThread) : Prop where
  blckd : x.blckdInGlobalOp = true
  acc : x.doingAccComm = false
  pending : x.pending = .waiting

structure AccThread.Starts (x : AccThread) : Prop where
  blckd : x.blckdInGlobalOp = true
  done : x.startupDone = false
  acc : x.doingAccComm = true
  pending : x.pending = .startup

/-- The communicator of the host is that of the kernel thread, or of none. -/
def Matches (s : AccTask) (k : Nat) : Prop := s.kernelByComm = -1 ∨ s.kernelByComm = k

/-- What a task is in: no thread has come, one of the two has, or both have. In the last case one of
them starts up and the other one waits. -/
inductive Phase (n : Nat) (s : AccTask) : Prop
  | idle (hhost : s.hostSync = none) (hkernel : s.kernelSync = none)
      (hcomm : s.kernelByComm = -1) (hfree : ∀ t, (s.threads t).Free)
  | hostFirst (h : Nat) (hh : host n h) (hhost : s.hostSync = some h)
      (hkernel : s.kernelSync = none) (hcomm : s.kernelByComm = kernelOfComm (s.threads h).commId)
      (hwaits : (s.threads h).Waits) (hdone : (s.threads h).startupDone = false)
      (hfree : ∀ t, t ≠ h → (s.threads t).Free)
  | kernelFirst (k : Nat) (hk : kernel n k) (hhost : s.hostSync = none)
      (hkernel : s.kernelSync = some k) (hcomm : s.kernelByComm = -1)
      (hwaits : (s.threads k).Waits) (hdone : (s.threads k).startupDone = false)
      (hfree : ∀ t, t ≠ k → (s.threads t).Free)
  | both (h k : Nat) (hh : host n h) (hk : kernel n k) (hhost : s.hostSync = some h)
      (hkernel : s.kernelSync = some k) (hcomm : s.kernelByComm = kernelOfComm (s.threads h).commId)
      (hstarts : ((s.threads h).Starts ∧ (s.threads k).Waits) ∨
        ((s.threads h).Waits ∧ (s.threads k).Starts))
      (hchecked : (s.threads k).startupDone = true → Matches s k)
      (hfree : ∀ t, t ≠ h → t ≠ k → (s.threads t).Free)

section

variable {n : Nat} {s s' : AccTask} {h k t : Nat} {startups : Startups}

theorem host_unique (hh : host n h) (ht : host n t) : t = h := by
  simp only [host, Bool.and_eq_true, beq_iff_eq] at hh ht
  rw [hh.2, ht.2]

theorem kernel_unique (hk : kernel n k) (ht : kernel n t) : t = k := by
  simp only [kernel, beq_iff_eq] at hk ht
  omega

theorem host_ne_kernel (hh : host n h) (hk : kernel n k) : h ≠ k := by
  rintro rfl
  simp only [host, hk, Bool.not_true, Bool.false_and, Bool.false_eq_true] at hh

theorem host_eq_false (hk : kernel n k) : host n k = false := by
  simp only [host, hk, Bool.not_true, Bool.false_and]

theorem phase_init (n : Nat) : Phase n .init :=
  .idle rfl rfl rfl fun _ => ⟨rfl, rfl, .inl ⟨rfl, rfl⟩⟩

@[simp] theorem threads_setThread (s : AccTask) (t : Nat) (x : AccThread) :
    (s.setThread t x).threads = Function.update s.threads t x := rfl

@[simp] theorem hostSync_setThread (s : AccTask) (t : Nat) (x : AccThread) :
    (s.setThread t x).hostSync = s.hostSync := rfl

@[simp] theorem kernelSync_setThread (s : AccTask) (t : Nat) (x : AccThread) :
    (s.setThread t x).kernelSync = s.kernelSync := rfl

@[simp] theorem kernelByComm_setThread (s : AccTask) (t : Nat) (x : AccThread) :
    (s.setThread t x).kernelByComm = s.kernelByComm := rfl

@[simp] theorem synchronized_setThread (s : AccTask) (t : Nat) (x : AccThread) :
    (s.setThread t x).synchronized = s.synchronized := rfl

/-- Both threads have come, and neither of them starts up. -/
structure Met (n : Nat) (s : AccTask) (h k : Nat) : Prop where
  host : host n h
  kernel : kernel n k
  hostSync : s.hostSync = some h
  kernelSync : s.kernelSync = some k
  comm : s.kernelByComm = kernelOfComm (s.threads h).commId
  hostWaits : (s.threads h).Waits
  kernelWaits : (s.threads k).Waits
  checked : (s.threads k).startupDone = true → Matches s k
  free : ∀ t, t ≠ h → t ≠ k → (s.threads t).Free

/-- What `ACCELERATOR_check_sync_status` does then: one of the two starts up that has not done so
before, or the synchronisation ends. -/
theorem AccTask.proceed_cases (s : AccTask) (h k : Nat) (startups : Startups) :
    ((s.threads h).startupDone = false ∧ s.proceed h k startups = s.initiateStartup h) ∨
      ((s.threads k).startupDone = false ∧ s.proceed h k startups = s.initiateStartup k) ∨
      ((s.threads k).startupDone = false → startups.kernel = false) ∧
        s.proceed h k startups = s.unlock h k := by
  unfold AccTask.proceed
  split
  · next hhost => exact .inl ⟨hhost.1, rfl⟩
  · split
    · next hkernel => exact .inr (.inl ⟨hkernel.1, rfl⟩)
    · next hkernel =>
        refine .inr (.inr ⟨fun hdone => ?_, rfl⟩)
        by_contra hstartup
        exact hkernel ⟨hdone, by simpa using hstartup⟩

theorem Met.phase_initiateStartup_host (hmet : Met n s h k)
    (hdone : (s.threads h).startupDone = false) : Phase n (s.initiateStartup h) := by
  have hne : k ≠ h := (host_ne_kernel hmet.host hmet.kernel).symm
  apply @Phase.both n (s.initiateStartup h) h k hmet.host hmet.kernel hmet.hostSync hmet.kernelSync
  · simp [AccTask.initiateStartup, hmet.comm]
  · left
    constructor
    · simp only [AccTask.initiateStartup, threads_setThread, Function.update_self]
      exact ⟨hmet.hostWaits.blckd, hdone, rfl, rfl⟩
    · simp only [AccTask.initiateStartup, threads_setThread, Function.update_of_ne hne]
      exact hmet.kernelWaits
  · simp only [AccTask.initiateStartup, threads_setThread, Function.update_of_ne hne]
    exact hmet.checked
  · intro t hth htk
    simp only [AccTask.initiateStartup, threads_setThread, Function.update_of_ne hth]
    exact hmet.free t hth htk

theorem Met.phase_initiateStartup_kernel (hmet : Met n s h k)
    (hdone : (s.threads k).startupDone = false) : Phase n (s.initiateStartup k) := by
  have hne : h ≠ k := host_ne_kernel hmet.host hmet.kernel
  apply @Phase.both n (s.initiateStartup k) h k hmet.host hmet.kernel hmet.hostSync hmet.kernelSync
  · simp [AccTask.initiateStartup, hmet.comm, Function.update_of_ne hne]
  · right
    constructor
    · simp only [AccTask.initiateStartup, threads_setThread, Function.update_of_ne hne]
      exact hmet.hostWaits
    · simp only [AccTask.initiateStartup, threads_setThread, Function.update_self]
      exact ⟨hmet.kernelWaits.blckd, hdone, rfl, rfl⟩
  · simp only [AccTask.initiateStartup, threads_setThread, Function.update_self]
    exact hmet.checked
  · intro t hth htk
    simp only [AccTask.initiateStartup, threads_setThread, Function.update_of_ne htk]
    exact hmet.free t hth htk

theorem Met.phase_unlock (hmet : Met n s h k) : Phase n (s.unlock h k) := by
  have hne : k ≠ h := (host_ne_kernel hmet.host hmet.kernel).symm
  apply Phase.idle rfl rfl rfl
  intro t
  by_cases hth : t = h
  · subst hth
    simp only [AccTask.unlock, threads_setThread, Function.update_self]
    exact ⟨rfl, rfl, .inr ⟨rfl, rfl⟩⟩
  · by_cases htk : t = k
    · subst htk
      simp only [AccTask.unlock, threads_setThread, Function.update_of_ne hth,
        Function.update_self]
      exact ⟨rfl, rfl, .inl ⟨rfl, hmet.kernelWaits.acc⟩⟩
    · simp only [AccTask.unlock, threads_setThread, Function.update_of_ne hth,
        Function.update_of_ne htk]
      exact hmet.free t hth htk

theorem Met.phase (hmet : Met n s h k) (startups : Startups) :
    Phase n (s.proceed h k startups) := by
  rcases s.proceed_cases h k startups with ⟨hdone, heq⟩ | ⟨hdone, heq⟩ | ⟨-, heq⟩
  · exact heq ▸ hmet.phase_initiateStartup_host hdone
  · exact heq ▸ hmet.phase_initiateStartup_kernel hdone
  · exact heq ▸ hmet.phase_unlock

/-! ## The steps -/

def AccTask.hostArrives (s : AccTask) (t : Nat) (commId : Int) : AccTask :=
  { s.setThread t
      { s.threads t with blckdInGlobalOp := true, commId := commId, pending := .waiting } with
    hostSync := some t, kernelByComm := kernelOfComm commId }

def AccTask.kernelArrives (s : AccTask) (t : Nat) (commId : Int) : AccTask :=
  { s.setThread t
      { s.threads t with blckdInGlobalOp := true, commId := commId, pending := .waiting } with
    kernelSync := some t }

def AccTask.started (s : AccTask) (t : Nat) : AccTask :=
  s.setThread t
    { s.threads t with doingAccComm := false, startupDone := true, pending := .waiting }

theorem step_call_host {commId : Int} (hpending : (s.threads t).pending = .none)
    (hcomm : commId < 0) (hhost : host n t) (hsync : s.hostSync = none)
    (hblckd : (s.threads t).blckdInGlobalOp = false) :
    step n s (.call t commId startups) =
      some ((s.hostArrives t commId).checkSyncStatus t true startups) := by
  simp [step, AccTask.synchronization, AccTask.hostArrives, hpending, hcomm, hhost, hsync, hblckd,
    AccTask.setThread]

theorem step_call_kernel {commId : Int} (hpending : (s.threads t).pending = .none)
    (hcomm : commId < 0) (hkernel : kernel n t) (hsync : s.kernelSync = none)
    (hblckd : (s.threads t).blckdInGlobalOp = false) :
    step n s (.call t commId startups) =
      if s.hostSync.isSome ∧ s.kernelByComm ≠ -1 ∧ s.kernelByComm ≠ t then none
      else some ((s.kernelArrives t commId).checkSyncStatus t false startups) := by
  simp [step, AccTask.synchronization, AccTask.kernelArrives, hpending, hcomm, hkernel, hsync,
    hblckd, host_eq_false hkernel, AccTask.setThread]

theorem step_startupOut_host (hpending : (s.threads t).pending = .startup) (hhost : host n t)
    (hblckd : (s.threads t).blckdInGlobalOp = true) :
    step n s (.startupOut t startups) =
      some ((s.started t).checkSyncStatus t true startups) := by
  simp [step, AccTask.synchronization, AccTask.started, hpending, hhost, hblckd, AccTask.setThread]

theorem step_startupOut_kernel (hpending : (s.threads t).pending = .startup) (hkernel : kernel n t)
    (hblckd : (s.threads t).blckdInGlobalOp = true) (hsync : s.kernelSync = some t) :
    step n s (.startupOut t startups) =
      if s.hostSync.isSome ∧ s.kernelByComm ≠ -1 ∧ s.kernelByComm ≠ t then none
      else some ((s.started t).checkSyncStatus t false startups) := by
  simp [step, AccTask.synchronization, AccTask.started, hpending, hkernel, hblckd,
    host_eq_false hkernel, AccTask.setThread, ← hsync]

theorem AccThread.Free.not_startup {x : AccThread} (hfree : x.Free) : x.pending ≠ .startup := by
  rintro hstartup
  rcases hfree.pending with ⟨hpending, -⟩ | ⟨hpending, -⟩
  · rw [hpending] at hstartup
    cases hstartup
  · rw [hpending] at hstartup
    cases hstartup

theorem checkSyncStatus_alone {isHost : Bool} (h : s.hostSync = none ∨ s.kernelSync = none) :
    s.checkSyncStatus t isHost startups = s := by
  unfold AccTask.checkSyncStatus
  split
  · next hhost hkernel =>
      rcases h with h | h
      · rw [h] at hhost
        cases hhost
      · rw [h] at hkernel
        cases hkernel
  · rfl

theorem Met.checkSyncStatus_host (hmet : Met n s h k) :
    s.checkSyncStatus h true startups = s.proceed h k startups := by
  simp only [AccTask.checkSyncStatus, hmet.hostSync, hmet.kernelSync, if_true]

theorem Met.checkSyncStatus_kernel (hmet : Met n s h k) :
    s.checkSyncStatus k false startups = s.proceed h k startups := by
  simp only [AccTask.checkSyncStatus, hmet.hostSync, hmet.kernelSync, Bool.false_eq_true, if_false]

def AccTask.entered (s : AccTask) (t : Nat) : Nat :=
  s.synchronized + if (s.threads t).blckdInGlobalOp then 1 else 0

def Step.calls (t : Nat) : Step → Nat
  | .call t' _ _ => if t' = t then 1 else 0
  | _ => 0

/-- How a step brings both threads together: one of them comes while the other one waits, or its
startup ends. -/
inductive Entered (n : Nat) (s : AccTask) (h k : Nat) (startups : Startups) :
    Step → AccTask → Prop
  | hostArrives (commId : Int) :
      s.kernelSync = some k → (s.threads h).blckdInGlobalOp = false →
      (s.threads k).startupDone = false →
      Entered n s h k startups (.call h commId startups) (s.hostArrives h commId)
  | kernelArrives (commId : Int) :
      s.hostSync = some h → (s.threads k).blckdInGlobalOp = false → Matches s k →
      Entered n s h k startups (.call k commId startups) (s.kernelArrives k commId)
  | hostStarted :
      s.hostSync = some h → s.kernelSync = some k → (s.threads h).startupDone = false →
      Entered n s h k startups (.startupOut h startups) (s.started h)
  | kernelStarted :
      s.hostSync = some h → s.kernelSync = some k → (s.threads k).startupDone = false →
      Matches s k → Entered n s h k startups (.startupOut k startups) (s.started k)

inductive Outcome (n : Nat) (s : AccTask) : Step → AccTask → Prop
  | alone (t : Nat) (commId : Int) (startups : Startups) (s' : AccTask) (hphase : Phase n s')
      (hsync : s'.hostSync = none ∨ s'.kernelSync = none)
      (hsame : s'.synchronized = s.synchronized)
      (hentered : ∀ u, s'.entered u = s.entered u + if t = u then 1 else 0) :
      Outcome n s (.call t commId startups) s'
  | met (h k : Nat) (startups : Startups) (l : Step) (s₁ : AccTask) (hmet : Met n s₁ h k)
      (hentered : Entered n s h k startups l s₁) : Outcome n s l (s₁.proceed h k startups)
  | free (t : Nat) (hpending : (s.threads t).pending = .comTimerOut) :
      Outcome n s (.comTimerOut t)
        (s.setThread t { s.threads t with doingAccComm := false, pending := .none })

/-- The kernel thread finds a host that waits for another one. -/
def Mismatch (n : Nat) (s : AccTask) (t : Nat) : Prop :=
  kernel n t ∧ s.hostSync.isSome ∧ s.kernelByComm ≠ -1 ∧ s.kernelByComm ≠ t

theorem matches_or (s : AccTask) (k : Nat) :
    Matches s k ∨ (s.kernelByComm ≠ -1 ∧ s.kernelByComm ≠ k) := by
  unfold Matches
  omega

/-- A step that the simulator may take. -/
def Enabled (n : Nat) (s : AccTask) : Step → Prop
  | .call t commId _ => (s.threads t).pending = .none ∧ commId < 0 ∧ (host n t ∨ kernel n t)
  | .startupOut t _ => (s.threads t).pending = .startup
  | .comTimerOut t => (s.threads t).pending = .comTimerOut

/-- The step makes a thread call `ACCELERATOR_synchronization`. -/
def Step.caller : Step → Option Nat
  | .call t _ _ => some t
  | .startupOut t _ => some t
  | .comTimerOut _ => none

/-- A step does one of these things, or it is an error for the one reason that there is. -/
def Taken (n : Nat) (s : AccTask) (l : Step) : Prop :=
  (∃ s', step n s l = some s' ∧ Outcome n s l s') ∨
    (step n s l = none ∧ ∃ t, l.caller = some t ∧ Mismatch n s t)

def AccThread.arrives (x : AccThread) (commId : Int) : AccThread :=
  { x with blckdInGlobalOp := true, commId := commId, pending := .waiting }

theorem AccThread.Free.waits_arrives {x : AccThread} (hfree : x.Free) (hpending : x.pending = .none)
    (commId : Int) : (x.arrives commId).Waits := by
  rcases hfree.pending with ⟨-, hacc⟩ | ⟨hlast, -⟩
  · exact ⟨rfl, hacc, rfl⟩
  · rw [hpending] at hlast
    cases hlast

theorem threads_hostArrives_self (s : AccTask) (t : Nat) (commId : Int) :
    (s.hostArrives t commId).threads t = (s.threads t).arrives commId := Function.update_self ..

theorem threads_hostArrives_of_ne {u : Nat} (hne : u ≠ t) (s : AccTask) (commId : Int) :
    (s.hostArrives t commId).threads u = s.threads u := Function.update_of_ne hne ..

theorem threads_kernelArrives_self (s : AccTask) (t : Nat) (commId : Int) :
    (s.kernelArrives t commId).threads t = (s.threads t).arrives commId := Function.update_self ..

theorem threads_kernelArrives_of_ne {u : Nat} (hne : u ≠ t) (s : AccTask) (commId : Int) :
    (s.kernelArrives t commId).threads u = s.threads u := Function.update_of_ne hne ..

theorem threads_started_self (s : AccTask) (t : Nat) :
    (s.started t).threads t =
      { s.threads t with doingAccComm := false, startupDone := true, pending := .waiting } :=
  Function.update_self ..

theorem threads_started_of_ne {u : Nat} (hne : u ≠ t) (s : AccTask) :
    (s.started t).threads u = s.threads u := Function.update_of_ne hne ..

theorem entered_of_threads {u : Nat} {commId : Int}
    (hsame : s'.synchronized = s.synchronized)
    (hself : s'.threads t = (s.threads t).arrives commId)
    (hother : ∀ u, u ≠ t → s'.threads u = s.threads u)
    (hblckd : (s.threads t).blckdInGlobalOp = false) :
    s'.entered u = s.entered u + if t = u then 1 else 0 := by
  unfold AccTask.entered
  rw [hsame]
  by_cases htu : t = u
  · subst htu
    rw [hself, if_pos rfl, hblckd]
    rfl
  · rw [hother u fun heq => htu heq.symm, if_neg htu]
    rfl

theorem taken_call_host {commId : Int} (hphase : Phase n s)
    (hpending : (s.threads t).pending = .none) (hcomm : commId < 0) (hhost : host n t) :
    Taken n s (.call t commId startups) := by
  left
  have hself := threads_hostArrives_self s t commId
  have hother := fun u (hne : u ≠ t) => threads_hostArrives_of_ne hne s commId
  cases hphase with
  | idle hhostSync hkernelSync _ hfree =>
      have hstep := @step_call_host n s t startups commId hpending hcomm hhost hhostSync
        (hfree t).blckd
      have halone : (s.hostArrives t commId).kernelSync = none := hkernelSync
      rw [checkSyncStatus_alone (.inr halone)] at hstep
      refine ⟨_, hstep, .alone t commId startups _ ?_ (.inr halone) rfl fun u => ?_⟩
      · apply @Phase.hostFirst n (s.hostArrives t commId) t hhost rfl halone
        · rw [hself]
          rfl
        · rw [hself]
          exact (hfree t).waits_arrives hpending commId
        · rw [hself]
          exact (hfree t).done
        · intro u hne
          rw [hother u hne]
          exact hfree u
      · exact entered_of_threads rfl hself hother (hfree t).blckd
  | hostFirst h hh _ _ _ hwaits =>
      obtain rfl := host_unique hh hhost
      rw [hwaits.pending] at hpending
      cases hpending
  | kernelFirst k hk hhostSync hkernelSync _ hwaits hdone hfree =>
      have hne : t ≠ k := host_ne_kernel hhost hk
      have hmet : Met n (s.hostArrives t commId) t k := by
        constructor
        · exact hhost
        · exact hk
        · rfl
        · exact hkernelSync
        · rw [hself]
          rfl
        · rw [hself]
          exact (hfree t hne).waits_arrives hpending commId
        · rw [hother k hne.symm]
          exact hwaits
        · rw [hother k hne.symm, hdone]
          exact fun hfalse => absurd hfalse Bool.false_ne_true
        · intro u hut huk
          rw [hother u hut]
          exact hfree u huk
      have hstep := @step_call_host n s t startups commId hpending hcomm hhost hhostSync
        (hfree t hne).blckd
      rw [hmet.checkSyncStatus_host] at hstep
      exact ⟨_, hstep, .met t k startups _ _ hmet
        (.hostArrives commId hkernelSync (hfree t hne).blckd hdone)⟩
  | both h k hh _ _ _ _ hstarts =>
      obtain rfl := host_unique hh hhost
      rcases hstarts with ⟨hstarts, -⟩ | ⟨hwaits, -⟩
      · rw [hstarts.pending] at hpending
        cases hpending
      · rw [hwaits.pending] at hpending
        cases hpending

theorem taken_call_kernel {commId : Int} (hphase : Phase n s)
    (hpending : (s.threads t).pending = .none) (hcomm : commId < 0) (hkernel : kernel n t) :
    Taken n s (.call t commId startups) := by
  have hself := threads_kernelArrives_self s t commId
  have hother := fun u (hne : u ≠ t) => threads_kernelArrives_of_ne hne s commId
  cases hphase with
  | idle hhostSync hkernelSync hcommNone hfree =>
      left
      have hstep := @step_call_kernel n s t startups commId hpending hcomm hkernel hkernelSync
        (hfree t).blckd
      have halone : (s.kernelArrives t commId).hostSync = none := hhostSync
      rw [checkSyncStatus_alone (.inl halone), hhostSync] at hstep
      simp only [Option.isSome_none, Bool.false_eq_true, false_and, if_false] at hstep
      refine ⟨_, hstep, .alone t commId startups _ ?_ (.inl halone) rfl fun u => ?_⟩
      · apply @Phase.kernelFirst n (s.kernelArrives t commId) t hkernel halone rfl hcommNone
        · rw [hself]
          exact (hfree t).waits_arrives hpending commId
        · rw [hself]
          exact (hfree t).done
        · intro u hne
          rw [hother u hne]
          exact hfree u
      · exact entered_of_threads rfl hself hother (hfree t).blckd
  | hostFirst h hh hhostSync hkernelSync hcommHost hwaits hdone hfree =>
      have hne : t ≠ h := (host_ne_kernel hh hkernel).symm
      have hstep := @step_call_kernel n s t startups commId hpending hcomm hkernel hkernelSync
        (hfree t hne).blckd
      rcases matches_or s t with hmatches | ⟨hsome, hdiffers⟩
      · left
        have hmet : Met n (s.kernelArrives t commId) h t := by
          constructor
          · exact hh
          · exact hkernel
          · exact hhostSync
          · rfl
          · rw [hother h hne.symm]
            exact hcommHost
          · rw [hother h hne.symm]
            exact hwaits
          · rw [hself]
            exact (hfree t hne).waits_arrives hpending commId
          · exact fun _ => hmatches
          · intro u huh hut
            rw [hother u hut]
            exact hfree u huh
        have hnot : ¬ (s.hostSync.isSome ∧ s.kernelByComm ≠ -1 ∧ s.kernelByComm ≠ t) := by
          rintro ⟨-, hsome, hdiffers⟩
          exact hmatches.elim hsome hdiffers
        rw [if_neg hnot, hmet.checkSyncStatus_kernel] at hstep
        exact ⟨_, hstep, .met h t startups _ _ hmet
          (.kernelArrives commId hhostSync (hfree t hne).blckd hmatches)⟩
      · right
        have hsync : s.hostSync.isSome := by rw [hhostSync]; rfl
        rw [if_pos ⟨hsync, hsome, hdiffers⟩] at hstep
        exact ⟨hstep, t, rfl, hkernel, hsync, hsome, hdiffers⟩
  | kernelFirst k hk _ _ _ hwaits =>
      obtain rfl := kernel_unique hk hkernel
      rw [hwaits.pending] at hpending
      cases hpending
  | both h k _ hk _ _ _ hstarts =>
      obtain rfl := kernel_unique hk hkernel
      rcases hstarts with ⟨-, hwaits⟩ | ⟨-, hstarts⟩
      · rw [hwaits.pending] at hpending
        cases hpending
      · rw [hstarts.pending] at hpending
        cases hpending

theorem AccThread.Starts.waits_started {x : AccThread} (hstarts : x.Starts) :
    AccThread.Waits { x with doingAccComm := false, startupDone := true, pending := .waiting } :=
  ⟨hstarts.blckd, rfl, rfl⟩

theorem taken_startupOut (hphase : Phase n s) (hpending : (s.threads t).pending = .startup) :
    Taken n s (.startupOut t startups) := by
  have hself := threads_started_self s t
  have hother := fun u (hne : u ≠ t) => threads_started_of_ne hne s
  cases hphase with
  | idle _ _ _ hfree => exact absurd hpending (hfree t).not_startup
  | hostFirst h _ _ _ _ hwaits _ hfree =>
      by_cases hth : t = h
      · rw [hth, hwaits.pending] at hpending
        cases hpending
      · exact absurd hpending (hfree t hth).not_startup
  | kernelFirst k _ _ _ _ hwaits _ hfree =>
      by_cases htk : t = k
      · rw [htk, hwaits.pending] at hpending
        cases hpending
      · exact absurd hpending (hfree t htk).not_startup
  | both h k hh hk hhostSync hkernelSync hcommHost hstarts hchecked hfree =>
      have hne : h ≠ k := host_ne_kernel hh hk
      rcases hstarts with ⟨hstarts, hwaits⟩ | ⟨hwaits, hstarts⟩
      · obtain rfl : t = h := by
          by_contra hth
          by_cases htk : t = k
          · rw [htk, hwaits.pending] at hpending
            cases hpending
          · exact (hfree t hth htk).not_startup hpending
        left
        have hmet : Met n (s.started t) t k := by
          constructor
          · exact hh
          · exact hk
          · exact hhostSync
          · exact hkernelSync
          · rw [hself]
            exact hcommHost
          · rw [hself]
            exact hstarts.waits_started
          · rw [hother k hne.symm]
            exact hwaits
          · rw [hother k hne.symm]
            exact hchecked
          · intro u hut huk
            rw [hother u hut]
            exact hfree u hut huk
        have hstep := @step_startupOut_host n s t startups hpending hh hstarts.blckd
        rw [hmet.checkSyncStatus_host] at hstep
        exact ⟨_, hstep, .met t k startups _ _ hmet
          (.hostStarted hhostSync hkernelSync hstarts.done)⟩
      · obtain rfl : t = k := by
          by_contra htk
          by_cases hth : t = h
          · rw [hth, hwaits.pending] at hpending
            cases hpending
          · exact (hfree t hth htk).not_startup hpending
        have hstep := @step_startupOut_kernel n s t startups hpending hk hstarts.blckd hkernelSync
        rcases matches_or s t with hmatches | ⟨hsome, hdiffers⟩
        · left
          have hmet : Met n (s.started t) h t := by
            constructor
            · exact hh
            · exact hk
            · exact hhostSync
            · exact hkernelSync
            · rw [hother h hne]
              exact hcommHost
            · rw [hother h hne]
              exact hwaits
            · rw [hself]
              exact hstarts.waits_started
            · exact fun _ => hmatches
            · intro u huh hut
              rw [hother u hut]
              exact hfree u huh hut
          have hnot : ¬ (s.hostSync.isSome ∧ s.kernelByComm ≠ -1 ∧ s.kernelByComm ≠ t) := by
            rintro ⟨-, hsome, hdiffers⟩
            exact hmatches.elim hsome hdiffers
          rw [if_neg hnot, hmet.checkSyncStatus_kernel] at hstep
          exact ⟨_, hstep, .met h t startups _ _ hmet
            (.kernelStarted hhostSync hkernelSync hstarts.done hmatches)⟩
        · right
          have hsync : s.hostSync.isSome := by rw [hhostSync]; rfl
          rw [if_pos ⟨hsync, hsome, hdiffers⟩] at hstep
          exact ⟨hstep, t, rfl, hk, hsync, hsome, hdiffers⟩

/-- A step that the simulator may take is an error only if the host waits for another kernel. -/
theorem taken (hphase : Phase n s) {l : Step} (henabled : Enabled n s l) : Taken n s l := by
  cases l with
  | call t commId startups =>
      obtain ⟨hpending, hcomm, hhost | hkernel⟩ := henabled
      · exact taken_call_host hphase hpending hcomm hhost
      · exact taken_call_kernel hphase hpending hcomm hkernel
  | startupOut t startups => exact taken_startupOut hphase henabled
  | comTimerOut t =>
      left
      refine ⟨_, ?_, .free t henabled⟩
      exact if_pos henabled

theorem enabled_of_step {l : Step} (hstep : step n s l = some s') : Enabled n s l := by
  cases l with
  | call t commId startups =>
      simp only [step] at hstep
      split at hstep
      · next hguard =>
          refine ⟨hguard.1, hguard.2, ?_⟩
          unfold AccTask.synchronization at hstep
          simp only at hstep
          split at hstep
          · next hhost => exact .inl hhost
          · split at hstep
            · next hkernel => exact .inr hkernel
            · cases hstep
      · cases hstep
  | startupOut t startups =>
      simp only [step] at hstep
      split at hstep
      · next hguard => exact hguard
      · cases hstep
  | comTimerOut t =>
      simp only [step] at hstep
      split at hstep
      · next hguard => exact hguard
      · cases hstep

theorem outcome {l : Step} (hphase : Phase n s) (hstep : step n s l = some s') :
    Outcome n s l s' := by
  rcases taken hphase (enabled_of_step hstep) with ⟨s₁, hsome, houtcome⟩ | ⟨hnone, -⟩
  · obtain rfl := Option.some.inj (hsome.symm.trans hstep)
    exact houtcome
  · rw [hnone] at hstep
    cases hstep

/-! ## Runs -/

/-- The last startup of a thread ends in any phase. -/
theorem phase_comTimerOut (hphase : Phase n s) (hpending : (s.threads t).pending = .comTimerOut) :
    Phase n (s.setThread t { s.threads t with doingAccComm := false, pending := .none }) := by
  have hfree : ∀ x : AccThread, x.Free →
      AccThread.Free { x with doingAccComm := false, pending := .none } :=
    fun x hx => ⟨hx.blckd, hx.done, .inl ⟨rfl, rfl⟩⟩
  have hwaits : ∀ u, (s.threads u).Waits → u ≠ t := by
    rintro u hu rfl
    rw [hu.pending] at hpending
    cases hpending
  have hstarts : ∀ u, (s.threads u).Starts → u ≠ t := by
    rintro u hu rfl
    rw [hu.pending] at hpending
    cases hpending
  have hall : ∀ u, (s.threads u).Free → ((s.setThread t
      { s.threads t with doingAccComm := false, pending := .none }).threads u).Free := by
    intro u hu
    by_cases hut : u = t
    · subst hut
      rw [threads_setThread, Function.update_self]
      exact hfree _ hu
    · rw [threads_setThread, Function.update_of_ne hut]
      exact hu
  have hsame : ∀ u, u ≠ t → (s.setThread t
      { s.threads t with doingAccComm := false, pending := .none }).threads u = s.threads u :=
    fun u hut => Function.update_of_ne hut ..
  cases hphase with
  | idle hhostSync hkernelSync hcomm hothers =>
      exact .idle hhostSync hkernelSync hcomm fun u => hall u (hothers u)
  | hostFirst h hh hhostSync hkernelSync hcomm hwait hdone hothers =>
      have hsameHost := hsame h (hwaits h hwait)
      exact .hostFirst h hh hhostSync hkernelSync (hsameHost ▸ hcomm) (hsameHost ▸ hwait)
        (hsameHost ▸ hdone) fun u hu => hall u (hothers u hu)
  | kernelFirst k hk hhostSync hkernelSync hcomm hwait hdone hothers =>
      have hsameKernel := hsame k (hwaits k hwait)
      exact .kernelFirst k hk hhostSync hkernelSync hcomm (hsameKernel ▸ hwait)
        (hsameKernel ▸ hdone) fun u hu => hall u (hothers u hu)
  | both h k hh hk hhostSync hkernelSync hcomm hboth hchecked hothers =>
      have hsameHost : _ = s.threads h :=
        hsame h (hboth.elim (fun hb => hstarts h hb.1) (fun hb => hwaits h hb.1))
      have hsameKernel : _ = s.threads k :=
        hsame k (hboth.elim (fun hb => hwaits k hb.2) (fun hb => hstarts k hb.2))
      refine .both h k hh hk hhostSync hkernelSync ?_ ?_ ?_
        fun u huh huk => hall u (hothers u huh huk)
      · rw [hsameHost]
        exact hcomm
      · rw [hsameHost, hsameKernel]
        exact hboth
      · rw [hsameKernel]
        exact hchecked

theorem phase_step {l : Step} (hphase : Phase n s) (hstep : step n s l = some s') :
    Phase n s' := by
  cases outcome hphase hstep with
  | alone t commId startups _ hphase' => exact hphase'
  | met h k startups _ s₁ hmet => exact hmet.phase startups
  | free t hpending => exact phase_comTimerOut hphase hpending

/-- The end of a synchronisation is counted for both threads. -/
theorem Met.entered_proceed (hmet : Met n s h k) (startups : Startups) (ht : t = h ∨ t = k) :
    (s.proceed h k startups).entered t = s.entered t := by
  have hne : h ≠ k := host_ne_kernel hmet.host hmet.kernel
  have hblckd : (s.threads t).blckdInGlobalOp = true := by
    rcases ht with rfl | rfl
    · exact hmet.hostWaits.blckd
    · exact hmet.kernelWaits.blckd
  have hinitiate : ∀ u, (s.initiateStartup u).entered t = s.entered t := by
    intro u
    unfold AccTask.entered AccTask.initiateStartup
    by_cases htu : t = u
    · subst htu
      rw [threads_setThread, Function.update_self, synchronized_setThread]
    · rw [threads_setThread, Function.update_of_ne htu, synchronized_setThread]
  rcases s.proceed_cases h k startups with ⟨-, heq⟩ | ⟨-, heq⟩ | ⟨-, heq⟩
  · rw [heq, hinitiate]
  · rw [heq, hinitiate]
  · have hunblckd : ((s.unlock h k).threads t).blckdInGlobalOp = false := by
      rcases ht with rfl | rfl
      · simp [AccTask.unlock]
      · simp [AccTask.unlock, Function.update_of_ne hne.symm]
    rw [heq, AccTask.entered, AccTask.entered, hblckd, hunblckd]
    rfl

theorem Entered.entered {l : Step} {s₁ : AccTask} (hentered : Entered n s h k startups l s₁)
    (t : Nat) : s₁.entered t = s.entered t + l.calls t := by
  cases hentered with
  | hostArrives commId _ hblckd _ =>
      exact entered_of_threads rfl (threads_hostArrives_self s h commId)
        (fun u hne => threads_hostArrives_of_ne hne s commId) hblckd
  | kernelArrives commId _ hblckd =>
      exact entered_of_threads rfl (threads_kernelArrives_self s k commId)
        (fun u hne => threads_kernelArrives_of_ne hne s commId) hblckd
  | hostStarted =>
      unfold AccTask.entered
      by_cases hth : t = h
      · rw [hth, threads_started_self]
        rfl
      · rw [threads_started_of_ne hth]
        rfl
  | kernelStarted =>
      unfold AccTask.entered
      by_cases htk : t = k
      · rw [htk, threads_started_self]
        rfl
      · rw [threads_started_of_ne htk]
        rfl

theorem entered_step {l : Step} (hphase : Phase n s) (hstep : step n s l = some s')
    (ht : host n t ∨ kernel n t) : s'.entered t = s.entered t + l.calls t := by
  cases outcome hphase hstep with
  | alone t' commId startups _ hphase' hsync hsame hentered => exact hentered t
  | met h k startups _ s₁ hmet hentered =>
      have hwho : t = h ∨ t = k :=
        ht.imp (fun ht => host_unique hmet.host ht) (fun ht => kernel_unique hmet.kernel ht)
      rw [hmet.entered_proceed startups hwho, hentered.entered]
  | free t' hpending =>
      unfold AccTask.entered
      by_cases htt : t = t'
      · rw [htt, threads_setThread, Function.update_self]
        rfl
      · rw [threads_setThread, Function.update_of_ne htt]
        rfl

def calls (t : Nat) (tr : List (Transition AccTask Step)) : Nat :=
  (tr.map fun x => x.label.calls t).sum

theorem entered_run {tr : List (Transition AccTask Step)}
    (hrun : Run (ofPartial (step n)) .init tr s) (ht : host n t ∨ kernel n t) :
    s.entered t = calls t tr := by
  have hsum := hrun.sum_takes_add_stock (fun s => s.entered t) (fun _ => 0)
    (fun x => x.label.calls t) (phase_init n) (fun _ _ _ hphase hstep => phase_step hphase hstep)
    fun s l s' hphase hstep => by
      rw [Nat.zero_add]
      exact entered_step hphase hstep ht
  have hinit : AccTask.entered .init t = 0 := rfl
  rw [hinit, Nat.zero_add] at hsum
  simpa [calls] using hsum

def AccTask.remaining (s : AccTask) : Nat :=
  match s.hostSync, s.kernelSync with
  | some h, some k =>
      (if (s.threads h).startupDone then 0 else 1) + if (s.threads k).startupDone then 0 else 1
  | _, _ => 0

theorem Met.remaining_initiateStartup (hmet : Met n s h k) (u : Nat) :
    (s.initiateStartup u).remaining = s.remaining := by
  have hdone : ∀ t, ((s.initiateStartup u).threads t).startupDone = (s.threads t).startupDone := by
    intro t
    by_cases htu : t = u
    · subst htu
      rw [AccTask.initiateStartup, threads_setThread, Function.update_self]
    · rw [AccTask.initiateStartup, threads_setThread, Function.update_of_ne htu]
  have hhost : (s.initiateStartup u).hostSync = some h := hmet.hostSync
  have hkernel : (s.initiateStartup u).kernelSync = some k := hmet.kernelSync
  unfold AccTask.remaining
  simp only [hhost, hkernel, hmet.hostSync, hmet.kernelSync, hdone]

theorem startupOut_step (hphase : Phase n s) (hstep : step n s (.startupOut t startups) = some s') :
    s'.synchronized = s.synchronized + 1 ∨
      (s'.synchronized = s.synchronized ∧ s'.remaining < s.remaining) := by
  cases outcome hphase hstep with
  | met h k startups' _ s₁ hmet hentered =>
      have hne : h ≠ k := host_ne_kernel hmet.host hmet.kernel
      have hless : s₁.synchronized = s.synchronized ∧ s₁.remaining < s.remaining := by
        cases hentered with
        | hostStarted hhost hkernel hdone =>
            refine ⟨rfl, ?_⟩
            simp [AccTask.remaining, hmet.hostSync, hmet.kernelSync, hhost, hkernel, hdone,
              threads_started_self, threads_started_of_ne hne.symm]
        | kernelStarted hhost hkernel hdone =>
            refine ⟨rfl, ?_⟩
            simp [AccTask.remaining, hmet.hostSync, hmet.kernelSync, hhost, hkernel, hdone,
              threads_started_self, threads_started_of_ne hne]
      rcases s₁.proceed_cases h k startups' with ⟨-, heq⟩ | ⟨-, heq⟩ | ⟨-, heq⟩
      · right
        rw [heq, hmet.remaining_initiateStartup]
        exact hless
      · right
        rw [heq, hmet.remaining_initiateStartup]
        exact hless
      · left
        rw [heq]
        exact congrArg (· + 1) hless.1

def Step.kernelStartup : Step → Bool
  | .call _ _ startups => startups.kernel
  | .startupOut _ startups => startups.kernel
  | .comTimerOut _ => false

/-- The host ends the synchronisation with a kernel thread that does no startup. -/
def Unchecked (s : AccTask) (l : Step) (h k : Nat) : Prop :=
  l.caller = some h ∧ (s.threads k).startupDone = false ∧ l.kernelStartup = false

/-- The kernel thread is the one that the communicator of the host stands for, or it was not
checked. -/
def Synchronizes (n : Nat) (x : Transition AccTask Step) : Prop :=
  ∃ h k, host n h ∧ kernel n k ∧
    (kernelOfComm (x.post.threads h).commId = -1 ∨ kernelOfComm (x.post.threads h).commId = k ∨
      Unchecked x.pre x.label h k)

theorem Entered.synchronized_eq {l : Step} {s₁ : AccTask}
    (hentered : Entered n s h k startups l s₁) : s₁.synchronized = s.synchronized := by
  cases hentered with
  | hostArrives => rfl
  | kernelArrives => rfl
  | hostStarted => rfl
  | kernelStarted => rfl

theorem synchronizes_step {l : Step} (hphase : Phase n s) (hstep : step n s l = some s')
    (hsync : s'.synchronized = s.synchronized + 1) : Synchronizes n ⟨s, l, s'⟩ := by
  cases outcome hphase hstep with
  | alone t commId startups _ hphase' _ hsame => omega
  | met h k startups _ s₁ hmet hentered =>
      have hne : h ≠ k := host_ne_kernel hmet.host hmet.kernel
      have hsame := hentered.synchronized_eq
      rcases s₁.proceed_cases h k startups with ⟨-, heq⟩ | ⟨-, heq⟩ | ⟨hstartup, heq⟩
      · rw [heq, AccTask.initiateStartup, synchronized_setThread] at hsync
        omega
      · rw [heq, AccTask.initiateStartup, synchronized_setThread] at hsync
        omega
      · have hcomm : ((s₁.proceed h k startups).threads h).commId = (s₁.threads h).commId := by
          rw [heq]
          simp [AccTask.unlock, Function.update_of_ne hne]
        have hmatch : Matches s₁ k → Synchronizes n ⟨s, l, s₁.proceed h k startups⟩ := by
          rintro hmatches
          refine ⟨h, k, hmet.host, hmet.kernel, ?_⟩
          rw [hcomm, ← hmet.comm]
          exact hmatches.elim .inl fun hkernel => .inr (.inl hkernel)
        cases hentered with
        | hostArrives commId _ _ hdone =>
            rw [threads_hostArrives_of_ne hne.symm] at hstartup
            exact ⟨h, k, hmet.host, hmet.kernel, .inr (.inr ⟨rfl, hdone, hstartup hdone⟩)⟩
        | kernelArrives commId _ _ hmatches => exact hmatch hmatches
        | hostStarted hhost hkernel _ =>
            rw [threads_started_of_ne hne.symm] at hstartup
            by_cases hdone : (s.threads k).startupDone = true
            · have hchecked := hmet.checked
              rw [threads_started_of_ne hne.symm] at hchecked
              exact hmatch (hchecked hdone)
            · have hfalse := Bool.eq_false_iff.mpr hdone
              exact ⟨h, k, hmet.host, hmet.kernel, .inr (.inr ⟨rfl, hfalse, hstartup hfalse⟩)⟩
        | kernelStarted _ _ _ hmatches => exact hmatch hmatches
  | free t _ =>
      rw [synchronized_setThread] at hsync
      omega

/-- One of the two threads starts up when both have come, and none does before. -/
def NoneLost (s : AccTask) : Prop :=
  (∀ h k, s.hostSync = some h → s.kernelSync = some k →
    ((s.threads h).pending = .startup ∧ (s.threads k).pending = .waiting) ∨
      ((s.threads h).pending = .waiting ∧ (s.threads k).pending = .startup)) ∧
  (s.hostSync = none ∨ s.kernelSync = none → ∀ t, (s.threads t).pending ≠ .startup)

theorem Phase.noneLost (hphase : Phase n s) : NoneLost s := by
  cases hphase with
  | idle hhost _ _ hfree =>
      refine ⟨fun h k hh => ?_, fun _ t => (hfree t).not_startup⟩
      rw [hhost] at hh
      cases hh
  | hostFirst h _ _ hkernel _ hwaits _ hfree =>
      refine ⟨fun h k _ hk => ?_, fun _ t => ?_⟩
      · rw [hkernel] at hk
        cases hk
      · by_cases hth : t = h
        · rw [hth, hwaits.pending]
          exact fun hno => by cases hno
        · exact (hfree t hth).not_startup
  | kernelFirst k _ hhost _ _ hwaits _ hfree =>
      refine ⟨fun h k hh => ?_, fun _ t => ?_⟩
      · rw [hhost] at hh
        cases hh
      · by_cases htk : t = k
        · rw [htk, hwaits.pending]
          exact fun hno => by cases hno
        · exact (hfree t htk).not_startup
  | both h k _ _ hhost hkernel _ hstarts =>
      refine ⟨fun h' k' hh hk => ?_, fun hnone => ?_⟩
      · obtain rfl := Option.some.inj (hhost.symm.trans hh)
        obtain rfl := Option.some.inj (hkernel.symm.trans hk)
        exact hstarts.imp (fun hb => ⟨hb.1.pending, hb.2.pending⟩)
          fun hb => ⟨hb.1.pending, hb.2.pending⟩
      · rcases hnone with hnone | hnone
        · rw [hhost] at hnone
          cases hnone
        · rw [hkernel] at hnone
          cases hnone

/-- In every interleaving, the host and the kernel thread come to each synchronisation together:
both have come as often as synchronisations have ended, up to the one that they are in. As soon as
both have come, one of them starts up, and each startup leaves one less until the synchronisation
ends. The only error is that of a host that waits for another thread, and a kernel thread is only
left unchecked by a host that ends the synchronisation without a startup of it. -/
theorem synchronizations_paired {tr : List (Transition AccTask Step)}
    (hrun : Run (ofPartial (step n)) .init tr s) :
    (∀ t, host n t ∨ kernel n t →
      calls t tr = s.synchronized + if (s.threads t).blckdInGlobalOp then 1 else 0) ∧
    NoneLost s ∧
    (∀ t startups s', step n s (.startupOut t startups) = some s' →
      s'.synchronized = s.synchronized + 1 ∨
        (s'.synchronized = s.synchronized ∧ s'.remaining < s.remaining)) ∧
    (∀ l, Enabled n s l → step n s l = none → ∃ t, l.caller = some t ∧ Mismatch n s t) ∧
    ∀ x ∈ tr, x.post.synchronized = x.pre.synchronized + 1 → Synchronizes n x := by
  have hphases := hrun.transition_invariant (phase_init n)
    fun _ _ _ hphase hstep => phase_step hphase hstep
  have hphase : Phase n s := hrun.invariant (phase_init n)
    fun _ _ _ hphase hstep => phase_step hphase hstep
  refine ⟨fun t ht => (entered_run hrun ht).symm, hphase.noneLost, ?_, ?_, ?_⟩
  · intro t startups s' hstep
    exact startupOut_step hphase hstep
  · intro l henabled hnone
    rcases taken hphase henabled with ⟨s', hsome, -⟩ | ⟨-, hmismatch⟩
    · rw [hnone] at hsome
      cases hsome
    · exact hmismatch
  · intro x hx hsync
    obtain ⟨hpre, -, hstep⟩ := hphases x hx
    exact synchronizes_step hpre hstep hsync

/-- The host comes first, both threads start up, and the host goes on behind its last startup. -/
def meeting : List Step :=
  let startups : Startups := ⟨true, true⟩
  [.call 0 (-1) startups, .call 1 (-1) startups, .startupOut 0 startups, .startupOut 1 startups,
    .comTimerOut 0]

theorem synchronizations_paired_meeting :
    ∃ tr s, Run (ofPartial (step 2)) .init tr s ∧ s.synchronized = 1 ∧
      (∀ t, host 2 t ∨ kernel 2 t →
        calls t tr = s.synchronized + if (s.threads t).blckdInGlobalOp then 1 else 0) ∧
      NoneLost s ∧
      (∀ t startups s', step 2 s (.startupOut t startups) = some s' →
        s'.synchronized = s.synchronized + 1 ∨
          (s'.synchronized = s.synchronized ∧ s'.remaining < s.remaining)) ∧
      (∀ l, Enabled 2 s l → step 2 s l = none → ∃ t, l.caller = some t ∧ Mismatch 2 s t) ∧
      ∀ x ∈ tr, x.post.synchronized = x.pre.synchronized + 1 → Synchronizes 2 x := by
  have hsome : (exec (step 2) .init meeting).isSome = true := by decide
  obtain ⟨⟨tr, s⟩, hexec⟩ := Option.isSome_iff_exists.mp hsome
  have hone : ((exec (step 2) .init meeting).map fun r => r.2.synchronized) = some 1 := by decide
  rw [hexec] at hone
  exact ⟨tr, s, run_of_exec hexec, Option.some.inj hone,
    synchronizations_paired (run_of_exec hexec)⟩

/-- A kernel thread that comes first and does no startup is not checked: the host waits for the
fourth thread. -/
example : ((exec (step 2) .init [.call 1 (-1) ⟨false, false⟩, .call 0 (-5) ⟨false, false⟩]).map
    fun r => (r.2.synchronized, kernelOfComm (r.2.threads 0).commId)) = some (1, 3) := by
  decide

end

end Dimemas.Model.AcceleratorSync
