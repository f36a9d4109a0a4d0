import Dimemas.Library.RingBuffer
import Dimemas.Model.Modules
/-!
# Asynchronous reading

A reader fills a ring buffer for each thread, and the simulator takes the actions from there. A
step of the reader and a look of the simulator at a buffer are the steps of the system. The bursts
get their durations when they are read.
-/

namespace Dimemas.Input.AsynchRead

open Dimemas.Library.RingBuffer
open Dimemas.Library.Transitions
open Dimemas.Model.Modules (ModulesMap Thread moduleEntrance moduleExit recomputeWorkUponModules)

/-- The actions of a trace. The times of bursts are in seconds in the trace, and in nanoseconds
behind `_get_next_action`. -/
inductive Action (α : Type*)
  | even (type value : Nat)
  | work (cpuTime : ℚ)
  | gpuBurst (cpuTime : ℚ)
  | other (a : α)
deriving DecidableEq

def Action.isBurst {α : Type*} : Action α → Bool
  | .work _ => true
  | .gpuBurst _ => true
  | _ => false

def Action.isWork {α : Type*} : Action α → Bool
  | .work _ => true
  | _ => false

/-- What an application and its configuration give to each thread, and the elements of a buffer.
`preemp` is `PREEMP_cycle` and `PREEMP_time`. -/
structure App (n : Nat) (α : Type*) where
  records : Fin n → List (Action α)
  table : ModulesMap
  relative : Fin n → ℚ
  accRelative : Fin n → ℚ
  taskOf : Fin n → Nat
  preemp : Option (Nat × ℚ)
  bsizePerThread : Nat

variable {n : Nat} {α : Type*}

/-- `PREEMP_overhead` when it is called for this time. -/
def App.preempOverhead (app : App n α) (count : Nat) : ℚ :=
  match app.preemp with
  | some (cycle, time) => if count % cycle = 0 then time else 0
  | none => 0

/-- What `_get_next_action` does with a record of a thread, whose task had some calls of
`PREEMP_overhead`. -/
def App.treat (app : App n α) (i : Fin n) (modules : Thread) (count : Nat) :
    Action α → Action α
  | .work cpuTime =>
      let cpuTime := recomputeWorkUponModules modules (cpuTime * 1000000000)
      let cpuTime := if app.relative i ≤ 0 then 0 else cpuTime / app.relative i
      .work (cpuTime + app.preempOverhead (count + 1))
  | .gpuBurst cpuTime =>
      let cpuTime :=
        if app.accRelative i = 0 then 0
        else if app.accRelative i < 0 then -app.accRelative i
        else cpuTime * 1000000000 / app.relative i
      .gpuBurst (cpuTime + app.preempOverhead (count + 1))
  | action => action

def App.execute (app : App n α) (modules : Thread) : Action α → Thread
  | .even type value =>
      if value ≠ 0 then moduleEntrance app.table modules type value
      else moduleExit modules type
  | _ => modules

/-- The actions of a thread that is read without a buffer: each one when those before it are
executed. -/
def App.synchActions (app : App n α) (i : Fin n) (modules : Thread) (count : Nat) :
    List (Action α) → List (Action α)
  | [] => []
  | r :: rest =>
      app.treat i modules count r ::
        app.synchActions i (app.execute modules r)
          (if r.isBurst then count + 1 else count) rest

def App.synch (app : App n α) (i : Fin n) : List (Action α) :=
  app.synchActions i ⟨[], false⟩ 0 (app.records i)

/-- Where the reader is: in the loop of `READ_Init_asynch`, at the condition of the outer loop of
`READ_fill_buffer_asynch`, at a thread, or in the inner loop of a thread. -/
inductive ReaderAt (n : Nat) (α : Type*)
  | init (i : Nat)
  | outer
  | thread (i : Nat)
  | check (i : Fin n) (k : Nat)
  | read (i : Fin n) (k : Nat)
  | publish (i : Fin n) (k : Nat) (action : Action α)
  | ended

/-- Where the simulator is: it executes actions, it looks at a buffer in `READ_get_next_action`, or
it has found it empty. -/
inductive SimulatorAt (n : Nat)
  | executes
  | looks (i : Fin n)
  | foundEmpty (i : Fin n)

/-- `readActions` and `obtained` are what a thread got from `_get_next_action` and from
`READ_get_next_action` so far, where `none` is `A_NIL`. -/
structure State (n : Nat) (α : Type*) where
  left : Fin n → List (Action α)
  modules : Fin n → Thread
  preempTable : Nat → Nat
  ring : Fin n → Buffer (Option (Action α))
  eofReached : Fin n → Bool
  reader : ReaderAt n α
  nthreadsEnded : Nat
  simulator : SimulatorAt n
  action : Fin n → Option (Action α)
  readActions : Fin n → List (Action α)
  obtained : Fin n → List (Option (Action α))

def State.initial (app : App n α) : State n α where
  left := app.records
  modules _ := ⟨[], false⟩
  preempTable _ := 0
  ring _ := ⟨fun _ => none, 0, 0⟩
  eofReached _ := false
  reader := .init 0
  nthreadsEnded := 0
  simulator := .executes
  action _ := none
  readActions _ := []
  obtained _ := []

def getNextAction (app : App n α) (s : State n α) (i : Fin n) : State n α × Option (Action α) :=
  match s.left i with
  | [] => ({ s with eofReached := Function.update s.eofReached i true }, none)
  | r :: rest =>
      let action := app.treat i (s.modules i) (s.preempTable (app.taskOf i)) r
      ({ s with
          left := Function.update s.left i rest
          preempTable :=
            if app.preemp.isSome && r.isBurst then
              Function.update s.preempTable (app.taskOf i) (s.preempTable (app.taskOf i) + 1)
            else s.preempTable
          readActions := Function.update s.readActions i (s.readActions i ++ [action]) },
        some action)

/-- The first action of a thread is put in its buffer by `READ_Init_asynch`. -/
def initThread (app : App n α) (s : State n α) (i : Fin n) : State n α :=
  let (s, action) := getNextAction app s i
  let ring := s.ring i
  { s with
    ring := Function.update s.ring i
      ⟨Function.update ring.slots ring.tail action, ring.head, ring.tail + 1⟩ }

def readerNext (app : App n α) (s : State n α) : Option (State n α) :=
  match s.reader with
  | .init i =>
      if h : i < n then some { initThread app s ⟨i, h⟩ with reader := .init (i + 1) }
      else some { s with reader := .outer }
  | .outer => some { s with reader := if n > s.nthreadsEnded then .thread 0 else .ended }
  | .thread i =>
      if h : i < n then
        some { s with
          reader := if s.eofReached ⟨i, h⟩ then .thread (i + 1) else .check ⟨i, h⟩ 0 }
      else some { s with reader := .outer }
  | .check i k =>
      some { s with
        reader :=
          if k < 10 ∧ ¬ (s.ring i).Full app.bsizePerThread then .read i k
          else .thread (i + 1) }
  | .read i k =>
      match getNextAction app s i with
      | (s, none) =>
          some { s with nthreadsEnded := s.nthreadsEnded + 1, reader := .thread (i + 1) }
      | (s, some action) => some { s with reader := .publish i k action }
  | .publish i k action =>
      some { s with
        ring := Function.update s.ring i ((s.ring i).push app.bsizePerThread (some action))
        reader := .check i (k + 1) }
  | .ended => none

/-- `READ_get_next_action` is called for a thread without an action, its loop goes on, or an action
is executed. -/
inductive Label (n : Nat)
  | reader
  | getNext (i : Fin n)
  | loop
  | execute (i : Fin n)

/-- What `READ_get_next_action` returns. -/
def State.obtain (s : State n α) (i : Fin n) (action : Option (Action α)) : State n α :=
  { s with
    action := Function.update s.action i action
    obtained := Function.update s.obtained i (s.obtained i ++ [action])
    simulator := .executes }

def ReaderAt.started : ReaderAt n α → Bool
  | .init _ => false
  | _ => true

def next (app : App n α) (s : State n α) : Label n → Option (State n α)
  | .reader => readerNext app s
  | .getNext i =>
      match s.simulator, s.action i with
      | .executes, none => if s.reader.started then some { s with simulator := .looks i } else none
      | _, _ => none
  | .loop =>
      match s.simulator with
      | .looks i =>
          if (s.ring i).head = (s.ring i).tail then some { s with simulator := .foundEmpty i }
          else
            some { s.obtain i ((s.ring i).slots (s.ring i).head) with
              ring := Function.update s.ring i ((s.ring i).pop app.bsizePerThread) }
      | .foundEmpty i =>
          if s.eofReached i then some (s.obtain i none) else some { s with simulator := .looks i }
      | .executes => none
  | .execute i =>
      match s.simulator, s.action i with
      | .executes, some action =>
          some { s with
            modules := Function.update s.modules i (app.execute (s.modules i) action)
            action := Function.update s.action i none }
      | _, _ => none

/-! ## What a thread has of its records -/

/-- The action that the reader has read for a thread and not yet put in the buffer. -/
def ReaderAt.publishing (i : Fin n) : ReaderAt n α → List (Action α)
  | .publish j _ action => if j = i then [action] else []
  | _ => []

/-- The part of the state that belongs to a thread. -/
structure View (α : Type*) where
  left : List (Action α)
  modules : Thread
  count : Nat
  ring : Buffer (Option (Action α))
  eof : Bool
  action : Option (Action α)
  publishing : List (Action α)
  readActions : List (Action α)
  obtained : List (Option (Action α))

def State.view (app : App n α) (s : State n α) (i : Fin n) : View α where
  left := s.left i
  modules := s.modules i
  count := if app.preemp.isSome then s.preempTable (app.taskOf i) else 0
  ring := s.ring i
  eof := s.eofReached i
  action := s.action i
  publishing := s.reader.publishing i
  readActions := s.readActions i
  obtained := s.obtained i

def View.waiting (app : App n α) (v : View α) : List (Action α) :=
  (v.ring.contents app.bsizePerThread).filterMap id ++ v.publishing

def View.ahead (app : App n α) (v : View α) : List (Action α) := v.action.toList ++ v.waiting app

def App.executeAll (app : App n α) (modules : Thread) (actions : List (Action α)) : Thread :=
  actions.foldl app.execute modules

def ratioInForce (modules : Thread) : Option (ℚ × ℚ) :=
  modules.modules.head?.map fun mod => (mod.ratio, mod.constBurstDuration)

/-- If the next record of a thread is a WORK, the actions ahead leave the module in force. -/
def View.Timely (app : App n α) (i : Fin n) (v : View α) : Prop :=
  v.left.head?.any Action.isWork → 0 < app.relative i →
    ratioInForce (app.executeAll v.modules (v.ahead app)) = ratioInForce v.modules

instance (app : App n α) (i : Fin n) (v : View α) : Decidable (v.Timely app i) :=
  inferInstanceAs (Decidable (_ → _ → _))

/-- The number of calls of `PREEMP_overhead` behind a record. -/
def View.nextCount (v : View α) (r : Action α) : Nat := if r.isBurst then v.count + 1 else v.count

def View.reads (v : View α) (rest : List (Action α)) (count : Nat) (action : Action α) : View α :=
  { v with
    left := rest
    count := count
    publishing := [action]
    readActions := v.readActions ++ [action] }

def View.publishes (size : Nat) (v : View α) (action : Action α) : View α :=
  { v with ring := v.ring.push size (some action), publishing := [] }

def View.takes (size : Nat) (v : View α) : View α :=
  { v with
    ring := v.ring.pop size
    action := v.ring.slots v.ring.head
    obtained := v.obtained ++ [v.ring.slots v.ring.head] }

/-- The actions that a thread gets are those without a buffer. -/
structure View.Sound (app : App n α) (i : Fin n) (v : View α) : Prop where
  inside : v.ring.Inside app.bsizePerThread
  slots : ∀ x ∈ v.ring.contents app.bsizePerThread, x.isSome
  flow : v.obtained.filterMap id ++ v.waiting app = v.readActions
  synch : v.readActions ++ app.synchActions i (app.executeAll v.modules (v.ahead app))
    (v.readActions.countP Action.isBurst) v.left = app.synch i
  count : app.preemp.isSome → v.count = v.readActions.countP Action.isBurst
  eof : v.eof = true → v.left = []
  results : ∃ m, v.obtained = (v.obtained.filterMap id).map some ++ List.replicate m none ∧
    (m ≠ 0 → v.eof = true ∧ v.waiting app = [])

section

variable {app : App n α} {i : Fin n} {v : View α} {r action : Action α} {rest : List (Action α)}

theorem recompute_of_ratioInForce {thread other : Thread}
    (h : ratioInForce thread = ratioInForce other) (cpuTime : ℚ) :
    recomputeWorkUponModules thread cpuTime = recomputeWorkUponModules other cpuTime := by
  have hrule (modules : Thread) : recomputeWorkUponModules modules cpuTime =
      match ratioInForce modules with
      | some (ratio, duration) =>
          if ratio = -1 then duration else if ratio = 0 then 0 else cpuTime / ratio
      | none => cpuTime := by
    unfold recomputeWorkUponModules ratioInForce
    cases modules.modules.head? <;> rfl
  rw [hrule, hrule, h]

theorem isBurst_treat (app : App n α) (i : Fin n) (modules : Thread) (count : Nat)
    (r : Action α) : (app.treat i modules count r).isBurst = r.isBurst := by
  cases r <;> rfl

theorem execute_treat (app : App n α) (i : Fin n) (modules other : Thread) (count : Nat)
    (r : Action α) : app.execute modules (app.treat i other count r) = app.execute modules r := by
  cases r <;> rfl

/-- A record that is read in time gets the duration that it has behind the actions ahead. -/
theorem View.Timely.treat_eq (h : v.Timely app i) (hleft : v.left.head? = some r) (count : Nat) :
    app.treat i v.modules count r =
      app.treat i (app.executeAll v.modules (v.ahead app)) count r := by
  cases r with
  | work cpuTime =>
      rw [View.Timely, hleft] at h
      by_cases hrelative : app.relative i ≤ 0
      · simp only [App.treat, if_pos hrelative]
      · have hforce := h rfl (not_le.mp hrelative)
        simp only [App.treat, recompute_of_ratioInForce hforce]
  | even type value => rfl
  | gpuBurst cpuTime => rfl
  | other a => rfl

theorem treat_of_none (h : app.preemp = none) (i : Fin n) (modules : Thread) (c d : Nat)
    (r : Action α) : app.treat i modules c r = app.treat i modules d r := by
  have hzero : ∀ count, app.preempOverhead count = 0 := by
    intro count
    rw [App.preempOverhead, h]
  cases r <;> simp only [App.treat, hzero]

theorem executeAll_append (app : App n α) (modules : Thread) (xs : List (Action α))
    (action : Action α) :
    app.executeAll modules (xs ++ [action]) = app.execute (app.executeAll modules xs) action := by
  simp [App.executeAll]

theorem waiting_reads (v : View α) (hpublishing : v.publishing = []) (count : Nat) :
    (v.reads rest count action).waiting app = v.waiting app ++ [action] := by
  simp [View.waiting, View.reads, hpublishing]

theorem ahead_reads (v : View α) (hpublishing : v.publishing = []) (count : Nat) :
    (v.reads rest count action).ahead app = v.ahead app ++ [action] := by
  rw [View.ahead, waiting_reads v hpublishing, View.ahead, List.append_assoc]
  rfl

theorem View.Sound.reads (h : v.Sound app i) (hleft : v.left = r :: rest)
    (hpublishing : v.publishing = []) (htimely : v.Timely app i)
    (haction : action = app.treat i v.modules v.count r) (count : Nat)
    (hcount : app.preemp.isSome → count = if r.isBurst then v.count + 1 else v.count)
    (heof : v.eof = false) : (v.reads rest count action).Sound app i := by
  have hbursts : (v.readActions ++ [action]).countP Action.isBurst =
      if r.isBurst then v.readActions.countP Action.isBurst + 1
      else v.readActions.countP Action.isBurst := by
    rw [List.countP_append, List.countP_singleton, haction, isBurst_treat]
    split <;> rfl
  constructor
  · exact h.inside
  · exact h.slots
  · rw [waiting_reads v hpublishing]
    show v.obtained.filterMap id ++ (v.waiting app ++ [action]) = v.readActions ++ [action]
    rw [← List.append_assoc, h.flow]
  · have hsame : action = app.treat i (app.executeAll v.modules (v.ahead app))
        (v.readActions.countP Action.isBurst) r := by
      rw [haction, htimely.treat_eq (by rw [hleft]; rfl)]
      cases hpreemp : app.preemp with
      | none => exact treat_of_none hpreemp ..
      | some p => rw [h.count (by simp [hpreemp])]
    have hsynch := h.synch
    rw [hleft, App.synchActions, ← hsame] at hsynch
    rw [ahead_reads v hpublishing]
    show (v.readActions ++ [action]) ++ app.synchActions i
      (app.executeAll v.modules (v.ahead app ++ [action]))
      ((v.readActions ++ [action]).countP Action.isBurst) rest = app.synch i
    rw [executeAll_append, hbursts, List.append_assoc, haction, execute_treat, ← haction]
    exact hsynch
  · intro hpreemp
    show count = (v.readActions ++ [action]).countP Action.isBurst
    rw [hbursts, hcount hpreemp, h.count hpreemp]
  · intro htrue
    have hfalse : (v.reads rest count action).eof = false := heof
    rw [hfalse] at htrue
    cases htrue
  · obtain ⟨m, hobtained, hm⟩ := h.results
    refine ⟨m, hobtained, fun hne => ?_⟩
    rw [heof] at hm
    cases (hm hne).1

theorem View.Sound.publishes (h : v.Sound app i) (hpublishing : v.publishing = [action])
    (hfull : ¬ v.ring.Full app.bsizePerThread) :
    (v.publishes app.bsizePerThread action).Sound app i := by
  have hcontents := contents_push h.inside hfull (a := some action)
  have hwaiting : (v.publishes app.bsizePerThread action).waiting app = v.waiting app := by
    simp [View.waiting, View.publishes, hcontents, hpublishing]
  have hahead : (v.publishes app.bsizePerThread action).ahead app = v.ahead app := by
    rw [View.ahead, hwaiting, View.ahead]
    rfl
  constructor
  · exact h.inside.push
  · intro x hx
    have hx' : x ∈ (v.ring.push app.bsizePerThread (some action)).contents
      app.bsizePerThread := hx
    rw [hcontents] at hx'
    rcases List.mem_append.mp hx' with hx' | hx'
    · exact h.slots x hx'
    · rw [List.mem_singleton.mp hx']
      rfl
  · rw [hwaiting]
    exact h.flow
  · rw [hahead]
    exact h.synch
  · exact h.count
  · exact h.eof
  · rw [hwaiting]
    exact h.results

theorem View.Sound.endOfFile (h : v.Sound app i) (hleft : v.left = []) :
    View.Sound app i { v with eof := true } where
  inside := h.inside
  slots := h.slots
  flow := h.flow
  synch := h.synch
  count := h.count
  eof _ := hleft
  results := by
    obtain ⟨m, hobtained, hm⟩ := h.results
    exact ⟨m, hobtained, fun hne => ⟨rfl, (hm hne).2⟩⟩

theorem View.Sound.takes (h : v.Sound app i) (hne : v.ring.head ≠ v.ring.tail)
    (haction : v.action = none) : (v.takes app.bsizePerThread).Sound app i := by
  have hcontents := contents_pop h.inside hne
  obtain ⟨action, hslot⟩ := Option.isSome_iff_exists.mp
    (h.slots (v.ring.slots v.ring.head) (by simp [hcontents]))
  rw [hslot] at hcontents
  have hwaiting : v.waiting app = action :: (v.takes app.bsizePerThread).waiting app := by
    simp [View.waiting, View.takes, hcontents]
  have hahead : (v.takes app.bsizePerThread).ahead app = v.ahead app := by
    rw [View.ahead, View.ahead, hwaiting, haction]
    show (v.ring.slots v.ring.head).toList ++ _ = _
    rw [hslot]
    rfl
  have hobtains : (v.takes app.bsizePerThread).obtained = v.obtained ++ [some action] := by
    show v.obtained ++ [v.ring.slots v.ring.head] = _
    rw [hslot]
  constructor
  · exact h.inside.pop
  · intro x hx
    apply h.slots x
    rw [hcontents]
    exact List.mem_cons_of_mem _ hx
  · have hflow := h.flow
    rw [hwaiting] at hflow
    rw [hobtains, List.filterMap_append, List.append_assoc]
    exact hflow
  · rw [hahead]
    exact h.synch
  · exact h.count
  · exact h.eof
  · obtain ⟨m, hobtained, hm⟩ := h.results
    have hzero : m = 0 := by
      by_contra hne
      have hnil := (hm hne).2
      rw [hwaiting] at hnil
      cases hnil
    rw [hzero, List.replicate_zero, List.append_nil] at hobtained
    refine ⟨0, ?_, fun hne => absurd rfl hne⟩
    rw [hobtains, List.filterMap_append, List.map_append, ← hobtained, List.replicate_zero,
      List.append_nil]
    rfl

theorem View.Sound.obtainNil (h : v.Sound app i) (heq : v.ring.head = v.ring.tail)
    (heof : v.eof = true) (hpublishing : v.publishing = []) (haction : v.action = none) :
    View.Sound app i { v with action := none, obtained := v.obtained ++ [none] } := by
  have hcontents := (contents_eq_nil_iff h.inside).mpr heq
  have hwaiting : v.waiting app = [] := by simp [View.waiting, hcontents, hpublishing]
  constructor
  · exact h.inside
  · exact h.slots
  · show (v.obtained ++ [none]).filterMap id ++ v.waiting app = v.readActions
    rw [List.filterMap_append]
    simpa using h.flow
  · have hsynch := h.synch
    simp only [View.ahead, haction] at hsynch ⊢
    exact hsynch
  · exact h.count
  · exact h.eof
  · obtain ⟨m, hobtained, -⟩ := h.results
    refine ⟨m + 1, ?_, fun _ => ⟨heof, hwaiting⟩⟩
    show v.obtained ++ [none] = ((v.obtained ++ [none]).filterMap id).map some ++ _
    have hnone : [(none : Option (Action α))].filterMap id = [] := rfl
    rw [List.filterMap_append, hnone, List.append_nil, List.replicate_succ', ← List.append_assoc,
      ← hobtained]

theorem View.Sound.execute (h : v.Sound app i) (haction : v.action = some action) :
    View.Sound app i { v with
      modules := app.execute v.modules action, action := none } where
  inside := h.inside
  slots := h.slots
  flow := h.flow
  synch := by
    have hsynch := h.synch
    simp only [View.ahead, haction] at hsynch
    exact hsynch
  count := h.count
  eof := h.eof
  results := h.results

/-- The results of `READ_get_next_action` are the actions without a buffer. -/
theorem View.Sound.obtained (h : v.Sound app i) {j : Nat}
    {result : Option (Action α)} (hj : v.obtained[j]? = some result) :
    result = (app.synch i)[j]? := by
  obtain ⟨m, hobtained, hm⟩ := h.results
  have hsynch := h.synch
  rw [← h.flow] at hsynch
  set delivered := v.obtained.filterMap id with hdelivered
  rw [hobtained] at hj
  by_cases hlt : j < delivered.length
  · rw [List.getElem?_append_left (by simpa using hlt), List.getElem?_map,
      List.getElem?_eq_getElem hlt] at hj
    rw [← hsynch, List.append_assoc, List.getElem?_append_left hlt, List.getElem?_eq_getElem hlt]
    exact (Option.some.inj hj).symm
  · have hge : delivered.length ≤ j := Nat.le_of_not_lt hlt
    rw [List.getElem?_append_right (by simpa using hge)] at hj
    have hresult : result = none := by
      have hmem := List.mem_of_getElem? hj
      exact (List.mem_replicate.mp hmem).2
    have hne : m ≠ 0 := by
      rintro rfl
      simp at hj
    obtain ⟨heof, hwaiting⟩ := hm hne
    rw [hwaiting, h.eof heof, App.synchActions, List.append_nil, List.append_nil] at hsynch
    rw [hresult, ← hsynch, List.getElem?_eq_none hge]

end

end Dimemas.Input.AsynchRead
