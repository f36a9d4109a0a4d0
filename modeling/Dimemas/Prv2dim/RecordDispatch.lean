import Dimemas.Library.Demultiplexing
import Dimemas.Prv2dim.RecordSelection
/-!
# The records of every thread

The loop of `Translate` over the selected records. Each record goes to the translation of its
thread, with idle blocks where the states of the thread leave a gap in front of a record.
-/

namespace Dimemas.Prv2dim.RecordDispatch

open Dimemas.Library.Demultiplexing
open Dimemas.Prv2dim.TraceParser
open Dimemas.Prv2dim.RecordSelection

structure CurrentState where
  beginTime : UInt64
  endTime : UInt64
  stateValue : Int32
deriving DecidableEq

/-- What `PushRecord` is called with. -/
inductive Pushed
  | record (r : ParaverRecord)
  | communication (c : PartialCommunication)
deriving DecidableEq

def getPlace : ParaverRecord → Place
  | .state place _ _ _ => place
  | .event place _ _ => place
  | .communication src _ _ _ _ _ _ _ => src
  | .globalOp place _ _ _ _ _ _ _ => place

def idleBlock (place : Place) (beginTime endTime : UInt64) : List Pushed :=
  [.record (.event place beginTime [(0, 1)]), .record (.event place endTime [(0, 0)])]

/-- `CheckIdleState`: the thread is idle from the end of its last state on. -/
def checkIdleState (last : Option CurrentState) (place : Place) (timestamp : UInt64) :
    Option CurrentState × List Pushed :=
  match last with
  | none => (none, [])
  | some state =>
      if state.endTime < timestamp then
        (some ⟨state.endTime, timestamp, 0⟩, idleBlock place state.endTime timestamp)
      else (some state, [])

/-- An event with several types is pushed one type at a time. -/
def subEvents : ParaverRecord → List Pushed
  | .event place timestamp content =>
      if 1 < content.length then content.map fun tv => .record (.event place timestamp [tv])
      else [.record (.event place timestamp content)]
  | r => [.record r]

def pushBehindIdle (last : Option CurrentState) (place : Place) (timestamp : UInt64)
    (records : List Pushed) : Option CurrentState × List Pushed :=
  let (last, idle) := checkIdleState last place timestamp
  (last, idle ++ records)

def pushRecords (last : Option CurrentState) : Selected → Option CurrentState × List Pushed
  | .trace (.state place beginTime endTime stateValue) =>
      (some ⟨beginTime, endTime, stateValue⟩,
        if stateValue = 0 then idleBlock place beginTime endTime else [])
  | .trace r => pushBehindIdle last (getPlace r) (getTimestamp r) (subEvents r)
  | .communication c => pushBehindIdle last c.place c.timestamp [.communication c]
  | .failed _ => (last, [])
  | .finished => (last, [])

/-- The conversion of `GetTaskId() - 1` to `UINT32`. -/
def idIndex (id : Int32) : Nat := (id - 1).toUInt32.toNat

/-- The record that is not `NULL`. -/
def selectedPlace : Selected → Option Place
  | .trace r => some (getPlace r)
  | .communication c => some c.place
  | .failed _ => none
  | .finished => none

/-- A thread of `TranslationInfo`, which has the number of threads of every task. -/
def IsThread (threads : List Nat) (key : Nat × Nat) : Prop :=
  key.1 < threads.length ∧ key.2 < threads.getD key.1 0

instance (threads : List Nat) (key : Nat × Nat) : Decidable (IsThread threads key) :=
  inferInstanceAs (Decidable (_ ∧ _))

def threadOf (threads : List Nat) (place : Place) : Option (Nat × Nat) :=
  let key := (idIndex place.taskId, idIndex place.threadId)
  if IsThread threads key then some key else none

def maxThreads (threads : List Nat) : Nat := threads.foldl max 0

/-- The index of `current_state`. -/
def cellOf (threads : List Nat) (key : Nat × Nat) : Nat := key.1 * maxThreads threads + key.2

/-- The calls of `PushRecord` for all threads, and `WrongRecordsFound`. -/
structure Dispatched where
  pushed : List ((Nat × Nat) × Pushed)
  wrongRecordsFound : Nat

/-- The loop of `Translate`, which ends when there is no record. -/
def translateRecords (threads : List Nat) : List (Option CurrentState) → List Selected → Dispatched
  | _, [] => ⟨[], 0⟩
  | currentState, a :: as =>
      match selectedPlace a with
      | none => ⟨[], 0⟩
      | some place =>
          match threadOf threads place with
          | none =>
              let rest := translateRecords threads currentState as
              ⟨rest.pushed, rest.wrongRecordsFound + 1⟩
          | some key =>
              let (state, records) := pushRecords (currentState.getD (cellOf threads key) none) a
              let rest := translateRecords threads
                (currentState.set (cellOf threads key) state) as
              ⟨records.map (key, ·) ++ rest.pushed, rest.wrongRecordsFound⟩

/-- `calloc` of `current_state`, and the loop. -/
def translate (threads : List Nat) (as : List Selected) : Dispatched :=
  translateRecords threads (List.replicate (threads.length * maxThreads threads) none) as

/-! ## The records of a thread -/

def translated (as : List Selected) : List Selected :=
  as.takeWhile fun a => (selectedPlace a).isSome

def keyOf (threads : List Nat) (a : Selected) : Option (Nat × Nat) :=
  (selectedPlace a).bind (threadOf threads)

def keyed (threads : List Nat) (as : List Selected) : List ((Nat × Nat) × Selected) :=
  (translated as).filterMap fun a => (keyOf threads a).map fun key => (key, a)

section

variable {threads : List Nat} {as : List Selected} {a : Selected} {key : Nat × Nat}

theorem le_maxThreads {n : Nat} (h : n ∈ threads) : n ≤ maxThreads threads := by
  have hfold : ∀ (ns : List Nat) (m : Nat), m ≤ ns.foldl max m ∧ ∀ n ∈ ns, n ≤ ns.foldl max m := by
    intro ns
    induction ns with
    | nil => exact fun m => ⟨le_refl m, fun n hn => by cases hn⟩
    | cons k ns ih =>
        intro m
        obtain ⟨hfirst, hrest⟩ := ih (max m k)
        refine ⟨(Nat.le_max_left m k).trans hfirst, fun n hn => ?_⟩
        rcases List.mem_cons.mp hn with rfl | hn
        · exact (Nat.le_max_right m n).trans hfirst
        · exact hrest n hn
  exact (hfold threads 0).2 n h

theorem IsThread.lt (h : IsThread threads key) : key.2 < maxThreads threads := by
  have hmem : threads.getD key.1 0 ∈ threads := by
    rw [List.getD_eq_getElem?_getD, List.getElem?_eq_getElem h.1, Option.getD_some]
    exact List.getElem_mem h.1
  exact Nat.lt_of_lt_of_le h.2 (le_maxThreads hmem)

theorem isThread_of_keyOf (h : keyOf threads a = some key) : IsThread threads key := by
  obtain ⟨place, -, hplace⟩ := Option.bind_eq_some_iff.mp h
  unfold threadOf at hplace
  simp only at hplace
  split at hplace
  · next hthread =>
      obtain rfl := Option.some.inj hplace
      exact hthread
  · cases hplace

theorem mem_keyed {x : (Nat × Nat) × Selected} (h : x ∈ keyed threads as) :
    keyOf threads x.2 = some x.1 := by
  obtain ⟨a, -, ha⟩ := List.mem_filterMap.mp h
  obtain ⟨key, hkey, rfl⟩ := Option.map_eq_some_iff.mp ha
  exact hkey

/-- The loop is the one over a table with a cell for each thread. -/
theorem translateRecords_eq (currentState : List (Option CurrentState)) :
    (translateRecords threads currentState as).pushed =
        sharedOutputs pushRecords (cellOf threads) none currentState (keyed threads as) ∧
      (translateRecords threads currentState as).wrongRecordsFound =
        (translated as).countP fun a => (keyOf threads a).isNone := by
  induction as generalizing currentState with
  | nil => exact ⟨rfl, rfl⟩
  | cons a as ih =>
      cases hplace : selectedPlace a with
      | none =>
          have hnil : translated (a :: as) = [] := by
            rw [translated, List.takeWhile_cons, hplace]
            rfl
          rw [keyed, hnil, translateRecords, hplace]
          exact ⟨rfl, rfl⟩
      | some place =>
          have hcons : translated (a :: as) = a :: translated as := by
            rw [translated, List.takeWhile_cons, hplace]
            rfl
          have hkey : keyOf threads a = threadOf threads place := by
            rw [keyOf, hplace, Option.bind_some]
          rw [keyed, hcons, List.filterMap_cons, List.countP_cons, hkey, translateRecords, hplace]
          cases hthread : threadOf threads place with
          | none =>
              obtain ⟨hpushed, hwrong⟩ := ih currentState
              simp only [hthread]
              exact ⟨hpushed, congrArg (· + 1) hwrong⟩
          | some key =>
              obtain ⟨hpushed, hwrong⟩ := ih (currentState.set (cellOf threads key)
                (pushRecords (currentState.getD (cellOf threads key) none) a).1)
              simp only [hthread]
              exact ⟨congrArg _ hpushed, hwrong⟩

theorem ofKey_keyed : ofKey key (keyed threads as) =
    (translated as).filter fun a => keyOf threads a = some key := by
  rw [ofKey, keyed, List.filterMap_filterMap, ← List.filterMap_eq_filter]
  congr 1
  funext a
  cases hkey : keyOf threads a with
  | none => simp [hkey, Option.guard]
  | some key' =>
      by_cases hsame : key' = key
      · simp [hkey, hsame, Option.guard]
      · simp [hkey, hsame, Option.guard]

/-- What a thread is given depends on its own records alone. -/
theorem ofKey_translate (h : IsThread threads key) :
    ofKey key (translate threads as).pushed =
      outputs pushRecords none ((translated as).filter fun a => keyOf threads a = some key) := by
  rw [translate, (translateRecords_eq _).1, ofKey_sharedOutputs, ofKey_keyed]
  · congr 1
    rw [List.getD_eq_getElem?_getD, List.getElem?_replicate]
    split <;> rfl
  · intro x hx
    have hthread := isThread_of_keyOf (mem_keyed hx)
    rw [List.length_replicate]
    exact row_lt hthread.1 hthread.lt
  · intro x hx heq
    have hthread := isThread_of_keyOf (mem_keyed hx)
    obtain ⟨htask, hthread⟩ := row_injective hthread.lt h.lt heq
    exact Prod.ext htask hthread

end

/-! ## States and idle blocks -/

/-- A part of what a thread is given: a record of it, or an idle block in a gap of its states. -/
inductive Piece
  | own (a : Selected)
  | idle (place : Place) (beginTime endTime : UInt64)

def Piece.pushed : Piece → List Pushed
  | own a => (pushRecords none a).2
  | idle place beginTime endTime => idleBlock place beginTime endTime

def Piece.record : Piece → Option Selected
  | own a => some a
  | idle _ _ _ => none

def interval : Selected → Option (Nat × Nat)
  | .trace (.state _ beginTime endTime _) => some (beginTime.toNat, endTime.toNat)
  | _ => none

def Piece.interval : Piece → Option (Nat × Nat)
  | own a => RecordDispatch.interval a
  | idle _ beginTime endTime => some (beginTime.toNat, endTime.toNat)

/-- The idle block in front of a record that is not a state. -/
def gapBefore (last : Option CurrentState) (a : Selected) : List Piece :=
  match last, selectedPlace a, interval a with
  | some state, some place, none =>
      if state.endTime.toNat < a.time then
        [.idle place state.endTime (UInt64.ofNat a.time)]
      else []
  | _, _, _ => []

def pieces : Option CurrentState → List Selected → List Piece
  | _, [] => []
  | last, a :: as => gapBefore last a ++ .own a :: pieces (pushRecords last a).1 as

/-- The records of a thread are in the order of their times, and a state begins when the ones in
front of it have ended. -/
structure InOrder (as : List Selected) : Prop where
  times : as.Pairwise fun a b => a.time ≤ b.time
  states : (as.filterMap interval).Pairwise fun x y => x.2 ≤ y.1
  ends : ∀ x ∈ as.filterMap interval, x.1 ≤ x.2

/-- A record that is not a state is not behind the end of the last interval in front of it. -/
def Covered : Option Nat → List Piece → Prop
  | _, [] => True
  | lastEnd, p :: ps =>
      (∀ e ∈ lastEnd, ∀ a ∈ p.record, a.time ≤ e ∨ (interval a).isSome) ∧
        Covered ((p.interval.map Prod.snd).or lastEnd) ps

section

variable {last : Option CurrentState} {a : Selected} {as : List Selected}

theorem time_trace (r : ParaverRecord) : UInt64.ofNat (Selected.trace r).time = getTimestamp r :=
  UInt64.ofNat_toNat

theorem time_communication (c : PartialCommunication) :
    UInt64.ofNat (Selected.communication c).time = c.timestamp := UInt64.ofNat_toNat

theorem pushRecords_state {x : Nat × Nat} (h : interval a = some x) (last : Option CurrentState) :
    ∃ state, (pushRecords last a).1 = some state ∧ state.endTime.toNat = x.2 ∧ a.time = x.1 ∧
      gapBefore last a = [] ∧ (pushRecords last a).2 = (pushRecords none a).2 := by
  cases a with
  | trace r =>
      cases r with
      | state place beginTime endTime stateValue =>
          obtain rfl := Option.some.inj h
          refine ⟨⟨beginTime, endTime, stateValue⟩, rfl, rfl, rfl, ?_, rfl⟩
          cases last <;> rfl
      | event => cases h
      | communication => cases h
      | globalOp => cases h
  | communication c => cases h
  | failed message => cases h
  | finished => cases h

theorem pushRecords_other {place : Place} (hplace : selectedPlace a = some place)
    (h : interval a = none) (last : Option CurrentState) :
    pushRecords last a =
      pushBehindIdle last place (UInt64.ofNat a.time) (pushRecords none a).2 := by
  cases a with
  | trace r =>
      cases r with
      | state => cases h
      | event place' timestamp content =>
          obtain rfl := Option.some.inj hplace
          rw [time_trace]
          rfl
      | communication src logSend phySend dst logRecv phyRecv size tag =>
          obtain rfl := Option.some.inj hplace
          rw [time_trace]
          rfl
      | globalOp place' timestamp communicatorId sendSize recvSize globalOpId rootTaskId root =>
          obtain rfl := Option.some.inj hplace
          rw [time_trace]
          rfl
  | communication c =>
      obtain rfl := Option.some.inj hplace
      rw [time_communication]
      rfl
  | failed message => cases hplace
  | finished => cases hplace

theorem toNat_time (a : Selected) : (UInt64.ofNat a.time).toNat = a.time := by
  cases a with
  | trace r => exact congrArg UInt64.toNat (time_trace r)
  | communication c => exact congrArg UInt64.toNat (time_communication c)
  | failed message => rfl
  | finished => rfl

theorem pushRecords_gap {place : Place} {state : CurrentState}
    (hplace : selectedPlace a = some place) (h : interval a = none)
    (hgap : state.endTime.toNat < a.time) :
    gapBefore (some state) a = [.idle place state.endTime (UInt64.ofNat a.time)] ∧
      pushRecords (some state) a =
        (some ⟨state.endTime, UInt64.ofNat a.time, 0⟩,
          idleBlock place state.endTime (UInt64.ofNat a.time) ++ (pushRecords none a).2) := by
  constructor
  · simp only [gapBefore, hplace, h]
    rw [if_pos hgap]
  · have hlt : state.endTime < UInt64.ofNat a.time := by
      rw [UInt64.lt_iff_toNat_lt, toNat_time]
      exact hgap
    rw [pushRecords_other hplace h, pushBehindIdle, checkIdleState]
    rw [if_pos hlt]

theorem pushRecords_noGap {place : Place} (hplace : selectedPlace a = some place)
    (h : interval a = none) (hgap : ∀ state ∈ last, a.time ≤ state.endTime.toNat) :
    gapBefore last a = [] ∧ pushRecords last a = (last, (pushRecords none a).2) := by
  cases last with
  | none => exact ⟨rfl, pushRecords_other hplace h none⟩
  | some state =>
      have hle := hgap state rfl
      constructor
      · simp only [gapBefore, hplace, h]
        rw [if_neg (Nat.not_lt.mpr hle)]
      · have hnot : ¬ state.endTime < UInt64.ofNat a.time := by
          rw [UInt64.lt_iff_toNat_lt, toNat_time]
          exact Nat.not_lt.mpr hle
        rw [pushRecords_other hplace h, pushBehindIdle, checkIdleState]
        simp only
        rw [if_neg hnot]
        rfl

/-- The last state of a thread ends before a record of it, or it does not. -/
theorem gap_cases (last : Option CurrentState) (a : Selected) :
    (∃ state, last = some state ∧ state.endTime.toNat < a.time) ∨
      ∀ state ∈ last, a.time ≤ state.endTime.toNat := by
  cases last with
  | none =>
      right
      intro state hstate
      cases hstate
  | some state =>
      rcases Nat.lt_or_ge state.endTime.toNat a.time with hlt | hge
      · exact .inl ⟨state, rfl, hlt⟩
      · right
        intro state' hstate
        obtain rfl := Option.some.inj hstate
        exact hge

theorem outputs_eq_pieces (has : ∀ a ∈ as, (selectedPlace a).isSome) :
    outputs pushRecords last as = (pieces last as).flatMap Piece.pushed := by
  induction as generalizing last with
  | nil => rfl
  | cons a as ih =>
      have htail := @ih (pushRecords last a).1 fun b hb => has b (List.mem_cons_of_mem _ hb)
      have hfirst : (pushRecords last a).2 =
          (gapBefore last a).flatMap Piece.pushed ++ (pushRecords none a).2 := by
        cases hstate : interval a with
        | some x =>
            obtain ⟨_, -, -, -, hgap, hsame⟩ := pushRecords_state hstate last
            rw [hgap, hsame]
            rfl
        | none =>
            obtain ⟨place, hplace⟩ := Option.isSome_iff_exists.mp (has a List.mem_cons_self)
            rcases gap_cases last a with ⟨state, rfl, hlt⟩ | hle
            · obtain ⟨hgap, hpush⟩ := pushRecords_gap hplace hstate hlt
              rw [hgap, hpush, List.flatMap_singleton]
              rfl
            · obtain ⟨hgap, hpush⟩ := pushRecords_noGap hplace hstate hle
              rw [hgap, hpush]
              rfl
      rw [outputs, pieces, htail, hfirst, List.flatMap_append, List.flatMap_cons,
        List.append_assoc]
      rfl

theorem record_pieces : (pieces last as).filterMap Piece.record = as := by
  induction as generalizing last with
  | nil => rfl
  | cons a as ih =>
      have hgap : (gapBefore last a).filterMap Piece.record = [] := by
        unfold gapBefore
        split
        · split <;> rfl
        · rfl
      rw [pieces, List.filterMap_append, hgap, List.nil_append, List.filterMap_cons]
      exact congrArg (a :: ·) ih

theorem InOrder.tail (h : InOrder (a :: as)) : InOrder as := by
  have hsub : (as.filterMap interval).Sublist ((a :: as).filterMap interval) :=
    (List.sublist_cons_self a as).filterMap interval
  exact ⟨(List.pairwise_cons.mp h.times).2, h.states.sublist hsub,
    fun x hx => h.ends x (hsub.subset hx)⟩

theorem InOrder.time_le (h : InOrder (a :: as)) {x : Nat × Nat} (hx : x ∈ as.filterMap interval) :
    a.time ≤ x.1 := by
  obtain ⟨b, hb, hbx⟩ := List.mem_filterMap.mp hx
  obtain ⟨_, -, -, htime, -, -⟩ := pushRecords_state hbx none
  rw [← htime]
  exact (List.pairwise_cons.mp h.times).1 b hb

/-- The intervals of some pieces follow each other from a time on, and a record that is not a state
is not behind the last one in front of it. -/
structure Tiled (lastEnd : Option Nat) (ps : List Piece) : Prop where
  chain : (ps.filterMap Piece.interval).Pairwise fun x y => x.2 ≤ y.1
  bound : ∀ e ∈ lastEnd, ∀ x ∈ ps.filterMap Piece.interval, e ≤ x.1
  covered : Covered lastEnd ps

section

variable {lastEnd : Option Nat} {ps : List Piece}

theorem tiled_nil (lastEnd : Option Nat) : Tiled lastEnd [] :=
  ⟨.nil, fun _ _ _ hx => (by cases hx), trivial⟩

/-- A state or an idle block goes in front. -/
theorem Tiled.cons_interval {x : Nat × Nat} (h : Tiled (some x.2) ps) (p : Piece)
    (hp : p.interval = some x)
    (hle : x.1 ≤ x.2) (hbound : ∀ e ∈ lastEnd, e ≤ x.1)
    (hrecord : ∀ a ∈ p.record, (interval a).isSome) : Tiled lastEnd (p :: ps) := by
  have hintervals := List.filterMap_cons_some (l := ps) hp
  refine ⟨?_, ?_, fun _ _ a ha => .inr (hrecord a ha), ?_⟩
  · rw [hintervals]
    exact List.pairwise_cons.mpr ⟨h.bound x.2 rfl, h.chain⟩
  · intro e he y hy
    rw [hintervals] at hy
    rcases List.mem_cons.mp hy with rfl | hy
    · exact hbound e he
    · calc e ≤ x.1 := hbound e he
        _ ≤ x.2 := hle
        _ ≤ y.1 := h.bound x.2 rfl y hy
  · rw [hp]
    exact h.covered

theorem Tiled.cons_other (h : Tiled lastEnd ps) (p : Piece) (hp : p.interval = none)
    (htime : ∀ e ∈ lastEnd, ∀ a ∈ p.record, a.time ≤ e) : Tiled lastEnd (p :: ps) := by
  have hintervals := List.filterMap_cons_none (l := ps) hp
  refine ⟨hintervals ▸ h.chain, hintervals ▸ h.bound, fun e he a ha => .inl (htime e he a ha), ?_⟩
  rw [hp]
  exact h.covered

end

def lastEnd (last : Option CurrentState) : Option Nat := last.map fun state => state.endTime.toNat

/-- A gap between two states is filled up to the last other record in it. -/
theorem pieces_tiled (has : ∀ a ∈ as, (selectedPlace a).isSome) (h : InOrder as)
    (hlast : ∀ e ∈ lastEnd last, ∀ x ∈ as.filterMap interval, e ≤ x.1) :
    Tiled (lastEnd last) (pieces last as) := by
  induction as generalizing last with
  | nil => exact tiled_nil _
  | cons a as ih =>
      have hplaces : ∀ b ∈ as, (selectedPlace b).isSome :=
        fun b hb => has b (List.mem_cons_of_mem _ hb)
      cases hstate : interval a with
      | some x =>
          obtain ⟨state, hpush, hend, -, hgap, -⟩ := pushRecords_state hstate last
          have hcons := List.filterMap_cons_some (l := as) hstate
          have hmem : x ∈ (a :: as).filterMap interval := hcons ▸ List.mem_cons_self
          have hstates := h.states
          rw [hcons] at hstates
          have hnew : lastEnd (some state) = some x.2 := congrArg some hend
          have hrest : Tiled (lastEnd (some state)) (pieces (some state) as) := by
            apply ih hplaces h.tail
            intro e he y hy
            rw [hnew] at he
            obtain rfl := Option.some.inj he
            exact (List.pairwise_cons.mp hstates).1 y hy
          rw [hnew] at hrest
          rw [pieces, hgap, hpush, List.nil_append]
          apply hrest.cons_interval (.own a) hstate (h.ends x hmem)
          · exact fun e he => hlast e he x hmem
          · intro b hb
            obtain rfl : a = b := Option.some.inj hb
            rw [hstate]
            rfl
      | none =>
          obtain ⟨place, hplace⟩ := Option.isSome_iff_exists.mp (has a List.mem_cons_self)
          rw [List.filterMap_cons_none hstate] at hlast
          rcases gap_cases last a with ⟨state, rfl, hlt⟩ | hle
          · obtain ⟨hgap, hpush⟩ := pushRecords_gap hplace hstate hlt
            have hnew : lastEnd (some ⟨state.endTime, UInt64.ofNat a.time, 0⟩) = some a.time :=
              congrArg some (toNat_time a)
            have hrest := @ih (some ⟨state.endTime, UInt64.ofNat a.time, 0⟩) hplaces h.tail
              fun e he x hx => by
                rw [hnew] at he
                obtain rfl := Option.some.inj he
                exact h.time_le hx
            rw [hnew] at hrest
            have hown : Tiled (some a.time)
                (.own a :: pieces (some ⟨state.endTime, UInt64.ofNat a.time, 0⟩) as) := by
              apply hrest.cons_other (.own a) hstate
              intro e he b hb
              obtain rfl : a = b := Option.some.inj hb
              exact le_of_eq (Option.some.inj he)
            have hidle : (Piece.idle place state.endTime (UInt64.ofNat a.time)).interval =
                some (state.endTime.toNat, a.time) := by
              rw [← toNat_time a, Piece.interval, UInt64.ofNat_toNat]
            rw [pieces, hgap, hpush]
            apply hown.cons_interval _ hidle (Nat.le_of_lt hlt)
            · intro e he
              exact le_of_eq (Option.some.inj he).symm
            · intro b hb
              cases hb
          · obtain ⟨hgap, hpush⟩ := pushRecords_noGap hplace hstate hle
            rw [pieces, hgap, hpush, List.nil_append]
            apply (ih hplaces h.tail hlast).cons_other (.own a) hstate
            intro e he b hb
            obtain rfl : a = b := Option.some.inj hb
            obtain ⟨state, hlastState, rfl⟩ := Option.map_eq_some_iff.mp he
            exact hle state hlastState

end

/-! ## All threads -/

section

variable {threads : List Nat} {key : Nat × Nat}

def recordsOf (threads : List Nat) (key : Nat × Nat) (as : List Selected) : List Selected :=
  (translated as).filter fun a => keyOf threads a = some key

theorem isSome_of_mem_recordsOf {as : List Selected} :
    ∀ a ∈ recordsOf threads key as, (selectedPlace a).isSome := by
  intro a ha
  obtain ⟨place, hplace, -⟩ := Option.bind_eq_some_iff.mp
    (of_decide_eq_true (List.mem_filter.mp ha).2)
  rw [hplace]
  rfl

/-- Every thread is given its own records in their order, each of them once, and idle blocks between
them, whatever the records of the other threads are. If the records are in the order of their times
and the states do not overlap, the states and the idle blocks do not overlap either, and behind the
first state every other record has a state or an idle block in front of it that does not end before
it. The records of no thread are counted. -/
theorem records_dispatched (as : List Selected) (hkey : IsThread threads key) :
    (∃ ps : List Piece,
      ofKey key (translate threads as).pushed = ps.flatMap Piece.pushed ∧
      ps.filterMap Piece.record = recordsOf threads key as ∧
      (InOrder (recordsOf threads key as) → Tiled none ps)) ∧
      (∀ bs, recordsOf threads key bs = recordsOf threads key as →
        ofKey key (translate threads bs).pushed = ofKey key (translate threads as).pushed) ∧
      (translate threads as).wrongRecordsFound =
        (translated as).countP fun a => (keyOf threads a).isNone := by
  refine ⟨⟨pieces none (recordsOf threads key as), ?_, record_pieces, fun h => ?_⟩, ?_, ?_⟩
  · rw [ofKey_translate hkey]
    exact outputs_eq_pieces isSome_of_mem_recordsOf
  · apply @pieces_tiled none _ isSome_of_mem_recordsOf h
    intro e he
    cases he
  · intro bs hsame
    calc ofKey key (translate threads bs).pushed
        = outputs pushRecords none (recordsOf threads key bs) := ofKey_translate hkey
      _ = outputs pushRecords none (recordsOf threads key as) := by rw [hsame]
      _ = ofKey key (translate threads as).pushed := (ofKey_translate hkey).symm
  · exact (translateRecords_eq _).2

/-- A state of task 1 up to the time 5, a record of task 2, an event of task 1 at the time 8 and a
state from 10 on, and a record of a task that is not there. -/
def gapRecords : List Selected :=
  let running : Place := ⟨1, 1, 1, 1⟩
  let other : Place := ⟨2, 1, 2, 1⟩
  [.trace (.state running 0 5 1), .trace (.event other 6 [(60000019, 1)]),
    .trace (.event running 8 [(60000019, 1), (50000001, 31)]),
    .trace (.event ⟨3, 1, 3, 1⟩ 9 [(60000019, 1)]), .trace (.state running 10 12 0), .finished]

theorem inOrder_gapRecords : InOrder (recordsOf [1, 1] (0, 0) gapRecords) :=
  ⟨by decide +kernel, by decide +kernel, by decide +kernel⟩

/-- The first thread is idle between its state and its event. Without the records that are not its
own it is given the same. -/
theorem records_dispatched_gap :
    (∃ ps : List Piece,
      ofKey (0, 0) (translate [1, 1] gapRecords).pushed = ps.flatMap Piece.pushed ∧
      ps.filterMap Piece.record = recordsOf [1, 1] (0, 0) gapRecords ∧ Tiled none ps) ∧
      ofKey (0, 0) (translate [1, 1] (recordsOf [1, 1] (0, 0) gapRecords)).pushed =
        ofKey (0, 0) (translate [1, 1] gapRecords).pushed ∧
      (translate [1, 1] gapRecords).wrongRecordsFound = 1 ∧
      ofKey (0, 0) (translate [1, 1] gapRecords).pushed =
        idleBlock ⟨1, 1, 1, 1⟩ 5 8 ++ [.record (.event ⟨1, 1, 1, 1⟩ 8 [(60000019, 1)]),
          .record (.event ⟨1, 1, 1, 1⟩ 8 [(50000001, 31)])] ++ idleBlock ⟨1, 1, 1, 1⟩ 10 12 := by
  have hkey : IsThread [1, 1] (0, 0) := by decide
  obtain ⟨⟨ps, hpushed, hrecords, htiled⟩, hsame, -⟩ := records_dispatched gapRecords hkey
  refine ⟨⟨ps, hpushed, hrecords, htiled inOrder_gapRecords⟩, ?_, ?_, ?_⟩
  · exact hsame _ (by decide +kernel)
  · decide +kernel
  · decide +kernel

end

end Dimemas.Prv2dim.RecordDispatch
