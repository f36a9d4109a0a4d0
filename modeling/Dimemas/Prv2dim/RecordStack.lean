import Dimemas.Library.Batching
import Dimemas.Prv2dim.CommunicationSplit
/-!
# The stack of the records of a thread

`PushRecord` holds the records of one time back on a stack, sorts them and hands them to the
translation. With it the records of a trace are followed from their lines up to `ToDimemas`.
-/

namespace Dimemas.Prv2dim.RecordStack

open Dimemas.Library.Batching (Machine State)
open Dimemas.Library.Demultiplexing
open Dimemas.Library.Merging (Ordered)
open Dimemas.Prv2dim.TraceParser
open Dimemas.Prv2dim.RecordSelection
open Dimemas.Prv2dim.RecordDispatch
open Dimemas.Prv2dim.CommunicationSplit

/-- What the translation of a thread does with a record. The fields of the thread are those of `σ`,
and `sort` is the one with `InBlockComparison` or with `OutBlockComparison`. -/
structure Translation (σ : Type) where
  inBlock : σ → Bool
  sort : Bool → List Pushed → List Pushed
  toDimemas : σ → Pushed → Option σ
  pendingGlobalOp : σ → Bool
  finalizeGlobalOp : σ → σ

def Pushed.timestamp : Pushed → UInt64
  | .record r => getTimestamp r
  | .communication c => c.timestamp

def Pushed.time (p : Pushed) : Nat := (Pushed.timestamp p).toNat

def Pushed.isMPIBlockEnd : Pushed → Bool
  | .record r => isBlockEnd r
  | .communication _ => false

section

variable {σ : Type}

def Translation.reorder (t : Translation σ) (info : σ) (recordStack : List Pushed) : List Pushed :=
  if 1 < recordStack.length then t.sort (t.inBlock info) recordStack else recordStack

def Translation.toDimemasAll (t : Translation σ) : σ → List Pushed → Option σ
  | info, [] => some (if t.pendingGlobalOp info then t.finalizeGlobalOp info else info)
  | info, r :: rs => (t.toDimemas info r).bind fun info => t.toDimemasAll info rs

/-- `RecordStack` is the batch, `DisorderedRecords` is set when a record is refused, and what is
given are the records that `ToDimemas` was called with. -/
def Translation.machine (t : Translation σ) : Machine σ Pushed Nat where
  key := Pushed.time
  ends := Pushed.isMPIBlockEnd
  arrange := t.reorder
  give := t.toDimemasAll

def Translation.reorderAndFlush (t : Translation σ) : State σ Pushed → Option (State σ Pushed) :=
  t.machine.flush

def Translation.pushRecord (t : Translation σ) :
    State σ Pushed → Pushed → Option (State σ Pushed) :=
  t.machine.push

/-- `PushRecord` of all records of a thread, and `LastFlush`. -/
def Translation.translate (t : Translation σ) (info : σ) (rs : List Pushed) :
    Option (State σ Pushed) :=
  t.machine.run info rs

theorem arranges {t : Translation σ} (ht : ∀ inBlock rs, (t.sort inBlock rs).Perm rs) :
    t.machine.Arranges := by
  intro info rs
  show (t.reorder info rs).Perm rs
  unfold Translation.reorder
  split
  · exact ht _ rs
  · exact .refl rs

end

/-! ## The times of what is pushed -/

/-- The end of an idle state, which is translated to two events. The other states are translated to
none. -/
def idleEnd : Selected → Option Nat
  | .trace (.state _ _ endTime stateValue) => if stateValue = 0 then some endTime.toNat else none
  | _ => none

def doneAt (a : Selected) : Nat := (idleEnd a).getD a.time

/-- No record comes before the end of an idle state in front of it. -/
structure Undisturbed (as : List Selected) : Prop where
  idle : as.Pairwise fun a b => ∀ e ∈ idleEnd a, e ≤ b.time
  ends : ∀ x ∈ as.filterMap interval, x.1 ≤ x.2

/-- Every record comes when the ones in front of it are done. -/
structure InSequence (as : List Selected) : Prop where
  times : as.Pairwise fun a b => doneAt a ≤ b.time
  ends : ∀ x ∈ as.filterMap interval, x.1 ≤ x.2

section

variable {last : Option CurrentState} {a : Selected} {as : List Selected}

theorem Undisturbed.inSequence (h : Undisturbed as) (hordered : Ordered Selected.time as) :
    InSequence as := by
  refine ⟨(hordered.and h.idle).imp ?_, h.ends⟩
  rintro a b ⟨hle, hidle⟩
  unfold doneAt
  cases hend : idleEnd a with
  | none => exact hle
  | some e => exact hidle e hend

theorem InSequence.tail (h : InSequence (a :: as)) : InSequence as := by
  have hsub : (as.filterMap interval).Sublist ((a :: as).filterMap interval) :=
    (List.sublist_cons_self a as).filterMap interval
  exact ⟨(List.pairwise_cons.mp h.times).2, fun x hx => h.ends x (hsub.subset hx)⟩

theorem doneAt_other (h : interval a = none) : doneAt a = a.time := by
  cases a with
  | trace r =>
      cases r with
      | state => cases h
      | event => rfl
      | communication => rfl
      | globalOp => rfl
  | communication c => rfl
  | failed message => rfl
  | finished => rfl

theorem time_subEvents (r : ParaverRecord) :
    ∀ p ∈ subEvents r, Pushed.time p = (getTimestamp r).toNat := by
  intro p hp
  cases r with
  | event place timestamp content =>
      unfold subEvents at hp
      simp only at hp
      split at hp
      · obtain ⟨tv, -, rfl⟩ := List.mem_map.mp hp
        rfl
      · rw [List.mem_singleton.mp hp]
        rfl
  | state => rw [List.mem_singleton.mp hp]; rfl
  | communication => rw [List.mem_singleton.mp hp]; rfl
  | globalOp => rw [List.mem_singleton.mp hp]; rfl

theorem time_pushRecords_other (h : interval a = none) :
    ∀ p ∈ (pushRecords none a).2, Pushed.time p = a.time := by
  intro p hp
  cases a with
  | trace r =>
      cases r with
      | state => cases h
      | event place timestamp content =>
          exact time_subEvents (.event place timestamp content) p hp
      | communication => rw [List.mem_singleton.mp hp]; rfl
      | globalOp => rw [List.mem_singleton.mp hp]; rfl
  | communication c => rw [List.mem_singleton.mp hp]; rfl
  | failed message => cases hp
  | finished => cases hp

/-- What one record pushes lies between the end of the last state, or its own time, and the time at
which it is done. -/
structure StepTimes (last : Option CurrentState) (a : Selected) : Prop where
  ordered : Ordered Pushed.time (pushRecords last a).2
  since : ∀ m ≤ a.time, (∀ e ∈ lastEnd last, m ≤ e) →
    ∀ p ∈ (pushRecords last a).2, m ≤ Pushed.time p
  upTo : ∀ p ∈ (pushRecords last a).2, Pushed.time p ≤ doneAt a
  next : ∀ e ∈ lastEnd (pushRecords last a).1, doneAt a ≤ e
  done : a.time ≤ doneAt a

theorem ordered_of_eq {ps : List Pushed} {n : Nat} (h : ∀ p ∈ ps, Pushed.time p = n) :
    Ordered Pushed.time ps :=
  List.pairwise_of_forall_mem_list fun p hp q hq => le_of_eq ((h p hp).trans (h q hq).symm)

theorem mem_idleBlock {place : Place} {beginTime endTime : UInt64} {p : Pushed}
    (h : p ∈ idleBlock place beginTime endTime) :
    Pushed.time p = beginTime.toNat ∨ Pushed.time p = endTime.toNat := by
  rcases List.mem_cons.mp h with rfl | h
  · exact .inl rfl
  · rw [List.mem_singleton.mp h]
    exact .inr rfl

theorem ordered_idleBlock {place : Place} {beginTime endTime : UInt64}
    (h : beginTime.toNat ≤ endTime.toNat) :
    Ordered Pushed.time (idleBlock place beginTime endTime) := by
  apply List.pairwise_cons.mpr
  refine ⟨fun p hp => ?_, List.pairwise_singleton _ _⟩
  rw [List.mem_singleton.mp hp]
  exact h

theorem stepTimes_state {place : Place} {beginTime endTime : UInt64} {stateValue : Int32}
    (hle : beginTime.toNat ≤ endTime.toNat) (last : Option CurrentState) :
    StepTimes last (.trace (.state place beginTime endTime stateValue)) := by
  have hpush : (pushRecords last (.trace (.state place beginTime endTime stateValue))).2 =
      if stateValue = 0 then idleBlock place beginTime endTime else [] := rfl
  have hdone : doneAt (.trace (.state place beginTime endTime stateValue)) =
      if stateValue = 0 then endTime.toNat else beginTime.toNat := by
    simp only [doneAt, idleEnd]
    split
    · rfl
    · rfl
  have hnext : lastEnd (pushRecords last
      (.trace (.state place beginTime endTime stateValue))).1 = some endTime.toNat := rfl
  by_cases hidle : stateValue = 0
  · rw [if_pos hidle] at hpush hdone
    constructor
    · rw [hpush]
      exact ordered_idleBlock hle
    · intro m hm _ p hp
      rw [hpush] at hp
      have hbegin : m ≤ beginTime.toNat := hm
      rcases mem_idleBlock hp with htime | htime
      · omega
      · omega
    · intro p hp
      rw [hpush] at hp
      rw [hdone]
      rcases mem_idleBlock hp with htime | htime
      · omega
      · omega
    · intro e he
      rw [hnext] at he
      rw [hdone, Option.some.inj he]
    · rw [hdone]
      exact hle
  · rw [if_neg hidle] at hpush hdone
    constructor
    · rw [hpush]
      exact .nil
    · intro m _ _ p hp
      rw [hpush] at hp
      cases hp
    · intro p hp
      rw [hpush] at hp
      cases hp
    · intro e he
      rw [hnext] at he
      rw [hdone, ← Option.some.inj he]
      exact hle
    · exact le_of_eq hdone.symm

theorem stepTimes_gap {place : Place} {state : CurrentState} (hplace : selectedPlace a = some place)
    (h : interval a = none) (hlt : state.endTime.toNat < a.time) :
    StepTimes (some state) a := by
  obtain ⟨-, hpush⟩ := pushRecords_gap hplace h hlt
  have hown := time_pushRecords_other h
  have hend : (UInt64.ofNat a.time).toNat = a.time := toNat_time a
  have hmem : ∀ p ∈ (pushRecords (some state) a).2,
      Pushed.time p = state.endTime.toNat ∨ Pushed.time p = a.time := by
    intro p hp
    rw [hpush] at hp
    rcases List.mem_append.mp hp with hp | hp
    · exact hend ▸ mem_idleBlock hp
    · exact .inr (hown p hp)
  constructor
  · rw [hpush]
    apply List.pairwise_append.mpr
    refine ⟨ordered_idleBlock (by omega), ordered_of_eq hown, fun p hp q hq => ?_⟩
    have hq := hown q hq
    rcases mem_idleBlock hp with htime | htime
    · omega
    · omega
  · intro m hm hlast p hp
    have hfirst := hlast state.endTime.toNat rfl
    rcases hmem p hp with htime | htime
    · omega
    · omega
  · intro p hp
    rw [doneAt_other h]
    rcases hmem p hp with htime | htime
    · omega
    · omega
  · intro e he
    rw [hpush] at he
    have hnew : (UInt64.ofNat a.time).toNat = e := Option.some.inj he
    rw [doneAt_other h]
    omega
  · exact le_of_eq (doneAt_other h).symm

theorem stepTimes_noGap {place : Place} (hplace : selectedPlace a = some place)
    (h : interval a = none) (hle : ∀ state ∈ last, a.time ≤ state.endTime.toNat) :
    StepTimes last a := by
  obtain ⟨-, hpush⟩ := pushRecords_noGap hplace h hle
  have hown := time_pushRecords_other h
  constructor
  · rw [hpush]
    exact ordered_of_eq hown
  · intro m hm _ p hp
    rw [hpush] at hp
    exact (hown p hp).symm ▸ hm
  · intro p hp
    rw [hpush] at hp
    rw [doneAt_other h]
    exact le_of_eq (hown p hp)
  · intro e he
    rw [hpush] at he
    obtain ⟨state, hstate, rfl⟩ := Option.map_eq_some_iff.mp he
    rw [doneAt_other h]
    exact hle state hstate
  · exact le_of_eq (doneAt_other h).symm

theorem stepTimes (hplace : (selectedPlace a).isSome) (hends : ∀ x ∈ interval a, x.1 ≤ x.2)
    (last : Option CurrentState) : StepTimes last a := by
  cases hstate : interval a with
  | none =>
      obtain ⟨place, hplace⟩ := Option.isSome_iff_exists.mp hplace
      rcases gap_cases last a with ⟨state, rfl, hlt⟩ | hle
      · exact stepTimes_gap hplace hstate hlt
      · exact stepTimes_noGap hplace hstate hle
  | some x =>
      have hle := hends x hstate
      cases a with
      | trace r =>
          cases r with
          | state place beginTime endTime stateValue =>
              obtain rfl := Option.some.inj hstate
              exact stepTimes_state hle last
          | event => cases hstate
          | communication => cases hstate
          | globalOp => cases hstate
      | communication c => cases hstate
      | failed message => cases hstate
      | finished => cases hstate

theorem InSequence.head (h : InSequence (a :: as)) : ∀ x ∈ interval a, x.1 ≤ x.2 := by
  intro x hx
  apply h.ends x
  rw [List.filterMap_cons_some hx]
  exact List.mem_cons_self

/-- What a thread is given is not before its records and the end of its last state. -/
theorem le_time_outputs (has : ∀ a ∈ as, (selectedPlace a).isSome) (h : InSequence as) {m : Nat}
    (htimes : ∀ a ∈ as, m ≤ a.time) (hlast : ∀ e ∈ lastEnd last, m ≤ e) :
    ∀ p ∈ outputs pushRecords last as, m ≤ Pushed.time p := by
  induction as generalizing last with
  | nil =>
      intro p hp
      cases hp
  | cons a as ih =>
      have hstep := stepTimes (has a List.mem_cons_self) h.head last
      have hfirst : m ≤ a.time := htimes a List.mem_cons_self
      intro p hp
      rcases List.mem_append.mp hp with hp | hp
      · exact hstep.since m hfirst hlast p hp
      · apply ih (fun b hb => has b (List.mem_cons_of_mem _ hb)) h.tail
          (fun b hb => htimes b (List.mem_cons_of_mem _ hb)) _ p hp
        intro e he
        calc m ≤ a.time := hfirst
          _ ≤ doneAt a := hstep.done
          _ ≤ e := hstep.next e he

/-- A thread is given its records in the order of their times. -/
theorem ordered_outputs (has : ∀ a ∈ as, (selectedPlace a).isSome) (h : InSequence as) :
    Ordered Pushed.time (outputs pushRecords last as) := by
  induction as generalizing last with
  | nil => exact .nil
  | cons a as ih =>
      have hstep := stepTimes (has a List.mem_cons_self) h.head last
      have hrest : ∀ b ∈ as, (selectedPlace b).isSome :=
        fun b hb => has b (List.mem_cons_of_mem _ hb)
      apply List.pairwise_append.mpr
      refine ⟨hstep.ordered, ih hrest h.tail, fun p hp q hq => ?_⟩
      calc Pushed.time p ≤ doneAt a := hstep.upTo p hp
        _ ≤ Pushed.time q :=
            le_time_outputs hrest h.tail (List.pairwise_cons.mp h.times).1 hstep.next q hq

end

/-! ## From the trace to the translation -/

section

variable {σ : Type} {t : Translation σ} {threads : List Nat} {key : Nat × Nat}

theorem recordsOf_merge {rs : List ParaverRecord} {cs : List PartialCommunication} :
    recordsOf threads key
        (List.merge (rs.map .trace) (cs.map .communication) Selected.before ++ [.finished]) =
      (List.merge (rs.map .trace) (cs.map .communication) Selected.before).filter
        fun a => keyOf threads a = some key := by
  rw [recordsOf, translated_append_finished isSome_of_mem_merge]

theorem ordered_selected {rs : List ParaverRecord} {cs : List PartialCommunication}
    (hrs : rs.Pairwise fun r r' => getTimestamp r ≤ getTimestamp r')
    (hcs : cs.Pairwise fun c c' => c.timestamp ≤ c'.timestamp) :
    Ordered Selected.time
      (List.merge (rs.map .trace) (cs.map .communication) Selected.before) := by
  obtain ⟨htrace, hcommunication, -⟩ := pairwise_endsBlock hrs hcs
  exact Dimemas.Library.Merging.ordered_merge respects_before htrace hcommunication

theorem filter_recordsOf {rs : List ParaverRecord} {cs : List PartialCommunication} :
    let records := recordsOf threads key
      (List.merge (rs.map .trace) (cs.map .communication) Selected.before ++ [.finished])
    records.filter Selected.isTrace =
        (rs.filter fun r => threadOf threads (getPlace r) = some key).map .trace ∧
      records.filter (fun a => !a.isTrace) =
        (cs.filter fun c => threadOf threads c.place = some key).map .communication := by
  intro records
  have hrecords : records = (List.merge (rs.map .trace) (cs.map .communication)
      Selected.before).filter fun a => keyOf threads a = some key := recordsOf_merge
  obtain ⟨htrace, hcommunication⟩ := @Dimemas.Library.Merging.filter_merge _ Selected.before
    Selected.isTrace (rs.map .trace) (cs.map .communication) isTrace_of_mem_trace
    isTrace_of_mem_communication
  constructor
  · rw [hrecords, List.filter_comm, htrace, List.filter_map]
    rfl
  · rw [hrecords, List.filter_comm, hcommunication, List.filter_map]
    rfl

/-- The records of a thread, those of the trace and its communications, and the idle blocks between
them are handed to `ToDimemas` once each, unless `DisorderedRecords` is set. If the trace and the
communications are in the order of their times and no record of the thread comes before the end of
an idle state in front of it, then it is not set, and the records are handed over in the order of
their times. -/
theorem records_handed {lines : List (List Char)} {currentLine : Nat}
    {rs : List ParaverRecord} {cs : List PartialCommunication}
    (hrs : getNextRecords translatedRec (rs.length + 1) currentLine lines =
      rs.map .record ++ [.finished])
    (hkey : IsThread threads key) (hsort : ∀ inBlock rs, (t.sort inBlock rs).Perm rs)
    {info : σ} {s : State σ Pushed} :
    let records := recordsOf threads key (Selection.selections (rs.length + cs.length + 1)
      (Selection.start lines currentLine cs))
    let pushed := ofKey key (translate threads (Selection.selections (rs.length + cs.length + 1)
      (Selection.start lines currentLine cs))).pushed
    t.translate info pushed = some s →
    (∃ ps : List Piece, pushed = ps.flatMap Piece.pushed ∧ ps.filterMap Piece.record = records ∧
      records.filter Selected.isTrace =
        (rs.filter fun r => threadOf threads (getPlace r) = some key).map .trace ∧
      records.filter (fun a => !a.isTrace) =
        (cs.filter fun c => threadOf threads c.place = some key).map .communication) ∧
    (∃ taken : List Pushed, taken.Sublist pushed ∧ s.given.Perm taken ∧
      (s.refused = false ↔ taken = pushed)) ∧
    ((rs.Pairwise fun r r' => getTimestamp r ≤ getTimestamp r') →
      (cs.Pairwise fun c c' => c.timestamp ≤ c'.timestamp) → Undisturbed records →
      s.refused = false ∧ s.given.Perm pushed ∧ Ordered Pushed.time s.given) := by
  intro records pushed hrun
  have hpending : Pending (Selection.start lines currentLine cs) rs := pending_of_records rfl hrs
  have hselected : Selection.selections (rs.length + cs.length + 1)
      (Selection.start lines currentLine cs) =
        List.merge (rs.map .trace) (cs.map .communication) Selected.before ++ [.finished] :=
    selections_eq hpending rfl
  have hplaces : ∀ a ∈ records, (selectedPlace a).isSome := isSome_of_mem_recordsOf
  have hpushed : pushed = outputs pushRecords none records := ofKey_translate hkey
  refine ⟨⟨pieces none records, ?_, record_pieces, ?_⟩, ?_,
    fun hrsOrder hcsOrder hundisturbed => ?_⟩
  · exact hpushed.trans (outputs_eq_pieces hplaces)
  · show (recordsOf threads key _).filter _ = _ ∧ (recordsOf threads key _).filter _ = _
    rw [hselected]
    exact filter_recordsOf
  · exact Dimemas.Library.Batching.given_run (arranges hsort) hrun
  · apply Dimemas.Library.Batching.ordered_run (arranges hsort) hrun
    have hrecords : records = (List.merge (rs.map .trace) (cs.map .communication)
        Selected.before).filter fun a => keyOf threads a = some key := by
      show recordsOf threads key _ = _
      rw [hselected]
      exact recordsOf_merge
    have htimes : Ordered Selected.time records := by
      rw [hrecords]
      exact (ordered_selected hrsOrder hcsOrder).sublist List.filter_sublist
    rw [hpushed]
    exact ordered_outputs hplaces (hundisturbed.inSequence htimes)

def acceptAll : Translation Unit := ⟨fun _ => false, fun _ rs => rs, fun _ _ => some (), fun _ =>
  false, fun _ => ()⟩

def runningLines : List (List Char) :=
  [['1', ':', '1', ':', '1', ':', '1', ':', '1', ':', '0', ':', '5', ':', '1',
      Library.Formats.newline],
    ['2', ':', '1', ':', '1', ':', '1', ':', '1', ':', '3', ':', '7', ':', '1',
      Library.Formats.newline]]

/-- The event is handed over, and a communication behind it. -/
theorem records_handed_running :
    let place : Place := ⟨1, 1, 1, 1⟩
    let rs : List ParaverRecord := [.state place 0 5 1, .event place 3 [(7, 1)]]
    let cs : List PartialCommunication := [⟨0, 4, place, ⟨2, 1, 2, 1⟩, 8, 0, 1⟩]
    let records := recordsOf [1, 1] (0, 0) (Selection.selections (rs.length + cs.length + 1)
      (Selection.start runningLines 0 cs))
    let pushed := ofKey (0, 0) (translate [1, 1] (Selection.selections (rs.length + cs.length + 1)
      (Selection.start runningLines 0 cs))).pushed
    ∃ s, acceptAll.translate () pushed = some s ∧
      (∃ ps : List Piece, pushed = ps.flatMap Piece.pushed ∧ ps.filterMap Piece.record = records ∧
        records.filter Selected.isTrace =
          (rs.filter fun r => threadOf [1, 1] (getPlace r) = some (0, 0)).map .trace ∧
        records.filter (fun a => !a.isTrace) =
          (cs.filter fun c => threadOf [1, 1] c.place = some (0, 0)).map .communication) ∧
      (∃ taken : List Pushed, taken.Sublist pushed ∧ s.given.Perm taken ∧
        (s.refused = false ↔ taken = pushed)) ∧
      s.refused = false ∧ s.given.Perm pushed ∧ Ordered Pushed.time s.given := by
  intro place rs cs records pushed
  have hrs : getNextRecords translatedRec (rs.length + 1) 0 runningLines =
      rs.map .record ++ [.finished] := by decide +kernel
  have hkey : IsThread [1, 1] (0, 0) := by decide
  have hrun : (acceptAll.translate () pushed).isSome = true := by decide +kernel
  obtain ⟨s, hs⟩ := Option.isSome_iff_exists.mp hrun
  have hundisturbed : Undisturbed records := ⟨by decide +kernel, by decide +kernel⟩
  obtain ⟨hpieces, htaken, hordered⟩ := records_handed hrs hkey (fun _ rs => .refl rs) hs
  exact ⟨s, hs, hpieces, htaken, hordered (by decide) (by decide) hundisturbed⟩

end

end Dimemas.Prv2dim.RecordStack
