import Dimemas.Prv2dim.TraceParser
import Dimemas.PrvUtils.Emission
/-!
# Traces of the simulator that are read again

The records that the simulator writes have lines that `ParaverTraceParser` reads. Ids are counted
from 1 in the lines, and types and values are cut to the types that the parser keeps them in.
-/

namespace Dimemas.Prv2dim.SimulatedTrace

open Dimemas.Library.Formats
open Dimemas.Library.Lines (splitLines)
open Dimemas.PrvUtils.ParaverRecords
open Dimemas.PrvUtils.ExternalSort
open Dimemas.PrvUtils.Paraver
open Dimemas.PrvUtils.Emission
open Dimemas.Prv2dim.TraceParser

/-- What a record of the simulator is made of. -/
inductive Entry
  | state (object : Object) (initTime endTime : UInt64) (value : Int)
  | event (object : Object) (timestamp : UInt64) (first : UInt64 × UInt64)
      (others : List (UInt64 × UInt64))
  | comm (sender : Object) (logS phyS : UInt64) (receiver : Object) (logR phyR : UInt64)
      (size tag : Int32)

namespace Entry

def eventPair (e : UInt64 × UInt64) : Int × Int := (e.1.toNat, e.2.toNat)

def written : Entry → SimpleParaverRecord
  | .state object initTime endTime value =>
      record (if value = prvRunningSt then prvStateRun else prvState) object initTime
        (joinedWord endTime.toNat [value])
  | .event object timestamp first others =>
      record prvEvent object timestamp
        (joinedWord first.1.toNat (first.2.toNat :: flattened (others.map eventPair)))
  | .comm sender logS phyS receiver logR phyR size tag =>
      record prvComm sender logS (joinedWord phyS.toNat
        [receiver.cpu.toInt, receiver.ptask.toInt + 1, receiver.task.toInt + 1,
          receiver.thread.toInt + 1, logR.toNat, phyR.toNat, size.toInt, tag.toInt])

def kind : Entry → Nat
  | .state .. => 1
  | .event .. => 2
  | .comm .. => 3

end Entry

def placeOf (object : Object) : Place :=
  ⟨object.cpu, object.ptask + 1, object.task + 1, object.thread + 1⟩

def Entry.read : Entry → ParaverRecord
  | .state object initTime endTime value =>
      .state (placeOf object) initTime endTime (Int32.ofInt (IntType.int.store value))
  | .event object timestamp first others =>
      .event (placeOf object) timestamp ((first :: others).map fun e => typeValue (eventPair e))
  | .comm sender logS phyS receiver logR phyR size tag =>
      .communication (placeOf sender) logS phyS (placeOf receiver) logR phyR size tag

def Entry.text : Entry → List Char
  | .state object initTime endTime value =>
      numbers object.cpu.toInt [object.ptask.toInt + 1, object.task.toInt + 1,
        object.thread.toInt + 1, initTime.toNat, endTime.toNat, value] [newline]
  | .event object timestamp first others =>
      numbers object.cpu.toInt [object.ptask.toInt + 1, object.task.toInt + 1,
        object.thread.toInt + 1, timestamp.toNat]
        (':' :: numbers first.1.toNat (first.2.toNat :: flattened (others.map eventPair)) [newline])
  | .comm sender logS phyS receiver logR phyR size tag =>
      numbers sender.cpu.toInt [sender.ptask.toInt + 1, sender.task.toInt + 1,
        sender.thread.toInt + 1, logS.toNat, phyS.toNat, receiver.cpu.toInt,
        receiver.ptask.toInt + 1, receiver.task.toInt + 1, receiver.thread.toInt + 1, logR.toNat,
        phyR.toNat, size.toInt, tag.toInt] [newline]

section

variable {s : Settings} {c : EventCollapser} {r : SimpleParaverRecord}

/-! ## Lines -/

theorem line_joined (type cpu ptask task thread first : Int) (timestamp : Nat) (others : List Int) :
    line type cpu ptask task thread timestamp (joined first others) =
      decimal type ++ ':' :: numbers cpu (ptask :: task :: thread :: (timestamp : Int) :: first ::
        others) [newline] := by
  simp [line, joined, numbers]

theorem numbers_append (i j : Int) (is js : List Int) (rest : List Char) :
    numbers i (is ++ j :: js) rest = numbers i is (':' :: numbers j js rest) := by
  simp [numbers]

theorem toTracefile_record (type : Int32) (object : Object) (timestamp : UInt64) (first : Int)
    (others : List Int) :
    (record type object timestamp (joinedWord first others)).toTracefile =
      decimal (if type = prvStateRun then prvState else type).toInt ++ ':' ::
        numbers object.cpu.toInt ((object.ptask.toInt + 1) :: (object.task.toInt + 1) ::
          (object.thread.toInt + 1) :: (timestamp.toNat : Int) :: first :: others) [newline] :=
  line_joined ..

/-- A state, running or not, an event and a communication have the types 1, 2 and 3. -/
theorem toTracefile_written (e : Entry) :
    e.written.toTracefile = recordLine e.kind e.text := by
  cases e with
  | state object initTime endTime value =>
      by_cases hrun : value = prvRunningSt
      · rw [Entry.written, if_pos hrun, toTracefile_record]
        rfl
      · rw [Entry.written, if_neg hrun, toTracefile_record]
        rfl
  | event object timestamp first others =>
      rw [Entry.written, toTracefile_record]
      exact congrArg (recordLine 2) (numbers_append _ _ [_, _, _, _] _ _)
  | comm sender logS phyS receiver logR phyR size tag =>
      rw [Entry.written, toTracefile_record]
      rfl

theorem kind_lt (e : Entry) : e.kind < 10 := by
  cases e with
  | state object initTime endTime value => exact (by decide : 1 < 10)
  | event object timestamp first others => exact (by decide : 2 < 10)
  | comm sender logS phyS receiver logR phyR size tag => exact (by decide : 3 < 10)

theorem parseRecord_text (e : Entry) (currentLine : Nat) :
    parseRecord e.kind currentLine e.text = .record e.read := by
  have hrest : ∀ c ∈ [newline].head?, ¬ c.isDigit := by
    intro c hc
    rw [← Option.some.inj hc]
    decide
  cases e with
  | state object initTime endTime value =>
      show parseState currentLine _ = _
      rw [Entry.text, parseState_numbers hrest]
      simp only [place, time_store, ofInt_store_toInt, ofInt_store_succ, Entry.read, placeOf]
  | event object timestamp first others =>
      have hevent := @parseEvent_numbers currentLine [newline] hrest (by decide) (by decide)
        object.cpu.toInt (object.ptask.toInt + 1) (object.task.toInt + 1) (object.thread.toInt + 1)
        timestamp.toNat (Entry.eventPair first) (others.map Entry.eventPair)
      show parseEvent currentLine _ = _
      have hpairs : (Entry.eventPair first :: others.map Entry.eventPair).map typeValue =
          (first :: others).map fun e => typeValue (Entry.eventPair e) := by
        rw [← List.map_cons, List.map_map]
        rfl
      rw [hpairs] at hevent
      rw [Entry.text]
      refine hevent.trans ?_
      simp only [place, time_store, ofInt_store_toInt, ofInt_store_succ, Entry.read, placeOf]
  | comm sender logS phyS receiver logR phyR size tag =>
      show parseCommunication currentLine _ = _
      rw [Entry.text, parseCommunication_numbers hrest]
      simp only [place, time_store, ofInt_store_toInt, ofInt_store_succ, Entry.read, placeOf]

/-! ## What the simulator writes -/

theorem exists_entry_of_mem_flush (h : r ∈ c.flush) : ∃ e : Entry, e.written = r := by
  rw [EventCollapser.flush] at h
  cases hevents : c.events with
  | nil =>
      rw [hevents] at h
      cases h
  | cons first others =>
      rw [hevents] at h
      refine ⟨.event c.object c.timestamp first others, ?_⟩
      rw [List.mem_singleton.mp h, Entry.written, flattened, List.flatMap_map]
      rfl

theorem exists_entry_of_mem_others {call : Call} (h : r ∈ others s call) :
    ∃ e : Entry, e.written = r := by
  cases call with
  | event => cases h
  | startOp => cases h
  | state object initTime endTime value =>
      rw [others, Settings.newState] at h
      cases htimes : s.stateTimes initTime endTime with
      | none =>
          rw [htimes] at h
          cases h
      | some times =>
          rw [htimes] at h
          rw [List.mem_singleton.mp h]
          exact ⟨.state object (toPrvTime times.1) (toPrvTime times.2) value, rfl⟩
  | comm sender logS phyS receiver logR phyR size tag =>
      rw [others, Settings.p2pComm] at h
      cases hlog : s.commTimes logS logR with
      | none =>
          rw [hlog] at h
          cases h
      | some log =>
          cases hphy : s.commTimes phyS phyR with
          | none =>
              rw [hlog, hphy] at h
              cases h
          | some phy =>
              rw [hlog, hphy] at h
              rw [List.mem_singleton.mp h]
              exact ⟨.comm sender (toPrvTime log.1) (toPrvTime phy.1) receiver (toPrvTime log.2)
                (toPrvTime phy.2) size tag, rfl⟩

/-- Every record that a run of calls gives to the sort has an entry. -/
theorem exists_entry_of_mem_written {calls : List Call} (h : r ∈ written s c calls) :
    ∃ e : Entry, e.written = r := by
  by_cases htype : r.type = prvEvent
  · have hevents : r ∈ (written s c calls).filter (·.type = prvEvent) :=
      List.mem_filter.mpr ⟨h, decide_eq_true htype⟩
    rw [events_written] at hevents
    obtain ⟨g, -, hr⟩ := List.mem_flatMap.mp hevents
    exact exists_entry_of_mem_flush hr
  · have hothers : r ∈ (written s c calls).filter (·.type ≠ prvEvent) :=
      List.mem_filter.mpr ⟨h, decide_eq_true htype⟩
    rw [others_written] at hothers
    obtain ⟨call, -, hr⟩ := List.mem_flatMap.mp hothers
    exact exists_entry_of_mem_others hr

theorem exists_entries {rs : List SimpleParaverRecord}
    (h : ∀ r ∈ rs, ∃ e : Entry, e.written = r) : ∃ es : List Entry, es.map Entry.written = rs := by
  induction rs with
  | nil => exact ⟨[], rfl⟩
  | cons r rs ih =>
      obtain ⟨e, he⟩ := h r List.mem_cons_self
      obtain ⟨es, hes⟩ := ih fun r' hr' => h r' (List.mem_cons_of_mem r hr')
      exact ⟨e :: es, by rw [List.map_cons, he, hes]⟩

/-! ## The trace is read -/

theorem exists_body (r : SimpleParaverRecord) :
    ∃ body : List Char, newline ∉ body ∧ r.toTracefile = body ++ [newline] := by
  have hword : newline ∉ r.asciiRecord.text := fun h =>
    absurd (r.asciiRecord.noSpace newline h) (by decide)
  have hcolon : newline ≠ ':' := by decide
  let realType := if r.type = prvStateRun then prvState else r.type
  refine ⟨decimal realType.toInt ++ ':' :: (decimal r.cpu.toInt ++ ':' ::
    (decimal (r.ptask.toInt + 1) ++ ':' :: (decimal (r.task.toInt + 1) ++ ':' ::
      (decimal (r.thread.toInt + 1) ++ ':' :: (decimal r.timestamp.toNat ++ ':' ::
        r.asciiRecord.text))))), ?_, ?_⟩
  · simp only [List.mem_append, List.mem_cons, newline_notMem_decimal, hcolon, hword, or_self,
      not_false_eq_true]
  · simp only [SimpleParaverRecord.toTracefile, line, List.append_assoc, List.cons_append]
    rfl

theorem splitLines_toTracefile (rs : List SimpleParaverRecord) :
    splitLines newline (rs.flatMap SimpleParaverRecord.toTracefile) =
      rs.map SimpleParaverRecord.toTracefile := by
  induction rs with
  | nil => rfl
  | cons r rs ih =>
      obtain ⟨body, hbody, hline⟩ := exists_body r
      rw [List.flatMap_cons, hline, List.append_assoc, List.singleton_append,
        Dimemas.Library.Lines.splitLines_append_newline hbody, ih, List.map_cons, hline]

/-- The records of any list of entries, in any order, are read. -/
theorem getNextRecords_written (es : List Entry) (mask currentLine : Nat) :
    let asked := es.filter fun e => mask.testBit e.kind
    getNextRecords mask (asked.length + 1) currentLine
        (splitLines newline (es.flatMap fun e => e.written.toTracefile)) =
      asked.map (fun e => .record e.read) ++ [.finished] := by
  have hlines : splitLines newline (es.flatMap fun e => e.written.toTracefile) =
      es.map fun e => recordLine e.kind e.text := by
    have hsplit := splitLines_toTracefile (es.map Entry.written)
    rw [List.flatMap_map, List.map_map] at hsplit
    rw [hsplit]
    exact List.map_congr_left fun e _ => toTracefile_written e
  rw [hlines]
  exact getNextRecords_recordLines mask kind_lt parseRecord_text es currentLine

variable {stableSort : List SimpleParaverRecord → List SimpleParaverRecord}

/-- A trace of the simulator is read to its end without an error. From the records that are asked
for, the parser makes those that the calls stand for. -/
theorem simulatedTrace_read (hsort : StableSort stableSort) {p : State}
    (hp : p.settings.generarParaver = true) {files : Files}
    (hfiles : p.traceMerger = init files) (calls : List Call)
    (hstate : ∃ r ∈ written p.settings p.collapser calls, r.type ≠ prvEvent) :
    ∃ es : List Entry,
      (es.map Entry.written).Perm (written p.settings p.collapser calls) ∧
      ((calls.foldl (State.call stableSort) p).finish stableSort true).2 =
        some (es.map fun e => e.written.toTracefile) ∧
      ∀ mask currentLine,
        let asked := es.filter fun e => mask.testBit e.kind
        getNextRecords mask (asked.length + 1) currentLine
            (splitLines newline (es.flatMap fun e => e.written.toTracefile)) =
          asked.map (fun e => .record e.read) ++ [.finished] := by
  have hsize : 0 < maxInFlightRecords := by decide
  obtain ⟨run, hrun, -, htrace⟩ := exists_generateFinalTrace hsize hsort
    (keeps_newRecords hsort (written p.settings p.collapser calls)) hstate
  have hsplit : ((written p.settings p.collapser calls).filter (·.type ≠ prvEvent) ++
      (written p.settings p.collapser calls).filter (·.type = prvEvent)).Perm
        (written p.settings p.collapser calls) := by
    have hfilter := List.filter_append_perm (fun r => decide (r.type = prvEvent))
      (written p.settings p.collapser calls)
    simp only [← decide_not] at hfilter
    exact List.perm_append_comm.trans hfilter
  have hperm : (List.merge run ((written p.settings p.collapser calls).filter
      (·.type = prvEvent)) less).Perm (written p.settings p.collapser calls) :=
    ((List.merge_perm_append less).trans (hrun.append_right _)).trans hsplit
  obtain ⟨es, hes⟩ := exists_entries fun r hr => exists_entry_of_mem_written (hperm.mem_iff.mp hr)
  refine ⟨es, ?_, ?_, getNextRecords_written es⟩
  · rw [hes]
    exact hperm
  · rw [finish_foldl_call hp, hfiles,
      htrace _ ((represents_init files).newRecords (written p.settings p.collapser calls)), ← hes,
      List.map_map]
    rfl

/-- A trace with a state and an event. -/
theorem simulatedTrace_read_two :
    let object : Object := ⟨0, 0, 0, 0⟩
    let p : State := ⟨⟨true, false, 0, false, 0⟩, emptied object 0, init fun _ => none⟩
    let calls : List Call := [.state object 0 5 1, .event object 3 50000001 1]
    ∃ es : List Entry,
      (es.map Entry.written).Perm (written p.settings p.collapser calls) ∧
      ((calls.foldl (State.call fun rs => rs.mergeSort fun a b =>
        PrvUtils.ParaverRecords.time a ≤ PrvUtils.ParaverRecords.time b) p).finish
        (fun rs => rs.mergeSort fun a b =>
          PrvUtils.ParaverRecords.time a ≤ PrvUtils.ParaverRecords.time b) true).2 =
        some (es.map fun e => e.written.toTracefile) ∧
      ∀ mask currentLine,
        let asked := es.filter fun e => mask.testBit e.kind
        getNextRecords mask (asked.length + 1) currentLine
            (splitLines newline (es.flatMap fun e => e.written.toTracefile)) =
          asked.map (fun e => .record e.read) ++ [.finished] := by
  intro object p calls
  have hmem : record prvStateRun object (toPrvTime 0) (joinedWord (toPrvTime 5).toNat [1]) ∈
      written p.settings p.collapser calls :=
    List.mem_append_left _ List.mem_cons_self
  exact simulatedTrace_read stableSort_mergeSort rfl rfl calls ⟨_, hmem, by decide⟩

end

end Dimemas.Prv2dim.SimulatedTrace
