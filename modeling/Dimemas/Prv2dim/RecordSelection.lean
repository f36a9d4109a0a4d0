import Dimemas.Library.Merging
import Dimemas.Prv2dim.TaskTranslation
import Dimemas.Prv2dim.TraceParser
/-!
# The records that are translated

`SelectNextRecord` takes the next record of the trace or the next partial communication, whichever
comes first. The counters that number the records are left out.
-/

namespace Dimemas.Prv2dim.RecordSelection

open Dimemas.Library.Merging (Ordered Respects)
open Dimemas.Prv2dim.TaskTranslation (isMPIBlock isBlockBegin)
open Dimemas.Prv2dim.TraceParser

structure PartialCommunication where
  type : Int32
  timestamp : UInt64
  place : Place
  partner : Place
  size : Int32
  tag : Int32
  commId : Int32
deriving DecidableEq

/-- The record of a trace that is not a communication has one place and one time. -/
def getTimestamp : ParaverRecord → UInt64
  | .state _ beginTime _ _ => beginTime
  | .event _ timestamp _ => timestamp
  | .communication _ logSend _ _ _ _ _ _ => logSend
  | .globalOp _ timestamp _ _ _ _ _ _ => timestamp

def getTaskId : ParaverRecord → Int32
  | .state place _ _ _ => place.taskId
  | .event place _ _ => place.taskId
  | .communication src _ _ _ _ _ _ _ => src.taskId
  | .globalOp place _ _ _ _ _ _ _ => place.taskId

def isMPIBlockBegin (content : List (Int32 × Int64)) : Bool :=
  content.head?.any fun tv => isMPIBlock tv.1.toInt && isBlockBegin tv.2.toInt

def isMPIBlockEnd (content : List (Int32 × Int64)) : Bool :=
  content.head?.any fun tv => isMPIBlock tv.1.toInt && !isBlockBegin tv.2.toInt

/-- What a call gives. At the end it is `NULL` without an error. -/
inductive Selected
  | trace (r : ParaverRecord)
  | communication (c : PartialCommunication)
  | failed (message : String)
  | finished
deriving DecidableEq

/-- The static variables with the lines that the parser has left. The communications are those from
`CurrentCommunicationIndex` on. -/
structure Selection where
  lines : List (List Char)
  currentLine : Nat
  currentTraceRecord : Found
  communications : List PartialCommunication
  lastRecordTrace : Bool

/-- `STATE_REC | EVENT_REC | GLOBOP_REC`. -/
def translatedRec : Nat := stateRec ||| eventRec ||| globopRec

def Selection.start (lines : List (List Char)) (currentLine : Nat)
    (communications : List PartialCommunication) : Selection :=
  ⟨lines, currentLine, .finished, communications, true⟩

/-- The trace is read when its last record has been taken. -/
def Selection.fetch (s : Selection) : Selection :=
  if s.lastRecordTrace then
    let (found, currentLine, lines) := nextTraceRecord translatedRec s.currentLine s.lines
    { s with lines := lines, currentLine := currentLine, currentTraceRecord := found }
  else s

def Selection.takeTrace (s : Selection) (r : ParaverRecord) : Selected × Selection :=
  (.trace r, { s with lastRecordTrace := true })

def Selection.takeCommunication (s : Selection) (c : PartialCommunication)
    (cs : List PartialCommunication) : Selected × Selection :=
  (.communication c, { s with communications := cs, lastRecordTrace := false })

def Selection.takeSimultaneous (s : Selection) (r : ParaverRecord) (c : PartialCommunication)
    (cs : List PartialCommunication) : Selected × Selection :=
  match r with
  | .event _ _ content =>
      if 1 ≤ content.length then
        if isMPIBlockBegin content then s.takeTrace r
        else if isMPIBlockEnd content then s.takeCommunication c cs
        else s.takeTrace r
      -- the record is given up
      else (.communication c, { s with communications := cs, lastRecordTrace := true })
  | _ => s.takeTrace r

def Selection.selectNextRecord (s : Selection) : Selected × Selection :=
  let s := s.fetch
  match s.currentTraceRecord with
  | .failed message => (.failed message, s)
  | .finished =>
      match s.communications with
      | [] => (.finished, s)
      | c :: cs => s.takeCommunication c cs
  | .record r =>
      match s.communications with
      | [] => s.takeTrace r
      | c :: cs =>
          if getTimestamp r < c.timestamp then s.takeTrace r
          else if c.timestamp < getTimestamp r then s.takeCommunication c cs
          else if getTaskId r ≠ c.place.taskId then s.takeCommunication c cs
          else s.takeSimultaneous r c cs

def Selection.selections : Nat → Selection → List Selected
  | 0, _ => []
  | n + 1, s => s.selectNextRecord.1 :: Selection.selections n s.selectNextRecord.2

/-! ## The order -/

def isBlockEnd : ParaverRecord → Bool
  | .event _ _ content => isMPIBlockEnd content
  | _ => false

/-- A record of the trace goes in front of a communication: it is earlier, or it is of the same time
and task and does not end a block. -/
def goesFirst (r : ParaverRecord) (c : PartialCommunication) : Bool :=
  getTimestamp r < c.timestamp ||
    (getTimestamp r == c.timestamp && getTaskId r == c.place.taskId && !isBlockEnd r)

def Selected.time : Selected → Nat
  | trace r => (getTimestamp r).toNat
  | communication c => c.timestamp.toNat
  | _ => 0

def Selected.isTrace : Selected → Bool
  | trace _ => true
  | _ => false

def Selected.before : Selected → Selected → Bool
  | trace r, communication c => goesFirst r c
  | a, b => a.time ≤ b.time

/-- A record directly in front of a communication goes first, and one directly behind it does
not. -/
def Selected.Next : Selected → Selected → Prop
  | trace r, communication c => goesFirst r c = true
  | communication c, trace r => goesFirst r c = false
  | _, _ => True

def Selected.EndsBlock : Selected → Selected → Prop
  | trace r, communication c => isBlockEnd r = true → getTimestamp r < c.timestamp
  | _, _ => True

section

variable {s : Selection} {r : ParaverRecord} {rs : List ParaverRecord} {c : PartialCommunication}
variable {cs : List PartialCommunication}

/-- The parser gives no event without a type and value. -/
def HasContent : ParaverRecord → Prop
  | .event _ _ content => content ≠ []
  | _ => True

theorem respects_before : Respects Selected.before Selected.time := by
  have hle {a b : Selected} (h : Selected.before a b = decide (a.time ≤ b.time)) :
      (a.before b → a.time ≤ b.time) ∧ (¬ a.before b → b.time ≤ a.time) := by
    rw [h, decide_eq_true_eq]
    exact ⟨id, fun hnot => Nat.le_of_not_le hnot⟩
  intro a b
  cases a with
  | trace r =>
      cases b with
      | communication c =>
          show (goesFirst r c → (getTimestamp r).toNat ≤ c.timestamp.toNat) ∧
            (¬ goesFirst r c → c.timestamp.toNat ≤ (getTimestamp r).toNat)
          rw [goesFirst, Bool.or_eq_true, decide_eq_true_eq, UInt64.lt_iff_toNat_lt]
          constructor
          · rintro (hlt | heq)
            · exact Nat.le_of_lt hlt
            · simp only [Bool.and_eq_true, beq_iff_eq] at heq
              rw [heq.1.1]
          · intro hnot
            omega
      | trace r' => exact hle rfl
      | failed message => exact hle rfl
      | finished => exact hle rfl
  | communication c => exact hle rfl
  | failed message => exact hle rfl
  | finished => exact hle rfl

/-! ## What the parser gives -/

theorem hasContent_parseRecord {type : Int} {currentLine : Nat} {text : List Char}
    (h : parseRecord type currentLine text = .record r) : HasContent r := by
  unfold parseRecord at h
  split at h
  · unfold parseState at h
    split at h
    · cases h
      trivial
    · cases h
  split at h
  · unfold parseEvent at h
    split at h
    · split at h
      · cases h
      · cases h
      · next hne _ =>
          cases h
          exact hne
    · cases h
  split at h
  · unfold parseCommunication at h
    split at h
    · cases h
      trivial
    · cases h
  split at h
  · unfold parseGlobalOp at h
    split at h
    · cases h
      trivial
    · cases h
  · cases h

theorem hasContent_nextTraceRecord {mask currentLine : Nat} {lines : List (List Char)}
    (h : (nextTraceRecord mask currentLine lines).1 = .record r) : HasContent r := by
  induction lines generalizing currentLine with
  | nil => cases h
  | cons line lines ih =>
      unfold nextTraceRecord at h
      split at h
      · exact ih h
      · split at h
        · split at h
          · exact hasContent_parseRecord h
          · exact ih h
        · split at h
          · exact ih h
          · cases h

/-! ## One call -/

theorem isMPIBlockEnd_of_begin {content : List (Int32 × Int64)} (h : isMPIBlockBegin content) :
    isMPIBlockEnd content = false := by
  cases content with
  | nil => rfl
  | cons tv content =>
      simp only [isMPIBlockBegin, List.head?_cons, Option.any_some, Bool.and_eq_true] at h
      simp only [isMPIBlockEnd, List.head?_cons, Option.any_some, h.2, Bool.not_true,
        Bool.and_false]

theorem takeSimultaneous_eq (h : HasContent r) : s.takeSimultaneous r c cs =
    if isBlockEnd r then s.takeCommunication c cs else s.takeTrace r := by
  cases r with
  | event place timestamp content =>
      have hlength : 1 ≤ content.length := List.length_pos_iff.mpr h
      rw [Selection.takeSimultaneous, if_pos hlength]
      by_cases hbegin : isMPIBlockBegin content = true
      · have hend : isBlockEnd (.event place timestamp content) = false :=
          isMPIBlockEnd_of_begin hbegin
        rw [if_pos hbegin, hend]
        rfl
      · rw [if_neg hbegin]
        rfl
  | state place beginTime endTime stateValue => rfl
  | communication src logSend phySend dst logRecv phyRecv size tag => rfl
  | globalOp place timestamp communicatorId sendSize recvSize globalOpId rootTaskId root => rfl

theorem selectNextRecord_both (hr : s.fetch.currentTraceRecord = .record r)
    (hcontent : HasContent r) (hcs : s.fetch.communications = c :: cs) :
    s.selectNextRecord =
      if goesFirst r c then s.fetch.takeTrace r else s.fetch.takeCommunication c cs := by
  simp only [Selection.selectNextRecord, hr, hcs, takeSimultaneous_eq hcontent, goesFirst]
  by_cases hlt : getTimestamp r < c.timestamp
  · simp only [hlt, if_true, decide_true, Bool.true_or]
  by_cases hgt : c.timestamp < getTimestamp r
  · have hne : getTimestamp r ≠ c.timestamp := by
      intro heq
      rw [heq] at hgt
      exact UInt64.lt_irrefl _ hgt
    simp [hlt, hgt, hne]
  · have heq : getTimestamp r = c.timestamp := by
      rw [UInt64.lt_iff_toNat_lt] at hlt hgt
      apply UInt64.toNat_inj.mp
      omega
    by_cases htask : getTaskId r = c.place.taskId
    · by_cases hend : isBlockEnd r = true
      · simp [heq, htask, hend]
      · simp [heq, htask, hend]
    · simp [heq, htask]

/-- The records of the trace that are still to come, the one that was read and not taken with
them. -/
def Pending (s : Selection) : List ParaverRecord → Prop
  | [] => s.fetch.currentTraceRecord = .finished
  | r :: rs =>
      s.fetch.currentTraceRecord = .record r ∧ HasContent r ∧
        getNextRecords translatedRec (rs.length + 1) s.fetch.currentLine s.fetch.lines =
          rs.map .record ++ [.finished]

theorem pending_of_records (hlast : s.lastRecordTrace = true)
    (h : getNextRecords translatedRec (rs.length + 1) s.currentLine s.lines =
      rs.map .record ++ [.finished]) : Pending s rs := by
  have hfetch : s.fetch.currentTraceRecord =
      (nextTraceRecord translatedRec s.currentLine s.lines).1 := by
    rw [Selection.fetch, if_pos hlast]
  cases rs with
  | nil =>
      rw [Pending, hfetch]
      exact (List.cons.inj h).1
  | cons r rs =>
      obtain ⟨hfirst, hrest⟩ := List.cons.inj h
      refine ⟨hfetch.trans hfirst, hasContent_nextTraceRecord hfirst, ?_⟩
      rw [Selection.fetch, if_pos hlast]
      exact hrest

theorem pending_of_kept {s' : Selection} (hlast : s'.lastRecordTrace = false)
    (hrecord : s'.currentTraceRecord = s.fetch.currentTraceRecord)
    (hline : s'.currentLine = s.fetch.currentLine) (hlines : s'.lines = s.fetch.lines)
    (h : Pending s rs) : Pending s' rs := by
  have hfetch : s'.fetch = s' := by
    rw [Selection.fetch, hlast]
    rfl
  cases rs with
  | nil =>
      rw [Pending, hfetch, hrecord]
      exact h
  | cons r rs =>
      rw [Pending, hfetch, hrecord, hline, hlines]
      exact h

theorem communications_fetch (s : Selection) : s.fetch.communications = s.communications := by
  unfold Selection.fetch
  split
  · rfl
  · rfl

theorem pending_takeTrace (h : Pending s (r :: rs)) : Pending (s.fetch.takeTrace r).2 rs :=
  pending_of_records rfl h.2.2

theorem pending_takeCommunication (h : Pending s rs) :
    Pending (s.fetch.takeCommunication c cs).2 rs :=
  pending_of_kept rfl rfl rfl rfl h

/-! ## All calls -/

theorem selections_eq (h : Pending s rs) (hcs : s.communications = cs) :
    Selection.selections (rs.length + cs.length + 1) s =
      List.merge (rs.map .trace) (cs.map .communication) Selected.before ++ [.finished] := by
  induction rs generalizing s cs with
  | nil =>
      have hfinished : s.fetch.currentTraceRecord = .finished := h
      induction cs generalizing s with
      | nil =>
          have hfirst : s.selectNextRecord.1 = .finished := by
            simp only [Selection.selectNextRecord, hfinished, communications_fetch, hcs]
          rw [List.map_nil, List.nil_merge, List.length_nil, Selection.selections, hfirst]
          rfl
      | cons c cs ih =>
          have hselect : s.selectNextRecord = s.fetch.takeCommunication c cs := by
            simp only [Selection.selectNextRecord, hfinished, communications_fetch, hcs]
          have hnext : Pending (s.fetch.takeCommunication c cs).2 [] :=
            pending_takeCommunication h
          have hrest := ih hnext rfl hnext
          rw [List.map_nil, List.nil_merge, List.length_nil, Nat.zero_add] at hrest ⊢
          rw [List.length_cons, Selection.selections, hselect, hrest]
          rfl
  | cons r rs ih =>
      induction cs generalizing s with
      | nil =>
          have hselect : s.selectNextRecord = s.fetch.takeTrace r := by
            simp only [Selection.selectNextRecord, h.1, communications_fetch, hcs]
          have hrest := ih (pending_takeTrace h) ((communications_fetch s).trans hcs)
          rw [List.length_cons, Nat.add_right_comm rs.length 1, Selection.selections, hselect,
            hrest, List.map_nil, List.merge_right, List.merge_right]
          rfl
      | cons c cs ihcs =>
          have hselect := selectNextRecord_both h.1 h.2.1 ((communications_fetch s).trans hcs)
          by_cases hfirst : goesFirst r c = true
          · have hbefore : Selected.before (.trace r) (.communication c) = true := hfirst
            have hrest := ih (pending_takeTrace h) ((communications_fetch s).trans hcs)
            rw [if_pos hfirst] at hselect
            rw [List.length_cons, Nat.add_right_comm rs.length 1, Selection.selections, hselect,
              hrest, List.map_cons, List.map_cons,
              List.cons_merge_cons_pos Selected.before _ _ hbefore]
            rfl
          · have hbefore : ¬ Selected.before (.trace r) (.communication c) = true := hfirst
            have hnext : Pending (s.fetch.takeCommunication c cs).2 (r :: rs) :=
              pending_takeCommunication h
            have hrest := ihcs hnext rfl
            rw [if_neg hfirst] at hselect
            rw [List.length_cons (a := c), ← Nat.add_assoc, Selection.selections, hselect, hrest,
              List.map_cons, List.map_cons,
              List.cons_merge_cons_neg Selected.before _ _ hbefore]
            rfl

theorem isTrace_of_mem_trace : ∀ a ∈ rs.map Selected.trace, a.isTrace = true := by
  intro a ha
  obtain ⟨r, -, rfl⟩ := List.mem_map.mp ha
  rfl

theorem isTrace_of_mem_communication :
    ∀ a ∈ cs.map Selected.communication, a.isTrace = false := by
  intro a ha
  obtain ⟨c, -, rfl⟩ := List.mem_map.mp ha
  rfl

theorem pairwise_trace {Before : Selected → Selected → Prop}
    (h : rs.Pairwise fun r r' => Before (.trace r) (.trace r')) :
    (rs.map Selected.trace).Pairwise Before :=
  List.pairwise_map.mpr h

theorem pairwise_communication {Before : Selected → Selected → Prop}
    (h : cs.Pairwise fun c c' => Before (.communication c) (.communication c')) :
    (cs.map Selected.communication).Pairwise Before :=
  List.pairwise_map.mpr h

theorem isChain_merge_selected (rs : List ParaverRecord) (cs : List PartialCommunication) :
    (List.merge (rs.map .trace) (cs.map .communication) Selected.before).IsChain
      Selected.Next := by
  apply Dimemas.Library.Merging.isChain_merge
  · exact (pairwise_trace (List.pairwise_of_forall fun _ _ => trivial)).isChain
  · exact (pairwise_communication (List.pairwise_of_forall fun _ _ => trivial)).isChain
  · intro a ha b hb
    obtain ⟨r, -, rfl⟩ := List.mem_map.mp ha
    obtain ⟨c, -, rfl⟩ := List.mem_map.mp hb
    show if goesFirst r c then goesFirst r c = true else goesFirst r c = false
    split
    · assumption
    · exact eq_false_of_ne_true ‹_›

theorem lt_of_goesFirst (hfirst : goesFirst r c = true) (hend : isBlockEnd r = true) :
    getTimestamp r < c.timestamp := by
  simpa [goesFirst, hend] using hfirst

theorem pairwise_endsBlock
    (hrs : rs.Pairwise fun r r' => getTimestamp r ≤ getTimestamp r')
    (hcs : cs.Pairwise fun c c' => c.timestamp ≤ c'.timestamp) :
    Ordered Selected.time (rs.map .trace) ∧ Ordered Selected.time (cs.map .communication) ∧
      (List.merge (rs.map .trace) (cs.map .communication) Selected.before).Pairwise
        Selected.EndsBlock := by
  have htrace : Ordered Selected.time (rs.map .trace) :=
    pairwise_trace (hrs.imp fun hle => UInt64.le_iff_toNat_le.mp hle)
  have hcommunication : Ordered Selected.time (cs.map .communication) :=
    pairwise_communication (hcs.imp fun hle => UInt64.le_iff_toNat_le.mp hle)
  refine ⟨htrace, hcommunication, Dimemas.Library.Merging.pairwise_merge
    (pairwise_trace (List.pairwise_of_forall fun _ _ => trivial))
    (pairwise_communication (List.pairwise_of_forall fun _ _ => trivial)) htrace hcommunication
    ?_ ?_⟩
  · intro a ha b hb b' hb' hfirst hle
    obtain ⟨r, -, rfl⟩ := List.mem_map.mp ha
    obtain ⟨c, -, rfl⟩ := List.mem_map.mp hb
    obtain ⟨c', -, rfl⟩ := List.mem_map.mp hb'
    intro hend
    have hlt := UInt64.lt_iff_toNat_lt.mp (lt_of_goesFirst hfirst hend)
    exact UInt64.lt_iff_toNat_lt.mpr (Nat.lt_of_lt_of_le hlt hle)
  · intro a ha b hb a' ha' hsecond hle
    obtain ⟨c, -, rfl⟩ := List.mem_map.mp hb
    obtain ⟨r', -, rfl⟩ := List.mem_map.mp ha'
    trivial

/-- Every record and every communication is selected once, and each of the two keeps its order. If
both are in the order of their times, so are the selected ones, and a block ends behind the
communications of its time. -/
theorem records_selected {lines : List (List Char)} {currentLine : Nat}
    (h : getNextRecords translatedRec (rs.length + 1) currentLine lines =
      rs.map .record ++ [.finished]) (cs : List PartialCommunication) :
    ∃ selected : List Selected,
      Selection.selections (rs.length + cs.length + 1) (Selection.start lines currentLine cs) =
        selected ++ [.finished] ∧
      selected.filter Selected.isTrace = rs.map .trace ∧
      selected.filter (fun a => !a.isTrace) = cs.map .communication ∧
      selected.IsChain Selected.Next ∧
      ((rs.Pairwise fun r r' => getTimestamp r ≤ getTimestamp r') →
        (cs.Pairwise fun c c' => c.timestamp ≤ c'.timestamp) →
        Ordered Selected.time selected ∧ selected.Pairwise Selected.EndsBlock) := by
  have hpending : Pending (Selection.start lines currentLine cs) rs := pending_of_records rfl h
  obtain ⟨htrace, hcommunication⟩ := @Dimemas.Library.Merging.filter_merge _ Selected.before
    Selected.isTrace (rs.map .trace) (cs.map .communication) isTrace_of_mem_trace
    isTrace_of_mem_communication
  refine ⟨_, selections_eq hpending rfl, htrace, hcommunication, isChain_merge_selected rs cs, ?_⟩
  intro hrs hcs
  obtain ⟨hordered, hordered', hends⟩ := pairwise_endsBlock hrs hcs
  exact ⟨Dimemas.Library.Merging.ordered_merge respects_before hordered hordered', hends⟩

/-- The begin and the end of a block, a communication inside it and one at its end. -/
theorem records_selected_blockEnd :
    let place : Place := ⟨1, 1, 1, 1⟩
    let rs : List ParaverRecord :=
      [.event place 3 [(50000001, 1)], .event place 5 [(50000001, 0)]]
    let cs : List PartialCommunication :=
      [⟨0, 4, place, ⟨2, 1, 2, 1⟩, 8, 0, 1⟩, ⟨0, 5, place, ⟨2, 1, 2, 1⟩, 8, 0, 1⟩]
    let line : Char → Char → List Char := fun time value =>
      ['2', ':', '1', ':', '1', ':', '1', ':', '1', ':', time, ':', '5', '0', '0', '0', '0', '0',
        '0', '1', ':', value, Library.Formats.newline]
    ∃ selected : List Selected,
      Selection.selections (rs.length + cs.length + 1)
          (Selection.start [line '3' '1', line '5' '0'] 0 cs) = selected ++ [.finished] ∧
        selected.filter Selected.isTrace = rs.map .trace ∧
        selected.filter (fun a => !a.isTrace) = cs.map .communication ∧
        selected.IsChain Selected.Next ∧
        Ordered Selected.time selected ∧ selected.Pairwise Selected.EndsBlock := by
  intro place rs cs line
  have hread : getNextRecords translatedRec (rs.length + 1) 0 [line '3' '1', line '5' '0'] =
      rs.map .record ++ [.finished] := by decide +kernel
  obtain ⟨selected, hall, htrace, hcomms, hchain, hordered⟩ := records_selected hread cs
  exact ⟨selected, hall, htrace, hcomms, hchain, hordered (by decide) (by decide)⟩

end

end Dimemas.Prv2dim.RecordSelection
