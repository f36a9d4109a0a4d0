import Dimemas.Prv2dim.RecordDispatch
/-!
# The ends of the communications

`SplitCommunications` makes four partial communications of a communication of the trace. Behind the
sort, the selection and the loop of `Translate`, each of them is given to the thread of its end.
-/

namespace Dimemas.Prv2dim.CommunicationSplit

open Dimemas.Library.Demultiplexing
open Dimemas.Prv2dim.TraceParser
open Dimemas.Prv2dim.RecordSelection
open Dimemas.Prv2dim.RecordDispatch

def logicalSend : Int32 := 0
def physicalSend : Int32 := 1
def logicalRecv : Int32 := 2
def physicalRecv : Int32 := 3

/-- The constructor of `PartialCommunication` for a communication, with `InitFields`. The place is
that of the end. -/
def partialCommunication (type commId : Int32) (src : Place) (logSend phySend : UInt64)
    (dst : Place) (logRecv phyRecv : UInt64) (size tag : Int32) : PartialCommunication :=
  let timestamp :=
    if type = logicalSend then logSend
    else if type = physicalSend then phySend
    else if type = logicalRecv then logRecv
    else phyRecv
  if type = logicalSend ∨ type = physicalSend then ⟨type, timestamp, src, dst, size, tag, commId⟩
  else ⟨type, timestamp, dst, src, size, tag, commId⟩

/-- The values of the events 9 to 14, with which Dimemas marks an end of a communication. -/
structure PseudoEvents where
  type : Int32
  partnerTaskId : Int32
  partnerThreadId : Int32
  size : Int32
  tag : Int32
  commId : Int32

def PseudoEvents.none : PseudoEvents := ⟨-1, -1, -1, -1, -1, -1⟩

def PseudoEvents.read (p : PseudoEvents) (tv : Int32 × Int64) : PseudoEvents :=
  if tv.1 = 9 then { p with type := tv.2.toInt32 }
  else if tv.1 = 10 then { p with partnerTaskId := tv.2.toInt32 }
  else if tv.1 = 11 then { p with partnerThreadId := tv.2.toInt32 }
  else if tv.1 = 12 then { p with size := tv.2.toInt32 }
  else if tv.1 = 13 then { p with tag := tv.2.toInt32 }
  else if tv.1 = 14 then { p with commId := tv.2.toInt32 }
  else p

/-- All values but the thread must be there. -/
def PseudoEvents.Complete (p : PseudoEvents) : Prop :=
  p.type ≠ -1 ∧ p.partnerTaskId ≠ -1 ∧ p.size ≠ -1 ∧ p.tag ≠ -1 ∧ p.commId ≠ -1

instance (p : PseudoEvents) : Decidable p.Complete := inferInstanceAs (Decidable (_ ∧ _))

def pseudoEvents (content : List (Int32 × Int64)) : PseudoEvents :=
  content.foldl PseudoEvents.read PseudoEvents.none

def isPseudo (content : List (Int32 × Int64)) : Bool :=
  1 < content.length && (pseudoEvents content).Complete

def pseudoCommunication (place : Place) (timestamp : UInt64) (p : PseudoEvents) :
    PartialCommunication :=
  ⟨p.type, timestamp, ⟨0, place.appId, place.taskId, place.threadId⟩,
    ⟨0, place.appId, p.partnerTaskId, p.partnerThreadId⟩, p.size, p.tag, p.commId⟩

def splitRecord (pseudoCommId : Int32) : ParaverRecord → List PartialCommunication
  | .event place timestamp content =>
      if isPseudo content then [pseudoCommunication place timestamp (pseudoEvents content)] else []
  | .communication src logSend phySend dst logRecv phyRecv size tag =>
      [logicalSend, logicalRecv, physicalSend, physicalRecv].map fun type =>
        partialCommunication type pseudoCommId src logSend phySend dst logRecv phyRecv size tag
  | _ => []

/-- `PreviouslySimulatedTrace` is set. -/
def setsSimulated : ParaverRecord → Bool
  | .event _ _ content => isPseudo content
  | _ => false

/-- The loop of `SplitCommunications` for some records. The communications of a trace that was
simulated before are not read. -/
def splitCommunications : Nat → Int32 → Bool → Nat → List (List Char) → List PartialCommunication
  | 0, _, _, _, _ => []
  | n + 1, pseudoCommId, simulated, currentLine, lines =>
      let mask := if simulated then eventRec else commRec ||| eventRec
      let (found, currentLine, lines) := nextTraceRecord mask currentLine lines
      match found with
      | .record r =>
          splitRecord (pseudoCommId + 1) r ++
            splitCommunications n (pseudoCommId + 1) (simulated || setsSimulated r) currentLine
              lines
      | .failed _ => []
      | .finished => []

/-! ## The partial communications of a trace -/

/-- The partial communications of some records, which are numbered. -/
def splitAll : Int32 → List ParaverRecord → List PartialCommunication
  | _, [] => []
  | pseudoCommId, r :: rs => splitRecord (pseudoCommId + 1) r ++ splitAll (pseudoCommId + 1) rs

section

variable {lines : List (List Char)} {all : List ParaverRecord}

theorem splitCommunications_eq {currentLine : Nat} (pseudoCommId : Int32)
    (h : getNextRecords (commRec ||| eventRec) (all.length + 1) currentLine lines =
      all.map .record ++ [.finished]) (hsimulated : ∀ r ∈ all, setsSimulated r = false) :
    splitCommunications (all.length + 1) pseudoCommId false currentLine lines =
      splitAll pseudoCommId all := by
  induction all generalizing pseudoCommId currentLine lines with
  | nil =>
      have hfound : (nextTraceRecord (commRec ||| eventRec) currentLine lines).1 = .finished :=
        (List.cons.inj h).1
      rw [splitCommunications]
      simp only [Bool.false_eq_true, if_false, hfound]
      rfl
  | cons r all ih =>
      obtain ⟨hfound, hrest⟩ := List.cons.inj h
      have hkeep : setsSimulated r = false := hsimulated r List.mem_cons_self
      have htail := ih (pseudoCommId + 1) hrest fun r' hr' =>
        hsimulated r' (List.mem_cons_of_mem _ hr')
      rw [List.length_cons, splitCommunications]
      simp only [Bool.false_eq_true, if_false, hfound, hkeep, Bool.or_false]
      rw [htail, splitAll]

end

/-! ## What the threads are given -/

def communicationOf : Pushed → Option PartialCommunication
  | .record _ => none
  | .communication c => some c

def selectedCommunication : Selected → Option PartialCommunication
  | .communication c => some c
  | _ => none

section

variable {threads : List Nat} {key : Nat × Nat}

theorem filterMap_subEvents (r : ParaverRecord) :
    (subEvents r).filterMap communicationOf = [] := by
  apply List.filterMap_eq_nil_iff.mpr
  intro p hp
  cases r with
  | event place timestamp content =>
      unfold subEvents at hp
      simp only at hp
      split at hp
      · obtain ⟨tv, -, rfl⟩ := List.mem_map.mp hp
        rfl
      · obtain rfl := List.mem_singleton.mp hp
        rfl
  | state => obtain rfl := List.mem_singleton.mp hp; rfl
  | communication => obtain rfl := List.mem_singleton.mp hp; rfl
  | globalOp => obtain rfl := List.mem_singleton.mp hp; rfl

theorem filterMap_pushed (p : Piece) :
    p.pushed.filterMap communicationOf = (p.record.bind selectedCommunication).toList := by
  cases p with
  | idle place beginTime endTime => rfl
  | own a =>
      cases a with
      | trace r =>
          cases r with
          | state place beginTime endTime stateValue =>
              show (ite _ _ _ : List Pushed).filterMap communicationOf = []
              split <;> rfl
          | event place timestamp content =>
              exact filterMap_subEvents (.event place timestamp content)
          | communication => rfl
          | globalOp => rfl
      | communication c => rfl
      | failed message => rfl
      | finished => rfl

theorem filterMap_flatMap_pushed (ps : List Piece) :
    (ps.flatMap Piece.pushed).filterMap communicationOf =
      (ps.filterMap Piece.record).filterMap selectedCommunication := by
  induction ps with
  | nil => rfl
  | cons p ps ih =>
      rw [List.flatMap_cons, List.filterMap_append, ih, filterMap_pushed]
      cases hrecord : p.record with
      | none => rw [List.filterMap_cons_none hrecord]; rfl
      | some a =>
          rw [List.filterMap_cons_some hrecord]
          cases hcommunication : selectedCommunication a with
          | none => rw [List.filterMap_cons_none hcommunication]; simp [hcommunication]
          | some c => rw [List.filterMap_cons_some hcommunication]; simp [hcommunication]

end

/-! ## The ends of a thread -/

/-- The ends of a communication that are of a thread: the sends at its source, and the receives at
its destination. -/
def ends (threads : List Nat) (key : Nat × Nat) (commId : Int32) :
    ParaverRecord → List PartialCommunication
  | .communication src logSend phySend dst logRecv phyRecv size tag =>
      (if threadOf threads src = some key then
        [⟨logicalSend, logSend, src, dst, size, tag, commId⟩,
          ⟨physicalSend, phySend, src, dst, size, tag, commId⟩]
      else []) ++
      (if threadOf threads dst = some key then
        [⟨logicalRecv, logRecv, dst, src, size, tag, commId⟩,
          ⟨physicalRecv, phyRecv, dst, src, size, tag, commId⟩]
      else [])
  | _ => []

def endsAll (threads : List Nat) (key : Nat × Nat) : Int32 → List ParaverRecord →
    List PartialCommunication
  | _, [] => []
  | commId, r :: rs => ends threads key (commId + 1) r ++ endsAll threads key (commId + 1) rs

section

variable {threads : List Nat} {key : Nat × Nat}

theorem perm_swap_middle {α : Type*} (a b c d : α) : [a, b, c, d].Perm [a, c, b, d] :=
  (List.Perm.swap c b [d]).cons a

theorem filter_splitRecord {r : ParaverRecord} (h : setsSimulated r = false) (commId : Int32) :
    ((splitRecord commId r).filter fun c => threadOf threads c.place = some key).Perm
      (ends threads key commId r) := by
  cases r with
  | event place timestamp content =>
      have hpseudo : isPseudo content = false := h
      rw [splitRecord, hpseudo]
      exact .nil
  | communication src logSend phySend dst logRecv phyRecv size tag =>
      have hsplit : (splitRecord commId
          (.communication src logSend phySend dst logRecv phyRecv size tag)).Perm
            ([⟨logicalSend, logSend, src, dst, size, tag, commId⟩,
              ⟨physicalSend, phySend, src, dst, size, tag, commId⟩] ++
            [⟨logicalRecv, logRecv, dst, src, size, tag, commId⟩,
              ⟨physicalRecv, phyRecv, dst, src, size, tag, commId⟩]) :=
        perm_swap_middle _ _ _ _
      apply (hsplit.filter _).trans
      rw [List.filter_append, ends]
      by_cases hsrc : threadOf threads src = some key
      · by_cases hdst : threadOf threads dst = some key
        · simp [hsrc, hdst]
        · simp [hsrc, hdst]
      · by_cases hdst : threadOf threads dst = some key
        · simp [hsrc, hdst]
        · simp [hsrc, hdst]
  | state => exact .nil
  | globalOp => exact .nil

theorem filter_splitAll {all : List ParaverRecord} (h : ∀ r ∈ all, setsSimulated r = false)
    (commId : Int32) :
    ((splitAll commId all).filter fun c => threadOf threads c.place = some key).Perm
      (endsAll threads key commId all) := by
  induction all generalizing commId with
  | nil => exact .nil
  | cons r all ih =>
      rw [splitAll, endsAll, List.filter_append]
      apply List.Perm.append
      · exact filter_splitRecord (h r List.mem_cons_self) (commId + 1)
      · exact ih (fun r' hr' => h r' (List.mem_cons_of_mem _ hr')) (commId + 1)

/-! ## The way of the communications -/

theorem translated_append_finished {as : List Selected}
    (h : ∀ a ∈ as, (selectedPlace a).isSome) : translated (as ++ [.finished]) = as := by
  rw [translated, List.takeWhile_append_of_pos h]
  exact List.append_nil as

theorem isSome_of_mem_merge {rs : List ParaverRecord} {cs : List PartialCommunication} :
    ∀ a ∈ List.merge (rs.map .trace) (cs.map .communication) Selected.before,
      (selectedPlace a).isSome := by
  intro a ha
  rcases List.mem_merge.mp ha with h | h
  · obtain ⟨r, -, rfl⟩ := List.mem_map.mp h
    rfl
  · obtain ⟨c, -, rfl⟩ := List.mem_map.mp h
    rfl

theorem filterMap_selectedCommunication (as : List Selected) :
    as.filterMap selectedCommunication =
      (as.filter fun a => !a.isTrace).filterMap selectedCommunication := by
  induction as with
  | nil => rfl
  | cons a as ih =>
      cases a with
      | trace r => exact ih
      | communication c => exact congrArg (c :: ·) ih
      | failed message => exact ih
      | finished => exact ih

theorem filterMap_map_communication (cs : List PartialCommunication) :
    (cs.map Selected.communication).filterMap selectedCommunication = cs := by
  rw [List.filterMap_map]
  exact List.filterMap_some

/-- Of the merged records, a thread is given the communications of its place. -/
theorem filterMap_recordsOf {rs : List ParaverRecord} {cs : List PartialCommunication} :
    (recordsOf threads key (List.merge (rs.map .trace) (cs.map .communication) Selected.before ++
        [.finished])).filterMap selectedCommunication =
      cs.filter fun c => threadOf threads c.place = some key := by
  have hcommunication := (@Dimemas.Library.Merging.filter_merge _ Selected.before
    Selected.isTrace (rs.map .trace) (cs.map .communication) isTrace_of_mem_trace
    isTrace_of_mem_communication).2
  rw [recordsOf, translated_append_finished isSome_of_mem_merge, filterMap_selectedCommunication,
    List.filter_comm, hcommunication, List.filter_map, filterMap_map_communication]
  rfl

/-- Of a trace that was not simulated before, every thread is given its own ends of the
communications, and no others: each send at the thread of the source and each receive at the thread
of the destination, both with the number of the communication. They come in the order that the
sort gives. -/
theorem communications_delivered {lines : List (List Char)} {currentLine : Nat}
    {all rs : List ParaverRecord} {cs : List PartialCommunication}
    (hall : getNextRecords (commRec ||| eventRec) (all.length + 1) currentLine lines =
      all.map .record ++ [.finished])
    (hsimulated : ∀ r ∈ all, setsSimulated r = false)
    (hrs : getNextRecords translatedRec (rs.length + 1) currentLine lines =
      rs.map .record ++ [.finished])
    (hsort : cs.Perm (splitCommunications (all.length + 1) 0 false currentLine lines))
    (hkey : IsThread threads key) :
    let selected := Selection.selections (rs.length + cs.length + 1)
      (Selection.start lines currentLine cs)
    let given := (ofKey key (translate threads selected).pushed).filterMap communicationOf
    given = (cs.filter fun c => threadOf threads c.place = some key) ∧
      given.Perm (endsAll threads key 0 all) := by
  intro selected given
  have hpending : Pending (Selection.start lines currentLine cs) rs := pending_of_records rfl hrs
  have hselected : selected =
      List.merge (rs.map .trace) (cs.map .communication) Selected.before ++ [.finished] :=
    selections_eq hpending rfl
  have hgiven : given = cs.filter fun c => threadOf threads c.place = some key := by
    have hpieces : ofKey key (translate threads selected).pushed =
        (pieces none (recordsOf threads key selected)).flatMap Piece.pushed :=
      (ofKey_translate hkey).trans (outputs_eq_pieces isSome_of_mem_recordsOf)
    show (ofKey key (translate threads selected).pushed).filterMap communicationOf = _
    rw [hpieces, filterMap_flatMap_pushed, record_pieces, hselected, filterMap_recordsOf]
  refine ⟨hgiven, ?_⟩
  rw [hgiven]
  rw [splitCommunications_eq 0 hall hsimulated] at hsort
  exact (hsort.filter _).trans (filter_splitAll hsimulated 0)

def messageLine : List Char :=
  ['3', ':', '1', ':', '1', ':', '1', ':', '1', ':', '2', ':', '3', ':', '2', ':', '1', ':', '2',
    ':', '1', ':', '4', ':', '6', ':', '8', ':', '0', Library.Formats.newline]

def message : ParaverRecord := .communication ⟨1, 1, 1, 1⟩ 2 3 ⟨2, 1, 2, 1⟩ 4 6 8 0

/-- The second task is given the two ends of the receive. -/
theorem communications_delivered_message :
    let cs := splitAll 0 [message]
    let selected := Selection.selections (0 + cs.length + 1) (Selection.start [messageLine] 0 cs)
    let given := (ofKey (1, 0) (translate [1, 1] selected).pushed).filterMap communicationOf
    (given = (cs.filter fun c => threadOf [1, 1] c.place = some (1, 0)) ∧
      given.Perm (endsAll [1, 1] (1, 0) 0 [message])) ∧
    endsAll [1, 1] (1, 0) 0 [message] =
      [⟨2, 4, ⟨2, 1, 2, 1⟩, ⟨1, 1, 1, 1⟩, 8, 0, 1⟩,
        ⟨3, 6, ⟨2, 1, 2, 1⟩, ⟨1, 1, 1, 1⟩, 8, 0, 1⟩] := by
  intro cs selected given
  have hall : getNextRecords (commRec ||| eventRec) ([message].length + 1) 0 [messageLine] =
      [message].map .record ++ [.finished] := by decide +kernel
  have hrs : getNextRecords translatedRec (([] : List ParaverRecord).length + 1) 0 [messageLine] =
      ([] : List ParaverRecord).map .record ++ [.finished] := by decide +kernel
  have hsimulated : ∀ r ∈ [message], setsSimulated r = false := by
    intro r hr
    obtain rfl := List.mem_singleton.mp hr
    rfl
  have hsort : cs.Perm (splitCommunications ([message].length + 1) 0 false 0 [messageLine]) := by
    rw [splitCommunications_eq 0 hall hsimulated]
  have hkey : IsThread [1, 1] (1, 0) := by decide
  exact ⟨communications_delivered hall hsimulated hrs hsort hkey, by decide +kernel⟩

end

end Dimemas.Prv2dim.CommunicationSplit
