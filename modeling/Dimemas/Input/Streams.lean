import Dimemas.Library.Lines
import Dimemas.Library.Simulation
/-!
# The streams of a trace

The threads of an application read their records through streams that they share. A stream keeps
its position for the thread that used it last, and is repositioned for another one.
-/

namespace Dimemas.Input.Streams

open Dimemas.Library.Lines
open Dimemas.Library.Simulation

abbrev ThreadId := Nat × Nat

/-- What a line is for `DAP_read_action`. The fields of a record may be wrong. -/
inductive Parsed (α : Type*)
  | record (id : ThreadId) (action : Option α)
  | offsets
  | wrong

def newline : Char := Char.ofNat 10

/-- The trace of an application, the streams for it, and the operations that its threads ignore. -/
structure Trace (α : Type*) where
  text : List Char
  threadsCount : List Nat
  assignedStreams : Nat
  threadsOffsets : ThreadId → Nat
  withDeadlockAnalysis : Bool
  opsToBeIgnored : ThreadId → List Nat
  parse : List Char → Parsed α

variable {α : Type*}

/-- The threads in the order of the loops of `DAP_allocate_streams`. -/
def Trace.threads (trace : Trace α) : List ThreadId :=
  trace.threadsCount.zipIdx.flatMap fun (count, task) => (List.range count).map (task, ·)

/-- The stream that `DAP_allocate_streams` gives to a thread. -/
def Trace.streamsIdxs (trace : Trace α) (id : ThreadId) : Nat :=
  trace.threads.idxOf id * trace.assignedStreams / trace.threads.length

/-- `fp_share`: the position of a stream that was opened, and the thread that used it last. -/
structure Stream where
  fp : Option Nat
  last : Option ThreadId

/-- The fields of `app_struct` that change, and the counters of the threads. -/
structure Reader where
  streams : Nat → Stream
  currentThreadsOffsets : ThreadId → Nat
  lastCurrentThreadsOffsets : ThreadId → Nat
  counterOpsAlreadyIgnored : ThreadId → Nat

/-- `no_more_actions`, an action, or FALSE. -/
inductive ReadResult (α : Type*)
  | action (a : α)
  | noMoreActions
  | failed
deriving DecidableEq

/-- The streams are not opened. The last offsets are not initialized. -/
def Reader.initial (trace : Trace α) (lastOffsets : ThreadId → Nat) : Reader where
  streams _ := ⟨none, some (0, 0)⟩
  currentThreadsOffsets := trace.threadsOffsets
  lastCurrentThreadsOffsets := lastOffsets
  counterOpsAlreadyIgnored _ := 0

def Reader.place (trace : Trace α) (r : Reader) (id : ThreadId) (position : Nat) : Reader :=
  { r with
    streams := Function.update r.streams (trace.streamsIdxs id) ⟨some position, some id⟩ }

/-- The position of the stream of a thread behind `DAP_get_stream`. -/
def Reader.position (trace : Trace α) (r : Reader) (id : ThreadId) : Nat :=
  let stream := r.streams (trace.streamsIdxs id)
  match stream.fp with
  | none => trace.threadsOffsets id
  | some position => if stream.last = some id then position else r.currentThreadsOffsets id

def getStream (trace : Trace α) (r : Reader) (id : ThreadId) : Reader :=
  r.place trace id (r.position trace id)

def Reader.advance (r : Reader) (id : ThreadId) (bytesRead : Nat) : Reader :=
  { r with
    lastCurrentThreadsOffsets :=
      Function.update r.lastCurrentThreadsOffsets id (r.currentThreadsOffsets id)
    currentThreadsOffsets :=
      Function.update r.currentThreadsOffsets id (r.currentThreadsOffsets id + bytesRead) }

def Trace.linesFrom (trace : Trace α) (position : Nat) : List (List Char) :=
  splitLines newline (trace.text.drop position)

def Trace.ignored (trace : Trace α) (id : ThreadId) : List Nat :=
  if trace.withDeadlockAnalysis && id.2 = 0 then trace.opsToBeIgnored id else []

/-- The part of `DAP_read_action` that skips an operation. It reads one line. -/
def skipIgnored (trace : Trace α) (r : Reader) (id : ThreadId) (position : Nat) : Reader × Nat :=
  if r.counterOpsAlreadyIgnored id < (trace.ignored id).length ∧ position ∈ trace.ignored id then
    match trace.linesFrom position with
    | line :: _ =>
        ({ r.advance id line.length with
            counterOpsAlreadyIgnored :=
              Function.update r.counterOpsAlreadyIgnored id (r.counterOpsAlreadyIgnored id + 1) },
          position + line.length)
    | [] =>
        -- `getline` returned −1
        ({ r with
            lastCurrentThreadsOffsets :=
              Function.update r.lastCurrentThreadsOffsets id (r.currentThreadsOffsets id)
            currentThreadsOffsets :=
              Function.update r.currentThreadsOffsets id (r.currentThreadsOffsets id - 1)
            counterOpsAlreadyIgnored :=
              Function.update r.counterOpsAlreadyIgnored id (r.counterOpsAlreadyIgnored id + 1) },
          position)
  else (r, position)

/-- The part of `DAP_read_action` that reads a line that is not empty, and what it returns. -/
def readRecord (trace : Trace α) (r : Reader) (id : ThreadId) (position : Nat) :
    Reader × Nat × ReadResult α :=
  let lines := trace.linesFrom position
  let start := position + (lines.takeWhile (· = [newline])).flatten.length
  match lines.dropWhile (· = [newline]) with
  | [] => (r, start, .noMoreActions)
  | line :: _ =>
      match trace.parse line with
      | .record readId action =>
          if readId = id then
            match action with
            | some a => (r.advance id line.length, start + line.length, .action a)
            | none => (r, start + line.length, .failed)
          else (r, start + line.length, .noMoreActions)
      | .offsets => (r, start + line.length, .noMoreActions)
      | .wrong => (r, start + line.length, .failed)

def readAction (trace : Trace α) (r : Reader) (id : ThreadId) : Reader × ReadResult α :=
  let position := r.position trace id
  let (r, position) := skipIgnored trace (getStream trace r id) id position
  let (r, position, result) := readRecord trace r id position
  (r.place trace id position, result)

/-- The number of values of an `unsigned int`. -/
def uintRange : Nat := 4294967296

/-- `DAP_get_offset`, an `unsigned int`. -/
def getOffset (trace : Trace α) (r : Reader) (id : ThreadId) : Reader × Nat :=
  let r := getStream trace r id
  (r, r.lastCurrentThreadsOffsets id % uintRange)

def resetAppStreamFps (trace : Trace α) (r : Reader) : Reader :=
  { r with
    streams := fun idx =>
      if idx ∈ trace.threads.map trace.streamsIdxs then { r.streams idx with last := none }
      else r.streams idx }

/-- `DAP_restart_fps`, and the counter of the thread that starts again. -/
def restartFps (trace : Trace α) (r : Reader) (id : ThreadId) : Reader :=
  resetAppStreamFps trace
    { r with
      currentThreadsOffsets :=
        Function.update r.currentThreadsOffsets id (trace.threadsOffsets id)
      lastCurrentThreadsOffsets :=
        Function.update r.lastCurrentThreadsOffsets id (trace.threadsOffsets id)
      counterOpsAlreadyIgnored := Function.update r.counterOpsAlreadyIgnored id 0 }

/-- `DATA_ACCESS_reload_ptask`. -/
def reloadPtask (trace : Trace α) (r : Reader) : Reader :=
  resetAppStreamFps trace { r with
    currentThreadsOffsets := fun id =>
      if trace.threads.contains id then trace.threadsOffsets id else r.currentThreadsOffsets id }

/-- What is asked of the reader. An action that was read is delivered at once or later, when it is
read asynchronously. -/
inductive Request
  | readAction (id : ThreadId)
  | deliver (id : ThreadId)
  | getOffset (id : ThreadId)
  | restartFps (id : ThreadId)
  | reloadPtask
deriving DecidableEq

def Request.threadId : Request → Option ThreadId
  | .readAction id => some id
  | .deliver id => some id
  | .getOffset id => some id
  | .restartFps id => some id
  | .reloadPtask => none

inductive Response (α : Type*)
  | read (result : ReadResult α)
  | offset (o : Nat)
  | done
deriving DecidableEq

def Reader.serve (trace : Trace α) (r : Reader) : Request → Reader × Response α
  | .readAction id => ((readAction trace r id).1, .read (readAction trace r id).2)
  | .deliver _ => (r, .done)
  | .getOffset id => ((getOffset trace r id).1, .offset (getOffset trace r id).2)
  | .restartFps id => (restartFps trace r id, .done)
  | .reloadPtask => (reloadPtask trace r, .done)

/-! ## A reader with a file for each thread -/

def Trace.ownRecord (trace : Trace α) (id : ThreadId) (x : Nat × List Char) : Option (Nat × α) :=
  match trace.parse x.2 with
  | .record readId (some a) => if readId = id then some (x.1, a) else none
  | _ => none

def Trace.recordsFrom (trace : Trace α) (id : ThreadId) (position : Nat) : List (Nat × α) :=
  (located position (trace.linesFrom position)).filterMap (trace.ownRecord id)

def Trace.records (trace : Trace α) (id : ThreadId) : List (Nat × α) := trace.recordsFrom id 0

/-- The records that are left to each thread, the offsets of those that were read and are not yet
delivered, and the offsets of the record that was delivered last and of the one that was read
last. -/
structure Ideal (α : Type*) where
  remaining : ThreadId → List (Nat × α)
  ahead : ThreadId → List Nat
  delivered : ThreadId → Option Nat
  lastRead : ThreadId → Option Nat

def Ideal.initial (trace : Trace α) : Ideal α :=
  ⟨trace.records, fun _ => [], fun _ => none, fun _ => none⟩

def Ideal.readAction (trace : Trace α) (s : Ideal α) (id : ThreadId) : Ideal α × ReadResult α :=
  match (s.remaining id).dropWhile fun x => x.1 ∈ trace.ignored id with
  | (o, a) :: rest =>
      ({ s with
          remaining := Function.update s.remaining id rest
          ahead := Function.update s.ahead id (s.ahead id ++ [o])
          lastRead := Function.update s.lastRead id (some o) }, .action a)
  | [] =>
      ({ s with
          remaining := Function.update s.remaining id []
          lastRead := Function.update s.lastRead id none }, .noMoreActions)

def Ideal.deliver (s : Ideal α) (id : ThreadId) : Ideal α :=
  { s with
    ahead := Function.update s.ahead id (s.ahead id).tail
    delivered := Function.update s.delivered id (s.ahead id).head? }

def Ideal.serve (trace : Trace α) (s : Ideal α) : Request → Ideal α × Response α
  | .readAction id => ((s.readAction trace id).1, .read (s.readAction trace id).2)
  | .deliver id => (s.deliver id, .done)
  | .getOffset id => (s, .offset ((s.delivered id).getD 0))
  | .restartFps id =>
      ({ s with
          remaining := Function.update s.remaining id (trace.records id)
          lastRead := Function.update s.lastRead id none }, .done)
  | .reloadPtask => ({ s with remaining := trace.records, lastRead := fun _ => none }, .done)

/-! ## Positions of a thread -/

def Trace.OwnLine (trace : Trace α) (id : ThreadId) (line : List Char) : Prop :=
  line ≠ [newline] ∧ ∃ a, trace.parse line = .record id (some a)

/-- A record of another thread, or a line of offsets. -/
def Trace.OtherLine (trace : Trace α) (id : ThreadId) (line : List Char) : Prop :=
  line ≠ [newline] ∧
    (trace.parse line = .offsets ∨ ∃ readId a, readId ≠ id ∧ trace.parse line = .record readId a)

/-- Records of the thread begin at a position, and none of them is behind other lines. -/
def Trace.Tidy (trace : Trace α) (id : ThreadId) (position : Nat) : Prop :=
  ∃ before block after, splitLines newline trace.text = before ++ (block ++ after) ∧
    before.flatten.length = position ∧ (∀ line ∈ block, trace.OwnLine id line) ∧
    ∀ line ∈ after, trace.OtherLine id line

/-- The records of each thread are grouped at its offset. -/
def Trace.WellFormed (trace : Trace α) : Prop :=
  ∀ id ∈ trace.threads, ∃ before block after,
    splitLines newline trace.text = before ++ (block ++ after) ∧
    before.flatten.length = trace.threadsOffsets id ∧
    (∀ line ∈ before, ∀ a, trace.parse line ≠ .record id a) ∧
    (∀ line ∈ block, trace.OwnLine id line) ∧ ∀ line ∈ after, trace.OtherLine id line

def Trace.IgnoresRecords (trace : Trace α) : Prop :=
  ∀ id ∈ trace.threads, ∀ o ∈ trace.ignored id, o ∈ (trace.records id).map Prod.fst

instance (trace : Trace α) : Decidable trace.IgnoresRecords :=
  inferInstanceAs (Decidable (∀ id ∈ trace.threads, _))

/-- A request of a thread of the application. -/
def Trace.Asks (trace : Trace α) (q : Request) : Prop := ∀ id ∈ q.threadId, id ∈ trace.threads

section

variable {trace : Trace α} {r : Reader} {id : ThreadId} {position : Nat} {a : α} {o : Nat}
  {line : List Char} {rest : List (Nat × α)}

theorem ownRecord_of_own (h : trace.OwnLine id line) :
    ∃ a, trace.parse line = .record id (some a) ∧
      trace.ownRecord id (o, line) = some (o, a) := by
  obtain ⟨-, a, hparse⟩ := h
  refine ⟨a, hparse, ?_⟩
  simp [Trace.ownRecord, hparse]

theorem ownRecord_of_other (h : trace.OtherLine id line) :
    trace.ownRecord id (o, line) = none := by
  obtain ⟨-, hparse | ⟨readId, a, hne, hparse⟩⟩ := h
  · simp [Trace.ownRecord, hparse]
  · cases a <;> simp [Trace.ownRecord, hparse, hne]

theorem recordsFrom_cons {lines : List (List Char)} (id : ThreadId)
    (h : trace.linesFrom position = line :: lines) :
    trace.linesFrom (position + line.length) = lines ∧
      trace.recordsFrom id position =
        (trace.ownRecord id (position, line)).toList ++
          trace.recordsFrom id (position + line.length) := by
  have hlines : trace.linesFrom (position + line.length) = lines := by
    unfold Trace.linesFrom
    rw [← List.drop_drop]
    exact splitLines_drop_cons h
  refine ⟨hlines, ?_⟩
  unfold Trace.recordsFrom
  rw [h, hlines, located, List.filterMap_cons]
  cases trace.ownRecord id (position, line) <;> rfl

theorem Trace.Tidy.linesFrom (h : trace.Tidy id position) :
    ∃ block after, trace.linesFrom position = block ++ after ∧
      (∀ line ∈ block, trace.OwnLine id line) ∧ ∀ line ∈ after, trace.OtherLine id line := by
  obtain ⟨before, block, after, hsplit, rfl, hblock, hafter⟩ := h
  exact ⟨block, after, splitLines_drop hsplit, hblock, hafter⟩

theorem recordsFrom_of_other {lines : List (List Char)} (h : trace.linesFrom position = lines)
    (hother : ∀ line ∈ lines, trace.OtherLine id line) : trace.recordsFrom id position = [] := by
  unfold Trace.recordsFrom
  rw [h, List.filterMap_eq_nil_iff]
  intro x hx
  exact ownRecord_of_other (hother x.2 (located_end_le hx).1)

theorem Trace.Tidy.cases (h : trace.Tidy id position) :
    (trace.linesFrom position = [] ∧ trace.recordsFrom id position = []) ∨
    (∃ line lines, trace.linesFrom position = line :: lines ∧ trace.OtherLine id line ∧
      trace.Tidy id (position + line.length) ∧ trace.recordsFrom id position = [] ∧
      trace.recordsFrom id (position + line.length) = []) ∨
    ∃ line lines a, trace.linesFrom position = line :: lines ∧ line ≠ [newline] ∧
      trace.parse line = .record id (some a) ∧ trace.Tidy id (position + line.length) ∧
      trace.recordsFrom id position =
        (position, a) :: trace.recordsFrom id (position + line.length) := by
  obtain ⟨before, block, after, hsplit, hposition, hblock, hafter⟩ := h
  have hlines : trace.linesFrom position = block ++ after := by
    rw [← hposition]
    exact splitLines_drop hsplit
  cases block with
  | nil =>
      have hnone := recordsFrom_of_other hlines hafter
      cases after with
      | nil => exact .inl ⟨hlines, hnone⟩
      | cons line after =>
          right
          left
          obtain ⟨hnext, -⟩ := recordsFrom_cons id hlines
          have hrest : ∀ x ∈ after, trace.OtherLine id x := fun x hx => hafter x (by simp [hx])
          refine ⟨line, after, hlines, hafter line (by simp), ?_, hnone,
            recordsFrom_of_other hnext hrest⟩
          refine ⟨before ++ [line], [], after, by simp [hsplit], ?_, by simp, hrest⟩
          simp [hposition]
  | cons line block =>
      right
      right
      obtain ⟨-, hrecords⟩ := recordsFrom_cons id hlines
      obtain ⟨a, hparse, hown⟩ := ownRecord_of_own (o := position) (hblock line (by simp))
      refine ⟨line, block ++ after, a, hlines, (hblock line (by simp)).1, hparse, ?_, ?_⟩
      · refine ⟨before ++ [line], block, after, by simp [hsplit], ?_,
          fun x hx => hblock x (by simp [hx]), hafter⟩
        simp [hposition]
      · rw [hrecords, hown]
        rfl

theorem readRecord_of_nil (r : Reader) (h : trace.Tidy id position)
    (hrecords : trace.recordsFrom id position = []) :
    ∃ next, readRecord trace r id position = (r, next, .noMoreActions) ∧ trace.Tidy id next ∧
      trace.recordsFrom id next = [] := by
  unfold readRecord
  rcases h.cases with ⟨hlines, -⟩ | ⟨line, lines, hlines, ⟨hblank, hparse⟩, htidy, -, hnext⟩ |
    ⟨line, lines, a, -, -, -, -, hcons⟩
  · refine ⟨position, ?_, h, hrecords⟩
    simp [hlines]
  · refine ⟨position + line.length, ?_, htidy, hnext⟩
    rcases hparse with hparse | ⟨readId, a, hne, hparse⟩
    · simp [hlines, hblank, hparse]
    · simp [hlines, hblank, hparse, hne]
  · rw [hrecords] at hcons
    cases hcons

theorem readRecord_of_cons (r : Reader) (h : trace.Tidy id position)
    (hrecords : trace.recordsFrom id position = (o, a) :: rest) :
    o = position ∧ ∃ bytesRead, 0 < bytesRead ∧
      readRecord trace r id position =
        (r.advance id bytesRead, position + bytesRead, .action a) ∧
      trace.Tidy id (position + bytesRead) ∧ trace.recordsFrom id (position + bytesRead) = rest := by
  unfold readRecord
  rcases h.cases with ⟨-, hnil⟩ | ⟨line, lines, -, -, -, hnil, -⟩ |
    ⟨line, lines, a', hlines, hblank, hparse, htidy, hcons⟩
  · rw [hrecords] at hnil
    cases hnil
  · rw [hrecords] at hnil
    cases hnil
  · rw [hrecords] at hcons
    obtain ⟨hhead, hrest⟩ := List.cons.inj hcons
    obtain ⟨rfl, rfl⟩ := Prod.mk.inj hhead
    refine ⟨rfl, line.length, ?_, ?_, htidy, hrest.symm⟩
    · apply length_pos_of_mem_splitLines
      show line ∈ trace.linesFrom o
      simp [hlines]
    · simp [hlines, hblank, hparse]

theorem Trace.Tidy.mem_recordsFrom (h : trace.Tidy id position) {x : Nat × α}
    (hx : x ∈ trace.records id) (hle : position ≤ x.1) : x ∈ trace.recordsFrom id position := by
  obtain ⟨before, block, after, hsplit, hposition, -, -⟩ := h
  have hlines : trace.linesFrom position = block ++ after := by
    rw [← hposition]
    exact splitLines_drop hsplit
  have hall : trace.linesFrom 0 = before ++ (block ++ after) := hsplit
  unfold Trace.records Trace.recordsFrom at hx
  rw [hall, located_append, List.filterMap_append, Nat.zero_add, hposition] at hx
  unfold Trace.recordsFrom
  rw [hlines]
  rcases List.mem_append.mp hx with hx | hx
  · obtain ⟨y, hy, hown⟩ := List.mem_filterMap.mp hx
    obtain ⟨hmem, hend⟩ := located_end_le hy
    have hline : y.2 ∈ splitLines newline trace.text := by
      rw [hsplit]
      exact List.mem_append_left _ hmem
    have hpos := length_pos_of_mem_splitLines hline
    have hxy : x.1 = y.1 := by
      unfold Trace.ownRecord at hown
      split at hown
      · split at hown
        · rw [← Option.some.inj hown]
        · cases hown
      · cases hown
    omega
  · exact hx

theorem Trace.WellFormed.tidy (h : trace.WellFormed) (hid : id ∈ trace.threads) :
    trace.Tidy id (trace.threadsOffsets id) ∧
      trace.recordsFrom id (trace.threadsOffsets id) = trace.records id := by
  obtain ⟨before, block, after, hsplit, hposition, hbefore, hblock, hafter⟩ := h id hid
  refine ⟨⟨before, block, after, hsplit, hposition, hblock, hafter⟩, ?_⟩
  have hlines : trace.linesFrom (trace.threadsOffsets id) = block ++ after := by
    rw [← hposition]
    exact splitLines_drop hsplit
  have hall : trace.linesFrom 0 = before ++ (block ++ after) := hsplit
  have hnone : (located 0 before).filterMap (trace.ownRecord id) = [] := by
    rw [List.filterMap_eq_nil_iff]
    intro x hx
    have hparse := hbefore x.2 (located_end_le hx).1
    unfold Trace.ownRecord
    split
    · next readId a heq =>
        rw [if_neg]
        rintro rfl
        exact hparse _ heq
    · rfl
  have hlocated : located 0 (before ++ (block ++ after)) =
      located 0 before ++ located (0 + before.flatten.length) (block ++ after) := located_append 0
  unfold Trace.records Trace.recordsFrom
  rw [hlines, hall, hlocated, List.filterMap_append, hnone, Nat.zero_add, hposition,
    List.nil_append]

end

end Dimemas.Input.Streams
