import Dimemas.Input.TraceSizes
import Dimemas.Library.Scanning
import Mathlib.Algebra.Order.Ring.Rat
import Mathlib.Tactic.FieldSimp
import Mathlib.Tactic.Linarith
/-!
# The progress of the threads in a trace

Deadlock analysis is switched off when a thread has read a part of its records. The part is taken
from the size of the records of the thread, which is right if all tasks have one thread, and the
blank lines between the records are not counted.
-/

namespace Dimemas.Input.ReadingProgress

open Dimemas.Library.BinaryRounding
open Dimemas.Library.Lines
open Dimemas.Input.Streams
open Dimemas.Input.TraceSizes

/-- A trace with its offsets. The records of the threads are in the order of the tasks and of their
threads, and the lines of offsets are behind them. -/
structure Layout (α : Type*) where
  trace : Trace α
  head : List (List Char)
  records : ThreadId → List (List Char)
  offsets : List (List Char)
  lines : splitLines newline trace.text = head ++ (trace.threads.flatMap records ++ offsets)
  threadsOffsets : ∀ before id after, trace.threads = before ++ id :: after →
    trace.threadsOffsets id = (head ++ before.flatMap records).flatten.length
  counts : ∀ count ∈ trace.threadsCount, 0 < count
  own : ∀ id ∈ trace.threads, ∀ line ∈ records id, line = [newline] ∨ trace.OwnLine id line
  nonempty : ∀ id ∈ trace.threads, ∃ line ∈ records id, trace.OwnLine id line
  headParse : ∀ line ∈ head, ∀ id a, trace.parse line ≠ .record id a
  offsetsParse : ∀ line ∈ offsets, line ≠ [newline] ∧ trace.parse line = .offsets
  blankParse : trace.parse [newline] = .wrong
  ignores : trace.IgnoresRecords

variable {α : Type*}

def Layout.offsetsOffset (L : Layout α) : Nat :=
  (L.head ++ L.trace.threads.flatMap L.records).flatten.length

def Layout.size (L : Layout α) (id : ThreadId) : Nat := (L.records id).flatten.length

/-- A thread finds no record where it reads next. -/
def Layout.Exhausted (L : Layout α) (r : Reader) (id : ThreadId) : Prop :=
  (readRecord L.trace r id (r.position L.trace id)).2.2 = .noMoreActions

/-- The progress of the threads is a part of their records. -/
structure Layout.Progresses (L : Layout α) (sizes : Sizes) (r : Reader) : Prop where
  bounds : ∀ id ∈ L.trace.threads, ∃ q, getProgression L.trace sizes r id = some q ∧
    0 ≤ q ∧ q ≤ 1
  complete : ∀ id ∈ L.trace.threads, getProgression L.trace sizes r id = some 1 ↔
    L.Exhausted r id
  grows : ∀ id ∈ L.trace.threads, ∀ request, L.trace.Asks request → request ≠ .restartFps id →
    request ≠ .reloadPtask → ∀ q q', getProgression L.trace sizes r id = some q →
    getProgression L.trace sizes (r.serve L.trace request).1 id = some q' → q ≤ q'

def Layout.reader (L : Layout α) (lastOffsets : ThreadId → Nat) (requests : List Request) :
    Reader :=
  requests.foldl (fun r request => (r.serve L.trace request).1) (.initial L.trace lastOffsets)

/-- The sizes of all threads are right, and at all positions that are reached the progress is. -/
def Layout.ReportsProgress (L : Layout α) : Prop :=
  ∃ sizes, readOffsets L.trace L.offsetsOffset = some sizes ∧
    (∀ id ∈ L.trace.threads, sizes[progressionIndex L.trace id]? = some (some (L.size id : Int))) ∧
    ∀ lastOffsets requests, (∀ request ∈ requests, L.trace.Asks request) →
      L.Progresses sizes (L.reader lastOffsets requests)

/-- No lines between the records are blank. -/
def Layout.Plain (L : Layout α) : Prop :=
  ∀ id ∈ L.trace.threads, ∀ line ∈ L.records id, line ≠ [newline]

/-- An `int` has the sizes, and the last record of a thread is not lost when they are rounded. -/
structure Layout.Sized (L : Layout α) : Prop where
  sizes : ∀ id ∈ L.trace.threads, L.size id < 2147483648
  last : ∀ id ∈ L.trace.threads, ∀ line ∈ (L.records id).getLast?,
    toFloat ((L.size id - line.length : Nat) : ℚ) < toFloat (L.size id : ℚ)

section

variable {L : Layout α} {r : Reader} {id : ThreadId} {position : Nat}
  {read left : List (List Char)}

/-! ## The lines of a thread -/

/-- A line that a thread does not read as a record. -/
def Layout.Skipped (L : Layout α) (id : ThreadId) (line : List Char) : Prop :=
  line = [newline] ∨ L.trace.OtherLine id line

/-- The thread has read some lines up to a position. -/
structure Layout.Reading (L : Layout α) (id : ThreadId) (read left : List (List Char))
    (position : Nat) : Prop where
  records : L.records id = read ++ left
  position : position = L.trace.threadsOffsets id + read.flatten.length

/-- No record of the thread is at a position or behind it. -/
def Layout.Past (L : Layout α) (id : ThreadId) (position : Nat) : Prop :=
  ∃ before rest, splitLines newline L.trace.text = before ++ rest ∧
    before.flatten.length = position ∧ ∀ line ∈ rest, L.Skipped id line

theorem Layout.skipped_of_ne (L : Layout α) {other : ThreadId} (hother : other ∈ L.trace.threads)
    (hne : other ≠ id) {line : List Char} (hline : line ∈ L.records other) : L.Skipped id line := by
  rcases L.own other hother line hline with hblank | ⟨hline, a, hparse⟩
  · exact .inl hblank
  · exact .inr ⟨hline, .inr ⟨other, some a, hne, hparse⟩⟩

theorem Layout.split (L : Layout α) (hid : id ∈ L.trace.threads) :
    ∃ before after, splitLines newline L.trace.text = before ++ (L.records id ++ after) ∧
      before.flatten.length = L.trace.threadsOffsets id ∧ ∀ line ∈ after, L.Skipped id line := by
  obtain ⟨first, last, hthreads⟩ := List.append_of_mem hid
  have hnodup := @nodup_threads _ L.trace
  refine ⟨L.head ++ first.flatMap L.records, last.flatMap L.records ++ L.offsets, ?_,
    (L.threadsOffsets first id last hthreads).symm, ?_⟩
  · rw [L.lines, hthreads]
    simp
  · intro line hline
    rcases List.mem_append.mp hline with hline | hline
    · obtain ⟨other, hother, hline⟩ := List.mem_flatMap.mp hline
      have hne : other ≠ id := by
        rintro rfl
        rw [hthreads, List.nodup_append] at hnodup
        exact (List.nodup_cons.mp hnodup.2.1).1 hother
      exact L.skipped_of_ne (by simp [hthreads, hother]) hne hline
    · obtain ⟨hblank, hparse⟩ := L.offsetsParse line hline
      exact .inr ⟨hblank, .inl hparse⟩

theorem Layout.Reading.split (h : L.Reading id read left position) (hid : id ∈ L.trace.threads) :
    ∃ before after, splitLines newline L.trace.text = before ++ (left ++ after) ∧
      before.flatten.length = position ∧ ∀ line ∈ after, L.Skipped id line := by
  obtain ⟨before, after, hlines, hoffset, hafter⟩ := L.split hid
  refine ⟨before ++ read, after, ?_, ?_, hafter⟩
  · rw [hlines, h.records]
    simp
  · rw [h.position, ← hoffset]
    simp

theorem Layout.Reading.past (h : L.Reading id read left position) (hid : id ∈ L.trace.threads)
    (hleft : ∀ line ∈ left, line = [newline]) : L.Past id position := by
  obtain ⟨before, after, hlines, hposition, hafter⟩ := h.split hid
  refine ⟨before, left ++ after, hlines, hposition, ?_⟩
  intro line hline
  rcases List.mem_append.mp hline with hline | hline
  · exact .inl (hleft line hline)
  · exact hafter line hline

theorem own_of_mem_records {before rest : List (List Char)}
    (hlines : splitLines newline L.trace.text = before ++ rest)
    (hposition : before.flatten.length = position)
    (hmem : position ∈ (L.trace.records id).map Prod.fst) :
    ∃ line lines a, rest = line :: lines ∧ L.trace.parse line = .record id (some a) := by
  obtain ⟨x, hx, hfst⟩ := List.mem_map.mp hmem
  have hall : L.trace.linesFrom 0 = before ++ rest := hlines
  obtain ⟨y, hy, hown⟩ := List.mem_filterMap.mp hx
  rw [hall, located_append, Nat.zero_add, hposition] at hy
  have hparse : ∃ a, L.trace.parse y.2 = .record id (some a) ∧ x = (y.1, a) := by
    unfold Trace.ownRecord at hown
    split at hown
    · next readId a heq =>
        split at hown
        · next hid =>
            rw [heq, hid]
            exact ⟨a, rfl, (Option.some.inj hown).symm⟩
        · cases hown
    · cases hown
  obtain ⟨a, hparse, rfl⟩ := hparse
  have hfst : y.1 = position := hfst
  rcases List.mem_append.mp hy with hy | hy
  · obtain ⟨hline, hle⟩ := located_end_le hy
    have hpos : 0 < y.2.length := by
      apply length_pos_of_mem_splitLines
      rw [hlines]
      exact List.mem_append_left _ hline
    omega
  · cases rest with
    | nil => cases hy
    | cons line lines =>
        rcases List.mem_cons.mp hy with rfl | hy
        · exact ⟨line, lines, a, rfl, hparse⟩
        · have hle := le_of_mem_located hy
          have hpos : 0 < line.length := by
            apply length_pos_of_mem_splitLines
            rw [hlines]
            exact List.mem_append_right _ List.mem_cons_self
          omega

/-! ## The reads of a thread -/

theorem linesFrom_of_split {before rest : List (List Char)}
    (hlines : splitLines newline L.trace.text = before ++ rest)
    (hposition : before.flatten.length = position) : L.trace.linesFrom position = rest := by
  rw [← hposition]
  exact splitLines_drop hlines

theorem readRecord_past (r : Reader) (h : L.Past id position) :
    ∃ next, readRecord L.trace r id position = (r, next, .noMoreActions) ∧ L.Past id next := by
  obtain ⟨before, rest, hlines, hposition, hrest⟩ := h
  simp only [readRecord, linesFrom_of_split hlines hposition]
  have happend := @List.takeWhile_append_dropWhile _ (· = [newline]) rest
  cases hdrop : rest.dropWhile (· = [newline]) with
  | nil =>
      rw [hdrop, List.append_nil] at happend
      simp only
      refine ⟨_, rfl, before ++ rest, [], by simp [hlines], ?_, by simp⟩
      rw [happend]
      simp [hposition]
  | cons line lines =>
      have hblank : line ≠ [newline] := by
        have hhead := List.head_dropWhile_not (p := (· = [newline])) (l := rest) (by simp [hdrop])
        simpa [hdrop] using hhead
      rw [hdrop] at happend
      have hmem : line ∈ rest := by
        rw [← happend]
        simp
      have hpast : L.Past id (position + (rest.takeWhile (· = [newline])).flatten.length +
          line.length) := by
        refine ⟨before ++ (rest.takeWhile (· = [newline]) ++ [line]), lines, ?_, ?_, ?_⟩
        · rw [hlines]
          simp [happend]
        · simp [hposition, Nat.add_assoc]
        · intro other hother
          apply hrest
          rw [← happend]
          simp [hother]
      rcases (hrest line hmem).resolve_left hblank with ⟨-, hparse | ⟨readId, a, hne, hparse⟩⟩
      · simp only [hparse]
        exact ⟨_, rfl, hpast⟩
      · simp only [hparse, if_neg hne]
        exact ⟨_, rfl, hpast⟩

/-- The next record of a thread is read. The blank lines in front of it are not counted. -/
theorem readRecord_own (r : Reader) {blanks lines : List (List Char)} {line : List Char}
    (hlines : L.trace.linesFrom position = blanks ++ line :: lines)
    (hblanks : ∀ other ∈ blanks, other = [newline]) (hown : L.trace.OwnLine id line) :
    ∃ a, readRecord L.trace r id position =
      (r.advance id line.length, position + (blanks.flatten.length + line.length), .action a) := by
  obtain ⟨hblank, a, hparse⟩ := hown
  refine ⟨a, ?_⟩
  unfold readRecord
  have htake : (blanks ++ line :: lines).takeWhile (· = [newline]) = blanks := by
    rw [List.takeWhile_append_of_pos (by simpa using hblanks),
      List.takeWhile_cons_of_neg (by simpa using hblank), List.append_nil]
  have hdrop : (blanks ++ line :: lines).dropWhile (· = [newline]) = line :: lines := by
    rw [List.dropWhile_append_of_pos (by simpa using hblanks),
      List.dropWhile_cons_of_neg (by simpa using hblank)]
  rw [hlines]
  simp only [htake, hdrop, hparse]
  simp [Nat.add_assoc]

/-! ## The positions that are reached -/

/-- A thread has read records up to its offset. The position of its stream is this offset, or it is
behind the records, which were all read. -/
structure Layout.Situated (L : Layout α) (r : Reader) (id : ThreadId) (position : Nat) : Prop where
  reading : ∃ read left, L.Reading id read left (r.currentThreadsOffsets id)
  position : position = r.currentThreadsOffsets id ∨
    r.currentThreadsOffsets id = L.trace.threadsOffsets id + L.size id ∧ L.Past id position

/-- The threads are situated where they find their streams. -/
structure Layout.Placed (L : Layout α) (r : Reader) : Prop where
  stream : ∀ id ∈ L.trace.threads, ∀ position,
    r.streams (L.trace.streamsIdxs id) = ⟨some position, some id⟩ → L.Situated r id position
  offset : ∀ id ∈ L.trace.threads, L.Situated r id (r.currentThreadsOffsets id)
  fresh : ∀ id ∈ L.trace.threads, (r.streams (L.trace.streamsIdxs id)).fp = none →
    r.currentThreadsOffsets id = L.trace.threadsOffsets id

/-- A thread goes on, and the others stay. -/
structure GoesOn (r r' : Reader) (id : ThreadId) : Prop where
  streams : r'.streams = r.streams
  own : r.currentThreadsOffsets id ≤ r'.currentThreadsOffsets id
  others : ∀ other, other ≠ id → r'.currentThreadsOffsets other = r.currentThreadsOffsets other

theorem GoesOn.refl (r : Reader) (id : ThreadId) : GoesOn r r id := ⟨rfl, Nat.le_refl _, by simp⟩

theorem GoesOn.trans {r r' r'' : Reader} (h : GoesOn r r' id) (h' : GoesOn r' r'' id) :
    GoesOn r r'' id where
  streams := h'.streams.trans h.streams
  own := Nat.le_trans h.own h'.own
  others other hne := (h'.others other hne).trans (h.others other hne)

theorem goesOn_advance (r : Reader) (id : ThreadId) (bytesRead : Nat) :
    GoesOn r (r.advance id bytesRead) id where
  streams := rfl
  own := by simp [Reader.advance]
  others other hne := Function.update_of_ne hne ..

theorem Layout.Reading.end (h : L.Reading id read [] position) :
    position = L.trace.threadsOffsets id + L.size id := by
  rw [h.position, Layout.size, h.records, List.append_nil]

theorem Layout.Reading.advance {line : List Char}
    (h : L.Reading id read (line :: left) (r.currentThreadsOffsets id)) :
    L.Situated (r.advance id line.length) id (r.currentThreadsOffsets id + line.length) := by
  have hcurrent : (r.advance id line.length).currentThreadsOffsets id =
      r.currentThreadsOffsets id + line.length := Function.update_self ..
  constructor
  · refine ⟨read ++ [line], left, ?_, ?_⟩
    · rw [h.records]
      simp
    · rw [hcurrent, h.position]
      simp [Nat.add_assoc]
  · exact .inl hcurrent.symm

theorem Layout.Situated.past (h : L.Situated r id position) (hid : id ∈ L.trace.threads)
    (hend : r.currentThreadsOffsets id = L.trace.threadsOffsets id + L.size id)
    (hpos : ∀ line ∈ L.records id, 0 < line.length) : L.Past id position := by
  rcases h.position with rfl | ⟨-, hpast⟩
  · obtain ⟨read, left, hreading⟩ := h.reading
    apply hreading.past hid
    intro line hline
    have hbytes := hreading.position
    rw [hend, Layout.size, hreading.records, List.flatten_append, List.length_append] at hbytes
    have hnil : left.flatten = [] := by
      apply List.eq_nil_of_length_eq_zero
      omega
    have hzero := List.flatten_eq_nil_iff.mp hnil line hline
    have hline := hpos line (by simp [hreading.records, hline])
    rw [hzero] at hline
    cases hline
  · exact hpast

theorem Layout.length_pos (L : Layout α) (hid : id ∈ L.trace.threads) :
    ∀ line ∈ L.records id, 0 < line.length := by
  intro line hline
  obtain ⟨before, after, hlines, -, -⟩ := L.split hid
  apply length_pos_of_mem_splitLines
  rw [hlines]
  simp [hline]

/-- A thread stands in front of a record, or it has read all of them. -/
theorem Layout.Situated.cases (h : L.Situated r id position) (hplain : L.Plain)
    (hid : id ∈ L.trace.threads) :
    (r.currentThreadsOffsets id = L.trace.threadsOffsets id + L.size id ∧ L.Past id position) ∨
      ∃ read line left, L.Reading id read (line :: left) (r.currentThreadsOffsets id) ∧
        position = r.currentThreadsOffsets id ∧ L.trace.OwnLine id line := by
  obtain ⟨read, left, hreading⟩ := h.reading
  cases left with
  | nil => exact .inl ⟨hreading.end, h.past hid hreading.end (L.length_pos hid)⟩
  | cons line left =>
      have hmem : line ∈ L.records id := by simp [hreading.records]
      have hown := (L.own id hid line hmem).resolve_left (hplain id hid line hmem)
      rcases h.position with rfl | ⟨hend, -⟩
      · exact .inr ⟨read, line, left, hreading, rfl, hown⟩
      · have hbytes := hreading.position
        have hpos := L.length_pos hid line hmem
        rw [hend, Layout.size, hreading.records] at hbytes
        simp only [List.flatten_append, List.flatten_cons, List.length_append] at hbytes
        omega

theorem situated_readRecord (hplain : L.Plain) (hid : id ∈ L.trace.threads)
    (h : L.Situated r id position) :
    L.Situated (readRecord L.trace r id position).1 id (readRecord L.trace r id position).2.1 ∧
      GoesOn r (readRecord L.trace r id position).1 id := by
  rcases h.cases hplain hid with ⟨hend, hpast⟩ | ⟨read, line, left, hreading, rfl, hown⟩
  · obtain ⟨next, hread, hnext⟩ := readRecord_past r hpast
    rw [hread]
    exact ⟨⟨h.reading, .inr ⟨hend, hnext⟩⟩, .refl r id⟩
  · obtain ⟨before, after, hlines, hposition, -⟩ := hreading.split hid
    obtain ⟨a, hread⟩ := @readRecord_own _ L id _ r [] (left ++ after) line
      (linesFrom_of_split hlines hposition) (by simp) hown
    rw [hread]
    refine ⟨?_, goesOn_advance r id line.length⟩
    simpa using hreading.advance

theorem situated_skipIgnored (hplain : L.Plain) (hid : id ∈ L.trace.threads)
    (h : L.Situated r id position) :
    L.Situated (skipIgnored L.trace r id position).1 id (skipIgnored L.trace r id position).2 ∧
      GoesOn r (skipIgnored L.trace r id position).1 id := by
  unfold skipIgnored
  split
  · next hskip =>
      have hmem := L.ignores id hid position hskip.2
      rcases h.cases hplain hid with ⟨hend, before, rest, hlines, hposition, hrest⟩ |
        ⟨read, line, left, hreading, rfl, hown⟩
      · obtain ⟨line, lines, a, rfl, hparse⟩ := own_of_mem_records hlines hposition hmem
        rcases hrest line List.mem_cons_self with rfl | ⟨-, hother⟩
        · rw [L.blankParse] at hparse
          cases hparse
        · rcases hother with hother | ⟨readId, action, hne, hother⟩
          · rw [hparse] at hother
            cases hother
          · rw [hparse] at hother
            exact absurd (Parsed.record.inj hother).1.symm hne
      · obtain ⟨before, after, hlines, hposition, -⟩ := hreading.split hid
        rw [linesFrom_of_split hlines hposition]
        have hadvance := hreading.advance
        have hgoes := goesOn_advance r id line.length
        exact ⟨⟨hadvance.reading, hadvance.position⟩, ⟨rfl, hgoes.own, hgoes.others⟩⟩
  · exact ⟨h, .refl r id⟩

theorem Layout.Placed.place {r' : Reader} (h : L.Placed r) (hid : id ∈ L.trace.threads)
    (hgoes : GoesOn r r' id) (hsituated : L.Situated r' id position) :
    L.Placed (r'.place L.trace id position) := by
  have hstreams : (r'.place L.trace id position).streams = Function.update r.streams
      (L.trace.streamsIdxs id) ⟨some position, some id⟩ := by
    rw [← hgoes.streams]
    rfl
  have hsame : ∀ other, other ≠ id → ∀ p, L.Situated r other p → L.Situated r' other p := by
    intro other hne p hother
    refine ⟨?_, ?_⟩ <;> rw [hgoes.others other hne]
    · exact hother.reading
    · exact hother.position
  constructor
  · intro other hother p hp
    rw [hstreams] at hp
    by_cases hidx : L.trace.streamsIdxs other = L.trace.streamsIdxs id
    · rw [hidx, Function.update_self] at hp
      obtain ⟨hposition, hids⟩ := Stream.mk.inj hp
      obtain rfl := Option.some.inj hposition
      obtain rfl := Option.some.inj hids
      exact ⟨hsituated.reading, hsituated.position⟩
    · rw [Function.update_of_ne hidx] at hp
      have hne : other ≠ id := fun heq => hidx (heq ▸ rfl)
      have hold := hsame other hne p (h.stream other hother p hp)
      exact ⟨hold.reading, hold.position⟩
  · intro other hother
    by_cases hne : other = id
    · subst hne
      exact ⟨hsituated.reading, .inl rfl⟩
    · have hold := hsame other hne _ (h.offset other hother)
      exact ⟨hold.reading, .inl rfl⟩
  · intro other hother hfp
    rw [hstreams] at hfp
    by_cases hidx : L.trace.streamsIdxs other = L.trace.streamsIdxs id
    · rw [hidx, Function.update_self] at hfp
      cases hfp
    · rw [Function.update_of_ne hidx] at hfp
      exact (hgoes.others other fun heq => hidx (heq ▸ rfl)).trans (h.fresh other hother hfp)

theorem Layout.Placed.at_position (h : L.Placed r) (hid : id ∈ L.trace.threads) :
    L.Situated r id (r.position L.trace id) := by
  unfold Reader.position
  cases hfp : (r.streams (L.trace.streamsIdxs id)).fp with
  | none =>
      simp only [hfp]
      rw [← h.fresh id hid hfp]
      exact h.offset id hid
  | some p =>
      simp only [hfp]
      split
      · next hlast =>
          apply h.stream id hid
          rw [← hfp, ← hlast]
      · exact h.offset id hid

theorem reading_start (L : Layout α) (id : ThreadId) :
    L.Reading id [] (L.records id) (L.trace.threadsOffsets id) := ⟨rfl, rfl⟩

theorem placed_initial (L : Layout α) (lastOffsets : ThreadId → Nat) :
    L.Placed (.initial L.trace lastOffsets) where
  stream id hid position hstream := by cases hstream
  offset id hid := ⟨⟨[], _, reading_start L id⟩, .inl rfl⟩
  fresh id hid _ := rfl

theorem placed_readAction (hplain : L.Plain) (h : L.Placed r) (hid : id ∈ L.trace.threads) :
    L.Placed (readAction L.trace r id).1 ∧
      ∀ other, r.currentThreadsOffsets other ≤
        (readAction L.trace r id).1.currentThreadsOffsets other := by
  have hposition := h.at_position hid
  have hget : L.Placed (getStream L.trace r id) := h.place hid (.refl r id) hposition
  have hsituated : L.Situated (getStream L.trace r id) id (r.position L.trace id) :=
    ⟨hposition.reading, hposition.position⟩
  obtain ⟨hskip, hskipGoes⟩ := situated_skipIgnored hplain hid hsituated
  obtain ⟨hread, hreadGoes⟩ := situated_readRecord hplain hid hskip
  have hgoes := hskipGoes.trans hreadGoes
  refine ⟨hget.place hid hgoes hread, ?_⟩
  intro other
  by_cases hne : other = id
  · subst hne
    exact hgoes.own
  · exact Nat.le_of_eq (hgoes.others other hne).symm

/-- The threads that start again have to reposition their streams. -/
theorem Layout.Placed.reset {r' : Reader} (h : L.Placed r)
    (hoffsets : ∀ id ∈ L.trace.threads, r'.currentThreadsOffsets id =
      r.currentThreadsOffsets id ∨ r'.currentThreadsOffsets id = L.trace.threadsOffsets id)
    (hstreams : r'.streams = r.streams) : L.Placed (resetAppStreamFps L.trace r') := by
  constructor
  · intro id hid position hstream
    have hmem : L.trace.streamsIdxs id ∈ L.trace.threads.map L.trace.streamsIdxs :=
      List.mem_map_of_mem hid
    simp only [resetAppStreamFps, if_pos hmem] at hstream
    cases congrArg Stream.last hstream
  · intro id hid
    refine ⟨?_, .inl rfl⟩
    show ∃ read left, L.Reading id read left (r'.currentThreadsOffsets id)
    rcases hoffsets id hid with heq | heq
    · rw [heq]
      exact (h.offset id hid).reading
    · rw [heq]
      exact ⟨[], _, reading_start L id⟩
  · intro id hid hfp
    show r'.currentThreadsOffsets id = _
    rcases hoffsets id hid with heq | heq
    · rw [heq]
      apply h.fresh id hid
      rw [← hstreams]
      simp only [resetAppStreamFps] at hfp
      split at hfp <;> exact hfp
    · exact heq

theorem placed_serve (hplain : L.Plain) (h : L.Placed r) {request : Request}
    (hasks : L.trace.Asks request) :
    L.Placed (r.serve L.trace request).1 ∧ (request ≠ .restartFps id → request ≠ .reloadPtask →
      r.currentThreadsOffsets id ≤ (r.serve L.trace request).1.currentThreadsOffsets id) := by
  cases request with
  | readAction other =>
      obtain ⟨hplaced, hle⟩ := placed_readAction hplain h (hasks other rfl)
      exact ⟨hplaced, fun _ _ => hle id⟩
  | deliver other => exact ⟨h, fun _ _ => Nat.le_refl _⟩
  | getOffset other =>
      have hposition := h.at_position (hasks other rfl)
      exact ⟨h.place (hasks other rfl) (.refl r other) hposition, fun _ _ => Nat.le_refl _⟩
  | restartFps other =>
      constructor
      · refine h.reset ?_ ?_
        · intro id hid
          by_cases hne : id = other
          · subst hne
            exact .inr (Function.update_self ..)
          · exact .inl (Function.update_of_ne hne ..)
        · rfl
      · intro hne _
        have hne : id ≠ other := fun heq => hne (heq ▸ rfl)
        exact Nat.le_of_eq (Function.update_of_ne hne _ r.currentThreadsOffsets).symm
  | reloadPtask =>
      constructor
      · refine h.reset ?_ ?_
        · intro id hid
          exact .inr (if_pos (List.contains_iff_mem.mpr hid))
        · rfl
      · exact fun _ hne => absurd rfl hne

theorem placed_reader (hplain : L.Plain) (lastOffsets : ThreadId → Nat) {requests : List Request}
    (hasks : ∀ request ∈ requests, L.trace.Asks request) :
    L.Placed (L.reader lastOffsets requests) := by
  unfold Layout.reader
  have hinitial := placed_initial L lastOffsets
  generalize Reader.initial L.trace lastOffsets = r at hinitial
  induction requests generalizing r with
  | nil => exact hinitial
  | cons request requests ih =>
      obtain ⟨hrequest, hrequests⟩ := List.forall_mem_cons.mp hasks
      exact ih hrequests _ (@placed_serve _ L r (0, 0) hplain hinitial request hrequest).1

/-! ## The progress at a position -/

theorem Layout.size_pos (L : Layout α) (hid : id ∈ L.trace.threads) : 0 < L.size id := by
  obtain ⟨line, hline, -⟩ := L.nonempty id hid
  have hpos := L.length_pos hid line hline
  have hle := (List.sublist_flatten_of_mem hline).length_le
  exact Nat.lt_of_lt_of_le hpos hle

section

variable {sizes : Sizes}

/-- The progress of a thread that has read some bytes. -/
def Layout.fraction (L : Layout α) (id : ThreadId) (bytes : Nat) : ℚ :=
  toFloat (toFloat (bytes : ℚ) / toFloat (L.size id : ℚ))

theorem getProgression_eq {r : Reader} {bytes : Nat}
    (hsize : sizes[progressionIndex L.trace id]? = some (some (L.size id : Int)))
    (hbytes : r.currentThreadsOffsets id = L.trace.threadsOffsets id + bytes) :
    getProgression L.trace sizes r id = some (L.fraction id bytes) := by
  simp [getProgression, Layout.fraction, hsize, hbytes]

theorem toFloat_size_pos (hid : id ∈ L.trace.threads) : 0 < toFloat (L.size id : ℚ) :=
  roundTo_pos (by decide) (Nat.cast_pos.mpr (L.size_pos hid))

theorem fraction_mono (L : Layout α) (id : ThreadId) {bytes bytes' : Nat} (h : bytes ≤ bytes') :
    L.fraction id bytes ≤ L.fraction id bytes' := by
  have hbits : 0 < 24 := by decide
  have hsize : 0 ≤ toFloat (L.size id : ℚ) := roundTo_nonneg hbits (Nat.cast_nonneg _)
  have hbytes : toFloat (bytes : ℚ) ≤ toFloat (bytes' : ℚ) :=
    roundTo_mono hbits (Nat.cast_nonneg _) (Nat.cast_le.mpr h)
  apply roundTo_mono hbits
  · exact div_nonneg (roundTo_nonneg hbits (Nat.cast_nonneg _)) hsize
  · exact div_le_div_of_nonneg_right hbytes hsize

theorem fraction_eq_one (hid : id ∈ L.trace.threads) {bytes : Nat}
    (h : toFloat (bytes : ℚ) = toFloat (L.size id : ℚ)) : L.fraction id bytes = 1 := by
  have hone : toFloat (1 : ℚ) = 1 := by
    have hcast := @roundTo_natCast 24 1 (by decide)
    rwa [Nat.cast_one] at hcast
  rw [Layout.fraction, h, div_self (toFloat_size_pos hid).ne', hone]

theorem fraction_ne_one (hid : id ∈ L.trace.threads) {bytes : Nat}
    (h : toFloat (bytes : ℚ) < toFloat (L.size id : ℚ)) : L.fraction id bytes ≠ 1 :=
  (roundTo_div_lt_one (by decide) (Nat.cast_nonneg _) (Nat.cast_pos.mpr (L.size_pos hid)) h).ne

theorem Layout.Reading.bytes (h : L.Reading id read left (r.currentThreadsOffsets id)) :
    ∃ bytes ≤ L.size id, r.currentThreadsOffsets id = L.trace.threadsOffsets id + bytes ∧
      (bytes = L.size id ∨ ∃ line ∈ (L.records id).getLast?,
        bytes ≤ L.size id - line.length) := by
  have hsize : L.size id = read.flatten.length + left.flatten.length := by
    rw [Layout.size, h.records, List.flatten_append, List.length_append]
  refine ⟨read.flatten.length, by omega, h.position, ?_⟩
  rcases List.eq_nil_or_concat left with rfl | ⟨first, line, rfl⟩
  · exact .inl hsize.symm
  · refine .inr ⟨line, ?_, ?_⟩
    · rw [h.records, List.concat_eq_append, ← List.append_assoc, List.getLast?_concat]
      rfl
    · rw [hsize, List.concat_eq_append, List.flatten_append, List.length_append]
      simp
      omega

theorem exhausted_iff (hplain : L.Plain) (h : L.Placed r) (hid : id ∈ L.trace.threads) :
    L.Exhausted r id ↔ r.currentThreadsOffsets id = L.trace.threadsOffsets id + L.size id := by
  unfold Layout.Exhausted
  have hsituated := h.at_position hid
  constructor
  · intro hnone
    rcases hsituated.cases hplain hid with ⟨hend, -⟩ |
      ⟨read, line, left, hreading, hposition, hown⟩
    · exact hend
    · obtain ⟨before, after, hlines, hbefore, -⟩ := hreading.split hid
      obtain ⟨a, hread⟩ := @readRecord_own _ L id _ r [] (left ++ after) line
        (linesFrom_of_split hlines hbefore) (by simp) hown
      rw [hposition, hread] at hnone
      cases hnone
  · intro hend
    obtain ⟨next, hread, -⟩ := readRecord_past r (hsituated.past hid hend (L.length_pos hid))
    rw [hread]

theorem progresses_of_placed (hplain : L.Plain) (hsized : L.Sized) (h : L.Placed r)
    (hsizes : ∀ id ∈ L.trace.threads,
      sizes[progressionIndex L.trace id]? = some (some (L.size id : Int))) :
    L.Progresses sizes r := by
  constructor
  · intro id hid
    obtain ⟨read, left, hreading⟩ := (h.offset id hid).reading
    obtain ⟨bytes, hle, hcurrent, -⟩ := hreading.bytes
    refine ⟨_, getProgression_eq (hsizes id hid) hcurrent, ?_, ?_⟩
    · calc (0 : ℚ) = L.fraction id 0 := by
            rw [Layout.fraction, Nat.cast_zero, toFloat, toFloat, roundTo_zero, zero_div,
              roundTo_zero]
        _ ≤ L.fraction id bytes := fraction_mono L id (Nat.zero_le bytes)
    · calc L.fraction id bytes ≤ L.fraction id (L.size id) := fraction_mono L id hle
        _ = 1 := fraction_eq_one hid rfl
  · intro id hid
    obtain ⟨read, left, hreading⟩ := (h.offset id hid).reading
    obtain ⟨bytes, hle, hcurrent, hbytes⟩ := hreading.bytes
    rw [exhausted_iff hplain h hid, getProgression_eq (hsizes id hid) hcurrent, Option.some_inj,
      hcurrent, Nat.add_left_cancel_iff]
    constructor
    · intro hone
      rcases hbytes with heq | ⟨line, hline, hbelow⟩
      · exact heq
      · refine absurd hone (fraction_ne_one hid ?_)
        calc toFloat (bytes : ℚ) ≤ toFloat ((L.size id - line.length : Nat) : ℚ) :=
              roundTo_mono (by decide) (Nat.cast_nonneg _) (Nat.cast_le.mpr hbelow)
          _ < toFloat (L.size id : ℚ) := hsized.last id hid line hline
    · rintro rfl
      exact fraction_eq_one hid rfl
  · intro id hid request hasks hrestart hreload q q' hq hq'
    obtain ⟨hnext, hle⟩ := @placed_serve _ L r id hplain h request hasks
    obtain ⟨read, left, hreading⟩ := (h.offset id hid).reading
    obtain ⟨read', left', hreading'⟩ := (hnext.offset id hid).reading
    obtain ⟨bytes, -, hcurrent, -⟩ := hreading.bytes
    obtain ⟨bytes', -, hcurrent', -⟩ := hreading'.bytes
    have hle := hle hrestart hreload
    rw [getProgression_eq (hsizes id hid) hcurrent, Option.some_inj] at hq
    rw [getProgression_eq (hsizes id hid) hcurrent', Option.some_inj] at hq'
    rw [← hq, ← hq']
    apply fraction_mono
    omega

end

/-! ## One thread for each task -/

theorem flatMap_zipIdx_single {counts : List Nat} (hcounts : ∀ count ∈ counts, count = 1) (k : Nat) :
    ((counts.zipIdx k).flatMap fun (count, task) => (List.range count).map (task, ·)) =
      (List.range' k counts.length).map (·, 0) := by
  induction counts generalizing k with
  | nil => rfl
  | cons count counts ih =>
      obtain ⟨rfl, hrest⟩ := List.forall_mem_cons.mp hcounts
      rw [List.zipIdx_cons, List.flatMap_cons, ih hrest, List.length_cons, List.range'_succ]
      rfl

def Layout.start (L : Layout α) (task : Nat) : Nat :=
  (L.head ++ ((List.range task).map (·, 0)).flatMap L.records).flatten.length

theorem Layout.start_succ (L : Layout α) (task : Nat) :
    L.start (task + 1) = L.start task + L.size (task, 0) := by
  unfold Layout.start Layout.size
  rw [List.range_succ]
  simp [Nat.add_assoc]

theorem Layout.start_single (L : Layout α) (hcounts : ∀ count ∈ L.trace.threadsCount, count = 1) :
    L.offsetsOffset = L.start L.trace.threadsCount.length ∧
      ∀ task < L.trace.threadsCount.length, L.trace.threadsOffsets (task, 0) = L.start task := by
  have hthreads : L.trace.threads = (List.range L.trace.threadsCount.length).map (·, 0) := by
    rw [List.range_eq_range']
    exact flatMap_zipIdx_single hcounts 0
  constructor
  · unfold Layout.offsetsOffset Layout.start
    rw [hthreads]
  · intro task htask
    obtain ⟨others, hothers⟩ := Nat.exists_eq_add_of_lt htask
    apply L.threadsOffsets ((List.range task).map (·, 0)) (task, 0)
      (((List.range others).map (task + 1 + ·)).map (·, 0))
    rw [hthreads, hothers, Nat.add_assoc, Nat.add_comm others 1, ← Nat.add_assoc, List.range_add,
      List.range_succ]
    simp

theorem sizes_single (hsized : L.Sized) (hcounts : ∀ count ∈ L.trace.threadsCount, count = 1) :
    ∃ sizes, readOffsets L.trace L.offsetsOffset = some sizes ∧ ∀ id ∈ L.trace.threads,
      sizes[progressionIndex L.trace id]? = some (some (L.size id : Int)) := by
  obtain ⟨sizes, hread, hentries⟩ := @readOffsets_single _ L.trace L.offsetsOffset hcounts
  refine ⟨sizes, hread, ?_⟩
  intro id hid
  obtain ⟨htask, hthread, hindex⟩ := progressionIndex_single hcounts hid
  obtain ⟨hend, hstart⟩ := L.start_single hcounts
  have hnext : nextOffset L.offsetsOffset (fun task => L.trace.threadsOffsets (task, 0))
      L.trace.threadsCount.length id.1 = L.start (id.1 + 1) := by
    unfold nextOffset
    split
    · next heq => rw [hend, heq]
    · exact hstart (id.1 + 1) (by omega)
  have hsize : ((L.start (id.1 + 1) : Nat) : Int) - (L.start id.1 : Nat) = L.size id := by
    rw [L.start_succ, ← hthread]
    omega
  rw [hindex, hentries id.1 htask, hnext, hstart id.1 htask, hsize, toInt_of_lt (hsized.sizes id hid)]

theorem reportsProgress_single (hplain : L.Plain) (hsized : L.Sized)
    (hcounts : ∀ count ∈ L.trace.threadsCount, count = 1) : L.ReportsProgress := by
  obtain ⟨sizes, hread, hsizes⟩ := sizes_single hsized hcounts
  refine ⟨sizes, hread, hsizes, ?_⟩
  intro lastOffsets requests hasks
  exact progresses_of_placed hplain hsized (placed_reader hplain lastOffsets hasks) hsizes

/-! ## Blank lines -/

def countedBytes (lines : List (List Char)) : Nat :=
  (lines.filter (· ≠ [newline])).flatten.length

theorem countedBytes_append (first last : List (List Char)) :
    countedBytes (first ++ last) = countedBytes first + countedBytes last := by
  simp [countedBytes]

theorem countedBytes_blank {lines : List (List Char)} (h : ∀ line ∈ lines, line = [newline]) :
    countedBytes lines = 0 := by
  have hnone : lines.filter (· ≠ [newline]) = [] := by
    rw [List.filter_eq_nil_iff]
    simpa using h
  rw [countedBytes, hnone]
  rfl

theorem countedBytes_le (lines : List (List Char)) : countedBytes lines ≤ lines.flatten.length := by
  induction lines with
  | nil => exact Nat.le_refl _
  | cons line lines ih =>
      rw [← List.singleton_append, countedBytes_append, List.flatten_append, List.length_append]
      apply Nat.add_le_add _ ih
      by_cases hline : line = [newline] <;> simp [countedBytes, hline]

theorem ne_blank_of_countedBytes {lines : List (List Char)}
    (h : countedBytes lines = lines.flatten.length) : ∀ line ∈ lines, line ≠ [newline] := by
  rintro line hline rfl
  obtain ⟨first, last, rfl⟩ := List.append_of_mem hline
  have hfirst := countedBytes_le first
  have hlast := countedBytes_le last
  rw [List.append_cons, countedBytes_append, countedBytes_append] at h
  simp only [countedBytes_blank (List.forall_mem_singleton.mpr rfl), List.flatten_append,
    List.flatten_cons, List.flatten_nil, List.length_append, List.length_cons, List.length_nil] at h
  omega

/-- The position of a thread that reads alone, and its offset without the blank lines. -/
def Layout.Counted (L : Layout α) (r : Reader) (id : ThreadId) (position : Nat)
    (left : List (List Char)) : Prop :=
  ∃ read, L.Reading id read left position ∧
    r.currentThreadsOffsets id = L.trace.threadsOffsets id + countedBytes read

/-- A thread has read all of its records. -/
def Layout.Done (L : Layout α) (r : Reader) (id : ThreadId) (position : Nat) : Prop :=
  L.Past id position ∧
    r.currentThreadsOffsets id = L.trace.threadsOffsets id + countedBytes (L.records id)

theorem counted_advance {lines : List (List Char)} {line : List Char}
    (h : L.Counted r id position (lines ++ line :: left))
    (hlines : ∀ other ∈ lines, other = [newline]) (hline : line ≠ [newline]) :
    L.Counted (r.advance id line.length) id (position + (lines.flatten.length + line.length))
      left := by
  obtain ⟨read, hreading, hcurrent⟩ := h
  refine ⟨read ++ (lines ++ [line]), ⟨?_, ?_⟩, ?_⟩
  · rw [hreading.records]
    simp
  · rw [hreading.position]
    simp [Nat.add_assoc]
  · have hadvance : (r.advance id line.length).currentThreadsOffsets id =
        r.currentThreadsOffsets id + line.length := Function.update_self ..
    have hcounted : countedBytes [line] = line.length := by simp [countedBytes, hline]
    rw [hadvance, hcurrent, countedBytes_append, countedBytes_append, countedBytes_blank hlines,
      hcounted]
    omega

theorem blank_or_split (lines : List (List Char)) : (∀ line ∈ lines, line = [newline]) ∨
    ∃ blanks line rest, lines = blanks ++ line :: rest ∧ (∀ other ∈ blanks, other = [newline]) ∧
      line ≠ [newline] := by
  induction lines with
  | nil => simp
  | cons line lines ih =>
      by_cases hline : line = [newline]
      · rcases ih with hall | ⟨blanks, other, rest, rfl, hblanks, hother⟩
        · exact .inl (List.forall_mem_cons.mpr ⟨hline, hall⟩)
        · exact .inr ⟨line :: blanks, other, rest, rfl,
            List.forall_mem_cons.mpr ⟨hline, hblanks⟩, hother⟩
      · exact .inr ⟨[], line, lines, rfl, by simp, hline⟩

theorem Layout.Counted.cases (h : L.Counted r id position left) (hid : id ∈ L.trace.threads) :
    L.Done r id position ∨ ∃ blanks line rest, left = blanks ++ line :: rest ∧
      (∀ other ∈ blanks, other = [newline]) ∧ L.trace.OwnLine id line := by
  obtain ⟨read, hreading, hcurrent⟩ := h
  rcases blank_or_split left with hleft | ⟨blanks, line, rest, rfl, hblanks, hline⟩
  · refine .inl ⟨hreading.past hid hleft, ?_⟩
    rw [hcurrent, hreading.records, countedBytes_append, countedBytes_blank hleft, Nat.add_zero]
  · have hmem : line ∈ L.records id := by simp [hreading.records]
    exact .inr ⟨blanks, line, rest, rfl, hblanks, (L.own id hid line hmem).resolve_left hline⟩

theorem done_readRecord (h : L.Done r id position) :
    L.Done (readRecord L.trace r id position).1 id (readRecord L.trace r id position).2.1 := by
  obtain ⟨next, hread, hnext⟩ := readRecord_past r h.1
  rw [hread]
  exact ⟨hnext, h.2⟩

theorem counted_readRecord (h : L.Counted r id position left) (hid : id ∈ L.trace.threads) :
    L.Done (readRecord L.trace r id position).1 id (readRecord L.trace r id position).2.1 ∨
      ∃ left', left'.length < left.length ∧ L.Counted (readRecord L.trace r id position).1 id
        (readRecord L.trace r id position).2.1 left' := by
  rcases h.cases hid with hdone | ⟨blanks, line, rest, rfl, hblanks, hown⟩
  · exact .inl (done_readRecord hdone)
  · have hcounted := h
    obtain ⟨read, hreading, -⟩ := hcounted
    obtain ⟨before, after, hlines, hposition, -⟩ := hreading.split hid
    rw [List.append_assoc, List.cons_append] at hlines
    obtain ⟨a, hread⟩ :=
      readRecord_own r (linesFrom_of_split hlines hposition) hblanks hown
    rw [hread]
    refine .inr ⟨rest, ?_, counted_advance h hblanks hown.1⟩
    simp
    omega

theorem counted_skipIgnored (h : L.Counted r id position left) (hid : id ∈ L.trace.threads) :
    ∃ left', left'.length ≤ left.length ∧ L.Counted (skipIgnored L.trace r id position).1 id
      (skipIgnored L.trace r id position).2 left' := by
  unfold skipIgnored
  split
  · next hskip =>
      have hcounted := h
      obtain ⟨read, hreading, -⟩ := hcounted
      obtain ⟨before, after, hlines, hposition, hafter⟩ := hreading.split hid
      have hmem := L.ignores id hid position hskip.2
      obtain ⟨line, lines, a, hrest, hparse⟩ := own_of_mem_records hlines hposition hmem
      have hblank : line ≠ [newline] := by
        rintro rfl
        rw [L.blankParse] at hparse
        cases hparse
      cases left with
      | nil =>
          rcases hafter line (by simp [show after = line :: lines from hrest]) with
            hline | ⟨-, hother | ⟨readId, action, hne, hother⟩⟩
          · exact absurd hline hblank
          · rw [hparse] at hother
            cases hother
          · rw [hparse] at hother
            exact absurd (Parsed.record.inj hother).1.symm hne
      | cons first left =>
          obtain ⟨rfl, -⟩ := List.cons.inj hrest
          rw [linesFrom_of_split hlines hposition]
          refine ⟨left, by simp, ?_⟩
          obtain ⟨read, hreading, hcurrent⟩ := @counted_advance _ L r id position left [] first h
            (by simp) hblank
          rw [List.flatten_nil, List.length_nil, Nat.zero_add] at hreading
          exact ⟨read, hreading, hcurrent⟩
  · exact ⟨left, Nat.le_refl _, h⟩

theorem position_place (r : Reader) (id : ThreadId) (position : Nat) :
    (r.place L.trace id position).position L.trace id = position := by
  simp [Reader.position, Reader.place]

/-- A thread that reads alone comes to the end of its records. -/
theorem exists_reads_done (hid : id ∈ L.trace.threads)
    (h : L.Counted r id (r.position L.trace id) left) :
    ∃ requests : List Request, (∀ request ∈ requests, L.trace.Asks request) ∧
      let r' := requests.foldl (fun r request => (r.serve L.trace request).1) r
      L.Done r' id (r'.position L.trace id) := by
  induction hlength : left.length using Nat.strong_induction_on generalizing r left with
  | _ n ih =>
      set position := r.position L.trace id with hposition
      have hget : L.Counted (getStream L.trace r id) id position left := h
      obtain ⟨left', hle, hskip⟩ := counted_skipIgnored hget hid
      have hasks : L.trace.Asks (.readAction id) := by
        rintro other ⟨⟩
        exact hid
      rcases counted_readRecord hskip hid with ⟨hpast, hcurrent⟩ | ⟨left'', hlt, hread⟩
      · refine ⟨[.readAction id], List.forall_mem_singleton.mpr hasks, ?_⟩
        show L.Done (readAction L.trace r id).1 id ((readAction L.trace r id).1.position L.trace id)
        unfold readAction
        simp only [position_place]
        exact ⟨hpast, hcurrent⟩
      · have hnext : L.Counted (readAction L.trace r id).1 id
            ((readAction L.trace r id).1.position L.trace id) left'' := by
          unfold readAction
          simp only [position_place]
          exact hread
        obtain ⟨requests, hrequests, hdone⟩ := ih left''.length (by omega) hnext rfl
        exact ⟨.readAction id :: requests, List.forall_mem_cons.mpr ⟨hasks, hrequests⟩, hdone⟩

/-- In a trace of few bytes a blank line is seen in the progress. -/
theorem plain_of_reportsProgress (h : L.ReportsProgress)
    (hfew : ∀ id ∈ L.trace.threads, L.size id < 16777216) : L.Plain := by
  obtain ⟨sizes, hread, hsizes, hprogress⟩ := h
  intro id hid
  have hstart : L.Counted (.initial L.trace fun _ => 0) id
      (Reader.position L.trace (.initial L.trace fun _ => 0) id) (L.records id) :=
    ⟨[], reading_start L id, rfl⟩
  obtain ⟨requests, hasks, hpast, hcurrent⟩ := exists_reads_done hid hstart
  have hreader := hprogress (fun _ => 0) requests hasks
  have hexhausted : L.Exhausted (L.reader (fun _ => 0) requests) id := by
    obtain ⟨next, hnext, -⟩ := readRecord_past (L.reader (fun _ => 0) requests) hpast
    exact congrArg (fun x => x.2.2) hnext
  have hone := (hreader.complete id hid).mpr hexhausted
  have hcurrent : (L.reader (fun _ => 0) requests).currentThreadsOffsets id =
      L.trace.threadsOffsets id + countedBytes (L.records id) := hcurrent
  rw [getProgression_eq (hsizes id hid) hcurrent, Option.some_inj] at hone
  have hle := countedBytes_le (L.records id)
  apply ne_blank_of_countedBytes
  by_contra hne
  have hlt : countedBytes (L.records id) < L.size id := Nat.lt_of_le_of_ne hle hne
  refine fraction_ne_one hid ?_ hone
  have hfew := hfew id hid
  rw [toFloat, toFloat, roundTo_natCast (by omega), roundTo_natCast (by omega)]
  exact Nat.cast_lt.mpr hlt

/-! ## The last record -/

theorem counter_readRecord (r : Reader) (id : ThreadId) (position : Nat) :
    (readRecord L.trace r id position).1.counterOpsAlreadyIgnored = r.counterOpsAlreadyIgnored := by
  simp only [readRecord]
  split
  · rfl
  · split
    · split
      · split <;> rfl
      · rfl
    · rfl
    · rfl

def Layout.toIgnore (L : Layout α) (r : Reader) (id : ThreadId) : Nat :=
  (L.trace.ignored id).length - r.counterOpsAlreadyIgnored id

theorem readAction_next (hplain : L.Plain) (hid : id ∈ L.trace.threads) {line : List Char}
    (h : L.Reading id read (line :: left) (r.currentThreadsOffsets id))
    (hposition : r.position L.trace id = r.currentThreadsOffsets id) :
    L.toIgnore (readAction L.trace r id).1 id < L.toIgnore r id ∨
      L.toIgnore (readAction L.trace r id).1 id = L.toIgnore r id ∧
        L.Reading id (read ++ [line]) left
          ((readAction L.trace r id).1.currentThreadsOffsets id) ∧
        (readAction L.trace r id).1.position L.trace id =
          (readAction L.trace r id).1.currentThreadsOffsets id := by
  obtain ⟨before, after, hlines, hbefore, -⟩ := h.split hid
  have hfrom := linesFrom_of_split hlines hbefore
  have hmem : line ∈ L.records id := by simp [h.records]
  have hown := (L.own id hid line hmem).resolve_left (hplain id hid line hmem)
  by_cases hskip : (getStream L.trace r id).counterOpsAlreadyIgnored id <
      (L.trace.ignored id).length ∧ r.currentThreadsOffsets id ∈ L.trace.ignored id
  · left
    have hcounter : (readAction L.trace r id).1.counterOpsAlreadyIgnored id =
        r.counterOpsAlreadyIgnored id + 1 := by
      have hskipped : (skipIgnored L.trace (getStream L.trace r id) id
          (r.position L.trace id)).1.counterOpsAlreadyIgnored id =
            r.counterOpsAlreadyIgnored id + 1 := by
        rw [skipIgnored, hposition, if_pos hskip, hfrom]
        exact Function.update_self ..
      rw [← hskipped]
      exact congrFun (counter_readRecord _ id _) id
    have hless : r.counterOpsAlreadyIgnored id < (L.trace.ignored id).length := hskip.1
    unfold Layout.toIgnore
    omega
  · right
    obtain ⟨a, hread⟩ := @readRecord_own _ L id _ (getStream L.trace r id) [] (left ++ after) line
      hfrom (by simp) hown
    have haction : (readAction L.trace r id).1 =
        ((getStream L.trace r id).advance id line.length).place L.trace id
          (r.currentThreadsOffsets id + line.length) := by
      have hstays : skipIgnored L.trace (getStream L.trace r id) id (r.position L.trace id) =
          (getStream L.trace r id, r.currentThreadsOffsets id) := by
        rw [skipIgnored, hposition, if_neg hskip]
      rw [readAction]
      simp only [hstays, hread]
      rw [List.flatten_nil, List.length_nil, Nat.zero_add]
    have hoffset : (readAction L.trace r id).1.currentThreadsOffsets id =
        r.currentThreadsOffsets id + line.length := by
      rw [haction]
      exact Function.update_self ..
    refine ⟨?_, ?_, ?_⟩
    · rw [haction]
      rfl
    · rw [hoffset]
      exact ⟨by simp [h.records], by simp [h.position, Nat.add_assoc]⟩
    · rw [hoffset, haction, position_place]

/-- A thread comes to its last record, if the application is started again as often as it ignores an
operation. -/
theorem exists_reads_last (hplain : L.Plain) (hid : id ∈ L.trace.threads) {line : List Char}
    (h : L.Reading id read (left ++ [line]) (r.currentThreadsOffsets id))
    (hposition : r.position L.trace id = r.currentThreadsOffsets id) :
    ∃ requests : List Request, (∀ request ∈ requests, L.trace.Asks request) ∧
      let r' := requests.foldl (fun r request => (r.serve L.trace request).1) r
      (∃ read, L.Reading id read [line] (r'.currentThreadsOffsets id)) ∧
        r'.position L.trace id = r'.currentThreadsOffsets id := by
  have hread : L.trace.Asks (.readAction id) := by
    rintro other ⟨⟩
    exact hid
  induction hcount : L.toIgnore r id using Nat.strong_induction_on generalizing r read left with
  | _ n ih =>
      induction left generalizing r read with
      | nil => exact ⟨[], by simp, ⟨read, h⟩, hposition⟩
      | cons first left ihleft =>
          rcases readAction_next hplain hid h hposition with hless | ⟨hsame, hnext, hplace⟩
          · -- It starts again.
            have hstart : (reloadPtask L.trace (readAction L.trace r id).1).currentThreadsOffsets
                id = L.trace.threadsOffsets id := if_pos (List.contains_iff_mem.mpr hid)
            have hagain : (reloadPtask L.trace (readAction L.trace r id).1).position L.trace id =
                (reloadPtask L.trace (readAction L.trace r id).1).currentThreadsOffsets id := by
              have hstream : L.trace.streamsIdxs id ∈ L.trace.threads.map L.trace.streamsIdxs :=
                List.mem_map_of_mem hid
              have hlast : ((reloadPtask L.trace (readAction L.trace r id).1).streams
                  (L.trace.streamsIdxs id)).last = none := by
                simp only [reloadPtask, resetAppStreamFps, if_pos hstream]
              unfold Reader.position
              simp only [hlast]
              cases ((reloadPtask L.trace (readAction L.trace r id).1).streams
                  (L.trace.streamsIdxs id)).fp with
              | none => exact hstart.symm
              | some p => exact if_neg (Option.some_ne_none id).symm
            have hreading : L.Reading id [] ((read ++ first :: left) ++ [line])
                ((reloadPtask L.trace (readAction L.trace r id).1).currentThreadsOffsets id) :=
              ⟨by simp [h.records], hstart⟩
            obtain ⟨requests, hasks, hlast⟩ := ih _ (hcount ▸ hless) hreading hagain rfl
            refine ⟨.readAction id :: .reloadPtask :: requests, ?_, hlast⟩
            have hreload : L.trace.Asks .reloadPtask := by
              rintro other ⟨⟩
            exact List.forall_mem_cons.mpr ⟨hread, List.forall_mem_cons.mpr ⟨hreload, hasks⟩⟩
          · obtain ⟨requests, hasks, hlast⟩ := ihleft hnext hplace (hsame.trans hcount)
            exact ⟨.readAction id :: requests, List.forall_mem_cons.mpr ⟨hread, hasks⟩, hlast⟩

/-- In a trace without blank lines the progress is right only if the sizes are not too large. -/
theorem sized_of_reportsProgress (hplain : L.Plain) (h : L.ReportsProgress) : L.Sized := by
  obtain ⟨sizes, hread, hsizes, hprogress⟩ := h
  constructor
  · intro id hid
    have hlt := (readOffsets_written hread (hsizes id hid)).1
    omega
  · intro id hid line hline
    obtain ⟨first, hfirst⟩ : ∃ first, L.records id = first ++ [line] :=
      List.getLast?_eq_some_iff.mp hline
    have hstart : L.Reading id [] (first ++ [line])
        ((Reader.initial L.trace fun _ => 0).currentThreadsOffsets id) := ⟨hfirst, rfl⟩
    obtain ⟨requests, hasks, ⟨read, hreading⟩, hposition⟩ :=
      exists_reads_last hplain hid hstart rfl
    have hreading : L.Reading id read [line]
        ((L.reader (fun _ => 0) requests).currentThreadsOffsets id) := hreading
    have hposition : (L.reader (fun _ => 0) requests).position L.trace id =
        (L.reader (fun _ => 0) requests).currentThreadsOffsets id := hposition
    have hreader := hprogress (fun _ => 0) requests hasks
    have hmore : ¬ L.Exhausted (L.reader (fun _ => 0) requests) id := by
      intro hnone
      obtain ⟨before, after, hlines, hbefore, -⟩ := hreading.split hid
      have hmem : line ∈ L.records id := by simp [hfirst]
      have hown := (L.own id hid line hmem).resolve_left (hplain id hid line hmem)
      obtain ⟨a, hrecord⟩ := @readRecord_own _ L id _ (L.reader (fun _ => 0) requests) []
        ([] ++ after) line (linesFrom_of_split hlines hbefore) (by simp) hown
      unfold Layout.Exhausted at hnone
      rw [hposition] at hnone
      cases (congrArg (fun x => x.2.2) hrecord).symm.trans hnone
    have hbytes : L.size id - line.length = read.flatten.length := by
      rw [Layout.size, hreading.records]
      simp
    rw [hbytes]
    by_contra hnot
    have heq : toFloat (read.flatten.length : ℚ) = toFloat (L.size id : ℚ) := by
      apply le_antisymm _ (not_lt.mp hnot)
      apply roundTo_mono (by decide) (Nat.cast_nonneg _)
      rw [← hbytes]
      exact Nat.cast_le.mpr (Nat.sub_le _ _)
    apply hmore
    rw [← hreader.complete id hid, getProgression_eq (hsizes id hid) hreading.position,
      fraction_eq_one hid heq]

end

/-! ## Traces of a header -/

/-- The numbers of threads of the tasks. Their sum is in an `int`. -/
structure Header where
  threadsCount : List Nat
  counts : ∀ count ∈ threadsCount, 0 < count
  int : threadsCount.sum < 2147483648

section

variable [Inhabited α] (header : Header) (copies : ThreadId → Nat)

def Header.threads : List ThreadId :=
  header.threadsCount.zipIdx.flatMap fun (count, task) => (List.range count).map (task, ·)

def Header.line (id : ThreadId) : List Char := Library.Formats.decimal (header.threads.idxOf id)

def Header.records (id : ThreadId) : List (List Char) :=
  List.replicate (copies id + 1) (header.line id ++ [newline])

def Header.trace (α : Type*) [Inhabited α] : Trace α where
  text := (header.threads.flatMap (header.records copies)).flatten
  threadsCount := header.threadsCount
  assignedStreams := 1
  threadsOffsets id :=
    ((header.threads.takeWhile (· ≠ id)).flatMap (header.records copies)).flatten.length
  withDeadlockAnalysis := false
  opsToBeIgnored _ := []
  parse line :=
    match header.threads.find? fun id => header.line id ++ [newline] = line with
    | some id => .record id (some default)
    | none => .wrong

theorem Header.newline_notMem (id : ThreadId) : newline ∉ header.line id :=
  Library.Formats.notMem_decimal _ (by decide)

theorem Header.line_inj {a b : ThreadId} (ha : a ∈ header.threads)
    (h : header.line a = header.line b) : a = b := by
  have hidx := congrArg Library.Scanning.strtoul h
  unfold Header.line at hidx
  rw [Library.Scanning.strtoul_decimal, Library.Scanning.strtoul_decimal] at hidx
  exact (List.idxOf_inj ha).mp hidx

theorem Header.length_line {id : ThreadId} (hid : id ∈ header.threads) :
    (header.line id).length ≤ 10 := by
  have hidx := List.idxOf_lt_length_of_mem hid
  have hlength : header.threads.length = header.threadsCount.sum :=
    @length_threads Unit (header.trace (fun _ => 0) Unit)
  have hint := header.int
  unfold Header.line
  show (Nat.toDigits 10 (header.threads.idxOf id)).length ≤ 10
  rw [Nat.length_toDigits_le_iff (by decide) (by decide)]
  omega

theorem Header.parse_line {id : ThreadId} (hid : id ∈ header.threads) :
    (header.trace copies α).OwnLine id (header.line id ++ [newline]) := by
  constructor
  · intro heq
    have hnil : header.line id = [] := List.append_left_eq_self.mp heq
    exact Library.Formats.decimal_ne_nil _ hnil
  · refine ⟨default, ?_⟩
    have hfind : header.threads.find? (fun other => header.line other ++ [newline] =
        header.line id ++ [newline]) = some id := by
      cases hfind : header.threads.find? (fun other => header.line other ++ [newline] =
          header.line id ++ [newline]) with
      | none => exact absurd (List.find?_eq_none.mp hfind id hid) (by simp)
      | some other =>
          have hline := List.find?_some hfind
          have heq : header.line other = header.line id := by simpa using hline
          rw [header.line_inj (List.mem_of_find?_eq_some hfind) heq]
    show (match header.threads.find? (fun other => header.line other ++ [newline] =
      header.line id ++ [newline]) with
      | some id => Parsed.record id (some default)
      | none => .wrong) = _
    rw [hfind]

theorem Header.parse_blank : (header.trace copies α).parse [newline] = .wrong := by
  have hnone : header.threads.find? (fun id => header.line id ++ [newline] = [newline]) = none := by
    rw [List.find?_eq_none]
    intro id _ hline
    have hline : header.line id ++ [newline] = [newline] := by simpa using hline
    exact Library.Formats.decimal_ne_nil _ (List.append_left_eq_self.mp hline)
  show (match header.threads.find? (fun id => header.line id ++ [newline] = [newline]) with
    | some id => Parsed.record id (some default)
    | none => .wrong) = _
  rw [hnone]

theorem Header.lines : splitLines newline (header.trace copies α).text =
    header.threads.flatMap (header.records copies) := by
  have hcopies : header.threads.flatMap (header.records copies) =
      (header.threads.flatMap fun id => List.replicate (copies id + 1) (header.line id)).map
        (· ++ [newline]) := by
    rw [List.map_flatMap]
    simp only [List.map_replicate]
    rfl
  have htext : (header.trace copies α).text =
      (header.threads.flatMap fun id => List.replicate (copies id + 1) (header.line id)).flatMap
        (· ++ [newline]) ++ [] := by
    show (header.threads.flatMap (header.records copies)).flatten = _
    rw [hcopies, List.append_nil]
    exact List.flatMap_def.symm
  rw [htext, splitLines_flatMap_newline, hcopies]
  · exact List.append_nil _
  · intro line hline
    obtain ⟨id, -, hline⟩ := List.mem_flatMap.mp hline
    rw [List.eq_of_mem_replicate hline]
    exact header.newline_notMem id

theorem Header.takeWhile_threads {before after : List ThreadId} {id : ThreadId}
    (h : header.threads = before ++ id :: after) :
    header.threads.takeWhile (· ≠ id) = before := by
  have hnodup : header.threads.Nodup := @nodup_threads Unit (header.trace (fun _ => 0) Unit)
  rw [h] at hnodup ⊢
  have hbefore : ∀ other ∈ before, other ≠ id := by
    rintro other hother rfl
    exact (List.disjoint_of_nodup_append hnodup) hother List.mem_cons_self
  rw [List.takeWhile_append_of_pos (by simpa using hbefore), List.takeWhile_cons_of_neg (by simp),
    List.append_nil]

def Header.layout (α : Type*) [Inhabited α] : Layout α where
  trace := header.trace copies α
  head := []
  records := header.records copies
  offsets := []
  lines := by
    rw [header.lines copies, List.append_nil]
    rfl
  threadsOffsets before id after hthreads := by
    rw [List.nil_append, ← header.takeWhile_threads hthreads]
    rfl
  counts := header.counts
  own id hid line hline := by
    rw [List.eq_of_mem_replicate hline]
    exact .inr (header.parse_line copies hid)
  nonempty id hid := ⟨_, List.mem_replicate.mpr ⟨Nat.succ_ne_zero _, rfl⟩,
    header.parse_line copies hid⟩
  headParse := by simp
  offsetsParse := by simp
  blankParse := header.parse_blank copies
  ignores id hid o ho := by
    have hnone : (header.trace copies α).ignored id = [] := rfl
    rw [hnone] at ho
    cases ho

theorem Header.size_layout (id : ThreadId) :
    (header.layout copies α).size id = (copies id + 1) * ((header.line id).length + 1) := by
  show (List.replicate (copies id + 1) (header.line id ++ [newline])).flatten.length = _
  simp

theorem Header.plain_layout : (header.layout copies α).Plain := by
  intro id hid line hline
  rw [List.eq_of_mem_replicate hline]
  exact (@Header.parse_line α _ header copies id hid).1

theorem Header.sized_layout (hcopies : ∀ id, copies id ≤ 11) : (header.layout copies α).Sized := by
  have hsmall : ∀ id ∈ header.threads, (header.layout copies α).size id < 2 ^ 24 := by
    intro id hid
    have hline := header.length_line hid
    have hle := Nat.mul_le_mul (Nat.succ_le_succ (hcopies id)) (Nat.succ_le_succ hline)
    rw [header.size_layout]
    exact Nat.lt_of_le_of_lt hle (by decide)
  constructor
  · intro id hid
    exact Nat.lt_trans (hsmall id hid) (by decide)
  · intro id hid line hline
    have hbelow := hsmall id hid
    have hpos := (header.layout copies α).length_pos hid line (List.mem_of_getLast? hline)
    have hsize := (header.layout copies α).size_pos hid
    rw [toFloat, toFloat, roundTo_natCast hbelow, roundTo_natCast (by omega)]
    exact Nat.cast_lt.mpr (by omega)

/-- If the sizes are right in all plain traces of the header, every task has one thread. -/
theorem eq_one_of_reportsProgress (h : ∀ L : Layout α, L.trace.threadsCount = header.threadsCount →
    L.Plain → L.Sized → L.ReportsProgress) : ∀ count ∈ header.threadsCount, count = 1 := by
  obtain ⟨sizes, hread, hsizes, -⟩ := h (header.layout (fun _ => 0) α) rfl
    (header.plain_layout _) (header.sized_layout _ fun _ => Nat.zero_le 11)
  apply forall_eq_one_of_injOn hread header.counts fun id hid => ⟨_, hsizes id hid⟩
  intro a ha b hb hindex
  by_contra hne
  -- two threads with one entry, and the first one has more bytes
  have hcopies : ∀ id, (if id = a then 11 else 0) ≤ 11 := by
    intro id
    split <;> omega
  obtain ⟨sizes', -, hsizes', -⟩ :=
    h (header.layout (fun id => if id = a then 11 else 0) α) rfl (header.plain_layout _)
      (header.sized_layout _ hcopies)
  have hsame : sizes'[progressionIndex (header.trace (fun id => if id = a then 11 else 0) α) a]? =
      sizes'[progressionIndex (header.trace (fun id => if id = a then 11 else 0) α) b]? :=
    congrArg (fun i : Nat => sizes'[i]?) hindex
  have hsizeA := hsizes' a ha
  have hsizeB := hsizes' b hb
  rw [header.size_layout] at hsizeA hsizeB
  have heq := hsizeA.symm.trans (hsame.trans hsizeB)
  have heq := Int.ofNat_inj.mp (Option.some.inj (Option.some.inj heq))
  rw [if_pos rfl, if_neg (Ne.symm hne)] at heq
  have hline := header.length_line hb
  omega

end

/-- Where the sizes of the records and the progress of the threads are right: without blank lines
exactly if the sizes are not too large, and with blank lines in no trace of few bytes. -/
structure Layout.RightIfSized (L : Layout α) : Prop where
  plain : L.Plain → (L.ReportsProgress ↔ L.Sized)
  blank : ¬ L.Plain → (∀ id ∈ L.trace.threads, L.size id < 16777216) → ¬ L.ReportsProgress

/-- The traces of a header are right so exactly when all tasks of the header have one thread. -/
theorem reportsProgress_iff_sized_iff [Inhabited α] (header : Header) :
    (∀ L : Layout α, L.trace.threadsCount = header.threadsCount → L.RightIfSized) ↔
      ∀ count ∈ header.threadsCount, count = 1 := by
  constructor
  · intro h
    exact eq_one_of_reportsProgress header fun L hL hplain => ((h L hL).plain hplain).mpr
  · intro hcounts L hL
    constructor
    · intro hplain
      constructor
      · exact sized_of_reportsProgress hplain
      · intro hsized
        apply reportsProgress_single hplain hsized
        rwa [hL]
    · intro hblank hfew hprogress
      exact hblank (plain_of_reportsProgress hprogress hfew)

def twoThreads : Header := ⟨[2], by decide, by decide⟩

/-- The entry of the second thread would be the third one of an array with two entries. -/
theorem not_reportsProgress : ¬ ∀ L : Layout Unit, L.Plain → L.Sized → L.ReportsProgress := by
  intro h
  obtain ⟨sizes, hread, hsizes, -⟩ := h (twoThreads.layout (fun _ => 0) Unit)
    (twoThreads.plain_layout _) (twoThreads.sized_layout _ fun _ => Nat.zero_le 11)
  have hsecond := hsizes (0, 1) (mem_threads.mpr ⟨2, rfl, by decide⟩)
  obtain ⟨-, task, count, hcount, hindex⟩ := readOffsets_written hread hsecond
  have hcount : [2][task]? = some count := hcount
  obtain ⟨htask, -⟩ := List.getElem?_eq_some_iff.mp hcount
  obtain rfl : task = 0 := Nat.lt_one_iff.mp htask
  cases hindex

end Dimemas.Input.ReadingProgress
