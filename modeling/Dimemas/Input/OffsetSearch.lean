import Dimemas.Library.Lines
import Dimemas.Library.Scanning
/-!
# The offsets of a trace without offsets

The first record of each thread is searched for between the first record of the thread before and
the end of the file (`DAP_locate_offsets`). The search halves the file until what is left is short,
and reads that line by line.
-/

namespace Dimemas.Input.OffsetSearch

open Dimemas.Library.Formats
open Dimemas.Library.Lines
open Dimemas.Library.Scanning

/-- The fields of `app_struct` that the search uses. There is a count of threads for each task. -/
structure App where
  threadsCount : List Nat
  recordsOffset : Nat
  threadsOffsets : List (List Nat)
  currentThreadsOffsets : List (List Nat)
deriving DecidableEq

/-- `%d:%d:%d:%[^\n]`. -/
def actionFormat : List Conversion :=
  [.integer .int true, .literal ':', .integer .int true, .literal ':', .integer .int true,
    .literal ':', .upTo newline true]

def noopFormat : List Conversion :=
  [.literal '0', .literal ':', .integer .int true, .literal ':', .integer .int true]

def recordThread (line : List Char) : Option (Int × Int) :=
  match scan actionFormat line with
  | [.integer _, .integer task, .integer thread, .text _] => some (task, thread)
  | _ =>
      match scan noopFormat line with
      | [.integer task, .integer thread] => some (task, thread)
      | _ => none

/-- `DATA_ACCESS_SEEK_THRESHOLD`. -/
def seekThreshold : Nat := 2 * 1024

/-- The records are read line by line, the first at a place of the file. No place is 0. -/
def seekRecord (task thread : Int) : Nat → List (List Char) → Nat
  | _, [] => 0
  | place, line :: lines =>
      if line = [newline] then seekRecord task thread (place + 1) lines
      else
        match recordThread line with
        | none => 0
        | some (readTask, readThread) =>
            if task = readTask ∧ thread = readThread then place
            else seekRecord task thread (place + line.length) lines

/-- `DAP_locate_thread_offset`. The first line that is read may be the end of one. -/
def locateThreadOffset (text : List Char) (task thread : Int) (lower upper : Nat) : Nat :=
  if upper ≤ lower then 0
  else if upper - lower < seekThreshold then
    if lower = 0 then 0
    else
      match splitLines newline (text.drop (lower - 1)) with
      | [] => 0
      | line :: lines => seekRecord task thread (lower - 1 + line.length) lines
  else
    let half := lower + (upper - lower) / 2
    match splitLines newline (text.drop half) with
    | _ :: line :: _ =>
        match recordThread line with
        | none => 0
        | some (readTask, readThread) =>
            if task > readTask then locateThreadOffset text task thread half upper
            else if task < readTask then locateThreadOffset text task thread lower half
            else if thread > readThread then locateThreadOffset text task thread half upper
            else locateThreadOffset text task thread lower half
    | _ => 0
termination_by upper - lower
decreasing_by
  all_goals
    simp only [seekThreshold] at *
    omega

def locateTask (text : List Char) (recordsOffset task : Nat) :
    Nat → Nat → Nat → Option (List Nat × Nat)
  | 0, _, last => some ([], last)
  | count + 1, thread, last =>
      let offset :=
        if task = 0 ∧ thread = 0 then recordsOffset
        else locateThreadOffset text task thread last text.length
      if offset = 0 then none
      else
        (locateTask text recordsOffset task count (thread + 1) offset).map fun result =>
          (offset :: result.1, result.2)

def locateTasks (text : List Char) (recordsOffset : Nat) :
    Nat → List Nat → Nat → Option (List (List Nat))
  | _, [], _ => some []
  | task, count :: counts, last =>
      (locateTask text recordsOffset task count 0 last).bind fun result =>
        (locateTasks text recordsOffset (task + 1) counts result.2).map (result.1 :: ·)

def locateOffsets (text : List Char) (app : App) : Option App :=
  (locateTasks text app.recordsOffset 0 app.threadsCount app.recordsOffset).map fun offsets =>
    { app with threadsOffsets := offsets, currentThreadsOffsets := offsets }

/-! ## Traces -/

def AtMost (a b : Int × Int) : Prop := a.1 < b.1 ∨ a.1 = b.1 ∧ a.2 ≤ b.2

/-- A trace whose header ends in front of the records, which are of threads, have at most 512 bytes
without the end of the line, and are sorted by task and thread. -/
structure Sorted (text : List Char) (header records : List (List Char)) : Prop where
  lines : splitLines newline text = header ++ records
  hasHeader : header ≠ []
  wellFormed : ∀ line ∈ records,
    ∃ task thread : Nat, recordThread line = some ((task : Int), (thread : Int))
  short : ∀ line ∈ records, line.length ≤ 513
  sorted : records.Pairwise fun line line' =>
    ∀ a ∈ recordThread line, ∀ b ∈ recordThread line', AtMost a b

def recordsBefore (records : List (List Char)) (task thread : Nat) : List (List Char) :=
  records.takeWhile fun line => recordThread line ≠ some ((task : Int), (thread : Int))

def firstOffset (header records : List (List Char)) (task thread : Nat) : Nat :=
  (header ++ recordsBefore records task thread).flatten.length

def HasRecord (records : List (List Char)) (task thread : Nat) : Prop :=
  ∃ line ∈ records, recordThread line = some ((task : Int), (thread : Int))

section

variable {text : List Char} {header records before after : List (List Char)} {line : List Char}
variable {task thread task' thread' lower upper place : Nat}

theorem HasRecord.ne_nil (h : HasRecord records task thread) : records ≠ [] := by
  obtain ⟨line, hline, -⟩ := h
  exact List.ne_nil_of_mem hline

theorem HasRecord.split (h : HasRecord records task thread) : ∃ line after,
    records = recordsBefore records task thread ++ line :: after ∧
      recordThread line = some ((task : Int), (thread : Int)) := by
  obtain ⟨line, hline, hthread⟩ := h
  have hdrop : records.dropWhile
      (fun line => recordThread line ≠ some ((task : Int), (thread : Int))) ≠ [] := by
    intro hnil
    have hall := List.dropWhile_eq_nil_iff.mp hnil line hline
    exact (decide_eq_true_iff.mp hall) hthread
  obtain ⟨first, after, hcons⟩ := List.exists_cons_of_ne_nil hdrop
  refine ⟨first, after, ?_, ?_⟩
  · rw [← hcons]
    exact List.takeWhile_append_dropWhile.symm
  · have hnot := List.head_dropWhile_not
      (fun line => decide (recordThread line ≠ some ((task : Int), (thread : Int)))) hdrop
    simp only [hcons, List.head_cons] at hnot
    simpa using hnot

theorem ne_of_mem_recordsBefore (h : line ∈ recordsBefore records task thread) :
    recordThread line ≠ some ((task : Int), (thread : Int)) := by
  have hkeep := List.mem_takeWhile_imp h
  exact decide_eq_true_iff.mp hkeep

/-- The reading of the lines finds the first record of a thread. -/
theorem seekRecord_eq (hbefore : ∀ line ∈ before, ∃ read, recordThread line = some read ∧
      read ≠ ((task : Int), (thread : Int)))
    (hline : recordThread line = some ((task : Int), (thread : Int))) :
    seekRecord task thread place (before ++ line :: after) = place + before.flatten.length := by
  have hblank {line : List Char} {read : Int × Int} (h : recordThread line = some read) :
      line ≠ [newline] := by
    intro heq
    rw [heq] at h
    cases h
  induction before generalizing place with
  | nil =>
      rw [List.nil_append, seekRecord, if_neg (hblank hline), hline]
      exact if_pos ⟨rfl, rfl⟩
  | cons first before ih =>
      obtain ⟨⟨readTask, readThread⟩, hfirst, hne⟩ := hbefore first List.mem_cons_self
      have hother : ¬ ((task : Int) = readTask ∧ (thread : Int) = readThread) := by
        rintro ⟨htask, hthread⟩
        exact hne (by rw [htask, hthread])
      rw [List.cons_append, seekRecord, if_neg (hblank hfirst), hfirst]
      simp only [if_neg hother]
      rw [ih fun line hline => hbefore line (List.mem_cons_of_mem first hline), List.flatten_cons,
        List.length_append, Nat.add_assoc]

theorem Sorted.text_length (h : Sorted text header records) :
    text.length = (header ++ records).flatten.length := by
  rw [← h.lines, flatten_splitLines]

theorem mem_of_mem_recordsBefore (hmem : line ∈ recordsBefore records task thread) :
    line ∈ records :=
  (List.takeWhile_prefix _).subset hmem

/-- The line behind a place in the header is of the header or the first record. -/
theorem Sorted.split_lines (h : Sorted text header records) (hrecord : HasRecord records task thread) :
    ∃ line after, splitLines newline text =
      (header ++ recordsBefore records task thread) ++ line :: after ∧
      recordThread line = some ((task : Int), (thread : Int)) ∧
      line ∈ records ∧ ∀ other ∈ after, other ∈ records ∧ ∀ read, recordThread other = some read →
        AtMost ((task : Int), (thread : Int)) read := by
  obtain ⟨line, after, hrecords, hline⟩ := hrecord.split
  refine ⟨line, after, ?_, hline, ?_, fun other hother => ⟨?_, fun read hread => ?_⟩⟩
  · rw [h.lines, List.append_assoc, ← hrecords]
  · rw [hrecords]
    exact List.mem_append_right _ List.mem_cons_self
  · rw [hrecords]
    exact List.mem_append_right _ (List.mem_cons_of_mem line hother)
  · have hsorted := h.sorted
    rw [hrecords] at hsorted
    have hafter := (List.pairwise_append.mp hsorted).2.1
    exact (List.pairwise_cons.mp hafter).1 other hother _ hline _ hread

/-- The last stage reads on to the first record of the thread. -/
theorem Sorted.seek (h : Sorted text header records) (hrecord : HasRecord records task thread)
    (hlower : header.flatten.length ≤ lower) (hpos : 0 < lower)
    (hle : lower ≤ firstOffset header records task thread) :
    ∃ line lines, splitLines newline (text.drop (lower - 1)) = line :: lines ∧
      seekRecord task thread (lower - 1 + line.length) lines =
        firstOffset header records task thread := by
  obtain ⟨first, after, hlines, hfirst, hmem, -⟩ := h.split_lines hrecord
  have hplace : lower - 1 < text.length := by
    have hlength := congrArg (fun lines => lines.flatten.length) hlines
    simp only [flatten_splitLines, List.flatten_append, List.length_append] at hlength
    rw [firstOffset, List.flatten_append, List.length_append] at hle
    omega
  obtain ⟨before, line, rest, hsplit, hbefore, hline, hdrop⟩ :=
    splitLines_drop_inside newline hplace
  refine ⟨_, rest, hdrop, ?_⟩
  have hend : lower - 1 + (line.drop (lower - 1 - before.flatten.length)).length =
      (before ++ [line]).flatten.length := by
    rw [List.flatten_append, List.length_append, List.flatten_singleton] at hline ⊢
    rw [List.length_drop]
    omega
  have hprefix : header ++ recordsBefore records task thread <+: before ++ line :: rest := by
    rw [← hsplit, hlines]
    exact List.prefix_append _ _
  have hreach : before.flatten.length <
      (header ++ recordsBefore records task thread).flatten.length := by
    rw [firstOffset] at hle
    omega
  obtain ⟨others, hothers⟩ := prefix_of_lt hprefix hreach
  have hrest : rest = others ++ first :: after := by
    have heq := hsplit.symm.trans hlines
    rw [← hothers, List.append_cons before, List.append_assoc (before ++ [line])] at heq
    exact List.append_cancel_left heq
  have hheader : header <+: before ++ [line] := by
    have hlast : before ++ [line] <+: before ++ line :: rest :=
      List.append_cons before line rest ▸ List.prefix_append _ _
    apply prefix_of_length_le _ ((List.prefix_append _ _).trans hprefix) hlast
    · rw [List.flatten_append, List.length_append, List.flatten_singleton] at hline ⊢
      omega
    · intro other hother
      rw [← hsplit] at hother
      exact length_pos_of_mem_splitLines hother
  obtain ⟨more, hmore⟩ := hheader
  have hothersIn : ∀ other ∈ others, other ∈ recordsBefore records task thread := by
    intro other hother
    rw [← hmore, List.append_assoc] at hothers
    rw [← List.append_cancel_left hothers]
    exact List.mem_append_right _ hother
  rw [hrest, hend, seekRecord_eq _ hfirst]
  · have hlength := congrArg List.length (@List.flatten_append _ (before ++ [line]) others)
    rw [List.length_append] at hlength
    rw [firstOffset, ← hothers]
    exact hlength.symm
  · intro other hother
    have hin := hothersIn other hother
    obtain ⟨readTask, readThread, hread⟩ := h.wellFormed other (mem_of_mem_recordsBefore hin)
    refine ⟨_, hread, fun heq => ne_of_mem_recordsBefore hin ?_⟩
    rw [hread, heq]

theorem Sorted.probe (h : Sorted text header records) (hrecord : HasRecord records task thread)
    (hplace : header.flatten.length ≤ place) (hend : place + 1024 ≤ text.length) :
    ∃ line other lines, splitLines newline (text.drop place) = line :: other :: lines ∧
      ∃ readTask readThread : Nat,
        recordThread other = some ((readTask : Int), (readThread : Int)) ∧
        (¬ AtMost ((task : Int), (thread : Int)) ((readTask : Int), (readThread : Int)) →
          place ≤ firstOffset header records task thread) := by
  obtain ⟨first, after, hlines, hfirst, hmem, hafter⟩ := h.split_lines hrecord
  have hinside : place < text.length := by omega
  obtain ⟨before, line, rest, hsplit, hbefore, hline, hdrop⟩ :=
    splitLines_drop_inside newline hinside
  have hheader : header <+: before ++ line :: rest := by
    rw [← hsplit, h.lines]
    exact List.prefix_append _ _
  obtain ⟨more, hmore⟩ := prefix_of_le hheader hplace hline
  have hrecords : records = more ++ line :: rest := by
    have heq := h.lines.symm.trans hsplit
    rw [← hmore, List.append_assoc] at heq
    exact List.append_cancel_left heq
  have hshort : line.length ≤ 513 := by
    apply h.short
    rw [hrecords]
    exact List.mem_append_right _ List.mem_cons_self
  cases rest with
  | nil =>
      have hlength := congrArg (fun lines => lines.flatten.length) hsplit
      simp only [flatten_splitLines] at hlength
      rw [List.flatten_append, List.length_append, List.flatten_singleton] at hline hlength
      omega
  | cons other lines =>
      have hother : other ∈ records := by
        rw [hrecords]
        exact List.mem_append_right _ (List.mem_cons_of_mem line List.mem_cons_self)
      obtain ⟨readTask, readThread, hread⟩ := h.wellFormed other hother
      refine ⟨_, other, lines, hdrop, readTask, readThread, hread, fun hlater => ?_⟩
      by_contra hlt
      apply hlater
      -- the records of the thread begin in front of the line
      have hfront : header ++ recordsBefore records task thread <+:
          before ++ line :: other :: lines := by
        rw [← hsplit, hlines]
        exact List.prefix_append _ _
      obtain ⟨others, hothers⟩ := prefix_of_le hfront (Nat.le_of_not_le hlt) hline
      have heq := hlines.symm.trans hsplit
      rw [← hothers, List.append_assoc (header ++ recordsBefore records task thread)] at heq
      have hcancel := List.append_cancel_left heq
      apply (hafter other _).2 _ hread
      cases others with
      | nil =>
          rw [(List.cons.inj hcancel).2]
          exact List.mem_cons_self
      | cons next others =>
          rw [(List.cons.inj hcancel).2]
          exact List.mem_append_right _ (List.mem_cons_of_mem line List.mem_cons_self)

theorem Sorted.header_length_pos (h : Sorted text header records) :
    0 < header.flatten.length := by
  obtain ⟨line, lines, hcons⟩ := List.exists_cons_of_ne_nil h.hasHeader
  have hmem : line ∈ splitLines newline text := by
    rw [h.lines, hcons]
    exact List.mem_cons_self
  have hline := length_pos_of_mem_splitLines hmem
  rw [hcons, List.flatten_cons, List.length_append]
  omega

/-- The search finds the first record of a thread between the bounds. -/
theorem Sorted.locateThreadOffset_eq (h : Sorted text header records)
    (hrecord : HasRecord records task thread) (hlower : header.flatten.length ≤ lower)
    (hle : lower ≤ firstOffset header records task thread) (hlt : lower < upper)
    (hupper : upper ≤ text.length) : locateThreadOffset text task thread lower upper =
      firstOffset header records task thread := by
  have hpos := h.header_length_pos
  induction hsize : upper - lower using Nat.strong_induction_on generalizing lower upper with
  | _ size ih =>
      rw [locateThreadOffset, if_neg (Nat.not_le_of_lt hlt)]
      by_cases hshort : upper - lower < seekThreshold
      · obtain ⟨line, lines, hlines, hseek⟩ := h.seek hrecord hlower (by omega) hle
        rw [if_pos hshort, if_neg (by omega), hlines]
        exact hseek
      · have hlong : 2048 ≤ upper - lower := Nat.le_of_not_lt hshort
        rw [if_neg hshort]
        obtain ⟨line, other, lines, hlines, readTask, readThread, hread, hlater⟩ :=
          @Sorted.probe text header records task thread (lower + (upper - lower) / 2) h hrecord
            (by omega) (by omega)
        have hupperHalf : ¬ AtMost ((task : Int), (thread : Int)) (readTask, readThread) →
            locateThreadOffset text task thread (lower + (upper - lower) / 2) upper =
              firstOffset header records task thread := fun hnot =>
          ih (upper - (lower + (upper - lower) / 2)) (by omega) (by omega) (hlater hnot)
            (by omega) hupper rfl
        have hlowerHalf : locateThreadOffset text task thread lower
            (lower + (upper - lower) / 2) = firstOffset header records task thread :=
          ih (lower + (upper - lower) / 2 - lower) (by omega) hlower hle (by omega) (by omega) rfl
        have horder : AtMost ((task : Int), (thread : Int)) (readTask, readThread) ↔
            (task : Int) < readTask ∨ (task : Int) = readTask ∧ (thread : Int) ≤ readThread :=
          Iff.rfl
        simp only [hlines, hread]
        split
        · exact hupperHalf (by rw [horder]; omega)
        · split
          · exact hlowerHalf
          · split
            · exact hupperHalf (by rw [horder]; omega)
            · exact hlowerHalf

theorem AtMost.antisymm {a b : Int × Int} (h : AtMost a b) (h' : AtMost b a) : a = b := by
  have hab : a.1 < b.1 ∨ a.1 = b.1 ∧ a.2 ≤ b.2 := h
  have hba : b.1 < a.1 ∨ b.1 = a.1 ∧ b.2 ≤ a.2 := h'
  apply Prod.ext
  · omega
  · omega

theorem Sorted.atMost_of_mem_recordsBefore (h : Sorted text header records)
    (hrecord : HasRecord records task thread) (hmem : line ∈ recordsBefore records task thread)
    {read : Int × Int} (hread : recordThread line = some read) :
    AtMost read ((task : Int), (thread : Int)) := by
  obtain ⟨first, after, hrecords, hfirst⟩ := hrecord.split
  have hsorted := h.sorted
  rw [hrecords] at hsorted
  exact (List.pairwise_append.mp hsorted).2.2 line hmem first List.mem_cons_self _ hread _ hfirst

theorem Sorted.firstOffset_le (h : Sorted text header records)
    (hrecord : HasRecord records task thread)
    (hle : AtMost ((task : Int), (thread : Int)) ((task' : Int), (thread' : Int))) :
    firstOffset header records task thread ≤ firstOffset header records task' thread' := by
  obtain ⟨first, after, hrecords, hfirst⟩ := hrecord.split
  have hother : ∀ line ∈ recordsBefore records task thread,
      decide (recordThread line ≠ some ((task' : Int), (thread' : Int))) = true := by
    intro line hline
    apply decide_eq_true
    intro heq
    have hsame := hle.antisymm (h.atMost_of_mem_recordsBefore hrecord hline heq)
    exact ne_of_mem_recordsBefore hline (by rw [heq, hsame])
  have hprefix : recordsBefore records task thread <+: recordsBefore records task' thread' := by
    conv => rhs; rw [recordsBefore, hrecords, List.takeWhile_append_of_pos hother]
    exact List.prefix_append _ _
  exact length_flatten_le ((List.prefix_append_right_inj header).mpr hprefix)

theorem Sorted.firstOffset_lt (h : Sorted text header records)
    (hrecord : HasRecord records task thread) :
    firstOffset header records task thread < text.length := by
  obtain ⟨first, after, hlines, -⟩ := h.split_lines hrecord
  have hmem : first ∈ splitLines newline text := by
    rw [hlines]
    exact List.mem_append_right _ List.mem_cons_self
  have hfirst := length_pos_of_mem_splitLines hmem
  have hlength := congrArg (fun lines => lines.flatten.length) hlines
  rw [flatten_splitLines, List.flatten_append, List.length_append, List.flatten_cons,
    List.length_append] at hlength
  rw [firstOffset]
  omega

theorem header_length_le (header records : List (List Char)) (task thread : Nat) :
    header.flatten.length ≤ firstOffset header records task thread :=
  length_flatten_le (List.prefix_append _ _)

theorem Sorted.firstOffset_zero (h : Sorted text header records)
    (hrecord : HasRecord records 0 0) :
    firstOffset header records 0 0 = header.flatten.length := by
  have hnil : recordsBefore records 0 0 = [] := by
    apply List.eq_nil_iff_forall_not_mem.mpr
    intro line hline
    obtain ⟨task, thread, hread⟩ := h.wellFormed line (mem_of_mem_recordsBefore hline)
    have hle : (task : Int) < 0 ∨ (task : Int) = 0 ∧ (thread : Int) ≤ 0 :=
      h.atMost_of_mem_recordsBefore hrecord hline hread
    have htask : (task : Int) = 0 := by omega
    have hthread : (thread : Int) = 0 := by omega
    apply ne_of_mem_recordsBefore hline
    rw [hread, htask, hthread]
    rfl
  rw [firstOffset, hnil, List.append_nil]

/-- A place from which the first record of a thread and of all behind it is searched. -/
structure Bound (text : List Char) (header records : List (List Char)) (task thread last : Nat) :
    Prop where
  behindHeader : header.flatten.length ≤ last
  inText : records ≠ [] → last < text.length
  le : ∀ task' thread' : Nat, HasRecord records task' thread' →
    AtMost ((task : Int), (thread : Int)) ((task' : Int), (thread' : Int)) →
    last ≤ firstOffset header records task' thread'

theorem Sorted.bound_firstOffset (h : Sorted text header records)
    (hrecord : HasRecord records task thread) (hle : ∀ a b : Nat,
      AtMost ((task' : Int), (thread' : Int)) ((a : Int), (b : Int)) →
      AtMost ((task : Int), (thread : Int)) ((a : Int), (b : Int))) :
    Bound text header records task' thread' (firstOffset header records task thread) :=
  ⟨header_length_le .., fun _ => h.firstOffset_lt hrecord,
    fun a b _ hle' => h.firstOffset_le hrecord (hle a b hle')⟩

theorem Sorted.locateTask_eq {count last : Nat} (h : Sorted text header records)
    (hrecords : ∀ i < count, HasRecord records task (thread + i))
    (hbound : Bound text header records task thread last) :
    ∃ last', locateTask text header.flatten.length task count thread last =
        some ((List.range' thread count).map (firstOffset header records task), last') ∧
      Bound text header records task (thread + count) last' := by
  induction count generalizing thread last with
  | zero => exact ⟨last, rfl, hbound⟩
  | succ count ih =>
      have hrecord : HasRecord records task thread := hrecords 0 (Nat.succ_pos count)
      have hoffset : (if task = 0 ∧ thread = 0 then header.flatten.length
          else locateThreadOffset text task thread last text.length) =
          firstOffset header records task thread := by
        split
        · next hzero =>
            rw [hzero.1, hzero.2] at hrecord ⊢
            exact (h.firstOffset_zero hrecord).symm
        · exact h.locateThreadOffset_eq hrecord hbound.behindHeader
            (hbound.le task thread hrecord (Or.inr ⟨rfl, Int.le_refl _⟩))
            (hbound.inText hrecord.ne_nil) (Nat.le_refl _)
      have hpos := h.header_length_pos
      have hheader := header_length_le header records task thread
      obtain ⟨last', hrest, hbound'⟩ := @ih (thread + 1) (firstOffset header records task thread)
        (fun i hi => by
          rw [Nat.add_right_comm]
          exact hrecords (i + 1) (Nat.succ_lt_succ hi))
        (h.bound_firstOffset hrecord fun a b hab => by
          have hab' : (task : Int) < a ∨ (task : Int) = a ∧ ((thread + 1 : Nat) : Int) ≤ b := hab
          show (task : Int) < a ∨ (task : Int) = a ∧ (thread : Int) ≤ b
          omega)
      refine ⟨last', ?_, ?_⟩
      · rw [locateTask]
        simp only [hoffset]
        rw [if_neg (by omega), hrest]
        rfl
      · rw [Nat.add_right_comm] at hbound'
        exact hbound'

theorem Sorted.locateTasks_eq {counts : List Nat} {last : Nat} (h : Sorted text header records)
    (hrecords : ∀ i count, counts[i]? = some count → ∀ j < count, HasRecord records (task + i) j)
    (hbound : Bound text header records task 0 last) :
    locateTasks text header.flatten.length task counts last =
      some (counts.mapIdx fun i count =>
        (List.range count).map (firstOffset header records (task + i))) := by
  induction counts generalizing task last with
  | nil => rfl
  | cons count counts ih =>
      obtain ⟨last', htask, hbound'⟩ := h.locateTask_eq
        (fun j hj => by
          rw [Nat.zero_add]
          exact hrecords 0 count rfl j hj) hbound
      have hnext : Bound text header records (task + 1) 0 last' := by
        refine ⟨hbound'.behindHeader, hbound'.inText, fun a b hab hle => hbound'.le a b hab ?_⟩
        have hle' : ((task + 1 : Nat) : Int) < a ∨ ((task + 1 : Nat) : Int) = a ∧ (0 : Int) ≤ b :=
          hle
        left
        show (task : Int) < a
        omega
      have htasks := ih (fun i count' hcount j hj => by
        rw [Nat.add_right_comm]
        exact hrecords (i + 1) count' hcount j hj) hnext
      rw [locateTasks, htask, Option.bind_some, htasks, List.mapIdx_cons, List.range_eq_range']
      simp only [Option.map_some, Nat.add_zero, Nat.add_assoc, Nat.add_comm 1]

/-- In a sorted trace with a record of every thread the search finds the first record of each. -/
theorem offsets_located {app : App} (h : Sorted text header records)
    (hoffset : app.recordsOffset = header.flatten.length)
    (hrecords : ∀ task count, app.threadsCount[task]? = some count →
      ∀ thread < count, HasRecord records task thread) :
    locateOffsets text app = some { app with
      threadsOffsets := app.threadsCount.mapIdx fun task count =>
        (List.range count).map (firstOffset header records task)
      currentThreadsOffsets := app.threadsCount.mapIdx fun task count =>
        (List.range count).map (firstOffset header records task) } := by
  have hbound : Bound text header records 0 0 header.flatten.length := by
    refine ⟨Nat.le_refl _, fun hne => ?_, fun task thread _ _ => header_length_le ..⟩
    obtain ⟨line, lines, hcons⟩ := List.exists_cons_of_ne_nil hne
    have hmem : line ∈ splitLines newline text := by
      rw [h.lines, hcons]
      exact List.mem_append_right _ List.mem_cons_self
    have hline := length_pos_of_mem_splitLines hmem
    rw [h.text_length, hcons, List.flatten_append, List.length_append, List.flatten_cons,
      List.length_append]
    omega
  have htasks := @Sorted.locateTasks_eq text header records 0 app.threadsCount _ h
    (fun task count hcount thread hthread => by
      rw [Nat.zero_add]
      exact hrecords task count hcount thread hthread) hbound
  simp only [Nat.zero_add] at htasks
  rw [locateOffsets, hoffset, htasks]
  rfl

def workLine : List Char := ['1', ':', '0', ':', '0', ':', '5', newline]

def noopLine : List Char := ['0', ':', '1', ':', '0', newline]

/-- Two tasks, the second of which only has an empty record. The file has more bytes than are read
without halving. -/
def longRecords : List (List Char) := List.replicate 300 workLine ++ [noopLine]

def longTrace : List Char := '#' :: newline :: longRecords.flatten

theorem recordThread_workLine :
    recordThread workLine = some (((0 : Nat) : Int), ((0 : Nat) : Int)) := by decide

theorem recordThread_noopLine :
    recordThread noopLine = some (((1 : Nat) : Int), ((0 : Nat) : Int)) := by decide

theorem mem_longRecords : line ∈ longRecords ↔ line = workLine ∨ line = noopLine := by
  simp only [longRecords, List.mem_append, List.mem_replicate, List.mem_singleton, ne_eq,
    OfNat.ofNat_ne_zero, not_false_eq_true, true_and]

theorem sorted_longTrace : Sorted longTrace [['#', newline]] longRecords := by
  refine ⟨by decide +kernel, List.cons_ne_nil _ _, ?_, by decide +kernel, ?_⟩
  · intro line hline
    rcases mem_longRecords.mp hline with rfl | rfl
    · exact ⟨0, 0, recordThread_workLine⟩
    · exact ⟨1, 0, recordThread_noopLine⟩
  · apply List.pairwise_append.mpr
    refine ⟨List.pairwise_replicate.mpr (.inr ?_), List.pairwise_singleton .., ?_⟩
    · intro a ha b hb
      rw [recordThread_workLine] at ha hb
      rw [← Option.some.inj ha, ← Option.some.inj hb]
      exact Or.inr (by decide)
    · intro line hline line' hline' a ha b hb
      rw [List.eq_of_mem_replicate hline, recordThread_workLine] at ha
      rw [List.mem_singleton.mp hline', recordThread_noopLine] at hb
      rw [← Option.some.inj ha, ← Option.some.inj hb]
      exact Or.inl (by decide)

theorem offsets_located_longTrace :
    seekThreshold < longTrace.length ∧
      locateOffsets longTrace ⟨[1, 1], 2, [], []⟩ =
        some ⟨[1, 1], 2, [[2], [2402]], [[2], [2402]]⟩ := by
  refine ⟨by decide +kernel, ?_⟩
  refine (offsets_located sorted_longTrace rfl fun task count hcount thread hthread => ?_).trans
    (by decide +kernel)
  rcases task with _ | _ | task
  · obtain rfl : thread = 0 := Nat.lt_one_iff.mp (Option.some.inj hcount ▸ hthread)
    exact ⟨_, mem_longRecords.mpr (.inl rfl), recordThread_workLine⟩
  · obtain rfl : thread = 0 := Nat.lt_one_iff.mp (Option.some.inj hcount ▸ hthread)
    exact ⟨_, mem_longRecords.mpr (.inr rfl), recordThread_noopLine⟩
  · cases hcount

end

end Dimemas.Input.OffsetSearch
