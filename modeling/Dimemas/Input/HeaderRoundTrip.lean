import Dimemas.Input.HeaderReader
import Dimemas.Prv2dim.TraceHeader
/-!
# The header between the translator and the simulator

What the simulator reads from the trace that the translator has finished. The lists of the header
are taken apart by their separators, and the writer also puts a separator behind a task that is not
in the list.
-/

namespace Dimemas.Input.HeaderRoundTrip

open Dimemas.Library.Formats
open Dimemas.Library.Lines
open Dimemas.Library.Scanning
open Dimemas.Library.StableQueue
open Dimemas.Prv2dim.TraceHeader
open Dimemas.Input.HeaderReader

def recovered (c : Prv2dim.TraceHeader.Communicator) : HeaderReader.Communicator where
  communicatorId := c.id.toInt
  size := c.tasks.length
  globalRanks := c.tasks.map fun task => (dimemasTask task).toInt

/-- The simulator reads what the translator was given, and the definitive header takes the bytes of
the provisional one. -/
structure RoundTrip (t : Translation) : Prop where
  inPlace : (newFormatHeader t.name t.app t.accTasks t.offsetsOffset).length =
    (newFormatHeader t.name t.app t.accTasks 0).length
  app : ∃ app, addPtask t.trace = some app ∧
    app.tasksCount = t.app.threads.length ∧
    app.threadsCount = t.app.threads.map Int.ofNat ∧
    app.comms.Perm (t.app.communicators.map recovered) ∧
    app.threadsOffsets = t.outputOffsets
  accTasks : ∃ tasks, getAccTasks t.trace = some tasks ∧
    ∀ i : Int, i ∈ tasks ↔ ∃ n : Nat, i = n ∧ t.accTasks[n]? = some true

def Leading (accTasks : List Bool) : Prop :=
  ∀ i j : Nat, i < j → accTasks[j]? = some true → accTasks[i]? = some true

/-- There are tasks, each with a thread, and no communicator is void. The first thread of each task
has its place in the array of the sizes, and the accelerator tasks are the first ones. -/
structure Readable (t : Translation) : Prop where
  tasks : t.app.threads ≠ []
  threads : ∀ n ∈ t.app.threads, 0 < n
  sizes : ∀ i n : Nat, t.app.threads[i]? = some n → n * i < t.app.threads.sum
  communicators : ∀ c ∈ t.app.communicators, c.tasks ≠ []
  accTasks : Leading t.accTasks

section

variable {name : TraceName} {app : ApplicationDescription} {accTasks : List Bool}

/-! ## The text of the header -/

def accTokens : Nat → Nat → List Bool → List (List Char)
  | _, _, [] => []
  | i, count, acc :: accTasks =>
      let count := if acc then count - 1 else count
      (if acc then decimal i else []) ::
        (if 0 < count then accTokens (i + 1) count accTasks else [])

theorem accTokens_ne_nil {i count : Nat} (hcount : 0 < count) (h : accTasks.count true = count) :
    accTokens i count accTasks ≠ [] := by
  cases accTasks with
  | nil =>
      rw [List.count_nil] at h
      omega
  | cons acc accTasks => exact List.cons_ne_nil _ _

theorem accTasksList_eq {i count : Nat} (hcount : 0 < count) (h : accTasks.count true = count) :
    accTasksList i count accTasks =
      (if i = 0 then ['('] else []) ++ ([','].intercalate (accTokens i count accTasks) ++ [')']) := by
  induction accTasks generalizing i count with
  | nil =>
      rw [List.count_nil] at h
      omega
  | cons acc accTasks ih =>
      have hrest : accTasks.count true = if acc then count - 1 else count := by
        cases acc with
        | false => simpa using h
        | true =>
            rw [List.count_cons_self] at h
            exact (Nat.eq_sub_of_add_eq h)
      simp only [accTasksList, if_pos hcount, accTokens]
      generalize (if acc = true then count - 1 else count) = left at hrest ⊢
      by_cases hleft : 0 < left
      · simp only [if_pos hleft]
        rw [ih hleft hrest, if_neg (Nat.succ_ne_zero i),
          List.intercalate_cons_of_ne_nil (accTokens_ne_nil hleft hrest)]
        simp
      · simp only [if_neg hleft]
        rw [List.intercalate_singleton, List.append_assoc]

theorem leading_true_cons : Leading (true :: accTasks) ↔ Leading accTasks := by
  constructor
  · intro h i j hij hj
    exact h (i + 1) (j + 1) (Nat.succ_lt_succ hij) hj
  · intro h i j hij hj
    cases i with
    | zero => rfl
    | succ i =>
        cases j with
        | zero => omega
        | succ j => exact h i j (Nat.lt_of_succ_lt_succ hij) hj

theorem leading_false_cons : Leading (false :: accTasks) ↔ accTasks.count true = 0 := by
  rw [List.count_eq_zero]
  constructor
  · intro h hmem
    obtain ⟨j, hj⟩ := List.mem_iff_getElem?.mp hmem
    cases h 0 (j + 1) (Nat.succ_pos j) hj
  · intro h i j hij hj
    cases j with
    | zero => omega
    | succ j =>
        rw [List.getElem?_cons_succ] at hj
        exact absurd (List.mem_of_getElem? hj) h

/-- There are as many tokens as accelerator tasks exactly when these are the first tasks. -/
theorem length_accTokens {i count : Nat} (hcount : 0 < count) (h : accTasks.count true = count) :
    count ≤ (accTokens i count accTasks).length ∧
      ((accTokens i count accTasks).length = count ↔ Leading accTasks) := by
  induction accTasks generalizing i count with
  | nil =>
      rw [List.count_nil] at h
      omega
  | cons acc accTasks ih =>
      cases acc with
      | false =>
          rw [List.count_cons_of_ne (by decide)] at h
          have hlength := @ih (i + 1) count hcount h
          rw [leading_false_cons]
          simp only [accTokens, Bool.false_eq_true, if_false, if_pos hcount, List.length_cons]
          omega
      | true =>
          rw [List.count_cons_self] at h
          rw [leading_true_cons]
          have hrest : accTasks.count true = count - 1 := Nat.eq_sub_of_add_eq h
          simp only [accTokens, if_true]
          by_cases hleft : 0 < count - 1
          · have hlength := @ih (i + 1) (count - 1) hleft hrest
            rw [if_pos hleft, List.length_cons, ← hlength.2]
            omega
          · have hzero : accTasks.count true = 0 := by omega
            have hleading : Leading accTasks := by
              intro j k _ hk
              rw [List.count_eq_zero] at hzero
              exact absurd (List.mem_of_getElem? hk) hzero
            rw [if_neg hleft]
            simp only [List.length_singleton, hleading, iff_true]
            omega

theorem accTokens_of_leading {i count : Nat} (hcount : 0 < count)
    (h : accTasks.count true = count) (hleading : Leading accTasks) :
    accTokens i count accTasks = (List.range' i count).map fun (n : Nat) => decimal n := by
  induction accTasks generalizing i count with
  | nil =>
      rw [List.count_nil] at h
      omega
  | cons acc accTasks ih =>
      obtain ⟨left, rfl⟩ : ∃ left, count = left + 1 := ⟨count - 1, by omega⟩
      cases acc with
      | false =>
          rw [leading_false_cons] at hleading
          rw [List.count_cons_of_ne (by decide), hleading] at h
          omega
      | true =>
          rw [List.count_cons_self] at h
          rw [leading_true_cons] at hleading
          simp only [accTokens, if_true, Nat.add_sub_cancel, List.range'_succ, List.map_cons]
          by_cases hleft : 0 < left
          · rw [if_pos hleft, ih hleft (Nat.succ.inj h) hleading]
          · obtain rfl : left = 0 := by omega
            rfl

theorem getElem?_of_leading (hleading : Leading accTasks) (n : Nat) :
    accTasks[n]? = some true ↔ n < accTasks.count true := by
  induction accTasks generalizing n with
  | nil => simp
  | cons acc accTasks ih =>
      cases acc with
      | false =>
          rw [leading_false_cons] at hleading
          have hzero : true ∉ accTasks := List.count_eq_zero.mp hleading
          rw [List.count_cons_of_ne (by decide), hleading]
          cases n with
          | zero => simp
          | succ n =>
              simp only [List.getElem?_cons_succ, Nat.not_lt_zero, iff_false]
              exact fun hn => hzero (List.mem_of_getElem? hn)
      | true =>
          rw [leading_true_cons] at hleading
          rw [List.count_cons_self]
          cases n with
          | zero => simp
          | succ n => simpa using ih hleading n

/-! ## The lines of the trace -/

def ptaskInfo (app : ApplicationDescription) (accTasks : List Bool) : List Char :=
  decimal app.threads.length ++ '(' :: (threadCounts app.threads ++
    ')' :: ',' :: (decimal app.communicators.length ++ ',' :: (decimal (accTasks.count true) ++
      accTasksList 0 (accTasks.count true) accTasks)))

def headerLine (name : TraceName) (app : ApplicationDescription) (accTasks : List Bool)
    (offset : Nat) : List Char :=
  headerStart ++ (name.text ++ '"' :: ':' :: ('1' :: ',' :: decimal offset ++ ':' ::
    (ptaskInfo app accTasks ++
      List.replicate (offsetsOffsetReserve - UInt32.ofNat (decimal offset).length).toNat ' ')))

theorem newFormatHeader_eq {offset : Nat} (h : offset ≠ 0) :
    newFormatHeader name app accTasks offset = headerLine name app accTasks offset ++ [newline] := by
  simp [newFormatHeader, headerLine, ptaskInfo, h]

theorem notMem_threadCounts {c : Char} (hdigit : ¬ c.isDigit) (hcomma : c ≠ ',')
    (threads : List Nat) : c ∉ threadCounts threads := by
  rw [threadCounts_eq]
  intro hc
  rcases mem_intercalate hc with rfl | ⟨l, hl, hc⟩
  · exact hcomma rfl
  · obtain ⟨n, -, rfl⟩ := List.mem_map.mp hl
    exact notMem_decimal n hdigit hc

theorem notMem_accTokens {c : Char} (hdigit : ¬ c.isDigit) (i count : Nat) (accTasks : List Bool) :
    ∀ l ∈ accTokens i count accTasks, c ∉ l := by
  induction accTasks generalizing i count with
  | nil => intro l hl; simp [accTokens] at hl
  | cons acc accTasks ih =>
      intro l hl
      rcases List.mem_cons.mp hl with rfl | hl
      · split
        · exact notMem_decimal i hdigit
        · exact List.not_mem_nil
      · by_cases hleft : 0 < (if acc = true then count - 1 else count)
        · rw [if_pos hleft] at hl
          exact ih _ _ l hl
        · rw [if_neg hleft] at hl
          simp at hl

theorem notMem_ptaskInfo {c : Char} (hdigit : ¬ c.isDigit) (hsep : c ∉ ['(', ')', ',']) :
    c ∉ ptaskInfo app accTasks := by
  simp only [List.mem_cons, List.not_mem_nil, or_false, not_or] at hsep
  have hlist : c ∉ accTasksList 0 (accTasks.count true) accTasks := by
    by_cases hcount : 0 < accTasks.count true
    · rw [accTasksList_eq hcount rfl]
      intro hc
      rcases List.mem_append.mp hc with hc | hc
      · exact hsep.1 (List.mem_singleton.mp hc)
      · rcases List.mem_append.mp hc with hc | hc
        · rcases mem_intercalate hc with rfl | ⟨l, hl, hc⟩
          · exact hsep.2.2 rfl
          · exact notMem_accTokens hdigit 0 _ accTasks l hl hc
        · exact hsep.2.1 (List.mem_singleton.mp hc)
    · cases accTasks with
      | nil => exact List.not_mem_nil
      | cons acc accTasks =>
          rw [accTasksList, if_neg hcount]
          exact List.not_mem_nil
  simp only [ptaskInfo, List.mem_append, List.mem_cons, not_or]
  exact ⟨notMem_decimal _ hdigit, hsep.1, notMem_threadCounts hdigit hsep.2.2 _, hsep.2.1,
    hsep.2.2, notMem_decimal _ hdigit, hsep.2.2, notMem_decimal _ hdigit, hlist⟩

theorem newline_notMem_headerLine (offset : Nat) :
    newline ∉ headerLine name app accTasks offset := by
  have hinfo : newline ∉ ptaskInfo app accTasks := notMem_ptaskInfo (by decide) (by decide)
  have hoffset : newline ∉ decimal offset := notMem_decimal offset (by decide)
  have hstart : newline ∉ headerStart := by decide
  have hspace : newline ≠ ' ' := by decide
  simp only [headerLine, List.mem_append, List.mem_cons, List.mem_replicate, not_or]
  exact ⟨hstart, name.noNewline, by decide, by decide, ⟨by decide, by decide, hoffset⟩,
    by decide, hinfo, fun h => hspace h.2⟩

theorem newline_notMem_communicatorDefinition (c : Prv2dim.TraceHeader.Communicator) :
    newline ∉ communicatorDefinition c := by
  simp only [communicatorDefinition, List.mem_append, List.mem_cons, List.mem_flatMap, not_or,
    not_exists, not_and]
  refine ⟨⟨by decide, newline_notMem_decimal _⟩, by decide, newline_notMem_decimal _, ?_⟩
  intro task _
  exact ⟨by decide, newline_notMem_decimal _⟩

theorem newline_notMem_offsetsLine (task : Nat) (offsets : List Nat) :
    newline ∉ offsetsLine task offsets := by
  simp only [offsetsLine, List.mem_append, List.mem_cons, List.mem_flatMap, not_or,
    not_exists, not_and]
  refine ⟨⟨by decide, newline_notMem_decimal _⟩, ?_⟩
  intro offset _
  exact ⟨by decide, newline_notMem_decimal _⟩

variable {t : Translation}

def bodyLines (t : Translation) : List (List Char) :=
  t.app.communicators.map communicatorDefinition ++ t.records.map RecordLine.text

def offsetsLines (t : Translation) : List (List Char) :=
  t.outputOffsets.zipIdx.map fun (offsets, task) => offsetsLine task offsets

theorem offsetsOffset_ne_zero (t : Translation) : t.offsetsOffset ≠ 0 := by
  have hpos : 0 < (newFormatHeader t.name t.app t.accTasks 0).length := by
    simp [newFormatHeader, headerStart]
  rw [Translation.offsetsOffset, List.length_append]
  omega

/-- The definitive header takes the place of the provisional one. -/
theorem trace_eq (hdigits : (decimal t.offsetsOffset).length ≤ 15) :
    t.trace = newFormatHeader t.name t.app t.accTasks t.offsetsOffset ++ (t.body ++ t.offsets) := by
  have hlength := @length_newFormatHeader t.name t.app t.accTasks t.offsetsOffset
    (Nat.pos_of_ne_zero (offsetsOffset_ne_zero t)) hdigits
  rw [Translation.trace, overwrite, hlength, List.append_assoc, List.drop_left]

theorem splitLines_offsets (t : Translation) :
    splitLines newline t.offsets = (offsetsLines t).map fun line => line ++ [newline] := by
  have hoffsets : ∀ line ∈ offsetsLines t, newline ∉ line := by
    intro line hline
    obtain ⟨offsets, -, rfl⟩ := List.mem_map.mp hline
    exact newline_notMem_offsetsLine _ _
  have hlines := splitLines_flatMap_newline hoffsets []
  rwa [List.append_nil, splitLines, List.append_nil] at hlines

theorem lines_trace (hdigits : (decimal t.offsetsOffset).length ≤ 15) :
    splitLines newline t.trace =
      (headerLine t.name t.app t.accTasks t.offsetsOffset ++ [newline]) ::
        ((bodyLines t).map (fun line => line ++ [newline]) ++
          (offsetsLines t).map fun line => line ++ [newline]) := by
  have hbody : ∀ line ∈ bodyLines t, newline ∉ line := by
    intro line hline
    rcases List.mem_append.mp hline with hline | hline
    · obtain ⟨c, -, rfl⟩ := List.mem_map.mp hline
      exact newline_notMem_communicatorDefinition c
    · obtain ⟨r, -, rfl⟩ := List.mem_map.mp hline
      exact r.noNewline
  rw [trace_eq hdigits, newFormatHeader_eq (offsetsOffset_ne_zero t), List.append_assoc,
    List.singleton_append, splitLines_append_newline (newline_notMem_headerLine _)]
  congr 1
  rw [← splitLines_offsets]
  exact splitLines_flatMap_newline hbody t.offsets

theorem drop_trace (hdigits : (decimal t.offsetsOffset).length ≤ 15) :
    splitLines newline (t.trace.drop t.offsetsOffset) =
      (offsetsLines t).map fun line => line ++ [newline] := by
  have hlength : t.offsetsOffset =
      (newFormatHeader t.name t.app t.accTasks t.offsetsOffset ++ t.body).length := by
    have hsame := @length_newFormatHeader t.name t.app t.accTasks t.offsetsOffset
      (Nat.pos_of_ne_zero (offsetsOffset_ne_zero t)) hdigits
    rw [List.length_append, hsame, ← List.length_append]
    rfl
  have hdrop : t.trace.drop t.offsetsOffset = t.offsets := by
    rw [trace_eq hdigits, ← List.append_assoc]
    nth_rewrite 1 [hlength]
    exact List.drop_left
  rw [hdrop, splitLines_offsets]

/-! ## The header -/

def offsetsField (offset : Nat) : List Char := '1' :: ',' :: decimal offset

theorem lt_of_digits {offset : Nat} (h : (decimal offset).length ≤ 15) :
    offset < 1000000000000000 :=
  (Nat.length_toDigits_le_iff (by decide) (by decide)).mp h

theorem notMem_offsetsField {c : Char} (hdigit : ¬ c.isDigit) (hcomma : c ≠ ',') (offset : Nat) :
    c ∉ offsetsField offset := by
  simp only [offsetsField, List.mem_cons, not_or]
  refine ⟨?_, hcomma, notMem_decimal offset hdigit⟩
  rintro rfl
  exact hdigit (by decide)

def headerEnd (offset : Nat) : List Char :=
  List.replicate (offsetsOffsetReserve - UInt32.ofNat (decimal offset).length).toNat ' ' ++ [newline]

theorem headerLine_append (offset : Nat) :
    headerLine name app accTasks offset ++ [newline] =
      headerStart ++ (name.text ++ '"' :: ':' :: (offsetsField offset ++ ':' ::
        (ptaskInfo app accTasks ++ headerEnd offset))) := by
  simp [headerLine, offsetsField, headerEnd]

theorem isSpace_of_mem_head_headerEnd (offset : Nat) :
    ∀ c ∈ (headerEnd offset).head?, isSpace c = true := by
  intro c hc
  have hmem : c ∈ headerEnd offset := List.mem_of_mem_head? hc
  rcases List.mem_append.mp hmem with hmem | hmem
  · rw [(List.mem_replicate.mp hmem).2]
    rfl
  · rw [List.mem_singleton.mp hmem]
    rfl

theorem isSpace_ptaskInfo : ∀ c ∈ ptaskInfo app accTasks, isSpace c = false := by
  intro c hc
  by_contra hspace
  rw [Bool.not_eq_false] at hspace
  have hdigit : ¬ c.isDigit := by
    intro hdigit
    rw [not_space_of_isDigit hdigit] at hspace
    cases hspace
  have hsep : c ∉ ['(', ')', ','] := by
    intro hmem
    simp only [List.mem_cons, List.not_mem_nil, or_false] at hmem
    rcases hmem with rfl | rfl | rfl <;> cases hspace
  exact notMem_ptaskInfo hdigit hsep hc

theorem ptaskInfo_ne_nil : ptaskInfo app accTasks ≠ [] :=
  List.append_ne_nil_of_left_ne_nil (decimal_ne_nil _) _

theorem scan_header (offset : Nat) :
    scan headerFormat (headerLine name app accTasks offset ++ [newline]) =
      [.text name.text, .text (offsetsField offset), .text (ptaskInfo app accTasks)] := by
  have hcolon : ':' ∉ offsetsField offset := notMem_offsetsField (by decide) (by decide) offset
  have hne : offsetsField offset ≠ [] := List.cons_ne_nil _ _
  rw [headerLine_append]
  calc scan headerFormat (headerStart ++ (name.text ++ '"' :: ':' :: (offsetsField offset ++
          ':' :: (ptaskInfo app accTasks ++ headerEnd offset))))
    _ = scan (.upTo '"' true :: .literal '"' :: .literal ':' :: .upTo ':' true :: .literal ':' ::
          [.word]) (name.text ++ '"' :: ':' :: (offsetsField offset ++
          ':' :: (ptaskInfo app accTasks ++ headerEnd offset))) := scan_literals headerStart
    _ = .text name.text :: scan (.upTo ':' true :: .literal ':' :: [.word])
          (offsetsField offset ++ ':' :: (ptaskInfo app accTasks ++ headerEnd offset)) := by
      rw [scan_upTo name.ne_nil name.noQuote (by simp), scan_literal, scan_literal]
    _ = [.text name.text, .text (offsetsField offset), .text (ptaskInfo app accTasks)] := by
      rw [scan_upTo hne hcolon (by simp), scan_literal,
        scan_word ptaskInfo_ne_nil isSpace_ptaskInfo (isSpace_of_mem_head_headerEnd offset)]
      rfl

theorem readOffsetsHint_eq {offset : Nat} (h : (decimal offset).length ≤ 15) :
    readOffsetsHint (offsetsField offset) = some (1, offset) := by
  have hlt := lt_of_digits h
  have hscan : scan [.integer .int true, .literal ',', .integer .unsignedLongLong true]
      (offsetsField offset) = [.integer 1, .integer offset] := by
    have hone : offsetsField offset = decimal (1 : Nat) ++ ',' :: (decimal offset ++ []) := by
      rw [List.append_nil]
      rfl
    rw [hone, scan_integer (by simp), scan_literal, scan_integer (by simp),
      store_unsigned_of_nonneg (by omega) (by omega)]
    rfl
  rw [readOffsetsHint, hscan]
  simp

theorem threadCounts_ne_nil (h : app.threads ≠ []) : threadCounts app.threads ≠ [] := by
  obtain ⟨n, threads, hthreads⟩ := List.exists_cons_of_ne_nil h
  rw [hthreads]
  cases threads with
  | nil => exact decimal_ne_nil _
  | cons m threads => exact List.append_ne_nil_of_left_ne_nil (decimal_ne_nil _) _

theorem map_atoi_threadCounts (h : app.threads ≠ []) :
    (tokens ',' (threadCounts app.threads)).map atoi = app.threads.map Int.ofNat := by
  have hne : (app.threads.map fun (n : Nat) => decimal n) ≠ [] := by simpa using h
  rw [threadCounts_eq, tokens_intercalate hne, List.map_map]
  · apply List.map_congr_left
    intro n hn
    have hlt := app.threads_lt n hn
    exact atoi_decimal (by omega) (by omega)
  · intro l hl
    obtain ⟨n, -, rfl⟩ := List.mem_map.mp hl
    exact decimal_ne_nil _
  · intro l hl
    obtain ⟨n, -, rfl⟩ := List.mem_map.mp hl
    exact notMem_decimal n (by decide)

theorem scan_ptaskInfo (h : app.threads ≠ []) :
    scan [.integer .int true, .literal '(', .upTo ')' true, .literal ')', .literal ',',
        .integer .int true] (ptaskInfo app accTasks) =
      [.integer app.threads.length, .text (threadCounts app.threads),
        .integer app.communicators.length] := by
  have htasks := app.tasks_lt
  have hcomms := app.communicators_lt
  have hclose : ')' ∉ threadCounts app.threads :=
    notMem_threadCounts (by decide) (by decide) app.threads
  rw [ptaskInfo, scan_integer (by simp), scan_literal,
    scan_upTo (threadCounts_ne_nil h) hclose (by simp), scan_literal, scan_literal,
    scan_integer (by simp), store_int (by omega) (by omega), store_int (by omega) (by omega)]
  rfl

theorem scan_ptaskInfo_nil (h : app.threads = []) :
    scan [.integer .int true, .literal '(', .upTo ')' true, .literal ')', .literal ',',
        .integer .int true] (ptaskInfo app accTasks) = [.integer 0] := by
  rw [ptaskInfo, scan_integer (by simp), scan_literal, h]
  rfl

theorem readHeader_eq {offset : Nat} (hoffset : offset ≠ 0) (h : (decimal offset).length ≤ 15) :
    readHeader (headerLine name app accTasks offset ++ [newline]) =
      if app.threads = [] then none
      else some (initializeApp name.text app.threads.length (app.threads.map Int.ofNat)
        app.communicators.length offset) := by
  have hcheck : checkOffsetsHint (1, offset) = true := by simp [checkOffsetsHint, hoffset]
  rw [readHeader, scan_header]
  simp only [readOffsetsHint_eq h, Option.bind_some, hcheck, if_true]
  by_cases hthreads : app.threads = []
  · rw [if_pos hthreads, scan_ptaskInfo_nil hthreads]
  · rw [if_neg hthreads, scan_ptaskInfo hthreads]
    simp only [map_atoi_threadCounts hthreads, List.length_map, if_true]

/-! ## The definitions -/

variable {c : Prv2dim.TraceHeader.Communicator}

def communicatorFields (c : Prv2dim.TraceHeader.Communicator) : List Char :=
  decimal c.id.toInt ++ ':' :: (decimal c.tasks.length ++
    (c.tasks.flatMap fun task => ':' :: decimal (dimemasTask task).toInt))

def definitionFormat : List Conversion :=
  [.literal 'd', .literal ':', .integer .int true, .literal ':', .upTo newline true]

theorem scan_definition (c : Prv2dim.TraceHeader.Communicator) :
    scan definitionFormat (communicatorDefinition c ++ [newline]) =
      [.integer 1, .text (communicatorFields c)] := by
  have hnewline : newline ∉ communicatorFields c := by
    intro hmem
    apply newline_notMem_communicatorDefinition c
    have heq : communicatorDefinition c = ['d', ':', '1', ':'] ++ communicatorFields c := by
      simp [communicatorDefinition, communicatorFields]
    rw [heq]
    exact List.mem_append_right _ hmem
  have hne : communicatorFields c ≠ [] :=
    List.append_ne_nil_of_left_ne_nil (decimal_ne_nil _) _
  have heq : communicatorDefinition c ++ [newline] =
      'd' :: ':' :: (decimal 1 ++ ':' :: (communicatorFields c ++ [newline])) := by
    have hone : decimal 1 = ['1'] := rfl
    simp [communicatorDefinition, communicatorFields, hone]
  rw [heq, definitionFormat, scan_literal, scan_literal, scan_integer (by simp), scan_literal,
    scan_upTo hne hnewline (by simp)]
  rfl

theorem flatMap_colon {xs : List Int} (h : xs ≠ []) :
    (xs.flatMap fun i => ':' :: decimal i) = ':' :: [':'].intercalate (xs.map decimal) := by
  induction xs with
  | nil => contradiction
  | cons i xs ih =>
      by_cases hxs : xs = []
      · subst hxs
        simp
      · have hmap : xs.map decimal ≠ [] := by simpa using hxs
        rw [List.flatMap_cons, ih hxs, List.map_cons, List.intercalate_cons_of_ne_nil hmap]
        simp

theorem notMem_decimal_int {d : Char} (hdigit : ¬ d.isDigit) (hminus : d ≠ '-') (i : Int) :
    d ∉ decimal i := by
  cases i with
  | ofNat n => exact notMem_decimal n hdigit
  | negSucc n =>
      rw [decimal, List.mem_cons, not_or]
      exact ⟨hminus, notMem_decimal (n + 1) hdigit⟩

theorem map_atoi_intercalate {xs : List Int} (h : xs ≠ [])
    (hmin : ∀ i ∈ xs, -2147483648 ≤ i) (hmax : ∀ i ∈ xs, i < 2147483648) :
    (tokens ':' ([':'].intercalate (xs.map decimal))).map atoi = xs := by
  have hne : xs.map decimal ≠ [] := by simpa using h
  rw [tokens_intercalate hne, List.map_map]
  · calc xs.map (atoi ∘ decimal)
      _ = xs.map id := by
        apply List.map_congr_left
        intro i hi
        exact atoi_decimal (hmin i hi) (hmax i hi)
      _ = xs := List.map_id xs
  · intro l hl
    obtain ⟨i, -, rfl⟩ := List.mem_map.mp hl
    exact decimal_ne_nil i
  · intro l hl
    obtain ⟨i, -, rfl⟩ := List.mem_map.mp hl
    exact notMem_decimal_int (by decide) (by decide) i

theorem readCommunicator_void (h : c.tasks = []) (comms : List HeaderReader.Communicator) :
    readCommunicator comms (communicatorFields c) = comms := by
  have hscan : scan [.integer .int true, .literal ':', .integer .int true, .literal ':', .word]
      (communicatorFields c) = [.integer (IntType.int.store c.id.toInt), .integer 0] := by
    have heq : communicatorFields c = decimal c.id.toInt ++ ':' :: (decimal (0 : Nat) ++ []) := by
      simp [communicatorFields, h]
    rw [heq, scan_integer (by simp), scan_literal, scan_integer (by simp)]
    rfl
  rw [readCommunicator, hscan]

theorem readCommunicator_eq (h : c.tasks ≠ []) (comms : List HeaderReader.Communicator) :
    readCommunicator comms (communicatorFields c) =
      insertAfter HeaderReader.Communicator.communicatorId (recovered c) comms := by
  have hlength := c.length_lt
  have hid : IntType.int.store c.id.toInt = c.id.toInt := store_int c.id.le_toInt c.id.toInt_lt
  let ranks := c.tasks.map fun task => (dimemasTask task).toInt
  have hne : ranks ≠ [] := by simpa [ranks] using h
  have hspace : ∀ d ∈ [':'].intercalate (ranks.map decimal), isSpace d = false := by
    intro d hd
    rcases mem_intercalate hd with rfl | ⟨l, hl, hd⟩
    · rfl
    · obtain ⟨i, -, rfl⟩ := List.mem_map.mp hl
      exact not_space_of_mem_decimal i hd
  have hword : [':'].intercalate (ranks.map decimal) ≠ [] := by
    obtain ⟨i, is, his⟩ := List.exists_cons_of_ne_nil hne
    rw [his, List.map_cons]
    exact intercalate_ne_nil (Or.inl (decimal_ne_nil i))
  have heq : communicatorFields c = decimal c.id.toInt ++ ':' :: (decimal c.tasks.length ++
      ':' :: ([':'].intercalate (ranks.map decimal) ++ [])) := by
    have hflat := flatMap_colon hne
    rw [List.flatMap_map] at hflat
    rw [communicatorFields, hflat, List.append_nil]
  have hscan : scan [.integer .int true, .literal ':', .integer .int true, .literal ':', .word]
      (communicatorFields c) = [.integer c.id.toInt, .integer c.tasks.length,
        .text ([':'].intercalate (ranks.map decimal))] := by
    rw [heq, scan_integer (by simp), scan_literal, scan_integer (by simp), scan_literal,
      scan_word hword hspace (by simp), hid, store_int (by omega) (by omega)]
    rfl
  have hranks : (tokens ':' ([':'].intercalate (ranks.map decimal))).map atoi = ranks := by
    apply map_atoi_intercalate hne
    · intro i hi
      obtain ⟨task, -, rfl⟩ := List.mem_map.mp hi
      exact (dimemasTask task).le_toInt
    · intro i hi
      obtain ⟨task, -, rfl⟩ := List.mem_map.mp hi
      exact (dimemasTask task).toInt_lt
  have hcount : ((ranks.length : Nat) : Int) = c.tasks.length := by simp [ranks]
  rw [readCommunicator, hscan]
  simp only [hranks, hcount, if_true]
  rfl

theorem readDefinitions_eq (cs : List Prv2dim.TraceHeader.Communicator)
    (comms : List HeaderReader.Communicator) {line : List Char} {lines : List (List Char)}
    (hline : scan definitionFormat line = []) :
    readDefinitions comms
        (cs.map (fun c => communicatorDefinition c ++ [newline]) ++ line :: lines) =
      some (cs.foldl (fun comms c => readCommunicator comms (communicatorFields c)) comms) := by
  induction cs generalizing comms with
  | nil =>
      rw [definitionFormat] at hline
      rw [List.map_nil, List.nil_append, readDefinitions, hline]
      rfl
  | cons c cs ih =>
      have hscan := scan_definition c
      rw [definitionFormat] at hscan
      rw [List.map_cons, List.cons_append, readDefinitions, hscan]
      exact ih (readCommunicator comms (communicatorFields c))

theorem insertAfter_perm (x : HeaderReader.Communicator) (comms : List HeaderReader.Communicator) :
    (insertAfter HeaderReader.Communicator.communicatorId x comms).Perm (x :: comms) := by
  have hsplit := List.takeWhile_append_dropWhile
    (p := fun y => y.communicatorId ≤ x.communicatorId) (l := comms)
  rw [insertAfter]
  apply List.perm_middle.trans
  rw [hsplit]

theorem foldl_readCommunicator (cs : List Prv2dim.TraceHeader.Communicator)
    (comms : List HeaderReader.Communicator) :
    (cs.foldl (fun comms c => readCommunicator comms (communicatorFields c)) comms).Perm
      ((cs.filter (·.tasks ≠ [])).map recovered ++ comms) := by
  induction cs generalizing comms with
  | nil => exact .refl _
  | cons c cs ih =>
      rw [List.foldl_cons]
      by_cases h : c.tasks = []
      · rw [readCommunicator_void h, List.filter_cons_of_neg (by simpa using h)]
        exact ih comms
      · rw [readCommunicator_eq h, List.filter_cons_of_pos (by simpa using h), List.map_cons]
        exact ((ih _).trans ((insertAfter_perm _ _).append_left _)).trans List.perm_middle

/-! ## The offsets -/

def offsetsFormat : List Conversion :=
  [.literal 's', .literal ':', .integer .int true, .literal ':', .upTo newline true]

variable {offsets : List Nat}

def offsetsText (offsets : List Nat) : List Char :=
  [':'].intercalate (offsets.map fun (offset : Nat) => decimal offset)

theorem scan_offsetsLine {task : Nat} (htask : task < 2147483648) (h : offsets ≠ []) :
    scan offsetsFormat (offsetsLine task offsets ++ [newline]) =
      [.integer task, .text (offsetsText offsets)] := by
  have hne : offsets.map Int.ofNat ≠ [] := by simpa using h
  have hmap : (offsets.map Int.ofNat).map decimal =
      offsets.map fun (offset : Nat) => decimal offset := by
    rw [List.map_map]
    rfl
  have hflat := flatMap_colon hne
  rw [List.flatMap_map, hmap] at hflat
  have hnewline : newline ∉ offsetsText offsets := by
    intro hmem
    rcases mem_intercalate hmem with heq | ⟨l, hl, hmem⟩
    · cases heq
    · obtain ⟨offset, -, rfl⟩ := List.mem_map.mp hl
      exact newline_notMem_decimal _ hmem
  have htext : offsetsText offsets ≠ [] := by
    obtain ⟨o, os, rfl⟩ := List.exists_cons_of_ne_nil h
    exact intercalate_ne_nil (Or.inl (decimal_ne_nil o))
  have heq : offsetsLine task offsets ++ [newline] =
      's' :: ':' :: (decimal task ++ ':' :: (offsetsText offsets ++ [newline])) := by
    have hline : offsetsLine task offsets = ['s', ':'] ++ decimal task ++
        ':' :: offsetsText offsets := congrArg (fun text => ['s', ':'] ++ decimal task ++ text) hflat
    rw [hline]
    simp
  rw [heq, offsetsFormat, scan_literal, scan_literal, scan_integer (by simp), scan_literal,
    scan_upTo htext hnewline (by simp), store_int (by omega) (by omega)]
  rfl

theorem scan_offsetsLine_nil {task : Nat} :
    scan offsetsFormat (offsetsLine task [] ++ [newline]) =
      [.integer (IntType.int.store task)] := by
  have heq : offsetsLine task [] ++ [newline] = 's' :: ':' :: (decimal task ++ [newline]) := by
    simp [offsetsLine]
  have hdigit : ∀ d ∈ [newline].head?, ¬ d.isDigit := by
    intro d hd
    rw [← Option.some.inj hd]
    decide
  rw [heq, offsetsFormat, scan_literal, scan_literal, scan_integer hdigit, scan_literal_of_ne]
  decide

theorem tokens_offsetsText (h : offsets ≠ []) :
    tokens ':' (offsetsText offsets) = offsets.map fun (offset : Nat) => decimal offset := by
  apply tokens_intercalate
  · simpa using h
  · intro l hl
    obtain ⟨offset, -, rfl⟩ := List.mem_map.mp hl
    exact decimal_ne_nil _
  · intro l hl
    obtain ⟨offset, -, rfl⟩ := List.mem_map.mp hl
    exact notMem_decimal offset (by decide)

variable {readerApp : App} {sizes : List Int}

theorem storeTraceSize_isSome {index : Int} {offset : List Char} :
    (storeTraceSize readerApp sizes index offset).isSome ↔
      0 ≤ index ∧ index < readerApp.totalThreadsCount := by
  unfold storeTraceSize
  split
  next h => exact iff_of_true rfl h
  next h => exact iff_of_false (by simp) h

def linesFrom (task : Nat) (os : List (List Nat)) : List (List Char) :=
  (os.zipIdx task).map fun (offsets, task) => offsetsLine task offsets ++ [newline]

theorem readTaskOffsets_cons {task : Nat} (htask : task < 2147483648) (os : List (List Nat))
    (ns : List Int) :
    readTaskOffsets readerApp task sizes ((offsets.length : Int) :: ns)
        (linesFrom task (offsets :: os)) =
      if offsets = [] then none
      else (storeTraceSize readerApp sizes (offsets.length * task)
          (decimal (offsets.headD 0 : Nat))).bind fun sizes =>
        (readTaskOffsets readerApp (task + 1 : Nat) sizes ns (linesFrom (task + 1) os)).map
          fun result => (offsets :: result.1, result.2) := by
  have hlines : linesFrom task (offsets :: os) =
      (offsetsLine task offsets ++ [newline]) :: linesFrom (task + 1) os := rfl
  rw [hlines, readTaskOffsets]
  by_cases h : offsets = []
  · have hscan := @scan_offsetsLine_nil task
    rw [offsetsFormat] at hscan
    rw [if_pos h, h, hscan]
  · obtain ⟨first, others, rfl⟩ := List.exists_cons_of_ne_nil h
    have hscan := scan_offsetsLine htask h
    rw [offsetsFormat] at hscan
    have hread : ((first :: others).map fun (offset : Nat) => decimal offset).map strtoul =
        first :: others := by
      rw [List.map_map]
      calc (first :: others).map (strtoul ∘ fun (offset : Nat) => decimal offset)
        _ = (first :: others).map id := List.map_congr_left fun offset _ => strtoul_decimal offset
        _ = first :: others := List.map_id _
    rw [if_neg h, hscan]
    simp only [if_true, tokens_offsetsText h, List.map_cons, List.length_map, List.length_cons,
      Nat.cast_add, Nat.cast_one, List.headD_cons]
    rw [List.map_cons, List.map_cons] at hread
    rw [hread]

theorem readTaskOffsets_eq {task : Nat} {os : List (List Nat)}
    (htask : task + os.length ≤ 2147483648)
    (h : ∀ i offsets, os[i]? = some offsets → offsets ≠ [] ∧
      ((offsets.length * (task + i) : Nat) : Int) < readerApp.totalThreadsCount) :
    ∃ sizes', readTaskOffsets readerApp task sizes (os.map fun offsets => (offsets.length : Int))
      (linesFrom task os) = some (os, sizes') := by
  induction os generalizing task sizes with
  | nil => exact ⟨sizes, rfl⟩
  | cons offsets os ih =>
      rw [List.length_cons] at htask
      obtain ⟨hne, hplace⟩ := h 0 offsets rfl
      rw [Nat.add_zero, Nat.cast_mul] at hplace
      have hindex : (0 : Int) ≤ offsets.length * task :=
        Int.mul_nonneg (Int.natCast_nonneg _) (Int.natCast_nonneg _)
      obtain ⟨stored, hstored⟩ := Option.isSome_iff_exists.mp
        ((@storeTraceSize_isSome readerApp sizes (offsets.length * task)
          (decimal (offsets.headD 0 : Nat))).mpr ⟨hindex, hplace⟩)
      obtain ⟨sizes', hrest⟩ := @ih stored (task + 1) (by omega) fun i offsets' hi => by
        have hi' := h (i + 1) offsets' hi
        rwa [← Nat.add_assoc, Nat.add_right_comm] at hi'
      refine ⟨sizes', ?_⟩
      rw [List.map_cons, readTaskOffsets_cons (by omega), if_neg hne, hstored, Option.bind_some,
        hrest]
      rfl

theorem readTaskOffsets_some {task : Nat} {os : List (List Nat)}
    (htask : task + os.length ≤ 2147483648)
    (h : (readTaskOffsets readerApp task sizes (os.map fun offsets => (offsets.length : Int))
      (linesFrom task os)).isSome) :
    ∀ i offsets, os[i]? = some offsets → offsets ≠ [] ∧
      ((offsets.length * (task + i) : Nat) : Int) < readerApp.totalThreadsCount := by
  induction os generalizing task sizes with
  | nil => intro i offsets hi; simp at hi
  | cons offsets os ih =>
      rw [List.length_cons] at htask
      rw [List.map_cons, readTaskOffsets_cons (by omega)] at h
      by_cases hne : offsets = []
      · rw [if_pos hne] at h
        simp at h
      obtain ⟨result, hresult⟩ := Option.isSome_iff_exists.mp h
      rw [if_neg hne, Option.bind_eq_some_iff] at hresult
      obtain ⟨stored, hstored, hrest⟩ := hresult
      obtain ⟨rest, hread, -⟩ := Option.map_eq_some_iff.mp hrest
      have hplace := storeTraceSize_isSome.mp (Option.isSome_of_eq_some hstored)
      intro i offsets' hi
      cases i with
      | zero =>
          obtain rfl := Option.some.inj hi
          rw [Nat.add_zero, Nat.cast_mul]
          exact ⟨hne, hplace.2⟩
      | succ i =>
          have hi' := @ih stored (task + 1) (by omega) (Option.isSome_of_eq_some hread) i offsets' hi
          rwa [Nat.add_right_comm, Nat.add_assoc] at hi'

/-! ## The accelerator tasks -/

def accFormat : List Conversion :=
  [.upTo '"' false, .literal '"', .literal ':', .upTo ':' false, .literal ':',
    .integer .int false, .literal '(', .upTo ')' false, .literal ')', .literal ',',
    .integer .int false, .literal ',', .integer .int true, .literal '(', .upTo ')' true]

theorem readAccTask_decimal (n : Nat) : readAccTask (decimal n) = some (n : Int) := by
  obtain ⟨c, cs, hdigits, hc⟩ := head_digits n
  have htake := (@takeWhile_append (Nat.toDigits 10 n) []
    (fun c hc => isDigit_of_mem_digits hc) (by simp))
  rw [List.append_nil] at htake
  have hread : readUnsignedReal (Nat.toDigits 10 n) = some ((n : ℚ), []) := by
    simp only [readUnsignedReal, htake.1, htake.2, if_neg Nat.toDigits_ne_nil,
      Nat.ofDigitChars_ten_toDigits]
    rw [Rat.mkRat_one]
    rfl
  have hreal : readReal (Nat.toDigits 10 n) = some ((n : ℚ), []) := by
    rw [hdigits] at hread ⊢
    have hminus : c ≠ '-' := by rintro rfl; cases hc
    have hplus : c ≠ '+' := by rintro rfl; cases hc
    unfold readReal
    split
    · next heq => exact absurd (List.cons.inj heq).1 hminus
    · next heq => exact absurd (List.cons.inj heq).1 hplus
    · exact hread
  have hspace : (decimal n).dropWhile isSpace = Nat.toDigits 10 n := by
    show (Nat.toDigits 10 n).dropWhile isSpace = _
    rw [hdigits, List.dropWhile_cons_of_neg (by simp [not_space_of_isDigit hc])]
  rw [readAccTask, hspace, hreal]
  simp

theorem scan_accFormat (h : app.threads ≠ []) (offset : Nat) {count : Nat}
    (hcount : accTasks.count true = count) (hlt : count < 2147483648) :
    scan (literals headerStart ++ accFormat) (headerLine name app accTasks offset ++ [newline]) =
      .integer count :: scan [.literal '(', .upTo ')' true]
        (accTasksList 0 count accTasks ++ headerEnd offset) := by
  have hne : offsetsField offset ≠ [] := List.cons_ne_nil _ _
  have hcolon : ':' ∉ offsetsField offset := notMem_offsetsField (by decide) (by decide) offset
  have hclose : ')' ∉ threadCounts app.threads :=
    notMem_threadCounts (by decide) (by decide) app.threads
  have hhead : ∀ d ∈ (accTasksList 0 count accTasks ++ headerEnd offset).head?, ¬ d.isDigit := by
    by_cases hpos : 0 < count
    · rw [accTasksList_eq hpos hcount]
      intro d hd
      rw [← Option.some.inj hd]
      decide
    · have hnil : accTasksList 0 count accTasks = [] := by
        cases accTasks with
        | nil => rfl
        | cons acc accTasks => rw [accTasksList, if_neg hpos]
      rw [hnil, List.nil_append]
      intro d hd hdigit
      have hspace := isSpace_of_mem_head_headerEnd offset d hd
      rw [not_space_of_isDigit hdigit] at hspace
      cases hspace
  rw [headerLine_append, scan_literals, accFormat,
    scan_upTo_skipped name.ne_nil name.noQuote (by simp), scan_literal, scan_literal,
    scan_upTo_skipped hne hcolon (by simp), scan_literal, ptaskInfo, hcount]
  simp only [List.append_assoc, List.cons_append]
  rw [scan_integer_skipped (by simp), scan_literal,
    scan_upTo_skipped (threadCounts_ne_nil h) hclose (by simp), scan_literal, scan_literal,
    scan_integer_skipped (by simp), scan_literal, scan_integer hhead,
    store_int (by omega) (by omega)]

theorem scan_accFormat_nil (h : app.threads = []) (offset : Nat) :
    scan (literals headerStart ++ accFormat) (headerLine name app accTasks offset ++ [newline]) =
      [] := by
  have hne : offsetsField offset ≠ [] := List.cons_ne_nil _ _
  have hcolon : ':' ∉ offsetsField offset := notMem_offsetsField (by decide) (by decide) offset
  rw [headerLine_append, scan_literals, accFormat,
    scan_upTo_skipped name.ne_nil name.noQuote (by simp), scan_literal, scan_literal,
    scan_upTo_skipped hne hcolon (by simp), scan_literal, ptaskInfo, h]
  simp only [List.append_assoc, List.cons_append]
  rw [scan_integer_skipped (by simp), scan_literal]
  rfl

theorem scan_accTasksList {count : Nat} (hpos : 0 < count) (hcount : accTasks.count true = count)
    (rest : List Char) :
    scan [.literal '(', .upTo ')' true] (accTasksList 0 count accTasks ++ rest) =
      [.text ([','].intercalate (accTokens 0 count accTasks))] := by
  have hclose : ')' ∉ [','].intercalate (accTokens 0 count accTasks) := by
    intro hmem
    rcases mem_intercalate hmem with heq | ⟨l, hl, hmem⟩
    · cases heq
    · exact notMem_accTokens (by decide) 0 count accTasks l hl hmem
  have hne : [','].intercalate (accTokens 0 count accTasks) ≠ [] := by
    cases accTasks with
    | nil =>
        rw [List.count_nil] at hcount
        omega
    | cons acc accTasks =>
        apply intercalate_ne_nil
        cases acc with
        | true => exact Or.inl (decimal_ne_nil 0)
        | false =>
            rw [List.count_cons_of_ne (by decide)] at hcount
            refine Or.inr ?_
            simp only [Bool.false_eq_true, if_false, if_pos hpos]
            exact accTokens_ne_nil hpos hcount
  rw [accTasksList_eq hpos hcount, if_pos rfl, List.singleton_append, List.cons_append,
    List.append_assoc, List.singleton_append, scan_literal, scan_upTo hne hclose (by simp)]
  rfl

theorem getAccTasks_of_pos {text : List Char} {lines : List (List Char)} {offset : Nat}
    (htext : splitLines newline text =
      (headerLine name app accTasks offset ++ [newline]) :: lines)
    (hthreads : app.threads ≠ []) {count : Nat} (hcount : accTasks.count true = count)
    (hlt : count < 2147483648) (hpos : 0 < count) :
    getAccTasks text = if (accTokens 0 count accTasks).length = count then
      (accTokens 0 count accTasks).mapM readAccTask else none := by
  have hscan := @scan_accFormat name app accTasks hthreads offset count hcount hlt
  rw [scan_accTasksList hpos hcount] at hscan
  have hsplit : ([','].intercalate (accTokens 0 count accTasks)).splitOn ',' =
      accTokens 0 count accTasks :=
    List.splitOn_intercalate ',' (notMem_accTokens (by decide) 0 count accTasks)
      (accTokens_ne_nil hpos hcount)
  have hnot : ¬ ((count : Int) ≤ 0) := by omega
  rw [getAccTasks, htext]
  simp only [headerStart, accFormat] at hscan
  simp only [hscan, hsplit, if_neg hnot, Nat.cast_inj]

theorem getAccTasks_of_zero {text : List Char} {lines : List (List Char)} {offset : Nat}
    (htext : splitLines newline text =
      (headerLine name app accTasks offset ++ [newline]) :: lines)
    (hzero : accTasks.count true = 0) : getAccTasks text = some [] := by
  have hnil : accTasksList 0 0 accTasks = [] := by
    cases accTasks with
    | nil => rfl
    | cons acc accTasks => rw [accTasksList, if_neg (lt_irrefl 0)]
  rw [getAccTasks, htext]
  by_cases hthreads : app.threads = []
  · have hscan := @scan_accFormat_nil name app accTasks hthreads offset
    simp only [headerStart, accFormat] at hscan
    simp only [hscan]
  · have hscan := @scan_accFormat name app accTasks hthreads offset 0 hzero (by decide)
    have hend : scan [.literal '(', .upTo ')' true] (headerEnd offset) = [] := by
      cases hrest : headerEnd offset with
      | nil => rfl
      | cons d ds =>
          apply scan_literal_of_ne
          rintro rfl
          have hspace := isSpace_of_mem_head_headerEnd offset '(' (by rw [hrest]; rfl)
          cases hspace
    rw [hnil, List.nil_append, hend] at hscan
    simp only [headerStart, accFormat] at hscan
    simp only [hscan]
    rfl

theorem mapM_readAccTask (ns : List Nat) :
    (ns.map fun (n : Nat) => decimal n).mapM readAccTask = some (ns.map Int.ofNat) := by
  induction ns with
  | nil => rfl
  | cons n ns ih =>
      rw [List.map_cons, List.mapM_cons, readAccTask_decimal, ih]
      rfl

theorem leading_of_count (h : accTasks.count true = 0) : Leading accTasks := by
  intro i j _ hj
  rw [List.count_eq_zero] at h
  exact absurd (List.mem_of_getElem? hj) h

theorem getAccTasks_of_leading {text : List Char} {lines : List (List Char)} {offset : Nat}
    (htext : splitLines newline text =
      (headerLine name app accTasks offset ++ [newline]) :: lines)
    (hlength : accTasks.length = app.threads.length) (h : Leading accTasks) :
    getAccTasks text = some ((List.range (accTasks.count true)).map Int.ofNat) := by
  have htasks := app.tasks_lt
  have hle : accTasks.count true ≤ accTasks.length := List.count_le_length
  by_cases hpos : 0 < accTasks.count true
  · have hthreads : app.threads ≠ [] := List.ne_nil_of_length_pos (by omega)
    rw [getAccTasks_of_pos htext hthreads rfl (by omega) hpos,
      if_pos ((length_accTokens hpos rfl).2.mpr h), accTokens_of_leading hpos rfl h,
      mapM_readAccTask, List.range_eq_range']
  · have hzero : accTasks.count true = 0 := by omega
    rw [getAccTasks_of_zero htext hzero, hzero]
    rfl

theorem leading_of_getAccTasks {text : List Char} {lines : List (List Char)} {offset : Nat}
    (htext : splitLines newline text =
      (headerLine name app accTasks offset ++ [newline]) :: lines)
    (hlength : accTasks.length = app.threads.length) (h : (getAccTasks text).isSome) :
    Leading accTasks := by
  have htasks := app.tasks_lt
  have hle : accTasks.count true ≤ accTasks.length := List.count_le_length
  by_cases hpos : 0 < accTasks.count true
  · have hthreads : app.threads ≠ [] := List.ne_nil_of_length_pos (by omega)
    rw [getAccTasks_of_pos htext hthreads rfl (by omega) hpos] at h
    by_cases hcount : (accTokens 0 (accTasks.count true) accTasks).length = accTasks.count true
    · exact (length_accTokens hpos rfl).2.mp hcount
    · rw [if_neg hcount] at h
      cases h
  · exact leading_of_count (by omega)

/-! ## The whole trace -/

theorem scan_recordLine (r : RecordLine) : scan definitionFormat (r.text ++ [newline]) = [] := by
  obtain ⟨c, hc, hdigit⟩ := r.digit
  obtain ⟨cs, hcs⟩ := List.head?_eq_some_iff.mp hc
  rw [hcs, List.cons_append, definitionFormat]
  apply scan_literal_of_ne
  rintro rfl
  cases hdigit

theorem exists_lines (h : t.app.threads ≠ []) :
    ∃ line lines, scan definitionFormat line = [] ∧
      (bodyLines t).map (fun line => line ++ [newline]) ++
          (offsetsLines t).map (fun line => line ++ [newline]) =
        t.app.communicators.map (fun c => communicatorDefinition c ++ [newline]) ++
          line :: lines := by
  have hbody : (bodyLines t).map (fun line => line ++ [newline]) =
      t.app.communicators.map (fun c => communicatorDefinition c ++ [newline]) ++
        t.records.map fun r => r.text ++ [newline] := by
    rw [bodyLines, List.map_append, List.map_map, List.map_map]
    rfl
  rw [hbody, List.append_assoc]
  cases hrecords : t.records with
  | cons r records =>
      exact ⟨_, _, scan_recordLine r, by rw [List.map_cons, List.cons_append]⟩
  | nil =>
      have hlength := congrArg List.length t.outputOffsets_length
      rw [List.length_map] at hlength
      have hne : t.outputOffsets ≠ [] := by
        intro hnil
        rw [hnil, List.length_nil] at hlength
        exact h (List.length_eq_zero_iff.mp hlength.symm)
      obtain ⟨offsets, os, hos⟩ := List.exists_cons_of_ne_nil hne
      refine ⟨offsetsLine 0 offsets ++ [newline], linesFrom 1 os, ?_, ?_⟩
      · exact scan_literal_of_ne (by decide)
      · rw [offsetsLines, hos, List.map_map]
        rfl

def headerApp (t : Translation) : App where
  appName := t.name.text
  tasksCount := t.app.threads.length
  threadsCount := t.app.threads.map Int.ofNat
  commsCount := t.app.communicators.length
  offsetsOffset := t.offsetsOffset
  comms := t.app.communicators.foldl
    (fun comms c => readCommunicator comms (communicatorFields c)) []
  threadsOffsets := []
  threadTraceSizes := []

theorem addPtask_eq (hdigits : (decimal t.offsetsOffset).length ≤ 15) (h : t.app.threads ≠ []) :
    addPtask t.trace = readOffsets (headerApp t) t.trace := by
  obtain ⟨line, lines, hline, hlines⟩ := exists_lines h
  have hne := offsetsOffset_ne_zero t
  rw [addPtask, lines_trace hdigits]
  simp only [readHeader_eq hne hdigits, if_neg h, Option.bind_some, initializeApp, hlines,
    readDefinitions_eq _ _ hline, if_neg hne]
  rfl

theorem addPtask_nil (hdigits : (decimal t.offsetsOffset).length ≤ 15) (h : t.app.threads = []) :
    addPtask t.trace = none := by
  rw [addPtask, lines_trace hdigits]
  simp only [readHeader_eq (offsetsOffset_ne_zero t) hdigits, if_pos h, Option.bind_none]

theorem totalThreadsCount_headerApp (t : Translation) :
    (headerApp t).totalThreadsCount = (t.app.threads.sum : Nat) := by
  rw [App.totalThreadsCount, headerApp]
  induction t.app.threads with
  | nil => rfl
  | cons n threads ih =>
      rw [List.map_cons, List.sum_cons, List.sum_cons, ih, Nat.cast_add]
      rfl

/-- Every task has a thread, and its first thread has a place in the array of the sizes. -/
def Places (t : Translation) : Prop :=
  ∀ i offsets, t.outputOffsets[i]? = some offsets → offsets ≠ [] ∧
    ((offsets.length * (0 + i) : Nat) : Int) < (headerApp t).totalThreadsCount

theorem places_iff (t : Translation) :
    Places t ↔ (∀ n ∈ t.app.threads, 0 < n) ∧
      ∀ i n : Nat, t.app.threads[i]? = some n → n * i < t.app.threads.sum := by
  have hget (i : Nat) : t.app.threads[i]? = t.outputOffsets[i]?.map List.length := by
    rw [← List.getElem?_map, t.outputOffsets_length]
  rw [Places, totalThreadsCount_headerApp]
  simp only [Nat.zero_add, Nat.cast_lt]
  constructor
  · intro h
    constructor
    · intro n hn
      obtain ⟨i, hi⟩ := List.mem_iff_getElem?.mp hn
      rw [hget, Option.map_eq_some_iff] at hi
      obtain ⟨offsets, hi, rfl⟩ := hi
      exact List.length_pos_iff.mpr (h i offsets hi).1
    · intro i n hi
      rw [hget, Option.map_eq_some_iff] at hi
      obtain ⟨offsets, hi, rfl⟩ := hi
      exact (h i offsets hi).2
  · intro h i offsets hi
    have hn : t.app.threads[i]? = some offsets.length := by rw [hget, hi, Option.map_some]
    exact ⟨List.length_pos_iff.mp (h.1 _ (List.mem_of_getElem? hn)), h.2 i _ hn⟩

theorem length_outputOffsets (t : Translation) : 0 + t.outputOffsets.length ≤ 2147483648 := by
  have hlength := congrArg List.length t.outputOffsets_length
  have hlt := t.app.tasks_lt
  rw [List.length_map] at hlength
  omega

theorem readOffsets_eq (hdigits : (decimal t.offsetsOffset).length ≤ 15) :
    readOffsets (headerApp t) t.trace =
      (readTaskOffsets (headerApp t) (0 : Nat)
        (List.replicate (headerApp t).totalThreadsCount.toNat 0)
        (t.outputOffsets.map fun offsets => (offsets.length : Int))
        (linesFrom 0 t.outputOffsets)).map fun result =>
          { headerApp t with threadsOffsets := result.1, threadTraceSizes := result.2 } := by
  have hcounts : (headerApp t).threadsCount =
      t.outputOffsets.map fun offsets => (offsets.length : Int) := by
    rw [headerApp, ← t.outputOffsets_length, List.map_map]
    rfl
  have hlines : (offsetsLines t).map (fun line => line ++ [newline]) =
      linesFrom 0 t.outputOffsets := by
    rw [offsetsLines, List.map_map]
    rfl
  have hdrop : splitLines newline (t.trace.drop (headerApp t).offsetsOffset) =
      linesFrom 0 t.outputOffsets := (drop_trace hdigits).trans hlines
  rw [readOffsets, hdrop]
  exact congrArg (fun counts => (readTaskOffsets (headerApp t) (0 : Nat)
    (List.replicate (headerApp t).totalThreadsCount.toNat 0) counts
    (linesFrom 0 t.outputOffsets)).map fun result =>
      { headerApp t with threadsOffsets := result.1, threadTraceSizes := result.2 }) hcounts

theorem filter_of_perm {cs : List Prv2dim.TraceHeader.Communicator}
    (h : ((cs.filter (·.tasks ≠ [])).map recovered).Perm (cs.map recovered)) :
    ∀ c ∈ cs, c.tasks ≠ [] := by
  have hlength := h.length_eq
  rw [List.length_map, List.length_map, List.length_filter_eq_length_iff] at hlength
  intro c hc
  simpa using hlength c hc

theorem leading_of_roundTrip (hdigits : (decimal t.offsetsOffset).length ≤ 15)
    (h : RoundTrip t) : Leading t.accTasks := by
  obtain ⟨tasks, htasks, -⟩ := h.accTasks
  exact leading_of_getAccTasks (lines_trace hdigits) t.accTasks_length
    (Option.isSome_of_eq_some htasks)

/-- The simulator reads what the translator was given exactly when the accelerator tasks are the
first ones, no communicator is void and every task has a thread whose place in the array of the
sizes is there. -/
theorem writtenHeader_roundTrip_iff (t : Translation)
    (hdigits : (decimal t.offsetsOffset).length ≤ 15) :
    RoundTrip t ↔ Readable t := by
  have hpositive := Nat.pos_of_ne_zero (offsetsOffset_ne_zero t)
  constructor
  · intro h
    obtain ⟨app, happ, -, -, hcomms, -⟩ := h.app
    have hthreads : t.app.threads ≠ [] := by
      intro hnil
      rw [addPtask_nil hdigits hnil] at happ
      cases happ
    rw [addPtask_eq hdigits hthreads, readOffsets_eq hdigits, Option.map_eq_some_iff] at happ
    obtain ⟨result, hresult, rfl⟩ := happ
    have hplaces : Places t :=
      readTaskOffsets_some (length_outputOffsets t) (Option.isSome_of_eq_some hresult)
    obtain ⟨hpos, hsizes⟩ := (places_iff t).mp hplaces
    have hread := foldl_readCommunicator t.app.communicators []
    rw [List.append_nil] at hread
    exact ⟨hthreads, hpos, hsizes, filter_of_perm (hread.symm.trans hcomms),
      leading_of_roundTrip hdigits h⟩
  · intro h
    refine ⟨length_newFormatHeader hpositive hdigits, ?_, ?_⟩
    · obtain ⟨sizes', hread⟩ := @readTaskOffsets_eq (headerApp t)
        (List.replicate (headerApp t).totalThreadsCount.toNat 0) 0 t.outputOffsets
        (length_outputOffsets t) ((places_iff t).mpr ⟨h.threads, h.sizes⟩)
      have hcomms := foldl_readCommunicator t.app.communicators []
      have hfilter : t.app.communicators.filter (·.tasks ≠ []) = t.app.communicators :=
        List.filter_eq_self.mpr fun c hc => decide_eq_true (h.communicators c hc)
      rw [hfilter, List.append_nil] at hcomms
      refine ⟨{ headerApp t with threadsOffsets := t.outputOffsets, threadTraceSizes := sizes' },
        ?_, rfl, rfl, hcomms, rfl⟩
      rw [addPtask_eq hdigits h.tasks, readOffsets_eq hdigits, hread]
      rfl
    · refine ⟨_, getAccTasks_of_leading (lines_trace hdigits) t.accTasks_length h.accTasks, ?_⟩
      intro i
      rw [List.mem_map]
      constructor
      · rintro ⟨n, hn, rfl⟩
        exact ⟨n, rfl, (getElem?_of_leading h.accTasks n).mpr (List.mem_range.mp hn)⟩
      · rintro ⟨n, rfl, hn⟩
        exact ⟨n, List.mem_range.mpr ((getElem?_of_leading h.accTasks n).mp hn), rfl⟩

end

def twoTasks (first second : Bool) : Translation where
  name := ⟨['t'], by decide, by decide, by decide⟩
  app := ⟨[1, 1], [], by decide, by decide, by decide⟩
  accTasks := [first, second]
  accTasks_length := rfl
  records := [⟨['1', ':', '0'], ⟨'1', rfl, rfl⟩, by decide⟩]
  outputOffsets := [[60], [60]]
  outputOffsets_length := rfl

theorem digits_twoTasks (first second : Bool) :
    (decimal (twoTasks first second).offsetsOffset).length ≤ 15 := by
  cases first <;> cases second <;> decide

theorem roundTrip_twoTasks : RoundTrip (twoTasks true false) := by
  apply (writtenHeader_roundTrip_iff (twoTasks true false) (digits_twoTasks true false)).mpr
  have hleading : Leading [true, false] :=
    leading_true_cons.mpr (leading_false_cons.mpr rfl)
  refine ⟨List.cons_ne_nil _ _, by decide, ?_, fun c hc => (List.not_mem_nil hc).elim, hleading⟩
  intro i n hi
  cases i with
  | zero =>
      rw [Nat.mul_zero]
      exact Nat.two_pos
  | succ i =>
      cases i with
      | zero =>
          cases hi
          exact Nat.one_lt_two
      | succ i => cases hi

/-- The header ends with "1(,1)" when only the second task uses an accelerator. -/
theorem not_roundTrip_twoTasks :
    ¬ ∀ t : Translation, (decimal t.offsetsOffset).length ≤ 15 → RoundTrip t := by
  intro h
  have hleading : Leading [false, true] :=
    leading_of_roundTrip (digits_twoTasks false true)
      (h (twoTasks false true) (digits_twoTasks false true))
  cases leading_false_cons.mp hleading

end Dimemas.Input.HeaderRoundTrip
