import Dimemas.Library.Formats
/-!
# The header of a Dimemas trace

The translator writes a header with a reserved field, the communicators, the records and the offsets
of the threads. Then it writes the header again, with the place of the offsets.
-/

namespace Dimemas.Prv2dim.TraceHeader

open Dimemas.Library.Formats

/-- The name of a trace, between quotes in its header. -/
structure TraceName where
  text : List Char
  ne_nil : text ≠ []
  noQuote : '"' ∉ text
  noNewline : newline ∉ text

/-- The tasks of a communicator are a set, which is read in ascending order. The first task has the
number 1. -/
structure Communicator where
  id : Int32
  tasks : List Int32
  ascending : tasks.Pairwise fun a b => a < b
  length_lt : tasks.length < 2147483648

/-- The numbers of threads of the tasks, and the communicators. The counts are of type INT32. -/
structure ApplicationDescription where
  threads : List Nat
  communicators : List Communicator
  threads_lt : ∀ n ∈ threads, n < 2147483648
  tasks_lt : threads.length < 2147483648
  communicators_lt : communicators.length < 2147483648

def threadCounts : List Nat → List Char
  | [] => []
  | [n] => decimal n
  | n :: m :: threads => decimal n ++ ',' :: threadCounts (m :: threads)

/-- The loop over `acc_tasks`, from the task `i` and with the tasks that are left. -/
def accTasksList : Nat → Nat → List Bool → List Char
  | _, _, [] => []
  | i, count, acc :: accTasks =>
      if 0 < count then
        let opening := if i = 0 then ['('] else []
        let number := if acc then decimal i else []
        let count := if acc then count - 1 else count
        opening ++ number ++
          (if 0 < count then ',' :: accTasksList (i + 1) count accTasks else [')'])
      else []

def offsetsOffsetReserve : UInt32 := 15

def headerStart : List Char := ['#', 'D', 'I', 'M', 'E', 'M', 'A', 'S', ':', '"']

/-- `WriteNewFormatHeader`. The initial header has the offset 0. -/
def newFormatHeader (name : TraceName) (app : ApplicationDescription) (accTasks : List Bool)
    (offsetsOffset : Nat) : List Char :=
  let offset := if offsetsOffset = 0 then List.replicate 15 'X' else decimal offsetsOffset
  let padding := if offsetsOffset = 0 then 0
    else (offsetsOffsetReserve - UInt32.ofNat offset.length).toNat
  let accTasksCount := accTasks.count true
  headerStart ++ name.text ++ ['"', ':', '1', ','] ++ offset ++
    ':' :: (decimal app.threads.length ++ '(' :: (threadCounts app.threads ++
      ')' :: ',' :: (decimal app.communicators.length ++ ',' :: (decimal accTasksCount ++
        (accTasksList 0 accTasksCount accTasks ++ (List.replicate padding ' ' ++ [newline]))))))

def dimemasTask (task : Int32) : Int32 := if task = -1 then task else task - 1

def communicatorDefinition (c : Communicator) : List Char :=
  ['d', ':', '1', ':'] ++ decimal c.id.toInt ++ ':' :: (decimal c.tasks.length ++
    (c.tasks.flatMap fun task => ':' :: decimal (dimemasTask task).toInt))

def offsetsLine (task : Nat) (offsets : List Nat) : List Char :=
  ['s', ':'] ++ decimal task ++ offsets.flatMap fun (offset : Nat) => ':' :: decimal offset

/-- A record, which begins with the number of its type. -/
structure RecordLine where
  text : List Char
  digit : ∃ c ∈ text.head?, c.isDigit
  noNewline : newline ∉ text

structure Translation where
  name : TraceName
  app : ApplicationDescription
  accTasks : List Bool
  accTasks_length : accTasks.length = app.threads.length
  records : List RecordLine
  outputOffsets : List (List Nat)
  outputOffsets_length : outputOffsets.map List.length = app.threads

def endLines (lines : List (List Char)) : List Char := lines.flatMap fun line => line ++ [newline]

def Translation.body (t : Translation) : List Char :=
  endLines (t.app.communicators.map communicatorDefinition ++ t.records.map RecordLine.text)

def Translation.offsets (t : Translation) : List Char :=
  endLines (t.outputOffsets.zipIdx.map fun (offsets, task) => offsetsLine task offsets)

def Translation.offsetsOffset (t : Translation) : Nat :=
  (newFormatHeader t.name t.app t.accTasks 0 ++ t.body).length

/-- A text that is written over the beginning of a file. -/
def overwrite (file text : List Char) : List Char := text ++ file.drop text.length

def Translation.trace (t : Translation) : List Char :=
  overwrite (newFormatHeader t.name t.app t.accTasks 0 ++ t.body ++ t.offsets)
    (newFormatHeader t.name t.app t.accTasks t.offsetsOffset)

section

variable {name : TraceName} {app : ApplicationDescription} {accTasks : List Bool}

theorem threadCounts_eq (threads : List Nat) :
    threadCounts threads = [','].intercalate (threads.map fun (n : Nat) => decimal n) := by
  induction threads with
  | nil => rfl
  | cons n threads ih =>
      cases threads with
      | nil => simp [threadCounts, List.intercalate]
      | cons m threads =>
          rw [threadCounts, ih]
          simp [List.intercalate]

theorem length_newFormatHeader {offset : Nat} (hpos : 0 < offset)
    (hdigits : (decimal offset).length ≤ 15) :
    (newFormatHeader name app accTasks offset).length =
      (newFormatHeader name app accTasks 0).length := by
  have hne : offset ≠ 0 := Nat.pos_iff_ne_zero.mp hpos
  have hpadding : (offsetsOffsetReserve - UInt32.ofNat (decimal offset).length).toNat =
      15 - (decimal offset).length := by
    generalize (decimal offset).length = n at hdigits
    have hle : UInt32.ofNat n ≤ offsetsOffsetReserve := by
      rw [UInt32.le_iff_toNat_le, UInt32.toNat_ofNat_of_lt' (by rw [UInt32.size]; omega)]
      exact hdigits
    rw [UInt32.toNat_sub_of_le _ _ hle, UInt32.toNat_ofNat_of_lt' (by rw [UInt32.size]; omega)]
    rfl
  simp only [newFormatHeader, if_neg hne, if_true, hpadding, List.length_append, List.length_cons,
    List.length_replicate]
  omega

end

end Dimemas.Prv2dim.TraceHeader
