import Dimemas.Library.Formats
import Dimemas.Library.Merging
/-!
# Records of a Paraver trace

The records that are sorted before a trace is written. They are kept as lines of text in the
temporary files. A record is read as it was written, since the text that it ends with has no white
space.
-/

namespace Dimemas.PrvUtils.ParaverRecords

open Dimemas.Library.Formats
open Dimemas.Library.Merging

def prvState : Int32 := 1
def prvEvent : Int32 := 2
def prvComm : Int32 := 3
def prvStateRun : Int32 := 4

/-- A text that `%s` reads to its end. -/
structure Word where
  text : List Char
  ne_nil : text ≠ []
  noSpace : ∀ c ∈ text, isSpace c = false

structure SimpleParaverRecord where
  type : Int32
  cpu : Int32
  ptask : Int32
  task : Int32
  thread : Int32
  timestamp : UInt64
  asciiRecord : Word

def line (type cpu ptask task thread : Int) (timestamp : Nat) (asciiRecord : List Char) :
    List Char :=
  decimal type ++ ':' :: (decimal cpu ++ ':' :: (decimal ptask ++ ':' :: (decimal task ++
    ':' :: (decimal thread ++ ':' :: (decimal timestamp ++ ':' :: (asciiRecord ++ [newline]))))))

def SimpleParaverRecord.toTracefile (r : SimpleParaverRecord) : List Char :=
  let realType := if r.type = prvStateRun then prvState else r.type
  line realType.toInt r.cpu.toInt (r.ptask.toInt + 1) (r.task.toInt + 1) (r.thread.toInt + 1)
    r.timestamp.toNat r.asciiRecord.text

def SimpleParaverRecord.serialize (r : SimpleParaverRecord) : List Char :=
  line r.type.toInt r.cpu.toInt r.ptask.toInt r.task.toInt r.thread.toInt r.timestamp.toNat
    r.asciiRecord.text

/-- A conversion of `sscanf` for an integer in front of a colon. -/
def readField (type : IntType) (text : List Char) : Option (Int × List Char) :=
  match readInteger (text.dropWhile isSpace) with
  | some (i, ':' :: rest) => some (type.store i, rest)
  | _ => none

def readWord (text : List Char) : Option Word :=
  let word := (text.dropWhile isSpace).takeWhile fun c => !isSpace c
  if h : word = [] then none
  else some ⟨word, h, fun c hc => by simpa using List.mem_takeWhile_imp hc⟩

/-- `deserialize`, where seven conversions have to match. -/
def deserialize (text : List Char) : Option SimpleParaverRecord := do
  let (type, text) ← readField .int text
  let (cpu, text) ← readField .int text
  let (ptask, text) ← readField .int text
  let (task, text) ← readField .int text
  let (thread, text) ← readField .int text
  let (timestamp, text) ← readField .unsignedLongLong text
  let asciiRecord ← readWord text
  pure ⟨Int32.ofInt type, Int32.ofInt cpu, Int32.ofInt ptask, Int32.ofInt task,
    Int32.ofInt thread, UInt64.ofNat timestamp.toNat, asciiRecord⟩

/-- The order of two records of one thread and time by their types. -/
def lessType (type type' : Int32) : Bool :=
  if type = prvStateRun ∧ type' = prvEvent then false
  else if type = prvStateRun ∧ type' = prvState then true
  else if type = prvStateRun ∧ type' = prvComm then true
  else if type = prvStateRun ∧ type' = prvStateRun then true
  else if type = prvEvent ∧ type' = prvStateRun then true
  else if type = prvEvent ∧ type' = prvState then true
  else if type = prvEvent ∧ type' = prvComm then true
  else if type = prvEvent ∧ type' = prvEvent then true
  else if type = prvState ∧ type' = prvStateRun then false
  else if type = prvState ∧ type' = prvEvent then false
  else if type = prvState ∧ type' = prvComm then true
  else if type = prvState ∧ type' = prvState then false
  else false

def less (r₁ r₂ : SimpleParaverRecord) : Bool :=
  if r₁.timestamp < r₂.timestamp then true
  else if r₁.timestamp > r₂.timestamp then false
  else if r₁.ptask < r₂.ptask then true
  else if r₁.ptask > r₂.ptask then false
  else if r₁.task < r₂.task then true
  else if r₁.task > r₂.task then false
  else if r₁.thread < r₂.thread then true
  else if r₁.thread > r₂.thread then false
  else if r₁.cpu < r₂.cpu then true
  else if r₁.cpu > r₂.cpu then false
  else lessType r₁.type r₂.type

def time (r : SimpleParaverRecord) : Nat := r.timestamp.toNat

section

variable {type : IntType} {i : Int} {text rest : List Char}

theorem readField_decimal (i : Int) (rest : List Char) :
    readField type (decimal i ++ ':' :: rest) = some (type.store i, rest) := by
  have hcolon : ∀ c ∈ (':' :: rest).head?, ¬ c.isDigit := by
    intro c hc
    rw [← Option.some.inj hc]
    decide
  simp only [readField, readInteger_decimal i hcolon]

theorem readWord_newline (w : Word) : readWord (w.text ++ [newline]) = some w := by
  have hkeep : ∀ c ∈ w.text, (!isSpace c) = true := by
    intro c hc
    rw [w.noSpace c hc]
    rfl
  have hdrop : (w.text ++ [newline]).dropWhile isSpace = w.text ++ [newline] := by
    obtain ⟨c, cs, hcs⟩ := List.exists_cons_of_ne_nil w.ne_nil
    rw [hcs, List.cons_append, List.dropWhile_cons_of_neg]
    rw [w.noSpace c (by rw [hcs]; exact List.mem_cons_self)]
    exact Bool.false_ne_true
  have hword : ((w.text ++ [newline]).dropWhile isSpace).takeWhile (fun c => !isSpace c) =
      w.text := by
    rw [hdrop, List.takeWhile_append_of_pos hkeep]
    simp [List.takeWhile, newline, isSpace]
  unfold readWord
  simp only [hword, dif_neg w.ne_nil]

theorem store_toInt32 (x : Int32) : Int32.ofInt (IntType.int.store x.toInt) = x := by
  rw [store_int x.le_toInt x.toInt_lt, Int32.ofInt_toInt]

theorem store_toNat64 (x : UInt64) :
    UInt64.ofNat (IntType.unsignedLongLong.store (x.toNat : Int)).toNat = x := by
  have hlt := x.toNat_lt
  rw [store_unsigned_of_nonneg (Int.natCast_nonneg _) (by omega), Int.toNat_natCast,
    UInt64.ofNat_toNat]

/-- A record of a temporary file is read field for field. -/
theorem deserialize_serialize (r : SimpleParaverRecord) : deserialize r.serialize = some r := by
  unfold deserialize SimpleParaverRecord.serialize line
  simp only [readField_decimal, readWord_newline, Option.bind_eq_bind, Option.bind_some,
    Option.pure_def, store_toInt32, store_toNat64]

theorem respects_less : Respects less time := by
  intro r₁ r₂
  have hlt : r₁.timestamp < r₂.timestamp ↔ time r₁ < time r₂ := UInt64.lt_iff_toNat_lt
  have hgt : r₂.timestamp < r₁.timestamp ↔ time r₂ < time r₁ := UInt64.lt_iff_toNat_lt
  constructor
  · intro h
    by_contra hle
    rw [less, if_neg (by rw [hlt]; omega), if_pos (hgt.mpr (by omega))] at h
    cases h
  · intro h
    by_contra hle
    exact h (by rw [less, if_pos (hlt.mpr (by omega))])

end

end Dimemas.PrvUtils.ParaverRecords
