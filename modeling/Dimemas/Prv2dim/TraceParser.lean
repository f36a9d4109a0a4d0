import Dimemas.Library.Lines
import Dimemas.Library.Scanning
/-!
# The parser of Paraver traces

`ParaverTraceParser` reads the lines behind the header one by one. A record whose type is not asked
for is passed over, as are comments and empty lines. The counters that number the records and the
type and value pairs are left out.
-/

namespace Dimemas.Prv2dim.TraceParser

open Dimemas.Library.Formats
open Dimemas.Library.Scanning

structure Place where
  cpu : Int32
  appId : Int32
  taskId : Int32
  threadId : Int32
deriving DecidableEq

inductive ParaverRecord
  | state (place : Place) (beginTime endTime : UInt64) (stateValue : Int32)
  | event (place : Place) (timestamp : UInt64) (content : List (Int32 × Int64))
  | communication (src : Place) (logSend phySend : UInt64) (dst : Place)
      (logRecv phyRecv : UInt64) (size tag : Int32)
  | globalOp (place : Place) (timestamp : UInt64)
      (communicatorId sendSize recvSize globalOpId rootTaskId : Int32) (root : Bool)
deriving DecidableEq

def paraverState : Int := 1
def paraverEvent : Int := 2
def paraverCommunication : Int := 3
def paraverGlobalOp : Int := 4

def stateRec : Nat := 2
def eventRec : Nat := 4
def commRec : Nat := 8
def globopRec : Nat := 16

/-- What a call of the parser gives. At the end of the file it is `NULL` without an error. -/
inductive Found
  | record (r : ParaverRecord)
  | failed (message : String)
  | finished
deriving DecidableEq

/-! ## The lines of the records -/

def place (cpu appId taskId threadId : Int) : Place :=
  ⟨Int32.ofInt cpu, Int32.ofInt appId, Int32.ofInt taskId, Int32.ofInt threadId⟩

def time (i : Int) : UInt64 := UInt64.ofNat i.toNat

def onLine (message : String) (currentLine : Nat) : String :=
  message ++ " on line " ++ toString currentLine

/-- `%d:%d:%d:%d:%llu:%llu:%d`. -/
def stateFormat : List Conversion :=
  .integer .int true :: separated ':' [.int, .int, .int, .unsignedLongLong, .unsignedLongLong, .int]

def parseState (currentLine : Nat) (text : List Char) : Found :=
  match scan stateFormat text with
  | [.integer cpu, .integer appId, .integer taskId, .integer threadId, .integer beginTime,
      .integer endTime, .integer stateValue] =>
      .record (.state (place cpu appId taskId threadId) (time beginTime) (time endTime)
        (Int32.ofInt stateValue))
  | _ => .failed (onLine "Wrong state record" currentLine)

/-- `%d:%d:%d:%d:%llu:%[^n]`. -/
def eventFormat : List Conversion :=
  .integer .int true :: (separated ':' [.int, .int, .int, .unsignedLongLong] ++
    [.literal ':', .upTo 'n' true])

/-- The loop over the tokens. A type without a value is an error. -/
def typeValues : List (List Char) → Option (List (Int32 × Int64))
  | [] => some []
  | [_] => none
  | type :: value :: tokens =>
      (typeValues tokens).map ((Int32.ofInt (atoi type), Int64.ofInt (atoll value)) :: ·)

def parseEvent (currentLine : Nat) (text : List Char) : Found :=
  match scan eventFormat text with
  | [.integer cpu, .integer appId, .integer taskId, .integer threadId, .integer timestamp,
      .text typeValueStr] =>
      match typeValues (tokens ':' typeValueStr) with
      | none => .failed (onLine "Unpaired type/value on event record" currentLine)
      | some [] => .failed (onLine "Event record without type/value pairs" currentLine)
      | some content => .record (.event (place cpu appId taskId threadId) (time timestamp) content)
  | _ => .failed (onLine "Wrong event record" currentLine)

/-- `%d:%d:%d:%d:%llu:%llu:%d:%d:%d:%d:%llu:%llu:%d:%d`. -/
def communicationFormat : List Conversion :=
  .integer .int true :: separated ':' [.int, .int, .int, .unsignedLongLong, .unsignedLongLong, .int,
    .int, .int, .int, .unsignedLongLong, .unsignedLongLong, .int, .int]

def parseCommunication (currentLine : Nat) (text : List Char) : Found :=
  match scan communicationFormat text with
  | [.integer srcCPU, .integer srcAppId, .integer srcTaskId, .integer srcThreadId,
      .integer logSend, .integer phySend, .integer dstCPU, .integer dstAppId, .integer dstTaskId,
      .integer dstThreadId, .integer logRecv, .integer phyRecv, .integer size, .integer tag] =>
      .record (.communication (place srcCPU srcAppId srcTaskId srcThreadId) (time logSend)
        (time phySend) (place dstCPU dstAppId dstTaskId dstThreadId) (time logRecv) (time phyRecv)
        (Int32.ofInt size) (Int32.ofInt tag))
  | _ => .failed (onLine "Wrong communication record" currentLine)

/-- `%d:%d:%d:%d:%llu:%d:%d:%d:%d:%d`. -/
def globalOpFormat : List Conversion :=
  .integer .int true :: separated ':' [.int, .int, .int, .unsignedLongLong, .int, .int, .int, .int,
    .int]

def parseGlobalOp (currentLine : Nat) (text : List Char) : Found :=
  match scan globalOpFormat text with
  | [.integer cpu, .integer appId, .integer taskId, .integer threadId, .integer timestamp,
      .integer communicatorId, .integer sendSize, .integer recvSize, .integer globalOpId,
      .integer rootTaskId] =>
      let root := Int32.ofInt rootTaskId + 1
      .record (.globalOp (place cpu appId taskId threadId) (time timestamp)
        (Int32.ofInt communicatorId) (Int32.ofInt sendSize) (Int32.ofInt recvSize)
        (Int32.ofInt globalOpId) root (root = Int32.ofInt taskId))
  | _ => .failed (onLine "Wrong global operation record" currentLine)

def parseRecord (type : Int) (currentLine : Nat) (text : List Char) : Found :=
  if type = paraverState then parseState currentLine text
  else if type = paraverEvent then parseEvent currentLine text
  else if type = paraverCommunication then parseCommunication currentLine text
  else if type = paraverGlobalOp then parseGlobalOp currentLine text
  else .failed (onLine ("Wrong record identifier (" ++ toString type ++ ")") currentLine)

/-! ## The lines of the trace -/

def carriageReturn : Char := Char.ofNat 13

/-- `NextTraceRecord` with the lines that are left and the number of the last one. A type that is no
place of a bit is not asked for. -/
def nextTraceRecord (mask currentLine : Nat) : List (List Char) → Found × Nat × List (List Char)
  | [] => (.finished, currentLine + 1, [])
  | line :: lines =>
      if line = [newline] ∨ line = [carriageReturn, newline] then
        nextTraceRecord mask (currentLine + 1) lines
      else
        match scan [.integer .int true, .literal ':'] line with
        | [.integer type] =>
            if 0 ≤ type ∧ mask.testBit type.toNat then
              (parseRecord type (currentLine + 1) (line.drop 2), currentLine + 1, lines)
            else nextTraceRecord mask (currentLine + 1) lines
        | _ =>
            if line.head? = some '#' then nextTraceRecord mask (currentLine + 1) lines
            else (.failed (onLine "wrong record format" (currentLine + 1)), currentLine + 1, lines)

/-- Some calls of `GetNextRecord`. -/
def getNextRecords (mask : Nat) : Nat → Nat → List (List Char) → List Found
  | 0, _, _ => []
  | n + 1, currentLine, lines =>
      let (found, currentLine, lines) := nextTraceRecord mask currentLine lines
      found :: getNextRecords mask n currentLine lines

section

variable {currentLine mask n : Nat} {rest : List Char} {lines : List (List Char)}

/-! ## Values that are stored -/

theorem ofInt_store (i : Int) (hmin : -9223372036854775808 ≤ i) (hmax : i < 9223372036854775808) :
    Int32.ofInt (IntType.int.store i) = Int32.ofInt i := by
  show Int32.ofInt ((saturate i).bmod 4294967296) = Int32.ofInt i
  rw [saturate_eq hmin hmax]
  apply Int32.toBitVec.inj
  apply BitVec.eq_of_toInt_eq
  show (BitVec.ofInt 32 (i.bmod 4294967296)).toInt = (BitVec.ofInt 32 i).toInt
  rw [BitVec.toInt_ofInt, BitVec.toInt_ofInt]
  exact Int.bmod_bmod

theorem ofInt_store_toInt (x : Int32) : Int32.ofInt (IntType.int.store x.toInt) = x := by
  have hmin := x.le_toInt
  have hmax := x.toInt_lt
  rw [ofInt_store _ (by omega) (by omega), Int32.ofInt_toInt]

theorem ofInt_store_succ (x : Int32) :
    Int32.ofInt (IntType.int.store (x.toInt + 1)) = x + 1 := by
  have hmin := x.le_toInt
  have hmax := x.toInt_lt
  rw [ofInt_store _ (by omega) (by omega), Int32.ofInt_add, Int32.ofInt_toInt]
  rfl

theorem time_store (x : UInt64) :
    time (IntType.unsignedLongLong.store (x.toNat : Int)) = x := by
  have hlt := x.toNat_lt
  rw [time, store_unsigned_of_nonneg (Int.natCast_nonneg _) (by omega), Int.toNat_natCast,
    UInt64.ofNat_toNat]

/-! ## Lines that were written -/

def numbers (i : Int) (is : List Int) (rest : List Char) : List Char :=
  decimal i ++ ((is.flatMap fun i => ':' :: decimal i) ++ rest)

theorem scan_numbers (types : List IntType) (i : Int) (is : List Int)
    (hlength : types.length = is.length) (hrest : ∀ c ∈ rest.head?, ¬ c.isDigit) :
    scan (.integer .int true :: separated ':' types) (numbers i is rest) =
      .integer (IntType.int.store i) ::
        List.zipWith (fun type i => .integer (type.store i)) types is := by
  have hscan := @scan_integers [] .int i ':' rest types is hlength (by decide) hrest
  rw [List.append_nil] at hscan
  rw [numbers, hscan]
  exact congrArg _ (List.append_nil _)

theorem parseState_numbers (hrest : ∀ c ∈ rest.head?, ¬ c.isDigit)
    (cpu appId taskId threadId beginTime endTime stateValue : Int) :
    parseState currentLine
        (numbers cpu [appId, taskId, threadId, beginTime, endTime, stateValue] rest) =
      .record (.state
        (place (IntType.int.store cpu) (IntType.int.store appId) (IntType.int.store taskId)
          (IntType.int.store threadId))
        (time (IntType.unsignedLongLong.store beginTime))
        (time (IntType.unsignedLongLong.store endTime))
        (Int32.ofInt (IntType.int.store stateValue))) := by
  rw [parseState, stateFormat, scan_numbers _ _ _ rfl hrest]
  rfl

theorem parseCommunication_numbers (hrest : ∀ c ∈ rest.head?, ¬ c.isDigit)
    (srcCPU srcAppId srcTaskId srcThreadId logSend phySend dstCPU dstAppId dstTaskId dstThreadId
      logRecv phyRecv size tag : Int) :
    parseCommunication currentLine
        (numbers srcCPU [srcAppId, srcTaskId, srcThreadId, logSend, phySend, dstCPU, dstAppId,
          dstTaskId, dstThreadId, logRecv, phyRecv, size, tag] rest) =
      .record (.communication
        (place (IntType.int.store srcCPU) (IntType.int.store srcAppId)
          (IntType.int.store srcTaskId) (IntType.int.store srcThreadId))
        (time (IntType.unsignedLongLong.store logSend))
        (time (IntType.unsignedLongLong.store phySend))
        (place (IntType.int.store dstCPU) (IntType.int.store dstAppId)
          (IntType.int.store dstTaskId) (IntType.int.store dstThreadId))
        (time (IntType.unsignedLongLong.store logRecv))
        (time (IntType.unsignedLongLong.store phyRecv))
        (Int32.ofInt (IntType.int.store size)) (Int32.ofInt (IntType.int.store tag))) := by
  rw [parseCommunication, communicationFormat, scan_numbers _ _ _ rfl hrest]
  rfl

def typeValue (pair : Int × Int) : Int32 × Int64 :=
  (Int32.ofInt (IntType.int.store pair.1), Int64.ofInt (IntType.longLong.store pair.2))

def flattened (pairs : List (Int × Int)) : List Int := pairs.flatMap fun pair => [pair.1, pair.2]

theorem typeValues_integerTokens (hrest : ∀ c ∈ rest.head?, ¬ c.isDigit) (pair : Int × Int)
    (pairs : List (Int × Int)) :
    typeValues (integerTokens rest pair.1 (pair.2 :: flattened pairs)) =
      some ((pair :: pairs).map typeValue) := by
  have hnothing : ∀ c ∈ ([] : List Char).head?, ¬ c.isDigit := by simp
  have htype (pair : Int × Int) : atoi (decimal pair.1) = IntType.int.store pair.1 := by
    have hread := @atoi_append pair.1 [] hnothing
    rwa [List.append_nil] at hread
  induction pairs generalizing pair with
  | nil =>
      show (some []).map ((Int32.ofInt (atoi (decimal pair.1)),
        Int64.ofInt (atoll (decimal pair.2 ++ rest))) :: ·) = _
      rw [htype, atoll_append hrest]
      rfl
  | cons next pairs ih =>
      have hvalue : atoll (decimal pair.2) = IntType.longLong.store pair.2 := by
        have hread := @atoll_append pair.2 [] hnothing
        rwa [List.append_nil] at hread
      show (typeValues (integerTokens rest next.1 (next.2 :: flattened pairs))).map
        ((Int32.ofInt (atoi (decimal pair.1)), Int64.ofInt (atoll (decimal pair.2))) :: ·) = _
      rw [ih next, htype, hvalue]
      rfl

theorem mem_numbers {c : Char} {i : Int} {is : List Int} (h : c ∈ numbers i is rest) :
    c.isDigit ∨ c = '-' ∨ c = ':' ∨ c ∈ rest := by
  have hdecimal (j : Int) (hc : c ∈ decimal j) : c.isDigit ∨ c = '-' := by
    cases j with
    | ofNat n => exact Or.inl (isDigit_of_mem_digits hc)
    | negSucc n =>
        rcases List.mem_cons.mp hc with hc | hc
        · exact Or.inr hc
        · exact Or.inl (isDigit_of_mem_digits hc)
  rcases List.mem_append.mp h with h | h
  · exact (hdecimal i h).imp_right Or.inl
  · rcases List.mem_append.mp h with h | h
    · obtain ⟨j, -, h⟩ := List.mem_flatMap.mp h
      rcases List.mem_cons.mp h with h | h
      · exact Or.inr (Or.inr (Or.inl h))
      · exact (hdecimal j h).imp_right Or.inl
    · exact Or.inr (Or.inr (Or.inr h))

/-- The pairs are read up to the first `n`, which an event does not have. -/
theorem parseEvent_numbers (hrest : ∀ c ∈ rest.head?, ¬ c.isDigit) (hn : 'n' ∉ rest)
    (hcolon : ':' ∉ rest) (cpu appId taskId threadId timestamp : Int) (pair : Int × Int)
    (pairs : List (Int × Int)) :
    parseEvent currentLine
        (numbers cpu [appId, taskId, threadId, timestamp]
          (':' :: numbers pair.1 (pair.2 :: flattened pairs) rest)) =
      .record (.event
        (place (IntType.int.store cpu) (IntType.int.store appId) (IntType.int.store taskId)
          (IntType.int.store threadId))
        (time (IntType.unsignedLongLong.store timestamp)) ((pair :: pairs).map typeValue)) := by
  have hpairs : scan [.literal ':', .upTo 'n' true]
      (':' :: numbers pair.1 (pair.2 :: flattened pairs) rest) =
        [.text (numbers pair.1 (pair.2 :: flattened pairs) rest)] := by
    have hread := @scan_upTo [] 'n' (numbers pair.1 (pair.2 :: flattened pairs) rest) []
      (List.append_ne_nil_of_left_ne_nil (decimal_ne_nil _) _)
      (by
        intro h
        rcases mem_numbers h with h | h | h | h
        · exact absurd h (by decide)
        · exact absurd h (by decide)
        · exact absurd h (by decide)
        · exact hn h) (by simp)
    rw [List.append_nil] at hread
    rw [scan_literal, hread]
    rfl
  have hscan := @scan_integers [.literal ':', .upTo 'n' true] .int cpu ':'
    (':' :: numbers pair.1 (pair.2 :: flattened pairs) rest)
    [.int, .int, .int, .unsignedLongLong] [appId, taskId, threadId, timestamp] rfl (by decide)
    (by
      intro c hc
      rw [← Option.some.inj hc]
      decide)
  have htokens : typeValues (tokens ':' (numbers pair.1 (pair.2 :: flattened pairs) rest)) =
      some ((pair :: pairs).map typeValue) := by
    rw [numbers, tokens_integers (by decide) (by decide) hcolon]
    exact typeValues_integerTokens hrest pair pairs
  rw [hpairs] at hscan
  rw [parseEvent, eventFormat, numbers, hscan]
  simp only [List.zipWith, List.cons_append, List.nil_append, htokens, List.map_cons]

/-! ## The lines of a trace -/

def recordLine (kind : Nat) (text : List Char) : List Char := decimal kind ++ ':' :: text

theorem nextTraceRecord_recordLine {kind : Nat} (hkind : kind < 10) (text : List Char) :
    nextTraceRecord mask currentLine (recordLine kind text :: lines) =
      if mask.testBit kind then
        (parseRecord kind (currentLine + 1) text, currentLine + 1, lines)
      else nextTraceRecord mask (currentLine + 1) lines := by
  have hline : recordLine kind text = Nat.digitChar kind :: ':' :: text := by
    show Nat.toDigits 10 kind ++ ':' :: text = _
    rw [Nat.toDigits_of_lt_base hkind]
    rfl
  have hread : scan [.integer .int true, .literal ':'] (recordLine kind text) =
      [.integer kind] := by
    have hscan := @scan_integer [.literal ':'] .int kind (':' :: text) (by
      intro c hc
      rw [← Option.some.inj hc]
      decide)
    rw [recordLine, hscan, scan_literal, store_int (by omega) (by omega)]
    rfl
  have hempty : ¬ (recordLine kind text = [newline] ∨
      recordLine kind text = [carriageReturn, newline]) := by
    rw [hline]
    rintro (h | h)
    · cases (List.cons.inj h).2
    · exact absurd (List.cons.inj (List.cons.inj h).2).1 (by decide)
  have hdrop : (recordLine kind text).drop 2 = text := by
    rw [hline]
    rfl
  rw [nextTraceRecord, if_neg hempty]
  simp only [hread, hdrop, Int.natCast_nonneg, true_and, Int.toNat_natCast]

/-- From lines that can be read, the calls give the records that are asked for, and then the end. -/
theorem getNextRecords_recordLines (mask : Nat) {ε : Type} {kind : ε → Nat}
    {text : ε → List Char} {read : ε → ParaverRecord} (hkind : ∀ e, kind e < 10)
    (hread : ∀ e currentLine, parseRecord (kind e) currentLine (text e) = .record (read e))
    (es : List ε) (currentLine : Nat) :
    getNextRecords mask ((es.filter fun e => mask.testBit (kind e)).length + 1) currentLine
        (es.map fun e => recordLine (kind e) (text e)) =
      ((es.filter fun e => mask.testBit (kind e)).map fun e => .record (read e)) ++
        [.finished] := by
  induction es generalizing currentLine with
  | nil => rfl
  | cons e es ih =>
      have hnext := @nextTraceRecord_recordLine currentLine mask
        (es.map fun e => recordLine (kind e) (text e)) (kind e) (hkind e) (text e)
      by_cases hmask : mask.testBit (kind e) = true
      · have hfilter : (e :: es).filter (fun e => mask.testBit (kind e)) =
            e :: es.filter fun e => mask.testBit (kind e) := List.filter_cons_of_pos hmask
        rw [if_pos hmask, hread] at hnext
        rw [hfilter, List.length_cons, List.map_cons, List.map_cons, List.cons_append,
          getNextRecords, hnext]
        exact congrArg _ (ih (currentLine + 1))
      · have hfilter : (e :: es).filter (fun e => mask.testBit (kind e)) =
            es.filter fun e => mask.testBit (kind e) := List.filter_cons_of_neg hmask
        rw [if_neg hmask] at hnext
        rw [hfilter, List.map_cons, getNextRecords, hnext]
        exact ih (currentLine + 1)

end

end Dimemas.Prv2dim.TraceParser
