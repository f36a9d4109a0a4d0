import Dimemas.Library.Formats
/-!
# The text of the records

The translator writes a record as a line and the simulator reads an action from it. The two programs
have formats of their own. What the action has is what was written, as far as the types of the
reader hold it.
-/

namespace Dimemas.Input.RecordText

open Dimemas.Library.Formats

/-! ## The writers -/

def fprintf (format : String) (args : List Value) : List Char :=
  printf ((directives format.toList).getD []) args

def nxGenericSendString := "2:%d:%d:%d:%d:%d:%lld:%d:%d\n"
def nxSendString := "2:%d:%d:%d:%d:%d:%lld:%d:0\n"
def nxIsendString := "2:%d:%d:%d:%d:%d:%lld:%d:2\n"
def nxIsendReadyString := "2:%d:%d:%d:%d:%d:%lld:%d:3\n"
def nxBsendString := "2:%d:%d:%d:%d:%d:%lld:%d:1\n"
def nxGenericRecvString := "3:%d:%d:%d:%d:%d:%lld:%d:%d\n"
def nxRecvString := "3:%d:%d:%d:%d:%d:%lld:%d:0\n"
def nxIrecvString := "3:%d:%d:%d:%d:%d:%lld:%d:1\n"
def nxWaitString := "3:%d:%d:%d:%d:%d:%lld:%d:2\n"
def cpuBurstString := "1:%d:%d:%.9f\n"
def userEventString := "20:%d:%d:%lld:%lld\n"
def blockBeginString := "20:%d:%d:%lld:%lld\n"
def blockEndString := "20:%d:%d:%lld:0\n"
def globalOpString := "10:%d:%d:%d:%d:%d:%d:%lld:%lld:%d\n"
def globalOpWaitString := "10:%d:%d:%d:%d:%d:%d:%lld:%lld:2\n"
def noopString := "0:%d:%d\n"
def gpuBurstString := "11:%d:%d:%.9f\n"

structure Thread where
  task : Int32
  thread : Int32
deriving DecidableEq, Repr

/-- The arguments that the writers of messages share. The partner is the sender or the receiver. -/
structure Message where
  partner : Thread
  commid : Int32
  size : Int32
  tag : Int64
deriving DecidableEq, Repr

/-- The arguments that the writers of global operations share. -/
structure GlobalOperation where
  opid : Int32
  commid : Int32
  rootRank : Int32
  rootThd : Int32
  sendsize : Int64
  recvsize : Int64
deriving DecidableEq, Repr

/-- A call of a writer. A burst is a time in seconds. -/
inductive Record
  | genericSend (m : Message) (synchronism : Int32)
  | send (m : Message)
  | immediateSend (m : Message)
  | immediateReadySend (m : Message)
  | blockingSend (m : Message)
  | genericRecv (m : Message) (type : Int32)
  | recv (m : Message)
  | irecv (m : Message)
  | wait (m : Message)
  | cpuBurst (burstTime : ℚ)
  | gpuBurst (burstTime : ℚ)
  | userEvent (type value : Int64)
  | blockBegin (type value : Int64)
  | blockEnd (block : Int64)
  | globalOp (g : GlobalOperation) (synchronize : Int32)
  | globalOpWait (g : GlobalOperation)
  | noop
deriving DecidableEq, Repr

def Thread.args (t : Thread) : List Value := [.integer t.task.toInt, .integer t.thread.toInt]

def Message.args (m : Message) : List Value :=
  [.integer m.partner.task.toInt, .integer m.partner.thread.toInt, .integer m.size.toInt,
    .integer m.tag.toInt, .integer m.commid.toInt]

def GlobalOperation.args (g : GlobalOperation) : List Value :=
  [.integer g.opid.toInt, .integer g.commid.toInt, .integer g.rootRank.toInt,
    .integer g.rootThd.toInt, .integer g.sendsize.toInt, .integer g.recvsize.toInt]

def nxGenericSend (t : Thread) (m : Message) (synchronism : Int32) : List Char :=
  fprintf nxGenericSendString (t.args ++ m.args ++ [.integer synchronism.toInt])

def nxSend (t : Thread) (m : Message) : List Char := fprintf nxSendString (t.args ++ m.args)

def nxImmediateSend (t : Thread) (m : Message) : List Char :=
  fprintf nxIsendString (t.args ++ m.args)

def nxImmediateReadySend (t : Thread) (m : Message) : List Char :=
  fprintf nxIsendReadyString (t.args ++ m.args)

def nxBlockingSend (t : Thread) (m : Message) : List Char :=
  fprintf nxBsendString (t.args ++ m.args)

def nxGenericRecv (t : Thread) (m : Message) (type : Int32) : List Char :=
  fprintf nxGenericRecvString (t.args ++ m.args ++ [.integer type.toInt])

def nxRecv (t : Thread) (m : Message) : List Char := fprintf nxRecvString (t.args ++ m.args)

def nxIrecv (t : Thread) (m : Message) : List Char := fprintf nxIrecvString (t.args ++ m.args)

def nxWait (t : Thread) (m : Message) : List Char := fprintf nxWaitString (t.args ++ m.args)

def cpuBurst (t : Thread) (burstTime : ℚ) : List Char :=
  fprintf cpuBurstString (t.args ++ [.real burstTime])

def gpuBurst (t : Thread) (burstTime : ℚ) : List Char :=
  fprintf gpuBurstString (t.args ++ [.real burstTime])

def userEvent (t : Thread) (type value : Int64) : List Char :=
  fprintf userEventString (t.args ++ [.integer type.toInt, .integer value.toInt])

def blockBegin (t : Thread) (type value : Int64) : List Char :=
  fprintf blockBeginString (t.args ++ [.integer type.toInt, .integer value.toInt])

def blockEnd (t : Thread) (block : Int64) : List Char :=
  fprintf blockEndString (t.args ++ [.integer block.toInt])

def globalOp (t : Thread) (g : GlobalOperation) (synchronize : Int32) : List Char :=
  fprintf globalOpString (t.args ++ g.args ++ [.integer synchronize.toInt])

def globalOpWait (t : Thread) (g : GlobalOperation) : List Char :=
  fprintf globalOpWaitString (t.args ++ g.args)

def noop (t : Thread) : List Char := fprintf noopString t.args

def Record.write (t : Thread) : Record → List Char
  | .genericSend m synchronism => nxGenericSend t m synchronism
  | .send m => nxSend t m
  | .immediateSend m => nxImmediateSend t m
  | .immediateReadySend m => nxImmediateReadySend t m
  | .blockingSend m => nxBlockingSend t m
  | .genericRecv m type => nxGenericRecv t m type
  | .recv m => nxRecv t m
  | .irecv m => nxIrecv t m
  | .wait m => nxWait t m
  | .cpuBurst burstTime => RecordText.cpuBurst t burstTime
  | .gpuBurst burstTime => RecordText.gpuBurst t burstTime
  | .userEvent type value => RecordText.userEvent t type value
  | .blockBegin type value => RecordText.blockBegin t type value
  | .blockEnd block => RecordText.blockEnd t block
  | .globalOp g synchronize => RecordText.globalOp t g synchronize
  | .globalOpWait g => RecordText.globalOpWait t g
  | .noop => RecordText.noop t

/-! ## The reader -/

def sscanf (text : List Char) (format : String) : List Value :=
  scanf ((directives format.toList).getD []) text

def actionRegexp := "%d:%d:%d:%[^\n]\n"
def noopRegexp := "0:%d:%d\n"
def offsetRegexp := "s:%d:%[^\n]\n"
def cpuBurstRegexp := "%lf"
def msgSendRegexpMPI := "%d:%lld:%d:%d:%c"
def msgSendRegexpSS := "%d:%d:%lld:%d:%d:%c"
def msgRecvRegexpMPI := "%d:%lld:%d:%d:%d"
def msgRecvRegexpSS := "%d:%d:%lld:%d:%d:%d"
def globalOpRegexp := "%d:%d:%d:%d:%ld:%ld:%d"
def eventRegexp := "%llu:%llu"
def gpuBurstRegexp := "%lf"

/-- `RD_SYNC_use_trace_sync` and `RD_SYNC_message_size`. -/
structure RendezVousOptions where
  useTraceSync : Bool
  messageSize : Int
deriving DecidableEq, Repr

def useRendezVous (rd : RendezVousOptions) (traceRendezVous : Bool) (msgSize : Int)
    (isAccComm : Bool) : Bool :=
  rd.useTraceSync && traceRendezVous ||
    (0 ≤ rd.messageSize && rd.messageSize ≤ msgSize) || isAccComm

/-- The fields of `t_send` that are read. -/
structure SendAction where
  messSize : Int
  dest : Int
  destThread : Int
  messTag : Int
  communicId : Int
  rendezVous : Bool
  immediate : Bool
deriving DecidableEq, Repr

/-- The fields of `t_recv` that are read. -/
structure RecvAction where
  messSize : Int
  ori : Int
  oriThread : Int
  messTag : Int
  communicId : Int
deriving DecidableEq, Repr

/-- The fields of `t_global_op`. -/
structure GlobalAction where
  glopId : Int
  commId : Int
  rootRank : Int
  rootThid : Int
  bytesSend : Int
  bytesRecvd : Int
  synchType : Int
deriving DecidableEq, Repr

/-- An action that is read. For an unknown type of a reception its kind is not initialized. -/
inductive Action
  | noop
  | work (cpuTime : ℚ)
  | send (desc : SendAction)
  | recv (desc : RecvAction)
  | irecv (desc : RecvAction)
  | wait (desc : RecvAction)
  | uninitialized (desc : RecvAction)
  | globalOp (desc : GlobalAction)
  | event (type value : Int)
  | gpuBurst (cpuTime : ℚ)
deriving DecidableEq, Repr

def correctThread (thread : Int) : Int := if thread = -2 then -1 else thread

def rendezVousBit (sync : Int) : Bool := sync % 2 = 1

def immediateBit (sync : Int) : Bool := sync / 2 % 2 = 1

/-- What `DAP_read_msg_send` makes of the fields. -/
def sendAction (rd : RendezVousOptions) (oriTask oriThread destTask destThread msgSize tag
    commId sync : Int) : Action :=
  .send {
    messSize := msgSize
    dest := destTask
    destThread := correctThread destThread
    messTag := tag
    communicId := commId
    rendezVous := useRendezVous rd (rendezVousBit sync) msgSize
      (oriTask = destTask && oriThread ≠ correctThread destThread)
    immediate := immediateBit sync }

/-- `DAP_read_msg_send`. The synchronism is read as a character. -/
def readMsgSend (rd : RendezVousOptions) (fields : List Char) (oriTask oriThread : Int) :
    Option Action :=
  match sscanf fields msgSendRegexpSS with
  | [.integer dest, .integer destThread, .integer size, .integer tag, .integer comm, .char sync] =>
      some (sendAction rd oriTask oriThread dest destThread size tag comm sync.toNat)
  | _ =>
      match sscanf fields msgSendRegexpMPI with
      | [.integer dest, .integer size, .integer tag, .integer comm, .char sync] =>
          some (sendAction rd oriTask oriThread dest (-1) size tag comm sync.toNat)
      | _ => none

/-- What `DAP_read_msg_recv` makes of the fields. -/
def recvAction (srcTask srcThread msgSize tag commId rcvt : Int) : Action :=
  let desc : RecvAction := {
    messSize := msgSize
    ori := srcTask
    oriThread := correctThread srcThread
    messTag := tag
    communicId := commId }
  if rcvt = 0 then .recv desc
  else if rcvt = 1 then .irecv desc
  else if rcvt = 2 then .wait desc
  else .uninitialized desc

def readMsgRecv (fields : List Char) : Option Action :=
  match sscanf fields msgRecvRegexpSS with
  | [.integer src, .integer srcThread, .integer size, .integer tag, .integer comm,
      .integer rcvt] => some (recvAction src srcThread size tag comm rcvt)
  | _ =>
      match sscanf fields msgRecvRegexpMPI with
      | [.integer src, .integer size, .integer tag, .integer comm, .integer rcvt] =>
          some (recvAction src (-1) size tag comm rcvt)
      | _ => none

def readGlobalOp (fields : List Char) : Option Action :=
  match sscanf fields globalOpRegexp with
  | [.integer glopId, .integer commId, .integer rootRank, .integer rootThid, .integer bytesSend,
      .integer bytesRecvd, .integer synchType] =>
      some (.globalOp ⟨glopId, commId, rootRank, rootThid, bytesSend, bytesRecvd, synchType⟩)
  | [.integer glopId, .integer commId, .integer rootRank, .integer rootThid, .integer bytesSend,
      .integer bytesRecvd] =>
      some (.globalOp ⟨glopId, commId, rootRank, rootThid, bytesSend, bytesRecvd, 1⟩)
  | _ => none

def readEvent (fields : List Char) : Option Action :=
  match sscanf fields eventRegexp with
  | [.integer type, .integer value] => some (.event type value)
  | _ => none

def readCpuBurst (fields : List Char) : Option Action :=
  match sscanf fields cpuBurstRegexp with
  | [.real duration] => some (.work duration)
  | _ => none

def readGpuBurst (fields : List Char) : Option Action :=
  match sscanf fields gpuBurstRegexp with
  | [.real duration] => some (.gpuBurst duration)
  | _ => none

/-- The actions of `DAP_read_action` for the operation of a record. -/
def readFields (rd : RendezVousOptions) (opId task thread : Int) (fields : List Char) :
    Option Action :=
  if opId = 1 then readCpuBurst fields
  else if opId = 2 then readMsgSend rd fields task thread
  else if opId = 3 then readMsgRecv fields
  else if opId = 10 then readGlobalOp fields
  else if opId = 20 then readEvent fields
  else if opId = 11 then readGpuBurst fields
  else none

/-- What a line is for `DAP_read_action`. -/
inductive Line
  | record (task thread : Int) (action : Option Action)
  | offsets
  | wrong
deriving DecidableEq, Repr

/-- The part of `DAP_read_action` that parses a line. -/
def parseLine (rd : RendezVousOptions) (line : List Char) : Line :=
  match sscanf line actionRegexp with
  | [.integer opId, .integer task, .integer thread, .text fields] =>
      .record task thread (readFields rd opId task thread fields)
  | _ =>
      match sscanf line noopRegexp with
      | [.integer task, .integer thread] => .record task thread (some .noop)
      | _ =>
          match sscanf line offsetRegexp with
          | [.integer _, .text _] => .offsets
          | _ => .wrong

/-! ## What is read of a line -/

def Message.fields (m : Message) (last : List Char) : List Char :=
  decimal m.partner.task.toInt ++ ':' :: (decimal m.partner.thread.toInt ++ ':' ::
    (decimal m.size.toInt ++ ':' :: (decimal m.tag.toInt ++ ':' ::
      (decimal m.commid.toInt ++ ':' :: last))))

def GlobalOperation.fields (g : GlobalOperation) (last : List Char) : List Char :=
  decimal g.opid.toInt ++ ':' :: (decimal g.commid.toInt ++ ':' ::
    (decimal g.rootRank.toInt ++ ':' :: (decimal g.rootThd.toInt ++ ':' ::
      (decimal g.sendsize.toInt ++ ':' :: (decimal g.recvsize.toInt ++ ':' :: last)))))

def Thread.line (t : Thread) (opId : Int) (fields : List Char) : List Char :=
  decimal opId ++ ':' :: (decimal t.task.toInt ++ ':' :: (decimal t.thread.toInt ++ ':' :: fields))

section

variable {t : Thread} {m : Message} {g : GlobalOperation} {rd : RendezVousOptions}
  {fields last : List Char} {c : Char} {opId : Int}

theorem store_int32 (i : Int32) : IntType.int.store i.toInt = i.toInt :=
  store_int i.le_toInt i.toInt_lt

theorem store_longLong32 (i : Int32) : IntType.longLong.store i.toInt = i.toInt := by
  have hmin := i.le_toInt
  have hmax := i.toInt_lt
  apply store_longLong
  · omega
  · omega

theorem store_long64 (i : Int64) : IntType.long.store i.toInt = i.toInt :=
  store_long i.le_toInt i.toInt_lt

theorem colon : ¬ (':' : Char).isDigit ∧ isSpace ':' = false := by decide

/-- The line of a record gives its operation, its thread and its fields. -/
theorem parseLine_line (hop : IntType.int.store opId = opId) (hfields : fields ≠ [])
    (hnewline : newline ∉ fields) :
    parseLine rd (t.line opId (fields ++ [newline])) =
      .record t.task.toInt t.thread.toInt
        (readFields rd opId t.task.toInt t.thread.toInt fields) := by
  have hdirectives : directives actionRegexp.toList = some [.integer .int, .ordinary ':',
      .integer .int, .ordinary ':', .integer .int, .ordinary ':', .line,
      .ordinary newline] := by rfl
  unfold parseLine sscanf Thread.line
  rw [hdirectives, Option.getD_some, scanf_integer_ordinary colon.1 colon.2,
    scanf_integer_ordinary colon.1 colon.2, scanf_integer_ordinary colon.1 colon.2,
    scanf_line hfields hnewline, hop, store_int32, store_int32]

theorem parseLine_noop : parseLine rd (noop t) =
    .record t.task.toInt t.thread.toInt (some .noop) := by
  have haction : directives actionRegexp.toList = some [.integer .int, .ordinary ':',
      .integer .int, .ordinary ':', .integer .int, .ordinary ':', .line,
      .ordinary newline] := by rfl
  have hnoop : directives noopRegexp.toList = some [.ordinary '0', .ordinary ':',
      .integer .int, .ordinary ':', .integer .int, .ordinary newline] := by rfl
  have hline : noop t = decimal 0 ++ ':' :: (decimal t.task.toInt ++ ':' ::
      (decimal t.thread.toInt ++ [newline])) := by rfl
  have hrest : ∀ c ∈ [newline].head?, ¬ c.isDigit := by
    intro c hc
    rw [← Option.some.inj hc]
    decide
  have hfour : scanf [.integer .int, .ordinary ':', .integer .int, .ordinary ':', .integer .int,
      .ordinary ':', .line, .ordinary newline] (noop t) =
      [.integer 0, .integer t.task.toInt, .integer t.thread.toInt] := by
    rw [hline, scanf_integer_ordinary colon.1 colon.2, scanf_integer_ordinary colon.1 colon.2,
      scanf_integer hrest, store_int32, store_int32]
    rfl
  have htwo : scanf [.ordinary '0', .ordinary ':', .integer .int, .ordinary ':', .integer .int,
      .ordinary newline] (noop t) = [.integer t.task.toInt, .integer t.thread.toInt] := by
    show scanf [.integer .int, .ordinary ':', .integer .int, .ordinary newline]
      (decimal t.task.toInt ++ ':' :: (decimal t.thread.toInt ++ [newline])) = _
    rw [scanf_integer_ordinary colon.1 colon.2, scanf_integer hrest, store_int32, store_int32]
    rfl
  unfold parseLine sscanf
  rw [haction, hnoop, Option.getD_some, Option.getD_some, hfour, htwo]

theorem readMsgSend_fields (cs : List Char) :
    readMsgSend rd (m.fields (c :: cs)) t.task.toInt t.thread.toInt =
      some (sendAction rd t.task.toInt t.thread.toInt m.partner.task.toInt
        m.partner.thread.toInt m.size.toInt (IntType.int.store m.tag.toInt) m.commid.toInt
        c.toNat) := by
  have hdirectives : directives msgSendRegexpSS.toList = some [.integer .int, .ordinary ':',
      .integer .int, .ordinary ':', .integer .longLong, .ordinary ':', .integer .int,
      .ordinary ':', .integer .int, .ordinary ':', .char] := by rfl
  unfold readMsgSend sscanf Message.fields
  rw [hdirectives, Option.getD_some]
  simp only [scanf_integer_ordinary colon.1 colon.2, store_int32, store_longLong32, scanf_char]

theorem readMsgRecv_fields (type : Int32) :
    readMsgRecv (m.fields (decimal type.toInt)) =
      some (recvAction m.partner.task.toInt m.partner.thread.toInt m.size.toInt
        (IntType.int.store m.tag.toInt) m.commid.toInt type.toInt) := by
  have hdirectives : directives msgRecvRegexpSS.toList = some [.integer .int, .ordinary ':',
      .integer .int, .ordinary ':', .integer .longLong, .ordinary ':', .integer .int,
      .ordinary ':', .integer .int, .ordinary ':', .integer .int] := by rfl
  unfold readMsgRecv sscanf Message.fields
  rw [hdirectives, Option.getD_some]
  simp only [scanf_integer_ordinary colon.1 colon.2, store_int32, store_longLong32,
    scanf_integer_end]

theorem readGlobalOp_fields (synchronize : Int32) :
    readGlobalOp (g.fields (decimal synchronize.toInt)) =
      some (.globalOp ⟨g.opid.toInt, g.commid.toInt, g.rootRank.toInt, g.rootThd.toInt,
        g.sendsize.toInt, g.recvsize.toInt, synchronize.toInt⟩) := by
  have hdirectives : directives globalOpRegexp.toList = some [.integer .int, .ordinary ':',
      .integer .int, .ordinary ':', .integer .int, .ordinary ':', .integer .int,
      .ordinary ':', .integer .long, .ordinary ':', .integer .long, .ordinary ':',
      .integer .int] := by rfl
  unfold readGlobalOp sscanf GlobalOperation.fields
  rw [hdirectives, Option.getD_some]
  simp only [scanf_integer_ordinary colon.1 colon.2, store_int32, store_long64,
    scanf_integer_end]

theorem readEvent_fields (type value : Int) :
    readEvent (decimal type ++ ':' :: decimal value) =
      some (.event (IntType.unsignedLongLong.store type)
        (IntType.unsignedLongLong.store value)) := by
  have hdirectives : directives eventRegexp.toList = some [.integer .unsignedLongLong,
      .ordinary ':', .integer .unsignedLongLong] := by rfl
  unfold readEvent sscanf
  rw [hdirectives, Option.getD_some]
  simp only [scanf_integer_ordinary colon.1 colon.2, scanf_integer_end]

theorem readCpuBurst_fields (burstTime : ℚ) :
    readCpuBurst (fixedPoint 9 burstTime) = some (.work (rounded 9 burstTime)) := by
  have hdirectives : directives cpuBurstRegexp.toList = some [.real] := by rfl
  unfold readCpuBurst sscanf
  rw [hdirectives, Option.getD_some, scanf_real_end]

theorem readGpuBurst_fields (burstTime : ℚ) :
    readGpuBurst (fixedPoint 9 burstTime) = some (.gpuBurst (rounded 9 burstTime)) := by
  have hdirectives : directives gpuBurstRegexp.toList = some [.real] := by rfl
  unfold readGpuBurst sscanf
  rw [hdirectives, Option.getD_some, scanf_real_end]

theorem fields_append (m : Message) (last rest : List Char) :
    m.fields (last ++ rest) = m.fields last ++ rest := by
  simp [Message.fields, List.append_assoc]

theorem globalFields_append (g : GlobalOperation) (last rest : List Char) :
    g.fields (last ++ rest) = g.fields last ++ rest := by
  simp [GlobalOperation.fields, List.append_assoc]

theorem newline_notMem_fields (h : newline ∉ last) : newline ∉ m.fields last := by
  have hcolon : newline ≠ ':' := by decide
  simp [Message.fields, newline_notMem_decimal, hcolon, h]

theorem newline_notMem_globalFields (h : newline ∉ last) : newline ∉ g.fields last := by
  have hcolon : newline ≠ ':' := by decide
  simp [GlobalOperation.fields, newline_notMem_decimal, hcolon, h]

theorem fields_ne_nil : m.fields last ≠ [] := by
  simp [Message.fields, decimal_ne_nil]

theorem globalFields_ne_nil : g.fields last ≠ [] := by
  simp [GlobalOperation.fields, decimal_ne_nil]

theorem parseLine_send (hlast : newline ∉ c :: last) :
    parseLine rd (t.line 2 (m.fields (c :: last ++ [newline]))) =
      .record t.task.toInt t.thread.toInt
        (some (sendAction rd t.task.toInt t.thread.toInt m.partner.task.toInt
          m.partner.thread.toInt m.size.toInt (IntType.int.store m.tag.toInt) m.commid.toInt
          c.toNat)) := by
  rw [fields_append, parseLine_line (by decide) fields_ne_nil (newline_notMem_fields hlast)]
  show Line.record _ _ (readMsgSend rd _ _ _) = _
  rw [readMsgSend_fields]

theorem parseLine_recv (type : Int32) :
    parseLine rd (t.line 3 (m.fields (decimal type.toInt ++ [newline]))) =
      .record t.task.toInt t.thread.toInt
        (some (recvAction m.partner.task.toInt m.partner.thread.toInt m.size.toInt
          (IntType.int.store m.tag.toInt) m.commid.toInt type.toInt)) := by
  rw [fields_append, parseLine_line (by decide) fields_ne_nil
    (newline_notMem_fields (newline_notMem_decimal _))]
  show Line.record _ _ (readMsgRecv _) = _
  rw [readMsgRecv_fields]

theorem parseLine_globalOp (synchronize : Int32) :
    parseLine rd (t.line 10 (g.fields (decimal synchronize.toInt ++ [newline]))) =
      .record t.task.toInt t.thread.toInt
        (some (.globalOp ⟨g.opid.toInt, g.commid.toInt, g.rootRank.toInt, g.rootThd.toInt,
          g.sendsize.toInt, g.recvsize.toInt, synchronize.toInt⟩)) := by
  rw [globalFields_append, parseLine_line (by decide) globalFields_ne_nil
    (newline_notMem_globalFields (newline_notMem_decimal _))]
  show Line.record _ _ (readGlobalOp _) = _
  rw [readGlobalOp_fields]

theorem parseLine_event (type value : Int) :
    parseLine rd (t.line 20 (decimal type ++ ':' :: (decimal value ++ [newline]))) =
      .record t.task.toInt t.thread.toInt
        (some (.event (IntType.unsignedLongLong.store type)
          (IntType.unsignedLongLong.store value))) := by
  have happend : decimal type ++ ':' :: (decimal value ++ [newline]) =
      (decimal type ++ ':' :: decimal value) ++ [newline] := by simp
  have hcolon : newline ≠ ':' := by decide
  rw [happend, parseLine_line (by decide) (by simp [decimal_ne_nil])
    (by simp [newline_notMem_decimal, hcolon])]
  show Line.record _ _ (readEvent _) = _
  rw [readEvent_fields]

theorem fixedPoint_ne_nil (places : Nat) (q : ℚ) : fixedPoint places q ≠ [] := by
  simp [fixedPoint]

theorem parseLine_cpuBurst (burstTime : ℚ) :
    parseLine rd (t.line 1 (fixedPoint 9 burstTime ++ [newline])) =
      .record t.task.toInt t.thread.toInt (some (.work (rounded 9 burstTime))) := by
  rw [parseLine_line (by decide) (fixedPoint_ne_nil 9 burstTime)
    (newline_notMem_fixedPoint 9 burstTime)]
  show Line.record _ _ (readCpuBurst _) = _
  rw [readCpuBurst_fields]

theorem parseLine_gpuBurst (burstTime : ℚ) :
    parseLine rd (t.line 11 (fixedPoint 9 burstTime ++ [newline])) =
      .record t.task.toInt t.thread.toInt (some (.gpuBurst (rounded 9 burstTime))) := by
  rw [parseLine_line (by decide) (fixedPoint_ne_nil 9 burstTime)
    (newline_notMem_fixedPoint 9 burstTime)]
  show Line.record _ _ (readGpuBurst _) = _
  rw [readGpuBurst_fields]

/-! The lines that the writers make. -/

theorem nxGenericSend_line (synchronism : Int32) : nxGenericSend t m synchronism =
    t.line 2 (m.fields (decimal synchronism.toInt ++ [newline])) := rfl

theorem nxSend_line : nxSend t m = t.line 2 (m.fields (['0'] ++ [newline])) := rfl

theorem nxImmediateSend_line :
    nxImmediateSend t m = t.line 2 (m.fields (['2'] ++ [newline])) := rfl

theorem nxImmediateReadySend_line :
    nxImmediateReadySend t m = t.line 2 (m.fields (['3'] ++ [newline])) := rfl

theorem nxBlockingSend_line :
    nxBlockingSend t m = t.line 2 (m.fields (['1'] ++ [newline])) := rfl

theorem nxGenericRecv_line (type : Int32) :
    nxGenericRecv t m type = t.line 3 (m.fields (decimal type.toInt ++ [newline])) := rfl

theorem nxRecv_line :
    nxRecv t m = t.line 3 (m.fields (decimal (0 : Int32).toInt ++ [newline])) := rfl

theorem nxIrecv_line :
    nxIrecv t m = t.line 3 (m.fields (decimal (1 : Int32).toInt ++ [newline])) := rfl

theorem nxWait_line :
    nxWait t m = t.line 3 (m.fields (decimal (2 : Int32).toInt ++ [newline])) := rfl

theorem cpuBurst_line (q : ℚ) : cpuBurst t q = t.line 1 (fixedPoint 9 q ++ [newline]) := rfl

theorem gpuBurst_line (q : ℚ) : gpuBurst t q = t.line 11 (fixedPoint 9 q ++ [newline]) := rfl

theorem userEvent_line (type value : Int64) : userEvent t type value =
    t.line 20 (decimal type.toInt ++ ':' :: (decimal value.toInt ++ [newline])) := rfl

theorem blockBegin_line (type value : Int64) : blockBegin t type value =
    t.line 20 (decimal type.toInt ++ ':' :: (decimal value.toInt ++ [newline])) := rfl

theorem blockEnd_line (block : Int64) : blockEnd t block =
    t.line 20 (decimal block.toInt ++ ':' :: (decimal 0 ++ [newline])) := rfl

theorem globalOp_line (synchronize : Int32) : globalOp t g synchronize =
    t.line 10 (g.fields (decimal synchronize.toInt ++ [newline])) := rfl

theorem globalOpWait_line : globalOpWait t g =
    t.line 10 (g.fields (decimal (2 : Int32).toInt ++ [newline])) := rfl

def leading (i : Int32) : Char := (decimal i.toInt).headD '0'

def Record.readAs (rd : RendezVousOptions) (t : Thread) : Record → Action
  | .genericSend m synchronism => sent m (leading synchronism)
  | .send m => sent m '0'
  | .immediateSend m => sent m '2'
  | .immediateReadySend m => sent m '3'
  | .blockingSend m => sent m '1'
  | .genericRecv m type => received m type.toInt
  | .recv m => received m 0
  | .irecv m => received m 1
  | .wait m => received m 2
  | .cpuBurst burstTime => .work (rounded 9 burstTime)
  | .gpuBurst burstTime => .gpuBurst (rounded 9 burstTime)
  | .userEvent type value => event type.toInt value.toInt
  | .blockBegin type value => event type.toInt value.toInt
  | .blockEnd block => event block.toInt 0
  | .globalOp g synchronize => collective g synchronize.toInt
  | .globalOpWait g => collective g 2
  | .noop => .noop
where
  sent (m : Message) (sync : Char) : Action :=
    sendAction rd t.task.toInt t.thread.toInt m.partner.task.toInt m.partner.thread.toInt
      m.size.toInt (IntType.int.store m.tag.toInt) m.commid.toInt sync.toNat
  received (m : Message) (rcvt : Int) : Action :=
    recvAction m.partner.task.toInt m.partner.thread.toInt m.size.toInt
      (IntType.int.store m.tag.toInt) m.commid.toInt rcvt
  event (type value : Int) : Action :=
    .event (IntType.unsignedLongLong.store type) (IntType.unsignedLongLong.store value)
  collective (g : GlobalOperation) (synchType : Int) : Action :=
    .globalOp ⟨g.opid.toInt, g.commid.toInt, g.rootRank.toInt, g.rootThd.toInt,
      g.sendsize.toInt, g.recvsize.toInt, synchType⟩

theorem newline_notMem_singleton (h : c.isDigit) : newline ∉ [c] := by
  intro hmem
  rw [← List.mem_singleton.mp hmem] at h
  revert h
  decide

theorem parseLine_write (rd : RendezVousOptions) (t : Thread) (r : Record) :
    parseLine rd (r.write t) =
      .record t.task.toInt t.thread.toInt (some (r.readAs rd t)) := by
  cases r with
  | genericSend m synchronism =>
      have hnewline := newline_notMem_decimal synchronism.toInt
      rw [Record.write, nxGenericSend_line, Record.readAs, leading]
      cases hdecimal : decimal synchronism.toInt with
      | nil => exact absurd hdecimal (decimal_ne_nil _)
      | cons c last =>
          rw [hdecimal] at hnewline
          exact parseLine_send hnewline
  | send m =>
      rw [Record.write, nxSend_line]
      exact parseLine_send (newline_notMem_singleton (by decide))
  | immediateSend m =>
      rw [Record.write, nxImmediateSend_line]
      exact parseLine_send (newline_notMem_singleton (by decide))
  | immediateReadySend m =>
      rw [Record.write, nxImmediateReadySend_line]
      exact parseLine_send (newline_notMem_singleton (by decide))
  | blockingSend m =>
      rw [Record.write, nxBlockingSend_line]
      exact parseLine_send (newline_notMem_singleton (by decide))
  | genericRecv m type =>
      rw [Record.write, nxGenericRecv_line]
      exact parseLine_recv type
  | recv m =>
      rw [Record.write, nxRecv_line]
      exact parseLine_recv 0
  | irecv m =>
      rw [Record.write, nxIrecv_line]
      exact parseLine_recv 1
  | wait m =>
      rw [Record.write, nxWait_line]
      exact parseLine_recv 2
  | cpuBurst q =>
      rw [Record.write, cpuBurst_line]
      exact parseLine_cpuBurst q
  | gpuBurst q =>
      rw [Record.write, gpuBurst_line]
      exact parseLine_gpuBurst q
  | userEvent type value =>
      rw [Record.write, userEvent_line]
      exact parseLine_event type.toInt value.toInt
  | blockBegin type value =>
      rw [Record.write, blockBegin_line]
      exact parseLine_event type.toInt value.toInt
  | blockEnd block =>
      rw [Record.write, blockEnd_line]
      exact parseLine_event block.toInt 0
  | globalOp g synchronize =>
      rw [Record.write, globalOp_line]
      exact parseLine_globalOp synchronize
  | globalOpWait g =>
      rw [Record.write, globalOpWait_line]
      exact parseLine_globalOp 2
  | noop => exact parseLine_noop

end

/-! ## The round trip -/

def Message.sentAs (m : Message) (rd : RendezVousOptions) (t : Thread)
    (rendezVous immediate : Bool) : Action :=
  .send {
    messSize := m.size.toInt
    dest := m.partner.task.toInt
    destThread := correctThread m.partner.thread.toInt
    messTag := m.tag.toInt
    communicId := m.commid.toInt
    rendezVous := useRendezVous rd rendezVous m.size.toInt
      (t.task.toInt = m.partner.task.toInt &&
        t.thread.toInt ≠ correctThread m.partner.thread.toInt)
    immediate := immediate }

def Message.received (m : Message) : RecvAction where
  messSize := m.size.toInt
  ori := m.partner.task.toInt
  oriThread := correctThread m.partner.thread.toInt
  messTag := m.tag.toInt
  communicId := m.commid.toInt

def GlobalOperation.entered (g : GlobalOperation) (synchType : Int) : GlobalAction where
  glopId := g.opid.toInt
  commId := g.commid.toInt
  rootRank := g.rootRank.toInt
  rootThid := g.rootThd.toInt
  bytesSend := g.sendsize.toInt
  bytesRecvd := g.recvsize.toInt
  synchType := synchType

/-- An action is what a record says. A burst that is no multiple of a nanosecond is rounded. -/
def Record.IsKept (rd : RendezVousOptions) (t : Thread) : Record → Action → Prop
  | .genericSend m s, a => a = m.sentAs rd t (rendezVousBit s.toInt) (immediateBit s.toInt)
  | .send m, a => a = m.sentAs rd t false false
  | .immediateSend m, a => a = m.sentAs rd t false true
  | .immediateReadySend m, a => a = m.sentAs rd t true true
  | .blockingSend m, a => a = m.sentAs rd t true false
  | .genericRecv m type, a =>
      type = 0 ∧ a = .recv m.received ∨ type = 1 ∧ a = .irecv m.received ∨
        type = 2 ∧ a = .wait m.received
  | .recv m, a => a = .recv m.received
  | .irecv m, a => a = .irecv m.received
  | .wait m, a => a = .wait m.received
  | .cpuBurst q, a => ∃ cpuTime, a = .work cpuTime ∧ (q.den ∣ tenTo 9 → cpuTime = q)
  | .gpuBurst q, a => ∃ cpuTime, a = .gpuBurst cpuTime ∧ (q.den ∣ tenTo 9 → cpuTime = q)
  | .userEvent type value, a => a = .event type.toInt value.toInt
  | .blockBegin type value, a => a = .event type.toInt value.toInt
  | .blockEnd block, a => a = .event block.toInt 0
  | .globalOp g synchronize, a => a = .globalOp (g.entered synchronize.toInt)
  | .globalOpWait g, a => a = .globalOp (g.entered 2)
  | .noop, a => a = .noop

/-- The line of a record is read as the action that it says, for its thread. -/
def Record.RoundTrip (r : Record) (t : Thread) : Prop :=
  ∀ rd, ∃ a, parseLine rd (r.write t) = .record t.task.toInt t.thread.toInt (some a) ∧
    r.IsKept rd t a

def Message.TagFits (m : Message) : Prop :=
  -2147483648 ≤ m.tag.toInt ∧ m.tag.toInt < 2147483648

instance (m : Message) : Decidable m.TagFits := inferInstanceAs (Decidable (_ ∧ _))

/-- The first digit of a synchronism has its bits. A message between the threads of a task is a
rendez vous in any case. -/
def SynchronismFits (t : Thread) (m : Message) (synchronism : Int32) : Prop :=
  immediateBit (leading synchronism).toNat = immediateBit synchronism.toInt ∧
    (t.task.toInt = m.partner.task.toInt ∧
        t.thread.toInt ≠ correctThread m.partner.thread.toInt ∨
      rendezVousBit (leading synchronism).toNat = rendezVousBit synchronism.toInt)

/-- The records whose values the types of the reader hold. -/
def Record.Fits (t : Thread) : Record → Prop
  | .genericSend m synchronism => m.TagFits ∧ SynchronismFits t m synchronism
  | .send m | .immediateSend m | .immediateReadySend m | .blockingSend m => m.TagFits
  | .genericRecv m type => m.TagFits ∧ (type = 0 ∨ type = 1 ∨ type = 2)
  | .recv m | .irecv m | .wait m => m.TagFits
  | .userEvent type value | .blockBegin type value => 0 ≤ type.toInt ∧ 0 ≤ value.toInt
  | .blockEnd block => 0 ≤ block.toInt
  | _ => True

section

variable {t : Thread} {m : Message} {rd : RendezVousOptions}

theorem roundTrip_iff {r : Record} :
    r.RoundTrip t ↔ ∀ rd, r.IsKept rd t (r.readAs rd t) := by
  unfold Record.RoundTrip
  apply forall_congr'
  intro rd
  rw [parseLine_write]
  constructor
  · rintro ⟨a, hline, hkept⟩
    rwa [Option.some.inj (Line.record.inj hline).2.2]
  · intro hkept
    exact ⟨_, rfl, hkept⟩

theorem tag_eq_iff : IntType.int.store m.tag.toInt = m.tag.toInt ↔ m.TagFits := by
  constructor
  · intro heq
    have hbounds := store_int_bounds m.tag.toInt
    rwa [heq] at hbounds
  · intro hfits
    exact store_int hfits.1 hfits.2

theorem unsigned_eq_iff (i : Int64) :
    IntType.unsignedLongLong.store i.toInt = i.toInt ↔ 0 ≤ i.toInt := by
  constructor
  · intro heq
    rw [← heq]
    exact store_unsigned_nonneg _
  · intro hnonneg
    have hmax := i.toInt_lt
    apply store_unsigned_of_nonneg hnonneg
    omega

theorem sentAs_iff {rendezVous immediate : Bool} {sync : Char} :
    (∀ rd, Record.readAs.sent rd t m sync = m.sentAs rd t rendezVous immediate) ↔
      m.TagFits ∧ immediateBit sync.toNat = immediate ∧
        (t.task.toInt = m.partner.task.toInt ∧
            t.thread.toInt ≠ correctThread m.partner.thread.toInt ∨
          rendezVousBit sync.toNat = rendezVous) := by
  unfold Record.readAs.sent sendAction Message.sentAs
  rw [← tag_eq_iff]
  simp only [Action.send.injEq, SendAction.mk.injEq, true_and]
  constructor
  · intro h
    obtain ⟨htag, hrendezVous, himmediate⟩ := h ⟨true, -1⟩
    refine ⟨htag, himmediate, ?_⟩
    by_cases hacc : t.task.toInt = m.partner.task.toInt ∧
        t.thread.toInt ≠ correctThread m.partner.thread.toInt
    · exact .inl hacc
    · right
      have hlocal : (decide (t.task.toInt = m.partner.task.toInt) &&
          decide (t.thread.toInt ≠ correctThread m.partner.thread.toInt)) = false := by
        simpa using hacc
      rw [hlocal] at hrendezVous
      simpa [useRendezVous] using hrendezVous
  · rintro ⟨htag, himmediate, hacc | hrendezVous⟩ rd
    · refine ⟨htag, ?_, himmediate⟩
      simp [useRendezVous, hacc]
    · refine ⟨htag, ?_, himmediate⟩
      rw [hrendezVous]

theorem received_eq (rcvt : Int) : Record.readAs.received m rcvt =
    recvAction m.partner.task.toInt m.partner.thread.toInt m.size.toInt
      (IntType.int.store m.tag.toInt) m.commid.toInt rcvt := rfl

theorem received_iff :
    (⟨m.size.toInt, m.partner.task.toInt, correctThread m.partner.thread.toInt,
      IntType.int.store m.tag.toInt, m.commid.toInt⟩ : RecvAction) = m.received ↔ m.TagFits := by
  rw [← tag_eq_iff]
  simp [Message.received]

theorem recv_iff : Record.readAs.received m 0 = .recv m.received ↔ m.TagFits := by
  rw [← received_iff]
  simp [received_eq, recvAction]

theorem irecv_iff : Record.readAs.received m 1 = .irecv m.received ↔ m.TagFits := by
  rw [← received_iff]
  simp [received_eq, recvAction]

theorem wait_iff : Record.readAs.received m 2 = .wait m.received ↔ m.TagFits := by
  rw [← received_iff]
  simp [received_eq, recvAction]

theorem event_iff (type value : Int64) :
    Record.readAs.event type.toInt value.toInt = .event type.toInt value.toInt ↔
      0 ≤ type.toInt ∧ 0 ≤ value.toInt := by
  rw [← unsigned_eq_iff, ← unsigned_eq_iff]
  simp [Record.readAs.event]

theorem blockEnd_iff (block : Int64) :
    Record.readAs.event block.toInt 0 = .event block.toInt 0 ↔ 0 ≤ block.toInt := by
  have hiff := event_iff block 0
  have hzero : (0 : Int64).toInt = 0 := by decide
  rw [hzero] at hiff
  rw [hiff]
  exact and_iff_left (le_refl 0)

theorem genericRecv_iff (type : Int32) :
    (Record.genericRecv m type).IsKept rd t ((Record.genericRecv m type).readAs rd t) ↔
      m.TagFits ∧ (type = 0 ∨ type = 1 ∨ type = 2) := by
  rw [← received_iff]
  simp only [Record.IsKept, Record.readAs, received_eq, recvAction]
  by_cases hzero : type = 0
  · simp [hzero]
  · by_cases hone : type = 1
    · simp [hone]
    · by_cases htwo : type = 2
      · simp [htwo]
      · simp [hzero, hone, htwo]

theorem sent_iff {rendezVous immediate : Bool} {sync : Char}
    (himmediate : immediateBit sync.toNat = immediate)
    (hrendezVous : rendezVousBit sync.toNat = rendezVous) :
    (∀ rd, Record.readAs.sent rd t m sync = m.sentAs rd t rendezVous immediate) ↔ m.TagFits := by
  rw [sentAs_iff]
  exact ⟨And.left, fun hfits => ⟨hfits, himmediate, .inr hrendezVous⟩⟩

theorem forall_options {p : Prop} : (∀ _ : RendezVousOptions, p) ↔ p :=
  ⟨fun h => h ⟨true, -1⟩, fun h _ => h⟩

/-- The line of a record is read as the record, for its thread, exactly if the types of the reader
hold its values. -/
theorem record_round_trip_iff (t : Thread) (r : Record) : r.RoundTrip t ↔ r.Fits t := by
  rw [roundTrip_iff]
  cases r with
  | genericSend m synchronism => exact sentAs_iff
  | send m => exact sent_iff (by decide) (by decide)
  | immediateSend m => exact sent_iff (by decide) (by decide)
  | immediateReadySend m => exact sent_iff (by decide) (by decide)
  | blockingSend m => exact sent_iff (by decide) (by decide)
  | genericRecv m type =>
      exact ⟨fun h => (genericRecv_iff type).mp (h ⟨true, -1⟩), fun h _ =>
        (genericRecv_iff type).mpr h⟩
  | recv m => exact forall_options.trans recv_iff
  | irecv m => exact forall_options.trans irecv_iff
  | wait m => exact forall_options.trans wait_iff
  | cpuBurst q => exact ⟨fun _ => trivial, fun _ _ => ⟨_, rfl, rounded_eq⟩⟩
  | gpuBurst q => exact ⟨fun _ => trivial, fun _ _ => ⟨_, rfl, rounded_eq⟩⟩
  | userEvent type value => exact forall_options.trans (event_iff type value)
  | blockBegin type value => exact forall_options.trans (event_iff type value)
  | blockEnd block => exact forall_options.trans (blockEnd_iff block)
  | globalOp g synchronize => exact ⟨fun _ => trivial, fun _ _ => rfl⟩
  | globalOpWait g => exact ⟨fun _ => trivial, fun _ _ => rfl⟩
  | noop => exact ⟨fun _ => trivial, fun _ _ => rfl⟩

end

def longTag : Message where
  partner := ⟨1, -1⟩
  commid := 1
  size := 100
  tag := 4294967301

/-- It is sent with the tag 4294967301 and read with the tag 5. -/
theorem not_record_round_trip : ¬ ∀ (t : Thread) (r : Record), r.RoundTrip t := by
  intro h
  have hread : Record.readAs ⟨true, -1⟩ ⟨0, 0⟩ (.send longTag) =
      longTag.sentAs ⟨true, -1⟩ ⟨0, 0⟩ false false :=
    roundTrip_iff.mp (h ⟨0, 0⟩ (.send longTag)) ⟨true, -1⟩
  revert hread
  decide

end Dimemas.Input.RecordText
