import Dimemas.Utils.QueueCursor
/-!
# Logical receives

What a receive and a message say about their ends, for real MPI transfers (where the threads are
-1) and for dependency synchronisations, the test that matches them, and the notifications that
`COMMUNIC_Irecv` leaves for the receive that completes it.
-/

namespace Dimemas.Model.LogicalReceives

open Dimemas.Library.LinkedList
open Dimemas.Utils.ListQueue
open Dimemas.Utils.QueueCursor

/-- `struct t_recv`. A receive from any task has `ori = -1`. -/
structure Recv where
  ori : Int
  oriThread : Int
  messTag : Int
  communicId : Int
  messSize : Nat
deriving DecidableEq, Repr

/-- `struct t_send`. -/
structure Send where
  dest : Int
  destThread : Int
  messTag : Int
  communicId : Int
  messSize : Nat
deriving DecidableEq, Repr

/-- A copy of a thread whose current action is a SEND. `serial` numbers the copies; the code has the
pointer. -/
structure SendThread where
  serial : Nat
  taskid : Int
  threadid : Int
  mess : Send
deriving DecidableEq, Repr

structure ThreadId where
  taskid : Int
  threadid : Int
deriving DecidableEq, Repr

/-- The test of `is_message_awaiting` and `locate_receiver`, for a receive of the thread
`threadid`. -/
def matchesMess (threadid : Int) (mess : Recv) (source : SendThread) : Bool :=
  (source.threadid = mess.oriThread || mess.oriThread = -1) &&
    (source.taskid = mess.ori || mess.ori = -1) &&
    mess.messTag = source.mess.messTag && mess.communicId = source.mess.communicId &&
    (source.mess.destThread = threadid || source.mess.destThread = -1)

/-- The `t_recv` that `COMMUNIC_Irecv` saves. `serial` numbers them; the code has the pointer. -/
structure Notification where
  serial : Nat
  mess : Recv
  logicalRecv : Nat
deriving DecidableEq, Repr

/-- What `get_logical_receive` looks for. -/
structure Lookup where
  ori : Int
  oriThread : Int
  messTag : Int
  communicId : Int
deriving DecidableEq, Repr

def Recv.lookup (mess : Recv) : Lookup :=
  ⟨mess.ori, mess.oriThread, mess.messTag, mess.communicId⟩

def SendThread.lookup (source : SendThread) : Lookup :=
  ⟨source.taskid, source.threadid, source.mess.messTag, source.mess.communicId⟩

def answers (key : Lookup) (irecvNot : Notification) : Bool :=
  (irecvNot.mess.ori = key.ori || irecvNot.mess.ori = -1) &&
    (irecvNot.mess.oriThread = key.oriThread || irecvNot.mess.oriThread = -1) &&
    irecvNot.mess.messTag = key.messTag && irecvNot.mess.communicId = key.communicId

variable {κ : Type}

def getLogicalReceive (waitLogicalRecv : Bool) (h : Heap κ Notification) (q : TQueue)
    (key : Lookup) (storedLogicalRecv : Nat) : Option (Heap κ Notification × TQueue × Nat) :=
  if waitLogicalRecv then some (h, q, storedLogicalRecv)
  else do
    let (q, irecvNot) ← scanQueue (answers key) h q
    match irecvNot with
    | none => some (h, q, storedLogicalRecv)
    | some irecvNot =>
        let (h, q) ← extractFromQueue h q irecvNot
        some (h, q, irecvNot.logicalRecv)

/-- The notifications that are left and the time, when `wait_logical_recv` is not set. -/
def takeNotification (key : Lookup) (storedLogicalRecv : Nat) (irecvs : List Notification) :
    List Notification × Nat :=
  match irecvs.find? (answers key) with
  | none => (irecvs, storedLogicalRecv)
  | some irecvNot => (irecvs.erase irecvNot, irecvNot.logicalRecv)

variable {h : Heap κ Notification} {q : TQueue} {irecvs : List Notification}

/-- The search takes the first notification that answers out of the queue. -/
theorem spells_getLogicalReceive (hq : Spells h q irecvs) (key : Lookup)
    (storedLogicalRecv : Nat) :
    ∃ h' q', getLogicalReceive false h q key storedLogicalRecv =
        some (h', q', (takeNotification key storedLogicalRecv irecvs).2) ∧
      Spells h' q' (takeNotification key storedLogicalRecv irecvs).1 := by
  obtain ⟨q₁, hscan, hq₁⟩ := hq.scanQueue (answers key)
  unfold takeNotification
  cases hfound : irecvs.find? (answers key) with
  | none =>
      rw [hfound] at hscan
      refine ⟨h, q₁, ?_, hq₁⟩
      show (scanQueue (answers key) h q).bind _ = _
      rw [hscan]
      rfl
  | some irecvNot =>
      rw [hfound] at hscan
      obtain ⟨h', q', hextract, hq'⟩ :=
        hq₁.extractFromQueue (List.mem_of_find?_eq_some hfound)
      refine ⟨h', q', ?_, hq'⟩
      show (scanQueue (answers key) h q).bind _ = _
      rw [hscan]
      show (extractFromQueue h q₁ irecvNot).bind _ = _
      rw [hextract]
      rfl

theorem getLogicalReceive_total (hq : Spells h q irecvs) (waitLogicalRecv : Bool) (key : Lookup)
    (storedLogicalRecv : Nat) :
    ∃ h' q' time, getLogicalReceive waitLogicalRecv h q key storedLogicalRecv =
        some (h', q', time) ∧ ∃ irecvs', Spells h' q' irecvs' := by
  cases waitLogicalRecv with
  | true => exact ⟨h, q, storedLogicalRecv, rfl, irecvs, hq⟩
  | false =>
      obtain ⟨h', q', heq, hq'⟩ := spells_getLogicalReceive hq key storedLogicalRecv
      exact ⟨h', q', _, heq, _, hq'⟩

theorem takeNotification_eq_self_iff (key : Lookup) (storedLogicalRecv : Nat) :
    (takeNotification key storedLogicalRecv irecvs).1 = irecvs ↔
      ∀ n ∈ irecvs, ¬ answers key n = true := by
  unfold takeNotification
  rw [← List.find?_eq_none]
  cases hfound : irecvs.find? (answers key) with
  | none => exact ⟨fun _ => rfl, fun _ => rfl⟩
  | some n =>
      have hmem := List.mem_of_find?_eq_some hfound
      constructor
      · intro heq
        have hlength := List.length_erase_add_one hmem
        rw [show irecvs.erase n = irecvs from heq] at hlength
        omega
      · exact fun hnone => absurd hnone (by simp)

theorem takeNotification_stored {key : Lookup} {storedLogicalRecv : Nat}
    (hnone : ∀ n ∈ irecvs, ¬ answers key n = true) :
    (takeNotification key storedLogicalRecv irecvs).2 = storedLogicalRecv := by
  unfold takeNotification
  rw [List.find?_eq_none.mpr hnone]

/-- The search takes the notification `n` that answers when none before it does. -/
theorem takeNotification_eq_append_iff {key : Lookup} {storedLogicalRecv : Nat} {n : Notification}
    {older newer : List Notification} (hnodup : (older ++ n :: newer).Nodup)
    (hanswers : answers key n = true) :
    (takeNotification key storedLogicalRecv (older ++ n :: newer)).1 = older ++ newer ↔
      ∀ m ∈ older, ¬ answers key m = true := by
  have hfresh : n ∉ older := by
    have hparts := (List.nodup_cons.mp (List.nodup_middle.mp hnodup)).1
    exact fun hmem => hparts (List.mem_append_left newer hmem)
  unfold takeNotification
  rw [← List.find?_eq_none, List.find?_append, List.find?_cons_of_pos hanswers]
  cases hfound : older.find? (answers key) with
  | none =>
      refine ⟨fun _ => rfl, fun _ => ?_⟩
      show (older ++ n :: newer).erase n = older ++ newer
      rw [List.erase_append_right _ hfresh, List.erase_cons_head]
  | some m =>
      have hmem := List.mem_of_find?_eq_some hfound
      refine ⟨fun heq => ?_, fun hnone => absurd hnone (by simp)⟩
      -- the notification `m` is left where `n` goes, and goes where it is found
      have hleft : m ∈ (older ++ n :: newer).erase m := by
        rw [show (older ++ n :: newer).erase m = older ++ newer from heq]
        exact List.mem_append_left newer hmem
      exact absurd hleft hnodup.not_mem_erase

theorem takeNotification_found {key : Lookup} {storedLogicalRecv : Nat} {n : Notification}
    {older newer : List Notification} (hanswers : answers key n = true)
    (hnone : ∀ m ∈ older, ¬ answers key m = true) :
    (takeNotification key storedLogicalRecv (older ++ n :: newer)).2 = n.logicalRecv := by
  unfold takeNotification
  rw [List.find?_append, List.find?_eq_none.mpr hnone, List.find?_cons_of_pos hanswers]
  rfl

end Dimemas.Model.LogicalReceives
