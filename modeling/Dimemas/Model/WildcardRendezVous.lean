import Mathlib.Data.List.Induction
import Mathlib.Data.List.TakeWhile
/-!
# Receives from any task

How a receive with origin -1 looks for a sender that waits for it. The loop over the senders of a
task steps on before it sees what it has found, and the loop over the tasks does not stop.
-/

namespace Dimemas.Model.WildcardRendezVous

/-- A thread in the queue `send` of its task, with the message that it sends. -/
structure Sender where
  thread : Nat
  taskid : Int
  dest : Int
  messTag : Int
  communicId : Int
deriving DecidableEq, Repr

/-- What a thread receives. The thread of origin is -1 in both messages. -/
structure Recv where
  ori : Int
  messTag : Int
  communicId : Int
deriving DecidableEq, Repr

/-- The destination, the tag and the communicator of a message that a task receives. -/
def fits (taskid : Int) (mess : Recv) (sender : Sender) : Bool :=
  sender.messTag == mess.messTag && sender.communicId == mess.communicId &&
    (sender.dest == taskid || sender.dest == -1)

/-- The loop over the senders of a task while nothing is found: the next sender, and `trobat`. -/
def scanSend (found : Sender → Bool) : List Sender → Option Sender × Bool
  | [] => (none, false)
  | sender :: send => if found sender then (send.head?, true) else scanSend found send

def scanTask (found : Sender → Bool) (trobat : Bool) (send : List Sender) :
    Option Sender × Bool :=
  if trobat then (send.head?, true) else scanSend found send

def scanTasks (found : Sender → Bool) (tasks : List (List Sender)) : Option Sender × Bool :=
  tasks.foldl (fun acc send => scanTask found acc.2 send) (none, false)

/-- A sender that is extracted and started, and the queues that are left. -/
structure Started where
  taskSender : Nat
  sender : Sender
  tasks : List (List Sender)
deriving DecidableEq, Repr

/-- `Start_communication_if_partner_ready_for_rendez_vous_real_MPI_transfer` for a receive of a
task. The queues `send` of the tasks are given by their `taskid`. -/
def startCommunicationIfPartnerReady (tasks : List (List Sender)) (taskid : Int) (mess : Recv) :
    Option Started :=
  let start (taskSender : Nat) (sender : Sender) : Started :=
    ⟨taskSender, sender, tasks.modify taskSender (·.erase sender)⟩
  if mess.ori ≠ -1 then
    ((tasks.getD mess.ori.toNat []).find? (fits taskid mess)).map (start mess.ori.toNat)
  else
    let found (sender : Sender) : Bool :=
      (sender.taskid == mess.ori || mess.ori == -1) && fits taskid mess sender
    (scanTasks found tasks).1.map (start (tasks.length - 1))

def anyFits (tasks : List (List Sender)) (taskid : Int) (mess : Recv) : Bool :=
  tasks.any (·.any (fits taskid mess))

/-- A transfer is started exactly if a sender fits, and its sender does. -/
def StartsFitting (tasks : List (List Sender)) (taskid : Int) (mess : Recv) : Prop :=
  ((startCommunicationIfPartnerReady tasks taskid mess).isSome ↔ anyFits tasks taskid mess) ∧
    ∀ x ∈ startCommunicationIfPartnerReady tasks taskid mess,
      fits taskid mess x.sender ∧ x.sender ∈ tasks.getD x.taskSender []

/-- The sender where the loops end. If an earlier task has one that fits, it is the first of the last
task, and else the one behind the first of the last task that fits. -/
def lastSender (found : Sender → Bool) (tasks : List (List Sender)) : Option Sender :=
  let last := tasks.getLastD []
  if tasks.dropLast.any (·.any found) then last.head?
  else (last.dropWhile (!found ·)).tail.head?

section

variable {found : Sender → Bool}

theorem scanSend_eq (send : List Sender) :
    scanSend found send = ((send.dropWhile (!found ·)).tail.head?, send.any found) := by
  induction send with
  | nil => rfl
  | cons sender send ih =>
      rw [scanSend]
      cases h : found sender with
      | true => simp [h]
      | false =>
          rw [if_neg Bool.false_ne_true, ih]
          simp [h]

theorem scanTask_snd (trobat : Bool) (send : List Sender) :
    (scanTask found trobat send).2 = (trobat || send.any found) := by
  cases trobat with
  | true => rfl
  | false => simp [scanTask, scanSend_eq]

theorem scanTasks_snd (tasks : List (List Sender)) :
    (scanTasks found tasks).2 = tasks.any (·.any found) := by
  induction tasks using List.reverseRecOn with
  | nil => rfl
  | append_singleton tasks send ih =>
      rw [scanTasks] at ih ⊢
      rw [List.foldl_append, List.foldl_cons, List.foldl_nil, scanTask_snd, ih]
      simp

theorem scanTasks_fst (tasks : List (List Sender)) :
    (scanTasks found tasks).1 = lastSender found tasks := by
  induction tasks using List.reverseRecOn with
  | nil => rfl
  | append_singleton tasks send _ =>
      have htrobat : (scanTasks found tasks).2 = _ := scanTasks_snd tasks
      rw [scanTasks] at htrobat ⊢
      rw [List.foldl_append, List.foldl_cons, List.foldl_nil, scanTask, htrobat, scanSend_eq,
        lastSender]
      simp only [List.dropLast_concat, List.getLastD_concat]
      split <;> rfl

theorem lastSender_mem {tasks : List (List Sender)} {sender : Sender}
    (h : lastSender found tasks = some sender) : sender ∈ tasks.getD (tasks.length - 1) [] := by
  have hlast : tasks.getD (tasks.length - 1) [] = tasks.getLastD [] := by
    rw [List.getLastD_eq_getLast?, List.getLast?_eq_getElem?, List.getD_eq_getElem?_getD]
  rw [hlast]
  unfold lastSender at h
  simp only at h
  split at h
  · exact List.mem_of_mem_head? h
  · exact (List.dropWhile_suffix _).subset (List.mem_of_mem_tail (List.mem_of_mem_head? h))

theorem lastSender_eq_none {tasks : List (List Sender)} (h : tasks.any (·.any found) = false) :
    lastSender found tasks = none := by
  rcases List.eq_nil_or_concat tasks with rfl | ⟨init, last, rfl⟩
  · rfl
  · simp only [List.concat_eq_append, List.any_append, List.any_cons, List.any_nil, Bool.or_false,
      Bool.or_eq_false_iff] at h
    have hall : last.dropWhile (!found ·) = [] := by
      rw [List.dropWhile_eq_nil_iff]
      intro sender hsender
      rw [List.any_eq_false.mp h.2 sender hsender |> Bool.eq_false_iff.mpr]
      rfl
    simp only [lastSender, List.concat_eq_append, List.dropLast_concat, List.getLastD_concat, h.1,
      hall]
    rfl

/-- The senders that a receive from any task looks for. -/
theorem found_eq_fits {taskid : Int} {mess : Recv} (hori : mess.ori = -1) (sender : Sender) :
    ((sender.taskid == mess.ori || mess.ori == -1) && fits taskid mess sender) =
      fits taskid mess sender := by
  simp [hori]

theorem startCommunication_of_wildcard {tasks : List (List Sender)} {taskid : Int} {mess : Recv}
    (hori : mess.ori = -1) : startCommunicationIfPartnerReady tasks taskid mess =
      (lastSender (fits taskid mess) tasks).map fun sender =>
        ⟨tasks.length - 1, sender, tasks.modify (tasks.length - 1) (·.erase sender)⟩ := by
  rw [startCommunicationIfPartnerReady, if_neg (by simp [hori])]
  simp only [found_eq_fits hori]
  rw [← scanTasks_fst]

end

/-- Where a receive from any task finds a sender that fits. The sender that is started is the first
one of the last task if an earlier task has one that fits. Else it is the one behind the first of
the last task that fits. -/
def FitsAtEnd (tasks : List (List Sender)) (taskid : Int) (mess : Recv) : Prop :=
  let last := tasks.getLastD []
  (anyFits tasks.dropLast taskid mess ∧ ∃ sender ∈ last.head?, fits taskid mess sender) ∨
    (¬ anyFits tasks.dropLast taskid mess ∧
      ∃ sender ∈ (last.dropWhile (!fits taskid mess ·)).tail.head?, fits taskid mess sender)

theorem fitsAtEnd_iff (tasks : List (List Sender)) (taskid : Int) (mess : Recv) :
    FitsAtEnd tasks taskid mess ↔
      ∃ sender ∈ lastSender (fits taskid mess) tasks, fits taskid mess sender := by
  unfold FitsAtEnd lastSender anyFits
  simp only
  split
  · rename_i h
    simp [h]
  · rename_i h
    simp [h]

theorem startsFitting_iff (tasks : List (List Sender)) (taskid : Int) (mess : Recv)
    (hori : mess.ori = -1) : StartsFitting tasks taskid mess ↔
      ¬ anyFits tasks taskid mess ∨ FitsAtEnd tasks taskid mess := by
  rw [fitsAtEnd_iff, StartsFitting, startCommunication_of_wildcard hori]
  cases hany : anyFits tasks taskid mess with
  | false =>
      rw [lastSender_eq_none hany]
      simp
  | true =>
      cases hlast : lastSender (fits taskid mess) tasks with
      | none => simp
      | some sender =>
          have hmem := lastSender_mem hlast
          rw [List.getD_eq_getElem?_getD] at hmem
          simpa using fun _ => hmem

def oneSender : List (List Sender) := [[⟨4, 0, 1, 7, 1⟩], []]

def anyTask : Recv := ⟨-1, 7, 1⟩

/-- Of two senders the one of the last task is started. -/
theorem startsFitting_twoSenders :
    StartsFitting [[⟨4, 0, 1, 7, 1⟩], [], [⟨5, 2, 1, 7, 1⟩]] 1 anyTask := by
  apply (startsFitting_iff _ 1 anyTask rfl).mpr
  right
  left
  exact ⟨by decide, ⟨5, 2, 1, 7, 1⟩, rfl, by decide⟩

/-- The only sender that fits is not started. -/
theorem not_startsFitting : ¬ ∀ (tasks : List (List Sender)) (taskid : Int) (mess : Recv),
    mess.ori = -1 → StartsFitting tasks taskid mess := by
  intro h
  have hstarts := (h oneSender 1 anyTask rfl).1
  revert hstarts
  decide

end Dimemas.Model.WildcardRendezVous
