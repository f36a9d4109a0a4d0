import Dimemas.Library.Transitions
import Dimemas.Model.Messages
/-!
# The post/arrive handshake

`COMMUNIC_send_reached_real_MPI_transfer` and `COMMUNIC_recv_reached_real_MPI_transfer`
pair the SEND actions of an application with the RECV and IRECV actions of their
destinations through two queues per task. The invariant holds for any interleaving
of the two calls.
-/

namespace Dimemas.Model.Handshake

open Dimemas.Library.SearchedQueue Dimemas.Library.Transitions
open Dimemas.Model.Messages

def duplicateThread (thread : SendThread) : SendThread := { thread with originalThread := false }

/-- The application, with the calls made so far and the pairs they formed. -/
structure HandshakeState where
  ptask : TPtask
  sendsReached : List SendThread
  recvsReached : List RecvThread
  pairs : List (SendThread × RecvThread)

def HandshakeState.init (tasksCount : Nat) : HandshakeState :=
  ⟨⟨tasksCount, fun _ => .empty⟩, [], [], []⟩

/-- `COMMUNIC_recv_reached_real_MPI_transfer`: the result says whether the receive
was paired with a rendezvous send. -/
def communicRecvReached (s : HandshakeState) (thread : RecvThread) : HandshakeState × Bool :=
  let task := s.ptask.tasks thread.taskid
  let s := { s with recvsReached := s.recvsReached ++ [thread] }
  match takeFirst (matchesMess thread.mess) task.sendWithoutRecv with
  | some (partnerSend, rest) =>
      ({ s with
        ptask := s.ptask.setTask thread.taskid { task with sendWithoutRecv := rest }
        pairs := s.pairs ++ [(partnerSend, thread)] },
        partnerSend.mess.rendezVous)
  | none =>
      let task := { task with recvWithoutSend := task.recvWithoutSend ++ [thread] }
      ({ s with ptask := s.ptask.setTask thread.taskid task }, false)

/-- `COMMUNIC_send_reached_real_MPI_transfer`: the result says whether the send was
paired with an IRECV. -/
def communicSendReached (s : HandshakeState) (thread : SendThread) :
    Option (HandshakeState × Bool) := do
  let dest ← s.ptask.locateTask thread.mess.dest
  let destTask := s.ptask.tasks dest
  let s := { s with sendsReached := s.sendsReached ++ [thread] }
  match takeFirst (fun recv => matchesMess recv.mess thread) destTask.recvWithoutSend with
  | some (partnerRecv, rest) =>
      some ({ s with
        ptask := s.ptask.setTask dest { destTask with recvWithoutSend := rest }
        pairs := s.pairs ++ [(thread, partnerRecv)] },
        partnerRecv.isIrecv)
  | none =>
      let destTask := { destTask with
        sendWithoutRecv := destTask.sendWithoutRecv ++ [duplicateThread thread] }
      some ({ s with ptask := s.ptask.setTask dest destTask }, false)

theorem eq_of_duplicateThread {x y : SendThread} (h : duplicateThread x = duplicateThread y) :
    x.taskid = y.taskid ∧ x.serial = y.serial ∧ x.mess = y.mess := by
  simp only [duplicateThread, SendThread.mk.injEq] at h
  exact ⟨h.2.1, h.2.2.2.1, h.2.2.2.2⟩

/-- A test that does not tell a thread from its copy. -/
def Blind (p : SendThread → Bool) : Prop := ∀ x, p (duplicateThread x) = p x

/-! ## What one call does -/

section

variable {s s' : HandshakeState}

/-- A receive is paired with the first send that matches it, or queued. -/
theorem communicRecvReached_cases (s : HandshakeState) (thread : RecvThread) :
    (∃ partner rest,
      takeFirst (matchesMess thread.mess) (s.ptask.tasks thread.taskid).sendWithoutRecv =
        some (partner, rest) ∧
      communicRecvReached s thread =
        (⟨s.ptask.setTask thread.taskid
            { s.ptask.tasks thread.taskid with sendWithoutRecv := rest },
          s.sendsReached, s.recvsReached ++ [thread], s.pairs ++ [(partner, thread)]⟩,
          partner.mess.rendezVous)) ∨
    (takeFirst (matchesMess thread.mess) (s.ptask.tasks thread.taskid).sendWithoutRecv = none ∧
      communicRecvReached s thread =
        (⟨s.ptask.setTask thread.taskid { s.ptask.tasks thread.taskid with
            recvWithoutSend := (s.ptask.tasks thread.taskid).recvWithoutSend ++ [thread] },
          s.sendsReached, s.recvsReached ++ [thread], s.pairs⟩, false)) := by
  cases hfirst : takeFirst (matchesMess thread.mess)
      (s.ptask.tasks thread.taskid).sendWithoutRecv with
  | none =>
      right
      simp [communicRecvReached, hfirst]
  | some p =>
      left
      obtain ⟨partner, rest⟩ := p
      exact ⟨partner, rest, rfl, by simp [communicRecvReached, hfirst]⟩

/-- A send is paired with the first receive that it matches, or queued. -/
theorem communicSendReached_cases {thread : SendThread} {irecv : Bool}
    (h : communicSendReached s thread = some (s', irecv)) :
    ∃ dest : Nat, thread.mess.dest = dest ∧ dest < s.ptask.tasksCount ∧
      ((∃ partner rest,
        takeFirst (fun recv => matchesMess recv.mess thread)
          (s.ptask.tasks dest).recvWithoutSend = some (partner, rest) ∧
        s' = ⟨s.ptask.setTask dest { s.ptask.tasks dest with recvWithoutSend := rest },
          s.sendsReached ++ [thread], s.recvsReached, s.pairs ++ [(thread, partner)]⟩ ∧
        irecv = partner.isIrecv) ∨
      (takeFirst (fun recv => matchesMess recv.mess thread)
          (s.ptask.tasks dest).recvWithoutSend = none ∧
        s' = ⟨s.ptask.setTask dest { s.ptask.tasks dest with
            sendWithoutRecv :=
              (s.ptask.tasks dest).sendWithoutRecv ++ [duplicateThread thread] },
          s.sendsReached ++ [thread], s.recvsReached, s.pairs⟩ ∧ irecv = false)) := by
  unfold communicSendReached at h
  cases hloc : s.ptask.locateTask thread.mess.dest with
  | none => simp [hloc] at h
  | some dest =>
      obtain ⟨hdest, hlt⟩ := TPtask.locateTask_eq_some.mp hloc
      refine ⟨dest, hdest, hlt, ?_⟩
      simp only [hloc, Option.bind_eq_bind, Option.bind_some] at h
      cases hfirst : takeFirst (fun recv => matchesMess recv.mess thread)
          (s.ptask.tasks dest).recvWithoutSend with
      | none =>
          right
          simp only [hfirst, Option.some.injEq, Prod.mk.injEq] at h
          exact ⟨rfl, h.1.symm, h.2.symm⟩
      | some p =>
          left
          obtain ⟨partner, rest⟩ := p
          simp only [hfirst, Option.some.injEq, Prod.mk.injEq] at h
          exact ⟨partner, rest, rfl, h.1.symm, h.2.symm⟩

/-! ## The invariant -/

/-- What holds of the two queues of the task `d`: they hold copies of its own sends, in the order of
the calls, and its own receives, no queued receive matches a queued send, and every call that
concerns the task is accounted for by a pair or by a queue entry. -/
structure TaskPaired (d : Nat) (sends : List SendThread) (recvs : List RecvThread)
    (pairs : List (SendThread × RecvThread)) (sendWithoutRecv : List SendThread)
    (recvWithoutSend : List RecvThread) : Prop where
  sendDest : ∀ x ∈ sendWithoutRecv, x.mess.dest = d
  recvTask : ∀ r ∈ recvWithoutSend, r.taskid = d
  noMatch : ∀ r ∈ recvWithoutSend, ∀ x ∈ sendWithoutRecv, ¬ matchesMess r.mess x
  copies : sendWithoutRecv.Sublist (sends.map duplicateThread)
  sends : ∀ p : SendThread → Bool, Blind p → (∀ x, p x → x.mess.dest = d) → sends.countP p =
    pairs.countP (fun x => p x.1) + sendWithoutRecv.countP p
  recvs : ∀ p : RecvThread → Bool, recvs.countP (fun r => r.taskid = d && p r) =
    pairs.countP (fun x => x.2.taskid = d && p x.2) + recvWithoutSend.countP p

structure Paired (s : HandshakeState) : Prop where
  pairsMatch : ∀ x ∈ s.pairs, matchesMess x.2.mess x.1 ∧ x.1.mess.dest = x.2.taskid
  task : ∀ d, TaskPaired d s.sendsReached s.recvsReached s.pairs
    (s.ptask.tasks d).sendWithoutRecv (s.ptask.tasks d).recvWithoutSend

theorem paired_init (tasksCount : Nat) : Paired (.init tasksCount) where
  pairsMatch := by simp [HandshakeState.init]
  task := fun d => by constructor <;> simp [HandshakeState.init, TTask.empty]

theorem ofSend_dst {c : Channel} {x : SendThread} (h : c.ofSend x) : x.mess.dest = c.dst :=
  (Channel.ofSend_iff.mp h).2.1

section

variable {d : Nat} {sends : List SendThread} {recvs : List RecvThread}
  {pairs : List (SendThread × RecvThread)} {swr : List SendThread} {rws : List RecvThread}
  {x : SendThread} {r : RecvThread}

theorem TaskPaired.pairRecv (h : TaskPaired d sends recvs pairs swr rws) {rest : List SendThread}
    (hfirst : takeFirst (matchesMess r.mess) swr = some (x, rest)) :
    TaskPaired d sends (recvs ++ [r]) (pairs ++ [(x, r)]) rest rws where
  sendDest y hy := h.sendDest y ((mem_of_takeFirst hfirst).mpr (.inr hy))
  recvTask := h.recvTask
  noMatch r' hr' y hy := h.noMatch r' hr' y ((mem_of_takeFirst hfirst).mpr (.inr hy))
  copies := (sublist_takeFirst hfirst).trans h.copies
  sends p hblind hdest := by
    rw [h.sends p hblind hdest, countP_takeFirst hfirst, List.countP_append, List.countP_singleton]
    simp only
    omega
  recvs p := by
    rw [List.countP_append, List.countP_append, h.recvs p, List.countP_singleton,
      List.countP_singleton]
    simp only
    omega

theorem TaskPaired.queueRecv (h : TaskPaired d sends recvs pairs swr rws) (hr : r.taskid = d)
    (hnone : takeFirst (matchesMess r.mess) swr = none) :
    TaskPaired d sends (recvs ++ [r]) pairs swr (rws ++ [r]) where
  sendDest := h.sendDest
  recvTask := by
    simp only [List.forall_mem_append, List.forall_mem_singleton]
    exact ⟨h.recvTask, hr⟩
  noMatch := by
    simp only [List.forall_mem_append, List.forall_mem_singleton]
    exact ⟨h.noMatch, takeFirst_eq_none.mp hnone⟩
  copies := h.copies
  sends := h.sends
  recvs p := by
    rw [List.countP_append, List.countP_append, h.recvs p, List.countP_singleton,
      List.countP_singleton]
    simp only [hr, decide_true, Bool.true_and]
    omega

theorem TaskPaired.pairSend (h : TaskPaired d sends recvs pairs swr rws) {rest : List RecvThread}
    (hfirst : takeFirst (fun r => matchesMess r.mess x) rws = some (r, rest)) :
    TaskPaired d (sends ++ [x]) recvs (pairs ++ [(x, r)]) swr rest where
  sendDest := h.sendDest
  recvTask y hy := h.recvTask y ((mem_of_takeFirst hfirst).mpr (.inr hy))
  noMatch y hy := h.noMatch y ((mem_of_takeFirst hfirst).mpr (.inr hy))
  copies := by
    rw [List.map_append]
    exact h.copies.trans (List.sublist_append_left ..)
  sends p hblind hdest := by
    rw [List.countP_append, List.countP_append, h.sends p hblind hdest, List.countP_singleton,
      List.countP_singleton]
    simp only
    omega
  recvs p := by
    have hr := h.recvTask r ((mem_of_takeFirst hfirst).mpr (.inl rfl))
    rw [h.recvs p, countP_takeFirst hfirst, List.countP_append, List.countP_singleton]
    simp only [hr, decide_true, Bool.true_and]
    omega

theorem TaskPaired.queueSend (h : TaskPaired d sends recvs pairs swr rws)
    (hdest : x.mess.dest = d)
    (hnone : takeFirst (fun r => matchesMess r.mess x) rws = none) :
    TaskPaired d (sends ++ [x]) recvs pairs (swr ++ [duplicateThread x]) rws where
  sendDest := by
    simp only [List.forall_mem_append, List.forall_mem_singleton]
    exact ⟨h.sendDest, hdest⟩
  recvTask := h.recvTask
  noMatch r hr := by
    simp only [List.forall_mem_append, List.forall_mem_singleton]
    exact ⟨h.noMatch r hr, takeFirst_eq_none.mp hnone r hr⟩
  copies := by
    rw [List.map_append]
    exact h.copies.append (List.Sublist.refl _)
  sends p hblind hp := by
    rw [List.countP_append, List.countP_append, h.sends p hblind hp, List.countP_singleton,
      List.countP_singleton, hblind x]
    omega
  recvs := h.recvs

theorem TaskPaired.otherRecv (h : TaskPaired d sends recvs pairs swr rws) (hr : r.taskid ≠ d) :
    TaskPaired d sends (recvs ++ [r]) pairs swr rws := by
  refine ⟨h.sendDest, h.recvTask, h.noMatch, h.copies, h.sends, fun p => ?_⟩
  rw [List.countP_append, h.recvs p, List.countP_singleton]
  simp [hr]

theorem TaskPaired.otherSend (h : TaskPaired d sends recvs pairs swr rws)
    (hx : x.mess.dest ≠ d) : TaskPaired d (sends ++ [x]) recvs pairs swr rws := by
  refine ⟨h.sendDest, h.recvTask, h.noMatch, ?_, fun p hblind hdest => ?_, h.recvs⟩
  · rw [List.map_append]
    exact h.copies.trans (List.sublist_append_left ..)
  · have hno : ¬ p x := fun hp => hx (hdest x hp)
    rw [List.countP_append, h.sends p hblind hdest, List.countP_singleton, if_neg hno]
    omega

theorem TaskPaired.otherPair (h : TaskPaired d sends recvs pairs swr rws)
    (hx : x.mess.dest ≠ d) (hr : r.taskid ≠ d) :
    TaskPaired d sends recvs (pairs ++ [(x, r)]) swr rws := by
  refine ⟨h.sendDest, h.recvTask, h.noMatch, h.copies, fun p hblind hdest => ?_, fun p => ?_⟩
  · have hno : ¬ p x := fun hp => hx (hdest x hp)
    rw [List.countP_append, h.sends p hblind hdest, List.countP_singleton, if_neg hno]
    omega
  · rw [List.countP_append, h.recvs p, List.countP_singleton]
    simp [hr]

end

theorem Paired.recvReached (h : Paired s) (thread : RecvThread) :
    Paired (communicRecvReached s thread).1 := by
  rcases communicRecvReached_cases s thread with ⟨partner, rest, hfirst, heq⟩ | ⟨hnone, heq⟩
  · have hdest := (h.task thread.taskid).sendDest _ ((mem_of_takeFirst hfirst).mpr (.inl rfl))
    rw [heq]
    refine ⟨?_, fun d => ?_⟩
    · simp only [List.forall_mem_append, List.forall_mem_singleton]
      exact ⟨h.pairsMatch, takeFirst_pos hfirst, hdest⟩
    · by_cases hd : d = thread.taskid
      · subst hd
        simp only [TPtask.tasks_setTask_self]
        exact (h.task _).pairRecv hfirst
      · simp only [TPtask.tasks_setTask_of_ne _ _ _ hd]
        exact ((h.task d).otherRecv (Ne.symm hd)).otherPair (by omega) (Ne.symm hd)
  · rw [heq]
    refine ⟨h.pairsMatch, fun d => ?_⟩
    by_cases hd : d = thread.taskid
    · subst hd
      simp only [TPtask.tasks_setTask_self]
      exact (h.task _).queueRecv rfl hnone
    · simp only [TPtask.tasks_setTask_of_ne _ _ _ hd]
      exact (h.task d).otherRecv (Ne.symm hd)

theorem Paired.sendReached (h : Paired s) {thread : SendThread} {irecv : Bool}
    (hcall : communicSendReached s thread = some (s', irecv)) : Paired s' := by
  obtain ⟨dest, hdest, -, ⟨partner, rest, hfirst, rfl, -⟩ | ⟨hnone, rfl, -⟩⟩ :=
    communicSendReached_cases hcall
  · have hr := (h.task dest).recvTask _ ((mem_of_takeFirst hfirst).mpr (.inl rfl))
    have hmatch : matchesMess partner.mess thread :=
      takeFirst_pos (p := fun recv : RecvThread => matchesMess recv.mess thread) hfirst
    refine ⟨?_, fun d => ?_⟩
    · simp only [List.forall_mem_append, List.forall_mem_singleton]
      exact ⟨h.pairsMatch, hmatch, by omega⟩
    · by_cases hd : d = dest
      · subst hd
        simp only [TPtask.tasks_setTask_self]
        exact (h.task _).pairSend hfirst
      · simp only [TPtask.tasks_setTask_of_ne _ _ _ hd]
        exact ((h.task d).otherSend (by omega)).otherPair (by omega) (by omega)
  · refine ⟨h.pairsMatch, fun d => ?_⟩
    by_cases hd : d = dest
    · subst hd
      simp only [TPtask.tasks_setTask_self]
      exact (h.task _).queueSend hdest hnone
    · simp only [TPtask.tasks_setTask_of_ne _ _ _ hd]
      exact (h.task d).otherSend (by omega)

/-! ## Counting a channel -/

theorem Paired.mem_recvsReached (h : Paired s) {x : SendThread × RecvThread}
    (hx : x ∈ s.pairs) : x.2 ∈ s.recvsReached := by
  have hcount := (h.task x.2.taskid).recvs fun r => r = x.2
  have hpos : 0 < s.pairs.countP fun y => y.2.taskid = x.2.taskid && y.2 = x.2 :=
    List.countP_pos_iff.mpr ⟨x, hx, by simp⟩
  have hrecv : 0 < s.recvsReached.countP fun r => r.taskid = x.2.taskid && r = x.2 := by omega
  obtain ⟨r, hr, hr'⟩ := List.countP_pos_iff.mp hrecv
  simp only [Bool.and_eq_true, decide_eq_true_eq] at hr'
  exact hr'.2 ▸ hr

/-- On a channel without wildcards a pair's send and receive belong to it together. -/
theorem ofSend_iff_ofRecv {c : Channel} {x : SendThread} {r : RecvThread}
    (hmatch : matchesMess r.mess x) (hdest : x.mess.dest = r.taskid) (hwild : ¬ c.ofWildcard r) :
    c.ofSend x ↔ c.ofRecv r := by
  constructor
  · intro hx
    have hr : r.taskid = c.dst := by
      have hdst := ofSend_dst hx
      omega
    rw [matchesMess_ofSend hx hr] at hmatch
    simpa [hwild] using hmatch
  · intro hr
    obtain ⟨htask, hori, htag, hcomm⟩ := Channel.ofRecv_iff.mp hr
    obtain ⟨hsrc, htag', hcomm'⟩ := matchesMess_iff.mp hmatch
    refine Channel.ofSend_iff.mpr ⟨?_, ?_, ?_, ?_⟩ <;> omega

theorem Paired.countP_pairs (h : Paired s) {c : Channel}
    (hwild : ∀ r ∈ s.recvsReached, ¬ c.ofWildcard r) :
    s.pairs.countP (fun x => c.ofSend x.1) =
      s.pairs.countP fun x => x.2.taskid = c.dst && c.ofRecv x.2 := by
  refine List.countP_congr fun x hx => ?_
  obtain ⟨hmatch, hdest⟩ := h.pairsMatch x hx
  rw [ofSend_iff_ofRecv hmatch hdest (hwild x.2 (h.mem_recvsReached hx))]
  simp only [Channel.ofRecv, Bool.and_eq_true, decide_eq_true_eq]
  tauto

theorem Paired.balance (h : Paired s) {c : Channel}
    (hwild : ∀ r ∈ s.recvsReached, ¬ c.ofWildcard r) :
    (s.sendsReached.countP c.ofSend : Int) - s.recvsReached.countP c.ofRecv =
      (s.ptask.tasks c.dst).sendWithoutRecv.countP c.ofSend -
        (s.ptask.tasks c.dst).recvWithoutSend.countP c.ofRecv := by
  have hsends := (h.task c.dst).sends c.ofSend (fun _ => rfl) fun _ => ofSend_dst
  have hrecvs := (h.task c.dst).recvs c.ofRecv
  have hown : s.recvsReached.countP (fun r => r.taskid = c.dst && c.ofRecv r) =
      s.recvsReached.countP c.ofRecv := by
    refine List.countP_congr fun r _ => ?_
    simp only [Channel.ofRecv, Bool.and_eq_true, decide_eq_true_eq]
    tauto
  rw [h.countP_pairs hwild] at hsends
  rw [hown] at hrecvs
  omega

end

/-! ## Runs -/

inductive HandshakeCall
  | send (thread : SendThread)
  | recv (thread : RecvThread)

def HandshakeState.call (s : HandshakeState) : HandshakeCall → Option HandshakeState
  | .send thread => (communicSendReached s thread).map Prod.fst
  | .recv thread => some (communicRecvReached s thread).1

theorem Paired.call {s s' : HandshakeState} (h : Paired s) {c : HandshakeCall}
    (hcall : s.call c = some s') : Paired s' := by
  cases c with
  | send thread =>
      obtain ⟨⟨s₁, irecv⟩, hsend, rfl⟩ := Option.map_eq_some_iff.mp hcall
      exact h.sendReached hsend
  | recv thread =>
      obtain rfl := Option.some.inj hcall
      exact h.recvReached thread

/-- In every state that calls in any order reach, no queued receive matches a queued send,
and the surplus of sends over receives of a channel that has no wildcard receives is
the surplus of its queue entries. -/
theorem handshake_balance {tasksCount : Nat} {s : HandshakeState}
    {tr : List (Transition HandshakeState HandshakeCall)}
    (hrun : Run (ofPartial HandshakeState.call) (.init tasksCount) tr s) :
    (∀ d, ∀ r ∈ (s.ptask.tasks d).recvWithoutSend, ∀ x ∈ (s.ptask.tasks d).sendWithoutRecv,
      ¬ matchesMess r.mess x) ∧
    ∀ c : Channel, (∀ r ∈ s.recvsReached, ¬ c.ofWildcard r) →
      (s.sendsReached.countP c.ofSend : Int) - s.recvsReached.countP c.ofRecv =
        (s.ptask.tasks c.dst).sendWithoutRecv.countP c.ofSend -
          (s.ptask.tasks c.dst).recvWithoutSend.countP c.ofRecv := by
  have hpaired := hrun.invariant (paired_init tasksCount) fun s c s' h hcall => h.call hcall
  exact ⟨fun d => (hpaired.task d).noMatch, fun c hwild => hpaired.balance hwild⟩

def twoSends : List HandshakeCall :=
  [.send ⟨0, 0, true, 0, ⟨1, 7, 0, 64, true, false⟩⟩, .recv ⟨1, 1, false, 0, ⟨0, 7, 0, 64⟩⟩,
    .send ⟨0, 0, true, 1, ⟨1, 7, 0, 64, true, false⟩⟩]

theorem handshake_balance_twoSends :
    let s := ((exec HandshakeState.call (.init 2) twoSends).get (by rfl)).2
    (s.sendsReached.countP (Channel.ofSend ⟨0, 1, 7, 0⟩) : Int) -
        s.recvsReached.countP (Channel.ofRecv ⟨0, 1, 7, 0⟩) =
      (s.ptask.tasks 1).sendWithoutRecv.countP (Channel.ofSend ⟨0, 1, 7, 0⟩) -
        (s.ptask.tasks 1).recvWithoutSend.countP (Channel.ofRecv ⟨0, 1, 7, 0⟩) :=
  (handshake_balance (run_exec_get (by rfl))).2 ⟨0, 1, 7, 0⟩ (by decide)

end Dimemas.Model.Handshake
