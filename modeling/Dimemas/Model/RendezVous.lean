import Dimemas.Library.Assignment
import Dimemas.Model.Senders
import Mathlib.Data.List.Nodup
/-!
# Rendezvous sends and the receives that justify them

A rendezvous transfer is started on the strength of a receive. Every started transfer has a receive
that no other send was paired with as long as no rendezvous send is started before it is paired.
The actions that may break this are a SEND that finds a blocked receiver, a RECV or a WAIT that
starts the first waiting sender of its channel, and an IRECV without a source.
-/

namespace Dimemas.Model.RendezVous

open Dimemas.Library.Assignment Dimemas.Library.SearchedQueue Dimemas.Library.Transitions
open Dimemas.Model.Messages Dimemas.Model.Handshake Dimemas.Model.PointToPoint
open Dimemas.Model.Senders Dimemas.Model.Delivery

/-- Every started rendezvous send is assigned a receive that its destination has reached, that
matches it and that no other send was paired with; no receive is assigned twice. -/
def RendezVousAssigned (s : P2PState) : Prop :=
  ∃ assigned : List RecvThread, List.Subperm assigned s.handshake.recvsReached ∧
    List.Forall₂ (fun x r => (x.mess.dest = r.taskid ∧ matchesMess r.mess x) ∧
        ∀ p ∈ s.handshake.pairs, p.2 = r → duplicateThread p.1 = duplicateThread x)
      (s.started.filter fun x => x.mess.rendezVous) assigned

/-- What holds in every state of a run. -/
abbrev Kept (s : P2PState) : Prop := SendersKept s.handshake s.started s.executed

/-! ## The law and the queues -/

section

variable {s : P2PState}

theorem subperm_recvsReached {hs : HandshakeState} (h : Paired hs) :
    List.Subperm (hs.pairs.map Prod.snd) hs.recvsReached := by
  rw [List.subperm_ext_iff]
  intro r _
  have hcount := (h.task r.taskid).recvs fun r' => r' = r
  have hown : ∀ r' : RecvThread, (r'.taskid = r.taskid && r' = r) = (r' == r) := fun r' => by
    by_cases hr : r' = r <;> simp [hr]
  simp only [hown] at hcount
  rw [List.count_eq_countP, List.count_eq_countP, List.countP_map, hcount]
  exact Nat.le_add_right _ _

theorem eq_of_paired {hs : HandshakeState} {started : List SendThread} {n : Nat}
    (h : SendersKept hs started n) {p q : SendThread × RecvThread} (hp : p ∈ hs.pairs)
    (hq : q ∈ hs.pairs) (heq : p.2 = q.2) : p = q := by
  have hrecvs : hs.recvsReached.Nodup := h.recvs.imp fun hlt heq => by
    rw [heq] at hlt
    exact Nat.lt_irrefl _ hlt
  have hnodup : (hs.pairs.map Prod.snd).Nodup := by
    obtain ⟨l, hperm, hsub⟩ := subperm_recvsReached h.paired
    exact hperm.nodup_iff.mp (hrecvs.sublist hsub)
  exact List.inj_on_of_nodup_map hnodup hp hq heq

theorem paired_or_waits {hs : HandshakeState} (h : Paired hs) {r : RecvThread}
    (hr : r ∈ hs.recvsReached) :
    (∃ p ∈ hs.pairs, p.2 = r) ∨ r ∈ (hs.ptask.tasks r.taskid).recvWithoutSend := by
  have hcount := (h.task r.taskid).recvs fun r' => r' = r
  have hpos : 0 < hs.recvsReached.countP fun r' => r'.taskid = r.taskid && r' = r :=
    List.countP_pos_iff.mpr ⟨r, hr, by simp⟩
  rcases Nat.eq_zero_or_pos
      (hs.pairs.countP fun x => x.2.taskid = r.taskid && x.2 = r) with hzero | hpairs
  · obtain ⟨r', hr', heq⟩ := List.countP_pos_iff.mp
      (show 0 < (hs.ptask.tasks r.taskid).recvWithoutSend.countP fun r' => r' = r by omega)
    exact .inr (of_decide_eq_true heq ▸ hr')
  · obtain ⟨p, hp, heq⟩ := List.countP_pos_iff.mp hpairs
    simp only [Bool.and_eq_true, decide_eq_true_eq] at heq
    exact .inl ⟨p, hp, heq.2⟩

theorem not_mem_senders_of_started (h : Kept s) {x y : SendThread} (hx : x ∈ s.started)
    (hy : y ∈ senders s.handshake x.taskid) : duplicateThread y ≠ duplicateThread x := by
  intro heq
  have hone := h.countP_reached_le (duplicateThread x)
  have hsplit := h.countP_started (duplicateThread x)
  have hstarted : 0 < s.started.countP fun z => duplicateThread z = duplicateThread x :=
    List.countP_pos_iff.mpr ⟨x, hx, by simp⟩
  have hwaits : 0 < (senders s.handshake (duplicateThread x).taskid).countP
      fun z => duplicateThread z = duplicateThread x :=
    List.countP_pos_iff.mpr ⟨y, hy, decide_eq_true heq⟩
  omega

theorem not_paired_of_unpaired (h : Kept s) {d : Nat} {x : SendThread}
    (hx : x ∈ unpaired s.handshake d) {p : SendThread × RecvThread} (hp : p ∈ s.handshake.pairs) :
    duplicateThread p.1 ≠ x := by
  intro heq
  have hcopy := h.copy_of_unpaired hx
  have hone := h.countP_reached_le x
  have hpairs : 0 < s.handshake.pairs.countP fun p => duplicateThread p.1 = x :=
    List.countP_pos_iff.mpr ⟨p, hp, decide_eq_true heq⟩
  have hunpaired : 0 < (unpaired s.handshake d).countP fun y => duplicateThread y = x :=
    List.countP_pos_iff.mpr ⟨x, hx, decide_eq_true hcopy⟩
  have hsplit := h.countP_paired (h.dest_of_unpaired hx)
  omega

theorem countP_reached_of_started (h : Kept s) {x : SendThread} (hx : x ∈ s.started) :
    s.started.countP (fun y => duplicateThread y = duplicateThread x) ≤
        s.handshake.sendsReached.countP (fun y => duplicateThread y = duplicateThread x) ∧
      0 ≤ x.mess.dest := by
  have hsplit := h.countP_started (duplicateThread x)
  have hstarted : 0 < s.started.countP fun y => duplicateThread y = duplicateThread x :=
    List.countP_pos_iff.mpr ⟨x, hx, by simp⟩
  obtain ⟨y, hy, hyx⟩ := List.countP_pos_iff.mp
    (show 0 < s.handshake.sendsReached.countP fun y => duplicateThread y = duplicateThread x by
      omega)
  obtain ⟨-, -, hmess⟩ := eq_of_duplicateThread (of_decide_eq_true hyx)
  exact ⟨by omega, hmess ▸ (h.sendsBefore y hy).2⟩

theorem countP_started_le_pairs (h : Kept s) (hun : Unstarted s.handshake) (z : SendThread) :
    ((s.started.filter fun x => x.mess.rendezVous).countP fun x => duplicateThread x = z) ≤
      s.handshake.pairs.countP fun p => duplicateThread p.1 = z := by
  rcases Nat.eq_zero_or_pos ((s.started.filter fun x => x.mess.rendezVous).countP
    fun x => duplicateThread x = z) with hzero | hpos
  · omega
  · obtain ⟨x, hx, hxz⟩ := List.countP_pos_iff.mp hpos
    obtain ⟨hx, hrdv⟩ := List.mem_filter.mp hx
    obtain rfl : duplicateThread x = z := of_decide_eq_true hxz
    have hle : (s.started.filter fun x => x.mess.rendezVous).countP
        (fun y => duplicateThread y = duplicateThread x) ≤
          s.started.countP fun y => duplicateThread y = duplicateThread x :=
      List.filter_sublist.countP_le
    obtain ⟨hreached, hdest⟩ := countP_reached_of_started h hx
    have hsplit := h.countP_paired (z := duplicateThread x) (Int.toNat_of_nonneg hdest).symm
    have hnone : (unpaired s.handshake x.mess.dest.toNat).countP
        (fun y => duplicateThread y = duplicateThread x) = 0 := by
      refine List.countP_eq_zero.mpr fun y hy hyx => ?_
      have hyx : y = duplicateThread x :=
        (h.copy_of_unpaired hy).symm.trans (of_decide_eq_true hyx)
      obtain ⟨w, hw, hwx⟩ := hun _ y hy (hyx ▸ hrdv)
      rw [hyx] at hw hwx
      exact not_mem_senders_of_started h hx hw hwx
    omega

/-- If no rendezvous send is started before it is paired, the transfers are assigned the receives
that they are paired with. -/
theorem RendezVousAssigned.of_unstarted (h : Kept s) (hun : Unstarted s.handshake) :
    RendezVousAssigned s := by
  obtain ⟨zs, hsub, hforall⟩ := exists_assignment duplicateThread
    (fun p : SendThread × RecvThread => duplicateThread p.1) (countP_started_le_pairs h hun)
  obtain ⟨l, hperm, hl⟩ := hsub
  refine ⟨zs.map Prod.snd, .trans ⟨l.map Prod.snd, hperm.map _, hl.map _⟩
    (subperm_recvsReached h.paired), ?_⟩
  rw [List.forall₂_map_right_iff]
  refine hforall.imp fun x p hrel => ?_
  obtain ⟨-, hp, hcopy⟩ := hrel
  obtain ⟨hmatch, hdest⟩ := h.paired.pairsMatch p hp
  obtain ⟨htask, -, hmess⟩ := eq_of_duplicateThread hcopy
  refine ⟨⟨hmess ▸ hdest, ?_⟩, fun q hq hqp => ?_⟩
  · rw [matchesMess_iff] at hmatch ⊢
    rwa [htask, hmess]
  · rw [eq_of_paired h hq hp hqp, hcopy]

/-- An assignment leaves no rendezvous send that is started before it is paired. -/
theorem RendezVousAssigned.unstarted (h : Kept s) (hassigned : RendezVousAssigned s) :
    Unstarted s.handshake := by
  intro d x hx hrdv
  by_contra hno
  obtain ⟨assigned, hsub, hforall⟩ := hassigned
  have hcopy := h.copy_of_unpaired hx
  obtain ⟨y, hy, hyx⟩ := List.mem_map.mp ((h.paired.task d).copies.subset hx)
  have hreached : 0 < s.handshake.sendsReached.countP fun z => duplicateThread z = x :=
    List.countP_pos_iff.mpr ⟨y, hy, decide_eq_true hyx⟩
  have hwaits : (senders s.handshake x.taskid).countP (fun z => duplicateThread z = x) = 0 :=
    List.countP_eq_zero.mpr fun z hz hzx => hno ⟨z, hz, of_decide_eq_true hzx⟩
  have hsplit := h.countP_started x
  obtain ⟨w, hw, hwx⟩ := List.countP_pos_iff.mp
    (show 0 < s.started.countP fun z => duplicateThread z = x by omega)
  have hwx : duplicateThread w = x := of_decide_eq_true hwx
  obtain ⟨htask, -, hmess⟩ := eq_of_duplicateThread (hwx.trans hcopy.symm)
  obtain ⟨r, hr, ⟨hdest, hmatch⟩, hpairs⟩ := exists_of_forall₂ hforall
    (List.mem_filter.mpr ⟨hw, by rw [hmess]; exact hrdv⟩)
  rcases paired_or_waits h.paired (hsub.subset hr) with ⟨p, hp, hpr⟩ | hwaiting
  · exact not_paired_of_unpaired h hx hp ((hpairs p hp hpr).trans hwx)
  · have hd : r.taskid = d := by
      have hxdest := h.dest_of_unpaired hx
      rw [hmess] at hdest
      omega
    rw [hd] at hwaiting
    apply (h.paired.task d).noMatch r hwaiting x hx
    rw [matchesMess_iff] at hmatch ⊢
    rwa [← htask, ← hmess]

theorem rendezVousAssigned_iff (h : Kept s) :
    RendezVousAssigned s ↔ Unstarted s.handshake :=
  ⟨fun hassigned => hassigned.unstarted h, fun hun => .of_unstarted h hun⟩

end

/-! ## One step -/

/-- When an action starts no rendezvous send before it is paired. The cases are: a rendezvous SEND
that is not paired but finds a blocked receiver, a RECV that is paired with an eager send, a WAIT,
and an IRECV without a source that is paired with one send and starts another. A RECV and a WAIT
start the first waiting sender of their channel when their message has not arrived. -/
def ActionPaired (s : P2PState) (t : Nat) : P2PAction → Prop
  | .send mess =>
      mess.rendezVous →
        takeFirst (fun r => matchesMess r.mess (s.sendThread t mess))
          (s.task mess.dest.toNat).recvWithoutSend = none →
        locateReceiver (s.task mess.dest.toNat).recv (s.sendThread t mess) = none
  | .recv mess =>
      takeFirst (matchesMess mess) (s.task (s.threads t).taskid).messRecv = none →
        ∀ z ∈ (takeFirst (matchesMess mess)
            (s.task (s.threads t).taskid).sendWithoutRecv).map Prod.fst,
          z.mess.rendezVous = false →
            ∀ y ∈ (takeFirst (startMatches (s.threads t).taskid mess)
                (s.task mess.ori.toNat).send).map Prod.fst,
              duplicateThread y ∉ (s.task (s.threads t).taskid).sendWithoutRecv
  | .wait mess =>
      takeFirst (matchesMess mess) (s.task (s.threads t).taskid).messRecv = none →
        ∀ y ∈ (takeFirst (startMatches (s.threads t).taskid mess)
            (s.task mess.ori.toNat).send).map Prod.fst,
          duplicateThread y ∉ (s.task (s.threads t).taskid).sendWithoutRecv
  | .irecv mess =>
      mess.ori = -1 →
        ∀ z ∈ (takeFirst (matchesMess mess)
            (s.task (s.threads t).taskid).sendWithoutRecv).map Prod.fst,
          z.mess.rendezVous →
            ∀ y ∈ wildcardSender s.handshake.ptask (s.threads t).taskid mess,
              duplicateThread y = z ∨
                duplicateThread y ∉ (s.task y.mess.dest.toNat).sendWithoutRecv

instance (s : P2PState) (t : Nat) : (action : P2PAction) → Decidable (ActionPaired s t action)
  | .send _ => inferInstanceAs (Decidable (_ → _ → _))
  | .recv _ => inferInstanceAs (Decidable (_ → ∀ _ ∈ _, _ → ∀ _ ∈ _, _))
  | .wait _ => inferInstanceAs (Decidable (_ → ∀ _ ∈ _, _))
  | .irecv _ => inferInstanceAs (Decidable (_ → ∀ _ ∈ _, _ → ∀ _ ∈ _, _))

def StartsPaired (s : P2PState) : P2PLabel → Prop
  | .exec t => ∀ action ∈ (s.threads t).readyAction, ActionPaired s t action
  | _ => True

instance (s : P2PState) : (l : P2PLabel) → Decidable (StartsPaired s l)
  | .exec _ => inferInstanceAs (Decidable (∀ _ ∈ _, _))
  | .arrive _ => inferInstanceAs (Decidable True)
  | .endBusyWait _ => inferInstanceAs (Decidable True)

section

variable {s s' : P2PState}

theorem mem_map_fst {α β : Type} {o : Option (α × β)} {x : α} {rest : β}
    (h : o = some (x, rest)) {y : α} : y ∈ o.map Prod.fst ↔ y = x := by
  rw [h, Option.map_some, Option.mem_some_iff, eq_comm]

/-- A waiting sender `y` is taken out of the queue of the task `k` and started. -/
structure Starts (s s' : P2PState) (k : Nat) (y : SendThread) (rest : List SendThread) : Prop where
  perm : (y :: rest).Perm (senders s.handshake k)
  sub : rest.Sublist (senders s.handshake k)
  handshake : s'.handshake = withSenders s.handshake k rest
  executed : s'.executed = s.executed
  started : ∃ z, s'.started = s.started ++ [z] ∧ duplicateThread z = duplicateThread y

theorem starts_startSender {k : Nat} {y : SendThread} {rest : List SendThread}
    (hperm : (y :: rest).Perm (s.task k).send) (hsub : rest.Sublist (s.task k).send) :
    Starts s (startSender (s.setTask k { s.task k with send := rest }) y) k y rest := by
  unfold startSender
  split
  · exact ⟨hperm, hsub, rfl, rfl, duplicateThread y, rfl, rfl⟩
  · exact ⟨hperm, hsub, rfl, rfl, y, rfl, rfl⟩

theorem Starts.kept {k n : Nat} {y : SendThread} {rest : List SendThread}
    (hstarts : Starts s s' k y rest) (h : SendersKept s.handshake s.started n) :
    SendersKept s'.handshake s'.started n := by
  obtain ⟨z, hstarted, hcopy⟩ := hstarts.started
  rw [hstarts.handshake, hstarted]
  exact h.start hstarts.perm hstarts.sub hcopy

theorem Starts.unstarted_iff {k n : Nat} {y : SendThread} {rest : List SendThread}
    (hstarts : Starts s s' k y rest) (h : SendersKept s.handshake s.started n)
    (hun : Unstarted s.handshake) :
    Unstarted s'.handshake ↔ duplicateThread y ∉ unpaired s.handshake y.mess.dest.toNat := by
  rw [hstarts.handshake]
  exact hun.start_iff h hstarts.perm

/-- A receive that names its source starts the first waiting sender of its channel. -/
theorem startCommunication_specific {src taskid : Nat} {mess : TRecv} (hori : mess.ori = src)
    (hstart : startCommunication s taskid mess = some s') :
    (takeFirst (startMatches taskid mess) (s.task src).send = none ∧ s' = s) ∨
      ∃ y rest, takeFirst (startMatches taskid mess) (s.task src).send = some (y, rest) ∧
        Starts s s' src y rest := by
  rw [startCommunication, if_pos (by omega)] at hstart
  obtain ⟨src', hloc, hstart⟩ := Option.bind_eq_some_iff.mp hstart
  obtain rfl : src' = src := by
    have heq := (TPtask.locateTask_eq_some.mp hloc).1
    omega
  cases hfirst : takeFirst (startMatches taskid mess) (s.task src').send with
  | none =>
      simp only [hfirst, Option.some.injEq] at hstart
      exact .inl ⟨rfl, hstart.symm⟩
  | some p =>
      obtain ⟨y, rest⟩ := p
      simp only [hfirst, Option.some.injEq] at hstart
      refine .inr ⟨y, rest, rfl, ?_⟩
      rw [← hstart]
      exact starts_startSender (perm_takeFirst hfirst) (sublist_takeFirst hfirst)

theorem wildcardPass_mem {taskid : Nat} {mess : TRecv} {trobat : Bool} {q : List SendThread}
    {y : SendThread} (h : (wildcardPass taskid mess trobat q).2 = some y) : y ∈ q := by
  unfold wildcardPass at h
  split at h
  · exact List.mem_of_head? h
  · split at h
    · cases h
    · next z rest hdrop =>
        have hsub : y ∈ q.dropWhile fun sender => !startMatches taskid mess sender :=
          hdrop ▸ List.mem_cons_of_mem z (List.mem_of_head? h)
        exact (List.dropWhile_sublist _).mem hsub

/-- The wildcard search ends in the queue of the last task. -/
theorem wildcardSender_mem {p : TPtask} {taskid : Nat} {mess : TRecv} {y : SendThread}
    (h : wildcardSender p taskid mess = some y) : y ∈ (p.tasks (p.tasksCount - 1)).send := by
  unfold wildcardSender at h
  cases hcount : p.tasksCount with
  | zero => simp [hcount] at h
  | succ n =>
      rw [hcount, List.range_succ, List.foldl_append, List.foldl_cons, List.foldl_nil] at h
      exact wildcardPass_mem h

/-- A receive without a source starts whatever sender the wildcard search ends at. -/
theorem startCommunication_wildcard {taskid : Nat} {mess : TRecv} (hori : mess.ori = -1)
    (hstart : startCommunication s taskid mess = some s') :
    (wildcardSender s.handshake.ptask taskid mess = none ∧ s' = s) ∨
      ∃ k y rest, wildcardSender s.handshake.ptask taskid mess = some y ∧
        Starts s s' k y rest := by
  rw [startCommunication, if_neg (by simp [hori])] at hstart
  cases hsender : wildcardSender s.handshake.ptask taskid mess with
  | none =>
      simp only [hsender, Option.some.injEq] at hstart
      exact .inl ⟨rfl, hstart.symm⟩
  | some y =>
      simp only [hsender, Option.some.injEq] at hstart
      refine .inr ⟨s.handshake.ptask.tasksCount - 1, y,
        (s.task (s.handshake.ptask.tasksCount - 1)).send.erase y, rfl, ?_⟩
      rw [← hstart]
      exact starts_startSender (List.perm_cons_erase (wildcardSender_mem hsender)).symm
        List.erase_sublist

theorem wildcardSender_recvReached (hs : HandshakeState) (r : RecvThread) (taskid : Nat)
    (mess : TRecv) :
    wildcardSender (communicRecvReached hs r).1.ptask taskid mess =
      wildcardSender hs.ptask taskid mess := by
  have hcount : (communicRecvReached hs r).1.ptask.tasksCount = hs.ptask.tasksCount := by
    rcases communicRecvReached_cases hs r with ⟨x, rest, -, heq⟩ | ⟨-, heq⟩ <;> simp [heq]
  have hsend := senders_recvReached hs r
  unfold wildcardSender
  rw [hcount]
  congr 1
  apply congrArg (fun f => List.foldl f (false, none) (List.range hs.ptask.tasksCount))
  funext acc k
  exact congrArg (wildcardPass taskid mess acc.1) (congrFun hsend k)

theorem matches_of_startMatches {n src taskid : Nat} {mess : TRecv} {y : SendThread}
    (h : SendersKept s.handshake s.started n) (hori : mess.ori = src)
    (hy : y ∈ senders s.handshake src) (hstart : startMatches taskid mess y) :
    matchesMess mess y ∧ y.mess.dest = taskid := by
  have htask := (h.waiting src y hy).1
  have hdest := (h.before_of_waiting hy).2
  have hne : y.mess.dest ≠ -1 := by omega
  simp only [startMatches, Bool.and_eq_true, Bool.or_eq_true, decide_eq_true_eq, hne,
    or_false] at hstart
  refine ⟨matchesMess_iff.mpr ⟨.inl (by rw [hori, htask]), hstart.1.1.symm, hstart.1.2.symm⟩,
    hstart.2⟩

/-- If a receive is paired with a rendezvous send, the first waiting sender of its channel is this
one, or was paired before. -/
theorem first_is_paired {n src taskid : Nat} {mess : TRecv} {y z : SendThread}
    {rest rest' : List SendThread} (h : SendersKept s.handshake s.started n)
    (hun : Unstarted s.handshake) (hori : mess.ori = src)
    (hz : takeFirst (matchesMess mess) (unpaired s.handshake taskid) = some (z, rest))
    (hrdv : z.mess.rendezVous)
    (hy : takeFirst (startMatches taskid mess) (senders s.handshake src) = some (y, rest')) :
    duplicateThread y ∉ unpaired s.handshake taskid ∨ duplicateThread y = z := by
  have hzmem : z ∈ unpaired s.handshake taskid := (mem_of_takeFirst hz).mpr (.inl rfl)
  have hymem : y ∈ senders s.handshake src := (mem_of_takeFirst hy).mpr (.inl rfl)
  obtain ⟨hzori, hztag, hzcomm⟩ := matchesMess_iff.mp (takeFirst_pos hz)
  have hztask : z.taskid = src := by omega
  obtain ⟨w, hw, hwz⟩ := hun taskid z hzmem hrdv
  rw [hztask] at hw
  obtain ⟨-, hserial, hmess⟩ := eq_of_duplicateThread (hwz.trans (h.copy_of_unpaired hzmem).symm)
  have hwstart : startMatches taskid mess w := by
    simp [startMatches, hmess, hztag, hzcomm, h.dest_of_unpaired hzmem]
  rcases first_of_takeFirst hy (h.senders_sorted src) hw hwstart with rfl | hlt
  · exact .inr hwz
  · refine .inl fun hdup => ?_
    have hmatch := (matches_of_startMatches h hori hymem (takeFirst_pos hy)).1
    rcases first_of_takeFirst hz (h.unpaired_sorted taskid) hdup hmatch with heq | hgt
    · have hsame : y.serial = z.serial := by
        rw [← heq]
        rfl
      omega
    · have hgt : z.serial < y.serial := hgt
      omega

theorem unpaired_of_recvReached {n src : Nat} {r : RecvThread} {y : SendThread}
    {rest : List SendThread} {s₁ : P2PState}
    (h : SendersKept s.handshake s.started n) (hun : Unstarted s.handshake)
    (hs₁ : s₁ = { s with handshake := (communicRecvReached s.handshake r).1 })
    (hori : r.mess.ori = src)
    (hy : takeFirst (startMatches r.taskid r.mess) (senders s.handshake src) = some (y, rest)) :
    duplicateThread y ∉ unpaired s₁.handshake y.mess.dest.toNat ↔
      ∀ z ∈ (takeFirst (matchesMess r.mess) (unpaired s.handshake r.taskid)).map Prod.fst,
        z.mess.rendezVous = false → duplicateThread y ∉ unpaired s.handshake r.taskid := by
  have hymem : y ∈ senders s.handshake src := (mem_of_takeFirst hy).mpr (.inl rfl)
  obtain ⟨hmatch, hdest⟩ := matches_of_startMatches h hori hymem (takeFirst_pos hy)
  have hnat : y.mess.dest.toNat = r.taskid := by omega
  rw [hnat, hs₁]
  rcases unpaired_recvReached h r with ⟨z, rest', hz, -, hmem⟩ | ⟨hnone, -, heq⟩
  · simp only [hmem, mem_map_fst hz, forall_eq]
    cases hrdv : z.mess.rendezVous with
    | true =>
        have hfirst := first_is_paired h hun hori hz hrdv hy
        simp only [reduceCtorEq, false_implies, iff_true]
        tauto
    | false =>
        have hne : duplicateThread y ≠ z := by
          rintro rfl
          have hyrdv : y.mess.rendezVous = true := (h.waiting src y hymem).2
          exact Bool.noConfusion (hyrdv.symm.trans hrdv)
        simp only [hne, ne_eq, not_false_eq_true, and_true, true_implies]
  · simp only [heq, hnone, Option.map_none, Option.not_mem_none, false_implies, implies_true,
      iff_true]
    exact fun hdup => takeFirst_eq_none.mp hnone _ hdup hmatch

end

/-! ## The actions -/

section

variable {s s' : P2PState} {n : Nat}

/-- `hs'` differs from `hs` in the queues `recv` and `mess_recv` only. -/
structure SameSenders (hs hs' : HandshakeState) : Prop where
  senders : senders hs' = senders hs
  unpaired : unpaired hs' = unpaired hs
  recvWithoutSend : ∀ d, (hs'.ptask.tasks d).recvWithoutSend = (hs.ptask.tasks d).recvWithoutSend
  sends : hs'.sendsReached = hs.sendsReached
  recvs : hs'.recvsReached = hs.recvsReached
  pairs : hs'.pairs = hs.pairs

theorem SameSenders.refl (hs : HandshakeState) : SameSenders hs hs :=
  ⟨rfl, rfl, fun _ => rfl, rfl, rfl, rfl⟩

theorem SameSenders.kept {hs hs' : HandshakeState} {started : List SendThread}
    (hsame : SameSenders hs hs') (h : SendersKept hs started n) : SendersKept hs' started n := by
  have hpaired : Paired hs' := by
    refine ⟨hsame.pairs ▸ h.paired.pairsMatch, fun d => ?_⟩
    have hd : (hs'.ptask.tasks d).sendWithoutRecv = (hs.ptask.tasks d).sendWithoutRecv :=
      congrFun hsame.unpaired d
    rw [hsame.sends, hsame.recvs, hsame.pairs, hd, hsame.recvWithoutSend]
    exact h.paired.task d
  refine ⟨hpaired, ?_, ?_, ?_, ?_, ?_, ?_, ?_⟩
  · rw [hsame.sends, hsame.senders]
    exact h.balance
  · rw [hsame.senders]
    exact h.waiting
  · rw [hsame.sends, hsame.senders]
    exact h.copies
  · exact hsame.sends ▸ h.sends
  · exact hsame.recvs ▸ h.recvs
  · exact hsame.sends ▸ h.sendsBefore
  · exact hsame.recvs ▸ h.recvsBefore

theorem SameSenders.unstarted_iff {hs hs' : HandshakeState} (hsame : SameSenders hs hs') :
    Unstarted hs' ↔ Unstarted hs := by
  unfold Unstarted
  rw [hsame.senders, hsame.unpaired]

/-- Replacing the queues `recv` and `mess_recv` of a task. -/
theorem sameSenders_setTask (s : P2PState) (k : Nat) (t : TTask)
    (hsend : t.send = (s.task k).send) (hswr : t.sendWithoutRecv = (s.task k).sendWithoutRecv)
    (hrws : t.recvWithoutSend = (s.task k).recvWithoutSend) :
    SameSenders s.handshake (s.setTask k t).handshake := by
  refine ⟨funext fun d => ?_, funext fun d => ?_, fun d => ?_, rfl, rfl, rfl⟩
  · simp only [senders, P2PState.setTask, TPtask.tasks_setTask]
    split
    · next hd => rw [hsend, hd]; rfl
    · rfl
  · simp only [unpaired, P2PState.setTask, TPtask.tasks_setTask]
    split
    · next hd => rw [hswr, hd]; rfl
    · rfl
  · simp only [P2PState.setTask, TPtask.tasks_setTask]
    split
    · next hd => rw [hrws, hd]; rfl
    · rfl

theorem start_step (h : SendersKept s.handshake s.started n) {src taskid : Nat} {mess : TRecv}
    (hori : mess.ori = src) (hstart : startCommunication s taskid mess = some s') :
    SendersKept s'.handshake s'.started n ∧ (Unstarted s.handshake → (Unstarted s'.handshake ↔
      ∀ y ∈ (takeFirst (startMatches taskid mess) (s.task src).send).map Prod.fst,
        duplicateThread y ∉ unpaired s.handshake y.mess.dest.toNat)) := by
  rcases startCommunication_specific hori hstart with ⟨hnone, rfl⟩ | ⟨y, rest, hfirst, hstarts⟩
  · refine ⟨h, fun hun => iff_of_true hun ?_⟩
    simp [hnone]
  · refine ⟨hstarts.kept h, fun hun => ?_⟩
    rw [hstarts.unstarted_iff h hun]
    simp only [mem_map_fst hfirst, forall_eq]

theorem awaitMessage_cases {busywait : Nat → Bool} {thread : RecvThread}
    (hawait : awaitMessage busywait s thread = some s') :
    ∃ src : Nat, thread.mess.ori = src ∧
      ((takeFirst (matchesMess thread.mess) (s.task thread.taskid).messRecv ≠ none ∧
          SameSenders s.handshake s'.handshake ∧ s'.started = s.started) ∨
        (takeFirst (matchesMess thread.mess) (s.task thread.taskid).messRecv = none ∧
          ∃ s₁, startCommunication s thread.taskid thread.mess = some s₁ ∧
            SameSenders s₁.handshake s'.handshake ∧ s'.started = s₁.started)) := by
  obtain ⟨src, hloc, hawait⟩ := Option.bind_eq_some_iff.mp hawait
  refine ⟨src, (TPtask.locateTask_eq_some.mp hloc).1, ?_⟩
  simp only at hawait
  split at hawait
  · next source rest hfirst =>
      obtain rfl := Option.some.inj hawait
      exact .inl ⟨by simp [hfirst], sameSenders_setTask s thread.taskid
        { s.task thread.taskid with messRecv := rest } rfl rfl rfl, rfl⟩
  · next hnone =>
      obtain ⟨s₁, hstart, hawait⟩ := Option.bind_eq_some_iff.mp hawait
      refine .inr ⟨hnone, s₁, hstart, ?_⟩
      split at hawait
      · obtain rfl := Option.some.inj hawait
        exact ⟨.refl _, rfl⟩
      · obtain rfl := Option.some.inj hawait
        exact ⟨sameSenders_setTask s₁ thread.taskid
          { s₁.task thread.taskid with recv := (s₁.task thread.taskid).recv ++ [thread] }
          rfl rfl rfl, rfl⟩

theorem wait_step (h : Kept s) {busywait : Nat → Bool} {t : Nat} {mess : TRecv}
    (hwait : communicWait busywait s t mess = some s') :
    SendersKept s'.handshake s'.started (s.executed + 1) ∧
      (Unstarted s.handshake → (Unstarted s'.handshake ↔
        (takeFirst (matchesMess mess) (s.task (s.threads t).taskid).messRecv = none →
          ∀ y ∈ (takeFirst (startMatches (s.threads t).taskid mess)
              (s.task mess.ori.toNat).send).map Prod.fst,
            duplicateThread y ∉ (s.task (s.threads t).taskid).sendWithoutRecv))) := by
  obtain ⟨src, hori, hcases⟩ := awaitMessage_cases hwait
  change mess.ori = src at hori
  have hsrc : mess.ori.toNat = src := by omega
  rw [hsrc]
  have hnext := h.mono (Nat.le_succ s.executed)
  rcases hcases with ⟨hsome, hsame, hstarted⟩ | ⟨hnone, s₁, hstart, hsame, hstarted⟩
  · rw [hstarted, hsame.unstarted_iff]
    exact ⟨hsame.kept hnext, fun hun => iff_of_true hun fun hnone => absurd hnone hsome⟩
  · obtain ⟨hkept, hiff⟩ := start_step hnext hori hstart
    rw [hstarted, hsame.unstarted_iff]
    refine ⟨hsame.kept hkept, fun hun => (hiff hun).trans ?_⟩
    refine ⟨fun hall _ y hy => ?_, fun hall y hy => ?_⟩
    all_goals
      obtain ⟨⟨y', rest⟩, hfirst, rfl⟩ := Option.map_eq_some_iff.mp hy
      have hmem := (mem_of_takeFirst hfirst).mpr (.inl rfl)
      obtain ⟨-, hdest⟩ := matches_of_startMatches h hori hmem (takeFirst_pos hfirst)
      have hnat : y'.mess.dest.toNat = (s.threads t).taskid := by
        rw [hdest]
        rfl
    · exact hnat ▸ hall y' hy
    · rw [hnat]
      exact hall hnone y' hy

theorem recv_step (h : Kept s) {busywait : Nat → Bool} {t : Nat} {mess : TRecv}
    (hrecv : communicRecv busywait s t mess = some s') :
    SendersKept s'.handshake s'.started (s.executed + 1) ∧
      (Unstarted s.handshake → (Unstarted s'.handshake ↔
        (takeFirst (matchesMess mess) (s.task (s.threads t).taskid).messRecv = none →
          ∀ z ∈ (takeFirst (matchesMess mess)
              (s.task (s.threads t).taskid).sendWithoutRecv).map Prod.fst,
            z.mess.rendezVous = false →
              ∀ y ∈ (takeFirst (startMatches (s.threads t).taskid mess)
                  (s.task mess.ori.toNat).send).map Prod.fst,
                duplicateThread y ∉ (s.task (s.threads t).taskid).sendWithoutRecv))) := by
  let r := s.recvThread t false mess
  let s₁ : P2PState := { s with handshake := (communicRecvReached s.handshake r).1 }
  have hawait : awaitMessage busywait s₁ r = some s' := hrecv
  have hkept₁ : SendersKept s₁.handshake s₁.started (s.executed + 1) := h.recvReached rfl
  have hmail : (s₁.task r.taskid).messRecv = (s.task r.taskid).messRecv :=
    congrArg Mailbox.messRecv (sameMail_recvReached r r.taskid)
  have hsend : ∀ k, (s₁.task k).send = (s.task k).send :=
    fun k => congrFun (senders_recvReached s.handshake r) k
  obtain ⟨src, hori, hcases⟩ := awaitMessage_cases hawait
  change mess.ori = src at hori
  have hsrc : mess.ori.toNat = src := by omega
  rw [hsrc]
  rw [hmail] at hcases
  rcases hcases with ⟨hsome, hsame, hstarted⟩ | ⟨hnone, s₂, hstart, hsame, hstarted⟩
  · rw [hstarted, hsame.unstarted_iff]
    exact ⟨hsame.kept hkept₁, fun hun =>
      iff_of_true (hun.recvReached h r) fun hnone => absurd hnone hsome⟩
  · obtain ⟨hkept, hiff⟩ := start_step hkept₁ hori hstart
    rw [hstarted, hsame.unstarted_iff]
    refine ⟨hsame.kept hkept, fun hun => (hiff (hun.recvReached h r)).trans ?_⟩
    rw [hsend]
    have heach : ∀ y ∈ (takeFirst (startMatches r.taskid mess) (s.task src).send).map Prod.fst,
        (duplicateThread y ∉ unpaired s₁.handshake y.mess.dest.toNat ↔
          ∀ z ∈ (takeFirst (matchesMess mess) (s.task r.taskid).sendWithoutRecv).map Prod.fst,
            z.mess.rendezVous = false →
              duplicateThread y ∉ (s.task r.taskid).sendWithoutRecv) := by
      intro y hy
      obtain ⟨⟨y', rest⟩, hfirst, rfl⟩ := Option.map_eq_some_iff.mp hy
      exact unpaired_of_recvReached (r := r) h hun rfl hori hfirst
    constructor
    · exact fun hall _ z hz hrdv y hy => (heach y hy).mp (hall y hy) z hz hrdv
    · exact fun hall y hy => (heach y hy).mpr fun z hz hrdv => hall hnone z hz hrdv y hy

theorem irecv_step (h : Kept s) {t : Nat} {mess : TRecv}
    (hirecv : communicIrecv s t mess = some s') :
    SendersKept s'.handshake s'.started (s.executed + 1) ∧
      (Unstarted s.handshake → (Unstarted s'.handshake ↔ (mess.ori = -1 →
        ∀ z ∈ (takeFirst (matchesMess mess)
            (s.task (s.threads t).taskid).sendWithoutRecv).map Prod.fst,
          z.mess.rendezVous →
            ∀ y ∈ wildcardSender s.handshake.ptask (s.threads t).taskid mess,
              duplicateThread y = z ∨
                duplicateThread y ∉ (s.task y.mess.dest.toNat).sendWithoutRecv))) := by
  let r := s.recvThread t true mess
  let s₁ : P2PState := { s with handshake := (communicRecvReached s.handshake r).1 }
  have hkept₁ : SendersKept s₁.handshake s₁.started (s.executed + 1) := h.recvReached rfl
  have hcall : (if (communicRecvReached s.handshake r).2 then
      (startCommunication s₁ (s.threads t).taskid mess).map fun s => s.advance t
    else some (s₁.advance t)) = some s' := hirecv
  rcases unpaired_recvReached h r with ⟨z, rest, hz, hsync, hmem⟩ | ⟨hnone, hsync, -⟩
  · have hz' : takeFirst (matchesMess mess) (s.task (s.threads t).taskid).sendWithoutRecv =
        some (z, rest) := hz
    simp only [mem_map_fst hz', forall_eq]
    rw [hsync] at hcall
    split at hcall
    · next hrdv =>
        obtain ⟨s₂, hstart, rfl⟩ := Option.map_eq_some_iff.mp hcall
        change SendersKept s₂.handshake s₂.started _ ∧
          (_ → (Unstarted s₂.handshake ↔ _))
        by_cases hori : mess.ori = -1
        · rcases startCommunication_wildcard hori hstart with
            ⟨hsender, rfl⟩ | ⟨k, y, queue, hsender, hstarts⟩
          · rw [wildcardSender_recvReached] at hsender
            refine ⟨hkept₁, fun hun => iff_of_true (hun.recvReached h r) ?_⟩
            simp [hsender]
          · rw [wildcardSender_recvReached] at hsender
            refine ⟨hstarts.kept hkept₁, fun hun => ?_⟩
            rw [hstarts.unstarted_iff hkept₁ (hun.recvReached h r)]
            simp only [hori, hrdv, hsender, true_implies, Option.mem_some_iff, forall_eq']
            change ¬ (_ ∈ unpaired (communicRecvReached s.handshake r).1 _) ↔ _
            rw [hmem]
            change ¬ (_ ∈ (s.task _).sendWithoutRecv ∧ _) ↔ _
            tauto
        · have hloc : ∃ src : Nat, mess.ori = src := by
            rw [startCommunication, if_pos hori] at hstart
            obtain ⟨src, hloc, -⟩ := Option.bind_eq_some_iff.mp hstart
            exact ⟨src, (TPtask.locateTask_eq_some.mp hloc).1⟩
          obtain ⟨src, hsrc⟩ := hloc
          obtain ⟨hkept, hiff⟩ := start_step hkept₁ hsrc hstart
          refine ⟨hkept, fun hun => (hiff (hun.recvReached h r)).trans ?_⟩
          refine iff_of_true (fun y hy => ?_) fun hwild => absurd hwild hori
          obtain ⟨⟨y', queue⟩, hfirst, rfl⟩ := Option.map_eq_some_iff.mp hy
          have hfirst : takeFirst (startMatches r.taskid r.mess) (senders s.handshake src) =
              some (y', queue) := by
            rw [← senders_recvReached s.handshake r]
            exact hfirst
          refine (unpaired_of_recvReached (r := r) h hun rfl hsrc hfirst).mpr ?_
          intro z' hz'' heager
          rw [mem_map_fst hz] at hz''
          rw [hz'', hrdv] at heager
          cases heager
    · next hrdv =>
        obtain rfl := Option.some.inj hcall
        refine ⟨hkept₁, fun hun => iff_of_true (hun.recvReached h r) ?_⟩
        exact fun _ hrdv' => absurd hrdv' hrdv
  · rw [hsync] at hcall
    obtain rfl := Option.some.inj hcall
    have hnone' : takeFirst (matchesMess mess)
        (s.task (s.threads t).taskid).sendWithoutRecv = none := hnone
    refine ⟨hkept₁, fun hun => iff_of_true (hun.recvReached h r) ?_⟩
    simp [hnone']

theorem send_step (h : Kept s) {t : Nat} {mess : TSend} (hsend : communicSend s t mess = some s') :
    SendersKept s'.handshake s'.started (s.executed + 1) ∧
      (Unstarted s.handshake → (Unstarted s'.handshake ↔ (mess.rendezVous →
        takeFirst (fun r => matchesMess r.mess (s.sendThread t mess))
            (s.task mess.dest.toNat).recvWithoutSend = none →
          locateReceiver (s.task mess.dest.toNat).recv (s.sendThread t mess) = none))) := by
  obtain ⟨dest, hloc, hsend⟩ := Option.bind_eq_some_iff.mp hsend
  obtain ⟨⟨hs, irecv⟩, hcall, hsend⟩ := Option.bind_eq_some_iff.mp hsend
  obtain ⟨hdest, -⟩ := TPtask.locateTask_eq_some.mp hloc
  have hnat : mess.dest.toNat = dest := by omega
  have hrecv : (P2PState.task { s with handshake := hs } dest).recv = (s.task dest).recv :=
    congrArg Mailbox.recv (sameMail_sendReached hcall dest)
  have hreached := reached_of_sendReached h hcall
  have hunpaired := unpaired_sendReached hcall
  generalize hx : s.sendThread t mess = x at hsend hcall hreached hunpaired ⊢
  have hserial : x.serial = s.executed := by rw [← hx]; rfl
  have hxdest : x.mess.dest.toNat = dest := by rw [← hx]; exact hnat
  have hxrdv : x.mess.rendezVous = mess.rendezVous := by rw [← hx]; rfl
  have hmore : ∀ d z, z ∈ unpaired hs d →
      z ∈ unpaired s.handshake d ∨ z = duplicateThread x := by
    intro d z hz
    rcases hunpaired with ⟨-, heq⟩ | ⟨-, -, hmem⟩
    · exact .inl (heq ▸ hz)
    · rcases (hmem d z).mp hz with hz | ⟨-, rfl⟩
      · exact .inl hz
      · exact .inr rfl
  simp only [hrecv] at hsend
  rw [hxdest] at hunpaired
  rw [hnat]
  split at hsend
  · next hcond =>
      -- the sender waits
      simp only [Bool.and_eq_true, Bool.not_eq_true', Option.isNone_iff_eq_none] at hcond
      obtain ⟨⟨hrdv, -⟩, hpartner⟩ := hcond
      have hwaits : ∀ y, duplicateThread y = duplicateThread x →
          SendersKept (withSenders hs x.taskid (senders hs x.taskid ++ [y])) s.started
            (s.executed + 1) ∧ (Unstarted s.handshake →
              Unstarted (withSenders hs x.taskid (senders hs x.taskid ++ [y]))) := by
        intro y hy
        rw [hreached.senders]
        exact ⟨h.enqueue hserial hreached (hxrdv ▸ hrdv) hy,
          fun hun => hun.enqueue hreached hmore hy⟩
      split at hsend
      · obtain rfl := Option.some.inj hsend
        obtain ⟨hkept, hun'⟩ := hwaits (duplicateThread x) rfl
        exact ⟨hkept, fun hun => iff_of_true (hun' hun) fun _ _ => hpartner⟩
      · obtain rfl := Option.some.inj hsend
        obtain ⟨hkept, hun'⟩ := hwaits x rfl
        exact ⟨hkept, fun hun => iff_of_true (hun' hun) fun _ _ => hpartner⟩
  · next hcond =>
      -- the transfer starts
      obtain rfl := Option.some.inj hsend
      refine ⟨h.startReached hserial hreached, fun hun => ?_⟩
      change Unstarted hs ↔ _
      rcases hunpaired with ⟨hpaired, heq⟩ | ⟨hnone, rfl, hmem⟩
      · refine iff_of_true ?_ fun _ hnone => absurd hnone hpaired
        intro d z hz hzrdv
        rw [hreached.senders]
        exact hun d z (heq ▸ hz) hzrdv
      · rw [hun.startReached_iff h hserial hreached hmem, hxrdv]
        have hpartner : mess.rendezVous = true → locateReceiver (s.task dest).recv x ≠ none := by
          intro hrdv
          simpa [hrdv] using hcond
        constructor
        · exact fun heager hrdv => absurd hrdv heager
        · exact fun hall hrdv => hpartner hrdv (hall hrdv hnone)

theorem messageReceived_step {thread : SendThread}
    (hreceived : messageReceived s thread = some s') :
    SameSenders s.handshake s'.handshake ∧ s'.started = s.started ∧
      s'.executed = s.executed := by
  obtain ⟨dest, -, hreceived⟩ := Option.bind_eq_some_iff.mp hreceived
  simp only at hreceived
  split at hreceived
  · obtain rfl := Option.some.inj hreceived
    exact ⟨sameSenders_setTask s dest
      { s.task dest with messRecv := (s.task dest).messRecv ++ [thread] } rfl rfl rfl, rfl, rfl⟩
  · next partner rest _ =>
      obtain rfl := Option.some.inj hreceived
      exact ⟨sameSenders_setTask s dest { s.task dest with recv := rest } rfl rfl rfl, rfl, rfl⟩

theorem executed_startCommunication {taskid : Nat} {mess : TRecv}
    (h : startCommunication s taskid mess = some s') : s'.executed = s.executed := by
  by_cases hori : mess.ori = -1
  · rcases startCommunication_wildcard hori h with ⟨-, rfl⟩ | ⟨k, y, rest, -, hstarts⟩
    · rfl
    · exact hstarts.executed
  · rw [startCommunication, if_pos hori] at h
    obtain ⟨src, -, h⟩ := Option.bind_eq_some_iff.mp h
    split at h
    · rw [← Option.some.inj h]
    · rw [← Option.some.inj h, startSender]
      split <;> rfl

theorem executed_awaitMessage {busywait : Nat → Bool} {thread : RecvThread}
    (h : awaitMessage busywait s thread = some s') : s'.executed = s.executed := by
  obtain ⟨src, -, h⟩ := Option.bind_eq_some_iff.mp h
  simp only at h
  split at h
  · rw [← Option.some.inj h]
    rfl
  · obtain ⟨s₁, hstart, h⟩ := Option.bind_eq_some_iff.mp h
    rw [← executed_startCommunication hstart]
    split at h
    · rw [← Option.some.inj h]
      rfl
    · rw [← Option.some.inj h]
      rfl

theorem executed_execAction {busywait : Nat → Bool} {t : Nat} {action : P2PAction}
    (h : execAction busywait s t action = some s') : s'.executed = s.executed := by
  cases action with
  | send mess =>
      obtain ⟨dest, -, h⟩ := Option.bind_eq_some_iff.mp h
      obtain ⟨⟨hs, irecv⟩, -, h⟩ := Option.bind_eq_some_iff.mp h
      simp only at h
      split at h
      · split at h
        · rw [← Option.some.inj h]
          rfl
        · rw [← Option.some.inj h]
          rfl
      · rw [← Option.some.inj h]
        rfl
  | recv mess =>
      exact executed_awaitMessage (s := { s with handshake :=
        (communicRecvReached s.handshake (s.recvThread t false mess)).1 }) h
  | wait mess => exact executed_awaitMessage h
  | irecv mess =>
      have hcall : (if (communicRecvReached s.handshake (s.recvThread t true mess)).2 then
          (startCommunication { s with handshake :=
            (communicRecvReached s.handshake (s.recvThread t true mess)).1 }
              (s.threads t).taskid mess).map fun s => s.advance t
        else some _) = some s' := h
      split at hcall
      · obtain ⟨s₂, hstart, rfl⟩ := Option.map_eq_some_iff.mp hcall
        have hexecuted := executed_startCommunication hstart
        exact hexecuted
      · rw [← Option.some.inj hcall]
        rfl

/-- A step starts no rendezvous send before it is paired, or it is one of the cases. -/
theorem unstarted_step {busywait : Nat → Bool} {l : P2PLabel} (h : Kept s)
    (hstep : p2pNext busywait s l = some s') :
    Kept s' ∧ (Unstarted s.handshake → (Unstarted s'.handshake ↔ StartsPaired s l)) := by
  cases l with
  | exec t =>
      obtain ⟨s₁, hexec, rfl⟩ := Option.map_eq_some_iff.mp hstep
      obtain ⟨action, haction, hrun⟩ := Option.bind_eq_some_iff.mp hexec
      simp only [StartsPaired, haction, Option.mem_some_iff, forall_eq', Kept,
        executed_execAction hrun]
      cases action with
      | send mess => exact send_step h hrun
      | recv mess => exact recv_step h hrun
      | irecv mess => exact irecv_step h hrun
      | wait mess => exact wait_step h hrun
  | arrive i =>
      obtain ⟨thread, -, hreceived⟩ := Option.bind_eq_some_iff.mp hstep
      obtain ⟨hsame, hstarted, hexecuted⟩ := messageReceived_step hreceived
      rw [Kept, hstarted, hexecuted]
      exact ⟨hsame.kept h, fun hun => iff_of_true (hsame.unstarted_iff.mpr hun) trivial⟩
  | endBusyWait t =>
      obtain ⟨mess, -, rfl⟩ := Option.map_eq_some_iff.mp hstep
      have hsame := sameSenders_setTask s (s.threads t).taskid
        { s.task (s.threads t).taskid with
          recv := (s.task (s.threads t).taskid).recv ++ [s.recvThread t false mess] } rfl rfl rfl
      refine ⟨hsame.kept h, fun hun => iff_of_true (hsame.unstarted_iff.mpr hun) trivial⟩

end

/-! ## Runs -/

section

variable {busywait : Nat → Bool} {tasksCount : Nat} {taskOf : Nat → Nat}
  {programs : Nat → List P2PAction} {s : P2PState} {tr : List (Transition P2PState P2PLabel)}

theorem unstarted_init : Unstarted (HandshakeState.init tasksCount) := by
  simp [Unstarted, unpaired, HandshakeState.init, TTask.empty]

/-- In a run the started rendezvous sends are always assigned receives of their own, which no other
send was paired with, exactly if no step starts one before it is paired. -/
theorem rendezVous_assigned_iff
    (hrun : Run (ofPartial (p2pNext busywait)) (.init tasksCount taskOf programs) tr s) :
    (∀ t ∈ tr, RendezVousAssigned t.post) ↔ ∀ t ∈ tr, StartsPaired t.pre t.label := by
  have hinit : Kept (.init tasksCount taskOf programs) := sendersKept_init tasksCount
  apply hrun.forall_post_iff hinit ((rendezVousAssigned_iff hinit).mpr unstarted_init)
  · exact fun _ _ _ h hstep => (unstarted_step h hstep).1
  · intro s l s' h hassigned hstep
    obtain ⟨hkept, hiff⟩ := unstarted_step h hstep
    rw [rendezVousAssigned_iff hkept]
    exact hiff ((rendezVousAssigned_iff h).mp hassigned)

def threeSends (recvs : List P2PAction) : Nat → List P2PAction
  | 0 => [.send ⟨1, 7, 0, 64, true, false⟩, .send ⟨1, 7, 0, 64, true, true⟩,
      .send ⟨1, 7, 0, 64, false, false⟩]
  | 1 => recvs
  | _ => []

/-- The first send meets a blocked receiver, the second one waits for its IRECV, and the third one
is eager. -/
def inTurn : List P2PLabel :=
  [.exec 1, .exec 0, .arrive 0, .exec 0, .exec 1, .exec 0, .arrive 0, .exec 1, .arrive 0,
    .exec 1]

theorem rendezVous_assigned_inTurn :
    let run := (exec (p2pNext fun _ => false) (.init 2 id (threeSends
      [.recv ⟨0, 7, 0, 64⟩, .irecv ⟨0, 7, 0, 64⟩, .wait ⟨0, 7, 0, 64⟩, .recv ⟨0, 7, 0, 64⟩]))
      inTurn).get (by rfl)
    ∀ t ∈ run.1, RendezVousAssigned t.post := by
  apply (rendezVous_assigned_iff (run_exec_get (by rfl))).mpr
  decide

/-- Both rendezvous sends are reached while the only receive is blocked, and both are started. -/
theorem not_rendezVousAssigned_twoSends :
    ¬ RendezVousAssigned ((exec (p2pNext fun _ => false)
      (.init 2 id (threeSends [.recv ⟨0, 7, 0, 64⟩])) [.exec 1, .exec 0, .exec 0]).get
        (by rfl)).2 := by
  rintro ⟨assigned, hsub, hforall⟩
  have hlength := hforall.length_eq
  exact absurd (hlength ▸ hsub.length_le) (by decide)

end

end Dimemas.Model.RendezVous
