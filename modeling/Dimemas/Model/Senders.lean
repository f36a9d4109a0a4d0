import Dimemas.Model.Delivery
/-!
# The bookkeeping of the senders

Every send that an application has reached is started or waits in the queue of its task, and it is
paired with a receive or waits for one at its destination. The lemmas say what each action does to
the two queues, and when it leaves every unpaired rendezvous send among the senders that wait.
-/

namespace Dimemas.Model.Senders

open Dimemas.Library.SearchedQueue Dimemas.Library.Transitions
open Dimemas.Model.Messages Dimemas.Model.Handshake Dimemas.Model.PointToPoint
open Dimemas.Model.Delivery

def senders (hs : HandshakeState) (k : Nat) : List SendThread := (hs.ptask.tasks k).send

/-- The sends to a task that were reached and not paired with a receive. -/
def unpaired (hs : HandshakeState) (d : Nat) : List SendThread :=
  (hs.ptask.tasks d).sendWithoutRecv

def withSenders (hs : HandshakeState) (k : Nat) (queue : List SendThread) : HandshakeState :=
  { hs with ptask := hs.ptask.setTask k { hs.ptask.tasks k with send := queue } }

/-- Every send that was reached is started or waits in the queue of its own task. The serial numbers
are those of the executed actions, of which there are less than `n`. -/
structure SendersKept (hs : HandshakeState) (started : List SendThread) (n : Nat) : Prop where
  paired : Paired hs
  balance : ∀ k (p : SendThread → Bool), Blind p → (∀ x, p x → x.taskid = k) →
    hs.sendsReached.countP p = started.countP p + (senders hs k).countP p
  waiting : ∀ k, ∀ x ∈ senders hs k, x.taskid = k ∧ x.mess.rendezVous
  copies : ∀ k,
    ((senders hs k).map duplicateThread).Sublist (hs.sendsReached.map duplicateThread)
  sends : hs.sendsReached.Pairwise fun x y => x.serial < y.serial
  recvs : hs.recvsReached.Pairwise fun r r' => r.serial < r'.serial
  sendsBefore : ∀ x ∈ hs.sendsReached, x.serial < n ∧ 0 ≤ x.mess.dest
  recvsBefore : ∀ r ∈ hs.recvsReached, r.serial < n

/-- No rendezvous send is started before it is paired: it waits in the queue of its task. -/
def Unstarted (hs : HandshakeState) : Prop :=
  ∀ d, ∀ x ∈ unpaired hs d, x.mess.rendezVous → ∃ y ∈ senders hs x.taskid, duplicateThread y = x

section

variable {hs hs' : HandshakeState} {started : List SendThread} {n : Nat} {x y z : SendThread}
  {r : RecvThread}

@[simp] theorem senders_withSenders (k : Nat) (queue : List SendThread) (i : Nat) :
    senders (withSenders hs k queue) i = if i = k then queue else senders hs i := by
  unfold senders withSenders
  simp only [TPtask.tasks_setTask]
  split <;> rfl

@[simp] theorem unpaired_withSenders (k : Nat) (queue : List SendThread) :
    unpaired (withSenders hs k queue) = unpaired hs := by
  funext d
  unfold unpaired withSenders
  simp only [TPtask.tasks_setTask]
  split
  · next hd => rw [hd]
  · rfl

/-! ## What the bookkeeping says -/

theorem sendersKept_init (tasksCount : Nat) : SendersKept (.init tasksCount) [] 0 := by
  refine ⟨paired_init tasksCount, ?_, ?_, ?_, .nil, .nil, ?_, ?_⟩ <;>
    simp [HandshakeState.init, TTask.empty, senders]

theorem SendersKept.mono {m : Nat} (h : SendersKept hs started n) (hle : n ≤ m) :
    SendersKept hs started m :=
  { h with
    sendsBefore := fun x hx => ⟨Nat.lt_of_lt_of_le (h.sendsBefore x hx).1 hle, (h.sendsBefore x hx).2⟩
    recvsBefore := fun r hr => Nat.lt_of_lt_of_le (h.recvsBefore r hr) hle }

theorem SendersKept.sorted (h : SendersKept hs started n) :
    (hs.sendsReached.map duplicateThread).Pairwise fun x y => x.serial < y.serial :=
  List.pairwise_map.mpr h.sends

theorem SendersKept.senders_sorted (h : SendersKept hs started n) (k : Nat) :
    (senders hs k).Pairwise fun x y => x.serial < y.serial :=
  List.pairwise_map (f := duplicateThread) (R := fun x y => x.serial < y.serial) |>.mp
    (h.sorted.sublist (h.copies k))

theorem SendersKept.unpaired_sorted (h : SendersKept hs started n) (d : Nat) :
    (unpaired hs d).Pairwise fun x y => x.serial < y.serial :=
  h.sorted.sublist (h.paired.task d).copies

theorem nodup_of_serial {xs : List SendThread}
    (h : xs.Pairwise fun x y => x.serial < y.serial) : xs.Nodup :=
  h.imp fun hlt heq => by
    rw [heq] at hlt
    exact Nat.lt_irrefl _ hlt

theorem SendersKept.unpaired_nodup (h : SendersKept hs started n) (d : Nat) :
    (unpaired hs d).Nodup := nodup_of_serial (h.unpaired_sorted d)

theorem SendersKept.before_of_waiting (h : SendersKept hs started n) {k : Nat}
    (hx : x ∈ senders hs k) : x.serial < n ∧ 0 ≤ x.mess.dest := by
  obtain ⟨y, hy, hyx⟩ := List.mem_map.mp ((h.copies k).subset (List.mem_map_of_mem hx))
  obtain ⟨-, hserial, hmess⟩ := eq_of_duplicateThread hyx
  rw [← hserial, ← hmess]
  exact h.sendsBefore y hy

theorem SendersKept.dest_of_unpaired (h : SendersKept hs started n) {d : Nat}
    (hx : x ∈ unpaired hs d) : x.mess.dest = d := (h.paired.task d).sendDest x hx

theorem SendersKept.copy_of_unpaired (h : SendersKept hs started n) {d : Nat}
    (hx : x ∈ unpaired hs d) : duplicateThread x = x := by
  obtain ⟨y, -, rfl⟩ := List.mem_map.mp ((h.paired.task d).copies.subset hx)
  rfl

theorem SendersKept.countP_reached_le (h : SendersKept hs started n) (z : SendThread) :
    hs.sendsReached.countP (fun x => duplicateThread x = z) ≤ 1 := by
  have hcount := List.nodup_iff_count.mp (nodup_of_serial h.sorted) z
  rw [List.count, List.countP_map] at hcount
  refine Nat.le_trans (Nat.le_of_eq (List.countP_congr fun x _ => ?_)) hcount
  simp

theorem SendersKept.countP_paired (h : SendersKept hs started n) {d : Nat}
    (hdest : z.mess.dest = d) :
    hs.sendsReached.countP (fun x => duplicateThread x = z) =
      hs.pairs.countP (fun p => duplicateThread p.1 = z) +
        (unpaired hs d).countP fun x => duplicateThread x = z := by
  refine (h.paired.task d).sends (fun x => duplicateThread x = z) (fun _ => rfl) fun x hx => ?_
  have hz : duplicateThread x = z := of_decide_eq_true hx
  rw [← hdest, ← hz]
  rfl

theorem SendersKept.countP_started (h : SendersKept hs started n) (z : SendThread) :
    hs.sendsReached.countP (fun x => duplicateThread x = z) =
      started.countP (fun x => duplicateThread x = z) +
        (senders hs z.taskid).countP fun x => duplicateThread x = z := by
  refine h.balance z.taskid _ (fun _ => rfl) fun x hx => ?_
  have hz : duplicateThread x = z := of_decide_eq_true hx
  rw [← hz]
  rfl

/-! ## Starting a sender that waits -/

/-- A sender that is taken out of the queue and started, by itself or by a copy. -/
theorem SendersKept.start (h : SendersKept hs started n) {k : Nat} {rest : List SendThread}
    (hperm : (y :: rest).Perm (senders hs k)) (hsub : rest.Sublist (senders hs k))
    (hcopy : duplicateThread z = duplicateThread y) :
    SendersKept (withSenders hs k rest) (started ++ [z]) n := by
  have hpaired : Paired (withSenders hs k rest) := by
    refine ⟨h.paired.pairsMatch, fun d => ?_⟩
    have htask := h.paired.task d
    unfold withSenders
    simp only [TPtask.tasks_setTask]
    split
    · next hd => exact hd ▸ htask
    · exact htask
  refine ⟨hpaired, fun i p hblind htask => ?_, fun i x hx => ?_, fun i => ?_, h.sends, h.recvs,
    h.sendsBefore, h.recvsBefore⟩
  · have hzy : p z = p y := by
      rw [← hblind z, ← hblind y, hcopy]
    have hbal := h.balance i p hblind htask
    change hs.sendsReached.countP p = _
    rw [hbal, List.countP_append, List.countP_singleton, hzy, senders_withSenders]
    by_cases hi : i = k
    · have hcount := hperm.countP_eq p
      rw [List.countP_cons] at hcount
      rw [if_pos hi, hi]
      omega
    · have hy : ¬ p y := fun hp =>
        hi ((htask y hp).symm.trans (h.waiting k y (hperm.subset List.mem_cons_self)).1)
      rw [if_neg hi, if_neg hy]
      omega
  · rw [senders_withSenders] at hx
    split at hx
    · next hi => exact hi ▸ h.waiting k x (hsub.subset hx)
    · exact h.waiting i x hx
  · rw [senders_withSenders]
    split
    · exact (hsub.map duplicateThread).trans (h.copies k)
    · exact h.copies i

theorem Unstarted.start_iff (hun : Unstarted hs) (h : SendersKept hs started n) {k : Nat}
    {rest : List SendThread} (hperm : (y :: rest).Perm (senders hs k)) :
    Unstarted (withSenders hs k rest) ↔
      duplicateThread y ∉ unpaired hs y.mess.dest.toNat := by
  obtain ⟨htask, hrdv⟩ := h.waiting k y (hperm.subset List.mem_cons_self)
  have hcopies : ((y :: rest).map duplicateThread).Nodup :=
    ((hperm.map duplicateThread).nodup_iff).mpr
      (nodup_of_serial (h.sorted.sublist (h.copies k)))
  have hnot := (List.nodup_cons.mp hcopies).1
  constructor
  · intro hstart hy
    obtain ⟨x, hx, hxy⟩ := hstart _ (duplicateThread y) (by rwa [unpaired_withSenders]) hrdv
    have hk : (duplicateThread y).taskid = k := htask
    rw [senders_withSenders, if_pos hk] at hx
    exact hnot (hxy ▸ List.mem_map_of_mem hx)
  · intro hy d x hx hxrdv
    rw [unpaired_withSenders] at hx
    obtain ⟨w, hw, hwx⟩ := hun d x hx hxrdv
    refine ⟨w, ?_, hwx⟩
    rw [senders_withSenders]
    split
    · next hk =>
        rw [hk] at hw
        rcases List.mem_cons.mp (hperm.mem_iff.mpr hw) with rfl | hw
        · have hdest := h.dest_of_unpaired hx
          have hwdest : w.mess.dest = d := by
            rw [← hdest, ← hwx]
            rfl
          rw [hwdest, Int.toNat_natCast, hwx] at hy
          exact absurd hx hy
        · exact hw
    · exact hw

/-! ## The two reached calls -/

theorem senders_recvReached (hs : HandshakeState) (r : RecvThread) :
    senders (communicRecvReached hs r).1 = senders hs := by
  funext k
  unfold senders
  rcases communicRecvReached_cases hs r with ⟨x, rest, -, heq⟩ | ⟨-, heq⟩
  all_goals
    simp only [heq, TPtask.tasks_setTask]
    split
    · next hk => rw [hk]
    · rfl

theorem SendersKept.recvReached (h : SendersKept hs started n) (hr : r.serial = n) :
    SendersKept (communicRecvReached hs r).1 started (n + 1) := by
  have hlists : (communicRecvReached hs r).1.sendsReached = hs.sendsReached ∧
      (communicRecvReached hs r).1.recvsReached = hs.recvsReached ++ [r] := by
    rcases communicRecvReached_cases hs r with ⟨x, rest, -, heq⟩ | ⟨-, heq⟩ <;> simp [heq]
  refine ⟨h.paired.recvReached r, ?_, ?_, ?_, ?_, ?_, ?_, ?_⟩
  · rw [senders_recvReached, hlists.1]
    exact h.balance
  · rw [senders_recvReached]
    exact h.waiting
  · rw [senders_recvReached, hlists.1]
    exact h.copies
  · rw [hlists.1]
    exact h.sends
  · rw [hlists.2, List.pairwise_append]
    refine ⟨h.recvs, List.pairwise_singleton .., fun r' hr' r'' hr'' => ?_⟩
    rw [List.mem_singleton.mp hr'', hr]
    exact h.recvsBefore r' hr'
  · rw [hlists.1]
    exact (h.mono (Nat.le_succ n)).sendsBefore
  · rw [hlists.2]
    intro r' hr'
    rcases List.mem_append.mp hr' with hr' | hr'
    · exact Nat.lt_succ_of_lt (h.recvsBefore r' hr')
    · rw [List.mem_singleton.mp hr', hr]
      exact Nat.lt_succ_self n

/-- A reached receive is paired with the first send that it matches, or matches none. -/
theorem unpaired_recvReached (h : SendersKept hs started n) (r : RecvThread) :
    (∃ z rest, takeFirst (matchesMess r.mess) (unpaired hs r.taskid) = some (z, rest) ∧
      (communicRecvReached hs r).2 = z.mess.rendezVous ∧
      ∀ d x, x ∈ unpaired (communicRecvReached hs r).1 d ↔ x ∈ unpaired hs d ∧ x ≠ z) ∨
    (takeFirst (matchesMess r.mess) (unpaired hs r.taskid) = none ∧
      (communicRecvReached hs r).2 = false ∧
      unpaired (communicRecvReached hs r).1 = unpaired hs) := by
  rcases communicRecvReached_cases hs r with ⟨z, rest, hfirst, heq⟩ | ⟨hnone, heq⟩
  · refine .inl ⟨z, rest, hfirst, by rw [heq], fun d x => ?_⟩
    simp only [heq, unpaired]
    by_cases hd : d = r.taskid
    · rw [hd, TPtask.tasks_setTask_self]
      exact mem_rest_takeFirst hfirst (h.unpaired_nodup r.taskid)
    · rw [TPtask.tasks_setTask_of_ne _ _ _ hd]
      refine ⟨fun hx => ⟨hx, ?_⟩, And.left⟩
      rintro rfl
      have hz := h.dest_of_unpaired (d := r.taskid) ((mem_of_takeFirst hfirst).mpr (.inl rfl))
      have hx := h.dest_of_unpaired hx
      exact hd (Int.ofNat_inj.mp (hx.symm.trans hz))
  · refine .inr ⟨hnone, by rw [heq], ?_⟩
    funext d
    simp only [heq, unpaired, TPtask.tasks_setTask]
    split
    · next hd => rw [hd]
    · rfl

/-- A receive that is paired leaves fewer sends unpaired. -/
theorem Unstarted.recvReached (hun : Unstarted hs) (h : SendersKept hs started n)
    (r : RecvThread) : Unstarted (communicRecvReached hs r).1 := by
  intro d x hx hrdv
  rw [senders_recvReached]
  rcases unpaired_recvReached h r with ⟨z, rest, -, -, hmem⟩ | ⟨-, -, heq⟩
  · exact hun d x ((hmem d x).mp hx).1 hrdv
  · rw [heq] at hx
    exact hun d x hx hrdv

/-- What a reached send does, whether it is paired or not. -/
structure Reached (hs hs' : HandshakeState) (x : SendThread) : Prop where
  paired : Paired hs'
  dest : 0 ≤ x.mess.dest
  senders : senders hs' = senders hs
  sends : hs'.sendsReached = hs.sendsReached ++ [x]
  recvs : hs'.recvsReached = hs.recvsReached

theorem reached_of_sendReached (h : SendersKept hs started n) {irecv : Bool}
    (hcall : communicSendReached hs x = some (hs', irecv)) : Reached hs hs' x := by
  obtain ⟨dest, hdest, -, hcases⟩ := communicSendReached_cases hcall
  refine ⟨h.paired.sendReached hcall, by omega, ?_, ?_, ?_⟩
  · funext k
    unfold Senders.senders
    rcases hcases with ⟨r, rest, -, rfl, -⟩ | ⟨-, rfl, -⟩
    all_goals
      simp only [TPtask.tasks_setTask]
      split
      · next hk => rw [hk]
      · rfl
  · rcases hcases with ⟨r, rest, -, rfl, -⟩ | ⟨-, rfl, -⟩ <;> rfl
  · rcases hcases with ⟨r, rest, -, rfl, -⟩ | ⟨-, rfl, -⟩ <;> rfl

theorem Reached.sends_sorted (hreached : Reached hs hs' x) (h : SendersKept hs started n)
    (hx : x.serial = n) : hs'.sendsReached.Pairwise fun x y => x.serial < y.serial := by
  rw [hreached.sends, List.pairwise_append]
  refine ⟨h.sends, List.pairwise_singleton .., fun y hy z hz => ?_⟩
  rw [List.mem_singleton.mp hz, hx]
  exact (h.sendsBefore y hy).1

theorem Reached.sendsBefore (hreached : Reached hs hs' x) (h : SendersKept hs started n)
    (hx : x.serial = n) : ∀ y ∈ hs'.sendsReached, y.serial < n + 1 ∧ 0 ≤ y.mess.dest := by
  rw [hreached.sends]
  intro y hy
  rcases List.mem_append.mp hy with hy | hy
  · exact (h.mono (Nat.le_succ n)).sendsBefore y hy
  · rw [List.mem_singleton.mp hy, hx]
    exact ⟨Nat.lt_succ_self n, hreached.dest⟩

theorem unpaired_sendReached {irecv : Bool}
    (hcall : communicSendReached hs x = some (hs', irecv)) :
    (takeFirst (fun r => matchesMess r.mess x)
        (hs.ptask.tasks x.mess.dest.toNat).recvWithoutSend ≠ none ∧ unpaired hs' = unpaired hs) ∨
      (takeFirst (fun r => matchesMess r.mess x)
          (hs.ptask.tasks x.mess.dest.toNat).recvWithoutSend = none ∧ irecv = false ∧
        ∀ d y, y ∈ unpaired hs' d ↔
          y ∈ unpaired hs d ∨ (d = x.mess.dest.toNat ∧ y = duplicateThread x)) := by
  obtain ⟨dest, hdest, -, hcases⟩ := communicSendReached_cases hcall
  have hnat : x.mess.dest.toNat = dest := by omega
  rw [hnat]
  rcases hcases with ⟨r, rest, hfirst, rfl, -⟩ | ⟨hnone, rfl, hirecv⟩
  · refine .inl ⟨by simp [hfirst], ?_⟩
    funext d
    simp only [unpaired, TPtask.tasks_setTask]
    split
    · next hd => rw [hd]
    · rfl
  · refine .inr ⟨hnone, hirecv, fun d y => ?_⟩
    simp only [unpaired, TPtask.tasks_setTask]
    by_cases hd : d = dest
    · simp [hd]
    · simp [hd]

/-- A reached send that joins the queue of its task. -/
theorem SendersKept.enqueue (h : SendersKept hs started n) (hx : x.serial = n)
    (hreached : Reached hs hs' x) (hrdv : x.mess.rendezVous)
    (hy : duplicateThread y = duplicateThread x) :
    SendersKept (withSenders hs' x.taskid (senders hs x.taskid ++ [y])) started (n + 1) := by
  have hpaired : Paired (withSenders hs' x.taskid (senders hs x.taskid ++ [y])) := by
    refine ⟨hreached.paired.pairsMatch, fun d => ?_⟩
    have htask := hreached.paired.task d
    unfold withSenders
    simp only [TPtask.tasks_setTask]
    split
    · next hd => exact hd ▸ htask
    · exact htask
  obtain ⟨hytask, -, hymess⟩ := eq_of_duplicateThread hy
  refine ⟨hpaired, fun k p hblind htask => ?_, fun k z hz => ?_, fun k => ?_, ?_, ?_, ?_, ?_⟩
  · have hyx : p y = p x := by
      rw [← hblind y, ← hblind x, hy]
    have hbal := h.balance k p hblind htask
    change hs'.sendsReached.countP p = _
    rw [hreached.sends, List.countP_append, List.countP_singleton, hbal, senders_withSenders,
      hreached.senders]
    by_cases hk : k = x.taskid
    · rw [if_pos hk, hk, List.countP_append, List.countP_singleton, hyx]
      omega
    · have hx : ¬ p x := fun hp => hk (htask x hp).symm
      rw [if_neg hk, if_neg hx]
      omega
  · rw [senders_withSenders, hreached.senders] at hz
    split at hz
    · next hk =>
        rcases List.mem_append.mp hz with hz | hz
        · exact hk ▸ h.waiting x.taskid z hz
        · rw [List.mem_singleton.mp hz, hymess, hk]
          exact ⟨hytask, hrdv⟩
    · exact h.waiting k z hz
  · change (List.map duplicateThread _).Sublist (hs'.sendsReached.map duplicateThread)
    rw [senders_withSenders, hreached.senders, hreached.sends, List.map_append]
    split
    · rw [List.map_append, List.map_singleton, List.map_singleton, hy]
      exact (h.copies x.taskid).append (List.Sublist.refl _)
    · exact (h.copies k).trans (List.sublist_append_left ..)
  · exact hreached.sends_sorted h hx
  · exact hreached.recvs ▸ h.recvs
  · exact hreached.sendsBefore h hx
  · exact hreached.recvs ▸ (h.mono (Nat.le_succ n)).recvsBefore

theorem SendersKept.startReached (h : SendersKept hs started n) (hx : x.serial = n)
    (hreached : Reached hs hs' x) :
    SendersKept hs' (started ++ [duplicateThread x]) (n + 1) := by
  refine ⟨hreached.paired, fun k p hblind htask => ?_, ?_, fun k => ?_, ?_, ?_, ?_, ?_⟩
  · rw [hreached.sends, hreached.senders, List.countP_append, List.countP_append,
      h.balance k p hblind htask, List.countP_singleton, List.countP_singleton, hblind x]
    omega
  · rw [hreached.senders]
    exact h.waiting
  · rw [hreached.senders, hreached.sends, List.map_append]
    exact (h.copies k).trans (List.sublist_append_left ..)
  · exact hreached.sends_sorted h hx
  · exact hreached.recvs ▸ h.recvs
  · exact hreached.sendsBefore h hx
  · exact hreached.recvs ▸ (h.mono (Nat.le_succ n)).recvsBefore

theorem Unstarted.enqueue (hun : Unstarted hs) (hreached : Reached hs hs' x)
    (hunpaired : ∀ d z, z ∈ unpaired hs' d → z ∈ unpaired hs d ∨ z = duplicateThread x)
    (hy : duplicateThread y = duplicateThread x) :
    Unstarted (withSenders hs' x.taskid (senders hs x.taskid ++ [y])) := by
  intro d z hz hrdv
  rw [unpaired_withSenders] at hz
  rw [senders_withSenders, hreached.senders]
  rcases hunpaired d z hz with hz | rfl
  · obtain ⟨w, hw, hwz⟩ := hun d z hz hrdv
    refine ⟨w, ?_, hwz⟩
    split
    · next hk => exact List.mem_append_left _ (hk ▸ hw)
    · exact hw
  · have hk : (duplicateThread x).taskid = x.taskid := rfl
    rw [if_pos hk]
    exact ⟨y, by simp, hy⟩

theorem Unstarted.startReached_iff (hun : Unstarted hs) (h : SendersKept hs started n)
    (hx : x.serial = n) (hreached : Reached hs hs' x) {d₀ : Nat}
    (hunpaired : ∀ d z, z ∈ unpaired hs' d ↔
      z ∈ unpaired hs d ∨ (d = d₀ ∧ z = duplicateThread x)) :
    Unstarted hs' ↔ ¬ x.mess.rendezVous := by
  constructor
  · intro hstart hrdv
    obtain ⟨y, hy, hyx⟩ := hstart d₀ (duplicateThread x) ((hunpaired _ _).mpr (.inr ⟨rfl, rfl⟩)) hrdv
    rw [hreached.senders] at hy
    have hlt := (h.before_of_waiting hy).1
    rw [(eq_of_duplicateThread hyx).2.1, hx] at hlt
    exact Nat.lt_irrefl n hlt
  · intro heager d z hz hrdv
    rw [hreached.senders]
    rcases (hunpaired d z).mp hz with hz | ⟨-, rfl⟩
    · exact hun d z hz hrdv
    · exact absurd hrdv heager

end

end Dimemas.Model.Senders
