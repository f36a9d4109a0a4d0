import Dimemas.Model.PointToPoint
/-!
# Delivery of messages

`Mailbox` is what delivery means for one task: the messages that have arrived, the
receives that wait, and what has been consumed so far. Every step of the
point-to-point model acts on the mailbox of a task as one of its events, and so the
invariants of mailboxes are invariants of runs.
-/

namespace Dimemas.Model.Delivery

open Dimemas.Library.SearchedQueue Dimemas.Library.Transitions
open Dimemas.Model.Messages Dimemas.Model.Handshake Dimemas.Model.PointToPoint

/-- The delivery side of a task. -/
structure Mailbox where
  recv : List RecvThread
  messRecv : List SendThread
  arrived : List SendThread
  consumed : List (SendThread × RecvThread)

/-- What happens at a mailbox: a receive looks for its message and blocks if `blocks`, a
message arrives, or a receive that came out of a busy wait blocks. -/
inductive MailboxEvent
  | idle
  | receive (r : RecvThread) (blocks : Bool)
  | arrive (x : SendThread)
  | block (r : RecvThread)

namespace Mailbox

def receive (m : Mailbox) (r : RecvThread) (blocks : Bool) : Mailbox :=
  match takeFirst (matchesMess r.mess) m.messRecv with
  | some (x, rest) => { m with messRecv := rest, consumed := m.consumed ++ [(x, r)] }
  | none => if blocks then { m with recv := m.recv ++ [r] } else m

def arrive (m : Mailbox) (x : SendThread) : Mailbox :=
  let m := { m with arrived := m.arrived ++ [x] }
  match takeFirst (fun r => matchesMess r.mess x) m.recv with
  | some (r, rest) => { m with recv := rest, consumed := m.consumed ++ [(x, r)] }
  | none => { m with messRecv := m.messRecv ++ [x] }

def block (m : Mailbox) (r : RecvThread) : Mailbox := { m with recv := m.recv ++ [r] }

def handle (m : Mailbox) : MailboxEvent → Mailbox
  | .idle => m
  | .receive r blocks => m.receive r blocks
  | .arrive x => m.arrive x
  | .block r => m.block r

/-- No waiting receive matches an arrived message. -/
def NoMissedDelivery (m : Mailbox) : Prop :=
  ∀ r ∈ m.recv, ∀ x ∈ m.messRecv, ¬ matchesMess r.mess x

/-- The only event that can miss a delivery: a receive blocks although its message has
arrived. -/
def NothingAwaits (m : Mailbox) : MailboxEvent → Prop
  | .block r => ∀ x ∈ m.messRecv, ¬ matchesMess r.mess x
  | _ => True

theorem noMissedDelivery_handle {m : Mailbox} (h : m.NoMissedDelivery) (ev : MailboxEvent) :
    (m.handle ev).NoMissedDelivery ↔ m.NothingAwaits ev := by
  cases ev with
  | idle => simpa [handle, NothingAwaits] using h
  | receive r blocks =>
      simp only [NothingAwaits, iff_true, handle, receive]
      cases hfirst : takeFirst (matchesMess r.mess) m.messRecv with
      | some p =>
          intro r' hr' x hx
          exact h r' hr' x ((mem_of_takeFirst hfirst).mpr (.inr hx))
      | none =>
          cases blocks with
          | false => exact h
          | true =>
              intro r' hr' x hx
              rcases List.mem_append.mp hr' with hr' | hr'
              · exact h r' hr' x hx
              · obtain rfl := List.mem_singleton.mp hr'
                exact takeFirst_eq_none.mp hfirst x hx
  | arrive y =>
      simp only [NothingAwaits, iff_true, handle, arrive]
      cases hfirst : takeFirst (fun r => matchesMess r.mess y) m.recv with
      | some p =>
          intro r hr x hx
          exact h r ((mem_of_takeFirst hfirst).mpr (.inr hr)) x hx
      | none =>
          intro r hr x hx
          rcases List.mem_append.mp hx with hx | hx
          · exact h r hr x hx
          · obtain rfl := List.mem_singleton.mp hx
            exact takeFirst_eq_none.mp hfirst r hr
  | block r =>
      simp only [NothingAwaits, handle, block]
      constructor
      · exact fun hnew x hx => hnew r (by simp) x hx
      · intro hnone r' hr' x hx
        rcases List.mem_append.mp hr' with hr' | hr'
        · exact h r' hr' x hx
        · obtain rfl := List.mem_singleton.mp hr'
          exact hnone x hx

/-- The messages of a channel have been consumed in the order of their arrival, and the
ones that still wait are the last. -/
def InArrivalOrder (c : Channel) (m : Mailbox) : Prop :=
  m.arrived.filter c.ofSend =
    (m.consumed.map Prod.fst).filter c.ofSend ++ m.messRecv.filter c.ofSend

theorem matchesMess_congr {c : Channel} {x y : SendThread} (hx : c.ofSend x) (hy : c.ofSend y)
    (mess : TRecv) : matchesMess mess x = matchesMess mess y := by
  obtain ⟨hsrc, -, htag, hcomm⟩ := Channel.ofSend_iff.mp hx
  obtain ⟨hsrc', -, htag', hcomm'⟩ := Channel.ofSend_iff.mp hy
  simp only [matchesMess, hsrc, htag, hcomm, hsrc', htag', hcomm']

theorem InArrivalOrder.handle {c : Channel} {m : Mailbox} (h : m.InArrivalOrder c)
    (hmissed : m.NoMissedDelivery) (ev : MailboxEvent) : (m.handle ev).InArrivalOrder c := by
  unfold InArrivalOrder at h ⊢
  cases ev with
  | idle => exact h
  | block r => exact h
  | receive r blocks =>
      simp only [Mailbox.handle, receive]
      cases hfirst : takeFirst (matchesMess r.mess) m.messRecv with
      | none => cases blocks <;> exact h
      | some p =>
          obtain ⟨x, rest⟩ := p
          simp only [List.map_append, List.map_singleton, List.filter_append]
          by_cases hx : c.ofSend x
          · -- the receive takes the first arrived message of the channel
            have hall : ∀ y, c.ofSend y → matchesMess r.mess y := fun y hy => by
              rw [matchesMess_congr hy hx]
              exact takeFirst_pos hfirst
            rw [h, filter_takeFirst_pos hfirst hall hx]
            simp [hx]
          · rw [h, filter_takeFirst_neg hfirst hx]
            simp [hx]
  | arrive x =>
      simp only [Mailbox.handle, arrive]
      cases hfirst : takeFirst (fun r => matchesMess r.mess x) m.recv with
      | none => simp only [List.filter_append, h, List.append_assoc]
      | some p =>
          obtain ⟨r, rest⟩ := p
          simp only [List.map_append, List.map_singleton, List.filter_append, h]
          by_cases hx : c.ofSend x
          · -- a waiting receive takes the message: none of the channel was left over
            have hnone : m.messRecv.filter c.ofSend = [] := by
              rw [List.filter_eq_nil_iff]
              intro y hy hcy
              refine hmissed r ((mem_of_takeFirst hfirst).mpr (.inl rfl)) y hy ?_
              rw [matchesMess_congr hcy hx]
              exact takeFirst_pos (p := fun r : RecvThread => matchesMess r.mess x) hfirst
            simp [hnone]
          · simp [hx]

end Mailbox

/-! ## The mailboxes of a run -/

def mailbox (s : P2PState) (d : Nat) : Mailbox :=
  ⟨(s.task d).recv, (s.task d).messRecv, s.arrived d, s.consumed d⟩

/-- `s'` has the mailboxes of `s`. -/
def SameMail (s s' : P2PState) : Prop := ∀ d, mailbox s' d = mailbox s d

section

variable {s s' : P2PState}

theorem SameMail.trans {s'' : P2PState} (h : SameMail s s') (h' : SameMail s' s'') :
    SameMail s s'' := fun d => (h' d).trans (h d)

/-- Replacing a task's other queues keeps the mailboxes. -/
theorem sameMail_setTask (k : Nat) (t : TTask) (hrecv : t.recv = (s.task k).recv)
    (hmess : t.messRecv = (s.task k).messRecv) : SameMail s (s.setTask k t) := by
  intro d
  by_cases hd : d = k
  · subst hd
    simp only [mailbox, P2PState.task, P2PState.setTask, TPtask.tasks_setTask_self, hrecv, hmess]
  · simp only [mailbox, P2PState.task, P2PState.setTask, TPtask.tasks_setTask_of_ne _ _ _ hd]

theorem sameMail_recvReached (thread : RecvThread) :
    SameMail s { s with handshake := (communicRecvReached s.handshake thread).1 } := by
  rcases communicRecvReached_cases s.handshake thread with ⟨x, rest, -, heq⟩ | ⟨-, heq⟩
  · rw [heq]
    exact sameMail_setTask thread.taskid { s.task thread.taskid with sendWithoutRecv := rest }
      rfl rfl
  · rw [heq]
    exact sameMail_setTask thread.taskid { s.task thread.taskid with
      recvWithoutSend := (s.task thread.taskid).recvWithoutSend ++ [thread] } rfl rfl

theorem sameMail_sendReached {thread : SendThread} {hs : HandshakeState} {irecv : Bool}
    (h : communicSendReached s.handshake thread = some (hs, irecv)) :
    SameMail s { s with handshake := hs } := by
  obtain ⟨dest, -, -, ⟨r, rest, -, rfl, -⟩ | ⟨-, rfl, -⟩⟩ := communicSendReached_cases h
  · exact sameMail_setTask dest { s.task dest with recvWithoutSend := rest } rfl rfl
  · exact sameMail_setTask dest { s.task dest with
      sendWithoutRecv := (s.task dest).sendWithoutRecv ++ [duplicateThread thread] } rfl rfl

theorem sameMail_startSender (sender : SendThread) : SameMail s (startSender s sender) := by
  intro d
  unfold startSender
  split <;> rfl

theorem sameMail_startCommunication {taskid : Nat} {mess : TRecv}
    (h : startCommunication s taskid mess = some s') : SameMail s s' := by
  unfold startCommunication at h
  split at h
  · obtain ⟨src, -, h⟩ := Option.bind_eq_some_iff.mp h
    split at h
    · obtain rfl := Option.some.inj h
      exact fun d => rfl
    · next sender rest _ =>
        obtain rfl := Option.some.inj h
        exact (sameMail_setTask src { s.task src with send := rest } rfl rfl).trans
          (sameMail_startSender sender)
  · simp only at h
    split at h
    · obtain rfl := Option.some.inj h
      exact fun d => rfl
    · next sender _ =>
        obtain rfl := Option.some.inj h
        exact (sameMail_setTask _ { s.task _ with send := (s.task _).send.erase sender }
          rfl rfl).trans (sameMail_startSender sender)

theorem sameMail_communicSend {t : Nat} {mess : TSend} (h : communicSend s t mess = some s') :
    SameMail s s' := by
  obtain ⟨dest, -, h⟩ := Option.bind_eq_some_iff.mp h
  obtain ⟨⟨hs, irecv⟩, hreached, h⟩ := Option.bind_eq_some_iff.mp h
  refine (sameMail_sendReached hreached).trans ?_
  simp only at h
  split at h
  · split at h <;> obtain rfl := Option.some.inj h
    · exact sameMail_setTask _ { P2PState.task _ _ with
        send := (P2PState.task _ _).send ++ [_] } rfl rfl
    · exact sameMail_setTask _ { P2PState.task _ _ with
        send := (P2PState.task _ _).send ++ [_] } rfl rfl
  · obtain rfl := Option.some.inj h
    exact fun d => rfl

theorem sameMail_communicIrecv {t : Nat} {mess : TRecv}
    (h : communicIrecv s t mess = some s') : SameMail s s' := by
  refine (sameMail_recvReached (s.recvThread t true mess)).trans ?_
  unfold communicIrecv at h
  simp only at h
  split at h
  · obtain ⟨s₁, hstart, rfl⟩ := Option.map_eq_some_iff.mp h
    have hsame : SameMail _ s₁ := sameMail_startCommunication hstart
    exact hsame
  · obtain rfl := Option.some.inj h
    exact fun d => rfl

/-- What `awaitMessage` does to the mailboxes: the receive is handled at its own task. -/
theorem mailbox_awaitMessage {busywait : Nat → Bool} {thread : RecvThread}
    (h : awaitMessage busywait s thread = some s') (d : Nat) :
    mailbox s' d =
      if d = thread.taskid then (mailbox s d).receive thread (!busywait thread.taskid)
      else mailbox s d := by
  obtain ⟨src, -, h⟩ := Option.bind_eq_some_iff.mp h
  simp only at h
  split at h
  · next source rest hfirst =>
      obtain rfl := Option.some.inj h
      by_cases hd : d = thread.taskid
      · subst hd
        rw [if_pos rfl, Mailbox.receive]
        simp only [mailbox, hfirst]
        simp [P2PState.task, P2PState.advance, P2PState.setThread, P2PState.recordConsumed,
          P2PState.setTask]
      · rw [if_neg hd]
        simp [mailbox, P2PState.task, P2PState.advance, P2PState.setThread,
          P2PState.recordConsumed, P2PState.setTask, TPtask.tasks_setTask_of_ne _ _ _ hd, hd]
  · next hnone =>
      obtain ⟨s₁, hstart, h⟩ := Option.bind_eq_some_iff.mp h
      have hsame := sameMail_startCommunication hstart
      have hreceive : (mailbox s thread.taskid).receive thread (!busywait thread.taskid) =
          if !busywait thread.taskid then
            (mailbox s thread.taskid).block thread
          else mailbox s thread.taskid := by
        simp only [Mailbox.receive, mailbox, hnone, Mailbox.block]
      split at h
      · next hbusy =>
          obtain rfl := Option.some.inj h
          have hm : mailbox (s₁.setStatus thread.threadid .busyWait) d = mailbox s d := hsame d
          rw [hm]
          split
          · next hd => rw [hd, hreceive, hbusy]; rfl
          · rfl
      · next hbusy =>
          obtain rfl := Option.some.inj h
          by_cases hd : d = thread.taskid
          · subst hd
            rw [if_pos rfl, hreceive, if_pos (by simpa using hbusy), ← hsame]
            simp [mailbox, P2PState.task, P2PState.setStatus, P2PState.setThread,
              P2PState.setTask, Mailbox.block]
          · rw [if_neg hd, ← hsame d]
            simp [mailbox, P2PState.task, P2PState.setStatus, P2PState.setThread,
              P2PState.setTask, TPtask.tasks_setTask_of_ne _ _ _ hd]

theorem mailbox_messageReceived {thread : SendThread}
    (h : messageReceived s thread = some s') (d : Nat) :
    mailbox s' d =
      if thread.mess.dest = d then (mailbox s d).arrive thread else mailbox s d := by
  obtain ⟨dest, hdest, h⟩ := Option.bind_eq_some_iff.mp h
  obtain ⟨hdest, -⟩ := TPtask.locateTask_eq_some.mp hdest
  simp only at h
  by_cases hd : d = dest
  · subst hd
    rw [if_pos hdest, Mailbox.arrive]
    split at h
    · next hnone =>
        obtain rfl := Option.some.inj h
        simp only [mailbox, hnone]
        simp [P2PState.task, P2PState.recordArrival, P2PState.setTask]
    · next r rest hfirst =>
        obtain rfl := Option.some.inj h
        simp only [mailbox, hfirst]
        simp [P2PState.task, P2PState.advance, P2PState.setThread, P2PState.recordConsumed,
          P2PState.recordArrival, P2PState.setTask]
  · rw [if_neg (by omega)]
    split at h
    · obtain rfl := Option.some.inj h
      simp [mailbox, P2PState.task, P2PState.recordArrival, P2PState.setTask,
        TPtask.tasks_setTask_of_ne _ _ _ hd, hd]
    · obtain rfl := Option.some.inj h
      simp [mailbox, P2PState.task, P2PState.advance, P2PState.setThread,
        P2PState.recordConsumed, P2PState.recordArrival, P2PState.setTask,
        TPtask.tasks_setTask_of_ne _ _ _ hd, hd]

theorem mailbox_blockAfterBusyWait (s : P2PState) (t : Nat) (mess : TRecv) (d : Nat) :
    mailbox (communicBlockAfterBusyWait s t mess) d =
      if (s.threads t).taskid = d then (mailbox s d).block (s.recvThread t false mess)
      else mailbox s d := by
  by_cases hd : d = (s.threads t).taskid
  · subst hd
    rw [if_pos rfl]
    simp [mailbox, P2PState.task, P2PState.setStatus, P2PState.setThread, P2PState.setTask,
      communicBlockAfterBusyWait, P2PState.recvThread, Mailbox.block]
  · rw [if_neg (Ne.symm hd)]
    simp [mailbox, P2PState.task, P2PState.setStatus, P2PState.setThread, P2PState.setTask,
      communicBlockAfterBusyWait, P2PState.recvThread, TPtask.tasks_setTask_of_ne _ _ _ hd]

/-- The event that a step is at the mailbox of the task `d`. -/
def eventAt (busywait : Nat → Bool) (s : P2PState) (l : P2PLabel) (d : Nat) : MailboxEvent :=
  match l with
  | .exec t =>
      match (s.threads t).readyAction with
      | some (.recv mess) | some (.wait mess) =>
          if d = (s.threads t).taskid then
            .receive (s.recvThread t false mess) (!busywait (s.threads t).taskid)
          else .idle
      | _ => .idle
  | .arrive i =>
      match s.inFlight[i]? with
      | some thread => if thread.mess.dest = d then .arrive thread else .idle
      | none => .idle
  | .endBusyWait t =>
      match (s.threads t).waitingFor with
      | some mess =>
          if (s.threads t).taskid = d then .block (s.recvThread t false mess) else .idle
      | none => .idle

theorem handle_ite (m : Mailbox) (p : Prop) [Decidable p] (ev : MailboxEvent) :
    m.handle (if p then ev else .idle) = if p then m.handle ev else m := by
  split <;> rfl

theorem mailbox_step {busywait : Nat → Bool} {l : P2PLabel} (h : p2pNext busywait s l = some s')
    (d : Nat) : mailbox s' d = (mailbox s d).handle (eventAt busywait s l d) := by
  cases l with
  | exec t =>
      obtain ⟨s₁, hexec, rfl⟩ := Option.map_eq_some_iff.mp h
      obtain ⟨action, haction, hrun⟩ := Option.bind_eq_some_iff.mp hexec
      change mailbox s₁ d = _
      simp only [eventAt, haction]
      cases action with
      | send mess => exact sameMail_communicSend hrun d
      | irecv mess => exact sameMail_communicIrecv hrun d
      | recv mess =>
          let thread := s.recvThread t false mess
          have hawait : awaitMessage busywait
              { s with handshake := (communicRecvReached s.handshake thread).1 } thread =
                some s₁ := hrun
          rw [mailbox_awaitMessage hawait d, sameMail_recvReached thread d, handle_ite]
          rfl
      | wait mess =>
          rw [mailbox_awaitMessage hrun d, handle_ite]
          rfl
  | arrive i =>
      obtain ⟨thread, hthread, h⟩ := Option.bind_eq_some_iff.mp h
      simp only [eventAt, hthread]
      rw [mailbox_messageReceived h d, handle_ite]
      rfl
  | endBusyWait t =>
      obtain ⟨mess, hmess, rfl⟩ := Option.map_eq_some_iff.mp h
      simp only [eventAt, hmess]
      rw [mailbox_blockAfterBusyWait, handle_ite]
      rfl

/-- No thread blocked in `recv` matches a message in `mess_recv`, at any task. -/
def NoMissedDelivery (s : P2PState) : Prop :=
  ∀ d, ∀ r ∈ (s.task d).recv, ∀ x ∈ (s.task d).messRecv, ¬ matchesMess r.mess x

/-- If the step ends a busy wait, no arrived message matches the receive that waits. -/
def NothingArrivedMeanwhile (s : P2PState) : P2PLabel → Prop
  | .endBusyWait t => ∀ mess, (s.threads t).waitingFor = some mess →
      ∀ x ∈ (s.task (s.threads t).taskid).messRecv, ¬ matchesMess mess x
  | _ => True

theorem noMissedDelivery_init (tasksCount : Nat) (taskOf : Nat → Nat)
    (programs : Nat → List P2PAction) : NoMissedDelivery (.init tasksCount taskOf programs) := by
  intro d r hr
  simp [P2PState.init, P2PState.task, HandshakeState.init, TTask.empty] at hr

theorem nothingAwaits_iff (busywait : Nat → Bool) {l : P2PLabel} :
    (∀ d, (mailbox s d).NothingAwaits (eventAt busywait s l d)) ↔
      NothingArrivedMeanwhile s l := by
  cases l with
  | exec t =>
      simp only [NothingArrivedMeanwhile, iff_true, eventAt]
      intro d
      split
      · split <;> trivial
      · split <;> trivial
      · trivial
  | arrive i =>
      simp only [NothingArrivedMeanwhile, iff_true, eventAt]
      intro d
      split
      · split <;> trivial
      · trivial
  | endBusyWait t =>
      simp only [NothingArrivedMeanwhile, eventAt]
      constructor
      · intro h mess hmess x hx
        have hd := h (s.threads t).taskid
        simp only [hmess, if_true] at hd
        exact hd x hx
      · intro h d
        split
        · next mess hmess =>
            split
            · next hd => exact fun x hx => h mess hmess x (hd ▸ hx)
            · trivial
        · trivial

/-- A step from a state without missed deliveries misses one exactly when it ends the busy
wait of a receive whose message has arrived. -/
theorem noMissedDelivery_step {busywait : Nat → Bool} {l : P2PLabel} (h : NoMissedDelivery s)
    (hstep : p2pNext busywait s l = some s') :
    NoMissedDelivery s' ↔ NothingArrivedMeanwhile s l := by
  rw [← nothingAwaits_iff busywait]
  refine forall_congr' fun d => ?_
  have hmail : (mailbox s d).NoMissedDelivery := h d
  rw [← Mailbox.noMissedDelivery_handle hmail, ← mailbox_step hstep d]
  rfl

end

section

variable {busywait : Nat → Bool} {tasksCount : Nat} {taskOf : Nat → Nat}
  {programs : Nat → List P2PAction} {s : P2PState} {tr : List (Transition P2PState P2PLabel)}

/-- A run never has a blocked receive whose message has arrived if and only if no busy wait
of the run ends after the message it waits for has arrived. -/
theorem no_missed_delivery_iff
    (hrun : Run (ofPartial (p2pNext busywait)) (.init tasksCount taskOf programs) tr s) :
    (∀ t ∈ tr, NoMissedDelivery t.post) ↔ ∀ t ∈ tr, NothingArrivedMeanwhile t.pre t.label :=
  hrun.forall_post_iff (I := fun _ => True) trivial
    (noMissedDelivery_init tasksCount taskOf programs) (fun _ _ _ _ _ => trivial)
    fun _ _ _ _ h hstep => noMissedDelivery_step h hstep

def oneMessage : Nat → List P2PAction
  | 0 => [.send ⟨1, 7, 0, 64, false, false⟩]
  | 1 => [.recv ⟨0, 7, 0, 64⟩]
  | _ => []

/-- The message arrives before the receive is reached. -/
theorem no_missed_delivery_iff_oneMessage :
    let run := (exec (p2pNext fun _ => true) (.init 2 id oneMessage)
      [.exec 0, .arrive 0, .exec 1]).get (by rfl)
    (∀ t ∈ run.1, NoMissedDelivery t.post) ↔ ∀ t ∈ run.1, NothingArrivedMeanwhile t.pre t.label :=
  no_missed_delivery_iff (run_exec_get (by rfl))

/-- The message arrives during the busy wait of the receive, which then blocks for good. -/
theorem missed_delivery_oneMessage :
    ¬ NoMissedDelivery ((exec (p2pNext fun _ => true) (.init 2 id oneMessage)
      [.exec 1, .exec 0, .arrive 0, .endBusyWait 1]).get (by rfl)).2 := by
  intro h
  exact h 1 ⟨1, 1, false, 2, ⟨0, 7, 0, 64⟩⟩ (by decide)
    ⟨0, 0, false, 1, ⟨1, 7, 0, 64, false, false⟩⟩ (by decide) (by decide)

/-! ## The order of consumption -/

/-- Where no busy wait ends after its message arrived, the receives consume the messages of
every channel in the order in which `message_received` brought them, and those that
were not consumed still wait in that order. -/
theorem consumed_in_arrival_order
    (hrun : Run (ofPartial (p2pNext busywait)) (.init tasksCount taskOf programs) tr s)
    (hmeanwhile : ∀ t ∈ tr, NothingArrivedMeanwhile t.pre t.label) (c : Channel) :
    (s.arrived c.dst).filter c.ofSend =
      ((s.consumed c.dst).map Prod.fst).filter c.ofSend ++
        (s.task c.dst).messRecv.filter c.ofSend := by
  have hinit : NoMissedDelivery (P2PState.init tasksCount taskOf programs) ∧
      (mailbox (P2PState.init tasksCount taskOf programs) c.dst).InArrivalOrder c :=
    ⟨noMissedDelivery_init tasksCount taskOf programs, rfl⟩
  have hfinal := hrun.invariant_of_guard
    (I := fun s => NoMissedDelivery s ∧ (mailbox s c.dst).InArrivalOrder c) hinit
    (fun s l s' ⟨hmissed, horder⟩ hguard hstep =>
      ⟨(noMissedDelivery_step hmissed hstep).mpr hguard,
        mailbox_step hstep c.dst ▸ horder.handle (hmissed c.dst) _⟩) hmeanwhile
  exact hfinal.2

/-- A long and a short eager message on one channel, and two receives for them. -/
def twoMessages : Nat → List P2PAction
  | 0 => [.send ⟨1, 7, 0, 1000000, false, false⟩, .send ⟨1, 7, 0, 8, false, false⟩]
  | 1 => [.recv ⟨0, 7, 0, 1000000⟩, .recv ⟨0, 7, 0, 8⟩]
  | _ => []

def shortFirst : List P2PLabel := [.exec 0, .exec 0, .arrive 1, .arrive 0, .exec 1, .exec 1]

theorem consumed_in_arrival_order_shortFirst :
    let s := ((exec (p2pNext fun _ => false) (.init 2 id twoMessages) shortFirst).get (by rfl)).2
    (s.arrived 1).filter (Channel.ofSend ⟨0, 1, 7, 0⟩) =
      ((s.consumed 1).map Prod.fst).filter (Channel.ofSend ⟨0, 1, 7, 0⟩) ++
        (s.task 1).messRecv.filter (Channel.ofSend ⟨0, 1, 7, 0⟩) := by
  refine consumed_in_arrival_order (run_exec_get (by rfl)) (fun t ht => ?_) ⟨0, 1, 7, 0⟩
  have hlabel := label_mem_of_exec_get ht
  simp only [shortFirst, List.mem_cons, List.not_mem_nil, or_false] at hlabel
  rcases hlabel with h | h | h | h | h | h <;> rw [h] <;> trivial

/-- The messages that a thread sends on a channel are consumed in the order of its SENDs. -/
def NonOvertaking (s : P2PState) : Prop :=
  ∀ (c : Channel) (t : Nat),
    (((s.consumed c.dst).map Prod.fst).filter fun x => c.ofSend x && x.threadid = t).Pairwise
      fun x y => x.serial < y.serial

/-- The first receive consumes the second message. -/
theorem overtaking_shortFirst :
    ¬ NonOvertaking ((exec (p2pNext fun _ => false) (.init 2 id twoMessages)
      shortFirst).get (by rfl)).2 := by
  intro h
  exact absurd (h ⟨0, 1, 7, 0⟩ 0) (by decide)

end

end Dimemas.Model.Delivery
