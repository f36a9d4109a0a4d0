import Dimemas.Model.Windows
/-!
# Post, start, complete and wait

The operations of a window in post mode (`os_post` in `memory.c`): a task posts a window for a group
of tasks, which start accesses to it, transfer and complete, and waits for them. Each task has one
thread. A start-up is part of the time until its transfer completes.
-/

namespace Dimemas.Model.Epochs

open Dimemas.Model.Windows (TaskId WindowMode)

/-- The actions of a task. The ranks of a group are the tasks that they stand for. -/
inductive Action
  | work
  | post (ranks : List TaskId)
  | start (ranks : List TaskId)
  | getput (target : TaskId)
  | complete
  | wait

/-- A copy of a thread whose action is a post or a start. -/
structure Copy where
  task : TaskId
  ranks : List TaskId

/-- What a task has done so far: its open post and start, and how many posts, starts and completed
starts have named each task. The source has no such counters. -/
structure Progress where
  openPost : Option (List TaskId)
  openStart : Option (List TaskId)
  posts : TaskId → Nat
  starts : TaskId → Nat
  completes : TaskId → Nat

def Progress.initial : Progress := ⟨none, none, fun _ => 0, fun _ => 0, fun _ => 0⟩

def named (counts : TaskId → Nat) (ranks : List TaskId) : TaskId → Nat := fun t =>
  if t ∈ ranks then counts t + 1 else counts t

def Progress.after (p : Progress) : Action → Progress
  | .post ranks => { p with openPost := some ranks, posts := named p.posts ranks }
  | .wait => { p with openPost := none }
  | .start ranks => { p with openStart := some ranks, starts := named p.starts ranks }
  | .complete =>
      { p with openStart := none, completes := named p.completes (p.openStart.getD []) }
  | .work | .getput _ => p

structure State where
  mode : WindowMode
  postDone : List Copy
  startDone : List Copy
  completeDone : List Copy
  pendingOfPost : List TaskId
  pendingRmaToComplete : List TaskId
  pendingWaitToComplete : List TaskId
  postOperations : List TaskId
  inFlight : List TaskId
  actions : TaskId → List Action
  ready : List TaskId
  progress : TaskId → Progress

def State.initial (programs : List (List Action)) : State where
  mode := .none
  postDone := []
  startDone := []
  completeDone := []
  pendingOfPost := []
  pendingRmaToComplete := []
  pendingWaitToComplete := []
  postOperations := []
  inFlight := []
  actions t := programs.getD t []
  ready := (List.range programs.length).filter fun t => (programs.getD t []).length ≠ 0
  progress _ := .initial

namespace State

def pop (s : State) (t : TaskId) : State :=
  match s.actions t with
  | [] => s
  | action :: rest =>
      { s with
        actions := Function.update s.actions t rest
        progress := Function.update s.progress t ((s.progress t).after action) }

def makeReady (s : State) (t : TaskId) : State :=
  match s.actions t with
  | [] => s
  | _ => { s with ready := s.ready ++ [t] }

def advance (s : State) (t : TaskId) : State := (s.pop t).makeReady t

end State

def copyOf (copies : List Copy) (t : TaskId) : Option Copy := copies.find? fun c => c.task == t

def withoutCopy (copies : List Copy) (t : TaskId) : List Copy :=
  copies.eraseP fun c => c.task == t

/-- `there_is_a_post_for_this_start`. It panics if a post does not name the task that starts. -/
def thereIsAPost (postDone : List Copy) (t : TaskId) : List TaskId → Option Bool
  | [] => some true
  | rank :: ranks =>
      match copyOf postDone rank with
      | none => some false
      | some c => if t ∈ c.ranks then thereIsAPost postDone t ranks else none

def startAccess (s : State) (t : TaskId) (ranks : List TaskId) : State :=
  { s with startDone := s.startDone ++ [Copy.mk t ranks] }.advance t

def osStart (s : State) (t : TaskId) (ranks : List TaskId) : Option State :=
  if (copyOf s.startDone t).isSome then none
  else
    (thereIsAPost s.postDone t ranks).map fun posted =>
      if posted then startAccess s t ranks
      else { s with pendingOfPost := s.pendingOfPost ++ [t] }

/-- The first loop of `are_there_pending_start`, with the cursor of the queue at `i`. -/
def retryStarts : Nat → Nat → State → Option State
  | fuel, i, s =>
      match s.pendingOfPost[i]? with
      | none => some s
      | some t =>
          match fuel, s.actions t with
          | fuel + 1, .start ranks :: _ => (osStart s t ranks).bind (retryStarts fuel (i + 1))
          | _, _ => none

/-- The second loop of `are_there_pending_start`. -/
def removeStarted (s : State) : State :=
  { s with
    pendingOfPost := s.startDone.foldl (fun queue c => queue.erase c.task) s.pendingOfPost }

def osPost (fuel : Nat) (s : State) (t : TaskId) (ranks : List TaskId) : Option State :=
  if (copyOf s.postDone t).isSome then none
  else
    (retryStarts fuel 0 { s with postDone := s.postDone ++ [Copy.mk t ranks] }).map fun s =>
      (removeStarted s).advance t

/-- The completes that a wait still needs. Each copy of a task counts. -/
def located (completeDone : List Copy) : List TaskId → Int
  | [] => 0
  | rank :: ranks =>
      located completeDone ranks + 1 - completeDone.countP fun c => c.task == rank

/-- A wait that goes on. The completes are only freed when no post is open. -/
def closePost (s : State) (t : TaskId) : State :=
  let postDone := withoutCopy s.postDone t
  match postDone with
  | [] => { s with postDone := postDone, completeDone := [], mode := .none }
  | _ => { s with postDone := postDone }

def osWait (s : State) (t : TaskId) : Option State :=
  (copyOf s.postDone t).map fun c =>
    if located s.completeDone c.ranks = 0 then (closePost s t).advance t
    else { s with pendingWaitToComplete := s.pendingWaitToComplete ++ [t] }

/-- The waits that are tried again by `are_there_pending_waits`. -/
def retryWaits : State → List TaskId → Option State
  | s, [] => some s
  | s, t :: ts =>
      match s.actions t with
      | .wait :: _ => (osWait s t).bind fun s => retryWaits s ts
      | _ => none

def osComplete (s : State) (t : TaskId) : Option State :=
  if t ∈ s.postOperations then
    some { s with pendingRmaToComplete := s.pendingRmaToComplete ++ [t] }
  else
    (copyOf s.startDone t).bind fun c =>
      (retryWaits { s with
        startDone := withoutCopy s.startDone t
        completeDone := s.completeDone ++ [c]
        pendingWaitToComplete := [] } s.pendingWaitToComplete).map fun s => s.advance t

/-- `os_getput` in post mode. -/
def osGetput (s : State) (t : TaskId) : State :=
  { s with
    postOperations := s.postOperations ++ [t]
    inFlight := s.inFlight ++ [t] }.advance t

def postOperation (fuel : Nat) (s : State) (t : TaskId) : Action → Option State
  | .post ranks => osPost fuel s t ranks
  | .start ranks => osStart s t ranks
  | .complete => osComplete s t
  | .wait => osWait s t
  | .work | .getput _ => none

/-- `ONE_SIDED_operation`. What a transfer does in another mode is left open. -/
def oneSidedOperation (fuel : Nat) (s : State) (t : TaskId) : Action → Option State
  | .work => some (s.advance t)
  | .getput _ => if s.mode = .post then some (osGetput s t) else none
  | action =>
      if s.mode = .none ∨ s.mode = .post then
        postOperation fuel { s with mode := .post } t action
      else none

def osCompleted (s : State) (t : TaskId) : Option State :=
  match s.mode with
  | .none => some s
  | .post =>
      if t ∈ s.postOperations then
        let s := { s with postOperations := s.postOperations.erase t }
        if t ∈ s.pendingRmaToComplete then
          osComplete { s with pendingRmaToComplete := s.pendingRmaToComplete.erase t } t
        else some s
      else none
  | _ => none

/-- The scheduler runs the action of a ready task, or a transfer completes. -/
inductive Label
  | dispatch (t : TaskId)
  | completed (t : TaskId)

def step (fuel : Nat) (s : State) : Label → Option State
  | .dispatch t =>
      match s.actions t with
      | [] => some { s with ready := s.ready.erase t }
      | action :: _ => oneSidedOperation fuel { s with ready := s.ready.erase t } t action
  | .completed t => osCompleted { s with inFlight := s.inFlight.erase t } t

def Enabled (s : State) : Label → Prop
  | .dispatch t => t ∈ s.ready
  | .completed t => t ∈ s.inFlight

instance (s : State) : (l : Label) → Decidable (Enabled s l)
  | .dispatch t => inferInstanceAs (Decidable (t ∈ s.ready))
  | .completed t => inferInstanceAs (Decidable (t ∈ s.inFlight))

/-! ## What holds between the steps -/

/-- Whether a task may do an action behind others: posts and starts do not nest, and a transfer is
to a task that was started. -/
def Progress.Allows (p : Progress) : Action → Prop
  | .work => True
  | .post _ => p.openPost = none
  | .wait => p.openPost ≠ none
  | .start _ => p.openStart = none
  | .complete => p.openStart ≠ none
  | .getput target => ∃ ranks, p.openStart = some ranks ∧ target ∈ ranks

/-- All starts but the open one have been completed. -/
def Progress.Balanced (p : Progress) : Prop :=
  ∀ a, p.starts a = if a ∈ p.openStart.getD [] then p.completes a + 1 else p.completes a

def WellFormed : Progress → List Action → Prop
  | _, [] => True
  | p, action :: actions => p.Allows action ∧ WellFormed (p.after action) actions

def StartsNext (actions : List Action) (ranks : List TaskId) : Prop :=
  ∃ rest, actions = .start ranks :: rest

def CompletesNext (actions : List Action) : Prop := ∃ rest, actions = .complete :: rest

def WaitsNext (actions : List Action) : Prop := ∃ rest, actions = .wait :: rest

/-- Each task with actions is ready, in the hands of the current operation, or waits once in the
queue of its action. -/
structure Queued (s : State) (loose : List TaskId) : Prop where
  once : ∀ t, s.ready.count t + s.pendingOfPost.count t + s.pendingRmaToComplete.count t +
    s.pendingWaitToComplete.count t + loose.count t ≤ 1
  readyActions : ∀ t ∈ s.ready, s.actions t ≠ []
  start : ∀ t ∈ s.pendingOfPost, ∃ ranks, StartsNext (s.actions t) ranks
  rma : ∀ t ∈ s.pendingRmaToComplete, CompletesNext (s.actions t)
  wait : ∀ t ∈ s.pendingWaitToComplete, WaitsNext (s.actions t)
  held : ∀ t, s.actions t ≠ [] → t ∈ s.ready ∨ t ∈ s.pendingOfPost ∨
    t ∈ s.pendingRmaToComplete ∨ t ∈ s.pendingWaitToComplete ∨ t ∈ loose

/-- The open post of a task names another one. -/
def Names (s : State) (a t : TaskId) : Prop := ∃ c ∈ s.postDone, c.task = a ∧ t ∈ c.ranks

def IsOpen (s : State) (a : TaskId) : Prop := ∃ c ∈ s.postDone, c.task = a

/-- A complete of a task is kept. -/
def Completed (s : State) (t : TaskId) : Prop := ∃ c ∈ s.completeDone, c.task = t

/-- The copies are the open posts and starts, a start belongs to open posts that name the task and
that it has not completed, and a post is completed by those of its group whose complete is kept. -/
structure Records (s : State) : Prop where
  wellFormed : ∀ t, WellFormed (s.progress t) (s.actions t)
  postsNodup : (s.postDone.map Copy.task).Nodup
  posts : ∀ c, c ∈ s.postDone ↔ (s.progress c.task).openPost = some c.ranks
  startsNodup : (s.startDone.map Copy.task).Nodup
  starts : ∀ c, c ∈ s.startDone ↔ (s.progress c.task).openStart = some c.ranks
  completesNodup : (s.completeDone.map Copy.task).Nodup
  started : ∀ c ∈ s.startDone, ¬ Completed s c.task ∧ ∀ a ∈ c.ranks, Names s a c.task
  counted : ∀ a t, Names s a t →
    (Completed s t → (s.progress a).posts t = (s.progress t).completes a) ∧
    (¬ Completed s t → (s.progress a).posts t = (s.progress t).completes a + 1)
  closed : ∀ a t, ¬ Names s a t → (s.progress a).posts t = (s.progress t).completes a
  balanced : ∀ t, (s.progress t).Balanced
  mode : s.mode = .none ∨ s.mode = .post
  postMode : s.postDone ≠ [] → s.mode = .post
  operations : ∀ t, s.postOperations.count t = s.inFlight.count t
  flying : ∀ t ∈ s.inFlight, ∃ c ∈ s.startDone, c.task = t ∧ c.ranks ≠ []

def CompletesBlocked (s : State) : Prop := ∀ t ∈ s.pendingRmaToComplete, t ∈ s.postOperations

def StartsBlocked (s : State) : Prop :=
  ∀ t ∈ s.pendingOfPost, ∀ ranks, StartsNext (s.actions t) ranks → ∃ a ∈ ranks, ¬ IsOpen s a

def WaitsBlocked (s : State) : Prop :=
  ∀ t ∈ s.pendingWaitToComplete, ∃ a, Names s t a ∧ ¬ Completed s a

structure Inv (s : State) (loose : List TaskId) : Prop where
  queued : Queued s loose
  records : Records s
  completesBlocked : CompletesBlocked s
  startsBlocked : StartsBlocked s
  waitsBlocked : WaitsBlocked s

section

variable {s s' : State} {t u : TaskId} {copies : List Copy} {c : Copy} {action : Action}
variable {rest : List Action} {loose : List TaskId}

theorem copyOf_eq_none : copyOf copies t = none ↔ ∀ c ∈ copies, c.task ≠ t := by
  rw [copyOf, List.find?_eq_none]
  constructor
  · exact fun h c hc htask => h c hc (beq_iff_eq.mpr htask)
  · exact fun h c hc htask => h c hc (beq_iff_eq.mp htask)

theorem mem_of_copyOf (h : copyOf copies t = some c) : c ∈ copies ∧ c.task = t := by
  have hfind : copies.find? (fun d => d.task == t) = some c := h
  have htask := @List.find?_some _ (fun d : Copy => d.task == t) c copies hfind
  exact ⟨List.mem_of_find?_eq_some hfind, beq_iff_eq.mp htask⟩

theorem eq_of_task {d : Copy} (hnodup : (copies.map Copy.task).Nodup) (hc : c ∈ copies)
    (hd : d ∈ copies) (htask : c.task = d.task) : c = d :=
  List.inj_on_of_nodup_map hnodup hc hd htask

theorem copyOf_eq (hnodup : (copies.map Copy.task).Nodup) (hc : c ∈ copies) :
    copyOf copies c.task = some c := by
  cases hfind : copyOf copies c.task with
  | none => exact absurd rfl (copyOf_eq_none.mp hfind c hc)
  | some d =>
      obtain ⟨hd, htask⟩ := mem_of_copyOf hfind
      rw [eq_of_task hnodup hd hc htask]

theorem mem_withoutCopy (hnodup : (copies.map Copy.task).Nodup) :
    c ∈ withoutCopy copies t ↔ c ∈ copies ∧ c.task ≠ t := by
  induction copies with
  | nil => exact ⟨fun h => absurd h List.not_mem_nil, fun h => absurd h.1 List.not_mem_nil⟩
  | cons d copies ih =>
      obtain ⟨hnot, hrest⟩ := List.nodup_cons.mp hnodup
      have hout : ∀ e ∈ copies, e.task ≠ d.task := fun e he heq =>
        hnot (heq ▸ List.mem_map_of_mem he)
      by_cases hd : d.task = t
      · have hskip : withoutCopy (d :: copies) t = copies :=
          @List.eraseP_cons_of_pos _ d copies (fun e => e.task == t) (beq_iff_eq.mpr hd)
        rw [hskip, ← hd]
        constructor
        · exact fun h => ⟨List.mem_cons_of_mem d h, hout c h⟩
        · rintro ⟨hin, hne⟩
          rcases List.mem_cons.mp hin with heq | hin
          · exact absurd (congrArg Copy.task heq) hne
          · exact hin
      · have hkeep : withoutCopy (d :: copies) t = d :: withoutCopy copies t :=
          @List.eraseP_cons_of_neg _ d copies (fun e => e.task == t)
            fun h => hd (beq_iff_eq.mp h)
        rw [hkeep, List.mem_cons, List.mem_cons, ih hrest]
        constructor
        · rintro (heq | ⟨hin, hne⟩)
          · exact ⟨Or.inl heq, heq ▸ hd⟩
          · exact ⟨Or.inr hin, hne⟩
        · rintro ⟨heq | hin, hne⟩
          · exact Or.inl heq
          · exact Or.inr ⟨hin, hne⟩

theorem nodup_withoutCopy (hnodup : (copies.map Copy.task).Nodup) (t : TaskId) :
    ((withoutCopy copies t).map Copy.task).Nodup :=
  (List.Sublist.map Copy.task (List.eraseP_sublist ..)).nodup hnodup

theorem nodup_concat (hnodup : (copies.map Copy.task).Nodup) (hnew : ∀ d ∈ copies, d.task ≠ c.task) :
    ((copies ++ [c]).map Copy.task).Nodup := by
  rw [List.map_append]
  apply List.nodup_append.mpr
  refine ⟨hnodup, List.nodup_singleton _, fun a ha b hb => ?_⟩
  obtain ⟨d, hd, heq⟩ := List.mem_map.mp ha
  rw [← heq, List.mem_singleton.mp hb]
  exact hnew d hd

/-! ## Scheduling -/

theorem pop_of_cons (h : s.actions t = action :: rest) :
    s.pop t = { s with
      actions := Function.update s.actions t rest
      progress := Function.update s.progress t ((s.progress t).after action) } := by
  unfold State.pop
  rw [h]

theorem pop_of_nil (h : s.actions t = []) : s.pop t = s := by
  unfold State.pop
  rw [h]

theorem makeReady_of_nil (h : s.actions t = []) : s.makeReady t = s := by
  unfold State.makeReady
  rw [h]

theorem makeReady_of_ne (h : s.actions t ≠ []) :
    s.makeReady t = { s with ready := s.ready ++ [t] } := by
  unfold State.makeReady
  cases hactions : s.actions t with
  | nil => exact absurd hactions h
  | cons action rest => rfl

theorem count_cons (t u : TaskId) (queue : List TaskId) :
    (t :: queue).count u = [t].count u + queue.count u := by
  show ([t] ++ queue).count u = _
  exact List.count_append

theorem count_erase {queue : List TaskId} (ht : t ∈ queue) (u : TaskId) :
    queue.count u = [t].count u + (queue.erase t).count u := by
  rw [(List.perm_cons_erase ht).count_eq u, count_cons]

theorem Queued.take (h : Queued s []) (ht : t ∈ s.ready) :
    Queued { s with ready := s.ready.erase t } [t] := by
  refine ⟨fun u => ?_, fun u hu => h.readyActions u (List.mem_of_mem_erase hu), h.start, h.rma,
    h.wait, fun u hu => ?_⟩
  · have honce := h.once u
    rw [count_erase ht u, List.count_nil] at honce
    show (s.ready.erase t).count u + s.pendingOfPost.count u + s.pendingRmaToComplete.count u +
      s.pendingWaitToComplete.count u + [t].count u ≤ 1
    omega
  · rcases h.held u hu with hin | hin | hin | hin | hin
    · by_cases hut : u = t
      · rw [hut]
        exact Or.inr (Or.inr (Or.inr (Or.inr (List.mem_singleton_self t))))
      · exact Or.inl ((List.mem_erase_of_ne hut).mpr hin)
    · exact Or.inr (Or.inl hin)
    · exact Or.inr (Or.inr (Or.inl hin))
    · exact Or.inr (Or.inr (Or.inr (Or.inl hin)))
    · exact absurd hin List.not_mem_nil

theorem Queued.not_mem (h : Queued s loose) (ht : t ∈ loose) : t ∉ s.ready ∧
    t ∉ s.pendingOfPost ∧ t ∉ s.pendingRmaToComplete ∧ t ∉ s.pendingWaitToComplete := by
  have honce := h.once t
  have hpos : 0 < loose.count t := List.count_pos_iff.mpr ht
  refine ⟨?_, ?_, ?_, ?_⟩
  · exact List.count_eq_zero.mp (by omega)
  · exact List.count_eq_zero.mp (by omega)
  · exact List.count_eq_zero.mp (by omega)
  · exact List.count_eq_zero.mp (by omega)

theorem pop_actions_of_ne (h : u ≠ t) : (s.pop t).actions u = s.actions u := by
  unfold State.pop
  split
  · rfl
  · exact Function.update_of_ne h ..

theorem Queued.pop (h : Queued s loose) (ht : t ∈ loose) : Queued (s.pop t) loose := by
  obtain ⟨hready, hstart, hrma, hwait⟩ := h.not_mem ht
  have hactions {queue : List TaskId} (hout : t ∉ queue) (u : TaskId) (hu : u ∈ queue) :
      (s.pop t).actions u = s.actions u := pop_actions_of_ne fun heq => hout (heq ▸ hu)
  cases hnext : s.actions t with
  | nil =>
      rw [pop_of_nil hnext]
      exact h
  | cons action rest =>
      have hfields := pop_of_cons hnext
      refine ⟨?_, fun u hu => ?_, fun u hu => ?_, fun u hu => ?_, fun u hu => ?_, fun u hu => ?_⟩
      · rw [hfields]
        exact h.once
      · rw [hfields] at hu
        rw [hactions hready u hu]
        exact h.readyActions u hu
      · rw [hfields] at hu
        rw [hactions hstart u hu]
        exact h.start u hu
      · rw [hfields] at hu
        rw [hactions hrma u hu]
        exact h.rma u hu
      · rw [hfields] at hu
        rw [hactions hwait u hu]
        exact h.wait u hu
      · rw [hfields]
        by_cases hut : u = t
        · rw [hut]
          exact Or.inr (Or.inr (Or.inr (Or.inr ht)))
        · rw [pop_actions_of_ne hut] at hu
          exact h.held u hu

theorem Queued.makeReady (h : Queued s (t :: loose)) : Queued (s.makeReady t) loose := by
  by_cases hnil : s.actions t = []
  · rw [makeReady_of_nil hnil]
    refine ⟨fun u => ?_, h.readyActions, h.start, h.rma, h.wait, fun u hu => ?_⟩
    · have honce := h.once u
      rw [count_cons] at honce
      omega
    · rcases h.held u hu with hin | hin | hin | hin | hin
      · exact Or.inl hin
      · exact Or.inr (Or.inl hin)
      · exact Or.inr (Or.inr (Or.inl hin))
      · exact Or.inr (Or.inr (Or.inr (Or.inl hin)))
      · rcases List.mem_cons.mp hin with heq | hin
        · exact absurd (heq ▸ hnil) hu
        · exact Or.inr (Or.inr (Or.inr (Or.inr hin)))
  · rw [makeReady_of_ne hnil]
    refine ⟨fun u => ?_, fun u hu => ?_, h.start, h.rma, h.wait, fun u hu => ?_⟩
    · have honce := h.once u
      rw [count_cons] at honce
      show (s.ready ++ [t]).count u + s.pendingOfPost.count u + s.pendingRmaToComplete.count u +
      s.pendingWaitToComplete.count u + loose.count u ≤ 1
      rw [List.count_append]
      omega
    · rcases List.mem_append.mp hu with hold | hnew
      · exact h.readyActions u hold
      · rw [List.mem_singleton.mp hnew]
        exact hnil
    · rcases h.held u hu with hin | hin | hin | hin | hin
      · exact Or.inl (List.mem_append_left _ hin)
      · exact Or.inr (Or.inl hin)
      · exact Or.inr (Or.inr (Or.inl hin))
      · exact Or.inr (Or.inr (Or.inr (Or.inl hin)))
      · rcases List.mem_cons.mp hin with heq | hin
        · exact Or.inl (List.mem_append_right _ (List.mem_singleton.mpr heq))
        · exact Or.inr (Or.inr (Or.inr (Or.inr hin)))

theorem Queued.advance (h : Queued s (t :: loose)) : Queued (s.advance t) loose :=
  (h.pop List.mem_cons_self).makeReady

theorem Queued.blockStart {ranks : List TaskId} (h : Queued s (t :: loose))
    (ht : StartsNext (s.actions t) ranks) :
    Queued { s with pendingOfPost := s.pendingOfPost ++ [t] } loose := by
  refine ⟨fun u => ?_, h.readyActions, fun u hu => ?_, h.rma, h.wait, fun u hu => ?_⟩
  · have honce := h.once u
    rw [count_cons] at honce
    show s.ready.count u + (s.pendingOfPost ++ [t]).count u + s.pendingRmaToComplete.count u +
      s.pendingWaitToComplete.count u + loose.count u ≤ 1
    rw [List.count_append]
    omega
  · rcases List.mem_append.mp hu with hold | hnew
    · exact h.start u hold
    · rw [List.mem_singleton.mp hnew]
      exact ⟨ranks, ht⟩
  · rcases h.held u hu with hin | hin | hin | hin | hin
    · exact Or.inl hin
    · exact Or.inr (Or.inl (List.mem_append_left _ hin))
    · exact Or.inr (Or.inr (Or.inl hin))
    · exact Or.inr (Or.inr (Or.inr (Or.inl hin)))
    · rcases List.mem_cons.mp hin with heq | hin
      · exact Or.inr (Or.inl (List.mem_append_right _ (List.mem_singleton.mpr heq)))
      · exact Or.inr (Or.inr (Or.inr (Or.inr hin)))

theorem Queued.blockComplete (h : Queued s (t :: loose)) (ht : CompletesNext (s.actions t)) :
    Queued { s with pendingRmaToComplete := s.pendingRmaToComplete ++ [t] } loose := by
  refine ⟨fun u => ?_, h.readyActions, h.start, fun u hu => ?_, h.wait, fun u hu => ?_⟩
  · have honce := h.once u
    rw [count_cons] at honce
    show s.ready.count u + s.pendingOfPost.count u + (s.pendingRmaToComplete ++ [t]).count u +
      s.pendingWaitToComplete.count u + loose.count u ≤ 1
    rw [List.count_append]
    omega
  · rcases List.mem_append.mp hu with hold | hnew
    · exact h.rma u hold
    · rw [List.mem_singleton.mp hnew]
      exact ht
  · rcases h.held u hu with hin | hin | hin | hin | hin
    · exact Or.inl hin
    · exact Or.inr (Or.inl hin)
    · exact Or.inr (Or.inr (Or.inl (List.mem_append_left _ hin)))
    · exact Or.inr (Or.inr (Or.inr (Or.inl hin)))
    · rcases List.mem_cons.mp hin with heq | hin
      · exact Or.inr (Or.inr (Or.inl (List.mem_append_right _ (List.mem_singleton.mpr heq))))
      · exact Or.inr (Or.inr (Or.inr (Or.inr hin)))

theorem Queued.blockWait (h : Queued s (t :: loose)) (ht : WaitsNext (s.actions t)) :
    Queued { s with pendingWaitToComplete := s.pendingWaitToComplete ++ [t] } loose := by
  refine ⟨fun u => ?_, h.readyActions, h.start, h.rma, fun u hu => ?_, fun u hu => ?_⟩
  · have honce := h.once u
    rw [count_cons] at honce
    show s.ready.count u + s.pendingOfPost.count u + s.pendingRmaToComplete.count u +
      (s.pendingWaitToComplete ++ [t]).count u + loose.count u ≤ 1
    rw [List.count_append]
    omega
  · rcases List.mem_append.mp hu with hold | hnew
    · exact h.wait u hold
    · rw [List.mem_singleton.mp hnew]
      exact ht
  · rcases h.held u hu with hin | hin | hin | hin | hin
    · exact Or.inl hin
    · exact Or.inr (Or.inl hin)
    · exact Or.inr (Or.inr (Or.inl hin))
    · exact Or.inr (Or.inr (Or.inr (Or.inl (List.mem_append_left _ hin))))
    · rcases List.mem_cons.mp hin with heq | hin
      · exact Or.inr (Or.inr (Or.inr (Or.inl
          (List.mem_append_right _ (List.mem_singleton.mpr heq)))))
      · exact Or.inr (Or.inr (Or.inr (Or.inr hin)))

theorem Queued.takeStarts (h : Queued s loose) :
    Queued { s with pendingOfPost := [] } (s.pendingOfPost ++ loose) := by
  refine ⟨fun u => ?_, h.readyActions, fun u hu => absurd hu List.not_mem_nil, h.rma, h.wait,
    fun u hu => ?_⟩
  · have honce := h.once u
    show s.ready.count u + [].count u + s.pendingRmaToComplete.count u +
      s.pendingWaitToComplete.count u + (s.pendingOfPost ++ loose).count u ≤ 1
    rw [List.count_append, List.count_nil]
    omega
  · rcases h.held u hu with hin | hin | hin | hin | hin
    · exact Or.inl hin
    · exact Or.inr (Or.inr (Or.inr (Or.inr (List.mem_append_left _ hin))))
    · exact Or.inr (Or.inr (Or.inl hin))
    · exact Or.inr (Or.inr (Or.inr (Or.inl hin)))
    · exact Or.inr (Or.inr (Or.inr (Or.inr (List.mem_append_right _ hin))))

theorem Queued.takeWaits (h : Queued s loose) :
    Queued { s with pendingWaitToComplete := [] } (s.pendingWaitToComplete ++ loose) := by
  refine ⟨fun u => ?_, h.readyActions, h.start, h.rma, fun u hu => absurd hu List.not_mem_nil,
    fun u hu => ?_⟩
  · have honce := h.once u
    show s.ready.count u + s.pendingOfPost.count u + s.pendingRmaToComplete.count u + [].count u +
      (s.pendingWaitToComplete ++ loose).count u ≤ 1
    rw [List.count_append, List.count_nil]
    omega
  · rcases h.held u hu with hin | hin | hin | hin | hin
    · exact Or.inl hin
    · exact Or.inr (Or.inl hin)
    · exact Or.inr (Or.inr (Or.inl hin))
    · exact Or.inr (Or.inr (Or.inr (Or.inr (List.mem_append_left _ hin))))
    · exact Or.inr (Or.inr (Or.inr (Or.inr (List.mem_append_right _ hin))))

theorem Queued.takeComplete (h : Queued s loose) (ht : t ∈ s.pendingRmaToComplete) :
    Queued { s with pendingRmaToComplete := s.pendingRmaToComplete.erase t } (t :: loose) := by
  refine ⟨fun u => ?_, h.readyActions, h.start,
    fun u hu => h.rma u (List.mem_of_mem_erase hu), h.wait, fun u hu => ?_⟩
  · have honce := h.once u
    rw [count_erase ht u] at honce
    show s.ready.count u + s.pendingOfPost.count u + (s.pendingRmaToComplete.erase t).count u +
      s.pendingWaitToComplete.count u + (t :: loose).count u ≤ 1
    rw [count_cons]
    omega
  · rcases h.held u hu with hin | hin | hin | hin | hin
    · exact Or.inl hin
    · exact Or.inr (Or.inl hin)
    · by_cases hut : u = t
      · rw [hut]
        exact Or.inr (Or.inr (Or.inr (Or.inr List.mem_cons_self)))
      · exact Or.inr (Or.inr (Or.inl ((List.mem_erase_of_ne hut).mpr hin)))
    · exact Or.inr (Or.inr (Or.inr (Or.inl hin)))
    · exact Or.inr (Or.inr (Or.inr (Or.inr (List.mem_cons_of_mem t hin))))

/-! ## Records -/

theorem progress_pop (h : s.actions t = action :: rest) (u : TaskId) : (s.pop t).progress u =
    Function.update s.progress t ((s.progress t).after action) u := by
  rw [pop_of_cons h]

theorem mem_concat_iff {copies : List Copy} {opened : TaskId → Option (List TaskId)}
    {ranks : List TaskId} (h : ∀ c, c ∈ copies ↔ opened c.task = some c.ranks)
    (hnone : opened t = none) (c : Copy) :
    c ∈ copies ++ [Copy.mk t ranks] ↔ Function.update opened t (some ranks) c.task = some c.ranks := by
  rw [List.mem_append, List.mem_singleton, h]
  by_cases hc : c.task = t
  · rw [hc, hnone, Function.update_self, Option.some_inj]
    constructor
    · rintro (hno | heq)
      · cases hno
      · rw [heq]
    · intro heq
      right
      rw [heq, ← hc]
  · rw [Function.update_of_ne hc]
    apply or_iff_left
    intro heq
    exact hc (congrArg Copy.task heq)

theorem mem_withoutCopy_iff {copies : List Copy} {opened : TaskId → Option (List TaskId)}
    (hnodup : (copies.map Copy.task).Nodup) (h : ∀ c, c ∈ copies ↔ opened c.task = some c.ranks)
    (c : Copy) :
    c ∈ withoutCopy copies t ↔ Function.update opened t none c.task = some c.ranks := by
  rw [mem_withoutCopy hnodup, h]
  by_cases hc : c.task = t
  · rw [hc, Function.update_self]
    constructor
    · exact fun hboth => absurd rfl hboth.2
    · intro hno
      cases hno
  · rw [Function.update_of_ne hc]
    exact and_iff_left hc

theorem update_part {β : Type} (part : Progress → β) (progress : TaskId → Progress) (p : Progress)
    (t u : TaskId) : part (Function.update progress t p u) =
      Function.update (fun v => part (progress v)) t (part p) u :=
  Function.apply_update (fun _ => part) progress t p u

theorem part_after {β : Type} (part : Progress → β) (s : State) (t : TaskId) (action : Action)
    (h : part ((s.progress t).after action) = part (s.progress t)) (u : TaskId) :
    part (Function.update s.progress t ((s.progress t).after action) u) = part (s.progress u) := by
  rw [update_part part, h]
  exact congrFun (Function.update_eq_self t fun v => part (s.progress v)) u

theorem wellFormed_update (h : ∀ u, WellFormed (s.progress u) (s.actions u))
    (ht : s.actions t = action :: rest) (u : TaskId) :
    WellFormed (Function.update s.progress t ((s.progress t).after action) u)
      (Function.update s.actions t rest u) := by
  by_cases hu : u = t
  · rw [hu, Function.update_self, Function.update_self]
    have hwell := h t
    rw [ht] at hwell
    exact hwell.2
  · rw [Function.update_of_ne hu, Function.update_of_ne hu]
    exact h u

theorem Records.allows (h : Records s) (ht : s.actions t = action :: rest) :
    (s.progress t).Allows action := by
  have hwell := h.wellFormed t
  rw [ht] at hwell
  exact hwell.1

theorem Progress.Balanced.start {p : Progress} {ranks : List TaskId} (h : p.Balanced)
    (hnone : p.openStart = none) : (p.after (.start ranks)).Balanced := by
  intro a
  have ha := h a
  rw [hnone] at ha
  show named p.starts ranks a = _
  rw [named, ha]
  rfl

theorem Progress.Balanced.complete {p : Progress} {ranks : List TaskId} (h : p.Balanced)
    (hsome : p.openStart = some ranks) : (p.after .complete).Balanced := by
  intro a
  have ha := h a
  rw [hsome] at ha
  show p.starts a = named p.completes (p.openStart.getD []) a
  rw [hsome, ha]
  rfl

theorem balanced_update (h : ∀ u, (s.progress u).Balanced)
    (ht : ((s.progress t).after action).Balanced) (u : TaskId) :
    (Function.update s.progress t ((s.progress t).after action) u).Balanced :=
  (Function.forall_update_iff s.progress fun _ p => p.Balanced).mpr ⟨ht, fun v _ => h v⟩ u

/-- A start that goes on belongs to the open posts of its group. -/
theorem Records.start {ranks : List TaskId} (h : Records s)
    (ht : s.actions t = .start ranks :: rest) (hfree : ¬ Completed s t)
    (hnames : ∀ a ∈ ranks, Names s a t) : Records ({ s with
      startDone := s.startDone ++ [Copy.mk t ranks] }.pop t) := by
  have hnone : (s.progress t).openStart = none := h.allows ht
  have hfresh : ∀ d ∈ s.startDone, d.task ≠ t := by
    intro d hd htask
    have hopen := (h.starts d).mp hd
    rw [htask, hnone] at hopen
    cases hopen
  rw [pop_of_cons (s := { s with startDone := s.startDone ++ [Copy.mk t ranks] }) ht]
  have hcompletes (u : TaskId) : (Function.update s.progress t
      ((s.progress t).after (.start ranks)) u).completes = (s.progress u).completes :=
    part_after Progress.completes s t (.start ranks) rfl u
  have hposts (u : TaskId) : (Function.update s.progress t
      ((s.progress t).after (.start ranks)) u).posts = (s.progress u).posts :=
    part_after Progress.posts s t (.start ranks) rfl u
  refine ⟨wellFormed_update h.wellFormed ht, h.postsNodup, fun c => ?_,
    nodup_concat h.startsNodup hfresh, fun c => ?_, h.completesNodup, fun c hc => ?_,
    fun a u hname => ?_, fun a u hname => ?_,
    balanced_update h.balanced ((h.balanced t).start hnone), h.mode, h.postMode, h.operations,
    fun u hu => ?_⟩
  · rw [h.posts c]
    show _ ↔ Progress.openPost _ = _
    rw [part_after Progress.openPost s t (.start ranks) rfl]
  · show c ∈ s.startDone ++ [Copy.mk t ranks] ↔ Progress.openStart _ = _
    rw [update_part Progress.openStart]
    exact mem_concat_iff h.starts hnone c
  · rcases List.mem_append.mp hc with hold | hnew
    · exact h.started c hold
    · rw [List.mem_singleton.mp hnew]
      exact ⟨hfree, hnames⟩
  · show (_ → Progress.posts _ u = Progress.completes _ a) ∧
      (_ → Progress.posts _ u = Progress.completes _ a + 1)
    rw [hposts, hcompletes]
    exact h.counted a u hname
  · show Progress.posts _ u = Progress.completes _ a
    rw [hposts, hcompletes]
    exact h.closed a u hname
  · obtain ⟨c, hc, hcopy⟩ := h.flying u hu
    exact ⟨c, List.mem_append_left _ hc, hcopy⟩

theorem Records.post {ranks : List TaskId} (h : Records s)
    (ht : s.actions t = .post ranks :: rest) (hmode : s.mode = .post)
    (hfree : ∀ u ∈ ranks, ¬ Completed s u) : Records ({ s with
      postDone := s.postDone ++ [Copy.mk t ranks] }.pop t) := by
  have hnone : (s.progress t).openPost = none := h.allows ht
  have hfresh : ∀ d ∈ s.postDone, d.task ≠ t := by
    intro d hd htask
    have hopen := (h.posts d).mp hd
    rw [htask, hnone] at hopen
    cases hopen
  have hnames (a u : TaskId) : (∃ c ∈ s.postDone ++ [Copy.mk t ranks], c.task = a ∧ u ∈ c.ranks) ↔
      Names s a u ∨ (a = t ∧ u ∈ ranks) := by
    constructor
    · rintro ⟨c, hc, htask, hu⟩
      rcases List.mem_append.mp hc with hold | hnew
      · exact Or.inl ⟨c, hold, htask, hu⟩
      · rw [List.mem_singleton.mp hnew] at htask hu
        exact Or.inr ⟨htask.symm, hu⟩
    · rintro (⟨c, hc, hcopy⟩ | ⟨hat, hu⟩)
      · exact ⟨c, List.mem_append_left _ hc, hcopy⟩
      · exact ⟨Copy.mk t ranks, List.mem_append_right _ (List.mem_singleton_self _), hat.symm, hu⟩
  have hnotNames (u : TaskId) : ¬ Names s t u := fun ⟨d, hd, htask, _⟩ => hfresh d hd htask
  rw [pop_of_cons (s := { s with postDone := s.postDone ++ [Copy.mk t ranks] }) ht]
  have hcompletes (u : TaskId) : (Function.update s.progress t
      ((s.progress t).after (.post ranks)) u).completes = (s.progress u).completes :=
    part_after Progress.completes s t (.post ranks) rfl u
  have hself : (Function.update s.progress t ((s.progress t).after (.post ranks)) t).posts =
      named (s.progress t).posts ranks := by
    rw [Function.update_self]
    rfl
  have hother {a : TaskId} (ha : a ≠ t) : (Function.update s.progress t
      ((s.progress t).after (.post ranks)) a).posts = (s.progress a).posts := by
    rw [Function.update_of_ne ha]
  refine ⟨wellFormed_update h.wellFormed ht, nodup_concat h.postsNodup hfresh, fun c => ?_,
    h.startsNodup, fun c => ?_, h.completesNodup, fun c hc => ?_, fun a u hname => ?_,
    fun a u hname => ?_, balanced_update h.balanced (h.balanced t), h.mode, fun _ => hmode,
    h.operations, h.flying⟩
  · show c ∈ s.postDone ++ [Copy.mk t ranks] ↔ Progress.openPost _ = _
    rw [update_part Progress.openPost]
    exact mem_concat_iff h.posts hnone c
  · rw [h.starts c]
    show _ ↔ Progress.openStart _ = _
    rw [part_after Progress.openStart s t (.post ranks) rfl]
  · obtain ⟨hno, hopen⟩ := h.started c hc
    exact ⟨hno, fun a ha => (hnames a c.task).mpr (Or.inl (hopen a ha))⟩
  · show (_ → Progress.posts _ u = Progress.completes _ a) ∧
      (_ → Progress.posts _ u = Progress.completes _ a + 1)
    rw [hcompletes]
    rcases (hnames a u).mp hname with hold | ⟨hat, hu⟩
    · have hne : a ≠ t := fun heq => hnotNames u (heq ▸ hold)
      rw [hother hne]
      exact h.counted a u hold
    · rw [hat, hself, named, if_pos hu, h.closed t u (hnotNames u)]
      exact ⟨fun hdone => absurd hdone (hfree u hu), fun _ => rfl⟩
  · show Progress.posts _ u = Progress.completes _ a
    have hold : ¬ Names s a u := fun hold => hname ((hnames a u).mpr (Or.inl hold))
    rw [hcompletes, ← h.closed a u hold]
    by_cases hat : a = t
    · rw [hat, hself, named, if_neg fun hu => hname ((hnames a u).mpr (Or.inr ⟨hat, hu⟩))]
    · rw [hother hat]

theorem closePost_of_nil (h : withoutCopy s.postDone t = []) :
    closePost s t = { s with postDone := [], completeDone := [], mode := .none } := by
  unfold closePost
  rw [h]

theorem closePost_of_ne (h : withoutCopy s.postDone t ≠ []) :
    closePost s t = { s with postDone := withoutCopy s.postDone t } := by
  obtain ⟨d, copies, hcons⟩ := List.exists_cons_of_ne_nil h
  unfold closePost
  rw [hcons]

theorem closePost_spec (s : State) (t : TaskId) :
    (closePost s t).postDone = withoutCopy s.postDone t ∧
    (closePost s t = { s with
        postDone := withoutCopy s.postDone t
        completeDone := (closePost s t).completeDone
        mode := (closePost s t).mode }) ∧
    ((withoutCopy s.postDone t ≠ [] ∧ (closePost s t).completeDone = s.completeDone ∧
        (closePost s t).mode = s.mode) ∨
      (withoutCopy s.postDone t = [] ∧ (closePost s t).completeDone = [] ∧
        (closePost s t).mode = .none)) := by
  by_cases h : withoutCopy s.postDone t = []
  · rw [closePost_of_nil h, h]
    exact ⟨rfl, rfl, Or.inr ⟨rfl, rfl, rfl⟩⟩
  · rw [closePost_of_ne h]
    exact ⟨rfl, rfl, Or.inl ⟨h, rfl, rfl⟩⟩

/-- A wait that goes on closes a post that its group has completed. -/
theorem Records.wait (h : Records s) (ht : s.actions t = .wait :: rest) (hc : c ∈ s.postDone)
    (htask : c.task = t) (hall : ∀ u ∈ c.ranks, Completed s u) :
    Records ((closePost s t).pop t) := by
  have hnamed (u : TaskId) (hname : Names s t u) : Completed s u := by
    obtain ⟨d, hd, hdt, hu⟩ := hname
    rw [← eq_of_task h.postsNodup hc hd (htask.trans hdt.symm)] at hu
    exact hall u hu
  obtain ⟨-, hclose, hcases⟩ := closePost_spec s t
  have hnames (a u : TaskId) :
      (∃ d ∈ withoutCopy s.postDone t, d.task = a ∧ u ∈ d.ranks) ↔ Names s a u ∧ a ≠ t := by
    constructor
    · rintro ⟨d, hd, hda, hu⟩
      obtain ⟨hin, hne⟩ := (mem_withoutCopy h.postsNodup).mp hd
      exact ⟨⟨d, hin, hda, hu⟩, fun hat => hne (hda.trans hat)⟩
    · rintro ⟨⟨d, hd, hda, hu⟩, hne⟩
      exact ⟨d, (mem_withoutCopy h.postsNodup).mpr ⟨hd, fun hdt => hne (hda.symm.trans hdt)⟩,
        hda, hu⟩
  have hcompleted (u : TaskId) (hdone : ∃ d ∈ (closePost s t).completeDone, d.task = u) :
      Completed s u := by
    rcases hcases with ⟨-, hsame, -⟩ | ⟨-, hnil, -⟩
    · rw [hsame] at hdone
      exact hdone
    · rw [hnil] at hdone
      obtain ⟨d, hd, -⟩ := hdone
      exact absurd hd List.not_mem_nil
  have hsomeNames {a u : TaskId} (hname : ∃ d ∈ withoutCopy s.postDone t, d.task = a ∧ u ∈ d.ranks) :
      (closePost s t).completeDone = s.completeDone := by
    obtain ⟨d, hd, -⟩ := hname
    rcases hcases with ⟨-, hsame, -⟩ | ⟨hnil, -⟩
    · exact hsame
    · rw [hnil] at hd
      exact absurd hd List.not_mem_nil
  have hactions : (closePost s t).actions t = .wait :: rest := by
    rw [hclose]
    exact ht
  rw [pop_of_cons hactions, hclose]
  have hcompletes (u : TaskId) : (Function.update s.progress t
      ((s.progress t).after .wait) u).completes = (s.progress u).completes :=
    part_after Progress.completes s t .wait rfl u
  have hposts (u : TaskId) : (Function.update s.progress t
      ((s.progress t).after .wait) u).posts = (s.progress u).posts :=
    part_after Progress.posts s t .wait rfl u
  refine ⟨wellFormed_update h.wellFormed ht, nodup_withoutCopy h.postsNodup t, fun d => ?_,
    h.startsNodup, fun d => ?_, ?_, fun d hd => ?_, fun a u hname => ?_, fun a u hname => ?_,
    balanced_update h.balanced (h.balanced t), ?_, fun hne => ?_, h.operations, h.flying⟩
  · show d ∈ withoutCopy s.postDone t ↔ Progress.openPost _ = _
    rw [update_part Progress.openPost]
    exact mem_withoutCopy_iff h.postsNodup h.posts d
  · rw [h.starts d]
    show _ ↔ Progress.openStart _ = _
    rw [part_after Progress.openStart s t .wait rfl]
  · show ((closePost s t).completeDone.map Copy.task).Nodup
    rcases hcases with ⟨-, hsame, -⟩ | ⟨-, hnil, -⟩
    · rw [hsame]
      exact h.completesNodup
    · rw [hnil]
      exact List.nodup_nil
  · obtain ⟨hno, hopen⟩ := h.started d hd
    refine ⟨fun hdone => hno (hcompleted d.task hdone), fun a ha => ?_⟩
    apply (hnames a d.task).mpr
    refine ⟨hopen a ha, fun hat => hno (hnamed d.task ?_)⟩
    rw [← hat]
    exact hopen a ha
  · show ((∃ d ∈ (closePost s t).completeDone, d.task = u) →
        Progress.posts _ u = Progress.completes _ a) ∧
      (¬ (∃ d ∈ (closePost s t).completeDone, d.task = u) →
        Progress.posts _ u = Progress.completes _ a + 1)
    rw [hposts, hcompletes, hsomeNames hname]
    exact h.counted a u ((hnames a u).mp hname).1
  · show Progress.posts _ u = Progress.completes _ a
    rw [hposts, hcompletes]
    by_cases hold : Names s a u
    · have hat : a = t := by
        by_contra hne
        exact hname ((hnames a u).mpr ⟨hold, hne⟩)
      apply (h.counted a u hold).1
      apply hnamed u
      rw [← hat]
      exact hold
    · exact h.closed a u hold
  · show (closePost s t).mode = .none ∨ (closePost s t).mode = .post
    rcases hcases with ⟨-, -, hsame⟩ | ⟨-, -, hnone⟩
    · rw [hsame]
      exact h.mode
    · exact Or.inl hnone
  · show (closePost s t).mode = .post
    rcases hcases with ⟨-, -, hsame⟩ | ⟨hnil, -⟩
    · rw [hsame]
      exact h.postMode (List.ne_nil_of_mem hc)
    · exact absurd hnil hne

/-- A complete that goes on is kept for the posts that name its task. -/
theorem Records.complete (h : Records s) (ht : s.actions t = .complete :: rest)
    (hc : c ∈ s.startDone) (htask : c.task = t) (hflying : t ∉ s.inFlight)
    (hgroup : ∀ a, Names s a t → a ∈ c.ranks) : Records ({ s with
      startDone := withoutCopy s.startDone t
      completeDone := s.completeDone ++ [c] }.pop t) := by
  have hopen : (s.progress t).openStart = some c.ranks := htask ▸ (h.starts c).mp hc
  obtain ⟨hfree, hnames⟩ := h.started c hc
  rw [htask] at hfree hnames
  have hcompleted (u : TaskId) :
      (∃ d ∈ s.completeDone ++ [c], d.task = u) ↔ Completed s u ∨ u = t := by
    constructor
    · rintro ⟨d, hd, hdu⟩
      rcases List.mem_append.mp hd with hold | hnew
      · exact Or.inl ⟨d, hold, hdu⟩
      · rw [List.mem_singleton.mp hnew, htask] at hdu
        exact Or.inr hdu.symm
    · rintro (⟨d, hd, hdu⟩ | hut)
      · exact ⟨d, List.mem_append_left _ hd, hdu⟩
      · exact ⟨c, List.mem_append_right _ (List.mem_singleton_self c), htask.trans hut.symm⟩
  rw [pop_of_cons (s := { s with
    startDone := withoutCopy s.startDone t, completeDone := s.completeDone ++ [c] }) ht]
  have hposts (u : TaskId) : (Function.update s.progress t
      ((s.progress t).after .complete) u).posts = (s.progress u).posts :=
    part_after Progress.posts s t .complete rfl u
  have hself : (Function.update s.progress t ((s.progress t).after .complete) t).completes =
      named (s.progress t).completes c.ranks := by
    rw [Function.update_self]
    show named (s.progress t).completes ((s.progress t).openStart.getD []) = _
    rw [hopen]
    rfl
  have hother {u : TaskId} (hu : u ≠ t) : (Function.update s.progress t
      ((s.progress t).after .complete) u).completes = (s.progress u).completes := by
    rw [Function.update_of_ne hu]
  refine ⟨wellFormed_update h.wellFormed ht, h.postsNodup, fun d => ?_,
    nodup_withoutCopy h.startsNodup t, fun d => ?_, nodup_concat h.completesNodup ?_,
    fun d hd => ?_, fun a u hname => ?_, fun a u hname => ?_,
    balanced_update h.balanced ((h.balanced t).complete hopen), h.mode, h.postMode, h.operations,
    fun u hu => ?_⟩
  · rw [h.posts d]
    show _ ↔ Progress.openPost _ = _
    rw [part_after Progress.openPost s t .complete rfl]
  · show d ∈ withoutCopy s.startDone t ↔ Progress.openStart _ = _
    rw [update_part Progress.openStart]
    exact mem_withoutCopy_iff h.startsNodup h.starts d
  · exact fun d hd hdc => hfree ⟨d, hd, hdc.trans htask⟩
  · obtain ⟨hin, hne⟩ := (mem_withoutCopy h.startsNodup).mp hd
    obtain ⟨hno, hnamed⟩ := h.started d hin
    refine ⟨fun hdone => ?_, hnamed⟩
    rcases (hcompleted d.task).mp hdone with hold | heq
    · exact hno hold
    · exact hne heq
  · show ((∃ d ∈ s.completeDone ++ [c], d.task = u) →
        Progress.posts _ u = Progress.completes _ a) ∧
      (¬ (∃ d ∈ s.completeDone ++ [c], d.task = u) →
        Progress.posts _ u = Progress.completes _ a + 1)
    have hname' : Names s a u := hname
    rw [hposts, hcompleted]
    obtain ⟨hdone, hnot⟩ := h.counted a u hname
    by_cases hu : u = t
    · rw [hu] at hname' hnot ⊢
      rw [hself, named, if_pos (hgroup a hname')]
      exact ⟨fun _ => hnot hfree, fun hno => absurd (Or.inr rfl) hno⟩
    · rw [hother hu, or_iff_left hu]
      exact ⟨hdone, hnot⟩
  · show Progress.posts _ u = Progress.completes _ a
    have hclosed := h.closed a u hname
    rw [hposts, hclosed]
    by_cases hu : u = t
    · have hout : a ∉ c.ranks := by
        intro ha
        apply hname
        rw [hu]
        exact hnames a ha
      rw [hu, hself, named, if_neg hout]
    · rw [hother hu]
  · obtain ⟨d, hd, hdu, hne⟩ := h.flying u hu
    have hut : u ≠ t := fun heq => hflying (heq ▸ hu)
    refine ⟨d, (mem_withoutCopy h.startsNodup).mpr ⟨hd, fun hdt => ?_⟩, hdu, hne⟩
    exact hut (hdu.symm.trans hdt)

theorem Records.getput {target : TaskId} (h : Records s)
    (ht : s.actions t = .getput target :: rest) : Records ({ s with
      postOperations := s.postOperations ++ [t]
      inFlight := s.inFlight ++ [t] }.pop t) := by
  obtain ⟨ranks, hopen, htarget⟩ := h.allows ht
  rw [pop_of_cons (s := { s with
    postOperations := s.postOperations ++ [t], inFlight := s.inFlight ++ [t] }) ht]
  have hsame : Function.update s.progress t ((s.progress t).after (.getput target)) = s.progress :=
    Function.update_eq_self t s.progress
  rw [hsame]
  have hwell := wellFormed_update h.wellFormed ht
  rw [hsame] at hwell
  refine ⟨hwell, h.postsNodup, h.posts, h.startsNodup, h.starts, h.completesNodup, h.started,
    h.counted, h.closed, h.balanced, h.mode, h.postMode, fun u => ?_, fun u hu => ?_⟩
  · show (s.postOperations ++ [t]).count u = (s.inFlight ++ [t]).count u
    rw [List.count_append, List.count_append, h.operations u]
  · rcases List.mem_append.mp hu with hold | hnew
    · exact h.flying u hold
    · rw [List.mem_singleton.mp hnew]
      refine ⟨Copy.mk t ranks, (h.starts (Copy.mk t ranks)).mpr hopen, rfl, ?_⟩
      exact List.ne_nil_of_mem htarget

theorem Records.work (h : Records s) (ht : s.actions t = .work :: rest) : Records (s.pop t) := by
  rw [pop_of_cons ht]
  have hsame : Function.update s.progress t ((s.progress t).after .work) = s.progress :=
    Function.update_eq_self t s.progress
  rw [hsame]
  have hwell := wellFormed_update h.wellFormed ht
  rw [hsame] at hwell
  exact ⟨hwell, h.postsNodup, h.posts, h.startsNodup, h.starts, h.completesNodup, h.started,
    h.counted, h.closed, h.balanced, h.mode, h.postMode, h.operations, h.flying⟩

theorem Records.completed (h : Records s) (ht : t ∈ s.inFlight) : t ∈ s.postOperations ∧
    s.mode = .post ∧ Records { s with
      inFlight := s.inFlight.erase t
      postOperations := s.postOperations.erase t } := by
  have hin : t ∈ s.postOperations := by
    rw [← List.count_pos_iff, h.operations t]
    exact List.count_pos_iff.mpr ht
  obtain ⟨c, hc, htask, hne⟩ := h.flying t ht
  obtain ⟨a, ha⟩ := List.exists_mem_of_ne_nil c.ranks hne
  obtain ⟨d, hd, -⟩ := (h.started c hc).2 a ha
  refine ⟨hin, h.postMode (List.ne_nil_of_mem hd), h.wellFormed, h.postsNodup, h.posts,
    h.startsNodup, h.starts, h.completesNodup, h.started, h.counted, h.closed, h.balanced, h.mode,
    h.postMode, fun u => ?_, fun u hu => h.flying u (List.mem_of_mem_erase hu)⟩
  have hcount := h.operations u
  rw [count_erase hin u, count_erase ht u] at hcount
  exact Nat.add_left_cancel hcount

theorem Records.makeReady (h : Records s) (t : TaskId) : Records (s.makeReady t) := by
  by_cases hnil : s.actions t = []
  · rw [makeReady_of_nil hnil]
    exact h
  · rw [makeReady_of_ne hnil]
    exact ⟨h.wellFormed, h.postsNodup, h.posts, h.startsNodup, h.starts, h.completesNodup,
      h.started, h.counted, h.closed, h.balanced, h.mode, h.postMode, h.operations, h.flying⟩

end

end Dimemas.Model.Epochs
