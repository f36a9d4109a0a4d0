import Dimemas.Model.Epochs
/-!
# Runs in post mode

An operation goes on or leaves its task in one queue (`os_post`), where no post comes while a start
still waits for another and no record of an earlier epoch is kept for a post.
-/

namespace Dimemas.Model.Epochs

open Dimemas.Model.Windows (TaskId)

section

variable {s s' : State} {t u : TaskId} {copies : List Copy} {c : Copy} {action : Action}
variable {rest : List Action} {ranks : List TaskId} {loose : List TaskId}

theorem Inv.makeReady (h : Inv s (t :: loose)) : Inv (s.makeReady t) loose := by
  refine ⟨h.queued.makeReady, h.records.makeReady t, ?_, ?_, ?_⟩
  all_goals
    by_cases hnil : s.actions t = []
    · rw [makeReady_of_nil hnil]
      first
        | exact h.completesBlocked
        | exact h.startsBlocked
        | exact h.waitsBlocked
    · rw [makeReady_of_ne hnil]
      first
        | exact h.completesBlocked
        | exact h.startsBlocked
        | exact h.waitsBlocked

theorem startsBlocked_pop (h : StartsBlocked s) (ht : t ∉ s.pendingOfPost) :
    StartsBlocked (s.pop t) := by
  cases hnext : s.actions t with
  | nil =>
      rw [pop_of_nil hnext]
      exact h
  | cons action rest =>
      intro u hu ranks hstart
      rw [pop_of_cons hnext] at hu
      have hne : u ≠ t := fun heq => ht (heq ▸ hu)
      rw [pop_actions_of_ne hne] at hstart
      rw [pop_of_cons hnext]
      exact h u hu ranks hstart

theorem completesBlocked_pop (h : CompletesBlocked s) : CompletesBlocked (s.pop t) := by
  cases hnext : s.actions t with
  | nil =>
      rw [pop_of_nil hnext]
      exact h
  | cons action rest =>
      rw [pop_of_cons hnext]
      exact h

theorem waitsBlocked_pop (h : WaitsBlocked s) : WaitsBlocked (s.pop t) := by
  cases hnext : s.actions t with
  | nil =>
      rw [pop_of_nil hnext]
      exact h
  | cons action rest =>
      rw [pop_of_cons hnext]
      exact h

theorem Inv.advance (hqueued : Queued s (t :: loose)) (hrecords : Records (s.pop t))
    (hcompletes : CompletesBlocked s) (hstarts : StartsBlocked s) (hwaits : WaitsBlocked s) :
    Inv (s.advance t) loose := by
  have hout : t ∉ s.pendingOfPost := (hqueued.not_mem List.mem_cons_self).2.1
  have hpop : Inv (s.pop t) (t :: loose) :=
    ⟨hqueued.pop List.mem_cons_self, hrecords, completesBlocked_pop hcompletes,
      startsBlocked_pop hstarts hout, waitsBlocked_pop hwaits⟩
  exact hpop.makeReady

theorem Inv.work (h : Inv s [t]) (ht : s.actions t = .work :: rest) : Inv (s.advance t) [] :=
  Inv.advance h.queued (h.records.work ht) h.completesBlocked h.startsBlocked h.waitsBlocked

theorem Inv.getput {target : TaskId} (h : Inv s [t]) (ht : s.actions t = .getput target :: rest) :
    Inv (osGetput s t) [] := by
  apply Inv.advance (s := { s with
    postOperations := s.postOperations ++ [t], inFlight := s.inFlight ++ [t] })
  · exact ⟨h.queued.once, h.queued.readyActions, h.queued.start, h.queued.rma, h.queued.wait,
      h.queued.held⟩
  · exact h.records.getput ht
  · exact fun u hu => List.mem_append_left _ (h.completesBlocked u hu)
  · exact h.startsBlocked
  · exact h.waitsBlocked

theorem Inv.startAccess (h : Inv s (t :: loose))
    (ht : s.actions t = .start ranks :: rest) (hfree : ¬ Completed s t)
    (hnames : ∀ a ∈ ranks, Names s a t) : Inv (startAccess s t ranks) loose := by
  apply Inv.advance (s := { s with startDone := s.startDone ++ [Copy.mk t ranks] })
  · exact ⟨h.queued.once, h.queued.readyActions, h.queued.start, h.queued.rma, h.queued.wait,
      h.queued.held⟩
  · exact h.records.start ht hfree hnames
  · exact h.completesBlocked
  · exact h.startsBlocked
  · exact h.waitsBlocked

/-- Whether a start goes on, where the open posts of its group name its task. -/
theorem thereIsAPost_spec (hnodup : (s.postDone.map Copy.task).Nodup)
    (hnames : ∀ a ∈ ranks, IsOpen s a → Names s a t) :
    (thereIsAPost s.postDone t ranks = some true ∧ ∀ a ∈ ranks, Names s a t) ∨
      (thereIsAPost s.postDone t ranks = some false ∧ ∃ a ∈ ranks, ¬ IsOpen s a) := by
  induction ranks with
  | nil => exact Or.inl ⟨rfl, fun a ha => absurd ha List.not_mem_nil⟩
  | cons rank ranks ih =>
      have hrest := ih fun a ha => hnames a (List.mem_cons_of_mem rank ha)
      cases hcopy : copyOf s.postDone rank with
      | none =>
          right
          constructor
          · unfold thereIsAPost
            rw [hcopy]
          · refine ⟨rank, List.mem_cons_self, ?_⟩
            rintro ⟨c, hc, htask⟩
            exact copyOf_eq_none.mp hcopy c hc htask
      | some c =>
          obtain ⟨hc, htask⟩ := mem_of_copyOf hcopy
          obtain ⟨d, hd, hdr, ht⟩ := hnames rank List.mem_cons_self ⟨c, hc, htask⟩
          rw [eq_of_task hnodup hd hc (hdr.trans htask.symm)] at ht
          have hstep : thereIsAPost s.postDone t (rank :: ranks) =
              thereIsAPost s.postDone t ranks := by
            rw [thereIsAPost, hcopy]
            exact if_pos ht
          rw [hstep]
          rcases hrest with ⟨htrue, hall⟩ | ⟨hfalse, a, ha, hclosed⟩
          · refine Or.inl ⟨htrue, fun a ha => ?_⟩
            rcases List.mem_cons.mp ha with heq | hin
            · rw [heq]
              exact ⟨c, hc, htask, ht⟩
            · exact hall a hin
          · exact Or.inr ⟨hfalse, a, List.mem_cons_of_mem rank ha, hclosed⟩

theorem Records.copyOf_start (h : Records s) (hnone : (s.progress t).openStart = none) :
    copyOf s.startDone t = none := by
  rw [copyOf_eq_none]
  intro c hc htask
  have hopen := (h.starts c).mp hc
  rw [htask, hnone] at hopen
  cases hopen

theorem Records.copyOf_post (h : Records s) (hnone : (s.progress t).openPost = none) :
    copyOf s.postDone t = none := by
  rw [copyOf_eq_none]
  intro c hc htask
  have hopen := (h.posts c).mp hc
  rw [htask, hnone] at hopen
  cases hopen

theorem Inv.start (h : Inv s (t :: loose))
    (ht : s.actions t = .start ranks :: rest) (hnames : ∀ a ∈ ranks, IsOpen s a → Names s a t)
    (hfree : (∀ a ∈ ranks, IsOpen s a) → ¬ Completed s t) :
    ∃ s', osStart s t ranks = some s' ∧ Inv s' loose := by
  have hnone : (s.progress t).openStart = none := h.records.allows ht
  have hcopy : ¬ (copyOf s.startDone t).isSome = true := by
    rw [h.records.copyOf_start hnone]
    exact Bool.false_ne_true
  rw [osStart, if_neg hcopy]
  rcases thereIsAPost_spec h.records.postsNodup hnames with ⟨htrue, hall⟩ | ⟨hfalse, hclosed⟩
  · rw [htrue]
    refine ⟨_, rfl, h.startAccess ht (hfree fun a ha => ?_) hall⟩
    obtain ⟨c, hc, htask, -⟩ := hall a ha
    exact ⟨c, hc, htask⟩
  · rw [hfalse]
    refine ⟨_, rfl, h.queued.blockStart ⟨rest, ht⟩, ⟨h.records.wellFormed, h.records.postsNodup,
      h.records.posts, h.records.startsNodup, h.records.starts, h.records.completesNodup,
      h.records.started, h.records.counted, h.records.closed, h.records.balanced, h.records.mode,
      h.records.postMode, h.records.operations, h.records.flying⟩, h.completesBlocked,
      fun u hu ranks' hstart => ?_, h.waitsBlocked⟩
    rcases List.mem_append.mp hu with hold | hnew
    · exact h.startsBlocked u hold ranks' hstart
    · rw [List.mem_singleton.mp hnew] at hstart
      obtain ⟨rest', hactions⟩ := hstart
      have hsame : s.actions t = .start ranks' :: rest' := hactions
      rw [ht] at hsame
      rw [← Action.start.inj (List.cons.inj hsame).1]
      exact hclosed

/-! ## Waits -/

/-- Without two completes of a task, a wait counts down to zero exactly where all have completed. -/
theorem located_eq_zero (hnodup : (s.completeDone.map Copy.task).Nodup) (ranks : List TaskId) :
    0 ≤ located s.completeDone ranks ∧
      (located s.completeDone ranks = 0 ↔ ∀ u ∈ ranks, Completed s u) := by
  induction ranks with
  | nil => exact ⟨Int.le_refl 0, fun _ u hu => absurd hu List.not_mem_nil, fun _ => rfl⟩
  | cons rank ranks ih =>
      obtain ⟨hnonneg, hiff⟩ := ih
      have hle : s.completeDone.countP (fun c => c.task == rank) ≤ 1 := by
        have hcount := List.nodup_iff_count_le_one.mp hnodup rank
        rw [List.count, List.countP_map] at hcount
        exact hcount
      have hpos : 0 < s.completeDone.countP (fun c => c.task == rank) ↔ Completed s rank := by
        rw [List.countP_pos_iff]
        constructor
        · rintro ⟨c, hc, htask⟩
          exact ⟨c, hc, beq_iff_eq.mp htask⟩
        · rintro ⟨c, hc, htask⟩
          exact ⟨c, hc, beq_iff_eq.mpr htask⟩
      have hstep : located s.completeDone (rank :: ranks) = located s.completeDone ranks + 1 -
          s.completeDone.countP (fun c => c.task == rank) := rfl
      rw [hstep, List.forall_mem_cons, ← hiff, ← hpos]
      omega

theorem Records.copyOf_open (h : Records s) (hopen : (s.progress t).openPost ≠ none) :
    ∃ c ∈ s.postDone, c.task = t ∧ copyOf s.postDone t = some c := by
  obtain ⟨ranks, hranks⟩ := Option.ne_none_iff_exists'.mp hopen
  have hc : Copy.mk t ranks ∈ s.postDone := (h.posts (Copy.mk t ranks)).mpr hranks
  exact ⟨Copy.mk t ranks, hc, rfl, copyOf_eq h.postsNodup hc⟩

theorem closePost_actions (s : State) (t : TaskId) : (closePost s t).actions = s.actions := by
  rw [(closePost_spec s t).2.1]

/-- At most one action of each of some tasks is done. -/
def Resumed (s s' : State) (tasks : List TaskId) : Prop :=
  ∀ u, s'.actions u = s.actions u ∨ (u ∈ tasks ∧ s'.actions u = (s.actions u).tail)

theorem Resumed.trans {s'' : State} {tasks tasks' : List TaskId} (h : Resumed s s' tasks)
    (h' : Resumed s' s'' tasks') (hdisjoint : ∀ u ∈ tasks, u ∉ tasks') :
    Resumed s s'' (tasks ++ tasks') := by
  intro u
  rcases h' u with hsame' | ⟨hu', htail'⟩
  · rw [hsame']
    rcases h u with hsame | ⟨hu, htail⟩
    · exact Or.inl hsame
    · exact Or.inr ⟨List.mem_append_left _ hu, htail⟩
  · rcases h u with hsame | ⟨hu, -⟩
    · rw [htail', hsame]
      exact Or.inr ⟨List.mem_append_right _ hu', rfl⟩
    · exact absurd hu' (hdisjoint u hu)

theorem makeReady_actions (s : State) (t : TaskId) : (s.makeReady t).actions = s.actions := by
  by_cases hnil : s.actions t = []
  · rw [makeReady_of_nil hnil]
  · rw [makeReady_of_ne hnil]

theorem pop_actions_self (s : State) (t : TaskId) : (s.pop t).actions t = (s.actions t).tail := by
  cases hnext : s.actions t with
  | nil =>
      rw [pop_of_nil hnext]
      exact hnext
  | cons action rest =>
      rw [pop_of_cons hnext]
      exact Function.update_self ..

theorem resumed_pop (h : s'.actions = s.actions) : Resumed s (s'.pop t) [t] := by
  intro u
  rw [← h]
  by_cases hu : u = t
  · right
    rw [hu]
    exact ⟨List.mem_singleton_self t, pop_actions_self s' t⟩
  · left
    exact pop_actions_of_ne hu

theorem resumed_advance (h : s'.actions = s.actions) : Resumed s (s'.advance t) [t] := by
  intro u
  rw [State.advance, makeReady_actions]
  exact resumed_pop h u

theorem Queued.closePost (h : Queued s loose) (t : TaskId) : Queued (closePost s t) loose := by
  rw [(closePost_spec s t).2.1]
  exact ⟨h.once, h.readyActions, h.start, h.rma, h.wait, h.held⟩

theorem osWait_of_eq (hcopy : copyOf s.postDone t = some c)
    (hzero : located s.completeDone c.ranks = 0) :
    osWait s t = some ((closePost s t).advance t) := by
  rw [osWait, hcopy]
  exact congrArg some (if_pos hzero)

theorem osWait_of_ne (hcopy : copyOf s.postDone t = some c)
    (hzero : located s.completeDone c.ranks ≠ 0) : osWait s t =
      some { s with pendingWaitToComplete := s.pendingWaitToComplete ++ [t] } := by
  rw [osWait, hcopy]
  exact congrArg some (if_neg hzero)

theorem Inv.wait (h : Inv s (t :: loose)) (ht : s.actions t = .wait :: rest) :
    ∃ s', osWait s t = some s' ∧ Inv s' loose ∧ Resumed s s' [t] := by
  obtain ⟨c, hc, htask, hcopy⟩ := h.records.copyOf_open (h.records.allows ht)
  have hlocated := (located_eq_zero h.records.completesNodup c.ranks).2
  by_cases hall : ∀ u ∈ c.ranks, Completed s u
  · refine ⟨(closePost s t).advance t, osWait_of_eq hcopy (hlocated.mpr hall), ?_, ?_⟩
    · obtain ⟨-, hclose, hcases⟩ := closePost_spec s t
      have hin : t ∉ s.pendingWaitToComplete :=
        (h.queued.not_mem List.mem_cons_self).2.2.2
      apply Inv.advance (h.queued.closePost t) (h.records.wait ht hc htask hall)
      · rw [hclose]
        exact h.completesBlocked
      · rw [hclose]
        intro u hu ranks hstart
        obtain ⟨a, ha, hclosed⟩ := h.startsBlocked u hu ranks hstart
        refine ⟨a, ha, fun ⟨d, hd, hda⟩ => hclosed ⟨d, ?_, hda⟩⟩
        exact ((mem_withoutCopy h.records.postsNodup).mp hd).1
      · intro u hu
        have hold : u ∈ s.pendingWaitToComplete := by
          rw [hclose] at hu
          exact hu
        have hut : u ≠ t := fun heq => hin (heq ▸ hold)
        obtain ⟨a, ⟨d, hd, hdu, ha⟩, hmissing⟩ := h.waitsBlocked u hold
        refine ⟨a, ⟨d, ?_, hdu, ha⟩, fun ⟨e, he, hea⟩ => hmissing ⟨e, ?_, hea⟩⟩
        · rw [hclose]
          apply (mem_withoutCopy h.records.postsNodup).mpr
          exact ⟨hd, fun hdt => hut (hdu.symm.trans hdt)⟩
        · rcases hcases with ⟨-, hsame, -⟩ | ⟨-, hnil, -⟩
          · rw [hsame] at he
            exact he
          · rw [hnil] at he
            exact absurd he List.not_mem_nil
    · exact resumed_advance (closePost_actions s t)
  · refine ⟨{ s with pendingWaitToComplete := s.pendingWaitToComplete ++ [t] },
      osWait_of_ne hcopy fun hzero => hall (hlocated.mp hzero), ?_, fun u => Or.inl rfl⟩
    · refine ⟨h.queued.blockWait ⟨rest, ht⟩, ⟨h.records.wellFormed, h.records.postsNodup,
        h.records.posts, h.records.startsNodup, h.records.starts, h.records.completesNodup,
        h.records.started, h.records.counted, h.records.closed, h.records.balanced,
        h.records.mode, h.records.postMode, h.records.operations, h.records.flying⟩,
        h.completesBlocked, h.startsBlocked, fun u hu => ?_⟩
      rcases List.mem_append.mp hu with hold | hnew
      · exact h.waitsBlocked u hold
      · rw [List.mem_singleton.mp hnew]
        push Not at hall
        obtain ⟨a, ha, hmissing⟩ := hall
        exact ⟨a, ⟨c, hc, htask, ha⟩, hmissing⟩

theorem Inv.retryWaits {waits : List TaskId} (h : Inv s (waits ++ loose))
    (hnext : ∀ w ∈ waits, WaitsNext (s.actions w)) :
    ∃ s', retryWaits s waits = some s' ∧ Inv s' loose ∧ Resumed s s' waits := by
  induction waits generalizing s with
  | nil => exact ⟨s, rfl, h, fun u => Or.inl rfl⟩
  | cons w waits ih =>
      obtain ⟨rest, hw⟩ := hnext w List.mem_cons_self
      have hloose : Inv s (w :: (waits ++ loose)) := h
      obtain ⟨s₁, hs₁, hinv₁, hresumed₁⟩ := hloose.wait hw
      have hnot : w ∉ waits := by
        have honce := h.queued.once w
        rw [List.cons_append, count_cons, List.count_append, List.count_singleton_self] at honce
        exact List.count_eq_zero.mp (by omega)
      have hnext₁ : ∀ u ∈ waits, WaitsNext (s₁.actions u) := by
        intro u hu
        rcases hresumed₁ u with hsame | ⟨heq, -⟩
        · rw [hsame]
          exact hnext u (List.mem_cons_of_mem w hu)
        · exact absurd (List.mem_singleton.mp heq ▸ hu) hnot
      obtain ⟨s₂, hs₂, hinv₂, hresumed₂⟩ := ih hinv₁ hnext₁
      refine ⟨s₂, ?_, hinv₂, hresumed₁.trans hresumed₂ fun u hu => ?_⟩
      · rw [Epochs.retryWaits, hw]
        show (osWait s w).bind (fun s => Epochs.retryWaits s waits) = some s₂
        rw [hs₁]
        exact hs₂
      · rw [List.mem_singleton.mp hu]
        exact hnot

/-! ## The order of two tasks -/

theorem pop_pop (h : u ≠ t) : (s.pop u).pop t = (s.pop t).pop u := by
  cases ht : s.actions t with
  | nil =>
      have hpop : (s.pop u).actions t = [] := by rw [pop_actions_of_ne h.symm, ht]
      rw [pop_of_nil ht, pop_of_nil hpop]
  | cons action rest =>
      cases hu : s.actions u with
      | nil =>
          have hpop : (s.pop t).actions u = [] := by rw [pop_actions_of_ne h, hu]
          rw [pop_of_nil hu, pop_of_nil hpop]
      | cons action' rest' =>
          have hpop : (s.pop u).actions t = action :: rest := by
            rw [pop_actions_of_ne h.symm, ht]
          have hpop' : (s.pop t).actions u = action' :: rest' := by rw [pop_actions_of_ne h, hu]
          have hprogress : (s.pop u).progress t = s.progress t := by
            rw [progress_pop hu, Function.update_of_ne h.symm]
          have hprogress' : (s.pop t).progress u = s.progress u := by
            rw [progress_pop ht, Function.update_of_ne h]
          rw [pop_of_cons hpop, pop_of_cons hpop', hprogress, hprogress', pop_of_cons hu,
            pop_of_cons ht, Function.update_comm h, Function.update_comm h]

theorem makeReady_pop (h : u ≠ t) : (s.makeReady u).pop t = (s.pop t).makeReady u := by
  have hpop : (s.pop t).actions u = s.actions u := pop_actions_of_ne h
  by_cases hnil : s.actions u = []
  · rw [makeReady_of_nil hnil, makeReady_of_nil (hpop.trans hnil)]
  · rw [makeReady_of_ne hnil, makeReady_of_ne fun heq => hnil (hpop.symm.trans heq)]
    cases ht : s.actions t with
    | nil => rw [pop_of_nil ht, pop_of_nil (s := { s with ready := s.ready ++ [u] }) ht]
    | cons action rest =>
        rw [pop_of_cons ht, pop_of_cons (s := { s with ready := s.ready ++ [u] }) ht]

theorem advance_pop (h : u ≠ t) : (s.advance u).pop t = (s.pop t).advance u := by
  calc (s.advance u).pop t
      = ((s.pop u).pop t).makeReady u := makeReady_pop h
    _ = (s.pop t).advance u := by rw [pop_pop h, State.advance]

theorem closePost_pop (s : State) (t u : TaskId) :
    closePost (s.pop t) u = (closePost s u).pop t := by
  cases ht : s.actions t with
  | nil =>
      have hclose : (closePost s u).actions t = [] := by rw [closePost_actions, ht]
      rw [pop_of_nil ht, pop_of_nil hclose]
  | cons action rest =>
      have hclose : (closePost s u).actions t = action :: rest := by rw [closePost_actions, ht]
      rw [pop_of_cons ht, pop_of_cons hclose]
      by_cases hnil : withoutCopy s.postDone u = []
      · rw [closePost_of_nil hnil]
        exact closePost_of_nil hnil
      · rw [closePost_of_ne hnil]
        exact closePost_of_ne hnil

theorem osWait_pop (h : u ≠ t) : osWait (s.pop t) u = (osWait s u).map fun s => s.pop t := by
  have hblock : { s.pop t with
        pendingWaitToComplete := (s.pop t).pendingWaitToComplete ++ [u] } =
      { s with pendingWaitToComplete := s.pendingWaitToComplete ++ [u] }.pop t := by
    cases ht : s.actions t with
    | nil =>
        rw [pop_of_nil ht, pop_of_nil (s := { s with
          pendingWaitToComplete := s.pendingWaitToComplete ++ [u] }) ht]
    | cons action rest =>
        rw [pop_of_cons ht, pop_of_cons (s := { s with
          pendingWaitToComplete := s.pendingWaitToComplete ++ [u] }) ht]
  have hrecords : (s.pop t).postDone = s.postDone ∧ (s.pop t).completeDone = s.completeDone := by
    cases ht : s.actions t with
    | nil =>
        rw [pop_of_nil ht]
        exact ⟨rfl, rfl⟩
    | cons action rest =>
        rw [pop_of_cons ht]
        exact ⟨rfl, rfl⟩
  have hcopy : copyOf (s.pop t).postDone u = copyOf s.postDone u := by rw [hrecords.1]
  have hlocated (ranks : List TaskId) :
      located (s.pop t).completeDone ranks = located s.completeDone ranks := by rw [hrecords.2]
  cases hc : copyOf s.postDone u with
  | none => rw [osWait, osWait, hcopy, hc, Option.map_none, Option.map_none, Option.map_none]
  | some c =>
      by_cases hzero : located s.completeDone c.ranks = 0
      · rw [osWait_of_eq hc hzero, osWait_of_eq (hcopy.trans hc) ((hlocated c.ranks).trans hzero),
          closePost_pop, ← advance_pop h]
        rfl
      · have hzero' : located (s.pop t).completeDone c.ranks ≠ 0 := by rwa [hlocated]
        rw [osWait_of_ne hc hzero, osWait_of_ne (hcopy.trans hc) hzero', hblock]
        rfl

/-- A task may be done before or behind the waits that are tried again. -/
theorem retryWaits_pop {waits : List TaskId} (hout : t ∉ waits) :
    retryWaits (s.pop t) waits = (retryWaits s waits).map fun s => s.pop t := by
  induction waits generalizing s with
  | nil => rfl
  | cons w waits ih =>
      have hw : w ≠ t := fun heq => hout (heq ▸ List.mem_cons_self)
      have hrest : t ∉ waits := fun hin => hout (List.mem_cons_of_mem w hin)
      rw [retryWaits, retryWaits, pop_actions_of_ne hw]
      split
      · rw [osWait_pop hw]
        cases osWait s w with
        | none => rfl
        | some s₁ => exact ih hrest
      · rfl

/-! ## Completes -/

theorem Records.copyOf_started (h : Records s) (hopen : (s.progress t).openStart ≠ none) :
    ∃ c ∈ s.startDone, c.task = t ∧ copyOf s.startDone t = some c := by
  obtain ⟨ranks, hranks⟩ := Option.ne_none_iff_exists'.mp hopen
  have hc : Copy.mk t ranks ∈ s.startDone := (h.starts (Copy.mk t ranks)).mpr hranks
  exact ⟨Copy.mk t ranks, hc, rfl, copyOf_eq h.startsNodup hc⟩

/-- A complete goes on, with the waits that are tried again, or waits for its transfers. -/
theorem Inv.complete (h : Inv s (t :: loose)) (ht : s.actions t = .complete :: rest)
    (hgroup : t ∉ s.postOperations →
      ∀ c ∈ s.startDone, c.task = t → ∀ a, Names s a t → a ∈ c.ranks) :
    ∃ s', osComplete s t = some s' ∧ Inv s' loose ∧
      Resumed s s' (t :: s.pendingWaitToComplete) := by
  by_cases hin : t ∈ s.postOperations
  · refine ⟨{ s with pendingRmaToComplete := s.pendingRmaToComplete ++ [t] }, if_pos hin,
      ⟨h.queued.blockComplete ⟨rest, ht⟩, ⟨h.records.wellFormed, h.records.postsNodup,
        h.records.posts, h.records.startsNodup, h.records.starts, h.records.completesNodup,
        h.records.started, h.records.counted, h.records.closed, h.records.balanced,
        h.records.mode, h.records.postMode, h.records.operations, h.records.flying⟩,
        fun u hu => ?_, h.startsBlocked, h.waitsBlocked⟩, fun u => Or.inl rfl⟩
    rcases List.mem_append.mp hu with hold | hnew
    · exact h.completesBlocked u hold
    · rw [List.mem_singleton.mp hnew]
      exact hin
  · obtain ⟨c, hc, htask, hcopy⟩ := h.records.copyOf_started (h.records.allows ht)
    obtain ⟨-, hstarts, -, hwaits⟩ := h.queued.not_mem List.mem_cons_self
    have hflying : t ∉ s.inFlight := by
      rw [← List.count_eq_zero, ← h.records.operations t]
      exact List.count_eq_zero.mpr hin
    have hrecords := h.records.complete ht hc htask hflying (hgroup hin c hc htask)
    have hqueued := h.queued.takeWaits
    let s₁ : State := { s with
      startDone := withoutCopy s.startDone t
      completeDone := s.completeDone ++ [c]
      pendingWaitToComplete := [] }
    have hqueued₁ : Queued s₁ (s.pendingWaitToComplete ++ t :: loose) :=
      ⟨hqueued.once, hqueued.readyActions, hqueued.start, hqueued.rma, hqueued.wait, hqueued.held⟩
    have hrecords₁ : Records (s₁.pop t) := by
      rw [pop_of_cons (s := s₁) ht]
      rw [pop_of_cons (s := { s with
        startDone := withoutCopy s.startDone t, completeDone := s.completeDone ++ [c] }) ht]
        at hrecords
      exact ⟨hrecords.wellFormed, hrecords.postsNodup, hrecords.posts, hrecords.startsNodup,
        hrecords.starts, hrecords.completesNodup, hrecords.started, hrecords.counted,
        hrecords.closed, hrecords.balanced, hrecords.mode, hrecords.postMode,
        hrecords.operations, hrecords.flying⟩
    have hinv₁ : Inv (s₁.pop t) (s.pendingWaitToComplete ++ t :: loose) := by
      refine ⟨hqueued₁.pop (List.mem_append_right _ List.mem_cons_self), hrecords₁,
        completesBlocked_pop h.completesBlocked, startsBlocked_pop h.startsBlocked hstarts, ?_⟩
      apply waitsBlocked_pop
      exact fun u hu => absurd hu List.not_mem_nil
    have hnext : ∀ w ∈ s.pendingWaitToComplete, WaitsNext ((s₁.pop t).actions w) := by
      intro w hw
      have hne : w ≠ t := fun heq => hwaits (heq ▸ hw)
      rw [pop_actions_of_ne hne]
      exact h.queued.wait w hw
    obtain ⟨s₂, hs₂, hinv₂, hresumed⟩ := hinv₁.retryWaits hnext
    rw [retryWaits_pop hwaits] at hs₂
    obtain ⟨s₃, hs₃, hpop⟩ := Option.map_eq_some_iff.mp hs₂
    refine ⟨s₃.advance t, ?_, ?_, ?_⟩
    · rw [osComplete, if_neg hin, hcopy]
      show (Epochs.retryWaits s₁ s.pendingWaitToComplete).map _ = _
      rw [hs₃]
      rfl
    · rw [State.advance, hpop]
      exact hinv₂.makeReady
    · have hself : Resumed s (s₁.pop t) [t] := resumed_pop rfl
      intro u
      rw [State.advance, hpop, makeReady_actions]
      apply hself.trans hresumed
      intro v hv
      rw [List.mem_singleton.mp hv]
      exact hwaits

/-! ## Posts -/

theorem advance_of_nil (h : s.actions t = []) : s.advance t = s := by
  rw [State.advance, pop_of_nil h, makeReady_of_nil h]

theorem advance_of_cons (h : s.actions t = action :: rest) : s.advance t = { s with
    actions := Function.update s.actions t rest
    progress := Function.update s.progress t ((s.progress t).after action)
    ready := if rest = [] then s.ready else s.ready ++ [t] } := by
  rw [State.advance]
  by_cases hrest : rest = []
  · rw [if_pos hrest, makeReady_of_nil, pop_of_cons h]
    rw [pop_actions_self, h]
    exact hrest
  · rw [if_neg hrest, makeReady_of_ne, pop_of_cons h]
    rw [pop_actions_self, h]
    exact hrest

theorem advance_records (s : State) (t : TaskId) : (s.advance t).postDone = s.postDone ∧
    (s.advance t).startDone = s.startDone ∧ (s.advance t).completeDone = s.completeDone ∧
    (s.advance t).pendingOfPost = s.pendingOfPost := by
  cases ht : s.actions t with
  | nil =>
      rw [advance_of_nil ht]
      exact ⟨rfl, rfl, rfl, rfl⟩
  | cons action rest =>
      rw [advance_of_cons ht]
      exact ⟨rfl, rfl, rfl, rfl⟩

def startNext (s : State) (t : TaskId) : State :=
  match s.actions t with
  | .start ranks :: _ => startAccess s t ranks
  | _ => s

theorem startNext_of_start (h : s.actions t = .start ranks :: rest) :
    startNext s t = startAccess s t ranks := by
  unfold startNext
  rw [h]

theorem resumed_startAccess (s : State) (t : TaskId) (ranks : List TaskId) :
    Resumed s (startAccess s t ranks) [t] := by
  apply resumed_advance
  rfl

theorem osStart_resumed (h : osStart s t ranks = some s') : Resumed s s' [t] := by
  rw [osStart] at h
  split at h
  · cases h
  · obtain ⟨posted, -, hs'⟩ := Option.map_eq_some_iff.mp h
    rw [← hs']
    cases posted with
    | true => exact resumed_startAccess s t ranks
    | false => exact fun u => Or.inl rfl

theorem retryStarts_of_none {i : Nat} (hget : s.pendingOfPost[i]? = none) (fuel : Nat) :
    retryStarts fuel i s = some s := by
  unfold retryStarts
  rw [hget]

theorem retryStarts_zero {i : Nat} (hget : s.pendingOfPost[i]? = some u) :
    retryStarts 0 i s = none := by
  unfold retryStarts
  rw [hget]

theorem retryStarts_succ {i fuel : Nat} (hget : s.pendingOfPost[i]? = some u)
    (hactions : s.actions u = .start ranks :: rest) : retryStarts (fuel + 1) i s =
      (osStart s u ranks).bind (retryStarts fuel (i + 1)) := by
  conv => lhs; unfold retryStarts
  rw [hget]
  simp only [hactions]

theorem retryStarts_of_not_start {i fuel : Nat} (hget : s.pendingOfPost[i]? = some u)
    (hstart : ¬ ∃ ranks, StartsNext (s.actions u) ranks) : retryStarts fuel i s = none := by
  cases fuel with
  | zero => exact retryStarts_zero hget
  | succ fuel =>
      unfold retryStarts
      simp only [hget]
      split
      · next hactions => exact absurd ⟨_, _, hactions⟩ hstart
      · rfl

theorem retryStarts_of_posted {starts : List TaskId} (i : Nat)
    (hdrop : s.pendingOfPost.drop i = starts) (hnodup : starts.Nodup)
    (hposted : ∀ u ∈ starts, ∃ ranks, StartsNext (s.actions u) ranks ∧
      copyOf s.startDone u = none ∧ thereIsAPost s.postDone u ranks = some true) :
    retryStarts starts.length i s = some (starts.foldl startNext s) ∧
      (starts.foldl startNext s).startDone.map Copy.task = s.startDone.map Copy.task ++ starts ∧
      (starts.foldl startNext s).pendingOfPost = s.pendingOfPost := by
  induction starts generalizing s i with
  | nil =>
      have hend : s.pendingOfPost[i]? = none := by
        rw [← List.head?_drop, hdrop]
        rfl
      refine ⟨?_, (List.append_nil _).symm, rfl⟩
      exact retryStarts_of_none hend _
  | cons u starts ih =>
      obtain ⟨hnot, hrest⟩ := List.nodup_cons.mp hnodup
      obtain ⟨ranks, ⟨rest, hu⟩, hcopy, hpost⟩ := hposted u List.mem_cons_self
      have hget : s.pendingOfPost[i]? = some u := by
        rw [← List.head?_drop, hdrop]
        rfl
      obtain ⟨hposts, hstarts, -, hpending⟩ :=
        advance_records { s with startDone := s.startDone ++ [Copy.mk u ranks] } u
      have hstart : osStart s u ranks = some (startAccess s u ranks) := by
        rw [osStart, hcopy, hpost]
        rfl
      have hdrop₁ : (startAccess s u ranks).pendingOfPost.drop (i + 1) = starts := by
        rw [startAccess, hpending]
        show s.pendingOfPost.drop (i + 1) = starts
        rw [← List.tail_drop, hdrop]
        rfl
      obtain ⟨hretry, htasks, hsame⟩ := ih (i + 1) hdrop₁ hrest fun v hv => by
        obtain ⟨ranks', hstart', hcopy', hpost'⟩ := hposted v (List.mem_cons_of_mem u hv)
        have hne : v ≠ u := fun heq => hnot (heq ▸ hv)
        refine ⟨ranks', ?_, ?_, ?_⟩
        · rcases resumed_startAccess s u ranks v with hkeep | ⟨heq, -⟩
          · rw [hkeep]
            exact hstart'
          · exact absurd (List.mem_singleton.mp heq) hne
        · rw [startAccess, hstarts, copyOf_eq_none]
          intro c hc
          rcases List.mem_append.mp hc with hold | hnew
          · exact copyOf_eq_none.mp hcopy' c hold
          · rw [List.mem_singleton.mp hnew]
            exact hne.symm
        · rw [startAccess, hposts]
          exact hpost'
      rw [List.foldl_cons, startNext_of_start hu]
      refine ⟨?_, ?_, ?_⟩
      · rw [List.length_cons, retryStarts_succ hget hu, hstart]
        exact hretry
      · rw [htasks, startAccess, hstarts, List.map_append, List.append_assoc]
        rfl
      · rw [hsame, startAccess, hpending]

theorem removeStarted_of_mem (hnodup : s.pendingOfPost.Nodup)
    (hstarted : ∀ u ∈ s.pendingOfPost, u ∈ s.startDone.map Copy.task) :
    removeStarted s = { s with pendingOfPost := [] } := by
  have hdiff : s.startDone.foldl (fun queue c => queue.erase c.task) s.pendingOfPost =
      s.pendingOfPost.diff (s.startDone.map Copy.task) := by
    rw [List.diff_eq_foldl, List.foldl_map]
  have hnil : s.pendingOfPost.diff (s.startDone.map Copy.task) = [] := by
    apply List.eq_nil_iff_forall_not_mem.mpr
    intro u hu
    obtain ⟨hin, hout⟩ := hnodup.mem_sdiff_iff.mp hu
    exact hout (hstarted u hin)
  rw [removeStarted, hdiff, hnil]

theorem startNext_pop (h : u ≠ t) : startNext (s.pop t) u = (startNext s u).pop t := by
  have haccess (ranks : List TaskId) :
      startAccess (s.pop t) u ranks = (startAccess s u ranks).pop t := by
    rw [startAccess, startAccess, advance_pop h]
    congr 1
    cases ht : s.actions t with
    | nil =>
        rw [pop_of_nil ht, pop_of_nil (s := { s with
          startDone := s.startDone ++ [Copy.mk u ranks] }) ht]
    | cons action rest =>
        rw [pop_of_cons ht, pop_of_cons (s := { s with
          startDone := s.startDone ++ [Copy.mk u ranks] }) ht]
  unfold startNext
  rw [pop_actions_of_ne h]
  split
  · exact haccess _
  · rfl

/-- A task may be done before or behind the starts that are tried again. -/
theorem startAll_pop {starts : List TaskId} (hout : t ∉ starts) :
    starts.foldl startNext (s.pop t) = (starts.foldl startNext s).pop t := by
  induction starts generalizing s with
  | nil => rfl
  | cons u starts ih =>
      have hne : u ≠ t := fun heq => hout (heq ▸ List.mem_cons_self)
      rw [List.foldl_cons, List.foldl_cons, startNext_pop hne]
      exact ih fun hin => hout (List.mem_cons_of_mem u hin)

theorem startNext_queue (s : State) (queue : List TaskId) (u : TaskId) :
    startNext { s with pendingOfPost := queue } u =
      { startNext s u with pendingOfPost := queue } := by
  have haccess (ranks : List TaskId) : startAccess { s with pendingOfPost := queue } u ranks =
      { startAccess s u ranks with pendingOfPost := queue } := by
    rw [startAccess, startAccess]
    cases hu : s.actions u with
    | nil =>
        rw [advance_of_nil (s := { s with startDone := s.startDone ++ [Copy.mk u ranks] }) hu]
        exact advance_of_nil hu
    | cons action rest =>
        rw [advance_of_cons (s := { s with startDone := s.startDone ++ [Copy.mk u ranks] }) hu]
        exact advance_of_cons hu
  unfold startNext
  show (match s.actions u with
    | .start ranks :: _ => startAccess { s with pendingOfPost := queue } u ranks
    | _ => { s with pendingOfPost := queue }) = _
  split
  · exact haccess _
  · rfl

theorem startAll_queue (s : State) (queue starts : List TaskId) :
    starts.foldl startNext { s with pendingOfPost := queue } =
      { starts.foldl startNext s with pendingOfPost := queue } := by
  induction starts generalizing s with
  | nil => rfl
  | cons u starts ih =>
      rw [List.foldl_cons, List.foldl_cons, startNext_queue]
      exact ih (startNext s u)

theorem Inv.startAll {starts : List TaskId} (h : Inv s (starts ++ loose))
    (hposted : ∀ u ∈ starts, ∃ ranks, StartsNext (s.actions u) ranks ∧ ¬ Completed s u ∧
      ∀ a ∈ ranks, Names s a u) :
    Inv (starts.foldl startNext s) loose ∧ Resumed s (starts.foldl startNext s) starts := by
  induction starts generalizing s with
  | nil => exact ⟨h, fun u => Or.inl rfl⟩
  | cons u starts ih =>
      obtain ⟨ranks, ⟨rest, hu⟩, hfree, hnames⟩ := hposted u List.mem_cons_self
      have hnot : u ∉ starts := by
        have honce := h.queued.once u
        rw [List.cons_append, count_cons, List.count_append, List.count_singleton_self] at honce
        exact List.count_eq_zero.mp (by omega)
      have hloose : Inv s (u :: (starts ++ loose)) := h
      have hinv₁ := hloose.startAccess hu hfree hnames
      have hresumed₁ := resumed_startAccess s u ranks
      obtain ⟨hposts, -, hcompletes, -⟩ :=
        advance_records { s with startDone := s.startDone ++ [Copy.mk u ranks] } u
      rw [List.foldl_cons, startNext_of_start hu]
      obtain ⟨hinv₂, hresumed₂⟩ := ih hinv₁ fun v hv => by
        obtain ⟨ranks', hstart', hfree', hnames'⟩ := hposted v (List.mem_cons_of_mem u hv)
        refine ⟨ranks', ?_, ?_, ?_⟩
        · rcases hresumed₁ v with hkeep | ⟨heq, -⟩
          · rw [hkeep]
            exact hstart'
          · exact absurd (List.mem_singleton.mp heq ▸ hv) hnot
        · rw [Completed, Epochs.startAccess, hcompletes]
          exact hfree'
        · intro a ha
          rw [Names, Epochs.startAccess, hposts]
          exact hnames' a ha
      refine ⟨hinv₂, hresumed₁.trans hresumed₂ fun v hv => ?_⟩
      rw [List.mem_singleton.mp hv]
      exact hnot

theorem Inv.post (h : Inv s (t :: loose)) (ht : s.actions t = .post ranks :: rest)
    (hmode : s.mode = .post) (hfree : ∀ u ∈ ranks, ¬ Completed s u)
    (hposted : ∀ u ∈ s.pendingOfPost, ∀ ranks', StartsNext (s.actions u) ranks' →
      ¬ Completed s u ∧ ∀ a ∈ ranks', Names s a u ∨ (a = t ∧ u ∈ ranks)) :
    ∃ s', osPost s.pendingOfPost.length s t ranks = some s' ∧ Inv s' loose ∧
      Resumed s s' (t :: s.pendingOfPost) := by
  obtain ⟨-, hout, -, -⟩ := h.queued.not_mem List.mem_cons_self
  have hnone : (s.progress t).openPost = none := h.records.allows ht
  have hrecords := h.records.post ht hmode hfree
  have hqueued := h.queued.takeStarts
  have hnodup : s.pendingOfPost.Nodup := by
    apply List.nodup_iff_count_le_one.mpr
    intro u
    have honce := h.queued.once u
    omega
  let s₀ : State := { s with postDone := s.postDone ++ [Copy.mk t ranks] }
  let s₁ : State := { s₀ with pendingOfPost := [] }
  have hnames {a u : TaskId} (hname : Names s a u ∨ (a = t ∧ u ∈ ranks)) : Names s₀ a u := by
    rcases hname with ⟨c, hc, hcopy⟩ | ⟨hat, hu⟩
    · exact ⟨c, List.mem_append_left _ hc, hcopy⟩
    · exact ⟨Copy.mk t ranks, List.mem_append_right _ (List.mem_singleton_self _), hat.symm, hu⟩
  have hqueued₁ : Queued s₁ (s.pendingOfPost ++ t :: loose) :=
    ⟨hqueued.once, hqueued.readyActions, hqueued.start, hqueued.rma, hqueued.wait, hqueued.held⟩
  have hfields := pop_of_cons (s := s₀) ht
  have hfields₁ := pop_of_cons (s := s₁) ht
  have hrecords₁ : Records (s₁.pop t) := by
    have hrecords₀ : Records (s₀.pop t) := hrecords
    rw [hfields] at hrecords₀
    rw [hfields₁]
    exact ⟨hrecords₀.wellFormed, hrecords₀.postsNodup, hrecords₀.posts, hrecords₀.startsNodup,
      hrecords₀.starts, hrecords₀.completesNodup, hrecords₀.started, hrecords₀.counted,
      hrecords₀.closed, hrecords₀.balanced, hrecords₀.mode, hrecords₀.postMode,
      hrecords₀.operations, hrecords₀.flying⟩
  have hinv₁ : Inv (s₁.pop t) (s.pendingOfPost ++ t :: loose) := by
    refine ⟨hqueued₁.pop (List.mem_append_right _ List.mem_cons_self), hrecords₁,
      completesBlocked_pop h.completesBlocked, startsBlocked_pop ?_ List.not_mem_nil,
      waitsBlocked_pop fun u hu => ?_⟩
    · exact fun u hu => absurd hu List.not_mem_nil
    · obtain ⟨a, hname, hmissing⟩ := h.waitsBlocked u hu
      exact ⟨a, hnames (Or.inl hname), hmissing⟩
  -- the post is open before its own action is done, which the starts do not see
  have hdrop : s₀.pendingOfPost.drop 0 = s.pendingOfPost := rfl
  have hretry := retryStarts_of_posted (s := s₀) 0 hdrop hnodup fun u hu => by
    obtain ⟨ranks', hstart⟩ := h.queued.start u hu
    obtain ⟨hno, hall⟩ := hposted u hu ranks' hstart
    obtain ⟨rest', hactions⟩ := hstart
    have hne : u ≠ t := fun heq => hout (heq ▸ hu)
    have hopenStart : (s.progress u).openStart = none := h.records.allows hactions
    refine ⟨ranks', ⟨rest', hactions⟩, h.records.copyOf_start hopenStart, ?_⟩
    have hfresh : ∀ d ∈ s.postDone, d.task ≠ t :=
      copyOf_eq_none.mp (h.records.copyOf_post hnone)
    have hopen : ∀ a ∈ ranks', IsOpen s₀ a → Names s₀ a u := fun a ha _ => hnames (hall a ha)
    rcases thereIsAPost_spec (s := s₀) (nodup_concat h.records.postsNodup hfresh) hopen
      with ⟨htrue, -⟩ | ⟨-, a, ha, hclosed⟩
    · exact htrue
    · obtain ⟨c, hc, htask, -⟩ := hnames (hall a ha)
      exact absurd ⟨c, hc, htask⟩ hclosed
  obtain ⟨hruns, htasks, hsame⟩ := hretry
  have hremove : removeStarted (s.pendingOfPost.foldl startNext s₀) =
      s.pendingOfPost.foldl startNext s₁ := by
    rw [removeStarted_of_mem, startAll_queue]
    · rw [hsame]
      exact hnodup
    · intro u hu
      rw [hsame] at hu
      rw [htasks]
      exact List.mem_append_right _ hu
  obtain ⟨hinv₂, hresumed₂⟩ := hinv₁.startAll fun u hu => by
    obtain ⟨ranks', hstart⟩ := h.queued.start u hu
    obtain ⟨hno, hall⟩ := hposted u hu ranks' hstart
    have hne : u ≠ t := fun heq => hout (heq ▸ hu)
    refine ⟨ranks', ?_, ?_, fun a ha => ?_⟩
    · rw [pop_actions_of_ne hne]
      exact hstart
    · rw [hfields₁]
      exact hno
    · rw [hfields₁]
      exact hnames (hall a ha)
  rw [startAll_pop hout] at hinv₂ hresumed₂
  refine ⟨(s.pendingOfPost.foldl startNext s₁).advance t, ?_, hinv₂.makeReady, ?_⟩
  · have hcopy : ¬ (copyOf s.postDone t).isSome = true := by
      rw [h.records.copyOf_post hnone]
      exact Bool.false_ne_true
    rw [osPost, if_neg hcopy]
    show (Epochs.retryStarts s.pendingOfPost.length 0 s₀).map _ = _
    have hruns' : Epochs.retryStarts s.pendingOfPost.length 0 s₀ = _ := hruns
    rw [hruns', Option.map_some, hremove]
  · have hself : Resumed s (s₁.pop t) [t] := resumed_pop rfl
    intro u
    rw [State.advance, makeReady_actions]
    apply hself.trans hresumed₂
    intro v hv
    rw [List.mem_singleton.mp hv]
    exact hout

/-! ## Steps -/

/-- A post comes where every start that waits can go on with it, and no complete of an earlier
epoch of its group is kept. -/
def PostOrderly (s : State) (t : TaskId) (ranks : List TaskId) : Prop :=
  (∀ u ∈ ranks, ¬ Completed s u) ∧
    ∀ u ∈ s.pendingOfPost, ∀ ranks', StartsNext (s.actions u) ranks' →
      ¬ Completed s u ∧ ∀ a ∈ ranks', Names s a u ∨ (a = t ∧ u ∈ ranks)

/-- A start meets no post for other tasks, and no post that its task has completed. -/
def StartOrderly (s : State) (t : TaskId) (ranks : List TaskId) : Prop :=
  (∀ a ∈ ranks, IsOpen s a → Names s a t) ∧ ((∀ a ∈ ranks, IsOpen s a) → ¬ Completed s t)

/-- A complete is of every open post that names its task. -/
def CompleteOrderly (s : State) (t : TaskId) : Prop :=
  ∀ c ∈ s.startDone, c.task = t → ∀ d ∈ s.postDone, t ∈ d.ranks → d.task ∈ c.ranks

def Orderly (s : State) : Label → Prop
  | .dispatch t =>
      match s.actions t with
      | .post ranks :: _ => PostOrderly s t ranks
      | .start ranks :: _ => StartOrderly s t ranks
      | .complete :: _ => t ∉ s.postOperations → CompleteOrderly s t
      | _ => True
  | .completed t =>
      t ∈ s.pendingRmaToComplete → t ∉ s.postOperations.erase t → CompleteOrderly s t

/-- A step does at most one action of each task, which is its own or waited in a queue. -/
def Resumes (s : State) (l : Label) (s' : State) : Prop :=
  ∀ u, s'.actions u = s.actions u ∨
    (s'.actions u = (s.actions u).tail ∧ (l = .dispatch u ∨ u ∉ s.ready))

theorem Resumed.resumes {tasks : List TaskId} {l : Label} (h : Resumed s s' tasks)
    (htasks : ∀ u ∈ tasks, l = .dispatch u ∨ u ∉ s.ready) : Resumes s l s' := by
  intro u
  rcases h u with hsame | ⟨hu, htail⟩
  · exact Or.inl hsame
  · exact Or.inr ⟨htail, htasks u hu⟩

theorem Queued.not_ready (h : Queued s loose) (hu : u ∈ s.pendingOfPost ∨
    u ∈ s.pendingRmaToComplete ∨ u ∈ s.pendingWaitToComplete) : u ∉ s.ready := by
  have honce := h.once u
  rw [← List.count_pos_iff, ← List.count_pos_iff, ← List.count_pos_iff] at hu
  exact List.count_eq_zero.mp (by omega)

/-- The step of a ready task does its action or leaves it in a queue. -/
theorem Queued.resumes_dispatch {waiting : List TaskId} (h : Queued s [])
    (hresumed : Resumed s s' (t :: waiting)) (hwaiting : ∀ u ∈ waiting,
      u ∈ s.pendingOfPost ∨ u ∈ s.pendingRmaToComplete ∨ u ∈ s.pendingWaitToComplete) :
    Resumes s (.dispatch t) s' := by
  apply hresumed.resumes
  intro u hu
  rcases List.mem_cons.mp hu with heq | hin
  · exact Or.inl (congrArg Label.dispatch heq.symm)
  · exact Or.inr (h.not_ready (hwaiting u hin))

theorem Inv.inPostMode (h : Inv s loose) : Inv { s with mode := .post } loose :=
  ⟨⟨h.queued.once, h.queued.readyActions, h.queued.start, h.queued.rma, h.queued.wait,
    h.queued.held⟩, ⟨h.records.wellFormed, h.records.postsNodup, h.records.posts,
    h.records.startsNodup, h.records.starts, h.records.completesNodup, h.records.started,
    h.records.counted, h.records.closed, h.records.balanced, Or.inr rfl, fun _ => rfl,
    h.records.operations, h.records.flying⟩, h.completesBlocked, h.startsBlocked, h.waitsBlocked⟩

theorem Inv.take (h : Inv s []) (ht : t ∈ s.ready) :
    Inv { s with ready := s.ready.erase t } [t] :=
  ⟨h.queued.take ht, ⟨h.records.wellFormed, h.records.postsNodup, h.records.posts,
    h.records.startsNodup, h.records.starts, h.records.completesNodup, h.records.started,
    h.records.counted, h.records.closed, h.records.balanced, h.records.mode, h.records.postMode,
    h.records.operations, h.records.flying⟩, h.completesBlocked, h.startsBlocked, h.waitsBlocked⟩

theorem CompleteOrderly.names (h : CompleteOrderly s t) (hc : c ∈ s.startDone) (htask : c.task = t)
    {a : TaskId} (hname : Names s a t) : a ∈ c.ranks := by
  obtain ⟨d, hd, hda, ht⟩ := hname
  rw [← hda]
  exact h c hc htask d hd ht

theorem Inv.dispatch (h : Inv s []) (ht : t ∈ s.ready) (horderly : Orderly s (.dispatch t)) :
    ∃ fuel s', step fuel s (.dispatch t) = some s' ∧ Inv s' [] ∧ Resumes s (.dispatch t) s' := by
  have htaken := h.take ht
  have hposted := htaken.inPostMode
  have hmodes : s.mode = .none ∨ s.mode = .post := h.records.mode
  obtain ⟨action, rest, hactions⟩ := List.exists_cons_of_ne_nil (h.queued.readyActions t ht)
  have hself (s' : State) (hresumed : Resumed s s' [t]) : Resumes s (.dispatch t) s' :=
    h.queued.resumes_dispatch hresumed fun u hu => absurd hu List.not_mem_nil
  simp only [step, Orderly, hactions] at horderly ⊢
  cases action with
  | work => exact ⟨0, _, rfl, htaken.work hactions, hself _ (resumed_advance rfl)⟩
  | getput target =>
      obtain ⟨ranks, hopen, htarget⟩ := h.records.allows hactions
      obtain ⟨-, hnames⟩ := h.records.started ⟨t, ranks⟩ ((h.records.starts ⟨t, ranks⟩).mpr hopen)
      obtain ⟨c, hc, -⟩ := hnames target htarget
      have hmode : s.mode = .post := h.records.postMode (List.ne_nil_of_mem hc)
      refine ⟨0, _, if_pos hmode, htaken.getput hactions, hself _ ?_⟩
      apply resumed_advance
      rfl
  | post ranks =>
      obtain ⟨hfree, hpending⟩ := horderly
      obtain ⟨s', hs', hinv, hresumed⟩ := hposted.post hactions rfl hfree hpending
      refine ⟨s.pendingOfPost.length, s', ?_, hinv, h.queued.resumes_dispatch hresumed ?_⟩
      · exact (if_pos hmodes).trans hs'
      · exact fun u hu => Or.inl hu
  | start ranks =>
      obtain ⟨s', hs', hinv⟩ := hposted.start hactions horderly.1 horderly.2
      have hresumed := osStart_resumed hs'
      exact ⟨0, s', (if_pos hmodes).trans hs', hinv, hself s' hresumed⟩
  | complete =>
      obtain ⟨s', hs', hinv, hresumed⟩ := hposted.complete hactions fun hout c hc htask a =>
        (horderly hout).names hc htask
      refine ⟨0, s', (if_pos hmodes).trans hs', hinv, h.queued.resumes_dispatch hresumed ?_⟩
      exact fun u hu => Or.inr (Or.inr hu)
  | wait =>
      obtain ⟨s', hs', hinv, hresumed⟩ := hposted.wait hactions
      exact ⟨0, s', (if_pos hmodes).trans hs', hinv, hself s' hresumed⟩

theorem osCompleted_of_post (hmode : s.mode = .post) (hin : t ∈ s.postOperations) :
    osCompleted s t = if t ∈ s.pendingRmaToComplete then
        osComplete { s with
          postOperations := s.postOperations.erase t
          pendingRmaToComplete := s.pendingRmaToComplete.erase t } t
      else some { s with postOperations := s.postOperations.erase t } := by
  unfold osCompleted
  split
  · next hnone =>
      rw [hmode] at hnone
      cases hnone
  · exact if_pos hin
  · next hother => exact absurd hmode hother

theorem Inv.completed (h : Inv s []) (ht : t ∈ s.inFlight) (horderly : Orderly s (.completed t)) :
    ∃ fuel s', step fuel s (.completed t) = some s' ∧ Inv s' [] ∧
      Resumes s (.completed t) s' := by
  obtain ⟨hin, hmode, hrecords⟩ := h.records.completed ht
  let s₁ : State := { s with
    inFlight := s.inFlight.erase t
    postOperations := s.postOperations.erase t }
  by_cases hrma : t ∈ s.pendingRmaToComplete
  · have hqueued := h.queued.takeComplete hrma
    have hnodup : s.pendingRmaToComplete.Nodup := by
      apply List.nodup_iff_count_le_one.mpr
      intro u
      have honce := h.queued.once u
      omega
    have hinv₁ : Inv { s₁ with pendingRmaToComplete := s.pendingRmaToComplete.erase t } [t] := by
      refine ⟨⟨hqueued.once, hqueued.readyActions, hqueued.start, hqueued.rma, hqueued.wait,
        hqueued.held⟩, ⟨hrecords.wellFormed, hrecords.postsNodup, hrecords.posts,
        hrecords.startsNodup, hrecords.starts, hrecords.completesNodup, hrecords.started,
        hrecords.counted, hrecords.closed, hrecords.balanced, hrecords.mode, hrecords.postMode,
        hrecords.operations, hrecords.flying⟩, fun u hu => ?_, h.startsBlocked, h.waitsBlocked⟩
      obtain ⟨hne, hold⟩ := hnodup.mem_erase_iff.mp hu
      exact (List.mem_erase_of_ne hne).mpr (h.completesBlocked u hold)
    obtain ⟨rest, hactions⟩ := h.queued.rma t hrma
    obtain ⟨s', hs', hinv, hresumed⟩ := hinv₁.complete hactions fun hout c hc htask a =>
      (horderly hrma hout).names hc htask
    refine ⟨0, s', ?_, hinv, ?_⟩
    · exact (osCompleted_of_post (s := { s with inFlight := s.inFlight.erase t }) hmode hin).trans
        ((if_pos hrma).trans hs')
    · have hresumed' : Resumed s s' (t :: s.pendingWaitToComplete) := hresumed
      apply hresumed'.resumes
      intro u hu
      right
      apply h.queued.not_ready
      rcases List.mem_cons.mp hu with heq | hwait
      · rw [heq]
        exact Or.inr (Or.inl hrma)
      · exact Or.inr (Or.inr hwait)
  · refine ⟨0, s₁, ?_, ?_, fun u => Or.inl rfl⟩
    · exact (osCompleted_of_post (s := { s with inFlight := s.inFlight.erase t }) hmode hin).trans
        (if_neg hrma)
    · refine ⟨⟨h.queued.once, h.queued.readyActions, h.queued.start, h.queued.rma, h.queued.wait,
        h.queued.held⟩, hrecords, fun u hu => ?_, h.startsBlocked, h.waitsBlocked⟩
      have hne : u ≠ t := fun heq => hrma (heq ▸ hu)
      exact (List.mem_erase_of_ne hne).mpr (h.completesBlocked u hu)

/-- The fuel of a post does not matter once it is enough. -/
theorem retryStarts_mono {fuel more i : Nat} (h : retryStarts fuel i s = some s')
    (hle : fuel ≤ more) : retryStarts more i s = some s' := by
  induction fuel generalizing more i s with
  | zero =>
      cases hget : s.pendingOfPost[i]? with
      | none =>
          rw [retryStarts_of_none hget] at h ⊢
          exact h
      | some u =>
          rw [retryStarts_zero hget] at h
          cases h
  | succ fuel ih =>
      cases hget : s.pendingOfPost[i]? with
      | none =>
          rw [retryStarts_of_none hget] at h ⊢
          exact h
      | some u =>
          by_cases hstart : ∃ ranks, StartsNext (s.actions u) ranks
          · obtain ⟨ranks, rest, hactions⟩ := hstart
            obtain ⟨fuel', hmore⟩ := Nat.exists_eq_add_of_le hle
            have hsucc : more = (fuel + fuel') + 1 := by omega
            rw [retryStarts_succ hget hactions] at h
            rw [hsucc, retryStarts_succ hget hactions]
            obtain ⟨s₁, hs₁, hrest⟩ := Option.bind_eq_some_iff.mp h
            exact Option.bind_eq_some_iff.mpr ⟨s₁, hs₁, ih hrest (Nat.le_add_right fuel fuel')⟩
          · rw [retryStarts_of_not_start hget hstart] at h
            cases h

theorem step_mono {fuel more : Nat} {l : Label} (h : step fuel s l = some s')
    (hle : fuel ≤ more) : step more s l = some s' := by
  cases l with
  | completed t => exact h
  | dispatch t =>
      cases hactions : s.actions t with
      | nil =>
          simp only [step, hactions] at h ⊢
          exact h
      | cons action rest =>
          simp only [step, hactions] at h ⊢
          cases action with
          | post ranks =>
              simp only [oneSidedOperation, postOperation, osPost] at h ⊢
              split at h
              · next hmode =>
                  rw [if_pos hmode]
                  split at h
                  · cases h
                  · next hcopy =>
                      rw [if_neg hcopy]
                      obtain ⟨s₁, hs₁, hrest⟩ := Option.map_eq_some_iff.mp h
                      rw [retryStarts_mono hs₁ hle]
                      exact congrArg some hrest
              · cases h
          | _ => exact h

theorem retryStarts_of_missing {i j : Nat} (hget : s.pendingOfPost[j]? = some u) (hij : i ≤ j)
    (hactions : s.actions u = .start ranks :: rest) (hcopy : copyOf s.startDone u = none)
    (hmissing : thereIsAPost s.postDone u ranks = some false) (fuel : Nat) :
    retryStarts fuel i s = none := by
  induction fuel generalizing i j s with
  | zero =>
      obtain ⟨w, hw⟩ : ∃ w, s.pendingOfPost[i]? = some w := by
        obtain ⟨hj, -⟩ := List.getElem?_eq_some_iff.mp hget
        exact ⟨_, List.getElem?_eq_getElem (Nat.lt_of_le_of_lt hij hj)⟩
      exact retryStarts_zero hw
  | succ fuel ih =>
      obtain ⟨hj, -⟩ := List.getElem?_eq_some_iff.mp hget
      obtain ⟨w, hw⟩ : ∃ w, s.pendingOfPost[i]? = some w :=
        ⟨_, List.getElem?_eq_getElem (Nat.lt_of_le_of_lt hij hj)⟩
      by_cases hstart : ∃ ranks', StartsNext (s.actions w) ranks'
      · obtain ⟨ranks', rest', hactions'⟩ := hstart
        rw [retryStarts_succ hw hactions']
        apply Option.bind_eq_none_iff.mpr
        intro s₁ hs₁
        rw [osStart] at hs₁
        split at hs₁
        · cases hs₁
        · obtain ⟨posted, hposted, heq⟩ := Option.map_eq_some_iff.mp hs₁
          rw [← heq]
          cases posted with
          | true =>
              have hwu : w ≠ u := by
                intro hwu
                rw [hwu, hactions] at hactions'
                have hranks := Action.start.inj (List.cons.inj hactions').1
                rw [hwu, ← hranks, hmissing] at hposted
                cases hposted
              have hne : i ≠ j := by
                intro hne
                rw [hne, hget] at hw
                exact hwu (Option.some.inj hw).symm
              obtain ⟨hposts, hstarts, -, hpending⟩ :=
                advance_records { s with startDone := s.startDone ++ [Copy.mk w ranks'] } w
              refine @ih (startAccess s w ranks') (i + 1) j ?_ (by omega) ?_ ?_ ?_
              · rw [startAccess, hpending]
                exact hget
              · rcases resumed_startAccess s w ranks' u with hkeep | ⟨huw, -⟩
                · rw [hkeep, hactions]
                · exact absurd (List.mem_singleton.mp huw).symm hwu
              · rw [startAccess, hstarts, copyOf_eq_none]
                intro c hc
                rcases List.mem_append.mp hc with hold | hnew
                · exact copyOf_eq_none.mp hcopy c hold
                · rw [List.mem_singleton.mp hnew]
                  exact hwu
              · rw [startAccess, hposts]
                exact hmissing
          | false =>
              -- the task joins the queue behind the cursor
              by_cases hne : i = j
              · rw [hne, hget] at hw
                refine @ih { s with pendingOfPost := s.pendingOfPost ++ [w] } (i + 1)
                  s.pendingOfPost.length ?_ (by omega) hactions hcopy hmissing
                rw [← Option.some.inj hw]
                exact List.getElem?_concat_length
              · refine @ih { s with pendingOfPost := s.pendingOfPost ++ [w] } (i + 1) j ?_
                  (by omega) hactions hcopy hmissing
                exact (List.getElem?_append_left hj).trans hget
      · exact retryStarts_of_not_start hw hstart

/-- A post that comes while a start misses another one never ends. -/
theorem step_of_missing {ranks' : List TaskId} {rest' : List Action}
    (ht : s.actions t = .post ranks :: rest') (hmode : s.mode = .none ∨ s.mode = .post)
    (hu : u ∈ s.pendingOfPost) (hactions : s.actions u = .start ranks' :: rest)
    (hcopy : copyOf s.startDone u = none)
    (hmissing : thereIsAPost (s.postDone ++ [Copy.mk t ranks]) u ranks' = some false)
    (fuel : Nat) : step fuel s (.dispatch t) = none := by
  have hpost : osPost fuel { s with ready := s.ready.erase t, mode := .post } t ranks = none := by
    obtain ⟨j, hget⟩ := List.mem_iff_getElem?.mp hu
    rw [osPost]
    split
    · rfl
    · apply Option.map_eq_none_iff.mpr
      exact @retryStarts_of_missing { s with
        postDone := s.postDone ++ [Copy.mk t ranks]
        ready := s.ready.erase t
        mode := .post } u rest ranks' 0 j hget (Nat.zero_le j) hactions hcopy hmissing fuel
  simp only [step, ht]
  exact (if_pos hmode).trans hpost

/-! ## Runs -/

/-- What holds between two steps. A start is in progress behind open posts of its group that name
its task, and one that is blocked misses a post. A post is over when all starts of its group are
completed, and a wait that is blocked misses one. The epochs of two tasks follow one another. -/
structure Good (s : State) : Prop where
  queued : Queued s []
  started : ∀ t ranks, (s.progress t).openStart = some ranks →
    ∀ a ∈ ranks, ∃ group, (s.progress a).openPost = some group ∧ t ∈ group
  startsBlocked : ∀ t ∈ s.pendingOfPost, ∀ ranks, StartsNext (s.actions t) ranks →
    ∃ a ∈ ranks, (s.progress a).openPost = none
  completesBlocked : ∀ t ∈ s.pendingRmaToComplete, t ∈ s.inFlight
  waitsBlocked : ∀ a ∈ s.pendingWaitToComplete, ∃ group, (s.progress a).openPost = some group ∧
    ∃ t ∈ group, (s.progress t).completes a < (s.progress a).posts t
  waited : ∀ a t, (∀ group, (s.progress a).openPost = some group → t ∉ group) →
    (s.progress t).completes a = (s.progress a).posts t
  epochs : ∀ a t, (s.progress t).completes a ≤ (s.progress t).starts a ∧
    (s.progress t).starts a ≤ (s.progress a).posts t ∧
    (s.progress a).posts t ≤ (s.progress t).completes a + 1

theorem Records.names_iff (h : Records s) (a t : TaskId) :
    Names s a t ↔ ∃ group, (s.progress a).openPost = some group ∧ t ∈ group := by
  constructor
  · rintro ⟨c, hc, htask, ht⟩
    rw [← htask]
    exact ⟨c.ranks, (h.posts c).mp hc, ht⟩
  · rintro ⟨group, hgroup, ht⟩
    exact ⟨⟨a, group⟩, (h.posts ⟨a, group⟩).mpr hgroup, rfl, ht⟩

theorem Records.epochs (h : Records s) (a t : TaskId) :
    (s.progress t).completes a ≤ (s.progress t).starts a ∧
    (s.progress t).starts a ≤ (s.progress a).posts t ∧
    (s.progress a).posts t ≤ (s.progress t).completes a + 1 := by
  have hposts : (s.progress t).completes a ≤ (s.progress a).posts t ∧
      (s.progress a).posts t ≤ (s.progress t).completes a + 1 := by
    by_cases hname : Names s a t
    · obtain ⟨hdone, hnot⟩ := h.counted a t hname
      by_cases hcompleted : Completed s t
      · have heq := hdone hcompleted
        omega
      · have heq := hnot hcompleted
        omega
    · have heq := h.closed a t hname
      omega
  have hbalanced := h.balanced t a
  by_cases hin : a ∈ (s.progress t).openStart.getD []
  · rw [if_pos hin] at hbalanced
    obtain ⟨ranks, hopen⟩ : ∃ ranks, (s.progress t).openStart = some ranks := by
      cases hopen : (s.progress t).openStart with
      | none =>
          rw [hopen] at hin
          exact absurd hin List.not_mem_nil
      | some ranks => exact ⟨ranks, rfl⟩
    rw [hopen] at hin
    obtain ⟨hfree, hnames⟩ := h.started ⟨t, ranks⟩ ((h.starts ⟨t, ranks⟩).mpr hopen)
    have heq := (h.counted a t (hnames a hin)).2 hfree
    omega
  · rw [if_neg hin] at hbalanced
    omega

theorem Inv.good (h : Inv s []) : Good s := by
  refine ⟨h.queued, fun t ranks hopen a ha => ?_, fun t ht ranks hstart => ?_, fun t ht => ?_,
    fun a ha => ?_, fun a t hout => ?_, h.records.epochs⟩
  · have hc := (h.records.starts ⟨t, ranks⟩).mpr hopen
    exact (h.records.names_iff a t).mp ((h.records.started _ hc).2 a ha)
  · obtain ⟨a, ha, hclosed⟩ := h.startsBlocked t ht ranks hstart
    refine ⟨a, ha, ?_⟩
    cases hopen : (s.progress a).openPost with
    | none => rfl
    | some group => exact absurd ⟨⟨a, group⟩, (h.records.posts ⟨a, group⟩).mpr hopen, rfl⟩ hclosed
  · rw [← List.count_pos_iff, ← h.records.operations t]
    exact List.count_pos_iff.mpr (h.completesBlocked t ht)
  · obtain ⟨t, hname, hmissing⟩ := h.waitsBlocked a ha
    obtain ⟨group, hopen, ht⟩ := (h.records.names_iff a t).mp hname
    refine ⟨group, hopen, t, ht, ?_⟩
    rw [(h.records.counted a t hname).2 hmissing]
    exact Nat.lt_succ_self _
  · apply Eq.symm
    apply h.records.closed a t
    intro hname
    obtain ⟨group, hopen, ht⟩ := (h.records.names_iff a t).mp hname
    exact hout group hopen ht

/-- A condition on all steps of a sequence. -/
def Always (P : State → Label → Prop) : State → List Label → Prop
  | _, [] => True
  | s, l :: ls => P s l ∧ ∀ fuel s', step fuel s l = some s' → Always P s' ls

/-- All states of a sequence of steps are good, and every step ends, without a panic. -/
def Behaves : State → List Label → Prop
  | s, [] => Good s
  | s, l :: ls => Good s ∧ ∃ fuel s', (∀ more, fuel ≤ more → step more s l = some s') ∧
      Resumes s l s' ∧ Behaves s' ls

theorem Inv.behaves {ls : List Label} (h : Inv s [])
    (horderly : Always (fun s l => Enabled s l ∧ Orderly s l) s ls) : Behaves s ls := by
  induction ls generalizing s with
  | nil => exact h.good
  | cons l ls ih =>
      obtain ⟨⟨henabled, hl⟩, hrest⟩ := horderly
      have hstep : ∃ fuel s', step fuel s l = some s' ∧ Inv s' [] ∧ Resumes s l s' := by
        cases l with
        | dispatch t => exact h.dispatch henabled hl
        | completed t => exact h.completed henabled hl
      obtain ⟨fuel, s', hs', hinv, hresumes⟩ := hstep
      exact ⟨h.good, fuel, s', fun more hle => step_mono hs' hle, hresumes,
        ih hinv (hrest fuel s' hs')⟩

theorem inv_initial {programs : List (List Action)}
    (hprograms : ∀ t, WellFormed .initial (programs.getD t [])) :
    Inv (State.initial programs) [] := by
  have hready (t : TaskId) :
      t ∈ (State.initial programs).ready ↔ t < programs.length ∧ programs.getD t [] ≠ [] := by
    show t ∈ (List.range programs.length).filter _ ↔ _
    rw [List.mem_filter, List.mem_range, decide_eq_true_iff, Ne, List.length_eq_zero_iff]
  have hnone {α : Type} (x : α) (hx : x ∈ ([] : List α)) : False := List.not_mem_nil hx
  refine ⟨⟨fun t => ?_, fun t ht => ((hready t).mp ht).2, fun t ht => (hnone t ht).elim,
    fun t ht => (hnone t ht).elim, fun t ht => (hnone t ht).elim, fun t ht => Or.inl ?_⟩,
    ⟨hprograms, List.nodup_nil, fun c => ⟨fun hc => (hnone c hc).elim, fun hc => ?_⟩,
      List.nodup_nil, fun c => ⟨fun hc => (hnone c hc).elim, fun hc => ?_⟩, List.nodup_nil,
      fun c hc => (hnone c hc).elim, fun a t ⟨c, hc, _⟩ => (hnone c hc).elim,
      fun a t _ => rfl, fun t a => rfl, Or.inl rfl, fun hne => absurd rfl hne, fun t => rfl,
      fun t ht => (hnone t ht).elim⟩,
    fun t ht => (hnone t ht).elim, fun t ht => (hnone t ht).elim, fun t ht => (hnone t ht).elim⟩
  · show ((List.range programs.length).filter _).count t + [].count t + [].count t + [].count t +
      [].count t ≤ 1
    rw [List.count_nil]
    exact List.nodup_iff_count_le_one.mp (List.nodup_range.filter _) t
  · rw [hready]
    refine ⟨?_, ht⟩
    by_contra hge
    apply ht
    show programs.getD t [] = []
    exact List.getD_eq_default programs [] (Nat.le_of_not_lt hge)
  · cases hc
  · cases hc

/-- Where posts and starts come in order, an operation in post mode ends and goes on exactly when
it may, and each task that is blocked goes on once. -/
theorem epochs_behave {programs : List (List Action)} {ls : List Label}
    (hprograms : ∀ t, WellFormed .initial (programs.getD t []))
    (horderly : Always (fun s l => Enabled s l ∧ Orderly s l) (State.initial programs) ls) :
    Behaves (State.initial programs) ls :=
  (inv_initial hprograms).behaves horderly

theorem always_cons {P : State → Label → Prop} {l : Label} {ls : List Label} (fuel : Nat)
    (hl : P s l) (hs : step fuel s l = some s') (hls : Always P s' ls) : Always P s (l :: ls) := by
  refine ⟨hl, fun fuel' s'' hs'' => ?_⟩
  have hmore := step_mono hs (Nat.le_add_right fuel fuel')
  rw [step_mono hs'' (Nat.le_add_left fuel' fuel)] at hmore
  rw [Option.some.inj hmore]
  exact hls

instance (s : State) (t : TaskId) : Decidable (CompleteOrderly s t) :=
  inferInstanceAs (Decidable (∀ c ∈ s.startDone, c.task = t →
    ∀ d ∈ s.postDone, t ∈ d.ranks → d.task ∈ c.ranks))

def onePost : List (List Action) :=
  [[.post [1], .wait], [.start [0], .getput 0, .complete]]

/-- The start is first, and the complete comes before its transfer is over. -/
def onePostLabels : List Label :=
  [.dispatch 1, .dispatch 0, .dispatch 1, .dispatch 1, .dispatch 0, .completed 1]

theorem epochs_behave_onePost : Behaves (State.initial onePost) onePostLabels := by
  refine epochs_behave (fun t => ?_) ?_
  · rcases t with _ | _ | t
    · exact ⟨rfl, Option.some_ne_none _, trivial⟩
    · exact ⟨rfl, ⟨[0], rfl, List.mem_singleton_self 0⟩, Option.some_ne_none _, trivial⟩
    · exact trivial
  · refine always_cons 0 ⟨by decide, ?_, ?_⟩ rfl ?_
    · rintro a - ⟨c, hc, -⟩
      exact absurd hc List.not_mem_nil
    · rintro - ⟨c, hc, -⟩
      exact absurd hc List.not_mem_nil
    refine always_cons 1 ⟨by decide, ?_, ?_⟩ rfl ?_
    · rintro u - ⟨c, hc, -⟩
      exact absurd hc List.not_mem_nil
    · intro u hu ranks hstart
      have h1 : u = 1 := List.mem_singleton.mp hu
      subst h1
      obtain ⟨rest, hactions⟩ := hstart
      cases hactions
      refine ⟨fun ⟨c, hc, _⟩ => absurd hc List.not_mem_nil, fun a ha => ?_⟩
      exact Or.inr ⟨List.mem_singleton.mp ha, List.mem_singleton_self 1⟩
    refine always_cons 0 ⟨by decide, trivial⟩ rfl ?_
    refine always_cons 0 ⟨by decide, fun hout => absurd (by decide) hout⟩ rfl ?_
    refine always_cons 0 ⟨by decide, trivial⟩ rfl ?_
    refine always_cons 0 ⟨by decide, fun _ _ => ?_⟩ rfl trivial
    decide

def postsFor (program : List Action) (t : TaskId) : Nat :=
  program.countP fun
    | .post ranks => t ∈ ranks
    | _ => false

def startsFor (program : List Action) (a : TaskId) : Nat :=
  program.countP fun
    | .start ranks => a ∈ ranks
    | _ => false

/-- The groups of the posts and the starts match. -/
def Consistent (programs : List (List Action)) : Prop :=
  ∀ a t, postsFor (programs.getD a []) t = startsFor (programs.getD t []) a

def twoPosts : List (List Action) :=
  [[.post [1], .wait], [.start [0, 2], .complete], [.post [1], .wait]]

/-- The first of two posts that a start waits for never ends. -/
theorem not_epochs_behave : ¬ ∀ (programs : List (List Action)) (ls : List Label),
    (∀ t, WellFormed .initial (programs.getD t [])) → Consistent programs →
    Always Enabled (State.initial programs) ls → Behaves (State.initial programs) ls := by
  intro h
  have hprograms : ∀ t, WellFormed .initial (twoPosts.getD t []) := by
    rintro (_ | _ | _ | t)
    · exact ⟨rfl, Option.some_ne_none _, trivial⟩
    · exact ⟨rfl, Option.some_ne_none _, trivial⟩
    · exact ⟨rfl, Option.some_ne_none _, trivial⟩
    · exact trivial
  have hconsistent : Consistent twoPosts := by
    rintro (_ | _ | _ | a) (_ | _ | _ | t)
    all_goals rfl
  have henabled : Always Enabled (State.initial twoPosts) [.dispatch 1, .dispatch 0] := by
    refine always_cons 0 (by decide) rfl ?_
    exact ⟨by decide, fun _ _ _ => trivial⟩
  obtain ⟨-, fuel, s₁, hs₁, -, -, fuel', s₂, hs₂, -⟩ := h twoPosts _ hprograms hconsistent henabled
  have hblocked : step fuel (State.initial twoPosts) (.dispatch 1) = some _ := rfl
  rw [hs₁ fuel (Nat.le_refl fuel)] at hblocked
  have hnone : step fuel' s₁ (.dispatch 0) = none := by
    rw [Option.some.inj hblocked]
    exact step_of_missing rfl (Or.inr rfl) (List.mem_singleton_self 1) rfl rfl rfl fuel'
  rw [hs₂ fuel' (Nat.le_refl fuel')] at hnone
  cases hnone

end

end Dimemas.Model.Epochs
