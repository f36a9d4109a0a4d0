import Dimemas.Library.Transitions
import Dimemas.Model.CollectiveGroups
/-!
# Which collective operations are matched

The operations that belong together, the ones with the same number on the communicator,
are grouped exactly if every task is given the same index for them. A task is given
its indices in the order of its operations on all communicators, except that an operation
that is issued from within another one comes first.
-/

namespace Dimemas.Model.CollectiveMatching

open Dimemas.Library.Transitions
open Dimemas.Model.Collectives Dimemas.Model.CollectiveGroups

/-! ## The order of the indices -/

/-- The operations of a thread, as communicator and number on it, in the order in which they are
given their indices. `pending` are those whose call of `SCHEDULER_general` has not
returned, the innermost first; an operation without startup is issued from within it. -/
def handOutFrom (startup : Nat → Nat) :
    List (Nat × Nat) → (Nat → Nat) → List Action → List (Nat × Nat)
  | pending, _, [] => pending
  | pending, issued, .event :: rest => handOutFrom startup pending issued rest
  | pending, issued, .other :: rest => pending ++ handOutFrom startup [] issued rest
  | pending, issued, .globalOp commId :: rest =>
      let op := (commId, issued commId)
      let issued := Function.update issued commId (issued commId + 1)
      if startup commId = 0 then handOutFrom startup (op :: pending) issued rest
      else pending ++ handOutFrom startup [op] issued rest

def handOutOrder (P : Ptask) (t : Nat) : List (Nat × Nat) :=
  handOutFrom (P.startup t) [] (fun _ => 0) (P.actions t)

/-- The operations with the same number on a communicator are at the same place in the order of
all its tasks. -/
def SameHandOut (P : Ptask) : Prop :=
  ∀ commId, ∀ t ∈ P.communicator commId, ∀ t' ∈ P.communicator commId, ∀ nth i i' : Nat,
    (handOutOrder P t)[i]? = some (commId, nth) →
    (handOutOrder P t')[i']? = some (commId, nth) → i = i'

theorem mem_handOutFrom {startup : Nat → Nat} {pending : List (Nat × Nat)} {issued : Nat → Nat}
    {actions : List Action} {commId nth : Nat} :
    (commId, nth) ∈ handOutFrom startup pending issued actions ↔
      (commId, nth) ∈ pending ∨
        issued commId ≤ nth ∧ nth < issued commId + actions.count (.globalOp commId) := by
  induction actions generalizing pending issued with
  | nil =>
      have hnone : ¬ (issued commId ≤ nth ∧ nth < issued commId + 0) := by omega
      simp only [handOutFrom, List.count_nil, hnone, or_false]
  | cons a rest ih =>
      cases a with
      | event => simp [handOutFrom, ih]
      | other => simp [handOutFrom, ih]
      | globalOp c =>
          by_cases hc : c = commId
          · subst hc
            have hrange : (nth = issued c ∨ issued c + 1 ≤ nth ∧
                nth < issued c + 1 + rest.count (.globalOp c)) ↔
                issued c ≤ nth ∧ nth < issued c + (rest.count (.globalOp c) + 1) := by omega
            simp only [handOutFrom, List.count_cons_self, ← hrange]
            split <;> simp only [ih, List.mem_append, List.mem_cons, Prod.mk.injEq, true_and,
              Function.update_self, List.not_mem_nil, or_false]
            tauto
          · have hne : commId ≠ c := Ne.symm hc
            simp only [handOutFrom, List.count_cons]
            split <;> simp [ih, hc, hne]

theorem mem_handOutOrder {P : Ptask} {t commId nth : Nat} :
    (commId, nth) ∈ handOutOrder P t ↔ nth < (P.actions t).count (.globalOp commId) := by
  simp [handOutOrder, mem_handOutFrom]

variable {P : Ptask} {s s' : GlopState} {t commId index q : Nat} {x : CopyThread}

/-! ## The indices of a task -/

/-- The operations of a task that were given an index are the first ones of its order, those of
`later` are not. -/
structure HandedOut (P : Ptask) (s : GlopState) (t : Nat) (done later : List (Nat × Nat)) :
    Prop where
  order : handOutOrder P t = done ++ later
  length : done.length = (s.thread t).nbGlobIndexMaster
  place : ∀ x ∈ s.joined, x.1.task = t → done[x.1.nbGlobIndex]? = some (x.1.commId, x.1.nth)
  joined : ∀ (i : Nat) op, done[i]? = some op → ∃ x ∈ s.joined, x.1 = ⟨t, op.1, op.2, i⟩

def Pending (P : Ptask) (s : GlopState) (t : Nat) (later : List (Nat × Nat)) : Prop :=
  ∃ done, HandedOut P s t done later

theorem Pending.setThread {later : List (Nat × Nat)} {thread : Thread} {t' : Nat}
    (h : Pending P s t' later)
    (hmaster : thread.nbGlobIndexMaster = (s.thread t).nbGlobIndexMaster) :
    Pending P (s.setThread t thread) t' later := by
  obtain ⟨done, h⟩ := h
  refine ⟨done, h.order, ?_, h.place, h.joined⟩
  unfold GlopState.setThread
  by_cases ht : t' = t
  · subst ht
    simpa [hmaster] using h.length
  · simpa [Function.update_of_ne ht] using h.length

theorem Pending.joinedTo {later : List (Nat × Nat)}
    (h : Pending P s x.task ((x.commId, x.nth) :: later))
    (hindex : x.nbGlobIndex = (s.thread x.task).nbGlobIndexMaster)
    (hjoin : JoinedTo P s x q s') : Pending P s' x.task later := by
  obtain ⟨done, h⟩ := h
  have hlength := h.length
  rw [← hindex] at hlength
  refine ⟨done ++ [(x.commId, x.nth)], by rw [h.order, List.append_assoc]; rfl, ?_, ?_, ?_⟩
  · rw [hjoin.thread, Function.update_self, List.length_append, hlength, hindex]
    rfl
  · rw [hjoin.joined, List.forall_mem_append, List.forall_mem_singleton]
    constructor
    · intro y hy hyt
      have hplace := h.place y hy hyt
      have hlt := (List.getElem?_eq_some_iff.mp hplace).1
      rwa [List.getElem?_append_left hlt]
    · intro _
      rw [← hlength]
      exact List.getElem?_concat_length
  · intro i op hop
    rw [hjoin.joined]
    by_cases hi : i < done.length
    · rw [List.getElem?_append_left hi] at hop
      obtain ⟨y, hy, hyx⟩ := h.joined i op hop
      exact ⟨y, List.mem_append_left _ hy, hyx⟩
    · have hilt := (List.getElem?_eq_some_iff.mp hop).1
      rw [List.length_append, List.length_singleton] at hilt
      obtain rfl : i = done.length := by omega
      rw [List.getElem?_concat_length] at hop
      obtain rfl := Option.some.inj hop
      exact ⟨(x, q), by simp, by rw [hlength]⟩

theorem Pending.joinedTo_of_ne {later : List (Nat × Nat)} (hne : t ≠ x.task)
    (h : Pending P s t later) (hjoin : JoinedTo P s x q s') : Pending P s' t later := by
  obtain ⟨done, h⟩ := h
  refine ⟨done, h.order, ?_, ?_, fun i op hop => ?_⟩
  · rw [hjoin.thread, Function.update_of_ne hne]
    exact h.length
  · rw [hjoin.joined, List.forall_mem_append, List.forall_mem_singleton]
    exact ⟨h.place, fun ht => absurd ht.symm hne⟩
  · rw [hjoin.joined]
    obtain ⟨y, hy, hyx⟩ := h.joined i op hop
    exact ⟨y, List.mem_append_left _ hy, hyx⟩

/-- The actions that a thread has left are valid and hand out the rest of its order. -/
structure ThreadOk (P : Ptask) (s : GlopState) (t : Nat) (pending : List (Nat × Nat)) : Prop where
  valid : ∀ commId, .globalOp commId ∈ (s.thread t).actions → t ∈ P.communicator commId
  pending : Pending P s t (pending ++
    handOutFrom (P.startup t) [] (s.thread t).issued (s.thread t).actions)

/-- What a call of `SCHEDULER_general` for the task `t` leaves as it is. -/
structure OthersKept (P : Ptask) (t : Nat) (s s' : GlopState) : Prop where
  thread : ∀ t', t' ≠ t → s'.thread t' = s.thread t'
  pending : ∀ t', t' ≠ t → ∀ later, Pending P s t' later → Pending P s' t' later

theorem OthersKept.trans {s₁ s₂ s₃ : GlopState} (h₁ : OthersKept P t s₁ s₂)
    (h₂ : OthersKept P t s₂ s₃) : OthersKept P t s₁ s₃ :=
  ⟨fun t' ht => (h₂.thread t' ht).trans (h₁.thread t' ht),
    fun t' ht later h => h₂.pending t' ht later (h₁.pending t' ht later h)⟩

theorem othersKept_setThread {thread : Thread}
    (hmaster : thread.nbGlobIndexMaster = (s.thread t).nbGlobIndexMaster) :
    OthersKept P t s (s.setThread t thread) :=
  ⟨fun _ ht => Function.update_of_ne ht .., fun _ _ _ h => h.setThread hmaster⟩

theorem othersKept_joinedTo (hjoin : JoinedTo P s x q s') : OthersKept P x.task s s' :=
  ⟨fun t' ht => by rw [hjoin.thread, Function.update_of_ne ht],
    fun _ ht _ h => h.joinedTo_of_ne ht hjoin⟩

/-- The operation that a thread issues goes on top of the pending ones. -/
theorem handOutFrom_globalOp {startup : Nat → Nat} {pending : List (Nat × Nat)}
    {issued : Nat → Nat} {rest : List Action} (h : startup commId = 0 ∨ pending = []) :
    handOutFrom startup pending issued (.globalOp commId :: rest) =
      handOutFrom startup ((commId, issued commId) :: pending)
        (Function.update issued commId (issued commId + 1)) rest := by
  by_cases hzero : startup commId = 0
  · rw [handOutFrom, if_pos hzero]
  · rw [handOutFrom, if_neg hzero, h.resolve_left hzero]
    rfl

/-- A call of `SCHEDULER_general` gives all operations their indices that it issues, behind them
come those that were pending. -/
theorem nextOp_spec {actions : List Action} {pending : List (Nat × Nat)} (h : Grouped P s)
    (hvalid : ∀ commId, .globalOp commId ∈ actions → t ∈ P.communicator commId)
    (hdone : (s.thread t).startupDone = true → pending = [])
    (hpending : Pending P s t
      (handOutFrom (P.startup t) pending (s.thread t).issued actions)) :
    ∃ s', nextOp P t actions s = some s' ∧ Grouped P s' ∧ ThreadOk P s' t pending ∧
      OthersKept P t s s' := by
  induction actions generalizing s pending with
  | nil =>
      refine ⟨_, rfl, h.setThread rfl, ⟨?_, ?_⟩, othersKept_setThread rfl⟩
      · simp [GlopState.setThread]
      · refine Pending.setThread ?_ rfl
        simpa [GlopState.setThread, handOutFrom] using hpending
  | cons a rest ih =>
      have hvalid' : ∀ commId, .globalOp commId ∈ rest → t ∈ P.communicator commId :=
        fun commId hmem => hvalid commId (List.mem_cons_of_mem _ hmem)
      cases a with
      | event => exact ih h hvalid' hdone hpending
      | other =>
          refine ⟨_, rfl, h.setThread rfl, ⟨?_, ?_⟩, othersKept_setThread rfl⟩
          · simpa [GlopState.setThread] using hvalid'
          · refine Pending.setThread ?_ rfl
            simpa [GlopState.setThread, handOutFrom] using hpending
      | globalOp c =>
          have hmember := hvalid c List.mem_cons_self
          simp only [nextOp, hmember, not_true_eq_false, if_false]
          split
          · next hstartup =>
              refine ⟨_, rfl, h.setThread rfl, ⟨?_, ?_⟩, othersKept_setThread rfl⟩
              · simpa [GlopState.setThread] using hvalid
              · refine Pending.setThread ?_ rfl
                simpa [GlopState.setThread, handOutFrom, hstartup.2] using hpending
          · next hstartup =>
              have hzero : P.startup t c = 0 ∨ pending = [] := by
                by_cases hz : P.startup t c = 0
                · exact .inl hz
                · exact .inr (hdone (by simpa [hz] using hstartup))
              rw [handOutFrom_globalOp hzero] at hpending
              -- the actions behind the operation come first
              obtain ⟨s₁, hnext, hgrouped, hthread, hothers⟩ := ih (s := s.setThread t
                { s.thread t with
                  startupDone := false
                  issued := Function.update (s.thread t).issued c ((s.thread t).issued c + 1) })
                (h.setThread rfl) hvalid' (by simp [GlopState.setThread])
                (Pending.setThread (by simpa [GlopState.setThread] using hpending) rfl)
              obtain ⟨q, s', hstep, hgrouped', hjoin⟩ :=
                hgrouped.handOutIndex hmember ((s.thread t).issued c)
              refine ⟨s', by rw [hnext]; exact hstep, hgrouped', ⟨?_, ?_⟩, ?_⟩
              · rw [hjoin.thread, Function.update_self]
                exact hthread.valid
              · rw [hjoin.thread, Function.update_self]
                exact hthread.pending.joinedTo rfl hjoin
              · refine OthersKept.trans ?_ (hothers.trans (othersKept_joinedTo hjoin))
                exact othersKept_setThread rfl

/-! ## Runs -/

structure GlopInv (P : Ptask) (s : GlopState) : Prop where
  grouped : Grouped P s
  threads : ∀ t, ThreadOk P s t []

theorem glopInv_init (P : Ptask) : GlopInv P (.init P) where
  grouped := grouped_init P
  threads t := by
    refine ⟨P.valid t, [], rfl, rfl, ?_, ?_⟩
    · simp [GlopState.init]
    · simp

theorem schTimerOut_spec (h : GlopInv P s) (t : Nat) :
    ∃ s', schTimerOut P s t = some s' ∧ GlopInv P s' ∧ OthersKept P t s s' := by
  have hthread := h.threads t
  have hcall : ∃ s', schTimerOut P s t = some s' ∧ Grouped P s' ∧ ThreadOk P s' t [] ∧
      OthersKept P t s s' := by
    simp only [schTimerOut]
    split
    · obtain ⟨s', hnext, hgrouped, hok, hothers⟩ := nextOp_spec (s := s.setThread t
        { s.thread t with startupDone := true, doingStartup := false })
        (h.grouped.setThread rfl) hthread.valid (fun _ => rfl)
        (Pending.setThread (by simpa [GlopState.setThread] using hthread.pending) rfl)
      refine ⟨s', hnext, hgrouped, hok, OthersKept.trans ?_ hothers⟩
      exact othersKept_setThread rfl
    · exact nextOp_spec h.grouped hthread.valid (fun _ => rfl) hthread.pending
  obtain ⟨s', hnext, hgrouped, hok, hothers⟩ := hcall
  refine ⟨s', hnext, ⟨hgrouped, fun t' => ?_⟩, hothers⟩
  by_cases ht : t' = t
  · rwa [ht]
  · have hok' := h.threads t'
    constructor <;> rw [hothers.thread t' ht]
    · exact hok'.valid
    · exact hothers.pending t' ht _ hok'.pending

theorem glopInv_step {l : GlopLabel} (h : GlopInv P s) (hstep : glopNext P s l = some s') :
    GlopInv P s' := by
  cases l with
  | timerOut t =>
      obtain ⟨s₁, hs₁, hinv, -⟩ := schTimerOut_spec h t
      rwa [← Option.some.inj (hs₁.symm.trans hstep)]
  | close commId index =>
      simp only [glopNext] at hstep
      split at hstep
      · next hflight =>
          refine ⟨h.grouped.close hflight hstep, fun t => ?_⟩
          obtain ⟨q, -, hrest⟩ := Option.bind_eq_some_iff.mp hstep
          split at hrest
          · obtain rfl := Option.some.inj hrest
            obtain ⟨hvalid, done, hdone⟩ := h.threads t
            exact ⟨hvalid, done, hdone.order, hdone.length, hdone.place, hdone.joined⟩
          · cases hrest
      · cases hstep

/-- Bounds the timer events that a thread still needs. -/
def weight (thread : Thread) : Nat :=
  2 * thread.actions.length + if thread.doingStartup then 0 else 1

theorem handOutIndex_thread {nth : Nat} (hstep : handOutIndex P s t commId nth = some s') :
    s'.thread t = { s.thread t with
      nbGlobIndexMaster := (s.thread t).nbGlobIndexMaster + 1 } := by
  obtain ⟨q, -, hrest⟩ := Option.bind_eq_some_iff.mp hstep
  simp only at hrest
  split at hrest <;> obtain rfl := Option.some.inj hrest <;>
    simp [GlopState.insertNewQueue, GlopState.setThread]

theorem nextOp_weight {actions : List Action} (hdoing : (s.thread t).doingStartup = false)
    (hnext : nextOp P t actions s = some s') :
    weight (s'.thread t) ≤ 2 * actions.length + 1 ∧
    (actions ≠ [] → weight (s'.thread t) ≤ 2 * actions.length) ∧
    (actions ≠ [] → (s.thread t).startupDone = true →
      weight (s'.thread t) < 2 * actions.length) := by
  induction actions generalizing s s' with
  | nil =>
      obtain rfl := Option.some.inj hnext
      simp [weight, GlopState.setThread, hdoing]
  | cons a rest ih =>
      -- all cases but the startup leave at most the rest of the actions
      suffices h : weight (s'.thread t) ≤ 2 * rest.length + 1 ∨
          (s.thread t).startupDone = false ∧ weight (s'.thread t) ≤ 2 * (rest.length + 1) by
        rw [List.length_cons]
        rcases h with h | ⟨hdone, h⟩
        · omega
        · refine ⟨by omega, fun _ => h, fun _ hdone' => ?_⟩
          rw [hdone] at hdone'
          cases hdone'
      cases a with
      | event => exact .inl (ih hdoing hnext).1
      | other =>
          obtain rfl := Option.some.inj hnext
          left
          simp [weight, GlopState.setThread, hdoing]
      | globalOp c =>
          simp only [nextOp] at hnext
          split at hnext
          · cases hnext
          split at hnext
          · next hstartup =>
              obtain rfl := Option.some.inj hnext
              right
              exact ⟨hstartup.1, by simp [weight, GlopState.setThread]⟩
          · obtain ⟨s₁, hinner, hlast⟩ := Option.bind_eq_some_iff.mp hnext
            have hle := (ih (by simpa [GlopState.setThread] using hdoing) hinner).1
            left
            rw [handOutIndex_thread hlast]
            exact hle

theorem schTimerOut_weight (hne : (s.thread t).actions ≠ [])
    (hstep : schTimerOut P s t = some s') : weight (s'.thread t) < weight (s.thread t) := by
  simp only [schTimerOut] at hstep
  split at hstep
  · next hdoing =>
      have hlt := (nextOp_weight (by simp [GlopState.setThread]) hstep).2.2 hne
        (by simp [GlopState.setThread])
      simpa [weight, hdoing] using hlt
  · next hdoing =>
      have hle := (nextOp_weight (by simpa using hdoing) hstep).2.1 hne
      calc
        _ ≤ 2 * (s.thread t).actions.length := hle
        _ < weight (s.thread t) := by simp [weight, hdoing]

/-- From every state the timers of a thread bring it to the end of its actions. -/
theorem exists_run_to_end (h : GlopInv P s) (t : Nat) :
    ∃ tr s', Run (ofPartial (glopNext P)) s tr s' ∧ GlopInv P s' ∧
      (s'.thread t).actions = [] ∧ ∀ t', t' ≠ t → s'.thread t' = s.thread t' := by
  induction hw : weight (s.thread t) using Nat.strong_induction_on generalizing s with
  | _ w ih =>
      by_cases hempty : (s.thread t).actions = []
      · exact ⟨[], s, .nil, h, hempty, fun _ _ => rfl⟩
      · obtain ⟨s₁, hstep, hinv, hothers⟩ := schTimerOut_spec h t
        have hlt := schTimerOut_weight hempty hstep
        obtain ⟨tr, s', hrun, hinv', hend, hkept⟩ := ih _ (hw ▸ hlt) hinv rfl
        have hfirst : Run (ofPartial (glopNext P)) s [⟨s, .timerOut t, s₁⟩] s₁ :=
          .snoc .nil hstep
        refine ⟨_, s', hfirst.append hrun, hinv', hend, fun t' ht => ?_⟩
        rw [hkept t' ht, hothers.thread t' ht]

/-! ## The operations that belong together -/

/-- Two copies are in the same queue exactly if they are operations with the same number on the
same communicator, and an operation is initiated exactly if all tasks have issued it, with
their copies. -/
def Matched (P : Ptask) (s : GlopState) : Prop :=
  (∀ x ∈ s.joined, ∀ y ∈ s.joined,
    x.2 = y.2 ↔ x.1.commId = y.1.commId ∧ x.1.nth = y.1.nth) ∧
  ∀ commId, P.communicator commId ≠ [] → ∀ nth,
    (∀ t ∈ P.communicator commId,
      ∃ x ∈ s.joined, x.1.task = t ∧ x.1.commId = commId ∧ x.1.nth = nth) ↔
    ∃ copies, (commId, copies) ∈ s.initiated ∧
      (copies.map fun x => (x.task, x.nth)).Perm
        ((P.communicator commId).map fun t => (t, nth))

theorem GlopInv.place (h : GlopInv P s) {x : CopyThread × Nat} (hx : x ∈ s.joined) :
    (handOutOrder P x.1.task)[x.1.nbGlobIndex]? = some (x.1.commId, x.1.nth) := by
  obtain ⟨done, hdone⟩ := (h.threads x.1.task).pending
  have hplace := hdone.place x hx rfl
  have hlt := (List.getElem?_eq_some_iff.mp hplace).1
  rwa [hdone.order, List.getElem?_append_left hlt]

/-- The places of two tasks agree on the numbers as well. -/
theorem SameHandOut.nth_le (hsame : SameHandOut P) {t t' nth nth' i : Nat}
    (ht : t ∈ P.communicator commId) (ht' : t' ∈ P.communicator commId)
    (hi : (handOutOrder P t)[i]? = some (commId, nth))
    (hi' : (handOutOrder P t')[i]? = some (commId, nth')) : nth' ≤ nth := by
  by_contra hlt
  have hmem' := mem_handOutOrder.mp (List.mem_of_getElem? hi')
  have hmem : (commId, nth) ∈ handOutOrder P t' := mem_handOutOrder.mpr (by omega)
  obtain ⟨j, hj⟩ := List.mem_iff_getElem?.mp hmem
  obtain rfl := hsame commId t ht t' ht' nth i j hi hj
  rw [hi'] at hj
  have hnth : nth' = nth := congrArg Prod.snd (Option.some.inj hj)
  omega

theorem GlopInv.sameQueue_iff (h : GlopInv P s) (hsame : SameHandOut P) :
    ∀ x ∈ s.joined, ∀ y ∈ s.joined,
      x.2 = y.2 ↔ x.1.commId = y.1.commId ∧ x.1.nth = y.1.nth := by
  intro x hx y hy
  have hxplace := h.place hx
  have hyplace := h.place hy
  have hxmem := h.grouped.member x hx
  have hymem := h.grouped.member y hy
  rw [h.grouped.sameQueue x hx y hy]
  apply and_congr_right
  intro hcomm
  rw [← hcomm] at hyplace hymem
  constructor
  · intro hindex
    rw [← hindex] at hyplace
    exact le_antisymm (hsame.nth_le hymem hxmem hyplace hxplace)
      (hsame.nth_le hxmem hymem hxplace hyplace)
  · intro hnth
    rw [← hnth] at hyplace
    exact hsame _ _ hxmem _ hymem _ _ _ hxplace hyplace

theorem matched_of_sameHandOut (h : GlopInv P s) (hsame : SameHandOut P) : Matched P s := by
  have hqueue := h.sameQueue_iff hsame
  refine ⟨hqueue, fun commId hne nth => ?_⟩
  -- the copies of a group have the number of any of them
  have hperm : ∀ index, (group s commId index).length = (P.communicator commId).length →
      ∀ x ∈ group s commId index, (((group s commId index).map Prod.fst).map
        fun x => (x.task, x.nth)).Perm ((P.communicator commId).map fun t => (t, x.1.nth)) := by
    intro index hfull x hx
    have hxgroup := mem_group.mp hx
    have heq : ((group s commId index).map Prod.fst).map (fun y => (y.task, y.nth)) =
        ((group s commId index).map fun y => y.1.task).map fun t => (t, x.1.nth) := by
      rw [List.map_map, List.map_map]
      apply List.map_congr_left
      intro y hy
      have hygroup := mem_group.mp hy
      have hnth := ((hqueue y hygroup.1 x hxgroup.1).mp
        ((h.grouped.sameQueue y hygroup.1 x hxgroup.1).mpr
          ⟨hygroup.2.1.trans hxgroup.2.1.symm, hygroup.2.2.trans hxgroup.2.2.symm⟩)).2
      simp [hnth]
    rw [heq]
    exact (h.grouped.perm_communicator hfull).map _
  constructor
  · intro hall
    obtain ⟨t, ht⟩ := List.exists_mem_of_ne_nil _ hne
    obtain ⟨x, hx, -, hxcomm, hxnth⟩ := hall t ht
    have hxgroup : x ∈ group s commId x.1.nbGlobIndex := mem_group.mpr ⟨hx, hxcomm, rfl⟩
    -- every task is in the group of x
    have hsub : P.communicator commId ⊆
        (group s commId x.1.nbGlobIndex).map fun y => y.1.task := by
      intro t' ht'
      obtain ⟨y, hy, hytask, hycomm, hynth⟩ := hall t' ht'
      have hindex := ((h.grouped.sameQueue y hy x hx).mp ((hqueue y hy x hx).mpr
        ⟨hycomm.trans hxcomm.symm, hynth.trans hxnth.symm⟩)).2
      exact List.mem_map.mpr ⟨y, mem_group.mpr ⟨hy, hycomm, hindex⟩, hytask⟩
    have hle := (List.subperm_of_subset (P.nodup commId) hsub).length_le
    rw [List.length_map] at hle
    have hge := (List.subperm_of_subset (h.grouped.nodup commId x.1.nbGlobIndex)
      (h.grouped.tasks_subset commId x.1.nbGlobIndex)).length_le
    rw [List.length_map] at hge
    have hfull := le_antisymm hge hle
    refine ⟨_, (h.grouped.initiated commId _).mpr
      ⟨x.1.nbGlobIndex, List.ne_nil_of_mem hxgroup, hfull, rfl⟩, ?_⟩
    rw [← hxnth]
    exact hperm _ hfull x hxgroup
  · rintro ⟨copies, hinit, hcopies⟩ t ht
    obtain ⟨index, -, -, rfl⟩ := (h.grouped.initiated commId copies).mp hinit
    have hmem := hcopies.mem_iff.mpr (List.mem_map.mpr ⟨t, ht, rfl⟩)
    obtain ⟨copy, hcopy, heq⟩ := List.mem_map.mp hmem
    obtain ⟨x, hx, rfl⟩ := List.mem_map.mp hcopy
    obtain ⟨hjoined, hcomm, -⟩ := mem_group.mp hx
    exact ⟨x, hjoined, congrArg Prod.fst heq, hcomm, congrArg Prod.snd heq⟩

/-- The order of a thread that has no actions left was handed out. -/
theorem GlopInv.exists_joined (h : GlopInv P s) (hend : (s.thread t).actions = []) {i nth : Nat}
    (hi : (handOutOrder P t)[i]? = some (commId, nth)) :
    ∃ x ∈ s.joined, x.1 = ⟨t, commId, nth, i⟩ := by
  obtain ⟨done, hdone⟩ := (h.threads t).pending
  rw [hend] at hdone
  rw [hdone.order, handOutFrom, List.append_nil, List.append_nil] at hi
  exact hdone.joined i _ hi

/-- The operations are matched in all runs exactly if all tasks of a communicator hand out the
same indices to its operations. -/
theorem nonblock_collectives_matched (P : Ptask) :
    (∀ tr s, Run (ofPartial (glopNext P)) (.init P) tr s → Matched P s) ↔ SameHandOut P := by
  constructor
  · intro hall commId t ht t' ht' nth i i' hi hi'
    obtain ⟨tr₁, s₁, hrun₁, hinv₁, hend₁, -⟩ := exists_run_to_end (glopInv_init P) t
    obtain ⟨tr₂, s₂, hrun₂, hinv₂, hend₂, hkept⟩ := exists_run_to_end hinv₁ t'
    have hend : (s₂.thread t).actions = [] := by
      by_cases htt : t = t'
      · rwa [htt]
      · rw [hkept t htt, hend₁]
    obtain ⟨x, hx, hxeq⟩ := hinv₂.exists_joined hend hi
    obtain ⟨y, hy, hyeq⟩ := hinv₂.exists_joined hend₂ hi'
    have hmatched := (hall _ s₂ (hrun₁.append hrun₂)).1 x hx y hy
    rw [hinv₂.grouped.sameQueue x hx y hy, hxeq, hyeq] at hmatched
    exact (hmatched.mpr ⟨rfl, rfl⟩).2
  · intro hsame tr s hrun
    exact matched_of_sameHandOut
      (hrun.invariant (glopInv_init P) fun _ _ _ h hstep => glopInv_step h hstep) hsame

def ownOperation : Ptask where
  communicator
    | 0 => [0, 1]
    | 1 => [0]
    | _ => []
  startup _ _ := 1
  actions
    | 0 => [.globalOp 1, .globalOp 0, .globalOp 0]
    | 1 => [.globalOp 0, .globalOp 0]
    | _ => []
  nodup
    | 0 => by decide
    | 1 => by decide
    | _ + 2 => .nil
  valid
    | 0, c, h => by
        simp only [List.mem_cons, Action.globalOp.injEq, List.not_mem_nil, or_false] at h
        rcases h with rfl | rfl | rfl <;> simp
    | 1, c, h => by
        simp only [List.mem_cons, Action.globalOp.injEq, List.not_mem_nil, or_false] at h
        rcases h with rfl | rfl <;> simp
    | _ + 2, _, h => by cases h

/-- The first operation of task 0 is initiated with the second one of task 1. -/
theorem not_matched_ownOperation :
    let s := ((exec (glopNext ownOperation) (.init ownOperation)
      [.timerOut 0, .timerOut 0, .timerOut 0, .timerOut 1, .timerOut 1, .timerOut 1]).get
        (by rfl)).2
    ¬ Matched ownOperation s ∧
      (0, [⟨0, 0, 0, 1⟩, ⟨1, 0, 1, 1⟩]) ∈ s.initiated := by
  constructor
  · intro h
    have hiff := h.1 (⟨0, 0, 0, 1⟩, 1) (by decide) (⟨1, 0, 1, 1⟩, 1) (by decide)
    exact absurd (hiff.mp rfl).2 (by decide)
  · decide

end Dimemas.Model.CollectiveMatching
