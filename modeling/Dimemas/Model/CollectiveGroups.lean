import Mathlib.Data.List.Nodup
import Mathlib.Data.List.Perm.Subperm
import Dimemas.Model.Collectives
/-!
# The groups of collective operations

The copies that were given one index on one communicator are a group. The first queue of
the communicator with that index holds the group until it is complete, so the queues
group the operations by their indices, whatever these are.
-/

namespace Dimemas.Model.CollectiveGroups

open Dimemas.Library.StableQueue
open Dimemas.Model.Collectives

variable {P : Ptask} {s s' : GlopState} {t commId index : Nat}

/-- The copies that were given an index on a communicator, with their queues. -/
def group (s : GlopState) (commId index : Nat) : List (CopyThread × Nat) :=
  s.joined.filter fun x => x.1.commId = commId ∧ x.1.nbGlobIndex = index

structure QueuesOk (s : GlopState) : Prop where
  sorted : ∀ commId, (s.nonblockGlobalOpThreads commId).Pairwise fun x y => x.1 ≤ y.1
  allocated : ∀ commId, ∀ x ∈ s.nonblockGlobalOpThreads commId, x.2 < s.malloc
  distinct : ∀ commId commId', ∀ x ∈ s.nonblockGlobalOpThreads commId,
    ∀ y ∈ s.nonblockGlobalOpThreads commId', x.2 = y.2 → commId = commId' ∧ x = y

/-- What the queues of a communicator hold. The first queue of an index holds the copies of its
group until the last task joins it. -/
structure Grouped (P : Ptask) (s : GlopState) : Prop where
  queues : QueuesOk s
  member : ∀ x ∈ s.joined, x.1.task ∈ P.communicator x.1.commId
  lt : ∀ x ∈ s.joined, x.1.nbGlobIndex < (s.thread x.1.task).nbGlobIndexMaster
  nodup : ∀ commId index, ((group s commId index).map fun x => x.1.task).Nodup
  joinedAllocated : ∀ x ∈ s.joined, x.2 < s.malloc
  sameQueue : ∀ x ∈ s.joined, ∀ y ∈ s.joined, x.2 = y.2 ↔
    x.1.commId = y.1.commId ∧ x.1.nbGlobIndex = y.1.nbGlobIndex
  used : ∀ commId, ∀ x ∈ s.nonblockGlobalOpThreads commId, group s commId x.1 ≠ []
  waiting : ∀ commId index, group s commId index ≠ [] →
    (group s commId index).length < (P.communicator commId).length →
    ∃ q, s.queryPrioQueue commId index = some q ∧
      s.threadsQueue q = (group s commId index).map Prod.fst ∧
      ∀ x ∈ group s commId index, x.2 = q
  initiated : ∀ commId copies, (commId, copies) ∈ s.initiated ↔ ∃ index,
    group s commId index ≠ [] ∧
    (group s commId index).length = (P.communicator commId).length ∧
    copies = (group s commId index).map Prod.fst
  inFlight : ∀ commId index, (commId, index) ∈ s.inFlight →
    (group s commId index).length = (P.communicator commId).length

theorem mem_group {x : CopyThread × Nat} : x ∈ group s commId index ↔
    x ∈ s.joined ∧ x.1.commId = commId ∧ x.1.nbGlobIndex = index := by
  simp [group]

theorem grouped_init (P : Ptask) : Grouped P (.init P) where
  queues := ⟨fun _ => .nil, by simp [GlopState.init], by simp [GlopState.init]⟩
  member := by simp [GlopState.init]
  lt := by simp [GlopState.init]
  nodup := by simp [GlopState.init, group]
  joinedAllocated := by simp [GlopState.init]
  sameQueue := by simp [GlopState.init]
  used := by simp [GlopState.init]
  waiting := by simp [GlopState.init, group]
  initiated := by simp [GlopState.init, group]
  inFlight := by simp [GlopState.init]

theorem Grouped.tasks_subset (h : Grouped P s) (commId index : Nat) :
    ((group s commId index).map fun x => x.1.task) ⊆ P.communicator commId := by
  intro t ht
  obtain ⟨x, hx, rfl⟩ := List.mem_map.mp ht
  obtain ⟨hjoined, rfl, -⟩ := mem_group.mp hx
  exact h.member x hjoined

theorem Grouped.not_mem_next (h : Grouped P s) (t commId : Nat) :
    t ∉ (group s commId (s.thread t).nbGlobIndexMaster).map fun x => x.1.task := by
  intro hmem
  obtain ⟨x, hx, rfl⟩ := List.mem_map.mp hmem
  obtain ⟨hjoined, -, hindex⟩ := mem_group.mp hx
  have hlt := h.lt x hjoined
  omega

theorem Grouped.length_lt (h : Grouped P s) (ht : t ∈ P.communicator commId) :
    (group s commId (s.thread t).nbGlobIndexMaster).length <
      (P.communicator commId).length := by
  have hnodup := List.nodup_cons.mpr
    ⟨h.not_mem_next t commId, h.nodup commId (s.thread t).nbGlobIndexMaster⟩
  have hsubset := List.cons_subset.mpr
    ⟨ht, h.tasks_subset commId (s.thread t).nbGlobIndexMaster⟩
  have hle := (List.subperm_of_subset hnodup hsubset).length_le
  rwa [List.length_cons, List.length_map] at hle

theorem queryPrioQueue_insertNewQueue (h : QueuesOk s) (commId' index' : Nat) :
    (s.insertNewQueue commId index).queryPrioQueue commId' index' =
      (s.queryPrioQueue commId' index').or
        (if commId = commId' ∧ index = index' then some s.malloc else none) := by
  unfold GlopState.queryPrioQueue GlopState.insertNewQueue
  by_cases hcomm : commId = commId'
  · subst hcomm
    simp only [Function.update_self, true_and]
    rw [find?_insertAfter (h.sorted commId) (index, s.malloc) index']
    rw [Option.map_or]
    split <;> rfl
  · simp [Function.update_of_ne (Ne.symm hcomm), hcomm]

theorem mem_of_query (hquery : s.queryPrioQueue commId index = some t) :
    (index, t) ∈ s.nonblockGlobalOpThreads commId := by
  obtain ⟨x, hx, rfl⟩ := Option.map_eq_some_iff.mp hquery
  have hindex := List.find?_some hx
  simp only [decide_eq_true_eq] at hindex
  rw [← hindex]
  exact List.mem_of_find?_eq_some hx

theorem mem_insertNewQueue {commId' : Nat} {x : Nat × Nat} :
    x ∈ (s.insertNewQueue commId index).nonblockGlobalOpThreads commId' ↔
      commId' = commId ∧ x = (index, s.malloc) ∨ x ∈ s.nonblockGlobalOpThreads commId' := by
  unfold GlopState.insertNewQueue
  by_cases hcomm : commId' = commId
  · subst hcomm
    simp [mem_insertAfter]
  · simp [hcomm]

theorem QueuesOk.insertNewQueue (h : QueuesOk s) (commId index : Nat) :
    QueuesOk (s.insertNewQueue commId index) where
  sorted commId' := by
    by_cases hcomm : commId' = commId
    · subst hcomm
      simpa only [GlopState.insertNewQueue, Function.update_self] using
        sorted_insertAfter (h.sorted commId') (index, s.malloc)
    · simpa only [GlopState.insertNewQueue, Function.update_of_ne hcomm] using h.sorted commId'
  allocated commId' x hx := by
    rcases mem_insertNewQueue.mp hx with ⟨-, rfl⟩ | hold
    · exact Nat.lt_succ_self _
    · exact Nat.lt_succ_of_lt (h.allocated commId' x hold)
  distinct c c' x hx y hy hxy := by
    rcases mem_insertNewQueue.mp hx with ⟨rfl, rfl⟩ | hxold <;>
      rcases mem_insertNewQueue.mp hy with ⟨rfl, rfl⟩ | hyold
    · exact ⟨rfl, rfl⟩
    · exact absurd hxy (h.allocated c' y hyold).ne'
    · exact absurd hxy (h.allocated c x hxold).ne
    · exact h.distinct c c' x hxold y hyold hxy

/-- The queue that a copy of the task finds for its index holds the others of its group. -/
theorem Grouped.query (h : Grouped P s) (ht : t ∈ P.communicator commId) (hindex :
    (s.thread t).nbGlobIndexMaster = index) :
    ∃ q, (s.insertNewQueue commId index).queryPrioQueue commId index = some q ∧
      (s.insertNewQueue commId index).threadsQueue q = (group s commId index).map Prod.fst ∧
      q < s.malloc + 1 ∧
      (∀ x ∈ s.joined, x.2 = q ↔ x.1.commId = commId ∧ x.1.nbGlobIndex = index) ∧
      ∀ c i x, (i, x) ∈ s.nonblockGlobalOpThreads c → x = q → c = commId ∧ i = index := by
  subst hindex
  by_cases hempty : group s commId (s.thread t).nbGlobIndexMaster = []
  · -- the first task of the group finds its own queue
    have hnone : s.queryPrioQueue commId (s.thread t).nbGlobIndexMaster = none := by
      by_contra hsome
      obtain ⟨q, hq⟩ := Option.ne_none_iff_exists'.mp hsome
      exact h.used commId _ (mem_of_query hq) hempty
    refine ⟨s.malloc, ?_, ?_, by omega, fun x hx => ?_, fun c i x hx hq => ?_⟩
    · simp [queryPrioQueue_insertNewQueue h.queues, hnone]
    · simp [GlopState.insertNewQueue, hempty]
    · refine iff_of_false (h.joinedAllocated x hx).ne fun hgroup => ?_
      have hmem := mem_group.mpr ⟨hx, hgroup⟩
      rw [hempty] at hmem
      cases hmem
    · exact absurd hq (h.queues.allocated c _ hx).ne
  · obtain ⟨q, hquery, hthreads, hall⟩ := h.waiting commId _ hempty (h.length_lt ht)
    have hmem := mem_of_query hquery
    have hq := h.queues.allocated commId _ hmem
    refine ⟨q, ?_, ?_, by omega, fun x hx => ?_, fun c i x hx hxq => ?_⟩
    · simp [queryPrioQueue_insertNewQueue h.queues, hquery]
    · rw [← hthreads]
      exact Function.update_of_ne hq.ne ..
    · obtain ⟨y, hy⟩ := List.exists_mem_of_ne_nil _ hempty
      obtain ⟨hyjoined, hycomm, hyindex⟩ := mem_group.mp hy
      rw [← hall y hy, h.sameQueue x hx y hyjoined, hycomm, hyindex]
    · obtain ⟨hc, heq⟩ := h.queues.distinct c commId _ hx _ hmem hxq
      exact ⟨hc, congrArg Prod.fst heq⟩

/-- The state after the copy `x` was put into the queue `q`. -/
structure JoinedTo (P : Ptask) (s : GlopState) (x : CopyThread) (q : Nat) (s' : GlopState) :
    Prop where
  thread : s'.thread = Function.update s.thread x.task
    { s.thread x.task with nbGlobIndexMaster := (s.thread x.task).nbGlobIndexMaster + 1 }
  queues : s'.nonblockGlobalOpThreads =
    (s.insertNewQueue x.commId x.nbGlobIndex).nonblockGlobalOpThreads
  threadsQueue : s'.threadsQueue =
    Function.update (s.insertNewQueue x.commId x.nbGlobIndex).threadsQueue q
      ((group s x.commId x.nbGlobIndex).map Prod.fst ++ [x])
  malloc : s'.malloc = s.malloc + 1
  joined : s'.joined = s.joined ++ [(x, q)]
  initiated : s'.initiated = s.initiated ++
    if (P.communicator x.commId).length = (group s x.commId x.nbGlobIndex).length + 1 then
      [(x.commId, (group s x.commId x.nbGlobIndex).map Prod.fst ++ [x])] else []
  inFlight : s'.inFlight = s.inFlight ++
    if (P.communicator x.commId).length = (group s x.commId x.nbGlobIndex).length + 1 then
      [(x.commId, x.nbGlobIndex)] else []

variable {x : CopyThread} {q : Nat}

theorem JoinedTo.group_self (h : JoinedTo P s x q s') :
    group s' x.commId x.nbGlobIndex = group s x.commId x.nbGlobIndex ++ [(x, q)] := by
  simp [group, h.joined]

theorem JoinedTo.group_of_ne (h : JoinedTo P s x q s')
    (hne : ¬ (x.commId = commId ∧ x.nbGlobIndex = index)) :
    group s' commId index = group s commId index := by
  simp [group, h.joined, hne]

theorem JoinedTo.query (h : JoinedTo P s x q s') (commId index : Nat) :
    s'.queryPrioQueue commId index =
      (s.insertNewQueue x.commId x.nbGlobIndex).queryPrioQueue commId index := by
  unfold GlopState.queryPrioQueue
  rw [h.queues]

theorem handOutIndex_joinedTo {nth : Nat}
    (hquery : (s.insertNewQueue commId (s.thread t).nbGlobIndexMaster).queryPrioQueue commId
      (s.thread t).nbGlobIndexMaster = some q)
    (hthreads : (s.insertNewQueue commId (s.thread t).nbGlobIndexMaster).threadsQueue q =
      (group s commId (s.thread t).nbGlobIndexMaster).map Prod.fst) :
    ∃ s', handOutIndex P s t commId nth = some s' ∧
      JoinedTo P s ⟨t, commId, nth, (s.thread t).nbGlobIndexMaster⟩ q s' := by
  have hlength : ((group s commId (s.thread t).nbGlobIndexMaster).map Prod.fst ++
      [(⟨t, commId, nth, (s.thread t).nbGlobIndexMaster⟩ : CopyThread)]).length =
      (group s commId (s.thread t).nbGlobIndexMaster).length + 1 := by simp
  -- the queues do not depend on the threads
  have hquery' : ∀ thread, ((s.setThread t thread).insertNewQueue commId
      (s.thread t).nbGlobIndexMaster).queryPrioQueue commId (s.thread t).nbGlobIndexMaster =
      some q := fun _ => hquery
  have hthreads' : ∀ thread, ((s.setThread t thread).insertNewQueue commId
      (s.thread t).nbGlobIndexMaster).threadsQueue q =
      (group s commId (s.thread t).nbGlobIndexMaster).map Prod.fst := fun _ => hthreads
  unfold handOutIndex blockOrInitiate
  simp only [hquery', hthreads', Option.bind_eq_bind, Option.bind_some, hlength]
  by_cases hfull : (P.communicator commId).length =
      (group s commId (s.thread t).nbGlobIndexMaster).length + 1
  · rw [if_neg (not_not.mpr hfull)]
    exact ⟨_, rfl, rfl, rfl, rfl, rfl, rfl, by rw [if_pos hfull]; rfl, by rw [if_pos hfull]; rfl⟩
  · rw [if_pos hfull]
    exact ⟨_, rfl, rfl, rfl, rfl, rfl, rfl, by simp [if_neg hfull]; rfl,
      by simp [if_neg hfull]; rfl⟩

theorem Grouped.joinedTo (h : Grouped P s) (hx : x.task ∈ P.communicator x.commId)
    (hindex : x.nbGlobIndex = (s.thread x.task).nbGlobIndexMaster)
    (hquery : (s.insertNewQueue x.commId x.nbGlobIndex).queryPrioQueue x.commId x.nbGlobIndex =
      some q) (hq : q < s.malloc + 1)
    (hmine : ∀ y ∈ s.joined, y.2 = q ↔ y.1.commId = x.commId ∧ y.1.nbGlobIndex = x.nbGlobIndex)
    (hothers : ∀ c i y, (i, y) ∈ s.nonblockGlobalOpThreads c → y = q →
      c = x.commId ∧ i = x.nbGlobIndex)
    (hjoin : JoinedTo P s x q s') : Grouped P s' where
  queues := by
    have hqueues := h.queues.insertNewQueue x.commId x.nbGlobIndex
    exact ⟨by rw [hjoin.queues]; exact hqueues.sorted,
      by rw [hjoin.queues, hjoin.malloc]; exact hqueues.allocated,
      by rw [hjoin.queues]; exact hqueues.distinct⟩
  member := by
    rw [hjoin.joined, List.forall_mem_append, List.forall_mem_singleton]
    exact ⟨h.member, hx⟩
  lt := by
    rw [hjoin.joined, hjoin.thread, List.forall_mem_append, List.forall_mem_singleton]
    refine ⟨fun y hy => ?_, by rw [Function.update_self, hindex]; exact Nat.lt_succ_self _⟩
    have hlt := h.lt y hy
    by_cases hyx : y.1.task = x.task
    · rw [hyx, Function.update_self]
      rw [hyx] at hlt
      exact Nat.lt_succ_of_lt hlt
    · rwa [Function.update_of_ne hyx]
  nodup c i := by
    by_cases hci : x.commId = c ∧ x.nbGlobIndex = i
    · obtain ⟨rfl, rfl⟩ := hci
      rw [hjoin.group_self, List.map_append, List.map_singleton, ← List.concat_eq_append,
        List.nodup_concat]
      refine ⟨?_, h.nodup _ _⟩
      rw [hindex]
      exact h.not_mem_next _ _
    · rw [hjoin.group_of_ne hci]
      exact h.nodup c i
  joinedAllocated := by
    rw [hjoin.joined, hjoin.malloc, List.forall_mem_append, List.forall_mem_singleton]
    exact ⟨fun y hy => Nat.lt_succ_of_lt (h.joinedAllocated y hy), hq⟩
  sameQueue := by
    rw [hjoin.joined]
    intro y hy z hz
    rw [List.mem_append, List.mem_singleton] at hy hz
    rcases hy with hy | rfl <;> rcases hz with hz | rfl
    · exact h.sameQueue y hy z hz
    · exact hmine y hy
    · rw [eq_comm, hmine z hz]
      exact and_congr eq_comm eq_comm
    · simp
  used c y hy := by
    rw [hjoin.queues] at hy
    by_cases hci : x.commId = c ∧ x.nbGlobIndex = y.1
    · obtain ⟨rfl, hy1⟩ := hci
      rw [← hy1, hjoin.group_self]
      simp
    · rw [hjoin.group_of_ne hci]
      rcases mem_insertNewQueue.mp hy with ⟨rfl, rfl⟩ | hold
      · exact absurd ⟨rfl, rfl⟩ hci
      · exact h.used c y hold
  waiting c i hne hlt := by
    rw [hjoin.query, hjoin.threadsQueue]
    by_cases hci : x.commId = c ∧ x.nbGlobIndex = i
    · obtain ⟨rfl, rfl⟩ := hci
      rw [hjoin.group_self]
      refine ⟨q, hquery, by simp, fun y hy => ?_⟩
      rw [List.mem_append, List.mem_singleton] at hy
      rcases hy with hy | rfl
      · obtain ⟨hjoined, hgroup⟩ := mem_group.mp hy
        exact (hmine y hjoined).mpr hgroup
      · rfl
    · rw [hjoin.group_of_ne hci] at hne hlt ⊢
      obtain ⟨q', hquery', hthreads, hall⟩ := h.waiting c i hne hlt
      have hmem := mem_of_query hquery'
      have hqq : q' ≠ q := fun heq => hci ((hothers c i q' hmem heq).imp Eq.symm Eq.symm)
      have hmalloc : q' ≠ s.malloc := (h.queues.allocated c _ hmem).ne
      refine ⟨q', ?_, ?_, hall⟩
      · rw [queryPrioQueue_insertNewQueue h.queues, hquery', Option.some_or]
      · rw [Function.update_of_ne hqq, ← hthreads]
        exact Function.update_of_ne hmalloc ..
  initiated c copies := by
    have hlt := hindex ▸ h.length_lt hx
    rw [hjoin.initiated, List.mem_append, h.initiated]
    constructor
    · rintro (⟨i, hne, hfull, hcopies⟩ | hnew)
      · have hci : ¬ (x.commId = c ∧ x.nbGlobIndex = i) := by
          rintro ⟨rfl, rfl⟩
          omega
        exact ⟨i, by rwa [hjoin.group_of_ne hci], by rwa [hjoin.group_of_ne hci],
          by rwa [hjoin.group_of_ne hci]⟩
      · split at hnew
        · next hfull =>
            obtain ⟨rfl, rfl⟩ := Prod.mk.inj (List.mem_singleton.mp hnew)
            exact ⟨x.nbGlobIndex, by simp [hjoin.group_self], by simp [hjoin.group_self, hfull],
              by simp [hjoin.group_self]⟩
        · cases hnew
    · rintro ⟨i, hne, hfull, rfl⟩
      by_cases hci : x.commId = c ∧ x.nbGlobIndex = i
      · obtain ⟨rfl, rfl⟩ := hci
        rw [hjoin.group_self, List.length_append, List.length_singleton] at hfull
        right
        rw [if_pos hfull.symm, hjoin.group_self, List.map_append, List.map_singleton]
        exact List.mem_singleton_self _
      · rw [hjoin.group_of_ne hci] at hne hfull ⊢
        exact .inl ⟨i, hne, hfull, rfl⟩
  inFlight c i hmem := by
    have hlt := hindex ▸ h.length_lt hx
    rw [hjoin.inFlight, List.mem_append] at hmem
    rcases hmem with hold | hnew
    · have hfull := h.inFlight c i hold
      have hci : ¬ (x.commId = c ∧ x.nbGlobIndex = i) := by
        rintro ⟨rfl, rfl⟩
        omega
      rwa [hjoin.group_of_ne hci]
    · split at hnew
      · next hfull =>
          obtain ⟨rfl, rfl⟩ := Prod.mk.inj (List.mem_singleton.mp hnew)
          rw [hjoin.group_self, List.length_append, List.length_singleton, hfull]
      · cases hnew

theorem Grouped.handOutIndex (h : Grouped P s) (ht : t ∈ P.communicator commId) (nth : Nat) :
    ∃ q s', handOutIndex P s t commId nth = some s' ∧ Grouped P s' ∧
      JoinedTo P s ⟨t, commId, nth, (s.thread t).nbGlobIndexMaster⟩ q s' := by
  obtain ⟨q, hquery, hthreads, hq, hmine, hothers⟩ := h.query ht rfl
  obtain ⟨s', hstep, hjoin⟩ := handOutIndex_joinedTo hquery hthreads
  exact ⟨q, s', hstep, h.joinedTo ht rfl hquery hq hmine hothers hjoin, hjoin⟩

theorem Grouped.close (h : Grouped P s) (hflight : (commId, index) ∈ s.inFlight)
    (hclose : closeGlobalNonblockCommunication P s commId index = some s') : Grouped P s' := by
  obtain ⟨q, hquery, hrest⟩ := Option.bind_eq_some_iff.mp hclose
  split at hrest
  swap
  · cases hrest
  obtain rfl := Option.some.inj hrest
  have hmem := mem_of_query hquery
  have hsub : ∀ c, ∀ x ∈ Function.update s.nonblockGlobalOpThreads commId
      ((s.nonblockGlobalOpThreads commId).eraseP fun x => x.2 = q) c,
      x ∈ s.nonblockGlobalOpThreads c := by
    intro c x hx
    by_cases hc : c = commId
    · subst hc
      rw [Function.update_self] at hx
      exact List.mem_of_mem_eraseP hx
    · rwa [Function.update_of_ne hc] at hx
  refine { h with
    queues := ⟨fun c => ?_, fun c x hx => h.queues.allocated c x (hsub c x hx),
      fun c c' x hx y hy => h.queues.distinct c c' x (hsub c x hx) y (hsub c' y hy)⟩
    used := fun c x hx => h.used c x (hsub c x hx)
    waiting := fun c i hne hlt => ?_
    inFlight := fun c i hi => h.inFlight c i (List.mem_of_mem_erase hi) }
  · by_cases hc : c = commId
    · subst hc
      simp only [Function.update_self]
      exact (h.queues.sorted c).sublist (List.eraseP_sublist ..)
    · simp only [Function.update_of_ne hc]
      exact h.queues.sorted c
  · obtain ⟨q', hquery', hthreads, hall⟩ := h.waiting c i hne hlt
    have hmem' := mem_of_query hquery'
    have hqq : q' ≠ q := by
      rintro rfl
      obtain ⟨rfl, heq⟩ := h.queues.distinct c commId _ hmem' _ hmem rfl
      obtain rfl : i = index := congrArg Prod.fst heq
      have hfull := h.inFlight c i hflight
      exact absurd hfull hlt.ne
    refine ⟨q', ?_, ?_, hall⟩
    · rw [← hquery']
      unfold GlopState.queryPrioQueue
      by_cases hc : c = commId
      · subst hc
        simp only [Function.update_self]
        rw [find?_eraseP fun x hx hxq hxi => ?_]
        simp only [decide_eq_true_eq] at hxq hxi
        obtain ⟨-, heq⟩ := h.queues.distinct c c x hx _ hmem hxq
        have hfull := h.inFlight c index hflight
        rw [heq] at hxi
        simp only at hxi
        rw [hxi] at hfull
        exact absurd hfull hlt.ne
      · simp only [Function.update_of_ne hc]
    · calc
        _ = s.threadsQueue q' := Function.update_of_ne hqq ..
        _ = (group s c i).map Prod.fst := hthreads

theorem Grouped.setThread (h : Grouped P s) {thread : Thread}
    (hmaster : thread.nbGlobIndexMaster = (s.thread t).nbGlobIndexMaster) :
    Grouped P (s.setThread t thread) := by
  refine ⟨⟨h.queues.sorted, h.queues.allocated, h.queues.distinct⟩, h.member, fun x hx => ?_,
    h.nodup, h.joinedAllocated, h.sameQueue, h.used, h.waiting, h.initiated, h.inFlight⟩
  have hlt := h.lt x hx
  unfold GlopState.setThread
  by_cases hxt : x.1.task = t
  · rw [hxt] at hlt ⊢
    simpa [hmaster] using hlt
  · simpa [Function.update_of_ne hxt] using hlt

theorem Grouped.perm_communicator (h : Grouped P s) {commId index : Nat}
    (hfull : (group s commId index).length = (P.communicator commId).length) :
    ((group s commId index).map fun x => x.1.task).Perm (P.communicator commId) := by
  apply (List.subperm_of_subset (h.nodup commId index) (h.tasks_subset commId index)).perm_of_length_le
  rw [List.length_map, hfull]

end Dimemas.Model.CollectiveGroups
