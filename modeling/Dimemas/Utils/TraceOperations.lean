import Dimemas.Library.StableQueue
import Dimemas.Utils.EagerMessages
/-!
# The operations that are to be ignored

Every dependency of the graph has the offset of the record that its thread had read when it was
added. A deadlock, a thread without more actions and the end of the simulation mark the operations
with these offsets.
-/

namespace Dimemas.Utils.TraceOperations

open Dimemas.Library.StableQueue
open Dimemas.Utils.Graph
open Dimemas.Utils.DeadlockAnalysis
open Dimemas.Utils.EagerMessages

variable {n : Nat}

/-! ## Dependencies with their offsets -/

/-- The graph with the `file_offset` of each dependency. -/
abbrev Arcs (n : Nat) := Fin n → List (Nat × Dependency n)

def Arcs.graph (a : Arcs n) : GraphMap n := fun i => (a i).map Prod.snd

def asksArc (q : Query n) (x : Nat × Dependency n) : Bool := q.asksFor x.2

/-- The first dependency that is asked for is resolved. It keeps its offset. -/
def resolveArc (q : Query n) : List (Nat × Dependency n) → List (Nat × Dependency n)
  | [] => []
  | x :: xs =>
      if asksArc q x then (x.1, { x.2 with action := .resolved }) :: xs
      else x :: resolveArc q xs

/-- A change of the graph by a thread whose last record is at `fileOffset`. -/
def locate (fileOffset : Nat) (a : Arcs n) : Edit n → Arcs n
  | .add i _ d => Function.update a i
      ((a i).takeWhile (fun x => x.2.toTask < d.toTask) ++ (fileOffset, d) ::
        (a i).dropWhile (fun x => x.2.toTask < d.toTask))
  | .remove i q => Function.update a i ((a i).eraseP (asksArc q))
  | .resolve i q => Function.update a i (resolveArc q (a i))

/-- What a SEND changes. Only a new dependency tells a rendez vous from an eager SEND. -/
def sendChanges (g : GraphMap n) (task dest : Fin n) (channel : Int × Nat) (rendezVous : Bool) :
    List (Edit n) :=
  let strong := messageQuery task .strg (DepAction.recv.code ||| DepAction.wait.code) channel
  let soft := messageQuery task .soft DepAction.irecv.code channel
  match (getDependency g dest strong).map Dependency.action, getDependencies g dest soft with
  | some .recv, _ => [.remove dest strong]
  | some .wait, _ :: _ => [.remove dest strong, .remove dest soft]
  | some .wait, [] => [.add task .receive (messageDependency dest .strg .send channel)]
  | _, _ :: _ => [.resolve dest soft]
  | _, [] =>
      if rendezVous then [.add task .receive (messageDependency dest .strg .send channel)]
      else [.add task .fresh (messageDependency dest .soft .resolved channel)]

def rankChanges (g : GraphMap n) (task : Fin n) (glopId : Nat) (toCollective : Fin n) :
    List (Edit n) :=
  if task = toCollective then []
  else
    match getDependency g toCollective (globalQuery task) with
    | some dep =>
        if dep.globalOp = glopId then [.remove toCollective (globalQuery task)]
        else [.add task .receive (globalDependency toCollective glopId)]
    | none => [.add task .receive (globalDependency toCollective glopId)]

def globalChanges (task : Fin n) (glopId : Nat) : GraphMap n → List (Fin n) → List (Edit n)
  | _, [] => []
  | g, j :: js =>
      let changes := rankChanges g task glopId j
      changes ++ globalChanges task glopId (changes.foldl Edit.apply g) js

def changes (communicator : Nat → List (Fin n)) (g : GraphMap n) (task : Fin n) :
    Operation n → List (Edit n)
  | .send dest channel rendezVous => sendChanges g task dest channel rendezVous
  | .recv ori channel => (recvEffect g task ori channel).edits
  | .irecv ori channel => (irecvEffect g task ori channel).edits
  | .wait ori channel => (waitEffect g task ori channel).edits
  | .globalOp glopId commId => globalChanges task glopId g (communicator commId)

/-- A change that adds a dependency asks for the offset of the thread. -/
def adds : Edit n → Bool
  | .add _ _ _ => true
  | _ => false

section

variable {communicator : Nat → List (Fin n)} {a : Arcs n} {g g' : GraphMap n} {task i : Fin n}
  {op : Operation n} {o : Outcome} {q : Query n} {e : Edit n} {es : List (Edit n)}
  {fileOffset : Nat} {x : Nat × Dependency n} {xs : List (Nat × Dependency n)}

theorem map_resolveArc :
    (resolveArc q xs).map Prod.snd = changeFirst q .resolved (xs.map Prod.snd) := by
  induction xs with
  | nil => rfl
  | cons x xs ih =>
      rw [resolveArc, List.map_cons, changeFirst, asksArc]
      split
      · rfl
      · rw [List.map_cons, ih]

theorem Arcs.graph_update (a : Arcs n) (i : Fin n) (xs : List (Nat × Dependency n)) :
    Arcs.graph (Function.update a i xs) = Function.update a.graph i (xs.map Prod.snd) := by
  ext j : 1
  by_cases hj : j = i
  · subst hj
    simp [Arcs.graph]
  · simp [Arcs.graph, Function.update_of_ne hj]

theorem graph_locate (fileOffset : Nat) (a : Arcs n) (e : Edit n) :
    (locate fileOffset a e).graph = e.apply a.graph := by
  cases e with
  | add i m d =>
      rw [locate, Arcs.graph_update, Edit.apply, addDependency, Arcs.graph]
      simp only [List.map_append, List.map_cons, List.takeWhile_map, List.dropWhile_map]
      rfl
  | remove i q =>
      rw [locate, Arcs.graph_update, Edit.apply, removeDependency, Arcs.graph, List.eraseP_map]
      rfl
  | resolve i q =>
      rw [locate, Arcs.graph_update, Edit.apply, changeAction, map_resolveArc]
      rfl

theorem graph_foldl_locate (fileOffset : Nat) (es : List (Edit n)) (a : Arcs n) :
    (es.foldl (locate fileOffset) a).graph = es.foldl Edit.apply a.graph := by
  induction es generalizing a with
  | nil => rfl
  | cons e es ih => rw [List.foldl_cons, List.foldl_cons, ih, graph_locate]

theorem newSend_changes {dest : Fin n} {channel : Int × Nat} {rendezVous : Bool}
    (h : newSend g task dest channel rendezVous = some (g', o)) :
    (sendChanges g task dest channel rendezVous).foldl Edit.apply g = g' := by
  unfold newSend at h
  unfold sendChanges
  simp only at h ⊢
  generalize (getDependency g dest _).map Dependency.action = strong at h ⊢
  generalize getDependencies g dest _ = deps at h ⊢
  have hgraph : ∀ g₁ o₁, some (g₁, o₁) = some (g', o) → g₁ = g' := by
    intro g₁ o₁ heq
    exact (Prod.mk.inj (Option.some.inj heq)).1
  cases deps with
  | nil =>
      cases strong with
      | none => cases rendezVous <;> exact hgraph _ _ h
      | some a => cases a <;> cases rendezVous <;> exact hgraph _ _ h
  | cons d ds =>
      cases strong with
      | none => exact hgraph _ _ h
      | some a =>
          cases a with
          | wait =>
              by_cases haction : d.action = .irecv
              · simp only [if_pos haction] at h
                exact hgraph _ _ h
              · simp only [if_neg haction] at h
                cases h
          | send => exact hgraph _ _ h
          | recv => exact hgraph _ _ h
          | globalOp => exact hgraph _ _ h
          | irecv => exact hgraph _ _ h
          | resolved => exact hgraph _ _ h

theorem globalRank_changes (glopId : Nat) (acc : GraphMap n × Bool) (j : Fin n) :
    (rankChanges acc.1 task glopId j).foldl Edit.apply acc.1 =
      (globalRank glopId task acc j).1 := by
  unfold rankChanges globalRank
  split
  · rfl
  · cases getDependency acc.1 j (globalQuery task) with
    | none => rfl
    | some dep =>
        simp only
        split <;> rfl

theorem manageGlobalDependency_changes (glopId : Nat) (acc : GraphMap n × Bool)
    (globalRanks : List (Fin n)) :
    (globalChanges task glopId acc.1 globalRanks).foldl Edit.apply acc.1 =
      (globalRanks.foldl (globalRank glopId task) acc).1 := by
  induction globalRanks generalizing acc with
  | nil => rfl
  | cons j js ih =>
      rw [globalChanges, List.foldl_append, List.foldl_cons, globalRank_changes, ih]

theorem update_changes (h : update communicator g task op = some (g', o)) :
    (changes communicator g task op).foldl Edit.apply g = g' := by
  cases op with
  | send dest channel rendezVous => exact newSend_changes h
  | recv ori channel =>
      rw [changes, newRecv_effect]
      exact congrArg Prod.fst (Option.some.inj h)
  | irecv ori channel =>
      rw [changes, newIrecv_effect]
      exact congrArg Prod.fst (Option.some.inj h)
  | wait ori channel =>
      rw [changes, newWait_effect]
      exact congrArg Prod.fst (Option.some.inj h)
  | globalOp glopId commId =>
      rw [changes, manageGlobalDependency_changes glopId (g, false)]
      exact congrArg Prod.fst (Option.some.inj h)

/-- The offset of a dependency is an old one, or that of the thread which adds it. -/
theorem mem_locate (h : x ∈ locate fileOffset a e i) :
    (∃ y ∈ a i, y.1 = x.1) ∨ x.1 = fileOffset ∧ ∃ m d, e = .add i m d := by
  cases e with
  | add j m d =>
      by_cases hj : i = j
      · subst hj
        rw [locate, Function.update_self] at h
        rcases List.mem_append.mp h with h | h
        · exact .inl ⟨x, (List.takeWhile_prefix _).subset h, rfl⟩
        · rcases List.mem_cons.mp h with rfl | h
          · exact .inr ⟨rfl, m, d, rfl⟩
          · exact .inl ⟨x, (List.dropWhile_suffix _).subset h, rfl⟩
      · rw [locate, Function.update_of_ne hj] at h
        exact .inl ⟨x, h, rfl⟩
  | remove j q =>
      left
      by_cases hj : i = j
      · subst hj
        rw [locate, Function.update_self] at h
        exact ⟨x, List.eraseP_subset h, rfl⟩
      · rw [locate, Function.update_of_ne hj] at h
        exact ⟨x, h, rfl⟩
  | resolve j q =>
      left
      by_cases hj : i = j
      · subst hj
        rw [locate, Function.update_self] at h
        have hfirst : (resolveArc q (a i)).map Prod.fst = (a i).map Prod.fst := by
          induction a i with
          | nil => rfl
          | cons y ys ih =>
              rw [resolveArc]
              split
              · rfl
              · rw [List.map_cons, List.map_cons, ih]
        have hmem := List.mem_map_of_mem (f := Prod.fst) h
        rw [hfirst] at hmem
        exact List.mem_map.mp hmem
      · rw [locate, Function.update_of_ne hj] at h
        exact ⟨x, h, rfl⟩

theorem mem_foldl_locate (h : x ∈ es.foldl (locate fileOffset) a i) :
    (∃ y ∈ a i, y.1 = x.1) ∨ x.1 = fileOffset ∧ ∃ m d, .add i m d ∈ es := by
  induction es generalizing a with
  | nil => exact .inl ⟨x, h, rfl⟩
  | cons e es ih =>
      rcases ih h with ⟨y, hy, hyx⟩ | ⟨hx, m, d, hmem⟩
      · rcases mem_locate hy with ⟨z, hz, hzy⟩ | ⟨hoffset, m, d, rfl⟩
        · exact .inl ⟨z, hz, hzy.trans hyx⟩
        · exact .inr ⟨hyx.symm.trans hoffset, m, d, List.mem_cons_self⟩
      · exact .inr ⟨hx, m, d, List.mem_cons_of_mem _ hmem⟩

/-- Only the rank of an event gets new dependencies. -/
theorem add_mem_sendChanges {dest : Fin n} {channel : Int × Nat} {rendezVous : Bool} {m : Mark}
    {d : Dependency n} (h : Edit.add i m d ∈ sendChanges g task dest channel rendezVous) :
    i = task := by
  unfold sendChanges at h
  simp only at h
  generalize (getDependency g dest _).map Dependency.action = strong at h
  generalize getDependencies g dest _ = deps at h
  have hadd : ∀ {m' : Mark} {d' : Dependency n}, Edit.add i m d ∈ [Edit.add task m' d'] →
      i = task := by
    intro m' d' hmem
    exact (Edit.add.inj (List.mem_singleton.mp hmem)).1
  cases deps with
  | nil =>
      cases strong with
      | none => cases rendezVous <;> exact hadd h
      | some a =>
          cases a with
          | recv => simp at h
          | send => cases rendezVous <;> exact hadd h
          | wait => exact hadd h
          | globalOp => cases rendezVous <;> exact hadd h
          | irecv => cases rendezVous <;> exact hadd h
          | resolved => cases rendezVous <;> exact hadd h
  | cons d ds =>
      cases strong with
      | none => simp at h
      | some a => cases a <;> simp at h

theorem add_mem_globalChanges {glopId : Nat} {globalRanks : List (Fin n)} {m : Mark}
    {d : Dependency n} (h : Edit.add i m d ∈ globalChanges task glopId g globalRanks) :
    i = task := by
  induction globalRanks generalizing g with
  | nil => cases h
  | cons j js ih =>
      rcases List.mem_append.mp h with h | h
      · unfold rankChanges at h
        split at h
        · cases h
        · split at h
          · split at h
            · cases List.mem_singleton.mp h
            · exact (Edit.add.inj (List.mem_singleton.mp h)).1
          · exact (Edit.add.inj (List.mem_singleton.mp h)).1
      · exact ih h

theorem add_mem_changes {m : Mark} {d : Dependency n}
    (h : Edit.add i m d ∈ changes communicator g task op) : i = task := by
  cases op with
  | send dest channel rendezVous => exact add_mem_sendChanges h
  | recv ori channel =>
      rw [changes, recvEffect] at h
      split at h
      · cases List.mem_singleton.mp h
      · split at h
        · cases List.mem_singleton.mp h
        · exact (Edit.add.inj (List.mem_singleton.mp h)).1
  | irecv ori channel =>
      rw [changes, irecvEffect] at h
      split at h
      · exact (by simpa using h : _ ∧ _).1
      · split at h
        · exact (by simpa using h : _ ∧ _).1
        · exact (Edit.add.inj (List.mem_singleton.mp h)).1
  | wait ori channel =>
      rw [changes, waitEffect] at h
      split at h
      · cases List.mem_singleton.mp h
      · split at h
        · cases List.mem_singleton.mp h
        · exact (Edit.add.inj (List.mem_singleton.mp h)).1
  | globalOp glopId commId => exact add_mem_globalChanges h

end

/-! ## What is marked -/

/-- A rank and an offset: the `trace_operation` of the first thread of a task. -/
abbrev Marked (n : Nat) := Fin n × Nat

/-- `insert_queue` of an operation in `ops_to_be_ignored`, whose priority is its offset. -/
def insertOperation (opsToBeIgnored : Fin n → List Nat) (m : Marked n) : Fin n → List Nat :=
  Function.update opsToBeIgnored m.1 (insertAfter id m.2 (opsToBeIgnored m.1))

/-- The strong dependencies of a rank on another one, and those of its global operations. -/
def blockingArcs (a : Arcs n) (i toTask : Fin n) : List (Nat × Dependency n) :=
  (a i).filter fun x => x.2.blocks && x.2.toTask = toTask

/-- What `_is_deadlocked` marks: the first dependency between two ranks of the chain. -/
def deadlockMark (a : Arcs n) (chain : Nat → Fin n) (taskToModPos : Nat) : Option (Marked n) :=
  (blockingArcs a (chain taskToModPos) (chain (taskToModPos + 1))).head?.map fun x =>
    (chain taskToModPos, x.1)

/-- What `DEADLOCK_thread_finalized` marks: the dependencies on the rank. -/
def finalizedMarks (a : Arcs n) (toTask : Fin n) : List (Marked n) :=
  (List.finRange n).flatMap fun i =>
    if i = toTask then []
    else (blockingArcs a i toTask).map fun x => (i, x.1)

/-- What `DEADLOCK_check_end` marks: all dependencies. -/
def endMarks (a : Arcs n) : List (Marked n) :=
  (List.finRange n).flatMap fun i => (a i).map fun x => (i, x.1)

section

variable {a : Arcs n} {m : Marked n} {ms : List (Marked n)} {ops : Fin n → List Nat} {i : Fin n}
  {o : Nat}

theorem blocking_of_finalizedMarks {toTask : Fin n} (h : m ∈ finalizedMarks a toTask) :
    m.1 ≠ toTask ∧ ∃ x ∈ blockingArcs a m.1 toTask, x.1 = m.2 := by
  obtain ⟨i, -, hm⟩ := List.mem_flatMap.mp h
  split at hm
  · cases hm
  · next hne =>
      obtain ⟨x, hx, rfl⟩ := List.mem_map.mp hm
      exact ⟨hne, x, hx, rfl⟩

theorem mem_of_finalizedMarks {toTask : Fin n} (h : m ∈ finalizedMarks a toTask) :
    ∃ x ∈ a m.1, x.1 = m.2 := by
  obtain ⟨-, x, hx, hoffset⟩ := blocking_of_finalizedMarks h
  exact ⟨x, List.mem_of_mem_filter hx, hoffset⟩

theorem mem_of_endMarks (h : m ∈ endMarks a) : ∃ x ∈ a m.1, x.1 = m.2 := by
  obtain ⟨i, -, hm⟩ := List.mem_flatMap.mp h
  obtain ⟨x, hx, rfl⟩ := List.mem_map.mp hm
  exact ⟨x, hx, rfl⟩

theorem nodup_flatMap_ranks {f : Fin n → List (Marked n)} (h : ∀ i, (f i).Nodup)
    (hrank : ∀ i, ∀ m ∈ f i, m.1 = i) : ((List.finRange n).flatMap f).Nodup := by
  apply List.nodup_flatMap.mpr
  refine ⟨fun i _ => h i, (List.nodup_finRange n).imp ?_⟩
  intro i j hne m hi hj
  exact hne ((hrank i m hi).symm.trans (hrank j m hj))

theorem nodup_marksOf {xs : List (Nat × Dependency n)} (h : (xs.map Prod.fst).Nodup) (i : Fin n) :
    (xs.map fun x => (i, x.1)).Nodup := by
  have hmap := h.map (Prod.mk_right_injective i)
  rwa [List.map_map] at hmap

theorem nodup_finalizedMarks {toTask : Fin n}
    (h : ∀ i, i ≠ toTask → ((blockingArcs a i toTask).map Prod.fst).Nodup) :
    (finalizedMarks a toTask).Nodup := by
  apply nodup_flatMap_ranks
  · intro i
    split
    · exact List.nodup_nil
    · next hne => exact nodup_marksOf (h i hne) i
  · intro i m hm
    split at hm
    · cases hm
    · obtain ⟨x, -, rfl⟩ := List.mem_map.mp hm
      rfl

theorem nodup_endMarks (h : ∀ i, ((a i).map Prod.fst).Nodup) : (endMarks a).Nodup := by
  apply nodup_flatMap_ranks (fun i => nodup_marksOf (h i) i)
  intro i m hm
  obtain ⟨x, -, rfl⟩ := List.mem_map.mp hm
  rfl

theorem mem_insertOperation : o ∈ insertOperation ops m i ↔ m = (i, o) ∨ o ∈ ops i := by
  unfold insertOperation
  by_cases hi : i = m.1
  · subst hi
    rw [Function.update_self, mem_insertAfter, Prod.ext_iff]
    simp [eq_comm]
  · rw [Function.update_of_ne hi, Prod.ext_iff]
    simp [Ne.symm hi]

theorem mem_foldl_insertOperation :
    o ∈ ms.foldl insertOperation ops i ↔ (i, o) ∈ ms ∨ o ∈ ops i := by
  induction ms generalizing ops with
  | nil => simp
  | cons m ms ih =>
      rw [List.foldl_cons, ih, mem_insertOperation, List.mem_cons, eq_comm (a := (i, o))]
      tauto

theorem nodup_insertOperation (h : (ops i).Nodup) (hnew : m.2 ∉ ops m.1) :
    (insertOperation ops m i).Nodup := by
  unfold insertOperation
  by_cases hi : i = m.1
  · subst hi
    rw [Function.update_self]
    have hperm : (insertAfter id m.2 (ops m.1)).Perm (m.2 :: ops m.1) := by
      unfold insertAfter
      apply List.perm_middle.trans
      rw [List.takeWhile_append_dropWhile]
    exact hperm.nodup_iff.mpr (List.nodup_cons.mpr ⟨hnew, h⟩)
  · rwa [Function.update_of_ne hi]

theorem nodup_foldl_insertOperation (h : ∀ i, (ops i).Nodup) (hms : ms.Nodup)
    (hnew : ∀ m ∈ ms, m.2 ∉ ops m.1) : ∀ i, (ms.foldl insertOperation ops i).Nodup := by
  induction ms generalizing ops with
  | nil => exact h
  | cons m ms ih =>
      obtain ⟨hm, hrest⟩ := List.nodup_cons.mp hms
      rw [List.foldl_cons]
      apply ih
      · intro i
        exact nodup_insertOperation (h i) (hnew m List.mem_cons_self)
      · exact hrest
      · intro x hx hmem
        rcases mem_insertOperation.mp hmem with heq | hmem
        · exact hm (heq ▸ hx)
        · exact hnew x (List.mem_cons_of_mem _ hx) hmem

end

end Dimemas.Utils.TraceOperations
