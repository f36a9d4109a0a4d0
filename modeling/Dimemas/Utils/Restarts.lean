import Dimemas.Library.Transitions
import Dimemas.Input.Records
import Dimemas.Utils.TraceOperations
import Mathlib.Algebra.BigOperators.Group.Finset.Basic
import Mathlib.Algebra.Order.BigOperators.Group.Finset
/-!
# The restarts of a simulation

The loop of `main` that starts a simulation again after a deadlock. A simulation marks operations,
which the threads skip in the next one. A restart that marks a new operation each time is made at
most once for each record.
-/

namespace Dimemas.Utils.Restarts

open Dimemas.Library.CycleSearch
open Dimemas.Library.Transitions
open Dimemas.Library.Simulation
open Dimemas.Input.Streams
open Dimemas.Input.Records
open Dimemas.Utils.Graph
open Dimemas.Utils.DeadlockAnalysis
open Dimemas.Utils.TraceOperations

variable {n : Nat} {α : Type*}

/-- The trace when the first thread of each task is to ignore some operations. -/
def ignoring (trace : Trace α) (opsToBeIgnored : Fin n → List Nat) : Trace α :=
  { trace with
    withDeadlockAnalysis := true
    opsToBeIgnored := fun id => if h : id.1 < n then opsToBeIgnored ⟨id.1, h⟩ else [] }

def offsets (trace : Trace α) (task : Fin n) : List Nat := (trace.records (task, 0)).map Prod.fst

/-- A simulation. `ideal` are the records that the threads have to read, and `opsAtStart` the
operations that were to be ignored when it started. -/
structure Simulation (n : Nat) (α : Type*) where
  reader : Reader
  ideal : Ideal α
  arcs : Arcs n
  opsToBeIgnored : Fin n → List Nat
  opsAtStart : Fin n → List Nat
  simulationRebooted : Bool
  rebootsCounter : Nat

def Simulation.initial (trace : Trace α) (lastOffsets : ThreadId → Nat) : Simulation n α where
  reader := .initial trace lastOffsets
  ideal := .initial trace
  arcs _ := []
  opsToBeIgnored _ := []
  opsAtStart _ := []
  simulationRebooted := false
  rebootsCounter := 0

def Simulation.serve (trace : Trace α) (s : Simulation n α) (q : Request) : Simulation n α :=
  { s with
    reader := (s.reader.serve (ignoring trace s.opsToBeIgnored) q).1
    ideal := (s.ideal.serve (ignoring trace s.opsToBeIgnored) q).1 }

def Simulation.mark (s : Simulation n α) (ms : List (Marked n)) : Simulation n α :=
  { s with
    opsToBeIgnored := ms.foldl insertOperation s.opsToBeIgnored
    simulationRebooted := s.simulationRebooted || !ms.isEmpty }

/-- What `SIMULATOR_reset_state` asks of the reader: every thread starts again, and reads its first
action. -/
def resetRequests (trace : Trace α) : List Request :=
  trace.threads.flatMap fun id => [.restartFps id, .readAction id, .deliver id]

/-- The reset of `main`. -/
def Simulation.restart (trace : Trace α) (s : Simulation n α) : Simulation n α :=
  { reader := (resetRequests trace).foldl
      (fun r q => (r.serve (ignoring trace s.opsToBeIgnored) q).1) s.reader
    ideal := (resetRequests trace).foldl
      (fun i q => (i.serve (ignoring trace s.opsToBeIgnored) q).1) s.ideal
    arcs := fun _ => []
    opsToBeIgnored := s.opsToBeIgnored
    opsAtStart := s.opsToBeIgnored
    simulationRebooted := false
    rebootsCounter := s.rebootsCounter + 1 }

/-- The graph behind an event of a thread. The dependencies that are added ask for its offset. -/
def Simulation.update (trace : Trace α) (communicator : Nat → List (Fin n)) (s : Simulation n α)
    (task : Fin n) (thread : Nat) (op : Operation n) : Simulation n α :=
  let edits := changes communicator s.arcs.graph task op
  let served := if edits.any adds then s.serve trace (.getOffset (task, thread)) else s
  let fileOffset := (getOffset (ignoring trace s.opsToBeIgnored) s.reader (task, thread)).2
  { served with arcs := edits.foldl (locate fileOffset) s.arcs }

/-- What an event marks when it finds a deadlock. The place in the chain is chosen by
`_get_earlier_task_index` or `breakChainFrom`. -/
def Simulation.eventMarks (trace : Trace α) (communicator : Nat → List (Fin n))
    (s : Simulation n α) (task : Fin n) (thread : Nat) (op : Operation n) (taskToModPos : Nat) :
    Option (List (Marked n)) := do
  let (g, res) ← newState communicator s.arcs.graph task op
  if res then
    let found ← lookForCycle g task (n + 1) fun _ => task
    if taskToModPos + 1 < found.size then
      (deadlockMark (s.update trace communicator task thread op).arcs found.chain
        taskToModPos).map fun m => [m]
    else none
  else some []

def Simulation.closedChain (communicator : Nat → List (Fin n)) (s : Simulation n α)
    (task : Fin n) (op : Operation n) : Option (Found (Fin n)) := do
  let (g, res) ← newState communicator s.arcs.graph task op
  if res then lookForCycle g task (n + 1) fun _ => task else none

def Simulation.endMarks (s : Simulation n α) : List (Marked n) :=
  if s.simulationRebooted then [] else TraceOperations.endMarks s.arcs

inductive Label (n : Nat)
  | read (id : ThreadId)
  | deliver (id : ThreadId)
  | event (task : Fin n) (thread : Nat) (op : Operation n) (taskToModPos : Nat)
  | finalized (task : Fin n)
  | endOfSimulation
deriving DecidableEq

/-- The simulation and its restarts. The loop ends, without a step, if nothing is marked at the end
of the events. -/
def next (trace : Trace α) (communicator : Nat → List (Fin n)) (s : Simulation n α) :
    Label n → Option (Simulation n α)
  | .read id =>
      if trace.threads.contains id then some (s.serve trace (.readAction id)) else none
  | .deliver id =>
      if trace.threads.contains id then some (s.serve trace (.deliver id)) else none
  | .event task thread op pos =>
      if trace.threads.contains (task.val, thread) then
        (s.eventMarks trace communicator task thread op pos).map fun ms =>
          (s.update trace communicator task thread op).mark ms
      else none
  | .finalized task => some (s.mark (finalizedMarks s.arcs task))
  | .endOfSimulation =>
      if (s.mark s.endMarks).simulationRebooted then some ((s.mark s.endMarks).restart trace)
      else none

/-- The arcs of a rank are arcs of different operations, and none of them was marked in this
simulation. -/
def Unmarked (s : Simulation n α) (i : Fin n) (xs : List (Nat × Dependency n)) : Prop :=
  (xs.map Prod.fst).Nodup ∧ (s.simulationRebooted → ∀ x ∈ xs, x.1 ∉ s.opsToBeIgnored i)

instance (s : Simulation n α) (i : Fin n) (xs : List (Nat × Dependency n)) :
    Decidable (Unmarked s i xs) :=
  inferInstanceAs (Decidable (_ ∧ (_ → ∀ x ∈ xs, _)))

/-- A deadlock behind another one is broken at an arc of another operation. -/
def BreaksAnew (trace : Trace α) (communicator : Nat → List (Fin n)) (s : Simulation n α)
    (task : Fin n) (thread : Nat) (op : Operation n) (pos : Nat) : Prop :=
  s.simulationRebooted → ∀ found ∈ s.closedChain communicator task op, pos + 1 < found.size →
    ∀ x ∈ (blockingArcs (s.update trace communicator task thread op).arcs (found.chain pos)
      (found.chain (pos + 1))).head?, x.1 ∉ s.opsToBeIgnored (found.chain pos)

instance (trace : Trace α) (communicator : Nat → List (Fin n)) (s : Simulation n α)
    (task : Fin n) (thread : Nat) (op : Operation n) (pos : Nat) :
    Decidable (BreaksAnew trace communicator s task thread op pos) :=
  inferInstanceAs (Decidable (_ → ∀ found ∈ s.closedChain communicator task op, _ → ∀ x ∈
    (blockingArcs (s.update trace communicator task thread op).arcs (found.chain pos)
      (found.chain (pos + 1))).head?, _))

instance (trace : Trace α) (ideal : Ideal α) (id : ThreadId) :
    Decidable (Regular trace ideal (.getOffset id)) :=
  decidable_of_iff ((ideal.delivered id).isSome ∧ ideal.lastRead id = ideal.delivered id ∧
    (ideal.delivered id).getD 0 < uintRange) (by
      unfold Regular
      cases hdelivered : ideal.delivered id with
      | none => simp [hdelivered]
      | some o => simp [hdelivered])

instance (trace : Trace α) (ideal : Ideal α) : (q : Request) → Decidable (Regular trace ideal q)
  | .readAction _ => inferInstance
  | .deliver _ => inferInstanceAs (Decidable True)
  | .getOffset _ => inferInstance
  | .restartFps _ => inferInstanceAs (Decidable True)
  | .reloadPtask => inferInstanceAs (Decidable (∀ id ∈ trace.threads, _))

/-- A step at which the reader does what it has to, and no operation is marked twice. A dependency
is added by the first thread of a task, for the record that this thread has read. -/
def Proper (trace : Trace α) (communicator : Nat → List (Fin n)) (s : Simulation n α) :
    Label n → Prop
  | .read id => Regular (ignoring trace s.opsToBeIgnored) s.ideal (.readAction id)
  | .deliver _ => True
  | .event task thread op pos =>
      ((changes communicator s.arcs.graph task op).any adds → thread = 0 ∧
        Regular (ignoring trace s.opsToBeIgnored) s.ideal (.getOffset (task, 0))) ∧
      BreaksAnew trace communicator s task thread op pos
  | .finalized task => ∀ i, i ≠ task → Unmarked s i (blockingArcs s.arcs i task)
  | .endOfSimulation =>
      (s.simulationRebooted = false → ∀ i, ((s.arcs i).map Prod.fst).Nodup) ∧
        Along (Ideal.serve (ignoring trace (s.mark s.endMarks).opsToBeIgnored))
          (Regular (ignoring trace (s.mark s.endMarks).opsToBeIgnored)) s.ideal
          (resetRequests trace)

instance (trace : Trace α) (communicator : Nat → List (Fin n)) (s : Simulation n α) :
    (l : Label n) → Decidable (Proper trace communicator s l)
  | .read id => inferInstanceAs (Decidable (Regular _ s.ideal (.readAction id)))
  | .deliver _ => inferInstanceAs (Decidable True)
  | .event task thread op pos => inferInstanceAs (Decidable ((_ → thread = 0 ∧
      Regular _ s.ideal (.getOffset (task, 0))) ∧
        BreaksAnew trace communicator s task thread op pos))
  | .finalized task => inferInstanceAs (Decidable (∀ i, _ → Unmarked s i (blockingArcs _ i task)))
  | .endOfSimulation =>
      inferInstanceAs (Decidable ((_ → ∀ i, ((s.arcs i).map Prod.fst).Nodup) ∧ Along _ _ _ _))

section

variable {trace : Trace α} {communicator : Nat → List (Fin n)} {s s' : Simulation n α}
  {ops ops' : Fin n → List Nat} {r : Reader} {ideal : Ideal α} {id : ThreadId} {i : Fin n}
  {o : Nat} {q : Request} {qs : List Request} {ms : List (Marked n)}

theorem ignored_ignoring (trace : Trace α) (ops : Fin n → List Nat) (i : Fin n) :
    (ignoring trace ops).ignored (i, 0) = ops i := by
  simp [Trace.ignored, ignoring]

theorem mem_ignored (h : o ∈ (ignoring trace ops).ignored id) :
    ∃ i : Fin n, id = (i.val, 0) ∧ o ∈ ops i := by
  unfold Trace.ignored ignoring at h
  split at h
  · next hzero =>
      simp only at h
      split at h
      · next hlt =>
          refine ⟨⟨id.1, hlt⟩, ?_, h⟩
          ext
          · rfl
          · simpa using hzero
      · cases h
  · cases h

theorem ignored_subset (h : ∀ i, ops i ⊆ ops' i) (id : ThreadId) :
    (ignoring trace ops).ignored id ⊆ (ignoring trace ops').ignored id := by
  intro o ho
  obtain ⟨i, rfl, hmem⟩ := mem_ignored ho
  rw [ignored_ignoring]
  exact h i hmem

theorem related_ignoring (h : Related (ignoring trace ops) r ideal)
    (hsub : ∀ i, ops i ⊆ ops' i) : Related (ignoring trace ops') r ideal where
  tidy := h.tidy
  rest := h.rest
  stream := h.stream
  fresh := h.fresh
  counter id hid := by
    obtain ⟨skipped, hnodup, hignored, hlt, hlength⟩ := h.counter id hid
    exact ⟨skipped, hnodup, List.Subset.trans hignored (ignored_subset hsub id), hlt, hlength⟩
  last := h.last

theorem ignoresRecords (h : ∀ i, ops i ⊆ offsets trace i) :
    (ignoring trace ops).IgnoresRecords := by
  intro id _ o ho
  obtain ⟨i, rfl, hmem⟩ := mem_ignored ho
  exact h i hmem

/-- What a thread has read last is a record of it, and not one of some operations. -/
def ReadsKept (trace : Trace α) (ideal : Ideal α) (id : ThreadId) (avoided : List Nat) : Prop :=
  ∀ o, ideal.lastRead id = some o → o ∈ (trace.records id).map Prod.fst ∧ o ∉ avoided

theorem remaining_serve (h : ∀ id, ideal.remaining id ⊆ trace.records id) (q : Request) :
    ∀ id, (ideal.serve trace q).1.remaining id ⊆ trace.records id := by
  intro id
  have hupdate : ∀ (id' : ThreadId) (rest : List (Nat × α)), rest ⊆ trace.records id' →
      Function.update ideal.remaining id' rest id ⊆ trace.records id := by
    intro id' rest hrest
    rw [Function.update_apply]
    split
    · next heq => rwa [heq]
    · exact h id
  cases q with
  | readAction id' =>
      show ((ideal.readAction trace id').1).remaining id ⊆ _
      unfold Ideal.readAction
      split
      · next o a rest hdrop =>
          apply hupdate
          intro x hx
          apply h id'
          apply (List.dropWhile_suffix fun x => decide (x.1 ∈ trace.ignored id')).subset
          rw [hdrop]
          exact List.mem_cons_of_mem _ hx
      · exact hupdate id' [] (List.nil_subset _)
  | deliver id' => exact h id
  | getOffset id' => exact h id
  | restartFps id' => exact hupdate id' _ (List.Subset.refl _)
  | reloadPtask => exact List.Subset.refl _

theorem readsKept_serve (hremaining : ∀ id, ideal.remaining id ⊆ trace.records id)
    {avoided : List Nat} (hignored : avoided ⊆ trace.ignored id)
    (h : ReadsKept trace ideal id avoided) (q : Request) :
    ReadsKept trace (ideal.serve trace q).1 id avoided := by
  intro o ho
  cases q with
  | readAction id' =>
      have hread : ((ideal.readAction trace id').1).lastRead id = some o := ho
      unfold Ideal.readAction at hread
      split at hread
      · next o' a rest hdrop =>
          simp only [Function.update_apply] at hread
          split at hread
          · next heq =>
              subst heq
              obtain rfl := Option.some.inj hread
              constructor
              · apply List.mem_map.mpr
                refine ⟨(o', a), hremaining id ?_, rfl⟩
                apply (List.dropWhile_suffix fun x => decide (x.1 ∈ trace.ignored id)).subset
                rw [hdrop]
                exact List.mem_cons_self
              · have hhead := List.head?_dropWhile_not
                  (fun x : Nat × α => decide (x.1 ∈ trace.ignored id)) (ideal.remaining id)
                intro hmem
                simp [hdrop, hignored hmem] at hhead
          · exact h o hread
      · simp only [Function.update_apply] at hread
        split at hread
        · cases hread
        · exact h o hread
  | deliver id' => exact h o ho
  | getOffset id' => exact h o ho
  | restartFps id' =>
      have hread : Function.update ideal.lastRead id' none id = some o := ho
      rw [Function.update_apply] at hread
      split at hread
      · cases hread
      · exact h o hread
  | reloadPtask => cases ho

theorem foldl_serve (hremaining : ∀ id, ideal.remaining id ⊆ trace.records id)
    (qs : List Request) :
    (∀ id, (qs.foldl (fun i q => (i.serve trace q).1) ideal).remaining id ⊆ trace.records id) ∧
      ∀ id, ReadsKept trace ideal id (trace.ignored id) ∨ .restartFps id ∈ qs →
        ReadsKept trace (qs.foldl (fun i q => (i.serve trace q).1) ideal) id
          (trace.ignored id) := by
  induction qs generalizing ideal with
  | nil => exact ⟨hremaining, fun id h => h.resolve_right List.not_mem_nil⟩
  | cons q qs ih =>
      obtain ⟨hall, hkept⟩ := ih (remaining_serve hremaining q)
      refine ⟨hall, fun id h => hkept id ?_⟩
      rcases h with h | h
      · exact .inl (readsKept_serve hremaining (List.Subset.refl _) h q)
      · rcases List.mem_cons.mp h with rfl | h
        · left
          intro o ho
          have hread : Function.update ideal.lastRead id none id = some o := ho
          rw [Function.update_self] at hread
          cases hread
        · exact .inr h

/-- The operations that are marked are different records of the threads, those of a simulation were
not marked before it, and each restart marks one. -/
structure Inv (trace : Trace α) (s : Simulation n α) : Prop where
  related : Related (ignoring trace s.opsToBeIgnored) s.reader s.ideal
  remaining : ∀ id, s.ideal.remaining id ⊆ trace.records id
  lastRead : ∀ i : Fin n, ∀ o, s.ideal.lastRead (i, 0) = some o →
    o ∈ offsets trace i ∧ o ∉ s.opsAtStart i
  arcs : ∀ i, ∀ x ∈ s.arcs i, x.1 ∈ offsets trace i ∧ x.1 ∉ s.opsAtStart i
  marked : ∀ i, s.opsToBeIgnored i ⊆ offsets trace i
  nodup : ∀ i, (s.opsToBeIgnored i).Nodup
  start : ∀ i, s.opsAtStart i ⊆ s.opsToBeIgnored i
  nodupStart : ∀ i, (s.opsAtStart i).Nodup
  settled : s.simulationRebooted = false → ∀ i, s.opsToBeIgnored i ⊆ s.opsAtStart i
  rebooted : s.simulationRebooted → ∃ i, ∃ o ∈ s.opsToBeIgnored i, o ∉ s.opsAtStart i
  bound : s.rebootsCounter ≤ ∑ i, (s.opsAtStart i).length

theorem inv_initial (hwell : trace.WellFormed) (lastOffsets : ThreadId → Nat) :
    Inv trace (.initial trace lastOffsets : Simulation n α) where
  related := by
    have hinitial := related_initial hwell lastOffsets
    exact ⟨hinitial.tidy, hinitial.rest, hinitial.stream, hinitial.fresh,
      fun id hid => ⟨[], List.nodup_nil, List.nil_subset _, by simp, rfl⟩, hinitial.last⟩
  remaining id := List.Subset.refl _
  lastRead i o ho := by cases ho
  arcs i x hx := by cases hx
  marked i := List.nil_subset _
  nodup i := List.nodup_nil
  start i := List.nil_subset _
  nodupStart i := List.nodup_nil
  settled _ i := List.nil_subset _
  rebooted h := by cases h
  bound := Nat.zero_le _

/-- The operations of arcs that are different are marked once. What a simulation has not marked
itself is no operation of an arc, as it was ignored. -/
theorem inv_mark (h : Inv trace s) (hms : ∀ m ∈ ms, ∃ x ∈ s.arcs m.1, x.1 = m.2)
    (hnodup : ms.Nodup)
    (hanew : s.simulationRebooted → ∀ m ∈ ms, m.2 ∉ s.opsToBeIgnored m.1) :
    Inv trace (s.mark ms) := by
  have hnew : ∀ m ∈ ms, m.2 ∈ offsets trace m.1 ∧ m.2 ∉ s.opsAtStart m.1 := by
    intro m hm
    obtain ⟨x, hx, hoffset⟩ := hms m hm
    rw [← hoffset]
    exact h.arcs m.1 x hx
  have hgrow : ∀ i, s.opsToBeIgnored i ⊆ ms.foldl insertOperation s.opsToBeIgnored i :=
    fun i o ho => mem_foldl_insertOperation.mpr (.inr ho)
  constructor
  · exact related_ignoring h.related hgrow
  · exact h.remaining
  · exact h.lastRead
  · exact h.arcs
  · intro i o ho
    rcases mem_foldl_insertOperation.mp ho with hm | hold
    · exact (hnew (i, o) hm).1
    · exact h.marked i hold
  · apply nodup_foldl_insertOperation h.nodup hnodup
    intro m hm hold
    cases hrebooted : s.simulationRebooted with
    | true => exact hanew hrebooted m hm hold
    | false => exact (hnew m hm).2 (h.settled hrebooted m.1 hold)
  · exact fun i => List.Subset.trans (h.start i) (hgrow i)
  · exact h.nodupStart
  · intro hsettled
    have hnone : s.simulationRebooted = false ∧ ms = [] := by
      simpa [Simulation.mark] using hsettled
    obtain ⟨hs, rfl⟩ := hnone
    exact h.settled hs
  · intro hrebooted
    cases ms with
    | nil =>
        have hs : s.simulationRebooted = true := by simpa [Simulation.mark] using hrebooted
        exact h.rebooted hs
    | cons m ms =>
        refine ⟨m.1, m.2, ?_, (hnew m List.mem_cons_self).2⟩
        exact mem_foldl_insertOperation.mpr (.inl List.mem_cons_self)
  · exact h.bound

theorem asks_of_contains (h : trace.threads.contains id) (hq : q.threadId = some id) :
    trace.Asks q := by
  intro id' hid
  rw [hq] at hid
  rw [← Option.some.inj hid]
  exact List.contains_iff_mem.mp h

theorem inv_serve (h : Inv trace s) (hwell : trace.WellFormed) (hasks : trace.Asks q)
    (hregular : Regular (ignoring trace s.opsToBeIgnored) s.ideal q) :
    Inv trace (s.serve trace q) := by
  have hserve := related_serve h.related hwell (ignoresRecords h.marked) hasks hregular
  have hremaining : ∀ id, s.ideal.remaining id ⊆
      (ignoring trace s.opsToBeIgnored).records id := h.remaining
  constructor
  · exact hserve.1
  · exact remaining_serve hremaining q
  · intro i
    apply readsKept_serve hremaining
    · rw [ignored_ignoring]
      exact h.start i
    · exact h.lastRead i
  · exact h.arcs
  · exact h.marked
  · exact h.nodup
  · exact h.start
  · exact h.nodupStart
  · exact h.settled
  · exact h.rebooted
  · exact h.bound

theorem update_ops (trace : Trace α) (communicator : Nat → List (Fin n)) (s : Simulation n α)
    (task : Fin n) (thread : Nat) (op : Operation n) :
    (s.update trace communicator task thread op).opsToBeIgnored = s.opsToBeIgnored ∧
      (s.update trace communicator task thread op).simulationRebooted =
        s.simulationRebooted := by
  unfold Simulation.update
  simp only
  split
  · exact ⟨rfl, rfl⟩
  · exact ⟨rfl, rfl⟩

theorem graph_update {task : Fin n} {op : Operation n} {g : GraphMap n} {res : Bool}
    (h : newState communicator s.arcs.graph task op = some (g, res)) (thread : Nat) :
    (s.update trace communicator task thread op).arcs.graph = g := by
  obtain ⟨o, hupdate⟩ := update_of_newState h
  unfold Simulation.update
  simp only
  rw [graph_foldl_locate, update_changes hupdate]

/-- The dependencies that an event adds have the offset of a record which the thread did not
ignore. -/
theorem inv_update (h : Inv trace s) (hwell : trace.WellFormed) {task : Fin n} {thread : Nat}
    {op : Operation n} (hthread : trace.threads.contains (task.val, thread))
    (hproper : (changes communicator s.arcs.graph task op).any adds → thread = 0 ∧
      Regular (ignoring trace s.opsToBeIgnored) s.ideal (.getOffset (task, 0))) :
    Inv trace (s.update trace communicator task thread op) := by
  unfold Simulation.update
  simp only
  set edits := changes communicator s.arcs.graph task op with hedits
  set fileOffset :=
    (getOffset (ignoring trace s.opsToBeIgnored) s.reader (task, thread)).2 with hoffset
  have harcs : ∀ i, ∀ x ∈ edits.foldl (locate fileOffset) s.arcs i,
      x.1 ∈ offsets trace i ∧ x.1 ∉ s.opsAtStart i := by
    intro i x hx
    rcases mem_foldl_locate hx with ⟨y, hy, hyx⟩ | ⟨hnew, m, d, hmem⟩
    · rw [← hyx]
      exact h.arcs i y hy
    · obtain rfl : i = task := add_mem_changes hmem
      obtain ⟨rfl, o, hdelivered, hlast, ho⟩ := hproper (List.any_eq_true.mpr ⟨_, hmem, rfl⟩)
      have hid : ((i.val, 0) : ThreadId) ∈ trace.threads := List.contains_iff_mem.mp hthread
      have hread := h.related.last (i, 0) hid o hlast
      have hget : fileOffset = o := by
        rw [hoffset]
        show s.reader.lastCurrentThreadsOffsets (i, 0) % uintRange = o
        rw [hread]
        exact Nat.mod_eq_of_lt ho
      rw [hnew, hget]
      exact h.lastRead i o hlast
  have hserved :
      Inv trace (if edits.any adds then s.serve trace (.getOffset (task, thread)) else s) := by
    split
    · next hadds =>
        obtain ⟨rfl, hregular⟩ := hproper hadds
        exact inv_serve h hwell (asks_of_contains hthread rfl) hregular
    · exact h
  have hstart : (if edits.any adds then s.serve trace (.getOffset (task, thread)) else s).opsAtStart =
      s.opsAtStart := by
    split <;> rfl
  rw [← hstart] at harcs
  exact { hserved with arcs := harcs }

theorem inv_restart (h : Inv trace s) (hwell : trace.WellFormed)
    (hranks : ∀ i : Fin n, ((i.val, 0) : ThreadId) ∈ trace.threads)
    (hrebooted : s.simulationRebooted)
    (halong : Along (Ideal.serve (ignoring trace s.opsToBeIgnored))
      (Regular (ignoring trace s.opsToBeIgnored)) s.ideal (resetRequests trace)) :
    Inv trace (s.restart trace) := by
  have hremaining : ∀ id, s.ideal.remaining id ⊆
      (ignoring trace s.opsToBeIgnored).records id := h.remaining
  obtain ⟨hrest, hkept⟩ := foldl_serve hremaining (resetRequests trace)
  have hasks : ∀ q ∈ resetRequests trace, trace.Asks q := by
    intro q hq id hid
    obtain ⟨id', hid', hq⟩ := List.mem_flatMap.mp hq
    simp only [List.mem_cons, List.not_mem_nil, or_false] at hq
    rcases hq with rfl | rfl | rfl
    · rwa [← Option.some.inj hid]
    · rwa [← Option.some.inj hid]
    · rwa [← Option.some.inj hid]
  have hserve : ∀ r ideal q, Related (ignoring trace s.opsToBeIgnored) r ideal →
      trace.Asks q ∧ Regular (ignoring trace s.opsToBeIgnored) ideal q →
      Related (ignoring trace s.opsToBeIgnored) (r.serve (ignoring trace s.opsToBeIgnored) q).1
        (ideal.serve (ignoring trace s.opsToBeIgnored) q).1 := by
    intro r ideal q hrelated hq
    exact (related_serve hrelated hwell (ignoresRecords h.marked) hq.1 hq.2).1
  constructor
  · exact related_foldl_of_simulation hserve h.related
      (halong.imp fun ideal q hq hregular => ⟨hasks q hq, hregular⟩)
  · exact hrest
  · intro i o ho
    have hmem : Request.restartFps (i.val, 0) ∈ resetRequests trace :=
      List.mem_flatMap.mpr ⟨(i, 0), hranks i, List.mem_cons_self⟩
    have hread := hkept (i, 0) (.inr hmem) o ho
    rwa [ignored_ignoring] at hread
  · intro i x hx
    cases hx
  · exact h.marked
  · exact h.nodup
  · exact fun i => List.Subset.refl _
  · exact h.nodup
  · exact fun _ i => List.Subset.refl _
  · intro hfalse
    cases hfalse
  · -- the rank with a new operation ignores more than before
    obtain ⟨i, o, ho, hnew⟩ := h.rebooted hrebooted
    have hle : ∀ j, (s.opsAtStart j).length ≤ (s.opsToBeIgnored j).length :=
      fun j => (List.subperm_of_subset (h.nodupStart j) (h.start j)).length_le
    have hlt : (s.opsAtStart i).length < (s.opsToBeIgnored i).length := by
      have hnodup : (o :: s.opsAtStart i).Nodup := List.nodup_cons.mpr ⟨hnew, h.nodupStart i⟩
      exact (List.subperm_of_subset hnodup (List.cons_subset.mpr ⟨ho, h.start i⟩)).length_le
    calc s.rebootsCounter + 1 ≤ ∑ j, (s.opsAtStart j).length + 1 := Nat.succ_le_succ h.bound
      _ ≤ ∑ j, (s.opsToBeIgnored j).length :=
        Finset.sum_lt_sum (fun j _ => hle j) ⟨i, Finset.mem_univ i, hlt⟩

/-- An event marks nothing, or the operation of an arc of the chain that it closes. -/
theorem eventMarks_cases {task : Fin n} {thread pos : Nat} {op : Operation n}
    (h : s.eventMarks trace communicator task thread op pos = some ms) :
    ms = [] ∨ ∃ found ∈ s.closedChain communicator task op, pos + 1 < found.size ∧
      ∃ x ∈ (blockingArcs (s.update trace communicator task thread op).arcs (found.chain pos)
        (found.chain (pos + 1))).head?, ms = [(found.chain pos, x.1)] := by
  simp only [Simulation.eventMarks, Option.bind_eq_bind, Option.bind_eq_some_iff] at h
  obtain ⟨⟨g, res⟩, hstate, h⟩ := h
  cases res with
  | true =>
      right
      obtain ⟨found, hfound, h⟩ := Option.bind_eq_some_iff.mp h
      split at h
      · next hsize =>
          obtain ⟨m, hm, rfl⟩ := Option.map_eq_some_iff.mp h
          obtain ⟨x, hx, rfl⟩ := Option.map_eq_some_iff.mp hm
          refine ⟨found, ?_, hsize, x, hx, rfl⟩
          rw [Simulation.closedChain, Option.bind_eq_bind, hstate, Option.bind_some]
          exact hfound
      · cases h
  | false => exact .inl (Option.some.inj h).symm

theorem inv_eventMarks {task : Fin n} {thread pos : Nat} {op : Operation n}
    (h : Inv trace (s.update trace communicator task thread op))
    (hanew : BreaksAnew trace communicator s task thread op pos)
    (hms : s.eventMarks trace communicator task thread op pos = some ms) :
    Inv trace ((s.update trace communicator task thread op).mark ms) := by
  obtain ⟨hops, hrebooted⟩ := update_ops trace communicator s task thread op
  rcases eventMarks_cases hms with rfl | ⟨found, hfound, hsize, x, hx, rfl⟩
  · exact inv_mark h (fun m hm => nomatch hm) List.nodup_nil fun _ m hm => nomatch hm
  · apply inv_mark h
    · intro m hm
      obtain rfl := List.mem_singleton.mp hm
      exact ⟨x, List.mem_of_mem_filter (List.mem_of_mem_head? hx), rfl⟩
    · exact List.nodup_singleton _
    · intro hagain m hm
      obtain rfl := List.mem_singleton.mp hm
      rw [hrebooted] at hagain
      rw [hops]
      exact hanew hagain found hfound hsize x hx

theorem inv_finalizedMarks {task : Fin n} (h : Inv trace s)
    (hunmarked : ∀ i, i ≠ task → Unmarked s i (blockingArcs s.arcs i task)) :
    Inv trace (s.mark (finalizedMarks s.arcs task)) := by
  apply inv_mark h fun m hm => mem_of_finalizedMarks hm
  · exact nodup_finalizedMarks fun i hi => (hunmarked i hi).1
  · intro hagain m hm
    obtain ⟨hne, x, hx, hoffset⟩ := blocking_of_finalizedMarks hm
    rw [← hoffset]
    exact (hunmarked m.1 hne).2 hagain x hx

theorem inv_endMarks (h : Inv trace s)
    (hnodup : s.simulationRebooted = false → ∀ i, ((s.arcs i).map Prod.fst).Nodup) :
    Inv trace (s.mark s.endMarks) := by
  cases hrebooted : s.simulationRebooted with
  | true =>
      have hnone : s.endMarks = [] := if_pos hrebooted
      rw [hnone]
      exact inv_mark h (fun m hm => nomatch hm) List.nodup_nil fun _ m hm => nomatch hm
  | false =>
      have hall : s.endMarks = TraceOperations.endMarks s.arcs := if_neg (by simp [hrebooted])
      rw [hall]
      apply inv_mark h fun m hm => mem_of_endMarks hm
      · exact nodup_endMarks (hnodup hrebooted)
      · intro hagain
        rw [hrebooted] at hagain
        cases hagain

theorem inv_step (hwell : trace.WellFormed)
    (hranks : ∀ i : Fin n, ((i.val, 0) : ThreadId) ∈ trace.threads) {l : Label n}
    (h : Inv trace s) (hproper : Proper trace communicator s l)
    (hstep : ofPartial (next trace communicator) s l s') : Inv trace s' := by
  unfold ofPartial next at hstep
  cases l with
  | read id =>
      simp only at hstep
      split at hstep
      · next hid =>
          obtain rfl := Option.some.inj hstep
          have hregular : Regular (ignoring trace s.opsToBeIgnored) s.ideal (.readAction id) :=
            hproper
          exact inv_serve h hwell (asks_of_contains hid rfl) hregular
      · cases hstep
  | deliver id =>
      simp only at hstep
      split at hstep
      · next hid =>
          obtain rfl := Option.some.inj hstep
          have hregular : Regular (ignoring trace s.opsToBeIgnored) s.ideal (.deliver id) :=
            trivial
          exact inv_serve h hwell (asks_of_contains hid rfl) hregular
      · cases hstep
  | event task thread op pos =>
      obtain ⟨hadds, hanew⟩ := hproper
      simp only at hstep
      split at hstep
      · next hthread =>
          obtain ⟨ms, hms, rfl⟩ := Option.map_eq_some_iff.mp hstep
          exact inv_eventMarks (inv_update h hwell hthread hadds) hanew hms
      · cases hstep
  | finalized task =>
      obtain rfl := Option.some.inj hstep
      exact inv_finalizedMarks h hproper
  | endOfSimulation =>
      obtain ⟨hnodup, halong⟩ := hproper
      simp only at hstep
      split at hstep
      · next hrebooted =>
          obtain rfl := Option.some.inj hstep
          exact inv_restart (inv_endMarks h hnodup) hwell hranks hrebooted halong
      · cases hstep

/-- What a step marks are different records of the first threads, and a restart is made with an
operation that was not marked when the simulation started. -/
structure MarksRecords (trace : Trace α) (t : Transition (Simulation n α) (Label n)) : Prop where
  records : ∀ i, t.post.opsToBeIgnored i ⊆ offsets trace i
  once : ∀ i, (t.post.opsToBeIgnored i).Nodup
  kept : ∀ i, t.pre.opsToBeIgnored i ⊆ t.post.opsToBeIgnored i
  restart : t.label = .endOfSimulation →
    ∃ i, ∃ o ∈ t.post.opsAtStart i, o ∉ t.pre.opsAtStart i

theorem opsToBeIgnored_subset {l : Label n}
    (hstep : ofPartial (next trace communicator) s l s') (i : Fin n) :
    s.opsToBeIgnored i ⊆ s'.opsToBeIgnored i := by
  have hmark : ∀ (s : Simulation n α) (ms : List (Marked n)),
      s.opsToBeIgnored i ⊆ (s.mark ms).opsToBeIgnored i :=
    fun s ms o ho => mem_foldl_insertOperation.mpr (.inr ho)
  unfold ofPartial next at hstep
  cases l with
  | read id =>
      simp only at hstep
      split at hstep
      · obtain rfl := Option.some.inj hstep
        exact List.Subset.refl _
      · cases hstep
  | deliver id =>
      simp only at hstep
      split at hstep
      · obtain rfl := Option.some.inj hstep
        exact List.Subset.refl _
      · cases hstep
  | event task thread op pos =>
      simp only at hstep
      split at hstep
      · obtain ⟨ms, -, rfl⟩ := Option.map_eq_some_iff.mp hstep
        rw [← (update_ops trace communicator s task thread op).1]
        exact hmark _ ms
      · cases hstep
  | finalized task =>
      obtain rfl := Option.some.inj hstep
      exact hmark s _
  | endOfSimulation =>
      simp only at hstep
      split at hstep
      · obtain rfl := Option.some.inj hstep
        exact hmark s s.endMarks
      · cases hstep

theorem restart_marks (h : Inv trace s) (hproper : Proper trace communicator s .endOfSimulation)
    (hstep : ofPartial (next trace communicator) s .endOfSimulation s') :
    ∃ i, ∃ o ∈ s'.opsAtStart i, o ∉ s.opsAtStart i := by
  have hmark := inv_endMarks h hproper.1
  unfold ofPartial next at hstep
  simp only at hstep
  split at hstep
  · next hrebooted =>
      obtain rfl := Option.some.inj hstep
      exact hmark.rebooted hrebooted
  · cases hstep

/-- In a run whose steps are proper the simulation is not restarted more often than there are
records. -/
theorem restarts_end (hwell : trace.WellFormed)
    (hranks : ∀ i : Fin n, ((i.val, 0) : ThreadId) ∈ trace.threads) (lastOffsets : ThreadId → Nat)
    {tr : List (Transition (Simulation n α) (Label n))}
    (hrun : Run (ofPartial (next trace communicator)) (.initial trace lastOffsets) tr s)
    (hproper : ∀ t ∈ tr, Proper trace communicator t.pre t.label) :
    (∀ t ∈ tr, MarksRecords trace t) ∧
      s.rebootsCounter ≤ ∑ i : Fin n, (trace.records (i, 0)).length := by
  have hstep : ∀ s l s', Inv trace s → Proper trace communicator s l →
      ofPartial (next trace communicator) s l s' → Inv trace s' :=
    fun s l s' h hguard hlast => inv_step hwell hranks h hguard hlast
  constructor
  · intro t ht
    obtain ⟨hpre, hpost, hlast⟩ :=
      hrun.transition_of_guard (inv_initial hwell lastOffsets) hstep hproper t ht
    constructor
    · exact hpost.marked
    · exact hpost.nodup
    · exact opsToBeIgnored_subset hlast
    · intro hlabel
      have hguard := hproper t ht
      rw [hlabel] at hguard hlast
      exact restart_marks hpre hguard hlast
  · have hlast := hrun.invariant_of_guard (inv_initial hwell lastOffsets) hstep hproper
    apply hlast.bound.trans
    apply Finset.sum_le_sum
    intro i _
    have hsub := List.Subset.trans (hlast.start i) (hlast.marked i)
    have hle := (List.subperm_of_subset (hlast.nodupStart i) hsub).length_le
    rwa [offsets, List.length_map] at hle

end

def neverSent (task ori : Fin 2) : Label 2 := .event task 0 (.recv ori (5, 1)) 0

def runOf (ls : List (Label 2)) : Option
    (List (Transition (Simulation 2 Char) (Label 2)) × Simulation 2 Char) :=
  exec (next (oneStream []) fun _ => []) (.initial (oneStream []) fun _ => 0) ls

theorem hasThreads_oneStream :
    ∀ i : Fin 2, ((i.val, 0) : ThreadId) ∈ (oneStream []).threads := by
  decide

/-- The receive is marked at the end of the first simulation. -/
theorem restarts_end_once :
    ((runOf [.read (0, 0), .deliver (0, 0), neverSent 0 1, .endOfSimulation]).get
        (by decide)).2.rebootsCounter ≤
      ∑ i : Fin 2, ((oneStream []).records (i, 0)).length := by
  apply (restarts_end (wellFormed_oneStream []) hasThreads_oneStream (fun _ => 0)
    (run_exec_get _) _).2
  decide +kernel

/-- Two receives that follow each other: the second one is executed and marked again and again. -/
theorem not_restarts_end :
    ¬ ∀ (trace : Trace Char) (communicator : Nat → List (Fin 2)) (lastOffsets : ThreadId → Nat)
      (tr : List (Transition (Simulation 2 Char) (Label 2))) (s : Simulation 2 Char),
      trace.WellFormed → (∀ i : Fin 2, ((i.val, 0) : ThreadId) ∈ trace.threads) →
      Run (ofPartial (next trace communicator)) (.initial trace lastOffsets) tr s →
      (∀ t ∈ tr, MarksRecords trace t) ∧
        s.rebootsCounter ≤ ∑ i : Fin 2, (trace.records (i, 0)).length := by
  intro h
  have hexec : (runOf [.read (0, 0), .deliver (0, 0), neverSent 0 1, .endOfSimulation, neverSent 0 1,
    .endOfSimulation, neverSent 0 1, .endOfSimulation, neverSent 0 1, .endOfSimulation, neverSent 0 1,
    .endOfSimulation]).isSome := by decide +kernel
  have hbound := (h (oneStream []) (fun _ => []) (fun _ => 0) _ _ (wellFormed_oneStream [])
    hasThreads_oneStream (run_exec_get hexec)).2
  revert hexec hbound
  decide +kernel

end Dimemas.Utils.Restarts
