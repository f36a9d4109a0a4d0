import Mathlib.Data.List.Perm.Subperm
import Dimemas.Utils.QueueCursor
/-!
# The representatives of a collective operation

`GLOBAL_operation` gathers the members of a communicator in its queue `threads`. The last one
moves one member for each machine to `machines_threads`, and these reserve the resources of their
machines. Each comes back to `threads` when it has them, in `global_op_get_all_in_links`, which
starts the operation when the whole communicator is there.
-/

namespace Dimemas.Model.CollectiveRepresentatives

open Dimemas.Library.LinkedList
open Dimemas.Utils.ListQueue
open Dimemas.Utils.QueueCursor

/-- The members of a communicator and the machines of their nodes. `unset` is what an item has for
a priority that was never set. -/
structure Placement where
  members : List Nat
  machine : Nat → Int
  unset : Int
  nodup : members.Nodup

def Placement.size (P : Placement) : Nat := P.members.length

/-- A `t_queue` of threads, with the items it is made of. -/
structure ThreadQueue where
  heap : Heap Int Nat
  queue : TQueue

/-- The fields of `t_communicator` for blocking operations. -/
structure Communicator where
  threads : ThreadQueue
  machinesThreads : ThreadQueue
  currentRoot : Option Nat

def Communicator.create : Communicator := ⟨⟨.empty, createQueue⟩, ⟨.empty, createQueue⟩, none⟩

/-- `insert_queue (comm_machine_threads, others, machine)` and
`extract_from_queue (threads_queue, others)`. -/
def takeThread (P : Placement) (c : Communicator) (others : Nat) : Option Communicator := do
  let (mheap, mqueue) ←
    insertQueue c.machinesThreads.heap c.machinesThreads.queue others (P.machine others)
  let (theap, tqueue) ← extractFromQueue c.threads.heap c.threads.queue others
  some { c with threads := ⟨theap, tqueue⟩, machinesThreads := ⟨mheap, mqueue⟩ }

/-- What an iteration of the selection loop does with the thread `others`. -/
def selectOne (P : Placement) (c : Communicator) (others : Nat) : Option Communicator := do
  let used ← queryPrioQueue c.machinesThreads.heap c.machinesThreads.queue (P.machine others)
  match used with
  | none => takeThread P c others
  | some _ => some c

def headThread (c : Communicator) : Option (Communicator × Option Nat) := do
  let (queue, others) ← headQueue c.threads.heap c.threads.queue
  some ({ c with threads := ⟨c.threads.heap, queue⟩ }, others)

/-- The end of an iteration that has `remaining` others after it. -/
def nextThread (c : Communicator) (remaining : Nat) : Option (Communicator × Option Nat) := do
  let (queue, others) ← nextQueue c.threads.heap c.threads.queue
  let c := { c with threads := ⟨c.threads.heap, queue⟩ }
  match others with
  | none => if 1 ≤ remaining then headThread c else some (c, none)
  | some others => some (c, some others)

/-- The selection loop. `get_node_of_thread` reads through its argument. -/
def selectThreads (P : Placement) : Nat → Communicator → Option Nat → Option Communicator
  | 0, c, _ => some c
  | remaining + 1, c, others => do
      let here ← others
      let c ← selectOne P c here
      let (c, others) ← nextThread c remaining
      selectThreads P remaining c others

def setRoot (c : Communicator) (thread : Nat) (rootRank : Bool) : Communicator :=
  if rootRank then { c with currentRoot := some thread } else c

/-- `GLOBAL_operation`. The threads that it calls `global_op_get_all_buses` for are returned, and
are none where it blocks. -/
def globalOperation (P : Placement) (c : Communicator) (thread : Nat) (rootRank : Bool) :
    Option (Communicator × List Nat) := do
  let c := setRoot c thread rootRank
  if (P.size : Int) ≠ countQueue c.threads.queue + 1 then
    let (heap, queue) ← inFifoQueue P.unset c.threads.heap c.threads.queue thread
    some ({ c with threads := ⟨heap, queue⟩ }, [])
  else
    let (heap, queue) ← inFifoQueue P.unset c.threads.heap c.threads.queue thread
    let others := c.currentRoot.getD thread
    let c ← takeThread P { c with threads := ⟨heap, queue⟩, currentRoot := some others } others
    let (c, others) ← headThread c
    let c ← selectThreads P (P.size - 1) c others
    let visited ← visitQueue c.machinesThreads.heap c.machinesThreads.queue
    some (c, visited)

/-- `global_op_get_all_in_links`. The second result is whether it calls `start_global_op`. -/
def globalOpGetAllInLinks (P : Placement) (c : Communicator) (thread : Nat) :
    Option (Communicator × Bool) := do
  let (heap, queue) ← inFifoQueue P.unset c.threads.heap c.threads.queue thread
  some ({ c with threads := ⟨heap, queue⟩ }, countQueue queue = (P.size : Int))

def freeGlobalCommunicationResources (c : Communicator) : Option Communicator := do
  let q := c.machinesThreads
  let (heap, queue) ← drain (scanFuel q.queue) q.heap q.queue
  some { c with machinesThreads := ⟨heap, queue⟩ }

def closeGlobalCommunication (c : Communicator) : Option Communicator := do
  let q := c.threads
  let (heap, queue) ← drain (scanFuel q.queue) q.heap q.queue
  some { c with threads := ⟨heap, queue⟩, currentRoot := none }

/-! ## Runs -/

/-- `inside` are the threads that are in an operation, and `pending` those that still have
resources to reserve for it. -/
structure State where
  communicator : Communicator
  inside : List Nat
  pending : List Nat
  started : Bool
  freed : Bool

def State.init : State := ⟨.create, [], [], false, false⟩

inductive Event where
  | enter (thread : Nat) (rootRank : Bool)
  | reserve (thread : Nat)
  | free
  | close
deriving DecidableEq, Repr

def step (P : Placement) (s : State) : Event → Option State
  | .enter thread rootRank => do
      let (c, visited) ← globalOperation P s.communicator thread rootRank
      some { s with communicator := c, inside := thread :: s.inside, pending := visited }
  | .reserve thread => do
      let (c, starts) ← globalOpGetAllInLinks P s.communicator thread
      some { s with communicator := c, pending := s.pending.erase thread, started := starts }
  | .free => do
      let c ← freeGlobalCommunicationResources s.communicator
      some { s with communicator := c, freed := true }
  | .close => do
      let c ← closeGlobalCommunication s.communicator
      some { communicator := c, inside := [], pending := [], started := false, freed := false }

/-- A thread enters when it is not in the operation already, a representative gets its resources
once, and an operation ends after it has started. -/
def Enabled (P : Placement) (s : State) : Event → Prop
  | .enter thread _ => thread ∈ P.members ∧ thread ∉ s.inside
  | .reserve thread => thread ∈ s.pending
  | .free => s.started = true ∧ s.freed = false
  | .close => s.freed = true

inductive Reachable (P : Placement) : State → Prop
  | init : Reachable P .init
  | step {s s' : State} (e : Event) (hs : Reachable P s) (he : Enabled P s e)
      (hrun : step P s e = some s') : Reachable P s'

/-- The state after the threads `rs` got their resources one after the other. -/
def reserveAll (P : Placement) : State → List Nat → Option State
  | s, [] => some s
  | s, r :: rs => (step P s (.reserve r)).bind fun s => reserveAll P s rs

/-! ## The selection -/

variable {P : Placement} {c : Communicator} {reps passed : List Nat} {x : Entry Int Nat}
variable {pre rest xs : List (Entry Int Nat)}

/-- The representatives `reps` are in `machines_threads`, one for each machine, and the machine of
every thread of `passed` has one. -/
structure Selected (P : Placement) (c : Communicator) (passed reps : List Nat) : Prop where
  machines : Holds c.machinesThreads.heap c.machinesThreads.queue
    (reps.map fun r => (P.machine r, r))
  distinct : (reps.map P.machine).Nodup
  covered : ∀ t ∈ passed, P.machine t ∈ reps.map P.machine

def contents (xs : List (Entry Int Nat)) : List Nat := xs.map fun x => x.2.2

theorem contents_append (xs ys : List (Entry Int Nat)) :
    contents (xs ++ ys) = contents xs ++ contents ys :=
  List.map_append

theorem contents_cons (x : Entry Int Nat) (xs : List (Entry Int Nat)) :
    contents (x :: xs) = x.2.2 :: contents xs := rfl

theorem holds_insertRepresentative {h : Heap Int Nat} {q : TQueue}
    (hq : Holds h q (reps.map fun r => (P.machine r, r))) (t : Nat) :
    ∃ (h' : Heap Int Nat) (q' : TQueue) (reps' : List Nat),
      insertQueue h q t (P.machine t) = some (h', q') ∧
      Holds h' q' (reps'.map fun r => (P.machine r, r)) ∧ reps'.Perm (t :: reps) := by
  obtain ⟨h', q', heq, hq'⟩ := holds_insertBehind hq (fun k => k ≤ P.machine t) (P.machine t) t
  rw [List.takeWhile_map, List.dropWhile_map] at hq'
  refine ⟨h', q', reps.takeWhile (fun r => P.machine r ≤ P.machine t) ++
    t :: reps.dropWhile (fun r => P.machine r ≤ P.machine t), heq, ?_, ?_⟩
  · rw [List.map_append, List.map_cons]
    exact hq'
  · have hsplit := @List.takeWhile_append_dropWhile _
      (fun r => decide (P.machine r ≤ P.machine t)) reps
    have hmiddle := @List.perm_middle _ t
      (reps.takeWhile fun r => decide (P.machine r ≤ P.machine t))
      (reps.dropWhile fun r => decide (P.machine r ≤ P.machine t))
    rwa [hsplit] at hmiddle

theorem query_representative (hsel : Selected P c passed reps) (t : Nat) :
    ∃ used, queryPrioQueue c.machinesThreads.heap c.machinesThreads.queue (P.machine t) =
      some used ∧ (used = none ↔ P.machine t ∉ reps.map P.machine) := by
  refine ⟨_, holds_queryPrioQueue hsel.machines (P.machine t), ?_⟩
  rw [Option.map_eq_none_iff, List.find?_eq_none]
  constructor
  · intro hnone hmem
    obtain ⟨r, hr, heq⟩ := List.mem_map.mp hmem
    exact hnone _ (List.mem_map.mpr ⟨r, hr, rfl⟩) (decide_eq_true heq)
  · intro hnew y hy hfound
    obtain ⟨r, hr, rfl⟩ := List.mem_map.mp hy
    exact hnew (List.mem_map.mpr ⟨r, hr, of_decide_eq_true hfound⟩)

theorem takeThread_selected (hsel : Selected P c passed reps) {t : Nat} {h : Heap Int Nat}
    {q : TQueue} (hnew : P.machine t ∉ reps.map P.machine)
    (hextract : extractFromQueue c.threads.heap c.threads.queue t = some (h, q)) :
    ∃ c' reps', takeThread P c t = some c' ∧ c'.threads = ⟨h, q⟩ ∧
      c'.currentRoot = c.currentRoot ∧ Selected P c' passed reps' ∧ reps'.Perm (t :: reps) := by
  obtain ⟨h', q', reps', hinsert, hholds, hperm⟩ := holds_insertRepresentative hsel.machines t
  have hmap := hperm.map P.machine
  refine ⟨{ c with threads := ⟨h, q⟩, machinesThreads := ⟨h', q'⟩ }, reps', ?_, rfl, rfl,
    ⟨hholds, ?_, ?_⟩, hperm⟩
  · rw [takeThread, hinsert]
    show (extractFromQueue c.threads.heap c.threads.queue t).bind _ = _
    rw [hextract]
    rfl
  · exact hmap.nodup_iff.mpr (List.nodup_cons.mpr ⟨hnew, hsel.distinct⟩)
  · intro y hy
    exact hmap.mem_iff.mpr (List.mem_cons_of_mem _ (hsel.covered y hy))

theorem headThread_cursor (hrep : QueueRep c.threads.heap c.threads.queue xs) :
    ∃ c', headThread c = some (c', xs.head?.map fun x => x.2.2) ∧
      AtCursor c'.threads.heap c'.threads.queue [] xs ∧
      c'.machinesThreads = c.machinesThreads ∧ c'.currentRoot = c.currentRoot := by
  obtain ⟨hhead, hat⟩ := QueueRep.headQueue hrep
  let q := { c.threads.queue with curr := c.threads.queue.first }
  refine ⟨{ c with threads := ⟨c.threads.heap, q⟩ }, ?_, hat, rfl, rfl⟩
  rw [headThread, hhead]
  rfl

theorem nextThread_cursor (hrep : QueueRep c.threads.heap c.threads.queue (pre ++ rest))
    (hcurr : c.threads.queue.curr = pre.getLast?.map Prod.fst) :
    ∃ c', nextThread c rest.length = some (c', rest.head?.map fun x => x.2.2) ∧
      AtCursor c'.threads.heap c'.threads.queue pre rest ∧
      c'.machinesThreads = c.machinesThreads ∧ c'.currentRoot = c.currentRoot := by
  rcases List.eq_nil_or_concat pre with hnil | ⟨init, y, hconcat⟩
  · -- the first item was extracted, or the queue is empty
    subst hnil
    have hnext := @nextQueue_null _ _ c.threads.heap _ hcurr
    cases rest with
    | nil =>
        refine ⟨c, ?_, ⟨hrep, hcurr⟩, rfl, rfl⟩
        rw [nextThread, hnext]
        rfl
    | cons x rest =>
        obtain ⟨c', hhead, hat, hmachines, hroot⟩ := headThread_cursor hrep
        refine ⟨c', ?_, hat, hmachines, hroot⟩
        rw [nextThread, hnext]
        show (if 1 ≤ rest.length + 1 then headThread c else some (c, none)) = _
        rw [if_pos (Nat.le_add_left 1 rest.length)]
        exact hhead
  · subst hconcat
    rw [List.concat_eq_append] at hrep hcurr
    rw [List.getLast?_concat] at hcurr
    rw [List.append_assoc] at hrep
    obtain ⟨q', hnext, hat⟩ := AtCursor.nextQueue ⟨hrep, hcurr⟩
    refine ⟨{ c with threads := ⟨c.threads.heap, q'⟩ }, ?_, ?_, rfl, rfl⟩
    · rw [nextThread, hnext]
      cases rest with
      | nil => rfl
      | cons x rest => rfl
    · rw [List.concat_eq_append]
      exact hat

theorem select_step (hat : AtCursor c.threads.heap c.threads.queue pre (x :: rest))
    (hnodup : (contents (pre ++ x :: rest)).Nodup) (hsel : Selected P c (contents pre) reps) :
    ∃ (c₁ c' : Communicator) (pre' : List (Entry Int Nat)) (reps' : List Nat),
      selectOne P c x.2.2 = some c₁ ∧
      nextThread c₁ rest.length = some (c', rest.head?.map fun x => x.2.2) ∧
      AtCursor c'.threads.heap c'.threads.queue pre' rest ∧
      (contents (pre' ++ rest)).Nodup ∧ Selected P c' (contents pre') reps' ∧
      (contents pre' ++ reps').Perm (x.2.2 :: (contents pre ++ reps)) ∧ reps ⊆ reps' ∧
      c'.currentRoot = c.currentRoot := by
  obtain ⟨used, hquery, hused⟩ := query_representative hsel x.2.2
  by_cases hnew : P.machine x.2.2 ∉ reps.map P.machine
  · -- the thread becomes the representative of its machine
    have hnone := hused.mpr hnew
    subst hnone
    have hfresh : x.2.2 ∉ contents pre ++ contents rest := by
      rw [contents_append, contents_cons] at hnodup
      exact (List.nodup_cons.mp (List.nodup_middle.mp hnodup)).1
    have hbefore : ∀ y ∈ pre, y.2.2 ≠ x.2.2 := by
      intro y hy heq
      exact hfresh (List.mem_append_left _ (List.mem_map.mpr ⟨y, hy, heq⟩))
    obtain ⟨h, q, hextract, hrep, hcurr⟩ := AtCursor.extractFromQueue hat hbefore
    obtain ⟨c₁, reps', htake, hthreads, hroot, hsel', hperm⟩ :=
      takeThread_selected hsel hnew hextract
    rw [show h = c₁.threads.heap by rw [hthreads], show q = c₁.threads.queue by rw [hthreads]]
      at hrep
    have hcurr₁ : c₁.threads.queue.curr = pre.getLast?.map Prod.fst := by
      rw [hthreads]
      exact hcurr
    obtain ⟨c', hnext, hat', hmachines, hroot'⟩ := nextThread_cursor hrep hcurr₁
    refine ⟨c₁, c', pre, reps', ?_, hnext, hat', ?_, ?_, ?_, ?_, hroot'.trans hroot⟩
    · rw [selectOne, hquery]
      exact htake
    · rw [contents_append, contents_cons] at hnodup
      rw [contents_append]
      exact (List.nodup_cons.mp (List.nodup_middle.mp hnodup)).2
    · exact ⟨by rw [hmachines]; exact hsel'.machines, hsel'.distinct, hsel'.covered⟩
    · exact (hperm.append_left _).trans List.perm_middle
    · intro r hr
      exact hperm.mem_iff.mpr (List.mem_cons_of_mem _ hr)
  · -- its machine has one
    obtain ⟨r, hr⟩ := Option.ne_none_iff_exists'.mp fun hnone => hnew (hused.mp hnone)
    subst hr
    have hsplit : pre ++ x :: rest = (pre ++ [x]) ++ rest := List.append_cons ..
    have hcurr : c.threads.queue.curr = (pre ++ [x]).getLast?.map Prod.fst := by
      rw [List.getLast?_concat]
      exact hat.curr
    have hrep := hat.rep
    rw [hsplit] at hrep hnodup
    obtain ⟨c', hnext, hat', hmachines, hroot⟩ := nextThread_cursor hrep hcurr
    refine ⟨c, c', pre ++ [x], reps, ?_, hnext, hat', hnodup, ?_, ?_, List.Subset.refl _, hroot⟩
    · rw [selectOne, hquery]
      rfl
    · refine ⟨by rw [hmachines]; exact hsel.machines, hsel.distinct, ?_⟩
      intro t ht
      rw [contents_append] at ht
      rcases List.mem_append.mp ht with hpre | hx
      · exact hsel.covered t hpre
      · rw [List.mem_singleton.mp hx]
        exact not_not.mp hnew
    · rw [contents_append, List.append_assoc]
      exact List.perm_middle

theorem selectThreads_spec (hat : AtCursor c.threads.heap c.threads.queue pre rest)
    (hnodup : (contents (pre ++ rest)).Nodup) (hsel : Selected P c (contents pre) reps) :
    ∃ (c' : Communicator) (kept reps' : List Nat),
      selectThreads P rest.length c (rest.head?.map fun x => x.2.2) = some c' ∧
      Spells c'.threads.heap c'.threads.queue kept ∧ Selected P c' kept reps' ∧
      (kept ++ reps').Perm (contents rest ++ (contents pre ++ reps)) ∧ reps ⊆ reps' ∧
      c'.currentRoot = c.currentRoot := by
  induction rest generalizing c pre reps with
  | nil =>
      have hspells := hat.rep
      rw [List.append_nil] at hspells
      exact ⟨c, contents pre, reps, rfl, ⟨pre, hspells, rfl⟩, hsel, .refl _, List.Subset.refl _, rfl⟩
  | cons x rest ih =>
      obtain ⟨c₁, c₂, pre', reps₁, hone, hnext, hat', hnodup', hsel', hperm, hsub, hroot⟩ :=
        select_step hat hnodup hsel
      obtain ⟨c', kept, reps', hrun, hspells, hsel'', hperm', hsub', hroot'⟩ :=
        ih hat' hnodup' hsel'
      refine ⟨c', kept, reps', ?_, hspells, hsel'', ?_, List.Subset.trans hsub hsub',
        hroot'.trans hroot⟩
      · show (selectOne P c x.2.2).bind _ = _
        rw [hone]
        show (nextThread c₁ rest.length).bind _ = _
        rw [hnext]
        exact hrun
      · rw [contents_cons]
        exact hperm'.trans ((hperm.append_left _).trans List.perm_middle)

/-! ## The last member -/

/-- The root of the operation that the last member `thread` completes. -/
def chosenRoot (c : Communicator) (thread : Nat) (rootRank : Bool) : Nat :=
  if rootRank then thread else c.currentRoot.getD thread

/-- `machines_threads` holds one member for each machine that hosts one, the root among them, and
`threads` holds the other members. -/
structure OnePerMachine (P : Placement) (c : Communicator) (root : Nat) (kept reps : List Nat) :
    Prop where
  machines : Holds c.machinesThreads.heap c.machinesThreads.queue
    (reps.map fun r => (P.machine r, r))
  threads : Spells c.threads.heap c.threads.queue kept
  distinct : (reps.map P.machine).Nodup
  hosts : ∀ t ∈ P.members, P.machine t ∈ reps.map P.machine
  root_eq : c.currentRoot = some root
  root_mem : root ∈ reps
  all : (kept ++ reps).Perm P.members

variable {cs : List Nat} {t : Nat} {rootRank : Bool}

theorem setRoot_threads (c : Communicator) (t : Nat) (rootRank : Bool) :
    (setRoot c t rootRank).threads = c.threads := by
  cases rootRank with
  | false => rfl
  | true => rfl

theorem setRoot_machinesThreads (c : Communicator) (t : Nat) (rootRank : Bool) :
    (setRoot c t rootRank).machinesThreads = c.machinesThreads := by
  cases rootRank with
  | false => rfl
  | true => rfl

theorem setRoot_getD (c : Communicator) (t : Nat) (rootRank : Bool) :
    (setRoot c t rootRank).currentRoot.getD t = chosenRoot c t rootRank := by
  cases rootRank with
  | false => rfl
  | true => rfl

theorem setRoot_mem {r : Nat} (hr : r ∈ (setRoot c t rootRank).currentRoot) :
    r = t ∨ r ∈ c.currentRoot := by
  cases rootRank with
  | false => exact .inr hr
  | true => exact .inl (Option.mem_some_iff.mp hr).symm

theorem globalOperation_blocks (hthreads : Spells c.threads.heap c.threads.queue cs)
    (hsize : cs.length + 1 ≠ P.size) (t : Nat) (rootRank : Bool) :
    ∃ c', globalOperation P c t rootRank = some (c', []) ∧
      Spells c'.threads.heap c'.threads.queue (cs ++ [t]) ∧
      c'.machinesThreads = c.machinesThreads ∧
      c'.currentRoot = (setRoot c t rootRank).currentRoot := by
  have hcount := hthreads.countQueue
  have hblock : (P.size : Int) ≠ countQueue c.threads.queue + 1 := by omega
  obtain ⟨h, q, hin, hspells⟩ := hthreads.inFifoQueue P.unset t
  refine ⟨{ setRoot c t rootRank with threads := ⟨h, q⟩ }, ?_, hspells,
    setRoot_machinesThreads c t rootRank, rfl⟩
  rw [globalOperation]
  simp only [setRoot_threads]
  rw [if_pos hblock, hin]
  rfl

theorem chosenRoot_mem (hroot : ∀ r ∈ c.currentRoot, r ∈ cs) (t : Nat) (rootRank : Bool) :
    chosenRoot c t rootRank ∈ cs ++ [t] := by
  have hlast : t ∈ cs ++ [t] := List.mem_append_right cs (List.mem_singleton_self t)
  cases rootRank with
  | true => exact hlast
  | false =>
      show c.currentRoot.getD t ∈ cs ++ [t]
      cases hcurrent : c.currentRoot with
      | none => exact hlast
      | some r => exact List.mem_append_left [t] (hroot r hcurrent)

/-- `extract_from_queue` takes one thread away from the contents. -/
theorem contents_eraseP {r : Nat} (hmem : r ∈ contents xs) :
    (r :: contents (xs.eraseP fun x => x.2.2 = r)).Perm (contents xs) := by
  obtain ⟨y, hy, hyr⟩ := List.mem_map.mp hmem
  obtain ⟨z, l₁, l₂, -, hz, hxs, herase⟩ :=
    @List.exists_of_eraseP _ (fun x => decide (x.2.2 = r)) _ _ hy (decide_eq_true hyr)
  rw [herase, hxs, contents_append, contents_append, contents_cons, of_decide_eq_true hz]
  exact List.perm_middle.symm

theorem globalOperation_last (hthreads : Spells c.threads.heap c.threads.queue cs)
    (hmachines : Holds c.machinesThreads.heap c.machinesThreads.queue [])
    (hroot : ∀ r ∈ c.currentRoot, r ∈ cs) (hall : (t :: cs).Perm P.members) (rootRank : Bool) :
    ∃ c' kept reps, globalOperation P c t rootRank = some (c', reps) ∧
      OnePerMachine P c' (chosenRoot c t rootRank) kept reps := by
  have hcount := hthreads.countQueue
  have hlength : cs.length + 1 = P.size := hall.length_eq
  have hnoblock : ¬ (P.size : Int) ≠ countQueue c.threads.queue + 1 := by omega
  obtain ⟨h, q, hin, xs, hrep, hxs⟩ := hthreads.inFifoQueue P.unset t
  let root := chosenRoot c t rootRank
  let c₀ : Communicator :=
    { setRoot c t rootRank with threads := ⟨h, q⟩, currentRoot := some root }
  have hcontents : (contents xs).Perm P.members := by
    rw [show contents xs = cs ++ [t] from hxs]
    exact (List.perm_append_singleton t cs).trans hall
  have hmember : root ∈ contents xs := by
    rw [show contents xs = cs ++ [t] from hxs]
    exact chosenRoot_mem hroot t rootRank
  have herase := (contents_eraseP hmember).trans hcontents
  have hothers := (List.nodup_cons.mp (herase.nodup_iff.mpr P.nodup)).2
  have hlength₁ : (xs.eraseP fun x => x.2.2 = root).length = P.size - 1 := by
    have heq := herase.length_eq
    rw [List.length_cons, contents, List.length_map] at heq
    exact Nat.eq_sub_of_add_eq heq
  -- the root goes first
  obtain ⟨h₁, q₁, hextract, hrep₁⟩ := hrep.extractFromQueue hmember
  have hempty : Selected P c₀ [] [] := by
    refine ⟨?_, .nil, fun y hy => absurd hy List.not_mem_nil⟩
    show Holds (setRoot c t rootRank).machinesThreads.heap
      (setRoot c t rootRank).machinesThreads.queue []
    rw [setRoot_machinesThreads]
    exact hmachines
  obtain ⟨c₁, reps₁, htake, hthreads₁, hroot₁, hsel₁, hperm₁⟩ :=
    @takeThread_selected P c₀ [] [] hempty root h₁ q₁ List.not_mem_nil hextract
  obtain rfl := List.perm_singleton.mp hperm₁
  -- then the loop goes over the others
  obtain ⟨c₂, hhead, hat, hmachines₂, hroot₂⟩ :=
    @headThread_cursor c₁ (xs.eraseP fun x => x.2.2 = root) (by rw [hthreads₁]; exact hrep₁)
  have hsel₂ : Selected P c₂ (contents []) [root] :=
    ⟨by rw [hmachines₂]; exact hsel₁.machines, hsel₁.distinct, hsel₁.covered⟩
  obtain ⟨c', kept, reps, hrun, hspells, hsel, hperm, hsub, hroot'⟩ :=
    selectThreads_spec hat hothers hsel₂
  have hvisit := (Holds.spells hsel.machines).visitQueue
  rw [List.map_map, show Prod.snd ∘ (fun r => (P.machine r, r)) = id from rfl, List.map_id] at hvisit
  have hcover : (kept ++ reps).Perm P.members :=
    hperm.trans ((List.perm_append_singleton root _).trans herase)
  refine ⟨c', kept, reps, ?_, hsel.machines, hspells, hsel.distinct, ?_, ?_, ?_, hcover⟩
  · rw [globalOperation]
    simp only [setRoot_threads, setRoot_getD]
    rw [if_neg hnoblock, hin]
    show (takeThread P c₀ root).bind _ = _
    rw [htake]
    show (headThread c₁).bind _ = _
    rw [hhead]
    show (selectThreads P (P.size - 1) c₂ _).bind _ = _
    rw [← hlength₁, hrun]
    show (visitQueue c'.machinesThreads.heap c'.machinesThreads.queue).bind _ = _
    rw [hvisit]
    rfl
  · intro y hy
    rcases List.mem_append.mp (hcover.mem_iff.mpr hy) with hkept | hrep
    · exact hsel.covered y hkept
    · exact List.mem_map_of_mem hrep
  · rw [hroot', hroot₂, hroot₁]
  · exact hsub (List.mem_singleton_self root)

/-! ## Reachable states -/

variable {s s' : State}

/-- Some members are waiting for the others. -/
structure Gathering (P : Placement) (s : State) : Prop where
  threads : ∃ cs, Spells s.communicator.threads.heap s.communicator.threads.queue cs ∧
    cs.Perm s.inside
  machines : Holds s.communicator.machinesThreads.heap s.communicator.machinesThreads.queue []
  root : ∀ r ∈ s.communicator.currentRoot, r ∈ s.inside
  nodup : s.inside.Nodup
  members : s.inside ⊆ P.members
  pending : s.pending = []
  started : s.started = false
  freed : s.freed = false

structure Reserving (P : Placement) (s : State) : Prop where
  threads : ∃ cs, Spells s.communicator.threads.heap s.communicator.threads.queue cs ∧
    (cs ++ s.pending).Perm P.members
  machines : ∃ l, Holds s.communicator.machinesThreads.heap s.communicator.machinesThreads.queue l ∧
    (s.freed = true → l = [])
  inside : s.inside.Perm P.members
  started : s.started = true ↔ s.pending = []

theorem gathering_init (P : Placement) : Gathering P .init where
  threads := ⟨[], spells_createQueue, .refl _⟩
  machines := holds_createQueue
  root := fun _ hr => nomatch hr
  nodup := .nil
  members := List.nil_subset _
  pending := rfl
  started := rfl
  freed := rfl

theorem Gathering.enabled (hg : Gathering P s) {e : Event} (he : Enabled P s e) :
    ∃ t rootRank, e = .enter t rootRank ∧ t ∈ P.members ∧ t ∉ s.inside := by
  cases e with
  | enter t rootRank => exact ⟨t, rootRank, rfl, he⟩
  | reserve t =>
      have hmem : t ∈ s.pending := he
      rw [hg.pending] at hmem
      exact absurd hmem List.not_mem_nil
  | free =>
      have hstarted : s.started = true := he.1
      rw [hg.started] at hstarted
      exact absurd hstarted Bool.false_ne_true
  | close =>
      have hfreed : s.freed = true := he
      rw [hg.freed] at hfreed
      exact absurd hfreed Bool.false_ne_true

theorem Gathering.enter_blocks (hg : Gathering P s) (ht : t ∈ P.members) (hout : t ∉ s.inside)
    (hmore : s.inside.length + 1 ≠ P.size) (rootRank : Bool) :
    ∃ s', step P s (.enter t rootRank) = some s' ∧ Gathering P s' := by
  obtain ⟨cs, hcs, hperm⟩ := hg.threads
  have hsize : cs.length + 1 ≠ P.size := by rwa [hperm.length_eq]
  obtain ⟨c', hrun, hspells, hmachines, hroot⟩ := globalOperation_blocks hcs hsize t rootRank
  refine ⟨{ s with communicator := c', inside := t :: s.inside, pending := [] }, ?_,
    ⟨cs ++ [t], hspells, ?_⟩, ?_, ?_, List.nodup_cons.mpr ⟨hout, hg.nodup⟩,
    List.cons_subset.mpr ⟨ht, hg.members⟩, rfl, hg.started, hg.freed⟩
  · rw [step, hrun]
    rfl
  · exact (List.perm_append_singleton t cs).trans (hperm.cons t)
  · show Holds c'.machinesThreads.heap c'.machinesThreads.queue []
    rw [hmachines]
    exact hg.machines
  · intro r hr
    rw [show c'.currentRoot = _ from hroot] at hr
    rcases setRoot_mem hr with heq | hold
    · exact heq ▸ List.mem_cons_self
    · exact List.mem_cons_of_mem t (hg.root r hold)

theorem Gathering.enter_last (hg : Gathering P s) (ht : t ∈ P.members) (hout : t ∉ s.inside)
    (hlast : s.inside.length + 1 = P.size) (rootRank : Bool) :
    ∃ s' kept, step P s (.enter t rootRank) = some s' ∧ Reserving P s' ∧
      OnePerMachine P s'.communicator (chosenRoot s.communicator t rootRank) kept s'.pending := by
  obtain ⟨cs, hcs, hperm⟩ := hg.threads
  have hinside : (t :: s.inside).Perm P.members := by
    have hnodup := List.nodup_cons.mpr ⟨hout, hg.nodup⟩
    have hsubset := List.cons_subset.mpr ⟨ht, hg.members⟩
    exact (List.subperm_of_subset hnodup hsubset).perm_of_length_le (Nat.le_of_eq hlast.symm)
  have hroot : ∀ r ∈ s.communicator.currentRoot, r ∈ cs :=
    fun r hr => hperm.mem_iff.mpr (hg.root r hr)
  obtain ⟨c', kept, reps, hrun, hone⟩ :=
    globalOperation_last hcs hg.machines hroot ((hperm.cons t).trans hinside) rootRank
  have hne : reps ≠ [] := List.ne_nil_of_mem hone.root_mem
  refine ⟨{ s with communicator := c', inside := t :: s.inside, pending := reps }, kept, ?_,
    ⟨⟨kept, hone.threads, hone.all⟩, ⟨_, hone.machines, ?_⟩, hinside, ?_⟩, hone⟩
  · rw [step, hrun]
    rfl
  · intro hfreed
    rw [show s.freed = false from hg.freed] at hfreed
    exact absurd hfreed Bool.false_ne_true
  · constructor
    · intro hstarted
      rw [show s.started = false from hg.started] at hstarted
      exact absurd hstarted Bool.false_ne_true
    · exact fun hnil => absurd hnil hne

/-- The test of `global_op_get_all_in_links` holds when no representative is left. -/
theorem Reserving.reserve (hr : Reserving P s) (hmem : t ∈ s.pending) :
    ∃ s', step P s (.reserve t) = some s' ∧ Reserving P s' ∧ s'.pending = s.pending.erase t := by
  obtain ⟨cs, hcs, hperm⟩ := hr.threads
  obtain ⟨h, q, hin, hspells⟩ := hcs.inFifoQueue P.unset t
  have hsplit := List.perm_cons_erase hmem
  have hback : (cs ++ [t] ++ s.pending.erase t).Perm P.members := by
    rw [List.append_assoc]
    exact (hsplit.symm.append_left cs).trans hperm
  have hlength := hback.length_eq
  have hcount := hspells.countQueue
  rw [List.length_append] at hlength
  refine ⟨{ s with
      communicator := { s.communicator with threads := ⟨h, q⟩ }
      pending := s.pending.erase t
      started := countQueue q = (P.size : Int) }, ?_,
    ⟨⟨cs ++ [t], hspells, hback⟩, hr.machines, hr.inside, ?_⟩, rfl⟩
  · rw [step, globalOpGetAllInLinks, hin]
    rfl
  · show decide (countQueue q = (P.size : Int)) = true ↔ s.pending.erase t = []
    rw [decide_eq_true_eq, hcount, Int.ofNat_inj, ← List.length_eq_zero_iff, Placement.size]
    omega

theorem Reserving.free (hr : Reserving P s) :
    ∃ s', step P s .free = some s' ∧ Reserving P s' := by
  obtain ⟨l, hl, -⟩ := hr.machines
  have hfuel : l.length < scanFuel s.communicator.machinesThreads.queue := by
    obtain ⟨xs, hrep, rfl⟩ := hl
    rw [List.length_map]
    exact hrep.length_lt_scanFuel
  obtain ⟨h, q, hdrain, hempty⟩ := holds_drain hl hfuel
  refine ⟨{ s with
      communicator := { s.communicator with machinesThreads := ⟨h, q⟩ }
      freed := true }, ?_, hr.threads, ⟨[], hempty, fun _ => rfl⟩, hr.inside, hr.started⟩
  rw [step, freeGlobalCommunicationResources]
  simp only [hdrain]
  rfl

theorem Reserving.close (hr : Reserving P s) (hfreed : s.freed = true) :
    ∃ s', step P s .close = some s' ∧ Gathering P s' := by
  obtain ⟨cs, ⟨xs, hrep, -⟩, -⟩ := hr.threads
  obtain ⟨l, hl, hnil⟩ := hr.machines
  obtain rfl := hnil hfreed
  have hfuel : (xs.map Prod.snd).length < scanFuel s.communicator.threads.queue := by
    rw [List.length_map]
    exact hrep.length_lt_scanFuel
  obtain ⟨h, q, hdrain, hempty⟩ := holds_drain ⟨xs, hrep, rfl⟩ hfuel
  refine ⟨⟨{ s.communicator with threads := ⟨h, q⟩, currentRoot := none }, [], [], false, false⟩,
    ?_, ⟨[], Holds.spells hempty, .refl _⟩, hl, fun r hr => ?_, .nil, List.nil_subset _, rfl, rfl,
    rfl⟩
  · rw [step, closeGlobalCommunication]
    simp only [hdrain]
    rfl
  · exact absurd hr (Option.not_mem_none r)

/-- A communicator gathers its members or has them all, whatever it did before. -/
theorem phase_of_reachable (hs : Reachable P s) : Gathering P s ∨ Reserving P s := by
  induction hs with
  | init => exact .inl (gathering_init P)
  | @step s s' e hs he hrun ih =>
      rcases ih with hg | hr
      · obtain ⟨t, rootRank, rfl, ht, hout⟩ := hg.enabled he
        by_cases hlast : s.inside.length + 1 = P.size
        · obtain ⟨s₁, kept, heq, hr, -⟩ := hg.enter_last ht hout hlast rootRank
          obtain rfl := Option.some.inj (heq.symm.trans hrun)
          exact .inr hr
        · obtain ⟨s₁, heq, hg'⟩ := hg.enter_blocks ht hout hlast rootRank
          obtain rfl := Option.some.inj (heq.symm.trans hrun)
          exact .inl hg'
      · cases e with
        | enter t rootRank => exact absurd (hr.inside.mem_iff.mpr he.1) he.2
        | reserve t =>
            obtain ⟨s₁, heq, hr', -⟩ := hr.reserve he
            obtain rfl := Option.some.inj (heq.symm.trans hrun)
            exact .inr hr'
        | free =>
            obtain ⟨s₁, heq, hr'⟩ := hr.free
            obtain rfl := Option.some.inj (heq.symm.trans hrun)
            exact .inr hr'
        | close =>
            obtain ⟨s₁, heq, hg⟩ := hr.close he
            obtain rfl := Option.some.inj (heq.symm.trans hrun)
            exact .inl hg

/-- Representatives get their resources in any order. -/
theorem Reserving.reserveAll (hr : Reserving P s) {rs : List Nat} (hrs : rs.Nodup)
    (hsubset : rs ⊆ s.pending) :
    ∃ s', reserveAll P s rs = some s' ∧ Reserving P s' ∧ s'.pending = s.pending.diff rs := by
  induction rs generalizing s with
  | nil => exact ⟨s, rfl, hr, rfl⟩
  | cons r rs ih =>
      obtain ⟨hnew, hrs⟩ := List.nodup_cons.mp hrs
      obtain ⟨hmem, hsubset⟩ := List.cons_subset.mp hsubset
      obtain ⟨s₁, hstep, hr₁, hpending⟩ := hr.reserve hmem
      have hsubset₁ : rs ⊆ s₁.pending := by
        intro y hy
        rw [hpending]
        exact (List.mem_erase_of_ne fun heq : y = r => hnew (heq ▸ hy)).mpr (hsubset hy)
      obtain ⟨s', hrun, hr', hdiff⟩ := ih hr₁ hrs hsubset₁
      refine ⟨s', ?_, hr', ?_⟩
      · rw [CollectiveRepresentatives.reserveAll, hstep]
        exact hrun
      · rw [hdiff, hpending, List.diff_cons]

/-- The last member leaves one representative for each machine in `machines_threads` and the other
members in `threads`, and the operation starts when all the representatives have their
resources. -/
theorem onePerMachine_of_last (hs : Reachable P s) (he : Enabled P s (.enter t rootRank))
    (hlast : s.inside.length + 1 = P.size) :
    ∃ s' kept, step P s (.enter t rootRank) = some s' ∧
      OnePerMachine P s'.communicator (chosenRoot s.communicator t rootRank) kept s'.pending ∧
      ∀ rs, rs.Nodup → rs ⊆ s'.pending → ∃ s'', reserveAll P s' rs = some s'' ∧
        (s''.started = true ↔ s'.pending ⊆ rs) := by
  have hg : Gathering P s := by
    rcases phase_of_reachable hs with hg | hr
    · exact hg
    · exact absurd (hr.inside.mem_iff.mpr he.1) he.2
  obtain ⟨s', kept, hstep, hr, hone⟩ := hg.enter_last he.1 he.2 hlast rootRank
  refine ⟨s', kept, hstep, hone, fun rs hrs hsubset => ?_⟩
  obtain ⟨s'', hrun, hr'', hdiff⟩ := hr.reserveAll hrs hsubset
  have hpending : s'.pending.Nodup :=
    (List.nodup_append.mp (hone.all.nodup_iff.mpr P.nodup)).2.1
  refine ⟨s'', hrun, ?_⟩
  rw [hr''.started, hdiff, List.eq_nil_iff_forall_not_mem]
  constructor
  · intro hnone y hy
    by_contra hnot
    exact hnone y (hpending.mem_sdiff_iff.mpr ⟨hy, hnot⟩)
  · intro hall y hy
    obtain ⟨hy, hnot⟩ := hpending.mem_sdiff_iff.mp hy
    exact hnot (hall hy)

def threeMembers : Placement := ⟨[0, 1, 2], fun t => if t = 1 then 1 else 0, 0, by decide⟩

theorem onePerMachine_threeMembers :
    ∃ s s' kept, step threeMembers s (.enter 0 false) = some s' ∧
      OnePerMachine threeMembers s'.communicator 1 kept s'.pending ∧
      ∀ rs, rs.Nodup → rs ⊆ s'.pending → ∃ s'', reserveAll threeMembers s' rs = some s'' ∧
        (s''.started = true ↔ s'.pending ⊆ rs) := by
  let s₁ := (step threeMembers .init (.enter 2 false)).get rfl
  let s₂ := (step threeMembers s₁ (.enter 1 true)).get rfl
  have hrun₁ : Reachable threeMembers s₁ :=
    .step (.enter 2 false) .init ⟨by decide, by decide⟩ (Option.some_get _).symm
  have hrun₂ : Reachable threeMembers s₂ :=
    .step (.enter 1 true) hrun₁ ⟨by decide, by decide⟩ (Option.some_get _).symm
  have hroot : chosenRoot s₂.communicator 0 false = 1 := rfl
  obtain ⟨s', kept, h⟩ :=
    @onePerMachine_of_last threeMembers 0 false s₂ hrun₂ ⟨by decide, by decide⟩ rfl
  rw [hroot] at h
  exact ⟨s₂, s', kept, h⟩

end Dimemas.Model.CollectiveRepresentatives
