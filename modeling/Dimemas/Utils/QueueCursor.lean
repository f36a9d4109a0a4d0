import Dimemas.Utils.ListQueue
/-!
# Scans that change the queue

`inFIFO_queue`, `outFIFO_queue` and `query_prio_queue`, and what `extract_from_queue` does to the
cursor of a scan that stands at the item that goes.
-/

namespace Dimemas.Utils.QueueCursor

open Dimemas.Library.LinkedList
open Dimemas.Utils.ListQueue

variable {κ α : Type}

/-- `inFIFO_queue`. The priority of the new item is not set, and is whatever `unset` is. -/
def inFifoQueue (unset : κ) (h : Heap κ α) (q : TQueue) (content : α) :
    Option (Heap κ α × TQueue) :=
  let (h, newItem) := h.alloc ⟨none, none, unset, content⟩
  match q.last with
  | some tmp => do
      let h ← h.setNext tmp (some newItem)
      let h ← h.setPrev newItem (some tmp)
      some (h, { q with last := some newItem, count := q.count + 1 })
  | none =>
      some (h, { q with first := some newItem, last := some newItem, count := q.count + 1 })

/-- `while (outFIFO_queue (q) != NIL);`, where `outFIFO_queue` does what `outFIFO_event` does. -/
def drain : Nat → Heap κ α → TQueue → Option (Heap κ α × TQueue)
  | 0, _, _ => none
  | fuel + 1, h, q => do
      let (h, q, content) ← outFifoEvent h q
      match content with
      | none => some (h, q)
      | some _ => drain fuel h q

def queryPrioQueue [DecidableEq κ] (h : Heap κ α) (q : TQueue) (prio : κ) : Option (Option α) := do
  let (element, _) ← h.walk (fun k _ => k ≠ prio) (scanFuel q) q.first none
  match element with
  | none => some none
  | some a => (h.cells a).map fun item => some item.content

/-- The contents that a scan of the queue comes to from the content `here` of the cursor on. -/
def visitFrom (h : Heap κ α) : Nat → TQueue → Option α → Option (List α)
  | _, _, none => some []
  | 0, _, some _ => none
  | fuel + 1, q, some here => do
      let (q, next) ← nextQueue h q
      let rest ← visitFrom h fuel q next
      some (here :: rest)

/-- `for (e = head_queue (q); e != NIL; e = next_queue (q))`. -/
def visitQueue (h : Heap κ α) (q : TQueue) : Option (List α) := do
  let (q, here) ← headQueue h q
  visitFrom h (scanFuel q) q here

def Spells (h : Heap κ α) (q : TQueue) (cs : List α) : Prop :=
  ∃ xs, QueueRep h q xs ∧ xs.map (fun x => x.2.2) = cs

/-- A scan has passed `pre` and stands at the first item of `rest`. -/
structure AtCursor (h : Heap κ α) (q : TQueue) (pre rest : List (Entry κ α)) : Prop where
  rep : QueueRep h q (pre ++ rest)
  curr : q.curr = rest.head?.map Prod.fst

section

variable {h h' : Heap κ α} {q q' : TQueue} {xs pre rest : List (Entry κ α)} {x : Entry κ α}
variable {cs : List α} {l : List (κ × α)} {unset : κ} {content c : α}

theorem QueueRep.setCurr (hrep : QueueRep h q xs) (curr : Option Nat) :
    QueueRep h { q with curr := curr } xs :=
  ⟨hrep.wf, hrep.seg, hrep.nodup, hrep.count⟩

theorem spells_createQueue : Spells (Heap.empty : Heap κ α) createQueue [] :=
  ⟨[], ⟨fun _ _ => rfl, ⟨rfl, rfl⟩, .nil, rfl⟩, rfl⟩

theorem Spells.countQueue (hq : Spells h q cs) : countQueue q = cs.length := by
  obtain ⟨xs, hrep, rfl⟩ := hq
  rw [ListQueue.countQueue, hrep.count, List.length_map]

theorem Holds.spells (hq : Holds h q l) : Spells h q (l.map Prod.snd) := by
  obtain ⟨xs, hrep, rfl⟩ := hq
  exact ⟨xs, hrep, (List.map_map ..).symm⟩

theorem QueueRep.inFifoQueue (hrep : QueueRep h q xs) (unset : κ) (content : α) :
    ∃ h' q', inFifoQueue unset h q content = some (h', q') ∧
      QueueRep h' q' (xs ++ [(h.brk, unset, content)]) := by
  obtain ⟨hseg, hfresh⟩ := hrep.alloc_seg ⟨none, none, unset, content⟩
  have hwf := hrep.wf.alloc ⟨none, none, unset, content⟩
  have hnew := Heap.cells_update_self { h with brk := h.brk + 1 } h.brk
    (some ⟨none, none, unset, content⟩)
  have hnodup : (addrs (xs ++ [(h.brk, unset, content)])).Nodup := by
    rw [addrs_append, List.nodup_append_comm]
    exact List.nodup_cons.mpr ⟨hfresh, hrep.nodup⟩
  have hcount : q.count + 1 = ((xs ++ [(h.brk, unset, content)]).length : Int) := by
    rw [List.length_append, hrep.count]
    rfl
  cases hlast : q.last with
  | none =>
      have hnil : xs = [] := by
        by_contra hne
        have hget := hrep.seg.last_eq_getLast?
        rw [hlast, List.getLast?_eq_some_getLast hne] at hget
        exact nomatch hget
      subst hnil
      refine ⟨_, _, by rw [QueueCursor.inFifoQueue, hlast], hwf, ⟨rfl, none, hnew, rfl, rfl⟩,
        hnodup, hcount⟩
  | some tmp =>
      obtain ⟨h₁, hnext, hwf₁, hseg₁, hin, hsame⟩ :=
        setNext_front (some h.brk) hwf hseg hrep.nodup hlast
      have hne : h.brk ≠ tmp := fun heq => hfresh (heq ▸ hin)
      have hnew₁ := (hsame h.brk hne).trans hnew
      refine ⟨h₁.update h.brk (some ⟨none, some tmp, unset, content⟩),
        { q with last := some h.brk, count := q.count + 1 }, ?_,
        hwf₁.update (hwf₁.lt_brk hnew₁) _, ?_, hnodup, hcount⟩
      · rw [QueueCursor.inFifoQueue, hlast]
        show ((h.alloc ⟨none, none, unset, content⟩).1.setNext tmp (some h.brk)).bind _ = _
        rw [hnext]
        show (h₁.setPrev h.brk (some tmp)).bind _ = _
        rw [Heap.setPrev_of_cell hnew₁]
        rfl
      · have hpre := hseg₁.update hfresh (some ⟨none, some tmp, unset, content⟩)
        rw [hlast] at hpre
        exact seg_append.mpr ⟨some tmp, some h.brk, hpre, rfl, none, Heap.cells_update_self .., rfl,
          rfl⟩

theorem Spells.inFifoQueue (hq : Spells h q cs) (unset : κ) (content : α) :
    ∃ h' q', inFifoQueue unset h q content = some (h', q') ∧ Spells h' q' (cs ++ [content]) := by
  obtain ⟨xs, hrep, rfl⟩ := hq
  obtain ⟨h', q', heq, hrep'⟩ := QueueRep.inFifoQueue hrep unset content
  exact ⟨h', q', heq, _, hrep', List.map_append⟩

theorem Spells.extractFromQueue [DecidableEq α] (hq : Spells h q cs) (hmem : c ∈ cs) :
    ∃ h' q', extractFromQueue h q c = some (h', q') ∧ Spells h' q' (cs.erase c) := by
  obtain ⟨xs, hrep, rfl⟩ := hq
  obtain ⟨h', q', heq, hrep'⟩ := hrep.extractFromQueue hmem
  refine ⟨h', q', heq, _, hrep', ?_⟩
  rw [List.erase_eq_eraseP', List.eraseP_map]
  rfl

theorem Spells.scanQueue (hq : Spells h q cs) (found : α → Bool) :
    ∃ q', scanQueue found h q = some (q', cs.find? found) ∧ Spells h q' cs := by
  obtain ⟨xs, hrep, rfl⟩ := hq
  obtain ⟨cursor, heq⟩ := holds_scanQueue ⟨xs, hrep, rfl⟩ found
  rw [List.map_map] at heq
  exact ⟨_, heq, xs, QueueRep.setCurr hrep cursor, rfl⟩

theorem holds_drain {fuel : Nat} (hq : Holds h q l) (hfuel : l.length < fuel) :
    ∃ h' q', drain fuel h q = some (h', q') ∧ Holds h' q' [] := by
  induction fuel generalizing h q l with
  | zero => exact absurd hfuel (Nat.not_lt_zero _)
  | succ fuel ih =>
      cases l with
      | nil => exact ⟨h, q, by rw [drain, holds_outFifoEvent_nil hq]; rfl, hq⟩
      | cons x l =>
          obtain ⟨h₁, q₁, heq, hq₁⟩ := holds_outFifoEvent_cons hq
          obtain ⟨h', q', hrun, hq'⟩ := ih hq₁ (Nat.lt_of_succ_lt_succ hfuel)
          refine ⟨h', q', ?_, hq'⟩
          rw [drain, heq]
          exact hrun

theorem holds_queryPrioQueue [DecidableEq κ] (hq : Holds h q l) (prio : κ) :
    queryPrioQueue h q prio = some ((l.find? fun x => x.1 = prio).map Prod.snd) := by
  obtain ⟨xs, hrep, rfl⟩ := hq
  obtain ⟨tmp1, tmp2, hwalk, -, hpost⟩ :=
    @Seg.walk_eq _ _ _ _ _ _ _ (fun k _ => decide (k ≠ prio)) hrep.seg _ hrep.length_lt_scanFuel
  have hfind : (xs.map Prod.snd).find? (fun x => decide (x.1 = prio)) =
      ((xs.dropWhile fun x => decide (x.2.1 ≠ prio)).head?).map Prod.snd := by
    rw [List.find?_map, List.find?_eq_head?_dropWhile_not]
    simp only [Function.comp_apply, ne_eq, decide_not]
  rw [hfind, queryPrioQueue, hwalk]
  generalize (xs.dropWhile fun x => decide (x.2.1 ≠ prio)) = found at hpost
  cases found with
  | nil =>
      have hnull : tmp1 = none := hpost.1
      rw [hnull]
      rfl
  | cons x rest =>
      obtain ⟨hhere, next, hcell, -⟩ := hpost
      show (match tmp1 with
        | none => some none
        | some a => (h.cells a).map fun item : Cell κ α => some item.content) = _
      rw [hhere]
      show (h.cells x.1).map _ = _
      rw [hcell]
      rfl

/-! ## The cursor -/

theorem QueueRep.first_eq (hrep : QueueRep h q xs) : q.first = xs.head?.map Prod.fst := by
  cases xs with
  | nil => exact hrep.seg.1
  | cons x rest => exact hrep.seg.1

theorem QueueRep.headQueue (hrep : QueueRep h q xs) :
    headQueue h q = some ({ q with curr := q.first }, xs.head?.map fun x => x.2.2) ∧
      AtCursor h { q with curr := q.first } [] xs := by
  refine ⟨?_, QueueRep.setCurr hrep q.first, QueueRep.first_eq hrep⟩
  rw [ListQueue.headQueue]
  cases xs with
  | nil =>
      rw [show q.first = none from hrep.seg.1]
      rfl
  | cons x rest =>
      obtain ⟨hfirst, next, hcell, -⟩ := hrep.seg
      rw [hfirst]
      show (h.cells x.1).map _ = _
      rw [hcell]
      rfl

theorem AtCursor.nextQueue (hat : AtCursor h q pre (x :: rest)) :
    ∃ q', nextQueue h q = some (q', rest.head?.map fun x => x.2.2) ∧
      AtCursor h q' (pre ++ [x]) rest := by
  obtain ⟨mid, here, -, -, next, hcell, hrest⟩ := seg_append.mp hat.rep.seg
  have hsplit : pre ++ x :: rest = (pre ++ [x]) ++ rest := List.append_cons ..
  have hrep : QueueRep h { q with curr := next } ((pre ++ [x]) ++ rest) :=
    hsplit ▸ QueueRep.setCurr hat.rep next
  have hcurr : q.curr = some x.1 := hat.curr
  rw [ListQueue.nextQueue, hcurr]
  show ∃ q', (h.cells x.1).bind _ = _ ∧ _
  rw [hcell]
  cases rest with
  | nil =>
      have hnull : next = none := hrest.1
      subst hnull
      exact ⟨_, rfl, hrep, rfl⟩
  | cons y rest =>
      obtain ⟨hhere, _, hcell', -⟩ := hrest
      subst hhere
      refine ⟨{ q with curr := some y.1 }, ?_, hrep, rfl⟩
      show (h.cells y.1).map _ = _
      rw [hcell']
      rfl

theorem nextQueue_null (hcurr : q.curr = none) : nextQueue h q = some (q, none) := by
  rw [nextQueue, hcurr]

/-- The step of a scan after the items `pre`, whose next item may have gone. -/
theorem nextQueue_after (hrep : QueueRep h q (pre ++ rest))
    (hcurr : q.curr = pre.getLast?.map Prod.fst) :
    ∃ q' next, nextQueue h q = some (q', next) ∧ QueueRep h q' (pre ++ rest) := by
  rcases List.eq_nil_or_concat pre with hnil | ⟨init, y, hconcat⟩
  · subst hnil
    exact ⟨q, none, nextQueue_null hcurr, hrep⟩
  · rw [List.concat_eq_append] at hconcat
    subst hconcat
    rw [List.getLast?_concat] at hcurr
    have hrep' := hrep
    rw [List.append_assoc] at hrep'
    obtain ⟨q', hnext, hat⟩ := AtCursor.nextQueue ⟨hrep', hcurr⟩
    exact ⟨q', _, hnext, hat.rep⟩

theorem relinkAround_curr {tmp2 next : Option Nat}
    (hrun : relinkAround h q tmp2 next = some (h', q')) : q'.curr = q.curr := by
  cases tmp2 with
  | none =>
      cases next with
      | none =>
          cases hrun
          rfl
      | some behind =>
          obtain ⟨_, -, heq⟩ := Option.map_eq_some_iff.mp hrun
          cases heq
          rfl
  | some before =>
      cases next with
      | none =>
          obtain ⟨_, -, heq⟩ := Option.map_eq_some_iff.mp hrun
          cases heq
          rfl
      | some behind =>
          obtain ⟨_, -, hrun⟩ := Option.bind_eq_some_iff.mp hrun
          obtain ⟨_, -, heq⟩ := Option.bind_eq_some_iff.mp hrun
          cases heq
          rfl

theorem extractFromQueue_curr [DecidableEq α] {a : Nat} {back : Option Nat}
    (hwalk : h.walk (fun _ c' => c' ≠ c) (scanFuel q) q.first none = some (some a, back))
    (hrun : extractFromQueue h q c = some (h', q')) :
    q'.curr = if some a = q.curr then back else q.curr := by
  rw [extractFromQueue, hwalk] at hrun
  obtain ⟨_, hfound, hrun⟩ := Option.bind_eq_some_iff.mp hrun
  obtain rfl := Option.some.inj hfound
  obtain ⟨_, hhere, hrun⟩ := Option.bind_eq_some_iff.mp hrun
  obtain rfl := Option.some.inj hhere
  obtain ⟨item, -, hrun⟩ := Option.bind_eq_some_iff.mp hrun
  obtain ⟨⟨h₁, q₁⟩, hrelink, hrun⟩ := Option.bind_eq_some_iff.mp hrun
  obtain ⟨h₂, -, heq⟩ := Option.bind_eq_some_iff.mp hrun
  cases heq
  rw [← relinkAround_curr hrelink]
  show (if some a = q₁.curr then { q₁ with curr := back } else q₁).curr = _
  split
  · rfl
  · rfl

theorem AtCursor.extractFromQueue [DecidableEq α] (hat : AtCursor h q pre (x :: rest))
    (hbefore : ∀ y ∈ pre, y.2.2 ≠ x.2.2) :
    ∃ h' q', extractFromQueue h q x.2.2 = some (h', q') ∧ QueueRep h' q' (pre ++ rest) ∧
      q'.curr = pre.getLast?.map Prod.fst := by
  have hmem : x.2.2 ∈ (pre ++ x :: rest).map fun y => y.2.2 :=
    List.mem_map.mpr ⟨x, List.mem_append_right pre List.mem_cons_self, rfl⟩
  obtain ⟨h', q', hrun, hrep⟩ := hat.rep.extractFromQueue hmem
  have hahead : ∀ y ∈ pre, ¬ decide (y.2.2 = x.2.2) = true := by
    intro y hy
    rw [decide_eq_true_eq]
    exact hbefore y hy
  have hself : decide (x.2.2 = x.2.2) = true := decide_eq_true rfl
  rw [List.eraseP_append_right _ hahead,
    @List.eraseP_cons_of_pos _ x rest (fun y => decide (y.2.2 = x.2.2)) hself] at hrep
  refine ⟨h', q', hrun, hrep, ?_⟩
  obtain ⟨tmp1, tmp2, hwalk, hpre, hpost⟩ :=
    @Seg.walk_eq _ _ _ _ _ _ _ (fun _ c => decide (c ≠ x.2.2)) hat.rep.seg _
      hat.rep.length_lt_scanFuel
  have hpass : ∀ y ∈ pre, decide (y.2.2 ≠ x.2.2) = true := by
    intro y hy
    exact decide_eq_true (hbefore y hy)
  rw [List.takeWhile_append_of_pos hpass, List.takeWhile_cons_of_neg (by simp),
    List.append_nil] at hpre
  rw [List.dropWhile_append_of_pos hpass, List.dropWhile_cons_of_neg (by simp)] at hpost
  obtain ⟨hhere, -⟩ := hpost
  subst hhere
  have hcurr : q.curr = some x.1 := hat.curr
  rw [extractFromQueue_curr hwalk hrun, hcurr, if_pos rfl, hpre.last_eq_getLast?, Option.or_none]

theorem visitFrom_cursor {fuel : Nat} (hat : AtCursor h q pre rest) (hfuel : rest.length ≤ fuel) :
    visitFrom h fuel q (rest.head?.map fun x => x.2.2) = some (rest.map fun x => x.2.2) := by
  induction rest generalizing pre q fuel with
  | nil =>
      cases fuel with
      | zero => rfl
      | succ fuel => rfl
  | cons x rest ih =>
      cases fuel with
      | zero => exact absurd hfuel (Nat.not_succ_le_zero _)
      | succ fuel =>
          obtain ⟨q', hnext, hat'⟩ := hat.nextQueue
          have hrun := ih hat' (Nat.le_of_succ_le_succ hfuel)
          show (nextQueue h q).bind _ = _
          rw [hnext]
          show (visitFrom h fuel q' (rest.head?.map fun x => x.2.2)).bind _ = _
          rw [hrun]
          rfl

theorem Spells.visitQueue (hq : Spells h q cs) : visitQueue h q = some cs := by
  obtain ⟨xs, hrep, rfl⟩ := hq
  obtain ⟨hhead, hat⟩ := QueueRep.headQueue hrep
  rw [QueueCursor.visitQueue, hhead]
  exact visitFrom_cursor hat (Nat.le_of_lt hrep.length_lt_scanFuel)

end

end Dimemas.Utils.QueueCursor
