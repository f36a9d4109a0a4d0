import Dimemas.Utils.ListQueue
import Dimemas.Library.StableQueue
/-!
# Insertion by priority from both ends

`insert_queue_from_back` searches for the place of the new item from the last item on. In a queue
that is sorted by priority it finds the place that `insert_queue` finds from the first one.
-/

namespace Dimemas.Utils.PriorityInsertion

open Dimemas.Library.LinkedList
open Dimemas.Library.StableQueue
open Dimemas.Utils.ListQueue

variable {κ α : Type} [LinearOrder κ]

/-- The links of the cell `newElement` between the cells `tmp1` and `tmp2`, where the search from
the last item on has stopped. -/
def linkBetween (h : Heap κ α) (newElement : Nat) (q : TQueue) :
    Option Nat × Option Nat → Option (Heap κ α × TQueue)
  | (none, none) => none
  | (some before, none) => do
      -- Insertion on queue back
      let h ← h.setNext before (some newElement)
      let h ← h.setPrev newElement (some before)
      some (h, { q with last := some newElement, count := q.count + 1 })
  | (tmp1, some behind) => do
      -- Insertion between tmp1 and tmp2
      let h ← h.setPrev behind (some newElement)
      let h ← h.setNext newElement (some behind)
      let h ← h.setPrev newElement tmp1
      match tmp1 with
      | none => some (h, { q with first := some newElement, count := q.count + 1 })
      | some before =>
          let h ← h.setNext before (some newElement)
          some (h, { q with count := q.count + 1 })

/-- The part of `insert_queue_from_back` behind the allocation. -/
def linkAhead (h : Heap κ α) (newElement : Nat) (q : TQueue) (prio : κ) :
    Option (Heap κ α × TQueue) :=
  match q.last with
  | none =>
      some (h, { q with
        first := some newElement, last := some newElement, count := q.count + 1 })
  | some _ => do
      let stop ← h.walkBack (fun k _ => prio < k) (scanFuel q) q.last none
      linkBetween h newElement q stop

def insertQueueFromBack (h : Heap κ α) (q : TQueue) (content : α) (prio : κ) :
    Option (Heap κ α × TQueue) :=
  let (h, newElement) := h.alloc ⟨none, none, prio, content⟩
  linkAhead h newElement q prio

def outFifoQueue (h : Heap κ α) (q : TQueue) : Option (Heap κ α × TQueue × Option α) :=
  outFifoEvent h q

section

variable {h h' : Heap κ α} {q q' : TQueue} {xs pre post : List (Entry κ α)} {l : List (κ × α)}
variable {new : Nat} {prio : κ} {content : α}

theorem linkAhead_rep (hrep : QueueRep h q xs)
    (hnew : h.cells new = some ⟨none, none, prio, content⟩) (hfresh : new ∉ addrs xs) :
    ∃ h' q' pre post, linkAhead h new q prio = some (h', q') ∧ xs = pre ++ post ∧
      (∀ x ∈ post, decide (prio < x.2.1) = true) ∧
      (∀ x ∈ pre.getLast?, decide (prio < x.2.1) = false) ∧
      QueueRep h' q' (pre ++ (new, prio, content) :: post) := by
  obtain ⟨pre, post, tmp1, tmp2, hwalk, hsplit, hpre, hpost, hall, hstop⟩ :=
    hrep.seg.walkBack_eq (p := fun k _ => decide (prio < k)) hrep.length_lt_scanFuel
  have hlast := hrep.seg.last_eq_getLast?
  rw [hsplit] at hrep hfresh
  have hnodup := addrs_insert prio content hrep.nodup hfresh
  have hcount : q.count + 1 = ((pre ++ (new, prio, content) :: post).length : Int) := by
    rw [hrep.count, List.length_append, List.length_append, List.length_cons]
    omega
  have hparts := hrep.nodup
  rw [addrs_append, List.nodup_append] at hparts
  rw [addrs_append, List.mem_append, not_or] at hfresh
  obtain ⟨hnodupPre, hnodupPost, hdisjoint⟩ := hparts
  obtain ⟨hfreshPre, hfreshPost⟩ := hfresh
  have hlt := hrep.wf.lt_brk hnew
  cases hq : q.last with
  | none =>
      rw [hq] at hlast
      have hnil : xs = [] := by
        by_contra hne
        rw [List.getLast?_eq_some_getLast hne] at hlast
        exact absurd hlast.symm (Option.some_ne_none _)
      rw [hsplit] at hnil
      obtain ⟨hpreNil, hpostNil⟩ := List.append_eq_nil_iff.mp hnil
      subst hpreNil
      subst hpostNil
      refine ⟨_, _, [], [], by rw [linkAhead, hq], hsplit, hall, hstop, hrep.wf, ?_, hnodup, hcount⟩
      exact ⟨rfl, none, hnew, rfl, rfl⟩
  | some tail =>
      have hrun : linkAhead h new q prio = (h.walkBack (fun k _ => decide (prio < k)) (scanFuel q)
          q.last none).bind (linkBetween h new q) := by
        rw [linkAhead, hq]
        rfl
      rw [hrun, hwalk, Option.bind_some]
      cases tmp2 with
      | none =>
          -- the search stops at once: the new item becomes the last one
          have hpostNil : post = [] := hpost.eq_nil_of_null
          subst hpostNil
          have htmp1 : tmp1 = some tail := hpost.2.trans hq
          subst htmp1
          obtain ⟨h₁, hnext, hwf₁, hseg₁, hin₁, hsame₁⟩ :=
            setNext_front (some new) hrep.wf hpre hnodupPre rfl
          have hne₁ : new ≠ tail := fun heq => hfreshPre (heq ▸ hin₁)
          have hnew₁ := (hsame₁ new hne₁).trans hnew
          refine ⟨h₁.update new (some ⟨none, some tail, prio, content⟩),
            { q with last := some new, count := q.count + 1 }, pre, [], ?_, hsplit, hall, hstop,
            hwf₁.update (hwf₁.lt_brk hnew₁) _, ?_, hnodup, hcount⟩
          · show (h.setNext tail (some new)).bind _ = _
            rw [hnext, Option.bind_some, Heap.setPrev_of_cell hnew₁]
            rfl
          · exact seg_insert (hseg₁.update hfreshPre _) ⟨rfl, rfl⟩ (Heap.cells_update_self ..)
      | some behind =>
          obtain ⟨h₁, hprev, hwf₁, hseg₁, hin₁, hsame₁⟩ :=
            setPrev_rest (some new) hrep.wf hpost hnodupPost rfl
          have hne₁ : new ≠ behind := fun heq => hfreshPost (heq ▸ hin₁)
          have hnew₁ := (hsame₁ new hne₁).trans hnew
          have hlinks := Heap.setNext_setPrev hnew₁ tmp1 (some behind)
          have hpre₁ : Seg h₁ none q.first pre tmp1 (some behind) :=
            hpre.congr fun a ha => hsame₁ a (hdisjoint a ha behind hin₁)
          set h₂ := h₁.update new (some ⟨some behind, tmp1, prio, content⟩)
          have hwf₂ : h₂.WellFormed := hwf₁.update (hwf₁.lt_brk hnew₁) _
          have hnew₂ : h₂.cells new = some ⟨some behind, tmp1, prio, content⟩ :=
            Heap.cells_update_self ..
          have hpost₂ : Seg h₂ (some new) (some behind) post q.last none :=
            hseg₁.update hfreshPost _
          have hpre₂ : Seg h₂ none q.first pre tmp1 (some behind) := hpre₁.update hfreshPre _
          cases tmp1 with
          | none =>
              -- everything is behind the new item: it becomes the first one
              have hpreNil : pre = [] := by
                by_contra hne
                have hget := hpre.last_eq_getLast?
                rw [List.getLast?_eq_some_getLast hne] at hget
                exact absurd hget.symm (Option.some_ne_none _)
              subst hpreNil
              refine ⟨h₂, { q with first := some new, count := q.count + 1 }, [], post, ?_, hsplit,
                hall, hstop, hwf₂, ⟨rfl, some behind, hnew₂, hpost₂⟩, hnodup, hcount⟩
              show (h.setPrev behind (some new)).bind _ = _
              rw [hprev]
              show ((h₁.setNext new (some behind)).bind fun h => (h.setPrev new none).bind _) = _
              rw [← Option.bind_assoc, hlinks]
              rfl
          | some before =>
              obtain ⟨h₃, hnext, hwf₃, hseg₃, hin₃, hsame₃⟩ :=
                setNext_front (some new) hwf₂ hpre₂ hnodupPre rfl
              have hne₃ : new ≠ before := fun heq => hfreshPre (heq ▸ hin₃)
              have hpost₃ : Seg h₃ (some new) (some behind) post q.last none :=
                hpost₂.congr fun a ha => hsame₃ a fun heq => hdisjoint before hin₃ a ha heq.symm
              refine ⟨h₃, { q with count := q.count + 1 }, pre, post, ?_, hsplit, hall, hstop, hwf₃,
                seg_insert hseg₃ hpost₃ ((hsame₃ new hne₃).trans hnew₂), hnodup, hcount⟩
              show (h.setPrev behind (some new)).bind _ = _
              rw [hprev]
              show ((h₁.setNext new (some behind)).bind fun h =>
                (h.setPrev new (some before)).bind _) = _
              rw [← Option.bind_assoc, hlinks]
              show (h₂.setNext before (some new)).bind _ = _
              rw [hnext]
              rfl

/-- The items of a queue in the order of their priorities. -/
def Sorted (l : List (κ × α)) : Prop := l.Pairwise fun x y => x.1 ≤ y.1

/-- The place of a new item: behind all items whose priority is not greater. -/
def placed (l : List (κ × α)) (content : α) (prio : κ) : List (κ × α) :=
  (l.filter fun x => x.1 ≤ prio) ++ (prio, content) :: l.filter fun x => prio < x.1

theorem placed_of_split {l₁ l₂ : List (κ × α)} (hle : ∀ x ∈ l₁, x.1 ≤ prio)
    (hlt : ∀ x ∈ l₂, prio < x.1) (content : α) :
    l₁ ++ (prio, content) :: l₂ = placed (l₁ ++ l₂) content prio := by
  obtain ⟨hfront, hback⟩ := @filter_of_split _ _ _ Prod.fst (prio, content) l₁ l₂ hle hlt
  rw [placed, hfront, hback]

theorem sorted_placed (hsorted : Sorted l) (content : α) (prio : κ) :
    Sorted (placed l content prio) := by
  have hle : ∀ x ∈ l.filter fun x => decide (x.1 ≤ prio), x.1 ≤ prio := fun x hx =>
    of_decide_eq_true (List.mem_filter.mp hx).2
  have hlt : ∀ x ∈ l.filter fun x => decide (prio < x.1), prio < x.1 := fun x hx =>
    of_decide_eq_true (List.mem_filter.mp hx).2
  apply @sorted_middle _ _ _ Prod.fst (prio, content)
  · apply List.pairwise_append.mpr
    refine ⟨hsorted.filter _, hsorted.filter _, fun x hx y hy => ?_⟩
    exact (hle x hx).trans (hlt y hy).le
  · exact hle
  · exact fun x hx => (hlt x hx).le

theorem holds_insertQueue (hholds : Holds h q l) (hsorted : Sorted l) (content : α) (prio : κ) :
    ∃ h' q', insertQueue h q content prio = some (h', q') ∧
      Holds h' q' (placed l content prio) := by
  obtain ⟨h', q', hrun, hq'⟩ := holds_insertBehind hholds (fun k => decide (k ≤ prio)) prio content
  refine ⟨h', q', hrun, ?_⟩
  have hle : ∀ x ∈ l.takeWhile fun y => decide (y.1 ≤ prio), x.1 ≤ prio :=
    @mem_takeWhile_le _ _ _ Prod.fst l (prio, content)
  have hlt : ∀ x ∈ l.dropWhile fun y => decide (y.1 ≤ prio), prio < x.1 :=
    @sorted_dropWhile_lt _ _ _ Prod.fst l hsorted (prio, content)
  rw [placed_of_split hle hlt, List.takeWhile_append_dropWhile] at hq'
  exact hq'

theorem holds_insertQueueFromBack (hholds : Holds h q l) (hsorted : Sorted l) (content : α)
    (prio : κ) :
    ∃ h' q', insertQueueFromBack h q content prio = some (h', q') ∧
      Holds h' q' (placed l content prio) := by
  obtain ⟨xs, hrep, hl⟩ := hholds
  obtain ⟨hseg, hfresh⟩ := hrep.alloc_seg ⟨none, none, prio, content⟩
  have hwf := hrep.wf.alloc ⟨none, none, prio, content⟩
  obtain ⟨h', q', pre, post, hrun, hsplit, hall, hstop, hrep'⟩ :=
    linkAhead_rep ⟨hwf, hseg, hrep.nodup, hrep.count⟩ (Heap.cells_update_self ..) hfresh
  refine ⟨h', q', hrun, _, hrep', ?_⟩
  have hparts : pre.map Prod.snd ++ post.map Prod.snd = l := by
    rw [← List.map_append, ← hsplit]
    exact hl
  have hlt : ∀ x ∈ post.map Prod.snd, prio < x.1 := by
    intro x hx
    obtain ⟨y, hy, heq⟩ := List.mem_map.mp hx
    rw [← heq]
    exact of_decide_eq_true (hall y hy)
  have hle : ∀ x ∈ pre.map Prod.snd, x.1 ≤ prio := by
    rw [← hparts] at hsorted
    apply le_of_getLast? (List.pairwise_append.mp hsorted).1
    intro x hx
    rw [List.getLast?_map] at hx
    obtain ⟨y, hy, heq⟩ := Option.map_eq_some_iff.mp hx
    rw [← heq]
    exact not_lt.mp (of_decide_eq_false (hstop y hy))
  rw [List.map_append, List.map_cons, placed_of_split hle hlt, hparts]

theorem holds_insertFirstQueue (hholds : Holds h q l) (hsorted : Sorted l) (content : α)
    (prio : κ) :
    ∃ h' q' l', insertFirstQueue h q content prio = some (h', q') ∧ Holds h' q' l' ∧
      Sorted l' := by
  obtain ⟨h', q', hrun, hq'⟩ := holds_insertBehind hholds (fun k => decide (k < prio)) prio content
  refine ⟨h', q', _, hrun, hq', ?_⟩
  apply @sorted_middle _ _ _ Prod.fst (prio, content)
  · rw [List.takeWhile_append_dropWhile]
    exact hsorted
  · exact @mem_takeWhile_lt _ _ _ Prod.fst l (prio, content)
  · exact @sorted_dropWhile_le _ _ _ Prod.fst l hsorted (prio, content)

omit [LinearOrder κ] in
theorem holds_outFifoQueue (hholds : Holds h q l) :
    ∃ h' q', outFifoQueue h q = some (h', q', l.head?.map Prod.snd) ∧ Holds h' q' l.tail := by
  cases l with
  | nil => exact ⟨h, q, holds_outFifoEvent_nil hholds, hholds⟩
  | cons x l => exact holds_outFifoEvent_cons hholds

end

/-! ## Sequences of operations -/

inductive Operation (κ α : Type)
  | insertQueue (content : α) (prio : κ)
  | insertQueueFromBack (content : α) (prio : κ)
  | insertFirstQueue (content : α) (prio : κ)
  | outFifoQueue

def Operation.run (h : Heap κ α) (q : TQueue) : Operation κ α → Option (Heap κ α × TQueue)
  | .insertQueue content prio => ListQueue.insertQueue h q content prio
  | .insertQueueFromBack content prio => PriorityInsertion.insertQueueFromBack h q content prio
  | .insertFirstQueue content prio => ListQueue.insertFirstQueue h q content prio
  | .outFifoQueue => (PriorityInsertion.outFifoQueue h q).map fun (h, q, _) => (h, q)

def runAll (h : Heap κ α) (q : TQueue) : List (Operation κ α) → Option (Heap κ α × TQueue)
  | [] => some (h, q)
  | op :: ops => (op.run h q).bind fun (h, q) => runAll h q ops

section

variable {h : Heap κ α} {q : TQueue} {l : List (κ × α)}

theorem holds_run (hholds : Holds h q l) (hsorted : Sorted l) (op : Operation κ α) :
    ∃ h' q' l', op.run h q = some (h', q') ∧ Holds h' q' l' ∧ Sorted l' := by
  cases op with
  | insertQueue content prio =>
      obtain ⟨h', q', hrun, hq'⟩ := holds_insertQueue hholds hsorted content prio
      exact ⟨h', q', _, hrun, hq', sorted_placed hsorted content prio⟩
  | insertQueueFromBack content prio =>
      obtain ⟨h', q', hrun, hq'⟩ := holds_insertQueueFromBack hholds hsorted content prio
      exact ⟨h', q', _, hrun, hq', sorted_placed hsorted content prio⟩
  | insertFirstQueue content prio => exact holds_insertFirstQueue hholds hsorted content prio
  | outFifoQueue =>
      obtain ⟨h', q', hrun, hq'⟩ := holds_outFifoQueue hholds
      refine ⟨h', q', l.tail, ?_, hq', hsorted.sublist l.tail_sublist⟩
      rw [Operation.run, hrun]
      rfl

theorem holds_runAll (hholds : Holds h q l) (hsorted : Sorted l) (ops : List (Operation κ α)) :
    ∃ h' q' l', runAll h q ops = some (h', q') ∧ Holds h' q' l' ∧ Sorted l' := by
  induction ops generalizing h q l with
  | nil => exact ⟨h, q, l, rfl, hholds, hsorted⟩
  | cons op ops ih =>
      obtain ⟨h₁, q₁, l₁, hrun, hholds₁, hsorted₁⟩ := holds_run hholds hsorted op
      obtain ⟨h', q', l', hrest, hholds', hsorted'⟩ := ih hholds₁ hsorted₁
      refine ⟨h', q', l', ?_, hholds', hsorted'⟩
      rw [runAll, hrun]
      exact hrest

end

/-- After any operations on an empty queue it is sorted, and an insertion from its end places the
item as an insertion from its start does. -/
theorem runAll_sorted (ops : List (Operation κ α)) :
    ∃ h q l, runAll Heap.empty createQueue ops = some (h, q) ∧ Holds h q l ∧ Sorted l ∧
      ∀ content prio,
        (∃ h' q', insertQueue h q content prio = some (h', q') ∧
          Holds h' q' (placed l content prio)) ∧
        ∃ h' q', insertQueueFromBack h q content prio = some (h', q') ∧
          Holds h' q' (placed l content prio) := by
  obtain ⟨h, q, l, hrun, hholds, hsorted⟩ :=
    holds_runAll holds_createQueue List.Pairwise.nil ops
  exact ⟨h, q, l, hrun, hholds, hsorted, fun content prio =>
    ⟨holds_insertQueue hholds hsorted content prio,
      holds_insertQueueFromBack hholds hsorted content prio⟩⟩

end Dimemas.Utils.PriorityInsertion
