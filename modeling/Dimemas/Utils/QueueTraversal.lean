import Dimemas.Utils.QueueCursor
/-!
# Traversals that remove items

The loop `for (x = head_queue (q); x != NIL; x = next_queue (q))` with a body that takes the current
item out with `extract_from_queue` where a test holds of it. The cursor then stands at the item
before, and there is none before the first one.
-/

namespace Dimemas.Utils.QueueTraversal

open Dimemas.Library.LinkedList
open Dimemas.Utils.ListQueue
open Dimemas.Utils.QueueCursor

variable {κ α : Type}

/-- What a traversal has visited, the queue after each extraction, and the queue at its end. -/
structure Traversal (κ α : Type) where
  visited : List α
  extractions : List (Heap κ α × TQueue)
  heap : Heap κ α
  queue : TQueue

/-- The traversal from the content `here` of the cursor on. -/
def traverseFrom [DecidableEq α] (p : α → Bool) :
    Nat → Heap κ α → TQueue → Option α → Option (Traversal κ α)
  | _, h, q, none => some ⟨[], [], h, q⟩
  | 0, _, _, some _ => none
  | fuel + 1, h, q, some here =>
      if p here then do
        let (h', q') ← extractFromQueue h q here
        let (q'', next) ← nextQueue h' q'
        let rest ← traverseFrom p fuel h' q'' next
        some { rest with
          visited := here :: rest.visited, extractions := (h', q') :: rest.extractions }
      else do
        let (q', next) ← nextQueue h q
        let rest ← traverseFrom p fuel h q' next
        some { rest with visited := here :: rest.visited }

def traverseQueue [DecidableEq α] (p : α → Bool) (h : Heap κ α) (q : TQueue) :
    Option (Traversal κ α) := do
  let (q', here) ← headQueue h q
  traverseFrom p (scanFuel q) h q' here

/-- The traversal of a queue with the contents `cs` visits them in order and leaves those of which
the test does not hold, in a queue that is consistent after each extraction. -/
structure Clears (p : α → Bool) (cs : List α) (t : Traversal κ α) : Prop where
  visited : t.visited = cs
  consistent : ∀ s ∈ t.extractions, ∃ left, Spells s.1 s.2 left
  left : Spells t.heap t.queue (cs.filter fun c => !p c)

/-- Where several items are in the queue, the test does not hold of the first one. -/
def FirstStays (p : α → Bool) (cs : List α) : Prop :=
  cs.length ≤ 1 ∨ ∀ c ∈ cs.head?, p c = false

section

variable {p : α → Bool} {h h' : Heap κ α} {q q' : TQueue}
variable {pre rest xs : List (Entry κ α)} {x : Entry κ α} {c : α} {cs : List α}

theorem filter_kept (hp : p c = false) :
    ((c :: cs).filter fun c => !p c) = c :: cs.filter fun c => !p c := by
  apply List.filter_cons_of_pos
  rw [hp]
  rfl

theorem filter_taken (hp : p c = true) :
    ((c :: cs).filter fun c => !p c) = cs.filter fun c => !p c := by
  apply List.filter_cons_of_neg
  rw [hp]
  exact Bool.false_ne_true

theorem QueueRep.spells (hrep : QueueRep h q xs) : Spells h q (xs.map fun x => x.2.2) :=
  ⟨xs, hrep, rfl⟩

def leaves (p : α → Bool) (pre rest : List (Entry κ α)) : List α :=
  (pre.map fun x => x.2.2) ++ (rest.map fun x => x.2.2).filter fun c => !p c

theorem leaves_kept (hp : p x.2.2 = false) :
    leaves p (pre ++ [x]) rest = leaves p pre (x :: rest) := by
  rw [leaves, leaves, List.map_cons, filter_kept hp, List.map_append]
  exact (List.append_cons ..).symm

theorem leaves_taken (hp : p x.2.2 = true) : leaves p pre (x :: rest) = leaves p pre rest := by
  rw [leaves, leaves, List.map_cons, filter_taken hp]

variable [DecidableEq α]

theorem traverseFrom_kept {fuel : Nat} {here : α} {next : Option α} (hp : p here = false)
    (hnext : nextQueue h q = some (q', next)) {t : Traversal κ α}
    (hrest : traverseFrom p fuel h q' next = some t) :
    traverseFrom p (fuel + 1) h q (some here) =
      some { t with visited := here :: t.visited } := by
  rw [traverseFrom, if_neg (ne_true_of_eq_false hp), hnext]
  show (traverseFrom p fuel h q' next).bind _ = _
  rw [hrest]
  rfl

theorem traverseFrom_taken {fuel : Nat} {here : α} {next : Option α} {q'' : TQueue}
    (hp : p here = true) (hextract : extractFromQueue h q here = some (h', q'))
    (hnext : nextQueue h' q' = some (q'', next)) {t : Traversal κ α}
    (hrest : traverseFrom p fuel h' q'' next = some t) :
    traverseFrom p (fuel + 1) h q (some here) =
      some { t with
        visited := here :: t.visited, extractions := (h', q') :: t.extractions } := by
  rw [traverseFrom, if_pos hp, hextract]
  show (nextQueue h' q').bind _ = _
  rw [hnext]
  show (traverseFrom p fuel h' q'' next).bind _ = _
  rw [hrest]
  rfl

/-- A traversal that has kept an item goes through the rest of the queue: the cursor can always go
back to an item before. -/
theorem traverseFrom_behind {fuel : Nat} (hat : AtCursor h q pre rest) (hpre : pre ≠ [])
    (hdistinct : ((pre ++ rest).map fun x => x.2.2).Nodup) (hfuel : rest.length ≤ fuel) :
    ∃ t, traverseFrom p fuel h q (rest.head?.map fun x => x.2.2) = some t ∧
      t.visited = rest.map (fun x => x.2.2) ∧
      (∀ s ∈ t.extractions, ∃ left, Spells s.1 s.2 left) ∧
      Spells t.heap t.queue (leaves p pre rest) := by
  induction rest generalizing pre h q fuel with
  | nil =>
      refine ⟨⟨[], [], h, q⟩, ?_, rfl, fun s hs => absurd hs List.not_mem_nil, ?_⟩
      · cases fuel with
        | zero => rfl
        | succ fuel => rfl
      · have hspells := QueueRep.spells hat.rep
        rw [List.append_nil] at hspells
        rw [leaves, List.map_nil, List.filter_nil, List.append_nil]
        exact hspells
  | cons x rest ih =>
      cases fuel with
      | zero => exact absurd hfuel (Nat.not_succ_le_zero _)
      | succ fuel =>
          have hlength : rest.length ≤ fuel := Nat.le_of_succ_le_succ hfuel
          cases hp : p x.2.2 with
          | false =>
              obtain ⟨q', hnext, hat'⟩ := hat.nextQueue
              have hdistinct' : (((pre ++ [x]) ++ rest).map fun x => x.2.2).Nodup := by
                rw [← List.append_cons]
                exact hdistinct
              obtain ⟨t, hrun, hvisited, hconsistent, hleft⟩ :=
                ih hat' (List.append_ne_nil_of_right_ne_nil pre (List.cons_ne_nil x [])) hdistinct'
                  hlength
              refine ⟨_, traverseFrom_kept hp hnext hrun, ?_, hconsistent, ?_⟩
              · exact congrArg (List.cons x.2.2) hvisited
              · rw [← leaves_kept hp]
                exact hleft
          | true =>
              rw [List.map_append, List.map_cons, List.nodup_middle, List.nodup_cons,
                ← List.map_append] at hdistinct
              have hbefore : ∀ y ∈ pre, y.2.2 ≠ x.2.2 := by
                intro y hy heq
                rw [← heq] at hdistinct
                exact hdistinct.1 (List.mem_map.mpr ⟨y, List.mem_append_left rest hy, rfl⟩)
              obtain ⟨h', q', hextract, hrep, hcurr⟩ := hat.extractFromQueue hbefore
              -- the cursor stands at the last item that was kept
              obtain ⟨init, y, hsplit⟩ := List.eq_nil_or_concat pre |>.resolve_left hpre
              rw [List.concat_eq_append] at hsplit
              have hspells := QueueRep.spells hrep
              rw [hsplit] at hrep hcurr
              rw [List.getLast?_concat] at hcurr
              rw [List.append_assoc] at hrep
              obtain ⟨q'', hnext, hat'⟩ := AtCursor.nextQueue ⟨hrep, hcurr⟩
              rw [← hsplit] at hat'
              obtain ⟨t, hrun, hvisited, hconsistent, hleft⟩ := ih hat' hpre hdistinct.2 hlength
              refine ⟨_, traverseFrom_taken hp hextract hnext hrun, ?_, ?_, ?_⟩
              · exact congrArg (List.cons x.2.2) hvisited
              · exact List.forall_mem_cons.mpr ⟨⟨_, hspells⟩, hconsistent⟩
              · rw [leaves_taken hp]
                exact hleft

theorem traverseQueue_eq (hrep : QueueRep h q xs) :
    traverseQueue p h q =
      traverseFrom p (scanFuel q) h { q with curr := q.first } (xs.head?.map fun x => x.2.2) := by
  rw [traverseQueue, (QueueRep.headQueue hrep).1]
  rfl

/-- A first item that stays is passed, and everything else is gone through. -/
theorem traverseQueue_kept (hrep : QueueRep h q (x :: rest))
    (hdistinct : ((x :: rest).map fun x => x.2.2).Nodup) (hp : p x.2.2 = false) :
    ∃ t, traverseQueue p h q = some t ∧ Clears p ((x :: rest).map fun x => x.2.2) t := by
  obtain ⟨q', hnext, hat⟩ := AtCursor.nextQueue (QueueRep.headQueue hrep).2
  have hfuel : rest.length ≤ q.count.toNat := by
    have hlt := hrep.length_lt_scanFuel
    rw [List.length_cons, scanFuel] at hlt
    omega
  obtain ⟨t, hrun, hvisited, hconsistent, hleft⟩ :=
    traverseFrom_behind (p := p) hat (List.cons_ne_nil x []) hdistinct hfuel
  refine ⟨_, (traverseQueue_eq hrep).trans (traverseFrom_kept hp hnext hrun), ?_, hconsistent, ?_⟩
  · exact congrArg (List.cons x.2.2) hvisited
  · rw [leaves_kept hp] at hleft
    exact hleft

/-- Where the first item goes, the traversal ends behind it. -/
theorem traverseQueue_taken (hrep : QueueRep h q (x :: rest)) (hp : p x.2.2 = true) :
    ∃ t, traverseQueue p h q = some t ∧ t.visited = [x.2.2] ∧
      (∀ s ∈ t.extractions, ∃ left, Spells s.1 s.2 left) ∧
      Spells t.heap t.queue (rest.map fun x => x.2.2) := by
  have hat := (QueueRep.headQueue hrep).2
  obtain ⟨h', q', hextract, hrep', hcurr⟩ :=
    hat.extractFromQueue fun y hy => absurd hy List.not_mem_nil
  have hspells := QueueRep.spells hrep'
  have hnext : nextQueue h' q' = some (q', none) := nextQueue_null hcurr
  have hend : traverseFrom p q.count.toNat h' q' none = some ⟨[], [], h', q'⟩ := by
    rw [traverseFrom]
  refine ⟨_, (traverseQueue_eq hrep).trans (traverseFrom_taken hp hextract hnext hend), rfl, ?_,
    hspells⟩
  exact List.forall_mem_singleton.mpr ⟨_, hspells⟩

/-- The traversal does what it should exactly where the first of several items stays. -/
theorem clears_iff (hq : Spells h q cs) (hdistinct : cs.Nodup) :
    ∃ t, traverseQueue p h q = some t ∧ (Clears p cs t ↔ FirstStays p cs) := by
  obtain ⟨xs, hrep, hcs⟩ := hq
  subst hcs
  cases xs with
  | nil =>
      have hend : traverseFrom p (scanFuel q) h { q with curr := q.first } none =
          some ⟨[], [], h, { q with curr := q.first }⟩ := by
        rw [traverseFrom]
      refine ⟨_, (traverseQueue_eq hrep).trans hend, fun _ => Or.inl (Nat.zero_le 1), fun _ => ?_⟩
      exact ⟨rfl, fun s hs => absurd hs List.not_mem_nil, [], QueueRep.setCurr hrep _, rfl⟩
  | cons x rest =>
      cases hp : p x.2.2 with
      | false =>
          obtain ⟨t, hrun, hclears⟩ := traverseQueue_kept hrep hdistinct hp
          refine ⟨t, hrun, fun _ => Or.inr fun c hc => ?_, fun _ => hclears⟩
          rw [← Option.some.inj hc]
          exact hp
      | true =>
          obtain ⟨t, hrun, hvisited, hconsistent, hleft⟩ := traverseQueue_taken hrep hp
          refine ⟨t, hrun, fun hclears => Or.inl ?_, fun hcond => ?_⟩
          · have heq := hclears.visited
            rw [hvisited] at heq
            rw [← heq]
            exact Nat.le_refl 1
          · have hlength : ((x :: rest).map fun x => x.2.2).length ≤ 1 := by
              rcases hcond with hshort | hfirst
              · exact hshort
              · exact absurd ((hfirst x.2.2 rfl).symm.trans hp) Bool.false_ne_true
            rw [List.length_map, List.length_cons] at hlength
            have hnil : rest = [] := List.length_eq_zero_iff.mp (by omega)
            subst hnil
            refine ⟨hvisited, hconsistent, ?_⟩
            rw [List.map_cons, filter_taken hp]
            exact hleft

end

def twoItems : Heap Nat Nat where
  cells a := if a = 0 then some ⟨some 1, none, 0, 7⟩ else
    if a = 1 then some ⟨none, some 0, 0, 8⟩ else none
  brk := 2

def twoQueue : TQueue := ⟨some 0, some 1, none, 2⟩

theorem spells_twoItems : Spells twoItems twoQueue [7, 8] := by
  refine ⟨[(0, 0, 7), (1, 0, 8)], ⟨fun a ha => ?_, ?_, by decide, rfl⟩, rfl⟩
  · have ha₂ : 2 ≤ a := ha
    have h₀ : a ≠ 0 := by omega
    have h₁ : a ≠ 1 := by omega
    exact (if_neg h₀).trans (if_neg h₁)
  · exact ⟨rfl, some 1, rfl, rfl, none, rfl, rfl, rfl⟩

theorem clears_iff_twoItems :
    ∃ t, traverseQueue (fun c => c == 8) twoItems twoQueue = some t ∧
      (Clears (fun c => c == 8) [7, 8] t ↔ FirstStays (fun c => c == 8) [7, 8]) :=
  clears_iff spells_twoItems (by decide)

/-- A test of the first item only: the second one is never visited. -/
theorem not_clears :
    ¬ ∀ (p : Nat → Bool) (h : Heap Nat Nat) (q : TQueue) (cs : List Nat), Spells h q cs →
      cs.Nodup → ∃ t, traverseQueue p h q = some t ∧ Clears p cs t := by
  intro hall
  obtain ⟨t, hrun, hclears⟩ := hall (fun c => c == 7) _ _ _ spells_twoItems (by decide)
  have hvisited : t.visited = [7] := by
    have heq : (traverseQueue (fun c => c == 7) twoItems twoQueue).map Traversal.visited =
        some [7] := rfl
    rw [hrun] at heq
    exact Option.some.inj heq
  have hboth := hclears.visited
  rw [hvisited] at hboth
  exact absurd hboth (by decide)

end Dimemas.Utils.QueueTraversal
