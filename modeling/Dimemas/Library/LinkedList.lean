import Mathlib.Data.List.Basic
import Mathlib.Data.List.Induction
import Mathlib.Data.List.Nodup
/-!
# Doubly linked lists in an explicit heap

Cells with `next` and `prev` links, a heap that maps addresses to cells, and the
segment predicate `Seg`, which says that a part of the heap spells a given list.
Reading or writing through a null or dangling address fails, so that a program
over this heap returns a result only if it never does.
-/

namespace Dimemas.Library.LinkedList

/-- A cell of a doubly linked list sorted by `key`. -/
structure Cell (κ : Type*) (α : Type*) where
  next : Option Nat
  prev : Option Nat
  key : κ
  content : α
deriving DecidableEq, Repr

/-- Allocated cells, and the first address that was never handed out. -/
structure Heap (κ : Type*) (α : Type*) where
  cells : Nat → Option (Cell κ α)
  brk : Nat

variable {κ α : Type*}

namespace Heap

def empty : Heap κ α := ⟨fun _ => none, 0⟩

/-- No address at or above the break is allocated. -/
def WellFormed (h : Heap κ α) : Prop := ∀ a, h.brk ≤ a → h.cells a = none

def update (h : Heap κ α) (a : Nat) (c : Option (Cell κ α)) : Heap κ α :=
  { h with cells := fun b => if b = a then c else h.cells b }

@[simp] theorem cells_update_self (h : Heap κ α) (a : Nat) (c : Option (Cell κ α)) :
    (h.update a c).cells a = c := by
  simp [update]

theorem cells_update_of_ne (h : Heap κ α) {a b : Nat} (c : Option (Cell κ α))
    (hne : b ≠ a) : (h.update a c).cells b = h.cells b := by
  simp [update, hne]

theorem update_update (h : Heap κ α) (a : Nat) (c d : Option (Cell κ α)) :
    (h.update a c).update a d = h.update a d := by
  unfold update
  congr 1
  funext b
  by_cases hb : b = a
  · rw [if_pos hb, if_pos hb]
  · rw [if_neg hb, if_neg hb]
    exact if_neg hb

@[simp] theorem brk_update (h : Heap κ α) (a : Nat) (c : Option (Cell κ α)) :
    (h.update a c).brk = h.brk := rfl

/-- `malloc` of a cell with the given fields. -/
def alloc (h : Heap κ α) (c : Cell κ α) : Heap κ α × Nat :=
  ({ h with brk := h.brk + 1 }.update h.brk (some c), h.brk)

def free (h : Heap κ α) (a : Nat) : Option (Heap κ α) :=
  (h.cells a).map fun _ => h.update a none

def setNext (h : Heap κ α) (a : Nat) (n : Option Nat) : Option (Heap κ α) :=
  (h.cells a).map fun c => h.update a (some { c with next := n })

def setPrev (h : Heap κ α) (a : Nat) (p : Option Nat) : Option (Heap κ α) :=
  (h.cells a).map fun c => h.update a (some { c with prev := p })

theorem setNext_of_cell {h : Heap κ α} {a : Nat} {c : Cell κ α} (hc : h.cells a = some c)
    (n : Option Nat) : h.setNext a n = some (h.update a (some { c with next := n })) := by
  simp [setNext, hc]

theorem setPrev_of_cell {h : Heap κ α} {a : Nat} {c : Cell κ α} (hc : h.cells a = some c)
    (p : Option Nat) : h.setPrev a p = some (h.update a (some { c with prev := p })) := by
  simp [setPrev, hc]

/-- Both links of a cell are written, `prev` first. -/
theorem setPrev_setNext {h : Heap κ α} {a : Nat} {c : Cell κ α} (hc : h.cells a = some c)
    (p n : Option Nat) : ((h.setPrev a p).bind fun h => h.setNext a n) =
      some (h.update a (some { c with next := n, prev := p })) := by
  rw [setPrev_of_cell hc, Option.bind_some, setNext_of_cell (cells_update_self ..), update_update]

/-- Both links of a cell are written, `next` first. -/
theorem setNext_setPrev {h : Heap κ α} {a : Nat} {c : Cell κ α} (hc : h.cells a = some c)
    (p n : Option Nat) : ((h.setNext a n).bind fun h => h.setPrev a p) =
      some (h.update a (some { c with next := n, prev := p })) := by
  rw [setNext_of_cell hc, Option.bind_some, setPrev_of_cell (cells_update_self ..), update_update]

theorem free_of_cell {h : Heap κ α} {a : Nat} {c : Cell κ α} (hc : h.cells a = some c) :
    h.free a = some (h.update a none) := by
  simp [free, hc]

theorem WellFormed.lt_brk {h : Heap κ α} (hwf : h.WellFormed) {a : Nat} {c : Cell κ α}
    (hc : h.cells a = some c) : a < h.brk := by
  by_contra hge
  rw [hwf a (by omega)] at hc
  cases hc

theorem WellFormed.update {h : Heap κ α} (hwf : h.WellFormed) {a : Nat} (ha : a < h.brk)
    (c : Option (Cell κ α)) : (h.update a c).WellFormed := by
  intro b hb
  rw [brk_update] at hb
  rw [cells_update_of_ne h c (by omega), hwf b hb]

theorem WellFormed.alloc {h : Heap κ α} (hwf : h.WellFormed) (c : Cell κ α) :
    (h.alloc c).1.WellFormed := by
  intro b hb
  change h.brk + 1 ≤ b at hb
  change (Heap.update _ _ _).cells b = none
  rw [cells_update_of_ne _ _ (by omega)]
  exact hwf b (by omega)

theorem cells_alloc_of_cell {h : Heap κ α} (hwf : h.WellFormed) (c : Cell κ α) {a : Nat}
    {d : Cell κ α} (hd : h.cells a = some d) : (h.alloc c).1.cells a = some d := by
  have hlt := hwf.lt_brk hd
  change (Heap.update _ _ _).cells a = some d
  rw [cells_update_of_ne _ _ (by omega)]
  exact hd

/-- Walks from `cur` while `p` holds of the cell, as `while (p(tmp1)) { tmp2 = tmp1;
tmp1 = tmp1->next; if (tmp1 == NULL) break; }` does. The result is the pair
`(tmp1, tmp2)`; `fuel` bounds the number of cells visited. -/
def walk (h : Heap κ α) (p : κ → α → Bool) : Nat → Option Nat → Option Nat →
    Option (Option Nat × Option Nat)
  | 0, _, _ => none
  | _ + 1, none, back => some (none, back)
  | fuel + 1, some a, back =>
      (h.cells a).bind fun c =>
        if p c.key c.content then walk h p fuel c.next (some a) else some (some a, back)

/-- Walks back from `cur` over the `prev` links while `p` holds of the cell. The result is the cell
where the walk stopped and the one that it came from. -/
def walkBack (h : Heap κ α) (p : κ → α → Bool) : Nat → Option Nat → Option Nat →
    Option (Option Nat × Option Nat)
  | 0, _, _ => none
  | _ + 1, none, ahead => some (none, ahead)
  | fuel + 1, some a, ahead =>
      (h.cells a).bind fun c =>
        if p c.key c.content then walkBack h p fuel c.prev (some a) else some (some a, ahead)

end Heap

/-- An entry of a represented list: its cell's address, key and content. -/
abbrev Entry (κ : Type*) (α : Type*) := Nat × κ × α

/-- The addresses of the cells a represented list occupies. -/
def addrs (xs : List (Entry κ α)) : List Nat := xs.map Prod.fst

@[simp] theorem addrs_nil : addrs ([] : List (Entry κ α)) = [] := rfl

@[simp] theorem addrs_cons (x : Entry κ α) (xs : List (Entry κ α)) :
    addrs (x :: xs) = x.1 :: addrs xs := rfl

@[simp] theorem addrs_append (xs ys : List (Entry κ α)) :
    addrs (xs ++ ys) = addrs xs ++ addrs ys := List.map_append

/-- `Seg h back start xs last stop` holds when the cells reached from `start` spell
`xs`, the first of them points back to `back`, the last one is `last` and points
on to `stop`. -/
def Seg (h : Heap κ α) : Option Nat → Option Nat → List (Entry κ α) →
    Option Nat → Option Nat → Prop
  | back, start, [], last, stop => start = stop ∧ back = last
  | back, start, (a, k, c) :: xs, last, stop =>
      start = some a ∧ ∃ n, h.cells a = some ⟨n, back, k, c⟩ ∧ Seg h (some a) n xs last stop

variable {h h' : Heap κ α} {back start last stop : Option Nat} {xs ys : List (Entry κ α)}

theorem Seg.congr (hseg : Seg h back start xs last stop)
    (hsame : ∀ a ∈ addrs xs, h'.cells a = h.cells a) : Seg h' back start xs last stop := by
  induction xs generalizing back start with
  | nil => exact hseg
  | cons x xs ih =>
      obtain ⟨a, k, c⟩ := x
      obtain ⟨hstart, n, hcell, htail⟩ := hseg
      refine ⟨hstart, n, ?_, ih htail fun b hb => hsame b (by simp [hb])⟩
      rw [hsame a (by simp), hcell]

theorem Seg.update (hseg : Seg h back start xs last stop) {a : Nat} (ha : a ∉ addrs xs)
    (c : Option (Cell κ α)) : Seg (h.update a c) back start xs last stop :=
  hseg.congr fun _ hb => h.cells_update_of_ne c fun heq => ha (heq ▸ hb)

theorem Seg.exists_cell (hseg : Seg h back start xs last stop) {a : Nat} (ha : a ∈ addrs xs) :
    ∃ c, h.cells a = some c := by
  induction xs generalizing back start with
  | nil => simp at ha
  | cons x xs ih =>
      obtain ⟨b, k, c⟩ := x
      obtain ⟨-, n, hcell, htail⟩ := hseg
      rcases List.mem_cons.mp ha with rfl | hin
      · exact ⟨_, hcell⟩
      · exact ih htail hin

theorem seg_append : Seg h back start (xs ++ ys) last stop ↔
    ∃ mid here, Seg h back start xs mid here ∧ Seg h mid here ys last stop := by
  induction xs generalizing back start with
  | nil =>
      constructor
      · exact fun hseg => ⟨back, start, ⟨rfl, rfl⟩, hseg⟩
      · rintro ⟨mid, here, ⟨rfl, rfl⟩, hseg⟩
        exact hseg
  | cons x xs ih =>
      obtain ⟨a, k, c⟩ := x
      simp only [List.cons_append, Seg, ih]
      constructor
      · rintro ⟨hstart, n, hcell, mid, here, hxs, hys⟩
        exact ⟨mid, here, ⟨hstart, n, hcell, hxs⟩, hys⟩
      · rintro ⟨mid, here, ⟨hstart, n, hcell, hxs⟩, hys⟩
        exact ⟨hstart, n, hcell, mid, here, hxs, hys⟩

theorem Seg.last_eq_getLast? (hseg : Seg h back start xs last stop) :
    last = (xs.getLast?.map Prod.fst).or back := by
  induction xs generalizing back start with
  | nil => simpa using hseg.2.symm
  | cons x xs ih =>
      obtain ⟨a, k, c⟩ := x
      obtain ⟨-, n, -, htail⟩ := hseg
      rw [ih htail, List.getLast?_cons]
      cases xs.getLast? <;> rfl

theorem Seg.eq_nil_of_null (hseg : Seg h back none xs last stop) : xs = [] := by
  cases xs with
  | nil => rfl
  | cons x xs => cases hseg.1

theorem Seg.unique {last' : Option Nat} (hxs : Seg h back start xs last none)
    (hys : Seg h back start ys last' none) : xs = ys := by
  induction xs generalizing back start ys with
  | nil =>
      rw [hxs.1] at hys
      exact hys.eq_nil_of_null.symm
  | cons x xs ih =>
      obtain ⟨a, k, c⟩ := x
      obtain ⟨rfl, m, hcell, htail⟩ := hxs
      cases ys with
      | nil => cases hys.1
      | cons y ys =>
          obtain ⟨b, k', c'⟩ := y
          obtain ⟨hb, m', hcell', htail'⟩ := hys
          cases hb
          rw [hcell] at hcell'
          cases hcell'
          rw [ih htail htail']

/-- The walk stops exactly between the prefix on which `p` holds and the rest. -/
theorem Seg.walk_eq {p : κ → α → Bool} (hseg : Seg h back start xs last none) {fuel : Nat}
    (hfuel : xs.length < fuel) :
    ∃ tmp1 tmp2, h.walk p fuel start back = some (tmp1, tmp2) ∧
      Seg h back start (xs.takeWhile fun x => p x.2.1 x.2.2) tmp2 tmp1 ∧
      Seg h tmp2 tmp1 (xs.dropWhile fun x => p x.2.1 x.2.2) last none := by
  induction xs generalizing back start fuel with
  | nil =>
      obtain ⟨rfl, rfl⟩ := hseg
      obtain ⟨fuel, rfl⟩ : ∃ n, fuel = n + 1 := ⟨fuel - 1, by simp at hfuel; omega⟩
      exact ⟨none, back, rfl, ⟨rfl, rfl⟩, rfl, rfl⟩
  | cons x xs ih =>
      obtain ⟨a, k, c⟩ := x
      obtain ⟨rfl, n, hcell, htail⟩ := hseg
      obtain ⟨fuel, rfl⟩ : ∃ m, fuel = m + 1 := ⟨fuel - 1, by simp at hfuel; omega⟩
      by_cases hp : p k c
      · obtain ⟨tmp1, tmp2, hwalk, hpre, hpost⟩ :=
          ih htail (show xs.length < fuel by simpa using hfuel)
        refine ⟨tmp1, tmp2, ?_, ?_, ?_⟩
        · simp [Heap.walk, hcell, hp, hwalk]
        · rw [List.takeWhile_cons_of_pos (by simpa using hp)]
          exact ⟨rfl, n, hcell, hpre⟩
        · rwa [List.dropWhile_cons_of_pos (by simpa using hp)]
      · refine ⟨some a, back, ?_, ?_, ?_⟩
        · simp [Heap.walk, hcell, hp]
        · rw [List.takeWhile_cons_of_neg (by simpa using hp)]
          exact ⟨rfl, rfl⟩
        · rw [List.dropWhile_cons_of_neg (by simpa using hp)]
          exact ⟨rfl, n, hcell, htail⟩

/-- The walk back stops between the last entries on which `p` holds and the rest. -/
theorem Seg.walkBack_eq {p : κ → α → Bool} (hseg : Seg h none start xs last stop) {fuel : Nat}
    (hfuel : xs.length < fuel) :
    ∃ pre post tmp1 tmp2, h.walkBack p fuel last stop = some (tmp1, tmp2) ∧ xs = pre ++ post ∧
      Seg h none start pre tmp1 tmp2 ∧ Seg h tmp1 tmp2 post last stop ∧
      (∀ x ∈ post, p x.2.1 x.2.2 = true) ∧ ∀ x ∈ pre.getLast?, p x.2.1 x.2.2 = false := by
  induction xs using List.reverseRecOn generalizing last stop fuel with
  | nil =>
      obtain ⟨hstart, hlast⟩ := hseg
      cases fuel with
      | zero => exact absurd hfuel (Nat.not_lt_zero _)
      | succ fuel =>
          refine ⟨[], [], none, stop, ?_, rfl, ⟨hstart, rfl⟩, ⟨rfl, hlast⟩,
            fun x hx => absurd hx List.not_mem_nil, fun x hx => absurd hx (Option.not_mem_none x)⟩
          rw [← hlast]
          rfl
  | append_singleton xs x ih =>
      obtain ⟨mid, here, hxs, hhere, next, hcell, hnext, hlast⟩ := seg_append.mp hseg
      rw [List.length_append] at hfuel
      cases fuel with
      | zero => exact absurd hfuel (Nat.not_lt_zero _)
      | succ fuel =>
          have hlength : xs.length < fuel := Nat.lt_of_succ_lt_succ hfuel
          cases hp : p x.2.1 x.2.2 with
          | true =>
              rw [hhere] at hxs
              obtain ⟨pre, post, tmp1, tmp2, hwalk, hsplit, hpre, hpost, hall, hstop⟩ :=
                ih hxs hlength
              refine ⟨pre, post ++ [x], tmp1, tmp2, ?_, ?_, hpre, ?_, ?_, hstop⟩
              · rw [← hlast, Heap.walkBack, hcell, Option.bind_some, if_pos hp]
                exact hwalk
              · rw [hsplit, List.append_assoc]
              · exact seg_append.mpr ⟨mid, some x.1, hpost, rfl, next, hcell, hnext, hlast⟩
              · intro y hy
                rcases List.mem_append.mp hy with hin | hin
                · exact hall y hin
                · rw [List.mem_singleton.mp hin]
                  exact hp
          | false =>
              refine ⟨xs ++ [x], [], some x.1, stop, ?_, (List.append_nil _).symm, ?_, ⟨rfl, hlast⟩,
                fun y hy => absurd hy List.not_mem_nil, ?_⟩
              · rw [← hlast, Heap.walkBack, hcell, Option.bind_some,
                  if_neg (ne_true_of_eq_false hp)]
              · exact seg_append.mpr ⟨mid, here, hxs, hhere, next, hcell, hnext, rfl⟩
              · intro y hy
                rw [List.getLast?_concat] at hy
                rw [← Option.some.inj hy]
                exact hp

/-- Redirecting the `next` link of a segment's last cell moves its stop. -/
theorem Seg.setNext_last (hseg : Seg h back start xs last stop) (hnodup : (addrs xs).Nodup)
    (hne : xs ≠ []) (n : Option Nat) :
    ∃ a ∈ addrs xs, last = some a ∧ ∃ c, h.cells a = some c ∧
      Seg (h.update a (some { c with next := n })) back start xs last n := by
  induction xs generalizing back start with
  | nil => exact absurd rfl hne
  | cons x xs ih =>
      obtain ⟨a, k, c⟩ := x
      obtain ⟨rfl, m, hcell, htail⟩ := hseg
      obtain ⟨hfresh, hnodup⟩ := List.nodup_cons.mp hnodup
      by_cases hxs : xs = []
      · subst hxs
        obtain ⟨rfl, rfl⟩ := htail
        exact ⟨a, by simp, rfl, _, hcell, rfl, n, by simp, rfl, rfl⟩
      · obtain ⟨b, hb, hlast, d, hd, hseg'⟩ := ih htail hnodup hxs
        have hba : a ≠ b := fun heq => hfresh (heq ▸ hb)
        refine ⟨b, by simp [hb], hlast, d, hd, rfl, m, ?_, hseg'⟩
        rw [Heap.cells_update_of_ne _ _ hba, hcell]

/-- Redirecting the `prev` link of a segment's first cell moves its start. -/
theorem Seg.setPrev_head {a : Nat} {k : κ} {c : α} {rest : List (Entry κ α)}
    (hseg : Seg h back start ((a, k, c) :: rest) last stop)
    (hnodup : (addrs ((a, k, c) :: rest)).Nodup) (p : Option Nat) :
    ∃ d, h.cells a = some d ∧
      Seg (h.update a (some { d with prev := p })) p start ((a, k, c) :: rest) last stop := by
  obtain ⟨rfl, n, hcell, htail⟩ := hseg
  refine ⟨_, hcell, rfl, n, by simp, htail.update ?_ _⟩
  exact (List.nodup_cons.mp hnodup).1

end Dimemas.Library.LinkedList
