import Dimemas.Library.LinkedList
import Mathlib.Data.List.TakeWhile
import Mathlib.Order.Lattice
/-!
# The linked queues of `list.c`

The queue descriptor and the operations on it, statement by statement over an
explicit heap of `t_item` cells. `none` is a panic, or a read through a null or
freed pointer. `Holds` relates a queue to the list it stands for, and there is
one lemma per operation that says what it does to that list.
-/

namespace Dimemas.Utils.ListQueue

open Dimemas.Library.LinkedList

/-- `struct t_queue`. -/
structure TQueue where
  first : Option Nat
  last : Option Nat
  curr : Option Nat
  count : Int
deriving DecidableEq, Repr

variable {κ α : Type}

def createQueue : TQueue := ⟨none, none, none, 0⟩

def countQueue (q : TQueue) : Int := q.count

/-- Bound on the cells a scan of the queue can visit. -/
def scanFuel (q : TQueue) : Nat := q.count.toNat + 1

/-- The search and the pointer surgery that `insert_event`, `insert_queue` and
`insert_first_queue` share: `newElement` goes behind the leading items whose key
satisfies `ahead`. -/
def linkBehind (ahead : κ → Bool) (h : Heap κ α) (newElement : Nat) (q : TQueue) :
    Option (Heap κ α × TQueue) :=
  match q.first with
  | none =>
      some (h, { q with
        first := some newElement, last := some newElement, count := q.count + 1 })
  | some _ => do
      let (tmp1, tmp2) ← h.walk (fun k _ => ahead k) (scanFuel q) q.first none
      match tmp2, tmp1 with
      | none, none => none
      | none, some behind =>
          -- Insertion on queue top
          let h ← h.setNext newElement tmp1
          let h ← h.setPrev behind (some newElement)
          some (h, { q with first := some newElement, count := q.count + 1 })
      | some before, some behind =>
          let h ← h.setNext before (some newElement)
          let h ← h.setPrev newElement tmp2
          let h ← h.setNext newElement tmp1
          let h ← h.setPrev behind (some newElement)
          some (h, { q with count := q.count + 1 })
      | some before, none =>
          let h ← h.setNext before (some newElement)
          let h ← h.setPrev newElement tmp2
          let h ← h.setNext newElement tmp1
          some (h, { q with last := some newElement, count := q.count + 1 })

def insertBehind (ahead : κ → Bool) (h : Heap κ α) (q : TQueue) (key : κ) (content : α) :
    Option (Heap κ α × TQueue) :=
  let (h, newElement) := h.alloc ⟨none, none, key, content⟩
  linkBehind ahead h newElement q

def insertQueue [LinearOrder κ] (h : Heap κ α) (q : TQueue) (content : α) (prio : κ) :
    Option (Heap κ α × TQueue) :=
  insertBehind (fun k => k ≤ prio) h q prio content

def insertFirstQueue [LinearOrder κ] (h : Heap κ α) (q : TQueue) (content : α) (prio : κ) :
    Option (Heap κ α × TQueue) :=
  insertBehind (fun k => k < prio) h q prio content

/-- The branches of `extract_from_queue` that take an item out from between its
neighbours `tmp2` and `next`. -/
def relinkAround (h : Heap κ α) (q : TQueue) (tmp2 next : Option Nat) :
    Option (Heap κ α × TQueue) :=
  match tmp2, next with
  | none, some behind =>
      -- Was queue head
      (h.setPrev behind none).map fun h => (h, { q with first := next })
  | none, none => some (h, { q with first := next, last := none })
  | some before, some behind => do
      let h ← h.setNext before next
      let h ← h.setPrev behind tmp2
      some (h, q)
  | some before, none =>
      (h.setNext before none).map fun h => (h, { q with last := tmp2 })

def extractFromQueue [DecidableEq α] (h : Heap κ α) (q : TQueue) (content : α) :
    Option (Heap κ α × TQueue) := do
  let (found, tmp2) ← h.walk (fun _ c => c ≠ content) (scanFuel q) q.first none
  let tmp1 ← found
  let item ← h.cells tmp1
  let (h, q) ← relinkAround h q tmp2 item.next
  -- the cursor is moved back when its own item goes
  let q := if some tmp1 = q.curr then { q with curr := tmp2 } else q
  let h ← h.free tmp1
  some (h, { q with count := q.count - 1 })

/-- `top_event`: the guard is on the counter, not on the pointer. -/
def topEvent (h : Heap κ α) (q : TQueue) : Option (Option α) :=
  if q.count = 0 then some none
  else q.first.bind fun a => (h.cells a).map fun item => some item.content

def headQueue (h : Heap κ α) (q : TQueue) : Option (TQueue × Option α) :=
  let q := { q with curr := q.first }
  match q.first with
  | none => some (q, none)
  | some e => (h.cells e).map fun item => (q, some item.content)

def nextQueue (h : Heap κ α) (q : TQueue) : Option (TQueue × Option α) :=
  match q.curr with
  | none => some (q, none)
  | some e => do
      let item ← h.cells e
      let q := { q with curr := item.next }
      match item.next with
      | none => some (q, none)
      | some next => (h.cells next).map fun item => (q, some item.content)

/-- The scan `for (e = head_queue (q); e != NIL; e = next_queue (q))` up to the first
content that satisfies `found`, from the content `here` of the cursor on. -/
def scanFrom (found : α → Bool) (h : Heap κ α) : Nat → TQueue → Option α →
    Option (TQueue × Option α)
  | _, q, none => some (q, none)
  | 0, _, some _ => none
  | fuel + 1, q, some here =>
      if found here then some (q, some here)
      else do
        let (q, here) ← nextQueue h q
        scanFrom found h fuel q here

def scanQueue (found : α → Bool) (h : Heap κ α) (q : TQueue) : Option (TQueue × Option α) := do
  let (q, here) ← headQueue h q
  scanFrom found h (scanFuel q) q here

def outFifoEvent (h : Heap κ α) (q : TQueue) : Option (Heap κ α × TQueue × Option α) :=
  match q.first with
  | none => some (h, q, none)
  | some e => do
      let item ← h.cells e
      let h ← match item.next with
        | some next => h.setPrev next none
        | none => some h
      let last := if q.last = some e then none else q.last
      let h ← h.free e
      return (h, { q with first := item.next, last := last, count := q.count - 1 },
        some item.content)

/-! ## What a queue stands for -/

/-- The queue's cells spell `xs`, with their addresses. -/
structure QueueRep (h : Heap κ α) (q : TQueue) (xs : List (Entry κ α)) : Prop where
  wf : h.WellFormed
  seg : Seg h none q.first xs q.last none
  nodup : (addrs xs).Nodup
  count : q.count = xs.length

/-- The queue stands for the list `l` of keys and contents. -/
def Holds (h : Heap κ α) (q : TQueue) (l : List (κ × α)) : Prop :=
  ∃ xs, QueueRep h q xs ∧ xs.map Prod.snd = l

theorem holds_createQueue : Holds (Heap.empty : Heap κ α) createQueue [] :=
  ⟨[], ⟨fun _ _ => rfl, ⟨rfl, rfl⟩, .nil, rfl⟩, rfl⟩

variable {h h' : Heap κ α} {q q' : TQueue} {xs : List (Entry κ α)} {l : List (κ × α)}

theorem QueueRep.length_lt_scanFuel (hrep : QueueRep h q xs) : xs.length < scanFuel q := by
  simp [scanFuel, hrep.count]

theorem QueueRep.lt_brk (hrep : QueueRep h q xs) {a : Nat} (ha : a ∈ addrs xs) : a < h.brk := by
  obtain ⟨c, hc⟩ := hrep.seg.exists_cell ha
  exact hrep.wf.lt_brk hc

theorem QueueRep.first_eq_none_iff (hrep : QueueRep h q xs) : q.first = none ↔ xs = [] := by
  cases xs with
  | nil => simpa using hrep.seg.1
  | cons x xs =>
      obtain ⟨a, k, c⟩ := x
      simp [hrep.seg.1]

theorem QueueRep.alloc_seg (hrep : QueueRep h q xs) (c : Cell κ α) :
    Seg (h.alloc c).1 none q.first xs q.last none ∧ h.brk ∉ addrs xs := by
  have hfresh : h.brk ∉ addrs xs := fun hmem => absurd (hrep.lt_brk hmem) (Nat.lt_irrefl _)
  refine ⟨hrep.seg.congr fun a ha => ?_, hfresh⟩
  obtain ⟨d, hd⟩ := hrep.seg.exists_cell ha
  rw [Heap.cells_alloc_of_cell hrep.wf c hd, hd]

/-- The cells of `pre`, the new cell and the cells of `post` spell the list with the
new entry in between, once the neighbours' links point at the new cell. -/
theorem seg_insert {first last mid here : Option Nat} {pre post : List (Entry κ α)}
    {new : Nat} {key : κ} {content : α}
    (hpre : Seg h none first pre mid (some new)) (hpost : Seg h (some new) here post last none)
    (hnew : h.cells new = some ⟨here, mid, key, content⟩) :
    Seg h none first (pre ++ (new, key, content) :: post) last none :=
  seg_append.mpr ⟨mid, some new, hpre, rfl, here, hnew, hpost⟩

theorem addrs_insert {pre post : List (Entry κ α)} {new : Nat} (key : κ) (content : α)
    (hnodup : (addrs (pre ++ post)).Nodup) (hfresh : new ∉ addrs (pre ++ post)) :
    (addrs (pre ++ (new, key, content) :: post)).Nodup := by
  rw [addrs_append] at hnodup hfresh ⊢
  rw [addrs_cons, List.nodup_middle]
  exact List.nodup_cons.mpr ⟨hfresh, hnodup⟩

/-- Redirecting the back link of a non-empty rest of the queue. -/
theorem setPrev_rest {back start last : Option Nat} {post : List (Entry κ α)} {behind : Nat}
    (p : Option Nat) (hwf : h.WellFormed) (hpost : Seg h back start post last none)
    (hnodup : (addrs post).Nodup) (hstart : start = some behind) :
    ∃ h', h.setPrev behind p = some h' ∧ h'.WellFormed ∧
      Seg h' p start post last none ∧
      behind ∈ addrs post ∧ ∀ a, a ≠ behind → h'.cells a = h.cells a := by
  cases post with
  | nil => simp [hpost.1] at hstart
  | cons x rest =>
      obtain ⟨a, k, c⟩ := x
      obtain rfl : a = behind := Option.some.inj (hpost.1.symm.trans hstart)
      obtain ⟨d, hd, hseg⟩ := hpost.setPrev_head hnodup p
      exact ⟨_, Heap.setPrev_of_cell hd _, hwf.update (hwf.lt_brk hd) _, hseg, by simp,
        fun b hb => Heap.cells_update_of_ne _ _ hb⟩

/-- Redirecting the forward link of a non-empty front of the queue. -/
theorem setNext_front {start last stop : Option Nat} {pre : List (Entry κ α)} {before : Nat}
    (n : Option Nat) (hwf : h.WellFormed) (hpre : Seg h none start pre last stop)
    (hnodup : (addrs pre).Nodup) (hlast : last = some before) :
    ∃ h', h.setNext before n = some h' ∧ h'.WellFormed ∧
      Seg h' none start pre last n ∧
      before ∈ addrs pre ∧ ∀ a, a ≠ before → h'.cells a = h.cells a := by
  have hne : pre ≠ [] := by
    rintro rfl
    simp [← hpre.2] at hlast
  obtain ⟨a, ha, hlast', c, hc, hseg⟩ := hpre.setNext_last hnodup hne n
  obtain rfl : a = before := by simpa [hlast'] using hlast
  exact ⟨_, Heap.setNext_of_cell hc _, hwf.update (hwf.lt_brk hc) _, hseg, ha,
    fun b hb => Heap.cells_update_of_ne _ _ hb⟩

theorem linkBehind_rep {ahead : κ → Bool} {new : Nat} {key : κ} {content : α}
    (hrep : QueueRep h q xs) (hnew : h.cells new = some ⟨none, none, key, content⟩)
    (hfresh : new ∉ addrs xs) :
    ∃ h' q', linkBehind ahead h new q = some (h', q') ∧
      QueueRep h' q' ((xs.takeWhile fun x => ahead x.2.1) ++
        (new, key, content) :: xs.dropWhile fun x => ahead x.2.1) := by
  obtain ⟨tmp1, tmp2, hwalk, hpre, hpost⟩ :=
    hrep.seg.walk_eq (p := fun k _ => ahead k) hrep.length_lt_scanFuel
  have hfirst := hrep.first_eq_none_iff
  have hsplit := List.takeWhile_append_dropWhile (p := fun x : Entry κ α => ahead x.2.1) (l := xs)
  generalize (xs.takeWhile fun x => ahead x.2.1) = pre at hpre hsplit ⊢
  generalize (xs.dropWhile fun x => ahead x.2.1) = post at hpost hsplit ⊢
  subst hsplit
  have hnodup := addrs_insert key content hrep.nodup hfresh
  have hcount : q.count + 1 = ((pre ++ (new, key, content) :: post).length : Int) := by
    simp [hrep.count]; omega
  have hparts := hrep.nodup
  rw [addrs_append, List.nodup_append] at hparts
  rw [addrs_append, List.mem_append, not_or] at hfresh
  obtain ⟨hnodupPre, hnodupPost, hdisjoint⟩ := hparts
  obtain ⟨hfreshPre, hfreshPost⟩ := hfresh
  have hlt := hrep.wf.lt_brk hnew
  cases hq : q.first with
  | none =>
      obtain ⟨rfl, rfl⟩ := List.append_eq_nil_iff.mp (hfirst.mp hq)
      refine ⟨_, _, by rw [linkBehind, hq], hrep.wf, ?_, hnodup, hcount⟩
      exact ⟨rfl, none, hnew, rfl, rfl⟩
  | some head =>
      rw [linkBehind, hq]
      simp only [← hq, hwalk, Option.bind_eq_bind, Option.bind_some]
      cases tmp2 with
      | none =>
          -- nothing is ahead of the new item: it becomes the first one
          have hpreNil : pre = [] := by
            by_contra hne
            simpa [List.getLast?_eq_some_getLast hne] using hpre.last_eq_getLast?
          subst hpreNil
          obtain rfl : tmp1 = some head := hpre.1.symm.trans hq
          have hset := Heap.setNext_of_cell hnew (some head)
          obtain ⟨h₂, hprev, hwf₂, hseg₂, hin, hsame⟩ :=
            setPrev_rest (some new)
              (hrep.wf.update hlt (some ⟨some head, none, key, content⟩))
              (hpost.update hfreshPost _) hnodupPost rfl
          have hne : new ≠ head := fun heq => hfreshPost (heq ▸ hin)
          refine ⟨h₂, { q with first := some new, count := q.count + 1 }, ?_, hwf₂, ?_,
            hnodup, hcount⟩
          · simp only [hset, Option.bind_some, hprev]
          · refine ⟨rfl, some head, ?_, hseg₂⟩
            rw [hsame new hne, Heap.cells_update_self]
      | some before =>
          obtain ⟨h₁, hnext, hwf₁, hseg₁, hin₁, hsame₁⟩ :=
            setNext_front (some new) hrep.wf hpre hnodupPre rfl
          have hne₁ : new ≠ before := fun heq => hfreshPre (heq ▸ hin₁)
          have hnew₁ := (hsame₁ new hne₁).trans hnew
          have hprev := Heap.setPrev_of_cell hnew₁ (some before)
          have hset := Heap.setNext_of_cell
            (Heap.cells_update_self h₁ new (some ⟨none, some before, key, content⟩)) tmp1
          have hpost₁ : Seg h₁ (some before) tmp1 post q.last none :=
            hpost.congr fun a ha => hsame₁ a fun heq => hdisjoint before hin₁ a ha heq.symm
          let h₂ := (h₁.update new (some ⟨none, some before, key, content⟩)).update new
            (some ⟨tmp1, some before, key, content⟩)
          have hlt₁ := hwf₁.lt_brk hnew₁
          have hwf₂ : h₂.WellFormed := (hwf₁.update hlt₁ _).update hlt₁ _
          have hseg₂ : Seg h₂ none q.first pre (some before) (some new) :=
            (hseg₁.update hfreshPre _).update hfreshPre _
          have hpost₂ : Seg h₂ (some before) tmp1 post q.last none :=
            (hpost₁.update hfreshPost _).update hfreshPost _
          have hnew₂ : h₂.cells new = some ⟨tmp1, some before, key, content⟩ :=
            Heap.cells_update_self _ _ _
          cases tmp1 with
          | none =>
              -- everything is ahead of the new item: it becomes the last one
              refine ⟨h₂, { q with last := some new, count := q.count + 1 }, ?_, hwf₂, ?_,
                hnodup, hcount⟩
              · simp only [hnext, hprev, hset, Option.bind_some]
                rfl
              · have hpostNil : post = [] := by
                  cases post with
                  | nil => rfl
                  | cons x rest => cases hpost.1
                subst hpostNil
                exact seg_insert hseg₂ ⟨rfl, rfl⟩ hnew₂
          | some behind =>
              obtain ⟨h₃, hprev₃, hwf₃, hseg₃, hin₃, hsame₃⟩ :=
                setPrev_rest (some new) hwf₂ hpost₂ hnodupPost rfl
              have hne₃ : new ≠ behind := fun heq => hfreshPost (heq ▸ hin₃)
              refine ⟨h₃, { q with count := q.count + 1 }, ?_, hwf₃, ?_, hnodup, hcount⟩
              · simp only [hnext, hprev, hset, Option.bind_some]
                change (h₂.setPrev behind (some new)).bind _ = _
                rw [hprev₃]
                rfl
              · have hpre₃ : Seg h₃ none q.first pre (some before) (some new) :=
                  hseg₂.congr fun a ha => hsame₃ a (hdisjoint a ha behind hin₃)
                exact seg_insert hpre₃ hseg₃ ((hsame₃ new hne₃).trans hnew₂)

/-- An insertion puts the new entry behind the leading ones that are ahead of it. -/
theorem QueueRep.insertBehind (hrep : QueueRep h q xs) (ahead : κ → Bool) (key : κ)
    (content : α) :
    ∃ h' q', insertBehind ahead h q key content = some (h', q') ∧
      QueueRep h' q' ((xs.takeWhile fun x => ahead x.2.1) ++
        (h.brk, key, content) :: xs.dropWhile fun x => ahead x.2.1) := by
  obtain ⟨hseg, hfresh⟩ := hrep.alloc_seg ⟨none, none, key, content⟩
  have hwf := hrep.wf.alloc ⟨none, none, key, content⟩
  exact linkBehind_rep ⟨hwf, hseg, hrep.nodup, hrep.count⟩ (Heap.cells_update_self _ _ _) hfresh

theorem holds_insertBehind (hholds : Holds h q l) (ahead : κ → Bool) (key : κ) (content : α) :
    ∃ h' q', insertBehind ahead h q key content = some (h', q') ∧
      Holds h' q' ((l.takeWhile fun x => ahead x.1) ++
        (key, content) :: l.dropWhile fun x => ahead x.1) := by
  obtain ⟨xs, hrep, rfl⟩ := hholds
  obtain ⟨h', q', heq, hrep'⟩ := hrep.insertBehind ahead key content
  refine ⟨h', q', heq, _, hrep', ?_⟩
  rw [List.map_append, List.map_cons, List.takeWhile_map, List.dropWhile_map]
  rfl

theorem relinkAround_rep {pre rest : List (Entry κ α)} {a : Nat} {tmp2 next : Option Nat}
    (hwf : h.WellFormed) (hpre : Seg h none q.first pre tmp2 (some a))
    (hrest : Seg h (some a) next rest q.last none)
    (hnodup : (addrs (pre ++ rest)).Nodup) (ha : a ∉ addrs (pre ++ rest)) :
    ∃ h' q', relinkAround h q tmp2 next = some (h', q') ∧ h'.WellFormed ∧
      Seg h' none q'.first (pre ++ rest) q'.last none ∧
      q'.count = q.count ∧ h'.cells a = h.cells a := by
  rw [addrs_append, List.nodup_append] at hnodup
  rw [addrs_append, List.mem_append, not_or] at ha
  obtain ⟨hnodupPre, hnodupRest, hdisjoint⟩ := hnodup
  obtain ⟨haPre, haRest⟩ := ha
  cases tmp2 with
  | none =>
      have hpreNil : pre = [] := by
        by_contra hne
        simpa [List.getLast?_eq_some_getLast hne] using hpre.last_eq_getLast?
      subst hpreNil
      cases next with
      | none =>
          have hrestNil := hrest.eq_nil_of_null
          subst hrestNil
          exact ⟨h, _, rfl, hwf, ⟨rfl, rfl⟩, rfl, rfl⟩
      | some behind =>
          obtain ⟨h', hprev, hwf', hseg, hin, hsame⟩ := setPrev_rest none hwf hrest hnodupRest rfl
          refine ⟨h', { q with first := some behind }, ?_, hwf', hseg, rfl,
            hsame a fun heq => haRest (heq ▸ hin)⟩
          rw [relinkAround, hprev, Option.map_some]
  | some before =>
      obtain ⟨h₁, hnext, hwf₁, hseg₁, hin₁, hsame₁⟩ := setNext_front next hwf hpre hnodupPre rfl
      have hne₁ : a ≠ before := fun heq => haPre (heq ▸ hin₁)
      cases next with
      | none =>
          have hrestNil := hrest.eq_nil_of_null
          subst hrestNil
          refine ⟨h₁, { q with last := some before }, ?_, hwf₁, ?_, rfl, hsame₁ a hne₁⟩
          · rw [relinkAround, hnext, Option.map_some]
          · rw [List.append_nil]
            exact hseg₁
      | some behind =>
          have hrest₁ : Seg h₁ (some a) (some behind) rest q.last none :=
            hrest.congr fun b hb => hsame₁ b fun heq => hdisjoint before hin₁ b hb heq.symm
          obtain ⟨h₂, hprev, hwf₂, hseg₂, hin₂, hsame₂⟩ :=
            setPrev_rest (some before) hwf₁ hrest₁ hnodupRest rfl
          have hpre₂ : Seg h₂ none q.first pre (some before) (some behind) :=
            hseg₁.congr fun b hb => hsame₂ b (hdisjoint b hb behind hin₂)
          refine ⟨h₂, q, ?_, hwf₂, seg_append.mpr ⟨_, _, hpre₂, hseg₂⟩, rfl, ?_⟩
          · simp only [relinkAround, hnext, Option.bind_eq_bind, Option.bind_some, hprev]
          · rw [hsame₂ a fun heq => haRest (heq ▸ hin₂), hsame₁ a hne₁]

theorem QueueRep.extractFromQueue [DecidableEq α] (hrep : QueueRep h q xs) {content : α}
    (hmem : content ∈ xs.map fun x => x.2.2) :
    ∃ h' q', extractFromQueue h q content = some (h', q') ∧
      QueueRep h' q' (xs.eraseP fun x => x.2.2 = content) := by
  obtain ⟨x, hx, rfl⟩ := List.mem_map.mp hmem
  obtain ⟨⟨a, k, c⟩, pre, rest, hbefore, hfound, rfl, herase⟩ :=
    List.exists_of_eraseP (p := fun y => y.2.2 = x.2.2) hx (by simp)
  obtain rfl : c = x.2.2 := by simpa using hfound
  obtain ⟨tmp1, tmp2, hwalk, hpre, hpost⟩ :=
    hrep.seg.walk_eq (p := fun _ c => c ≠ x.2.2) hrep.length_lt_scanFuel
  have hahead : ∀ y ∈ pre, decide (y.2.2 ≠ x.2.2) = true := by
    intro y hy
    simpa using hbefore y hy
  rw [List.takeWhile_append_of_pos hahead, List.takeWhile_cons_of_neg (by simp),
    List.append_nil] at hpre
  rw [List.dropWhile_append_of_pos hahead, List.dropWhile_cons_of_neg (by simp)] at hpost
  obtain ⟨rfl, next, hcell, hrest⟩ := hpost
  have hnodup := hrep.nodup
  rw [addrs_append, addrs_cons, List.nodup_middle, List.nodup_cons, ← addrs_append] at hnodup
  obtain ⟨ha, hnodup⟩ := hnodup
  obtain ⟨h₁, q₁, hrelink, hwf₁, hseg₁, hcount₁, hcell₁⟩ :=
    relinkAround_rep hrep.wf hpre hrest hnodup ha
  have hcell₁ := hcell₁.trans hcell
  let q₂ := if some a = q₁.curr then { q₁ with curr := tmp2 } else q₁
  have hq₂ : q₂.first = q₁.first ∧ q₂.last = q₁.last ∧ q₂.count = q₁.count := by
    simp only [q₂]; split <;> simp
  refine ⟨h₁.update a none, { q₂ with count := q₂.count - 1 }, ?_, ?_⟩
  · simp only [ListQueue.extractFromQueue, hwalk, Option.bind_eq_bind, Option.bind_some, hcell,
      hrelink, Heap.free_of_cell hcell₁]
    rfl
  · rw [herase]
    refine ⟨hwf₁.update (hwf₁.lt_brk hcell₁) none, ?_, hnodup, ?_⟩
    · simpa only [hq₂] using hseg₁.update ha none
    · simp only [hq₂, hcount₁, hrep.count, List.length_append, List.length_cons]
      omega

theorem holds_extractFromQueue [DecidableEq α] (hholds : Holds h q l) {content : α}
    (hmem : content ∈ l.map Prod.snd) :
    ∃ h' q', extractFromQueue h q content = some (h', q') ∧
      Holds h' q' (l.eraseP fun x => x.2 = content) := by
  obtain ⟨xs, hrep, rfl⟩ := hholds
  obtain ⟨h', q', heq, hrep'⟩ := hrep.extractFromQueue (by simpa using hmem)
  refine ⟨h', q', heq, _, hrep', ?_⟩
  rw [List.eraseP_map]
  rfl

theorem extractFromQueue_absent [DecidableEq α] (hholds : Holds h q l) {content : α}
    (habsent : content ∉ l.map Prod.snd) : extractFromQueue h q content = none := by
  obtain ⟨xs, hrep, rfl⟩ := hholds
  obtain ⟨tmp1, tmp2, hwalk, -, hpost⟩ :=
    hrep.seg.walk_eq (p := fun _ c => c ≠ content) hrep.length_lt_scanFuel
  have hall : ∀ x ∈ xs, decide (x.2.2 ≠ content) = true := by
    intro x hx
    have hne : x.2.2 ≠ content := fun heq => habsent (by
      rw [List.map_map]
      exact List.mem_map.mpr ⟨x, hx, heq⟩)
    simpa using hne
  rw [List.dropWhile_eq_nil_iff.mpr hall] at hpost
  obtain rfl : tmp1 = none := hpost.1
  simp only [extractFromQueue, hwalk, Option.bind_eq_bind, Option.bind_some, Option.bind_none]

theorem holds_outFifoEvent_nil (hholds : Holds h q []) : outFifoEvent h q = some (h, q, none) := by
  obtain ⟨xs, hrep, hxs⟩ := hholds
  obtain rfl : xs = [] := by simpa using hxs
  rw [outFifoEvent, hrep.seg.1]

theorem holds_outFifoEvent_cons {key : κ} {content : α}
    (hholds : Holds h q ((key, content) :: l)) :
    ∃ h' q', outFifoEvent h q = some (h', q', some content) ∧ Holds h' q' l := by
  obtain ⟨xs, hrep, hxs⟩ := hholds
  obtain ⟨⟨a, k, c⟩, rest, rfl, hx, rfl⟩ := List.map_eq_cons_iff.mp hxs
  obtain ⟨rfl, rfl⟩ : k = key ∧ c = content := by simpa using hx
  obtain ⟨hfirst, next, hcell, hrest⟩ := hrep.seg
  obtain ⟨ha, hnodup⟩ := List.nodup_cons.mp hrep.nodup
  have hcount : q.count - 1 = (rest.length : Int) := by
    simp [hrep.count]
  rw [outFifoEvent, hfirst]
  simp only [hcell, Option.bind_eq_bind, Option.bind_some]
  cases next with
  | none =>
      obtain rfl := hrest.eq_nil_of_null
      have hlast : q.last = some a := hrest.2.symm
      refine ⟨h.update a none, { q with first := none, last := none, count := q.count - 1 },
        ?_, [], ⟨hrep.wf.update (hrep.wf.lt_brk hcell) none, ⟨rfl, rfl⟩, .nil, hcount⟩, rfl⟩
      simp only [Option.bind_some, Heap.free_of_cell hcell, hlast]
      rfl
  | some behind =>
      obtain ⟨h₁, hprev, hwf₁, hseg₁, hin, hsame⟩ := setPrev_rest none hrep.wf hrest hnodup rfl
      have hcell₁ := (hsame a fun heq => ha (heq ▸ hin)).trans hcell
      have hlast : q.last ≠ some a := by
        intro hlast
        have hne : rest ≠ [] := List.ne_nil_of_mem (List.mem_map.mp hin).choose_spec.1
        have hget := hrest.last_eq_getLast?
        rw [hlast, List.getLast?_eq_some_getLast hne] at hget
        obtain rfl : a = (rest.getLast hne).1 := by simpa using hget
        exact ha (List.mem_map.mpr ⟨_, List.getLast_mem hne, rfl⟩)
      refine ⟨h₁.update a none, { q with first := some behind, count := q.count - 1 },
        ?_, rest, ⟨hwf₁.update (hwf₁.lt_brk hcell₁) none, hseg₁.update ha none, hnodup, hcount⟩,
        rfl⟩
      simp only [hprev, Option.bind_some, Heap.free_of_cell hcell₁, if_neg hlast]
      rfl

theorem holds_topEvent (hholds : Holds h q l) :
    topEvent h q = some (l.head?.map Prod.snd) := by
  obtain ⟨xs, hrep, rfl⟩ := hholds
  cases xs with
  | nil => simp [topEvent, hrep.count]
  | cons x rest =>
      obtain ⟨a, k, c⟩ := x
      obtain ⟨hfirst, n, hcell, -⟩ := hrep.seg
      have hcount : q.count ≠ 0 := by
        rw [hrep.count, List.length_cons]
        omega
      simp [topEvent, hcount, hfirst, hcell]

theorem Holds.countQueue (hholds : Holds h q l) : countQueue q = l.length := by
  obtain ⟨xs, hrep, rfl⟩ := hholds
  rw [ListQueue.countQueue, hrep.count, List.length_map]


theorem scanFrom_seg {found : α → Bool} {back last : Option Nat} {a : Nat} {k : κ} {c : α}
    {rest : List (Entry κ α)} {fuel : Nat}
    (hseg : Seg h back q.curr ((a, k, c) :: rest) last none) (hfuel : rest.length < fuel) :
    ∃ cursor, scanFrom found h fuel q (some c) =
      some ({ q with curr := cursor }, (c :: rest.map fun x => x.2.2).find? found) := by
  induction rest generalizing a k c back q fuel with
  | nil =>
      obtain ⟨fuel, rfl⟩ : ∃ n, fuel = n + 1 := ⟨fuel - 1, by simp at hfuel; omega⟩
      obtain ⟨hcurr, next, hcell, rfl, -⟩ := hseg
      by_cases hc : found c
      · exact ⟨q.curr, by simp [scanFrom, hc]⟩
      · exact ⟨none, by simp [scanFrom, hc, nextQueue, hcurr, hcell]⟩
  | cons x rest ih =>
      obtain ⟨b, k', c'⟩ := x
      obtain ⟨fuel, rfl⟩ : ∃ n, fuel = n + 1 := ⟨fuel - 1, by simp at hfuel; omega⟩
      obtain ⟨hcurr, next, hcell, rfl, n, hcell', hrest⟩ := hseg
      by_cases hc : found c
      · exact ⟨q.curr, by simp [scanFrom, hc]⟩
      · have hseg' : Seg h (some a) (some b) ((b, k', c') :: rest) last none :=
          ⟨rfl, n, hcell', hrest⟩
        obtain ⟨cursor, heq⟩ :=
          ih (show Seg h (some a) { q with curr := some b }.curr _ last none from hseg')
            (show rest.length < fuel by simpa using hfuel)
        refine ⟨cursor, ?_⟩
        rw [List.map_cons, List.find?_cons_of_neg (by simpa using hc), ← heq]
        simp [scanFrom, hc, nextQueue, hcurr, hcell, hcell']

/-- A scan returns the first content that satisfies the test and moves only the cursor. -/
theorem holds_scanQueue (hholds : Holds h q l) (found : α → Bool) :
    ∃ cursor, scanQueue found h q =
      some ({ q with curr := cursor }, (l.map Prod.snd).find? found) := by
  obtain ⟨xs, hrep, rfl⟩ := hholds
  have hfuel := hrep.length_lt_scanFuel
  cases xs with
  | nil => exact ⟨none, by simp [scanQueue, headQueue, hrep.seg.1, scanFrom]⟩
  | cons x rest =>
      obtain ⟨a, k, c⟩ := x
      obtain ⟨hfirst, n, hcell, hrest⟩ := hrep.seg
      have hseg : Seg h none { q with curr := q.first }.curr ((a, k, c) :: rest) q.last none :=
        hrep.seg
      obtain ⟨cursor, heq⟩ := scanFrom_seg hseg
        (show rest.length < scanFuel q from Nat.lt_of_succ_lt hfuel)
      refine ⟨cursor, ?_⟩
      simp only [scanQueue, headQueue, hfirst, hcell, Option.map_some, Option.bind_eq_bind,
        Option.bind_some, List.map_cons, List.map_map]
      rw [hfirst] at heq
      exact heq

end Dimemas.Utils.ListQueue
