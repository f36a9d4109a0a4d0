import Mathlib.Data.List.Basic
import Mathlib.Order.Lattice
/-!
# The `EqueueC` queues of `listE.cc`

`std::multimap` is a list of pairs in key order, into which `insert` puts the new
pair at the upper bound of its key. An iterator is a position in that list.
-/

namespace Dimemas.Utils.Equeue

variable {κ α : Type}

structure EqueueC (κ : Type) (α : Type) where
  evQ : List (κ × α)
  curr : Nat
  Ecount : Int

def EqueueC.empty : EqueueC κ α := ⟨[], 0, 0⟩

/-- `multimap::insert`: equal keys keep the order of their insertions. -/
def multimapInsert [LinearOrder κ] (evQ : List (κ × α)) (e : κ × α) : List (κ × α) :=
  (evQ.takeWhile fun x => ¬ e.1 < x.1) ++ e :: evQ.dropWhile fun x => ¬ e.1 < x.1

namespace EqueueC

def insert [LinearOrder κ] (q : EqueueC κ α) (e : α) (order : κ) : EqueueC κ α :=
  { q with evQ := multimapInsert q.evQ (order, e), Ecount := q.Ecount + 1 }

def count (q : EqueueC κ α) : Int := q.Ecount

def top (q : EqueueC κ α) : Option α := q.evQ.head?.map Prod.snd

def head (q : EqueueC κ α) : EqueueC κ α × Option α :=
  ({ q with curr := 0 }, q.evQ.head?.map Prod.snd)

def next (q : EqueueC κ α) : EqueueC κ α × Option α :=
  ({ q with curr := q.curr + 1 }, q.evQ[q.curr + 1]?.map Prod.snd)

def pop (q : EqueueC κ α) : EqueueC κ α × Option α :=
  match q.evQ with
  | [] => (q, none)
  | e :: rest => ({ q with evQ := rest, Ecount := q.Ecount - 1 }, some e.2)

/-- `extract`: the loop erases the first pair that holds the pointer, if any. -/
def extract [DecidableEq α] (q : EqueueC κ α) (ex : α) : EqueueC κ α :=
  if ex ∈ q.evQ.map Prod.snd then
    { q with evQ := q.evQ.eraseP fun x => x.2 = ex, Ecount := q.Ecount - 1 }
  else q

/-- The scan `for (e = head (); e != NIL; e = next ())` up to the first content that
satisfies `found`, from the content `here` of the cursor on. -/
def scanFrom (found : α → Bool) : Nat → EqueueC κ α → Option α → Option (EqueueC κ α × Option α)
  | _, q, none => some (q, none)
  | 0, _, some _ => none
  | fuel + 1, q, some here =>
      if found here then some (q, some here)
      else scanFrom found fuel q.next.1 q.next.2

def scan (found : α → Bool) (q : EqueueC κ α) : Option (EqueueC κ α × Option α) :=
  scanFrom found (q.evQ.length + 1) q.head.1 q.head.2

end EqueueC

theorem multimapInsert_eq [LinearOrder κ] (evQ : List (κ × α)) (e : κ × α) :
    multimapInsert evQ e =
      (evQ.takeWhile fun x => x.1 ≤ e.1) ++ e :: evQ.dropWhile fun x => x.1 ≤ e.1 := by
  simp only [multimapInsert, not_lt]

theorem scanFrom_drop (found : α → Bool) {q : EqueueC κ α} {fuel : Nat}
    (hfuel : q.evQ.length < fuel + q.curr) :
    ∃ cursor, EqueueC.scanFrom found fuel q (q.evQ[q.curr]?.map Prod.snd) =
      some ({ q with curr := cursor }, ((q.evQ.drop q.curr).map Prod.snd).find? found) := by
  induction fuel generalizing q with
  | zero =>
      have hnone : q.evQ[q.curr]? = none := List.getElem?_eq_none (by omega)
      refine ⟨q.curr, ?_⟩
      rw [hnone, List.drop_eq_nil_of_le (by omega)]
      rfl
  | succ fuel ih =>
      by_cases hlt : q.curr < q.evQ.length
      · rw [List.getElem?_eq_getElem hlt, List.drop_eq_getElem_cons hlt, List.map_cons]
        by_cases hfound : found q.evQ[q.curr].2
        · exact ⟨q.curr, by simp [EqueueC.scanFrom, hfound]⟩
        · have hnext : q.evQ.length < fuel + q.next.1.curr := by
            simp only [EqueueC.next]
            omega
          obtain ⟨cursor, heq⟩ := ih (q := q.next.1) hnext
          refine ⟨cursor, ?_⟩
          rw [List.find?_cons_of_neg (by simpa using hfound)]
          simpa [EqueueC.scanFrom, hfound, EqueueC.next] using heq
      · have hnone : q.evQ[q.curr]? = none := List.getElem?_eq_none (by omega)
        refine ⟨q.curr, ?_⟩
        rw [hnone, List.drop_eq_nil_of_le (by omega)]
        rfl

theorem scan_eq (found : α → Bool) (q : EqueueC κ α) :
    ∃ cursor, q.scan found =
      some ({ q with curr := cursor }, (q.evQ.map Prod.snd).find? found) := by
  have hfuel : q.head.1.evQ.length < q.evQ.length + 1 + q.head.1.curr := by
    simp [EqueueC.head]
  obtain ⟨cursor, heq⟩ := scanFrom_drop found hfuel
  refine ⟨cursor, ?_⟩
  simpa [EqueueC.scan, EqueueC.head, List.head?_eq_getElem?] using heq

end Dimemas.Utils.Equeue
