import Mathlib.Data.List.Basic
import Mathlib.Data.List.TakeWhile
import Mathlib.Order.Lattice
/-!
# Stable priority queues

The specification is a bag kept in insertion order, from which `pop` takes the
first element whose key is minimal. The implementation view is a sorted list
into which an element is inserted behind every element that is not greater.
`Represents` relates the two: the list is sorted and holds, within each key, the
elements of the bag in their insertion order.
-/

namespace Dimemas.Library.StableQueue

variable {κ α : Type*}

/-- `PopsTo key b x b'` holds when `x` is the element of the bag `b` with minimal key,
the first inserted one among equals, and `b'` is the bag without it. -/
def PopsTo [LinearOrder κ] (key : α → κ) (b : List α) (x : α) (b' : List α) : Prop :=
  ∃ before after, b = before ++ x :: after ∧ b' = before ++ after ∧
    (∀ y ∈ before, key x < key y) ∧ ∀ y ∈ after, key x ≤ key y

/-- Takes the first inserted element of minimal key out of a bag. -/
def popFirstMin [LinearOrder κ] (key : α → κ) : List α → Option (α × List α)
  | [] => none
  | x :: xs =>
      match popFirstMin key xs with
      | none => some (x, [])
      | some (y, rest) => if key x ≤ key y then some (x, xs) else some (y, x :: rest)

/-- Insertion behind every element whose key is not greater. -/
def insertAfter [LinearOrder κ] (key : α → κ) (x : α) (xs : List α) : List α :=
  (xs.takeWhile fun y => key y ≤ key x) ++ x :: xs.dropWhile fun y => key y ≤ key x

/-- The sorted list `q` represents the insertion-ordered bag `b`. -/
structure Represents [LinearOrder κ] (key : α → κ) (q b : List α) : Prop where
  sorted : q.Pairwise fun x y => key x ≤ key y
  classes : ∀ k, (q.filter fun y => key y = k) = b.filter fun y => key y = k

section

variable [LinearOrder κ] {key : α → κ} {q b b' : List α} {x y : α}

theorem popsTo_unique {b'' : List α} (h₁ : PopsTo key b x b') (h₂ : PopsTo key b y b'') :
    x = y ∧ b' = b'' := by
  obtain ⟨p₁, s₁, rfl, rfl, hp₁, hs₁⟩ := h₁
  obtain ⟨p₂, s₂, heq, rfl, hp₂, hs₂⟩ := h₂
  -- a strictly earlier minimal element would be below the other one's key
  rcases List.append_eq_append_iff.mp heq with ⟨m, rfl, hm⟩ | ⟨m, rfl, hm⟩
  · cases m with
    | nil =>
        obtain ⟨rfl, rfl⟩ : x = y ∧ s₁ = s₂ := by simpa using hm
        simp
    | cons z m =>
        obtain ⟨rfl, rfl⟩ : x = z ∧ s₁ = m ++ y :: s₂ := by simpa using hm
        have hlt := hp₂ x (by simp)
        exact absurd (hs₁ y (by simp)) (not_le.mpr hlt)
  · cases m with
    | nil =>
        obtain ⟨rfl, rfl⟩ : y = x ∧ s₂ = s₁ := by simpa using hm
        simp
    | cons z m =>
        obtain ⟨rfl, rfl⟩ : y = z ∧ s₂ = m ++ x :: s₁ := by simpa using hm
        have hlt := hp₁ y (by simp)
        exact absurd (hs₂ x (by simp)) (not_le.mpr hlt)

theorem PopsTo.key_le (h : PopsTo key b x b') : ∀ y ∈ b, key x ≤ key y := by
  obtain ⟨before, after, rfl, -, hbefore, hafter⟩ := h
  intro y hy
  simp only [List.mem_append, List.mem_cons] at hy
  rcases hy with hy | rfl | hy
  · exact (hbefore y hy).le
  · exact le_rfl
  · exact hafter y hy

theorem popFirstMin_eq_none : popFirstMin key b = none ↔ b = [] := by
  cases b with
  | nil => simp [popFirstMin]
  | cons x xs =>
      rw [popFirstMin]
      cases popFirstMin key xs with
      | none => simp
      | some p => by_cases hle : key x ≤ key p.1 <;> simp [hle]

theorem popsTo_of_popFirstMin (h : popFirstMin key b = some (x, b')) : PopsTo key b x b' := by
  induction b generalizing x b' with
  | nil => cases h
  | cons z zs ih =>
      rw [popFirstMin] at h
      cases hzs : popFirstMin key zs with
      | none =>
          obtain rfl := popFirstMin_eq_none.mp hzs
          obtain ⟨rfl, rfl⟩ : z = x ∧ [] = b' := by simpa [popFirstMin] using h
          exact ⟨[], [], rfl, rfl, by simp, by simp⟩
      | some p =>
          obtain ⟨y, rest⟩ := p
          have htail := ih hzs
          simp only [hzs] at h
          by_cases hle : key z ≤ key y
          · obtain ⟨rfl, rfl⟩ : z = x ∧ zs = b' := by simpa [hle] using h
            exact ⟨[], zs, rfl, rfl, by simp, fun w hw => hle.trans (htail.key_le w hw)⟩
          · obtain ⟨rfl, rfl⟩ : y = x ∧ z :: rest = b' := by simpa [hle] using h
            obtain ⟨before, after, rfl, rfl, hbefore, hafter⟩ := htail
            refine ⟨z :: before, after, rfl, rfl, ?_, hafter⟩
            intro w hw
            rcases List.mem_cons.mp hw with rfl | hw
            · exact not_le.mp hle
            · exact hbefore w hw

theorem represents_nil : Represents key ([] : List α) [] := ⟨.nil, fun _ => rfl⟩

theorem Represents.mem_iff (h : Represents key q b) : x ∈ q ↔ x ∈ b := by
  have hclass := h.classes (key x)
  constructor <;> intro hx
  · have hmem : x ∈ q.filter fun y => key y = key x := by simp [hx]
    rw [hclass] at hmem
    exact (List.mem_filter.mp hmem).1
  · have hmem : x ∈ b.filter fun y => key y = key x := by simp [hx]
    rw [← hclass] at hmem
    exact (List.mem_filter.mp hmem).1

theorem Represents.eq_nil_iff (h : Represents key q b) : q = [] ↔ b = [] := by
  simp only [List.eq_nil_iff_forall_not_mem, h.mem_iff]

theorem length_insertAfter (x : α) (q : List α) :
    (insertAfter key x q).length = q.length + 1 := by
  have hsplit := List.takeWhile_append_dropWhile (p := fun y => key y ≤ key x) (l := q)
  have hlength := congrArg List.length hsplit
  rw [List.length_append] at hlength
  rw [StableQueue.insertAfter, List.length_append, List.length_cons]
  omega

theorem mem_insertAfter : y ∈ insertAfter key x q ↔ y = x ∨ y ∈ q := by
  have hsplit := List.takeWhile_append_dropWhile (p := fun y => key y ≤ key x) (l := q)
  conv_rhs => rw [← hsplit]
  simp only [StableQueue.insertAfter, List.mem_append, List.mem_cons]
  tauto

/-- In a sorted list a test that holds of a front only does not hold behind it. -/
theorem false_of_mem_dropWhile {p : α → Bool} (hsorted : q.Pairwise fun x y => key x ≤ key y)
    (hdown : ∀ y z, key y ≤ key z → p z = true → p y = true) :
    ∀ y ∈ q.dropWhile p, p y = false := by
  induction q with
  | nil => exact fun y hy => absurd hy List.not_mem_nil
  | cons z q ih =>
      obtain ⟨hz, hq⟩ := List.pairwise_cons.mp hsorted
      cases hp : p z with
      | true =>
          rw [List.dropWhile_cons_of_pos hp]
          exact ih hq
      | false =>
          rw [List.dropWhile_cons_of_neg (ne_true_of_eq_false hp)]
          intro y hy
          rcases List.mem_cons.mp hy with heq | hin
          · rw [heq]
            exact hp
          · apply eq_false_of_ne_true
            intro htrue
            exact absurd (hp.symm.trans (hdown z y (hz y hin) htrue)) Bool.false_ne_true

theorem sorted_dropWhile_lt (hsorted : q.Pairwise fun x y => key x ≤ key y) (x : α) :
    ∀ y ∈ q.dropWhile fun y => key y ≤ key x, key x < key y := by
  intro y hy
  have hfalse := false_of_mem_dropWhile hsorted
    (fun y z hle hz => decide_eq_true (hle.trans (of_decide_eq_true hz))) y hy
  exact not_le.mp (of_decide_eq_false hfalse)

theorem sorted_dropWhile_le (hsorted : q.Pairwise fun x y => key x ≤ key y) (x : α) :
    ∀ y ∈ q.dropWhile fun y => key y < key x, key x ≤ key y := by
  intro y hy
  have hfalse := false_of_mem_dropWhile hsorted
    (fun y z hle hz => decide_eq_true (hle.trans_lt (of_decide_eq_true hz))) y hy
  exact not_lt.mp (of_decide_eq_false hfalse)

theorem mem_takeWhile_lt : ∀ y ∈ q.takeWhile fun y => key y < key x, key y ≤ key x := by
  intro y hy
  have htrue := List.mem_takeWhile_imp hy
  exact (of_decide_eq_true htrue).le

theorem mem_takeWhile_le : ∀ y ∈ q.takeWhile fun y => key y ≤ key x, key y ≤ key x := by
  intro y hy
  simpa using List.mem_takeWhile_imp hy

theorem Represents.insertAfter (h : Represents key q b) (x : α) :
    Represents key (insertAfter key x q) (b ++ [x]) := by
  have hgt := sorted_dropWhile_lt h.sorted x
  have hle : ∀ y ∈ q.takeWhile fun y => key y ≤ key x, key y ≤ key x := mem_takeWhile_le
  have hsplit := List.takeWhile_append_dropWhile (p := fun y => key y ≤ key x) (l := q)
  refine ⟨?_, fun k => ?_⟩
  · have hsorted := h.sorted
    rw [← hsplit, List.pairwise_append] at hsorted
    obtain ⟨htake, hdrop, hcross⟩ := hsorted
    refine List.pairwise_append.mpr ⟨htake, ?_, ?_⟩
    · exact List.pairwise_cons.mpr ⟨fun y hy => (hgt y hy).le, hdrop⟩
    · intro y hy z hz
      rcases List.mem_cons.mp hz with rfl | hz
      · exact hle y hy
      · exact hcross y hy z hz
  · have hclass := h.classes k
    rw [← hsplit, List.filter_append] at hclass
    rw [StableQueue.insertAfter, List.filter_append, List.filter_cons, List.filter_append,
      List.filter_singleton, ← hclass]
    by_cases hk : key x = k
    · -- nothing behind the insertion point has the new element's key
      have hnone : (q.dropWhile fun y => key y ≤ key x).filter (fun y => key y = k) = [] := by
        rw [List.filter_eq_nil_iff]
        intro y hy
        simpa [← hk] using (hgt y hy).ne'
      rw [hnone, List.append_nil, if_pos (by simpa using hk)]
      simp [hk]
    · rw [if_neg (by simpa using hk)]
      simp [hk]

/-- Erasing an element erases its first occurrence in the bag. -/
theorem Represents.erase [DecidableEq α] (h : Represents key q b) (x : α) :
    Represents key (q.erase x) (b.erase x) := by
  refine ⟨h.sorted.erase x, fun k => ?_⟩
  rw [← List.erase_filter, ← List.erase_filter, h.classes k]

/-- A search for a key finds what the bag has first under it. -/
theorem Represents.find?_eq (h : Represents key q b) (k : κ) :
    q.find? (fun y => key y = k) = b.find? (fun y => key y = k) := by
  rw [← List.head?_filter, ← List.head?_filter, h.classes k]

/-- A sorted list stays sorted with an element between what is not greater and what is not less. -/
theorem sorted_middle {pre post : List α} (hsorted : (pre ++ post).Pairwise fun x y => key x ≤ key y)
    (hpre : ∀ y ∈ pre, key y ≤ key x) (hpost : ∀ y ∈ post, key x ≤ key y) :
    (pre ++ x :: post).Pairwise fun x y => key x ≤ key y := by
  obtain ⟨hleft, hright, hcross⟩ := List.pairwise_append.mp hsorted
  apply List.pairwise_append.mpr
  refine ⟨hleft, List.pairwise_cons.mpr ⟨hpost, hright⟩, ?_⟩
  intro y hy z hz
  rcases List.mem_cons.mp hz with heq | hz
  · rw [heq]
    exact hpre y hy
  · exact hcross y hy z hz

theorem filter_of_split {pre post : List α} (hpre : ∀ y ∈ pre, key y ≤ key x)
    (hpost : ∀ y ∈ post, key x < key y) :
    ((pre ++ post).filter fun y => key y ≤ key x) = pre ∧
      ((pre ++ post).filter fun y => key x < key y) = post := by
  have hpreKept : pre.filter (fun y => key y ≤ key x) = pre :=
    List.filter_eq_self.mpr fun y hy => decide_eq_true (hpre y hy)
  have hpostKept : post.filter (fun y => key x < key y) = post :=
    List.filter_eq_self.mpr fun y hy => decide_eq_true (hpost y hy)
  have hpreGone : pre.filter (fun y => key x < key y) = [] := by
    apply List.filter_eq_nil_iff.mpr
    intro y hy
    rw [decide_eq_true_eq]
    exact not_lt.mpr (hpre y hy)
  have hpostGone : post.filter (fun y => key y ≤ key x) = [] := by
    apply List.filter_eq_nil_iff.mpr
    intro y hy
    rw [decide_eq_true_eq]
    exact not_le.mpr (hpost y hy)
  constructor
  · rw [List.filter_append, hpreKept, hpostGone, List.append_nil]
  · rw [List.filter_append, hpreGone, hpostKept, List.nil_append]

theorem le_of_getLast? {pre : List α} (hsorted : pre.Pairwise fun x y => key x ≤ key y) {k : κ}
    (hlast : ∀ y ∈ pre.getLast?, key y ≤ k) : ∀ y ∈ pre, key y ≤ k := by
  induction pre with
  | nil => exact fun y hy => absurd hy List.not_mem_nil
  | cons z pre ih =>
      obtain ⟨hz, hpre⟩ := List.pairwise_cons.mp hsorted
      cases pre with
      | nil =>
          intro y hy
          rw [List.mem_singleton.mp hy]
          exact hlast z rfl
      | cons w pre =>
          have hrest : ∀ y ∈ w :: pre, key y ≤ k := by
            apply ih hpre
            rw [List.getLast?_cons_cons] at hlast
            exact hlast
          intro y hy
          rcases List.mem_cons.mp hy with heq | hin
          · rw [heq]
            exact (hz w List.mem_cons_self).trans (hrest w List.mem_cons_self)
          · exact hrest y hin

theorem sorted_insertAfter (hsorted : q.Pairwise fun x y => key x ≤ key y) (x : α) :
    (insertAfter key x q).Pairwise fun x y => key x ≤ key y :=
  (Represents.insertAfter ⟨hsorted, fun _ => rfl⟩ x).sorted

theorem find?_insertAfter (hsorted : q.Pairwise fun x y => key x ≤ key y) (x : α) (k : κ) :
    (insertAfter key x q).find? (fun y => key y = k) =
      (q.find? fun y => key y = k).or (if key x = k then some x else none) := by
  rw [(Represents.insertAfter ⟨hsorted, fun _ => rfl⟩ x).find?_eq k, List.find?_append]
  split <;> simp [*]

theorem Represents.popsTo (h : Represents key (x :: q) b) :
    ∃ b', PopsTo key b x b' ∧ Represents key q b' := by
  have hclass := h.classes (key x)
  rw [List.filter_cons_of_pos (by simp)] at hclass
  obtain ⟨before, after, rfl, hbefore, -, hafter⟩ := List.filter_eq_cons_iff.mp hclass.symm
  obtain ⟨hx, hq⟩ := List.pairwise_cons.mp h.sorted
  have hmin : ∀ y ∈ before ++ x :: after, key x ≤ key y := by
    intro y hy
    rcases List.mem_cons.mp (h.mem_iff.mpr hy) with rfl | hy
    · exact le_rfl
    · exact hx y hy
  refine ⟨before ++ after, ⟨before, after, rfl, rfl, ?_, ?_⟩, hq, fun k => ?_⟩
  · intro y hy
    exact lt_of_le_of_ne (hmin y (by simp [hy])) fun heq => hbefore y hy (by simp [heq])
  · exact fun y hy => hmin y (by simp [hy])
  · have hk := h.classes k
    rw [List.filter_cons, List.filter_append, List.filter_cons] at hk
    rw [List.filter_append]
    by_cases hxk : key x = k
    · -- in the popped element's class nothing stood before it
      have hnone : before.filter (fun y => key y = k) = [] := by
        rw [List.filter_eq_nil_iff]
        intro y hy
        simpa [← hxk] using hbefore y hy
      simpa [hxk, hnone] using hk
    · simpa [hxk] using hk

/-- Removing an element does not change a search that it does not match. -/
theorem find?_eraseP {p r : α → Bool} (h : ∀ x ∈ q, r x → ¬ p x) :
    (q.eraseP r).find? p = q.find? p := by
  induction q with
  | nil => rfl
  | cons x q ih =>
      by_cases hr : r x
      · rw [List.eraseP_cons_of_pos hr, List.find?_cons_of_neg (h x List.mem_cons_self hr)]
      · rw [List.eraseP_cons_of_neg hr, List.find?_cons, List.find?_cons,
          ih fun y hy => h y (List.mem_cons_of_mem _ hy)]

end

end Dimemas.Library.StableQueue
