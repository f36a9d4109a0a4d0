import Mathlib.Data.List.Induction
import Mathlib.Data.List.Perm.Basic
import Mathlib.Order.Lattice
/-!
# The largest pair of a loop that carries a value

A loop over items keeps the largest pair of a value and a base. An item that has no value of its own
is paired with the value of the one before it. The pair that is kept may then depend on the order of
the items.
-/

namespace Dimemas.Library.CarriedMaximum

variable {V W α : Type*}

structure Item (V W : Type*) where
  value : Option V
  base : W

structure Acc (V W α : Type*) where
  value : V
  largest : α
  best : V × W

variable [LinearOrder α] (weight : V × W → α) (start : V)

def step (acc : Acc V W α) (item : Item V W) : Acc V W α :=
  let value := item.value.getD acc.value
  let pair := (value, item.base)
  if acc.largest < weight pair then ⟨value, weight pair, pair⟩ else { acc with value := value }

def run (acc : Acc V W α) (items : List (Item V W)) : Acc V W α := items.foldl (step weight) acc

def Item.own (item : Item V W) : V × W := (item.value.getD start, item.base)

/-- The pairs that a loop can keep: those of the items, and those of an item with the value of
another one that are larger than the one of the other. -/
def Candidate (items : List (Item V W)) (pair : V × W) : Prop :=
  (∃ item ∈ items, pair = item.own start) ∨
    ∃ before ∈ items, ∃ item ∈ items, ∃ value, before.value = some value ∧ item.value = none ∧
      pair = (value, item.base) ∧ weight (before.own start) < weight pair

/-- No item has a larger pair of its own. -/
def Largest (items : List (Item V W)) (pair : V × W) : Prop :=
  ∀ item ∈ items, weight (item.own start) ≤ weight pair

section

variable {weight} {start} {acc : Acc V W α} {items items' : List (Item V W)} {pair : V × W}

theorem Candidate.perm (h : Candidate weight start items pair) (hperm : items.Perm items') :
    Candidate weight start items' pair := by
  rcases h with ⟨item, hitem, hpair⟩ | ⟨before, hbefore, item, hitem, h⟩
  · exact .inl ⟨item, hperm.subset hitem, hpair⟩
  · exact .inr ⟨before, hperm.subset hbefore, item, hperm.subset hitem, h⟩

theorem Largest.perm (h : Largest weight start items pair) (hperm : items.Perm items') :
    Largest weight start items' pair :=
  fun item hitem => h item (hperm.symm.subset hitem)

theorem run_cons (acc : Acc V W α) (item : Item V W) (items : List (Item V W)) :
    run weight acc (item :: items) = run weight (step weight acc item) items := rfl

theorem step_value (acc : Acc V W α) (item : Item V W) :
    (step weight acc item).value = item.value.getD acc.value := by
  unfold step
  simp only
  split <;> rfl

theorem step_cases (acc : Acc V W α) (item : Item V W) :
    let pair := (item.value.getD acc.value, item.base)
    (acc.largest < weight pair ∧ (step weight acc item).largest = weight pair ∧
        (step weight acc item).best = pair) ∨
      (weight pair ≤ acc.largest ∧ (step weight acc item).largest = acc.largest ∧
        (step weight acc item).best = acc.best) := by
  unfold step
  simp only
  split
  · rename_i hlt
    exact .inl ⟨hlt, rfl, rfl⟩
  · rename_i hlt
    exact .inr ⟨not_lt.mp hlt, rfl, rfl⟩

theorem run_mono (acc : Acc V W α) (items : List (Item V W)) :
    acc.largest ≤ (run weight acc items).largest ∧
      ((run weight acc items).largest = acc.largest → (run weight acc items).best = acc.best) := by
  induction items generalizing acc with
  | nil => exact ⟨le_refl _, fun _ => rfl⟩
  | cons item items ih =>
      obtain ⟨hle, hsame⟩ := ih (step weight acc item)
      rw [run_cons]
      rcases @step_cases V W α _ weight acc item with ⟨hlt, hlargest, _⟩ | ⟨_, hlargest, hbest⟩
      · rw [hlargest] at hle
        have hmore := hlt.trans_le hle
        exact ⟨hmore.le, fun heq => absurd heq hmore.ne'⟩
      · rw [hlargest] at hle hsame
        rw [hbest] at hsame
        exact ⟨hle, hsame⟩

/-- What is true of the variables behind some items. -/
structure Seen (weight : V × W → α) (start : V) (bottom : α) (items : List (Item V W))
    (acc : Acc V W α) : Prop where
  value : acc.value = start ∨ ∃ item ∈ items, item.value = some acc.value
  le : bottom ≤ acc.largest
  own : ∀ item ∈ items, weight (item.own start) ≤ acc.largest
  best : acc.largest = bottom ∨
    acc.largest = weight acc.best ∧ Candidate weight start items acc.best

variable {bottom : α}

theorem seen_nil (acc : Acc V W α) (hvalue : acc.value = start) (hlargest : acc.largest = bottom) :
    Seen weight start bottom [] acc where
  value := .inl hvalue
  le := hlargest.ge
  own _ h := absurd h List.not_mem_nil
  best := .inl hlargest

theorem Candidate.concat (h : Candidate weight start items pair) (item : Item V W) :
    Candidate weight start (items ++ [item]) pair := by
  rcases h with ⟨i, hi, hpair⟩ | ⟨before, hbefore, i, hi, h⟩
  · exact .inl ⟨i, List.mem_append_left _ hi, hpair⟩
  · exact .inr ⟨before, List.mem_append_left _ hbefore, i, List.mem_append_left _ hi, h⟩

/-- The pair of an item is its own one, or the one with the value of an item in front of it. -/
theorem Seen.candidate {item : Item V W} (h : Seen weight start bottom items acc)
    (hlt : acc.largest < weight (item.value.getD acc.value, item.base)) :
    Candidate weight start (items ++ [item]) (item.value.getD acc.value, item.base) := by
  have hlast : item ∈ items ++ [item] := List.mem_append_right _ (List.mem_singleton_self item)
  cases hitem : item.value with
  | some value =>
      left
      exact ⟨item, hlast, by simp [Item.own, hitem]⟩
  | none =>
      rw [hitem] at hlt
      rcases h.value with hstart | ⟨before, hbefore, hvalue⟩
      · left
        exact ⟨item, hlast, by simp [Item.own, hitem, hstart]⟩
      · right
        exact ⟨before, List.mem_append_left _ hbefore, item, hlast, acc.value, hvalue, hitem, rfl,
          (h.own before hbefore).trans_lt hlt⟩

theorem Seen.step {item : Item V W} (h : Seen weight start bottom items acc)
    (hstart : ∀ i ∈ items, ∀ value, i.value = some value → ∀ base,
      weight (start, base) ≤ weight (value, base)) :
    Seen weight start bottom (items ++ [item]) (step weight acc item) := by
  have hown : weight (item.own start) ≤ weight (item.value.getD acc.value, item.base) := by
    cases hitem : item.value with
    | some value => simp [Item.own, hitem]
    | none =>
        rw [Item.own, hitem]
        rcases h.value with heq | ⟨before, hbefore, hvalue⟩
        · rw [heq]
        · exact hstart before hbefore acc.value hvalue item.base
  have hvalue : (CarriedMaximum.step weight acc item).value = start ∨
      ∃ i ∈ items ++ [item], i.value = some (CarriedMaximum.step weight acc item).value := by
    rw [step_value]
    cases hitem : item.value with
    | some value => exact .inr ⟨item, by simp, hitem⟩
    | none =>
        rcases h.value with heq | ⟨before, hbefore, hbv⟩
        · exact .inl heq
        · exact .inr ⟨before, List.mem_append_left _ hbefore, hbv⟩
  rcases step_cases acc item with ⟨hlt, hlargest, hbest⟩ | ⟨hle, hlargest, hbest⟩
  · refine ⟨hvalue, ?_, ?_, ?_⟩
    · rw [hlargest]
      exact h.le.trans hlt.le
    · intro i hi
      rw [hlargest]
      rcases List.mem_append.mp hi with hi | hi
      · exact (h.own i hi).trans hlt.le
      · rw [List.mem_singleton.mp hi]
        exact hown
    · right
      rw [hlargest, hbest]
      exact ⟨rfl, h.candidate hlt⟩
  · refine ⟨hvalue, ?_, ?_, ?_⟩
    · rw [hlargest]
      exact h.le
    · intro i hi
      rw [hlargest]
      rcases List.mem_append.mp hi with hi | hi
      · exact h.own i hi
      · rw [List.mem_singleton.mp hi]
        exact hown.trans hle
    · rw [hlargest, hbest]
      exact h.best.imp_right fun ⟨heq, hcandidate⟩ => ⟨heq, hcandidate.concat item⟩

theorem seen_run (acc : Acc V W α) (items : List (Item V W)) (hvalue : acc.value = start)
    (hlargest : acc.largest = bottom)
    (hstart : ∀ i ∈ items, ∀ value, i.value = some value → ∀ base,
      weight (start, base) ≤ weight (value, base)) :
    Seen weight start bottom items (run weight acc items) := by
  induction items using List.reverseRecOn with
  | nil => exact seen_nil acc hvalue hlargest
  | append_singleton items item ih =>
      have hfront := fun i hi => hstart i (List.mem_append_left _ hi)
      rw [run, List.foldl_append]
      exact (ih hfront).step hfront

theorem exists_perm_cons {β : Type*} {b : β} {bs : List β} (h : b ∈ bs) :
    ∃ rest, (b :: rest).Perm bs := by
  obtain ⟨front, behind, rfl⟩ := List.append_of_mem h
  exact ⟨front ++ behind, List.perm_middle.symm⟩

/-- A pair that is kept at an item is kept to the end, unless a larger one is. -/
theorem best_or_lt (hbest : acc.best = pair) (hlargest : acc.largest = weight pair)
    (items : List (Item V W)) : (run weight acc items).best = pair ∨
      weight pair < (run weight acc items).largest := by
  obtain ⟨hle, hsame⟩ := @run_mono V W α _ weight acc items
  rw [hlargest] at hle hsame
  rcases hle.eq_or_lt with heq | hlt
  · left
    rw [hsame heq.symm, hbest]
  · exact .inr hlt

/-- Every pair that a loop can keep is kept in some order, unless a larger one is. -/
theorem exists_perm_best (acc : Acc V W α) (hvalue : acc.value = start)
    (hpair : Candidate weight start items pair) (hlt : acc.largest < weight pair) :
    ∃ items', items'.Perm items ∧ ((run weight acc items').best = pair ∨
      weight pair < (run weight acc items').largest) := by
  rcases hpair with ⟨item, hitem, rfl⟩ | ⟨before, hbefore, item, hitem, value, hv, hnone, rfl, hmore⟩
  · obtain ⟨rest, hperm⟩ := exists_perm_cons hitem
    refine ⟨item :: rest, hperm, ?_⟩
    have hpair : (item.value.getD acc.value, item.base) = item.own start := by
      rw [hvalue]
      rfl
    rw [run_cons]
    rcases step_cases acc item with ⟨_, hlargest, hbest⟩ | ⟨hle, _, _⟩
    · rw [hpair] at hlargest hbest
      exact best_or_lt hbest hlargest rest
    · rw [hpair] at hle
      exact absurd hlt hle.not_gt
  · obtain ⟨rest, hperm⟩ := exists_perm_cons hbefore
    have hrest : item ∈ rest := by
      rcases List.mem_cons.mp (hperm.symm.subset hitem) with heq | hmem
      · rw [heq, hv] at hnone
        cases hnone
      · exact hmem
    obtain ⟨rest', hperm'⟩ := exists_perm_cons hrest
    refine ⟨before :: item :: rest', (hperm'.cons before).trans hperm, ?_⟩
    have hpair : (item.value.getD (step weight acc before).value, item.base) =
        (value, item.base) := by
      rw [step_value, hnone, hv]
      rfl
    have hfirst : (step weight acc before).largest < weight (value, item.base) := by
      have hown : (before.value.getD acc.value, before.base) = before.own start := by
        rw [hvalue]
        rfl
      rcases step_cases acc before with ⟨_, hlargest, _⟩ | ⟨_, hlargest, _⟩
      · rw [hlargest, hown]
        exact hmore
      · rw [hlargest]
        exact hlt
    rw [run_cons, run_cons]
    rcases step_cases (step weight acc before) item with ⟨_, hlargest, hbest⟩ | ⟨hle, _, _⟩
    · rw [hpair] at hlargest hbest
      exact best_or_lt hbest hlargest rest'
    · rw [hpair] at hle
      exact absurd hfirst hle.not_gt

end

end Dimemas.Library.CarriedMaximum
