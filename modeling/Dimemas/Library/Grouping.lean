import Mathlib.Algebra.BigOperators.Group.List.Basic
import Mathlib.Algebra.Ring.Nat
import Mathlib.Data.List.Basic
import Mathlib.Order.Lattice
/-!
# Groups of consecutive items

Items that follow each other with the same key are collected in a group, which is given out when an
item with another key comes. A group may also be cut, so that two groups of one key follow each
other.
-/

namespace Dimemas.Library.Grouping

universe u v

variable {K : Type u} {V : Type v}

structure Group (K : Type u) (V : Type v) where
  key : K
  items : List V

inductive Input (K : Type u) (V : Type v)
  | item (key : K) (value : V)
  | cut (key : K)

def Group.pairs (g : Group K V) : List (K × V) := g.items.map fun v => (g.key, v)

def Input.pairs : Input K V → List (K × V)
  | .item k v => [(k, v)]
  | .cut _ => []

def Group.flush (g : Group K V) : List (Group K V) :=
  match g.items with
  | [] => []
  | _ :: _ => [g]

variable [DecidableEq K]

def Group.step (g : Group K V) : Input K V → Group K V × List (Group K V)
  | .item k v => if g.key = k then (⟨k, g.items ++ [v]⟩, []) else (⟨k, [v]⟩, g.flush)
  | .cut k => if g.key = k then (⟨k, []⟩, g.flush) else (g, [])

def groups : Group K V → List (Input K V) → List (Group K V)
  | g, [] => g.flush
  | g, i :: is => (g.step i).2 ++ groups (g.step i).1 is

section

variable {g : Group K V} {i : Input K V} {is : List (Input K V)} {k : K} {v : V}
variable {l : List V}

omit [DecidableEq K] in
theorem flush_of_nil (h : g.items = []) : g.flush = [] := by
  unfold Group.flush
  rw [h]

omit [DecidableEq K] in
theorem flush_of_ne (h : g.items ≠ []) : g.flush = [g] := by
  unfold Group.flush
  split
  · contradiction
  · rfl

omit [DecidableEq K] in
theorem pairs_flush (g : Group K V) : g.flush.flatMap Group.pairs = g.pairs := by
  by_cases h : g.items = []
  · rw [flush_of_nil h, Group.pairs, h]
    rfl
  · rw [flush_of_ne h, List.flatMap_singleton]

theorem step_item_self : (Group.mk k l : Group K V).step (.item k v) = (⟨k, l ++ [v]⟩, []) :=
  if_pos rfl

theorem step_item_of_ne (h : g.key ≠ k) : g.step (.item k v) = (⟨k, [v]⟩, g.flush) := if_neg h

theorem step_cut_self : (Group.mk k l : Group K V).step (.cut k) = (⟨k, []⟩, (Group.mk k l).flush) :=
  if_pos rfl

theorem step_cut_of_ne (h : g.key ≠ k) : g.step (.cut k) = (g, []) := if_neg h

/-! ## What the groups hold -/

theorem pairs_step (g : Group K V) (i : Input K V) :
    (g.step i).2.flatMap Group.pairs ++ (g.step i).1.pairs = g.pairs ++ i.pairs := by
  obtain ⟨k', l⟩ := g
  cases i with
  | item k v =>
      by_cases h : k' = k
      · subst h
        rw [step_item_self]
        simp [Group.pairs, Input.pairs]
      · rw [step_item_of_ne h, pairs_flush]
        rfl
  | cut k =>
      by_cases h : k' = k
      · subst h
        rw [step_cut_self, pairs_flush]
        rfl
      · rw [step_cut_of_ne h]
        simp [Input.pairs]

/-- No item is lost or repeated, and each keeps its key. -/
theorem pairs_groups (g : Group K V) (is : List (Input K V)) :
    (groups g is).flatMap Group.pairs = g.pairs ++ is.flatMap Input.pairs := by
  induction is generalizing g with
  | nil => rw [groups, pairs_flush, List.flatMap_nil, List.append_nil]
  | cons i is ih =>
      calc (groups g (i :: is)).flatMap Group.pairs
        _ = (g.step i).2.flatMap Group.pairs ++ (groups (g.step i).1 is).flatMap Group.pairs := by
          rw [groups, List.flatMap_append]
        _ = (g.step i).2.flatMap Group.pairs ++ (g.step i).1.pairs ++ is.flatMap Input.pairs := by
          rw [ih, List.append_assoc]
        _ = g.pairs ++ (i :: is).flatMap Input.pairs := by
          rw [pairs_step, List.flatMap_cons, List.append_assoc]

omit [DecidableEq K] in
theorem ne_nil_of_mem_flush {g' : Group K V} (h : g' ∈ g.flush) : g'.items ≠ [] := by
  by_cases hnil : g.items = []
  · rw [flush_of_nil hnil] at h
    simp at h
  · rw [flush_of_ne hnil, List.mem_singleton] at h
    rwa [h]

theorem ne_nil_of_mem_step {g' : Group K V} (h : g' ∈ (g.step i).2) : g'.items ≠ [] := by
  cases i with
  | item k v =>
      simp only [Group.step] at h
      split at h
      · simp at h
      · exact ne_nil_of_mem_flush h
  | cut k =>
      simp only [Group.step] at h
      split at h
      · exact ne_nil_of_mem_flush h
      · simp at h

theorem ne_nil_of_mem_groups {g' : Group K V} (h : g' ∈ groups g is) : g'.items ≠ [] := by
  induction is generalizing g with
  | nil => exact ne_nil_of_mem_flush h
  | cons i is ih =>
      rcases List.mem_append.mp h with h | h
      · exact ne_nil_of_mem_step h
      · exact ih h

omit [DecidableEq K] in
/-- Groups are in the order of their keys exactly when their items are. -/
theorem pairwise_pairs_iff {T : Type*} [Preorder T] (time : K → T) (gs : List (Group K V))
    (h : ∀ g ∈ gs, g.items ≠ []) :
    (gs.flatMap Group.pairs).Pairwise (fun a b => time a.1 ≤ time b.1) ↔
      gs.Pairwise fun a b => time a.key ≤ time b.key := by
  induction gs with
  | nil => simp
  | cons g gs ih =>
      rw [List.flatMap_cons, List.pairwise_append, List.pairwise_cons,
        ih fun g' hg' => h g' (List.mem_cons_of_mem g hg')]
      have hself : g.pairs.Pairwise fun a b => time a.1 ≤ time b.1 := by
        rw [Group.pairs, List.pairwise_map]
        exact List.pairwise_of_forall fun _ _ => le_rfl
      constructor
      · rintro ⟨-, hgs, hlt⟩
        refine ⟨?_, hgs⟩
        intro g' hg'
        obtain ⟨v, hv⟩ := List.exists_mem_of_ne_nil _ (h g List.mem_cons_self)
        obtain ⟨v', hv'⟩ := List.exists_mem_of_ne_nil _ (h g' (List.mem_cons_of_mem g hg'))
        exact hlt (g.key, v) (List.mem_map_of_mem hv) (g'.key, v')
          (List.mem_flatMap.mpr ⟨g', hg', List.mem_map_of_mem hv'⟩)
      · rintro ⟨hlt, hgs⟩
        refine ⟨hself, hgs, ?_⟩
        intro a ha b hb
        obtain ⟨g', hg', hb⟩ := List.mem_flatMap.mp hb
        obtain ⟨v, -, rfl⟩ := List.mem_map.mp ha
        obtain ⟨v', -, rfl⟩ := List.mem_map.mp hb
        exact hlt g' hg'

/-! ## What is left of another list

A group that holds items at the start shows in what is given out, by any size that grows with the
items of a group. -/

theorem groups_of_nil {g' : Group K V} (h : g.items = []) (h' : g'.items = [])
    (is : List (Input K V)) : groups g is = groups g' is := by
  induction is generalizing g g' with
  | nil => rw [groups, groups, flush_of_nil h, flush_of_nil h']
  | cons i is ih =>
      have hitem {g : Group K V} (h : g.items = []) (k : K) (v : V) :
          g.step (.item k v) = (⟨k, [v]⟩, []) := by
        rw [Group.step, h, flush_of_nil h]
        split <;> rfl
      have hcut {g : Group K V} (h : g.items = []) (k : K) :
          (g.step (.cut k)).1.items = [] ∧ (g.step (.cut k)).2 = [] := by
        rw [Group.step, flush_of_nil h]
        split
        · exact ⟨rfl, rfl⟩
        · exact ⟨h, rfl⟩
      cases i with
      | item k v => rw [groups, groups, hitem h, hitem h']
      | cut k =>
          rw [groups, groups, (hcut h k).2, (hcut h' k).2, ih (hcut h k).1 (hcut h' k).1]

variable {size : Group K V → Nat}

theorem size_groups_extended
    (hsize : ∀ k l₁ l₂, l₁ ≠ [] → l₂ ≠ [] → size ⟨k, l₂⟩ < size ⟨k, l₁ ++ l₂⟩) (k : K)
    {l₁ l₂ : List V} (h₁ : l₁ ≠ []) (h₂ : l₂ ≠ []) (is : List (Input K V)) :
    ((groups ⟨k, l₂⟩ is).map size).sum < ((groups ⟨k, l₁ ++ l₂⟩ is).map size).sum := by
  have hne : l₁ ++ l₂ ≠ [] := by simp [h₁]
  have hlt := hsize k l₁ l₂ h₁ h₂
  induction is generalizing l₂ with
  | nil =>
      rw [groups, groups, flush_of_ne h₂, flush_of_ne hne]
      simpa using hlt
  | cons i is ih =>
      cases i with
      | item k' v =>
          by_cases h : k = k'
          · subst h
            rw [groups, groups, step_item_self, step_item_self, List.append_assoc]
            have happend : l₂ ++ [v] ≠ [] := by simp
            exact ih happend (by simp) (hsize k l₁ _ h₁ happend)
          · rw [groups, groups, step_item_of_ne h, step_item_of_ne h, flush_of_ne h₂,
              flush_of_ne hne]
            simpa using hlt
      | cut k' =>
          by_cases h : k = k'
          · subst h
            rw [groups, groups, step_cut_self, step_cut_self, flush_of_ne h₂, flush_of_ne hne]
            simpa using hlt
          · rw [groups, groups, step_cut_of_ne h, step_cut_of_ne h]
            exact ih h₂ hne hlt

theorem size_groups_lt (hpos : ∀ g : Group K V, g.items ≠ [] → 0 < size g)
    (hsize : ∀ k l₁ l₂, l₁ ≠ [] → l₂ ≠ [] → size ⟨k, l₂⟩ < size ⟨k, l₁ ++ l₂⟩)
    {g' : Group K V} (h : g.items ≠ []) (h' : g'.items = []) (is : List (Input K V)) :
    ((groups g' is).map size).sum < ((groups g is).map size).sum := by
  obtain ⟨k, l⟩ := g
  have hlt := hpos ⟨k, l⟩ h
  induction is with
  | nil =>
      rw [groups, groups, flush_of_nil h', flush_of_ne h]
      simpa using hlt
  | cons i is ih =>
      rw [groups_of_nil h' (rfl : (Group.mk k []).items = [])] at ih ⊢
      cases i with
      | item k' v =>
          by_cases hk : k = k'
          · subst hk
            rw [groups, groups, step_item_self, step_item_self]
            exact size_groups_extended hsize k h (by simp) is
          · rw [groups, groups, step_item_of_ne hk, step_item_of_ne hk, flush_of_ne h,
              flush_of_nil rfl]
            simpa using hlt
      | cut k' =>
          by_cases hk : k = k'
          · subst hk
            rw [groups, groups, step_cut_self, step_cut_self, flush_of_ne h, flush_of_nil rfl]
            simpa using hlt
          · rw [groups, groups, step_cut_of_ne hk, step_cut_of_ne hk]
            exact ih

end

end Dimemas.Library.Grouping
