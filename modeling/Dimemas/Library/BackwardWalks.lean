import Mathlib.Data.Finite.Defs
import Mathlib.Data.Fintype.WithTopBot
import Mathlib.Data.List.Chain
import Mathlib.Logic.Relation
import Mathlib.Order.Lattice
import Mathlib.Order.WellFounded
import Mathlib.Order.RelClasses
/-!
# Backward walks

A walk against the arcs of a finite graph ends exactly if it does not come to a cycle. The levels that
a walk passes on its way down are each passed once exactly if it never goes up.
-/

namespace Dimemas.Library.BackwardWalks

open Relation

/-! ## Walks that end -/

section ends

variable {α : Type*} {r : α → α → Prop} {a : α}

theorem acc_of_acyclic (hfin : {b | ReflTransGen r a b}.Finite)
    (hacyclic : ∀ b, ReflTransGen r a b → ¬ TransGen r b b) : Acc (fun b c => r c b) a := by
  have : Finite {b // ReflTransGen r a b} := hfin
  let q (x y : {b // ReflTransGen r a b}) : Prop := TransGen r y.1 x.1
  have : IsTrans _ q := ⟨fun _ _ _ hxy hyz => hyz.trans hxy⟩
  have : Std.Irrefl q := ⟨fun x => hacyclic x.1 x.2⟩
  have hwf : WellFounded q := Finite.wellFounded_of_trans_of_irrefl q
  have hacc (x : {b // ReflTransGen r a b}) : Acc (fun b c => r c b) x.1 := by
    induction x using hwf.induction with
    | _ x ih =>
        refine Acc.intro _ fun b hb => ?_
        exact ih ⟨b, x.2.tail hb⟩ (TransGen.single hb)
  exact hacc ⟨a, .refl⟩

theorem acyclic_of_acc (h : Acc (fun b c => r c b) a) : ¬ TransGen r a a := by
  induction h with
  | intro a _ ih =>
      intro hcycle
      obtain ⟨b, hab, hba⟩ := TransGen.head'_iff.mp hcycle
      exact ih b hab (TransGen.tail' hba hab)

end ends

/-! ## Levels -/

section levels

variable {α : Type*} [LinearOrder α]

/-- How often a sequence goes down past a level. -/
def crossings (x : α) : List α → Nat
  | a :: b :: l => (if b < x ∧ x ≤ a then 1 else 0) + crossings x (b :: l)
  | _ => 0

variable {x a b bottom : α} {l l' : List α}

theorem crossings_append (x a : α) (l l' : List α) :
    crossings x (l ++ a :: l') = crossings x (l ++ [a]) + crossings x (a :: l') := by
  induction l with
  | nil => simp [crossings]
  | cons b l ih =>
      cases l with
      | nil => simp [crossings]
      | cons c l =>
          simp only [List.cons_append, crossings] at ih ⊢
          omega

/-- A sequence from above the level to below it passes the level. -/
theorem crossings_pos (htop : x ≤ a) (hbottom : bottom < x) :
    0 < crossings x (a :: l ++ [bottom]) := by
  induction l generalizing a with
  | nil =>
      simp only [List.cons_append, List.nil_append, crossings, if_pos (And.intro hbottom htop)]
      omega
  | cons b l ih =>
      rw [List.cons_append, List.cons_append, crossings, ← List.cons_append]
      by_cases hb : x ≤ b
      · exact Nat.lt_of_lt_of_le (ih hb) (Nat.le_add_left _ _)
      · rw [if_pos ⟨not_le.mp hb, htop⟩]
        omega

theorem crossings_eq_zero (h : ∀ y ∈ l, y < x) : crossings x l = 0 := by
  induction l with
  | nil => rfl
  | cons a l ih =>
      cases l with
      | nil => rfl
      | cons b l =>
          have ha : ¬ x ≤ a := not_le.mpr (h a List.mem_cons_self)
          rw [crossings, if_neg fun hc => ha hc.2, Nat.zero_add]
          exact ih fun y hy => h y (List.mem_cons_of_mem a hy)

theorem crossings_le_one (h : (a :: l).IsChain (· ≥ ·)) : crossings x (a :: l) ≤ 1 := by
  induction l generalizing a with
  | nil => simp [crossings]
  | cons b l ih =>
      rw [List.isChain_cons_cons] at h
      rw [crossings]
      by_cases hb : b < x ∧ x ≤ a
      · have hlow : crossings x (b :: l) = 0 := by
          apply crossings_eq_zero
          intro y hy
          rcases List.mem_cons.mp hy with rfl | hy
          · exact hb.1
          · have hpair := List.isChain_iff_pairwise.mp h.2
            exact lt_of_le_of_lt (List.rel_of_pairwise_cons hpair hy) hb.1
        rw [if_pos hb, hlow]
      · rw [if_neg hb, Nat.zero_add]
        exact ih h.2

/-- A step up between the ends makes a level be passed twice. -/
theorem two_le_crossings {b c : α} {l₁ l₂ : List α} (hl : a :: (l ++ [bottom]) = l₁ ++ b :: c :: l₂)
    (hup : b < c) (hca : c ≤ a) (hbc : bottom ≤ b) : 2 ≤ crossings c (a :: (l ++ [bottom])) := by
  have hbefore : 0 < crossings c (l₁ ++ [b]) := by
    cases l₁ with
    | nil =>
        have hab : a = b := (List.cons.inj hl).1
        exact absurd (hab ▸ hup) (not_lt.mpr hca)
    | cons d l₁ =>
        have had : a = d := (List.cons.inj hl).1
        rw [← had]
        exact crossings_pos hca hup
  have hafter : 0 < crossings c (c :: l₂) := by
    rcases List.eq_nil_or_concat l₂ with rfl | ⟨l₂, y, rfl⟩
    · have hends : (a :: l) ++ [bottom] = (l₁ ++ [b]) ++ [c] := by simpa using hl
      have hc : c = bottom := (List.cons.inj (List.append_inj_right' hends rfl)).1.symm
      exact absurd (hc ▸ hup) (not_lt.mpr hbc)
    · have hends : (a :: l) ++ [bottom] = (l₁ ++ b :: c :: l₂) ++ [y] := by simpa using hl
      have hy : y = bottom := (List.cons.inj (List.append_inj_right' hends rfl)).1.symm
      rw [List.concat_eq_append, hy]
      exact crossings_pos le_rfl (lt_of_le_of_lt hbc hup)
  rw [hl, crossings_append, crossings]
  omega

/-- A sequence that stays between its two ends passes every level once exactly if it never goes
up. -/
theorem crossings_eq_one_iff (htop : ∀ y ∈ l, y ≤ a) (hbottom : ∀ y ∈ l, bottom ≤ y)
    (hends : bottom ≤ a) :
    (∀ x, bottom < x → x ≤ a → crossings x (a :: (l ++ [bottom])) = 1) ↔
      (a :: (l ++ [bottom])).IsChain (· ≥ ·) := by
  have hbounds (y : α) (hy : y ∈ a :: (l ++ [bottom])) : bottom ≤ y ∧ y ≤ a := by
    rcases List.mem_cons.mp hy with rfl | hy
    · exact ⟨hends, le_rfl⟩
    · rcases List.mem_append.mp hy with hy | hy
      · exact ⟨hbottom y hy, htop y hy⟩
      · rw [List.mem_singleton.mp hy]
        exact ⟨le_rfl, hends⟩
  constructor
  · intro hone
    rw [List.isChain_iff_forall_rel_of_append_cons_cons]
    intro b c l₁ l₂ hl
    apply le_of_not_gt
    intro hup
    have hb := hbounds b (by rw [hl]; simp)
    have hc := hbounds c (by rw [hl]; simp)
    have htwice := two_le_crossings hl hup hc.2 hb.1
    rw [hone c (lt_of_le_of_lt hb.1 hup) hc.2] at htwice
    omega
  · intro hchain x hx hxa
    have hpos := crossings_pos (l := l) hxa hx
    have hle := crossings_le_one (x := x) hchain
    rw [List.cons_append] at hpos
    exact Nat.le_antisymm hle hpos

end levels

end Dimemas.Library.BackwardWalks
