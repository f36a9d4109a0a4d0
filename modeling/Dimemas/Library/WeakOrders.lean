import Mathlib.Data.Set.Image
import Mathlib.Order.Lattice
/-!
# Strict weak orders on sets

What a sort asks of its comparison: on the records that it is given it is irreflexive, asymmetric and
transitive, and so is incomparability. The rules here take a comparison by a key first apart.
-/

namespace Dimemas.Library.WeakOrders

variable {α β : Type*}

def Incomparable (lt : α → α → Bool) (a b : α) : Prop :=
  lt a b = false ∧ lt b a = false

structure StrictWeakOn (lt : α → α → Bool) (S : Set α) : Prop where
  irrefl : ∀ a ∈ S, lt a a = false
  asymm : ∀ a ∈ S, ∀ b ∈ S, lt a b = true → lt b a = false
  trans : ∀ a ∈ S, ∀ b ∈ S, ∀ c ∈ S, lt a b = true → lt b c = true → lt a c = true
  incomparable_trans : ∀ a ∈ S, ∀ b ∈ S, ∀ c ∈ S,
    Incomparable lt a b → Incomparable lt b c → Incomparable lt a c

section

variable {lt lt' : α → α → Bool} {S : Set α}

/-- What is smaller than another record is smaller than a third one, or that one is smaller than
the other. -/
theorem StrictWeakOn.lt_or_lt (h : StrictWeakOn lt S) {a b c : α} (ha : a ∈ S) (hb : b ∈ S)
    (hc : c ∈ S) (hac : lt a c = true) : lt a b = true ∨ lt b c = true := by
  by_contra hnone
  simp only [not_or, Bool.not_eq_true] at hnone
  have hba : lt b a = false := by
    by_contra hba
    have hbc := h.trans b hb a ha c hc (Bool.of_not_eq_false hba) hac
    exact absurd hbc (by simp [hnone.2])
  have hcb : lt c b = false := by
    by_contra hcb
    have hab := h.trans a ha c hc b hb hac (Bool.of_not_eq_false hcb)
    exact absurd hab (by simp [hnone.1])
  have hinc := h.incomparable_trans a ha b hb c hc ⟨hnone.1, hba⟩ ⟨hnone.2, hcb⟩
  exact absurd hac (by simp [hinc.1])

theorem strictWeakOn_iff : StrictWeakOn lt S ↔
    (∀ a ∈ S, ∀ b ∈ S, lt a b = true → lt b a = false) ∧
      ∀ a ∈ S, ∀ b ∈ S, ∀ c ∈ S, lt a c = true → lt a b = true ∨ lt b c = true := by
  constructor
  · intro h
    exact ⟨h.asymm, fun a ha b hb c hc => h.lt_or_lt ha hb hc⟩
  · rintro ⟨hasymm, hsplit⟩
    have hfalse {a b : α} (ha : a ∈ S) (hb : b ∈ S) (hab : lt a b = true) : ¬ lt b a = true := by
      simp [hasymm a ha b hb hab]
    constructor
    · intro a ha
      by_contra h
      exact hfalse ha ha (Bool.of_not_eq_false h) (Bool.of_not_eq_false h)
    · exact hasymm
    · intro a ha b hb c hc hab hbc
      exact (hsplit a ha c hc b hb hab).resolve_right (hfalse hb hc hbc)
    · intro a ha b hb c hc hab hbc
      constructor
      · by_contra h
        rcases hsplit a ha b hb c hc (Bool.of_not_eq_false h) with h' | h'
        · exact absurd h' (by simp [hab.1])
        · exact absurd h' (by simp [hbc.1])
      · by_contra h
        rcases hsplit c hc b hb a ha (Bool.of_not_eq_false h) with h' | h'
        · exact absurd h' (by simp [hbc.2])
        · exact absurd h' (by simp [hab.2])

theorem strictWeakOn_congr (h : ∀ a ∈ S, ∀ b ∈ S, lt a b = lt' a b) :
    StrictWeakOn lt S ↔ StrictWeakOn lt' S := by
  rw [strictWeakOn_iff, strictWeakOn_iff]
  apply and_congr
  · refine forall₂_congr fun a ha => forall₂_congr fun b hb => ?_
    rw [h a ha b hb, h b hb a ha]
  · refine forall₂_congr fun a ha => forall₂_congr fun b hb => forall₂_congr fun c hc => ?_
    rw [h a ha c hc, h a ha b hb, h b hb c hc]

theorem StrictWeakOn.mono {T : Set α} (h : StrictWeakOn lt S) (hT : T ⊆ S) : StrictWeakOn lt T where
  irrefl a ha := h.irrefl a (hT ha)
  asymm a ha b hb := h.asymm a (hT ha) b (hT hb)
  trans a ha b hb c hc := h.trans a (hT ha) b (hT hb) c (hT hc)
  incomparable_trans a ha b hb c hc := h.incomparable_trans a (hT ha) b (hT hb) c (hT hc)

theorem strictWeakOn_image {lt : β → β → Bool} (f : α → β) :
    StrictWeakOn (fun a b => lt (f a) (f b)) S ↔ StrictWeakOn lt (f '' S) := by
  rw [strictWeakOn_iff, strictWeakOn_iff]
  simp only [Set.forall_mem_image]

end

/-! ## Keys -/

section

variable [LinearOrder β] {lt : α → α → Bool} {S : Set α} (f : α → β)

theorem strictWeakOn_key : StrictWeakOn (fun a b => decide (f a < f b)) S := by
  rw [strictWeakOn_iff]
  simp only [decide_eq_true_eq, decide_eq_false_iff_not, not_lt]
  constructor
  · intro a _ b _ hab
    exact hab.le
  · intro a _ b _ c _ hac
    exact (lt_or_ge (f a) (f b)).imp_right fun hle => lt_of_le_of_lt hle hac

/-- The comparison by the key, and by `lt` where the keys are equal. -/
def lexBy (lt : α → α → Bool) (a b : α) : Bool :=
  if f a = f b then lt a b else decide (f a < f b)

theorem strictWeakOn_lexBy :
    StrictWeakOn (lexBy f lt) S ↔ ∀ k, StrictWeakOn lt {a | a ∈ S ∧ f a = k} := by
  constructor
  · intro h k
    have hsub := h.mono (T := {a | a ∈ S ∧ f a = k}) fun a ha => ha.1
    refine (strictWeakOn_congr fun a ha b hb => ?_).mp hsub
    rw [lexBy, if_pos (ha.2.trans hb.2.symm)]
  · intro h
    rw [strictWeakOn_iff]
    constructor
    · intro a ha b hb hab
      by_cases heq : f a = f b
      · rw [lexBy, if_pos heq] at hab
        rw [lexBy, if_pos heq.symm]
        exact (h (f b)).asymm a ⟨ha, heq⟩ b ⟨hb, rfl⟩ hab
      · rw [lexBy, if_neg heq, decide_eq_true_eq] at hab
        rw [lexBy, if_neg (Ne.symm heq), decide_eq_false_iff_not]
        exact hab.le.not_gt
    · intro a ha b hb c hc hac
      by_cases hab : f a = f b
      · by_cases hbc : f b = f c
        · rw [lexBy, if_pos (hab.trans hbc)] at hac
          rw [lexBy, if_pos hab, lexBy, if_pos hbc]
          exact (h (f c)).lt_or_lt ⟨ha, hab.trans hbc⟩ ⟨hb, hbc⟩ ⟨hc, rfl⟩ hac
        · rw [lexBy, if_neg (by rwa [hab]), decide_eq_true_eq, hab] at hac
          right
          rw [lexBy, if_neg hbc, decide_eq_true_eq]
          exact hac
      · by_cases hbc : f b = f c
        · rw [lexBy, if_neg (by rwa [← hbc]), decide_eq_true_eq, ← hbc] at hac
          left
          rw [lexBy, if_neg hab, decide_eq_true_eq]
          exact hac
        · have hle : f a ≤ f c := by
            by_cases heq : f a = f c
            · exact heq.le
            · rw [lexBy, if_neg heq, decide_eq_true_eq] at hac
              exact hac.le
          rw [lexBy, if_neg hab, lexBy, if_neg hbc, decide_eq_true_eq, decide_eq_true_eq]
          rcases lt_or_gt_of_ne hab with hlt | hgt
          · exact .inl hlt
          · exact .inr (lt_of_lt_of_le hgt hle)

end

end Dimemas.Library.WeakOrders
