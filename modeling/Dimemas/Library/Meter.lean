import Mathlib.Algebra.Ring.Basic
import Mathlib.Data.Nat.Cast.Basic
import Mathlib.Tactic.Ring
/-!
# Meters

A meter handles timed events, and measures the time that passes in some of the states between them.
It is right as long as no event changes what it has measured.
-/

namespace Dimemas.Library.Meter

variable {σ τ ε : Type*}

/-- The time that passes up to the last event in states where `P` holds. -/
def timeIn (time : ε → Nat) (next : σ → ε → σ) (P : σ → Bool) (s : σ) (now : Nat) : List ε → Nat
  | [] => 0
  | e :: es => (bif P s then time e - now else 0) + timeIn time next P (next s e) (time e) es

def lastTime (time : ε → Nat) (now : Nat) : List ε → Nat
  | [] => now
  | e :: es => lastTime time (time e) es

/-- The times of the events do not decrease. -/
def NonDecreasing (time : ε → Nat) (now : Nat) : List ε → Prop
  | [] => True
  | e :: es => now ≤ time e ∧ NonDecreasing time (time e) es

instance decidableNonDecreasing (time : ε → Nat) :
    (now : Nat) → (es : List ε) → Decidable (NonDecreasing time now es)
  | _, [] => inferInstanceAs (Decidable True)
  | now, e :: es =>
      have := decidableNonDecreasing time (time e) es
      inferInstanceAs (Decidable (now ≤ time e ∧ NonDecreasing time (time e) es))

/-- A condition holds at all events that a machine handles. -/
def AtEvents (handle : τ → ε → Option τ) (C : τ → ε → Prop) : τ → List ε → Prop
  | _, [] => True
  | s, e :: es => C s e ∧ ∀ s' ∈ handle s e, AtEvents handle C s' es

instance decidableAtEvents (handle : τ → ε → Option τ) (C : τ → ε → Prop)
    [∀ s e, Decidable (C s e)] : (s : τ) → (es : List ε) → Decidable (AtEvents handle C s es)
  | _, [] => inferInstanceAs (Decidable True)
  | s, e :: es =>
      have := fun s' => decidableAtEvents handle C s' es
      inferInstanceAs (Decidable (C s e ∧ ∀ s' ∈ handle s e, AtEvents handle C s' es))

theorem lastTime_append_singleton (time : ε → Nat) (now : Nat) (es : List ε) (e : ε) :
    lastTime time now (es ++ [e]) = time e := by
  induction es generalizing now with
  | nil => rfl
  | cons d es ih => exact ih (time d)

theorem NonDecreasing.of_append {time : ε → Nat} {now : Nat} {es fs : List ε}
    (h : NonDecreasing time now (es ++ fs)) : NonDecreasing time now es := by
  induction es generalizing now with
  | nil => trivial
  | cons e es ih => exact ⟨h.1, ih h.2⟩

theorem AtEvents.of_append {handle : τ → ε → Option τ} {C : τ → ε → Prop} {s : τ} {es fs : List ε}
    (h : AtEvents handle C s (es ++ fs)) : AtEvents handle C s es := by
  induction es generalizing s with
  | nil => trivial
  | cons e es ih => exact ⟨h.1, fun s' hs' => ih (h.2 s' hs')⟩

section

variable {R : Type*} [CommSemiring R] {rate : R} {time : ε → Nat} {next : σ → ε → σ} {P : σ → Bool}
  {handle : τ → ε → Option τ} {C : τ → ε → Prop}

theorem measured_foldlM (view : τ → σ) (measured : τ → Nat → R) (I : τ → Nat → Prop)
    (hpass : ∀ s now later, I s now → now ≤ later → I s later ∧
      measured s later = measured s now + bif P (view s) then ((later - now : Nat) : R) * rate else 0)
    (hhandle : ∀ s e, I s (time e) → C s e → ∃ s', handle s e = some s' ∧ I s' (time e) ∧
      view s' = next (view s) e ∧ measured s' (time e) = measured s (time e))
    {s : τ} {now : Nat} {es : List ε} (hI : I s now) (htime : NonDecreasing time now es)
    (hC : AtEvents handle C s es) :
    ∃ s', es.foldlM handle s = some s' ∧ I s' (lastTime time now es) ∧
      view s' = es.foldl next (view s) ∧
      measured s' (lastTime time now es) =
        measured s now + (timeIn time next P (view s) now es : R) * rate := by
  induction es generalizing s now with
  | nil => exact ⟨s, rfl, hI, rfl, by simp [lastTime, timeIn]⟩
  | cons e es ih =>
      obtain ⟨hlater, hpassed⟩ := hpass s now (time e) hI htime.1
      obtain ⟨s₁, hs₁, hI₁, hview₁, hsame⟩ := hhandle s e hlater hC.1
      obtain ⟨s₂, hs₂, hI₂, hview₂, hall⟩ := ih hI₁ htime.2 (hC.2 s₁ hs₁)
      refine ⟨s₂, ?_, hI₂, ?_, ?_⟩
      · rw [List.foldlM_cons, hs₁]
        exact hs₂
      · rw [hview₂, hview₁]
        rfl
      · rw [lastTime, hall, hsame, hpassed, hview₁, timeIn]
        cases P (view s) with
        | true =>
            simp only [cond_true]
            push_cast
            ring
        | false =>
            simp only [cond_false]
            push_cast
            ring

end

end Dimemas.Library.Meter
