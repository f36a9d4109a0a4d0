import Mathlib.Data.List.Basic
/-!
# Simulation of servers

A server answers a request and goes to another state. Two servers that stay related give the same
responses, as long as a condition on the state of the second holds at all requests.
-/

namespace Dimemas.Library.Simulation

variable {σ τ ρ ω : Type*}

def responses (serve : σ → ρ → σ × ω) : σ → List ρ → List ω
  | _, [] => []
  | s, q :: qs => (serve s q).2 :: responses serve (serve s q).1 qs

/-- A condition holds at all requests to a server. -/
def Along (serve : σ → ρ → σ × ω) (C : σ → ρ → Prop) : σ → List ρ → Prop
  | _, [] => True
  | s, q :: qs => C s q ∧ Along serve C (serve s q).1 qs

instance decidableAlong (serve : σ → ρ → σ × ω) (C : σ → ρ → Prop) [∀ s q, Decidable (C s q)] :
    (s : σ) → (qs : List ρ) → Decidable (Along serve C s qs)
  | _, [] => inferInstanceAs (Decidable True)
  | s, q :: qs =>
      have := decidableAlong serve C (serve s q).1 qs
      inferInstanceAs (Decidable (C s q ∧ Along serve C (serve s q).1 qs))

theorem responses_eq_of_simulation {serve : σ → ρ → σ × ω} {ideal : τ → ρ → τ × ω}
    {R : σ → τ → Prop} {C : τ → ρ → Prop}
    (hstep : ∀ s t q, R s t → C t q →
      R (serve s q).1 (ideal t q).1 ∧ (serve s q).2 = (ideal t q).2)
    {s : σ} {t : τ} {qs : List ρ} (h : R s t) (hC : Along ideal C t qs) :
    responses serve s qs = responses ideal t qs := by
  induction qs generalizing s t with
  | nil => rfl
  | cons q qs ih =>
      obtain ⟨hR, heq⟩ := hstep s t q h hC.1
      rw [responses, responses, heq, ih hR hC.2]

theorem related_foldl_of_simulation {serve : σ → ρ → σ × ω} {ideal : τ → ρ → τ × ω}
    {R : σ → τ → Prop} {C : τ → ρ → Prop}
    (hstep : ∀ s t q, R s t → C t q → R (serve s q).1 (ideal t q).1) {s : σ} {t : τ} {qs : List ρ}
    (h : R s t) (hC : Along ideal C t qs) :
    R (qs.foldl (fun s q => (serve s q).1) s) (qs.foldl (fun t q => (ideal t q).1) t) := by
  induction qs generalizing s t with
  | nil => exact h
  | cons q qs ih => exact ih (hstep s t q h hC.1) hC.2

theorem Along.imp {serve : σ → ρ → σ × ω} {C D : σ → ρ → Prop} {s : σ} {qs : List ρ}
    (h : Along serve C s qs) (himp : ∀ s, ∀ q ∈ qs, C s q → D s q) : Along serve D s qs := by
  induction qs generalizing s with
  | nil => trivial
  | cons q qs ih =>
      constructor
      · exact himp s q List.mem_cons_self h.1
      · exact ih h.2 fun s q hq => himp s q (List.mem_cons_of_mem _ hq)

theorem along_of_forall {serve : σ → ρ → σ × ω} {C : σ → ρ → Prop} {qs : List ρ}
    (h : ∀ s, ∀ q ∈ qs, C s q) (s : σ) : Along serve C s qs := by
  induction qs generalizing s with
  | nil => trivial
  | cons q qs ih =>
      constructor
      · exact h s q List.mem_cons_self
      · exact ih (fun s q hq => h s q (List.mem_cons_of_mem _ hq)) _

end Dimemas.Library.Simulation
