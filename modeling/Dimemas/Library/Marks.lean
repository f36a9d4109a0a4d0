import Mathlib.Data.List.Count
/-!
# Opening and closing marks

A sequence of marks that open and close things of many sorts. Things of one sort are not told apart:
a closing mark needs one of its sort that is open.
-/

namespace Dimemas.Library.Marks

variable {τ : Type*} [DecidableEq τ]

inductive Mark (τ : Type*)
  | opened (t : τ)
  | closed (t : τ)
deriving DecidableEq

def opens (t : τ) (w : List (Mark τ)) : Nat := w.count (.opened t)

def closes (t : τ) (w : List (Mark τ)) : Nat := w.count (.closed t)

/-- Each closing mark comes after more opening than closing marks of its sort. -/
def Preceded (w : List (Mark τ)) : Prop :=
  ∀ before t after, w = before ++ .closed t :: after → closes t before < opens t before

/-- Nothing stays open. -/
structure Balanced (w : List (Mark τ)) : Prop where
  preceded : Preceded w
  closed : ∀ t, opens t w = closes t w

/-- As many things of each sort are open as a function says. -/
structure Leaves (w : List (Mark τ)) (c : τ → Nat) : Prop where
  preceded : Preceded w
  count : ∀ t, opens t w = closes t w + c t

theorem opens_opened (t u : τ) (w : List (Mark τ)) :
    opens u (w ++ [.opened t]) = opens u w + if u = t then 1 else 0 := by
  unfold opens
  rw [List.count_append, List.count_singleton]
  by_cases h : u = t
  · simp [h]
  · simp [h, Ne.symm h]

theorem opens_closed (t u : τ) (w : List (Mark τ)) :
    opens u (w ++ [.closed t]) = opens u w := by
  simp [opens]

theorem closes_closed (t u : τ) (w : List (Mark τ)) :
    closes u (w ++ [.closed t]) = closes u w + if u = t then 1 else 0 := by
  unfold closes
  rw [List.count_append, List.count_singleton]
  by_cases h : u = t
  · simp [h]
  · simp [h, Ne.symm h]

theorem closes_opened (t u : τ) (w : List (Mark τ)) :
    closes u (w ++ [.opened t]) = closes u w := by
  simp [closes]

theorem Preceded.of_append {w v : List (Mark τ)} (h : Preceded (w ++ v)) : Preceded w := by
  intro before t after hw
  apply h before t (after ++ v)
  rw [hw, List.append_assoc]
  rfl

omit [DecidableEq τ] in
theorem closed_of_concat {w before after : List (Mark τ)} {m : Mark τ} {t : τ}
    (h : w ++ [m] = before ++ .closed t :: after) :
    (w = before ∧ m = .closed t) ∨ ∃ rest, w = before ++ .closed t :: rest := by
  rcases List.eq_nil_or_concat after with hnil | ⟨rest, last, hrest⟩
  · left
    rw [hnil] at h
    obtain ⟨hw, hm⟩ := List.append_inj' h rfl
    exact ⟨hw, (List.cons.inj hm).1⟩
  · right
    rw [hrest, List.concat_eq_append, ← List.cons_append, ← List.append_assoc] at h
    exact ⟨rest, (List.append_inj' h rfl).1⟩

theorem Preceded.opened {w : List (Mark τ)} (h : Preceded w) (t : τ) :
    Preceded (w ++ [.opened t]) := by
  intro before u after hw
  rcases closed_of_concat hw with ⟨-, hmark⟩ | ⟨rest, hrest⟩
  · exact absurd hmark (by simp)
  · exact h before u rest hrest

theorem Preceded.closed {w : List (Mark τ)} (h : Preceded w) {t : τ}
    (ht : closes t w < opens t w) : Preceded (w ++ [.closed t]) := by
  intro before u after hw
  rcases closed_of_concat hw with ⟨hbefore, hmark⟩ | ⟨rest, hrest⟩
  · rw [← hbefore, ← Mark.closed.inj hmark]
    exact ht
  · exact h before u rest hrest

theorem Leaves.nil : Leaves ([] : List (Mark τ)) fun _ => 0 := by
  constructor
  · intro before t after h
    exact absurd h.symm (by simp)
  · intro t
    rfl

theorem Leaves.opened {w : List (Mark τ)} {c c' : τ → Nat} (h : Leaves w c) {t : τ}
    (hc : ∀ u, c' u = c u + if u = t then 1 else 0) : Leaves (w ++ [.opened t]) c' := by
  constructor
  · exact h.preceded.opened t
  · intro u
    rw [opens_opened, closes_opened, h.count u, hc u]
    omega

theorem Leaves.closed {w : List (Mark τ)} {c c' : τ → Nat} (h : Leaves w c) {t : τ}
    (hc : ∀ u, c u = c' u + if u = t then 1 else 0) : Leaves (w ++ [.closed t]) c' := by
  constructor
  · apply h.preceded.closed
    have ht := h.count t
    have hone := hc t
    rw [if_pos rfl] at hone
    omega
  · intro u
    rw [opens_closed, closes_closed, h.count u, hc u]
    omega

/-- What is opened and closed at once changes nothing. -/
theorem Leaves.pair {w : List (Mark τ)} {c : τ → Nat} (h : Leaves w c) (t : τ) :
    Leaves (w ++ [.opened t, .closed t]) c := by
  have hopen : Leaves (w ++ [.opened t]) fun u => c u + if u = t then 1 else 0 :=
    h.opened fun _ => rfl
  have hclose : Leaves (w ++ [.opened t] ++ [.closed t]) c := hopen.closed fun _ => rfl
  rw [List.append_assoc] at hclose
  exact hclose

theorem Leaves.balanced {w : List (Mark τ)} {c : τ → Nat} (h : Leaves w c) (hc : ∀ t, c t = 0) :
    Balanced w := by
  constructor
  · exact h.preceded
  · intro t
    rw [h.count t, hc t, Nat.add_zero]

end Dimemas.Library.Marks
