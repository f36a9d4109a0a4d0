import Mathlib.Algebra.BigOperators.Group.List.Basic
/-!
# Runs of labelled transition systems

A labelled step relation, its finite runs with every transition they took, and
the induction rules the development uses: an invariant of the visited states,
an invariant under a guard on the steps, the rule that turns an exact
one-step condition into an exact condition on whole runs, and the conservation
of a stock that every step takes from and adds to.
-/

namespace Dimemas.Library.Transitions

variable {σ ℓ : Type*}

/-- One transition of a run: the state before, the label and the state after. -/
structure Transition (σ : Type*) (ℓ : Type*) where
  pre : σ
  label : ℓ
  post : σ

/-- `Run step s₀ tr s` holds when `tr` lists, oldest first, the transitions that
lead from `s₀` to `s`. -/
inductive Run (step : σ → ℓ → σ → Prop) (s₀ : σ) : List (Transition σ ℓ) → σ → Prop
  | nil : Run step s₀ [] s₀
  | snoc {tr : List (Transition σ ℓ)} {s : σ} {l : ℓ} {s' : σ} :
      Run step s₀ tr s → step s l s' → Run step s₀ (tr ++ [⟨s, l, s'⟩]) s'

variable {step : σ → ℓ → σ → Prop} {s₀ s : σ} {tr : List (Transition σ ℓ)}

/-- The deterministic reading of a partial step function. -/
def ofPartial (next : σ → ℓ → Option σ) (s : σ) (l : ℓ) (s' : σ) : Prop :=
  next s l = some s'

theorem Run.invariant_of_guard {I : σ → Prop} {C : σ → ℓ → Prop}
    (hrun : Run step s₀ tr s) (hinit : I s₀)
    (hstep : ∀ s l s', I s → C s l → step s l s' → I s')
    (hguard : ∀ t ∈ tr, C t.pre t.label) : I s := by
  induction hrun with
  | nil => exact hinit
  | @snoc tr s l s' _ hlast ih =>
      have hpre := ih fun t ht => hguard t (by simp [ht])
      exact hstep s l s' hpre (hguard ⟨s, l, s'⟩ (by simp)) hlast

theorem Run.invariant {I : σ → Prop} (hrun : Run step s₀ tr s) (hinit : I s₀)
    (hstep : ∀ s l s', I s → step s l s' → I s') : I s :=
  hrun.invariant_of_guard (C := fun _ _ => True) hinit
    (fun s l s' hI _ h => hstep s l s' hI h) (fun _ _ => trivial)

theorem Run.transition_of_guard {I : σ → Prop} {C : σ → ℓ → Prop}
    (hrun : Run step s₀ tr s) (hinit : I s₀)
    (hstep : ∀ s l s', I s → C s l → step s l s' → I s')
    (hguard : ∀ t ∈ tr, C t.pre t.label) :
    ∀ t ∈ tr, I t.pre ∧ I t.post ∧ step t.pre t.label t.post := by
  induction hrun with
  | nil => simp
  | @snoc tr s l s' hprefix hlast ih =>
      have hold : ∀ t ∈ tr, C t.pre t.label := fun t ht => hguard t (by simp [ht])
      intro t ht
      rcases List.mem_append.mp ht with hin | hnew
      · exact ih hold t hin
      · obtain rfl := List.mem_singleton.mp hnew
        have hpre := hprefix.invariant_of_guard hinit hstep hold
        exact ⟨hpre, hstep s l s' hpre (hguard ⟨s, l, s'⟩ (by simp)) hlast, hlast⟩

theorem Run.transition_invariant {I : σ → Prop} (hrun : Run step s₀ tr s)
    (hinit : I s₀) (hstep : ∀ s l s', I s → step s l s' → I s') :
    ∀ t ∈ tr, I t.pre ∧ I t.post ∧ step t.pre t.label t.post :=
  hrun.transition_of_guard (C := fun _ _ => True) hinit
    (fun s l s' hI _ h => hstep s l s' hI h) (fun _ _ => trivial)

/-- A run whose steps are stuttering steps or steps of another system, behind a map of the states,
is a run of that system. -/
theorem Run.simulated {τ κ : Type*} {step' : τ → κ → τ → Prop} {f : σ → τ} {I : σ → Prop}
    (hrun : Run step s₀ tr s) (hinit : I s₀) (hinv : ∀ s l s', I s → step s l s' → I s')
    (hsim : ∀ s l s', I s → step s l s' → f s' = f s ∨ ∃ k, step' (f s) k (f s')) :
    ∃ tr', Run step' (f s₀) tr' (f s) := by
  induction hrun with
  | nil => exact ⟨[], .nil⟩
  | @snoc tr s l s' hprefix hlast ih =>
      obtain ⟨tr', hrun'⟩ := ih
      have hI := hprefix.invariant hinit hinv
      rcases hsim s l s' hI hlast with hstutter | ⟨k, hstep⟩
      · rw [hstutter]
        exact ⟨tr', hrun'⟩
      · exact ⟨_, hrun'.snoc hstep⟩

/-- If `C` says of every single step from a good state exactly whether the next
state is good, it says of every run exactly whether all its states are good. -/
theorem Run.forall_post_iff {I P : σ → Prop} {C : σ → ℓ → Prop}
    (hrun : Run step s₀ tr s) (hinit : I s₀) (hgood : P s₀)
    (hinv : ∀ s l s', I s → step s l s' → I s')
    (hstep : ∀ s l s', I s → P s → step s l s' → (P s' ↔ C s l)) :
    (∀ t ∈ tr, P t.post) ↔ ∀ t ∈ tr, C t.pre t.label := by
  have key : ((∀ t ∈ tr, P t.post) ↔ ∀ t ∈ tr, C t.pre t.label) ∧
      ((∀ t ∈ tr, P t.post) → P s) := by
    induction hrun with
    | nil => simpa using hgood
    | @snoc tr s l s' hprefix hlast ih =>
        obtain ⟨hiff, hend⟩ := ih
        have hI := hprefix.invariant hinit hinv
        simp only [List.forall_mem_append, List.forall_mem_singleton]
        refine ⟨⟨?_, ?_⟩, And.right⟩
        · rintro ⟨hposts, hpost⟩
          exact ⟨hiff.mp hposts, (hstep _ _ _ hI (hend hposts) hlast).mp hpost⟩
        · rintro ⟨hconds, hcond⟩
          have hposts := hiff.mpr hconds
          exact ⟨hposts, (hstep _ _ _ hI (hend hposts) hlast).mpr hcond⟩
  exact key.1

/-- If `Q` is kept by the steps that meet `C`, and `P` holds where it does but not after a step
that fails `C`, then all states of a run satisfy `P` exactly when all its steps meet `C`. -/
theorem Run.forall_post_iff_of_guard {P Q : σ → Prop} {C : σ → ℓ → Prop}
    (hrun : Run step s₀ tr s) (hinit : Q s₀) (hgood : ∀ s, Q s → P s)
    (hkeep : ∀ s l s', Q s → C s l → step s l s' → Q s')
    (hbreak : ∀ s l s', Q s → step s l s' → P s' → C s l) :
    (∀ t ∈ tr, P t.post) ↔ ∀ t ∈ tr, C t.pre t.label := by
  constructor
  · intro hposts
    induction hrun with
    | nil => simp
    | @snoc tr s l s' hprefix hlast ih =>
        rw [List.forall_mem_append, List.forall_mem_singleton] at hposts ⊢
        have hconds := ih hposts.1
        have hpre := hprefix.invariant_of_guard hinit hkeep hconds
        exact ⟨hconds, hbreak s l s' hpre hlast hposts.2⟩
  · intro hconds t ht
    exact hgood _ (hrun.transition_of_guard hinit hkeep hconds t ht).2.1

theorem Run.sum_takes_add_stock {M : Type*} [AddCommMonoid M] {I : σ → Prop} (stock : σ → M)
    (takes adds : Transition σ ℓ → M) (hrun : Run step s₀ tr s) (hinit : I s₀)
    (hinv : ∀ s l s', I s → step s l s' → I s')
    (hstep : ∀ s l s', I s → step s l s' →
      takes ⟨s, l, s'⟩ + stock s' = stock s + adds ⟨s, l, s'⟩) :
    (tr.map takes).sum + stock s = stock s₀ + (tr.map adds).sum := by
  induction hrun with
  | nil => simp
  | @snoc tr s l s' hprefix hlast ih =>
      have hI := hprefix.invariant hinit hinv
      simp only [List.map_append, List.map_cons, List.map_nil, List.sum_append, List.sum_cons,
        List.sum_nil, add_zero]
      calc (tr.map takes).sum + takes ⟨s, l, s'⟩ + stock s'
          = (tr.map takes).sum + (takes ⟨s, l, s'⟩ + stock s') := add_assoc ..
        _ = (tr.map takes).sum + (stock s + adds ⟨s, l, s'⟩) := by rw [hstep s l s' hI hlast]
        _ = (tr.map takes).sum + stock s + adds ⟨s, l, s'⟩ := (add_assoc ..).symm
        _ = stock s₀ + (tr.map adds).sum + adds ⟨s, l, s'⟩ := by rw [ih]
        _ = stock s₀ + ((tr.map adds).sum + adds ⟨s, l, s'⟩) := add_assoc ..

theorem Run.append {s₁ s₂ : σ} {tr₁ tr₂ : List (Transition σ ℓ)}
    (h₁ : Run step s₀ tr₁ s₁) (h₂ : Run step s₁ tr₂ s₂) :
    Run step s₀ (tr₁ ++ tr₂) s₂ := by
  induction h₂ with
  | nil => simpa using h₁
  | snoc _ hlast ih =>
      rw [← List.append_assoc]
      exact ih.snoc hlast

/-- The run of a partial step function over a list of labels. -/
def exec (next : σ → ℓ → Option σ) (s : σ) : List ℓ → Option (List (Transition σ ℓ) × σ)
  | [] => some ([], s)
  | l :: ls =>
      (next s l).bind fun s' =>
        (exec next s' ls).map fun (tr, last) => (⟨s, l, s'⟩ :: tr, last)

theorem run_of_exec {next : σ → ℓ → Option σ} {ls : List ℓ} {s last : σ}
    {tr : List (Transition σ ℓ)} (h : exec next s ls = some (tr, last)) :
    Run (ofPartial next) s tr last := by
  induction ls generalizing s tr with
  | nil =>
      simp only [exec, Option.some.injEq, Prod.mk.injEq] at h
      obtain ⟨rfl, rfl⟩ := h
      exact .nil
  | cons l ls ih =>
      simp only [exec, Option.bind_eq_some_iff, Option.map_eq_some_iff] at h
      obtain ⟨s', hs', ⟨tr', last'⟩, htail, hout⟩ := h
      obtain ⟨rfl, rfl⟩ := Prod.mk.injEq .. ▸ hout
      exact Run.append (Run.snoc .nil hs') (ih htail)

theorem map_label_exec {next : σ → ℓ → Option σ} {ls : List ℓ} {s last : σ}
    {tr : List (Transition σ ℓ)} (h : exec next s ls = some (tr, last)) :
    tr.map Transition.label = ls := by
  induction ls generalizing s tr with
  | nil =>
      simp only [exec, Option.some.injEq, Prod.mk.injEq] at h
      obtain ⟨rfl, -⟩ := h
      rfl
  | cons l ls ih =>
      simp only [exec, Option.bind_eq_some_iff, Option.map_eq_some_iff] at h
      obtain ⟨s', -, ⟨tr', last'⟩, htail, hout⟩ := h
      obtain ⟨rfl, rfl⟩ := Prod.mk.injEq .. ▸ hout
      rw [List.map_cons, ih htail]

/-- Each step over a list of labels meets the condition, as long as the steps go on. -/
def Guarded (next : σ → ℓ → Option σ) (C : σ → ℓ → Prop) (s : σ) : List ℓ → Prop
  | [] => True
  | l :: ls => C s l ∧ ∀ s', next s l = some s' → Guarded next C s' ls

/-- If a step from a good state goes on exactly when it meets the condition, and has the property
then, a list of labels is executed with the property at each step exactly when all its steps meet
the condition. -/
theorem exec_iff_guarded {next : σ → ℓ → Option σ} {C : σ → ℓ → Prop} {I : σ → Prop}
    {P : Transition σ ℓ → Prop}
    (hkeep : ∀ s l, I s → C s l → ∃ s', next s l = some s' ∧ I s' ∧ P ⟨s, l, s'⟩)
    (hfail : ∀ s l, I s → ¬ C s l → next s l = none) {ls : List ℓ} {s : σ} (hinit : I s) :
    (∃ tr last, exec next s ls = some (tr, last) ∧ ∀ t ∈ tr, P t) ↔ Guarded next C s ls := by
  induction ls generalizing s with
  | nil => simp [exec, Guarded]
  | cons l ls ih =>
      rw [exec, Guarded]
      by_cases hC : C s l
      · obtain ⟨s', hnext, hI, hP⟩ := hkeep s l hinit hC
        simp only [hnext, Option.bind_some, Option.some.injEq, forall_eq', hC, true_and,
          ← ih hI]
        constructor
        · rintro ⟨tr, last, hexec, hall⟩
          obtain ⟨⟨tr', last'⟩, htail, hout⟩ := Option.map_eq_some_iff.mp hexec
          obtain ⟨rfl, rfl⟩ := Prod.mk.inj hout
          exact ⟨tr', last', htail, fun t ht => hall t (List.mem_cons_of_mem _ ht)⟩
        · rintro ⟨tr, last, hexec, hall⟩
          refine ⟨⟨s, l, s'⟩ :: tr, last, by rw [hexec]; rfl, ?_⟩
          intro t ht
          rcases List.mem_cons.mp ht with rfl | ht
          · exact hP
          · exact hall t ht
      · simp [hfail s l hinit hC, hC]

theorem run_exec_get {next : σ → ℓ → Option σ} {ls : List ℓ} {s : σ}
    (h : (exec next s ls).isSome) :
    Run (ofPartial next) s ((exec next s ls).get h).1 ((exec next s ls).get h).2 :=
  run_of_exec (Option.some_get h).symm

theorem label_mem_of_exec_get {next : σ → ℓ → Option σ} {ls : List ℓ} {s : σ}
    {h : (exec next s ls).isSome} {t : Transition σ ℓ} (ht : t ∈ ((exec next s ls).get h).1) :
    t.label ∈ ls := by
  have hlabels := map_label_exec (Option.some_get h).symm
  rw [← hlabels]
  exact List.mem_map_of_mem ht

end Dimemas.Library.Transitions
