import Mathlib.Data.List.Basic
import Mathlib.Data.List.Perm.Basic
import Mathlib.Logic.Function.Basic
/-!
# Draining queues

Loops that empty the queues of a record. A queue is drained into another one element by element. The
loop does not end when a queue that is not empty is drained into itself.
-/

namespace Dimemas.Library.Draining

variable {Q E A B : Type*} [DecidableEq Q]

/-- Moves the first element of a queue behind the last one of another until there is none. -/
def drain (src dst : Q) : Nat → (Q → List E) → Option (Q → List E)
  | 0, _ => none
  | fuel + 1, queues =>
      match queues src with
      | [] => some queues
      | e :: rest =>
          let queues := Function.update queues src rest
          drain src dst fuel (Function.update queues dst (queues dst ++ [e]))

/-- Empties some queues with an operation that may fail on their elements. -/
def clear (remove : List E → Option (List E)) (names : List Q) (queues : Q → List E) :
    Option ((Q → List E) × List E) :=
  match names with
  | [] => some (queues, [])
  | name :: names =>
      (remove (queues name)).bind fun removed =>
        (clear remove names (Function.update queues name [])).map fun cleared =>
          (cleared.1, removed ++ cleared.2)

/-- A loop over records that also collects elements. -/
def forEach (f : A → Option (B × List E)) : List A → Option (List B × List E)
  | [] => some ([], [])
  | a :: as => do
      let (b, removed) ← f a
      let (bs, others) ← forEach f as
      pure (b :: bs, removed ++ others)

section

variable {src dst : Q} {queues queues' : Q → List E}

theorem drain_nil {fuel : Nat} (h : queues src = []) :
    drain src dst (fuel + 1) queues = some queues := by
  rw [drain]
  simp only [h]

theorem drain_cons {fuel : Nat} {e : E} {rest : List E} (h : queues src = e :: rest) :
    drain src dst (fuel + 1) queues =
      drain src dst fuel (Function.update (Function.update queues src rest) dst
        (Function.update queues src rest dst ++ [e])) := by
  rw [drain]
  simp only [h]

theorem drain_of_ne (hne : src ≠ dst) {fuel : Nat} (h : (queues src).length < fuel) :
    drain src dst fuel queues =
      some (Function.update (Function.update queues src []) dst (queues dst ++ queues src)) := by
  induction fuel generalizing queues with
  | zero => exact absurd h (Nat.not_lt_zero _)
  | succ fuel ih =>
      cases hsrc : queues src with
      | nil =>
          rw [drain_nil hsrc, List.append_nil]
          congr 1
          ext q
          by_cases hdst : q = dst
          · rw [hdst, Function.update_self]
          · rw [Function.update_of_ne hdst]
            by_cases hq : q = src
            · rw [hq, Function.update_self, hsrc]
            · rw [Function.update_of_ne hq]
      | cons e rest =>
          have hnew : Function.update (Function.update queues src rest) dst
              (Function.update queues src rest dst ++ [e]) src = rest := by
            rw [Function.update_of_ne hne, Function.update_self]
          rw [hsrc, List.length_cons] at h
          rw [drain_cons hsrc, ih (by rw [hnew]; omega), hnew, Function.update_self,
            Function.update_of_ne hne.symm]
          congr 1
          ext q
          by_cases hdst : q = dst
          · rw [hdst, Function.update_self, Function.update_self, List.append_assoc,
              List.singleton_append]
          · rw [Function.update_of_ne hdst, Function.update_of_ne hdst]
            by_cases hq : q = src
            · rw [hq, Function.update_self, Function.update_self]
            · rw [Function.update_of_ne hq, Function.update_of_ne hq, Function.update_of_ne hdst,
                Function.update_of_ne hq]

/-- A queue that is drained into itself goes round for ever. -/
theorem drain_self (h : queues src ≠ []) (fuel : Nat) : drain src src fuel queues = none := by
  induction fuel generalizing queues with
  | zero => rfl
  | succ fuel ih =>
      obtain ⟨e, rest, hsrc⟩ := List.exists_cons_of_ne_nil h
      rw [drain_cons hsrc]
      apply ih
      rw [Function.update_self]
      exact List.append_ne_nil_of_right_ne_nil _ (List.cons_ne_nil e [])

theorem drain_perm {fuel : Nat} (h : drain src dst fuel queues = some queues') (hne : src ≠ dst) :
    (queues' dst ++ queues' src).Perm (queues dst ++ queues src) ∧
      ∀ q, q ≠ src → q ≠ dst → queues' q = queues q := by
  induction fuel generalizing queues with
  | zero => cases h
  | succ fuel ih =>
      cases hsrc : queues src with
      | nil =>
          rw [drain_nil hsrc, Option.some.injEq] at h
          rw [← h, hsrc]
          exact ⟨List.Perm.refl _, fun _ _ _ => rfl⟩
      | cons e rest =>
          rw [drain_cons hsrc] at h
          obtain ⟨hperm, hother⟩ := ih h
          rw [Function.update_self, Function.update_of_ne hne.symm, Function.update_of_ne hne,
            Function.update_self, List.append_assoc] at hperm
          refine ⟨hperm, ?_⟩
          intro q hqsrc hqdst
          rw [hother q hqsrc hqdst, Function.update_of_ne hqdst, Function.update_of_ne hqsrc]

/-- A loop that ended had a step for each element and one more. -/
theorem drain_fuel {fuel : Nat} (h : drain src dst fuel queues = some queues') (hne : src ≠ dst) :
    (queues src).length < fuel := by
  induction fuel generalizing queues with
  | zero => cases h
  | succ fuel ih =>
      cases hsrc : queues src with
      | nil => exact Nat.succ_pos fuel
      | cons e rest =>
          rw [drain_cons hsrc] at h
          have hlt := ih h
          rw [Function.update_of_ne hne, Function.update_self] at hlt
          exact Nat.succ_lt_succ hlt

end

section

variable {remove : List E → Option (List E)} {removed : List E → List E} {ok : List E → Prop}

/-- What `clear` does with an operation that fails exactly on the queues that are not `ok`. -/
theorem clear_eq_some (hremove : ∀ q, ok q → remove q = some (removed q)) (hnil : ok [])
    (hremoved : removed [] = []) (names : List Q) (queues : Q → List E)
    (hok : ∀ name ∈ names, ok (queues name)) :
    ∃ others, clear remove names queues =
        some (fun q => if q ∈ names then [] else queues q, others) ∧
      ∀ e, e ∈ others ↔ ∃ name ∈ names, e ∈ removed (queues name) := by
  induction names generalizing queues with
  | nil => exact ⟨[], by simp [clear], by simp⟩
  | cons name names ih =>
      have hrest : ∀ other ∈ names, ok (Function.update queues name [] other) := by
        intro other hother
        by_cases heq : other = name
        · rw [heq, Function.update_self]
          exact hnil
        · rw [Function.update_of_ne heq]
          exact hok other (List.mem_cons_of_mem _ hother)
      obtain ⟨others, hclear, hmem⟩ := ih (Function.update queues name []) hrest
      refine ⟨removed (queues name) ++ others, ?_, ?_⟩
      · rw [clear, hremove _ (hok name List.mem_cons_self), hclear]
        simp only [Option.bind_some, Option.map_some, Option.some.injEq, Prod.mk.injEq, and_true]
        ext1 q
        by_cases heq : q = name
        · rw [heq, Function.update_self, ite_self, if_pos List.mem_cons_self]
        · simp only [List.mem_cons, heq, false_or, Function.update_of_ne heq]
      · intro e
        rw [List.mem_append, hmem]
        constructor
        · rintro (hfirst | ⟨other, hother, he⟩)
          · exact ⟨name, List.mem_cons_self, hfirst⟩
          · by_cases heq : other = name
            · rw [heq, Function.update_self, hremoved] at he
              exact absurd he List.not_mem_nil
            · rw [Function.update_of_ne heq] at he
              exact ⟨other, List.mem_cons_of_mem _ hother, he⟩
        · rintro ⟨other, hother, he⟩
          by_cases heq : other = name
          · rw [heq] at he
            exact .inl he
          · right
            refine ⟨other, (List.mem_cons.mp hother).resolve_left heq, ?_⟩
            rw [Function.update_of_ne heq]
            exact he

theorem clear_isSome (hremove : ∀ q, (remove q).isSome → ok q) (names : List Q)
    (queues : Q → List E) (h : (clear remove names queues).isSome) (hnodup : names.Nodup) :
    ∀ name ∈ names, ok (queues name) := by
  induction names generalizing queues with
  | nil => simp
  | cons name names ih =>
      rw [List.nodup_cons] at hnodup
      rw [clear] at h
      cases hfirst : remove (queues name) with
      | none =>
          rw [hfirst] at h
          cases h
      | some removed =>
          have hrest : (clear remove names (Function.update queues name [])).isSome := by
            by_contra hnone
            rw [Option.not_isSome_iff_eq_none] at hnone
            rw [hfirst, hnone] at h
            cases h
          intro other hother
          rcases List.mem_cons.mp hother with heq | hmem
          · rw [heq]
            exact hremove _ (by rw [hfirst]; rfl)
          · have hne : other ≠ name := fun heq => hnodup.1 (heq ▸ hmem)
            have hother := ih _ hrest hnodup.2 other hmem
            rwa [Function.update_of_ne hne] at hother

end

section

variable {I : Type*} {f : A → Option (B × List E)} {g : A → B} {ok : A → Prop} {pick : I → E}
variable {gone : A → I → Prop}

/-- What a loop does whose body fails exactly on the records that are not `ok`. -/
theorem forEach_eq_some
    (hf : ∀ a, ok a → ∃ removed, f a = some (g a, removed) ∧ ∀ i, pick i ∈ removed ↔ gone a i)
    (as : List A) (hok : ∀ a ∈ as, ok a) :
    ∃ removed, forEach f as = some (as.map g, removed) ∧
      ∀ i, pick i ∈ removed ↔ ∃ a ∈ as, gone a i := by
  induction as with
  | nil => exact ⟨[], rfl, by simp⟩
  | cons a as ih =>
      obtain ⟨removed, hfirst, hgone⟩ := hf a (hok a List.mem_cons_self)
      obtain ⟨others, hrest, hothers⟩ := ih fun a' ha' => hok a' (List.mem_cons_of_mem a ha')
      refine ⟨removed ++ others, ?_, ?_⟩
      · rw [forEach, hfirst]
        simp only [Option.bind_eq_bind, Option.bind_some, hrest, Option.pure_def, List.map_cons]
      · intro i
        rw [List.mem_append, hgone, hothers, List.exists_mem_cons_iff]

theorem forEach_isSome (hf : ∀ a, (f a).isSome → ok a) (as : List A)
    (h : (forEach f as).isSome) : ∀ a ∈ as, ok a := by
  induction as with
  | nil => simp
  | cons a as ih =>
      rw [forEach] at h
      cases hfirst : f a with
      | none =>
          rw [hfirst] at h
          cases h
      | some b =>
          have hrest : (forEach f as).isSome := by
            by_contra hnone
            rw [Option.not_isSome_iff_eq_none] at hnone
            rw [hfirst] at h
            simp only [Option.bind_eq_bind, Option.bind_some, hnone, Option.bind_none] at h
            cases h
          intro a' ha'
          rcases List.mem_cons.mp ha' with heq | hmem
          · rw [heq]
            exact hf a (by rw [hfirst]; rfl)
          · exact ih hrest a' hmem

end

end Dimemas.Library.Draining
