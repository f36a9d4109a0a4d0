import Dimemas.Library.StableQueue
import Mathlib.Data.List.Count
import Mathlib.Data.List.Induction
import Mathlib.Data.List.Nodup
/-!
# Tallies kept in priority queues

A tally is a queue of keys with a count each, in the order of the keys. What a tally holds
depends on how often each key was counted, not on the order in which the keys came.
-/

namespace Dimemas.Library.Tally

open Dimemas.Library.StableQueue

variable {κ : Type*} [LinearOrder κ] {k key : κ} {n : Nat} {q : List (κ × Nat)} {l l' : List κ}

def increment (q : List (κ × Nat)) (key : κ) : List (κ × Nat) :=
  match q.find? fun x => x.1 = key with
  | none => insertAfter Prod.fst (key, 1) q
  | some _ => q.map fun x => if x.1 = key then (x.1, x.2 + 1) else x

def enter (q : List κ) (key : κ) : List κ :=
  match q.find? fun x => x = key with
  | none => insertAfter id key q
  | some _ => q

def tally (l : List κ) : List (κ × Nat) := l.foldl increment []

def keys (l : List κ) : List κ := l.foldl enter []

@[simp] theorem tally_concat (l : List κ) (key : κ) :
    tally (l ++ [key]) = increment (tally l) key := by
  simp [tally]

@[simp] theorem keys_concat (l : List κ) (key : κ) : keys (l ++ [key]) = enter (keys l) key := by
  simp [keys]

theorem mem_enter {q : List κ} : k ∈ enter q key ↔ k = key ∨ k ∈ q := by
  unfold enter
  cases hfind : q.find? fun x => x = key with
  | none => exact mem_insertAfter
  | some x =>
      have hx : x = key := by simpa using List.find?_some hfind
      have hmem : key ∈ q := hx ▸ List.mem_of_find?_eq_some hfind
      constructor
      · exact Or.inr
      · rintro (rfl | hk)
        · exact hmem
        · exact hk

theorem mem_keys : k ∈ keys l ↔ k ∈ l := by
  induction l using List.reverseRecOn with
  | nil => simp [keys]
  | append_singleton l key ih =>
      rw [keys_concat, mem_enter, ih, List.mem_append, List.mem_singleton]
      exact or_comm

/-- A queue whose keys are different and in order. -/
def Ordered (q : List κ) : Prop := q.Pairwise (· ≤ ·) ∧ q.Nodup

theorem map_fst_insertAfter (x : κ × Nat) (q : List (κ × Nat)) :
    (insertAfter Prod.fst x q).map Prod.fst = insertAfter id x.1 (q.map Prod.fst) := by
  simp only [insertAfter, List.map_append, List.map_cons, List.takeWhile_map, List.dropWhile_map]
  rfl

theorem Ordered.insertAfter {q : List κ} (h : Ordered q) (hnew : key ∉ q) :
    Ordered (insertAfter id key q) := by
  constructor
  · have hsorted : q.Pairwise fun x y => id x ≤ id y := h.1
    exact sorted_insertAfter hsorted key
  · have hsplit := List.takeWhile_append_dropWhile (p := fun y => y ≤ key) (l := q)
    have hperm : (StableQueue.insertAfter id key q).Perm (key :: q) := by
      conv_rhs => rw [← hsplit]
      exact List.perm_middle
    apply hperm.nodup_iff.mpr
    exact List.nodup_cons.mpr ⟨hnew, h.2⟩

theorem ordered_enter {q : List κ} (h : Ordered q) (key : κ) : Ordered (enter q key) := by
  unfold enter
  cases hfind : q.find? fun x => x = key with
  | some x => exact h
  | none =>
      apply h.insertAfter
      intro hmem
      have hnone := List.find?_eq_none.mp hfind key hmem
      simp at hnone

theorem ordered_keys (l : List κ) : Ordered (keys l) := by
  induction l using List.reverseRecOn with
  | nil => exact ⟨.nil, .nil⟩
  | append_singleton l key ih =>
      rw [keys_concat]
      exact ordered_enter ih key

theorem Ordered.eq_of_mem_iff {q q' : List κ} (h : Ordered q) (h' : Ordered q')
    (hmem : ∀ k, k ∈ q ↔ k ∈ q') : q = q' := by
  have hperm := (List.perm_ext_iff_of_nodup h.2 h'.2).mpr hmem
  exact hperm.eq_of_pairwise (fun _ _ _ _ => le_antisymm) h.1 h'.1

theorem keys_perm (h : l.Perm l') : keys l = keys l' := by
  apply (ordered_keys l).eq_of_mem_iff (ordered_keys l')
  intro k
  rw [mem_keys, mem_keys]
  exact h.mem_iff

theorem map_fst_increment (q : List (κ × Nat)) (key : κ) :
    (increment q key).map Prod.fst = enter (q.map Prod.fst) key := by
  unfold increment enter
  have hfind : (q.map Prod.fst).find? (fun x => x = key) =
      (q.find? fun x => x.1 = key).map Prod.fst := List.find?_map ..
  rw [hfind]
  cases q.find? fun x => x.1 = key with
  | none => exact map_fst_insertAfter (key, 1) q
  | some x =>
      simp only [Option.map_some, List.map_map]
      apply List.map_congr_left
      intro y _
      simp only [Function.comp_apply]
      split <;> rfl

theorem map_fst_tally (l : List κ) : (tally l).map Prod.fst = keys l := by
  induction l using List.reverseRecOn with
  | nil => rfl
  | append_singleton l key ih => rw [tally_concat, map_fst_increment, ih, keys_concat]

theorem mem_increment_of_mem (hfind : key ∈ q.map Prod.fst) :
    (k, n) ∈ increment q key ↔
      if k = key then ∃ m, (k, m) ∈ q ∧ n = m + 1 else (k, n) ∈ q := by
  obtain ⟨x, hx⟩ : ∃ x, q.find? (fun x => x.1 = key) = some x := by
    obtain ⟨x, hx, rfl⟩ := List.mem_map.mp hfind
    exact Option.isSome_iff_exists.mp (List.find?_isSome.mpr ⟨x, hx, by simp⟩)
  simp only [increment, hx, List.mem_map]
  constructor
  · rintro ⟨⟨k', m⟩, hmem, heq⟩
    split at heq
    · next hkey =>
        obtain ⟨rfl, rfl⟩ := Prod.mk.inj heq
        rw [if_pos hkey]
        exact ⟨m, hmem, rfl⟩
    · next hkey =>
        obtain ⟨rfl, rfl⟩ := Prod.mk.inj heq
        rwa [if_neg hkey]
  · intro h
    split at h
    · next hkey =>
        obtain ⟨m, hmem, rfl⟩ := h
        exact ⟨(k, m), hmem, by simp [hkey]⟩
    · next hkey => exact ⟨(k, n), h, by simp [hkey]⟩

theorem mem_increment_of_not_mem (hfind : key ∉ q.map Prod.fst) :
    (k, n) ∈ increment q key ↔ k = key ∧ n = 1 ∨ (k, n) ∈ q := by
  have hnone : q.find? (fun x => x.1 = key) = none := by
    apply List.find?_eq_none.mpr
    intro x hx heq
    exact hfind (List.mem_map.mpr ⟨x, hx, by simpa using heq⟩)
  simp only [increment, hnone, mem_insertAfter, Prod.mk.injEq]

/-- The entry of a key in a tally says how often the key was counted. -/
theorem mem_tally : (k, n) ∈ tally l ↔ 0 < n ∧ n = l.count k := by
  induction l using List.reverseRecOn generalizing n with
  | nil =>
      simp only [tally, List.foldl_nil, List.not_mem_nil, List.count_nil, false_iff]
      omega
  | append_singleton l key ih =>
      have hcount : (l ++ [key]).count k = l.count k + if k = key then 1 else 0 := by
        rw [List.count_append, List.count_singleton]
        congr 1
        by_cases h : k = key
        · simp [h]
        · simp [h, Ne.symm h]
      rw [tally_concat, hcount]
      by_cases hmem : key ∈ l
      · have hkey : key ∈ (tally l).map Prod.fst := by rwa [map_fst_tally, mem_keys]
        rw [mem_increment_of_mem hkey]
        split
        · next heq =>
            subst heq
            have hpos := List.count_pos_iff.mpr hmem
            constructor
            · rintro ⟨m, hm, rfl⟩
              have := ih.mp hm
              omega
            · rintro ⟨-, rfl⟩
              exact ⟨l.count k, ih.mpr ⟨hpos, rfl⟩, rfl⟩
        · rw [ih, Nat.add_zero]
      · have hkey : key ∉ (tally l).map Prod.fst := by rwa [map_fst_tally, mem_keys]
        rw [mem_increment_of_not_mem hkey, ih]
        have hzero := List.count_eq_zero.mpr hmem
        by_cases heq : k = key
        · subst heq
          rw [hzero]
          simp
          omega
        · simp [heq]

theorem tally_perm (h : l.Perm l') : tally l = tally l' := by
  have hnodup : ∀ l : List κ, (tally l).Nodup := fun l =>
    List.Nodup.of_map Prod.fst (map_fst_tally l ▸ (ordered_keys l).2)
  have hsorted : ∀ l : List κ, (tally l).Pairwise fun x y => x.1 ≤ y.1 := fun l =>
    List.pairwise_map.mp (map_fst_tally l ▸ (ordered_keys l).1)
  have hperm : (tally l).Perm (tally l') := by
    apply (List.perm_ext_iff_of_nodup (hnodup l) (hnodup l')).mpr
    rintro ⟨k, n⟩
    rw [mem_tally, mem_tally, h.count_eq]
  apply hperm.eq_of_pairwise _ (hsorted l) (hsorted l')
  rintro ⟨k, n⟩ ⟨k', n'⟩ hx hy hle hge
  obtain rfl : k = k' := le_antisymm hle hge
  rw [mem_tally] at hx hy
  rw [hx.2, hy.2, h.count_eq]

end Dimemas.Library.Tally
