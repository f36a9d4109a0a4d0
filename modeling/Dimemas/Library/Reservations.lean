import Mathlib.Data.Finset.Card
import Mathlib.Data.List.Perm.Basic
/-!
# Reservations from pools of items

Items of several places are free or busy, and slots refer to the busy ones. A slot
owns its item, is empty, or is stale: it still refers to an item that was put back.
The operations are those of a resource manager, and each keeps the ledger
consistent: no item is owned twice, so that the owners of a place are not more than
its items.
-/

namespace Dimemas.Library.Reservations

structure Ledger (P L K : Type*) where
  free : P → List L
  busy : P → List L
  slot : K → Option L

/-- What a slot may be relied on for. -/
inductive Hold
  | empty | owned | stale
deriving DecidableEq, Repr

namespace Ledger

variable {P L K : Type*} [DecidableEq P] [DecidableEq L] [DecidableEq K]

/-- Takes the first free item of the place into the slot. -/
def acquire (g : Ledger P L K) (p : P) (k : K) : Option (Ledger P L K) :=
  match g.free p with
  | [] => none
  | l :: rest => some {
      free := Function.update g.free p rest
      busy := Function.update g.busy p (g.busy p ++ [l])
      slot := Function.update g.slot k (some l) }

/-- Puts an item back; the slots that refer to it keep doing so. -/
def putBack (g : Ledger P L K) (p : P) (l : L) : Ledger P L K :=
  { g with
    free := Function.update g.free p (g.free p ++ [l])
    busy := Function.update g.busy p ((g.busy p).erase l) }

/-- Moves the item of the slot `k` to the slot `k'`. -/
def transfer (g : Ledger P L K) (k k' : K) : Ledger P L K :=
  { g with slot := Function.update (Function.update g.slot k' (g.slot k)) k none }

variable {g g' : Ledger P L K} {p : P} {k k' : K} {l : L}

omit [DecidableEq L] in
theorem acquire_eq_some (h : g.acquire p k = some g') :
    ∃ l rest, g.free p = l :: rest ∧ g' = {
      free := Function.update g.free p rest
      busy := Function.update g.busy p (g.busy p ++ [l])
      slot := Function.update g.slot k (some l) } := by
  unfold acquire at h
  split at h
  · cases h
  · next l rest hfree =>
      obtain rfl := Option.some.inj h
      exact ⟨l, rest, hfree, rfl⟩

omit [DecidableEq L] in
theorem acquire_isSome (h : g.free p ≠ []) : ∃ g', g.acquire p k = some g' := by
  unfold acquire
  split
  · next hnil => exact absurd hnil h
  · exact ⟨_, rfl⟩

omit [DecidableEq L] in
theorem slot_acquire (h : g.acquire p k = some g') (hne : k' ≠ k) : g'.slot k' = g.slot k' := by
  obtain ⟨l, rest, -, rfl⟩ := acquire_eq_some h
  exact Function.update_of_ne hne ..

omit [DecidableEq L] in
theorem free_acquire {q : P} (h : g.acquire p k = some g') (hne : q ≠ p) :
    g'.free q = g.free q := by
  obtain ⟨l, rest, -, rfl⟩ := acquire_eq_some h
  exact Function.update_of_ne hne ..

omit [DecidableEq K] in
@[simp] theorem slot_putBack : (g.putBack p l).slot = g.slot := rfl

omit [DecidableEq K] in
theorem length_free_putBack (p p' : P) : ((g.putBack p l).free p').length =
    (g.free p').length + if p' = p then 1 else 0 := by
  by_cases hp : p' = p
  · subst hp
    simp [putBack]
  · simp [putBack, hp]

omit [DecidableEq P] [DecidableEq L] in
theorem slot_transfer (k k' i : K) (g : Ledger P L K) :
    (g.transfer k k').slot i = if i = k then none else if i = k' then g.slot k else g.slot i := by
  simp only [transfer, Function.update_apply]

omit [DecidableEq P] [DecidableEq L] in
@[simp] theorem free_transfer : (g.transfer k k').free = g.free := rfl

omit [DecidableEq P] [DecidableEq L] in
@[simp] theorem busy_transfer : (g.transfer k k').busy = g.busy := rfl

omit [DecidableEq P] [DecidableEq L] in
theorem transfer_of_empty (hk : g.slot k = none) (hk' : g.slot k' = none) :
    g.transfer k k' = g := by
  have hslot : (g.transfer k k').slot = g.slot := by
    funext i
    rw [slot_transfer, hk]
    split
    · next hi => rw [hi, hk]
    · split
      · next hi => rw [hi, hk']
      · rfl
  exact congrArg (Ledger.mk g.free g.busy) hslot

/-- The items are those of `all`, free or busy, the owning slots have busy items of their
place, no two the same, every busy item has an owner, and a stale slot still refers to an item. -/
structure Consistent (all : P → List L) (place : K → P) (hold : K → Hold)
    (g : Ledger P L K) : Prop where
  items : ∀ p, (g.free p ++ g.busy p).Perm (all p)
  nodup : ∀ p, (all p).Nodup
  empty : ∀ k, hold k = .empty → g.slot k = none
  owned : ∀ k, hold k = .owned → ∃ l ∈ g.busy (place k), g.slot k = some l
  unique : ∀ k k', hold k = .owned → hold k' = .owned → place k = place k' →
    g.slot k = g.slot k' → k = k'
  covered : ∀ p, ∀ l ∈ g.busy p, ∃ k, hold k = .owned ∧ place k = p ∧ g.slot k = some l
  stale : ∀ k, hold k = .stale → g.slot k ≠ none

variable {all : P → List L} {place : K → P} {hold : K → Hold}

omit [DecidableEq P] [DecidableEq L] [DecidableEq K] in
theorem Consistent.nodup_append (h : g.Consistent all place hold) (p : P) :
    (g.free p ++ g.busy p).Nodup := (h.items p).nodup_iff.mpr (h.nodup p)

omit [DecidableEq P] [DecidableEq L] [DecidableEq K] in
theorem Consistent.mem_all (h : g.Consistent all place hold) (hl : l ∈ g.busy p) : l ∈ all p :=
  (h.items p).mem_iff.mp (List.mem_append_right _ hl)

theorem Consistent.acquire (h : g.Consistent all place hold) (hk : hold k ≠ .owned)
    (hacquire : g.acquire (place k) k = some g') :
    g'.Consistent all place (Function.update hold k .owned) := by
  obtain ⟨l, rest, hfree, rfl⟩ := acquire_eq_some hacquire
  have hnodup := h.nodup_append (place k)
  rw [hfree, List.cons_append, List.nodup_cons] at hnodup
  have hbusy : l ∉ g.busy (place k) := fun hl => hnodup.1 (List.mem_append_right _ hl)
  have hother : ∀ i, i ≠ k → hold i = .owned → place k = place i → g.slot i ≠ some l := by
    intro i _ hi hplace hslot
    obtain ⟨l', hl', hslot'⟩ := h.owned i hi
    obtain rfl := Option.some.inj (hslot.symm.trans hslot')
    exact hbusy (hplace ▸ hl')
  refine ⟨fun p => ?_, h.nodup, fun i hi => ?_, fun i hi => ?_,
    fun i j hi hj hplace hslot => ?_, fun p l' hl' => ?_, fun i hi => ?_⟩
  · by_cases hp : p = place k
    · subst hp
      simp only [Function.update_self]
      refine .trans ?_ (h.items (place k))
      rw [hfree, ← List.append_assoc]
      exact List.perm_append_singleton _ _
    · simp only [Function.update_of_ne hp]
      exact h.items p
  · by_cases hik : i = k
    · subst hik
      simp at hi
    · rw [Function.update_of_ne hik] at hi
      exact (Function.update_of_ne hik ..).trans (h.empty i hi)
  · by_cases hik : i = k
    · subst hik
      exact ⟨l, by simp, by simp⟩
    · rw [Function.update_of_ne hik] at hi
      obtain ⟨l', hl', hslot⟩ := h.owned i hi
      refine ⟨l', ?_, (Function.update_of_ne hik ..).trans hslot⟩
      change l' ∈ Function.update g.busy (place k) (g.busy (place k) ++ [l]) (place i)
      by_cases hp : place i = place k
      · rw [hp] at hl' ⊢
        simp [hl']
      · rwa [Function.update_of_ne hp]
  · by_cases hik : i = k <;> by_cases hjk : j = k
    · exact hik.trans hjk.symm
    · subst hik
      simp only [Function.update_self, Function.update_of_ne hjk] at hj hslot
      exact absurd hslot.symm (hother j hjk hj hplace)
    · subst hjk
      simp only [Function.update_self, Function.update_of_ne hik] at hi hslot
      exact absurd hslot (hother i hik hi hplace.symm)
    · simp only [Function.update_of_ne hik, Function.update_of_ne hjk] at hi hj hslot
      exact h.unique i j hi hj hplace hslot
  · by_cases hnew : p = place k ∧ l' = l
    · obtain ⟨rfl, rfl⟩ := hnew
      exact ⟨k, by simp, rfl, by simp⟩
    · have hold' : l' ∈ g.busy p := by
        change l' ∈ Function.update g.busy (place k) (g.busy (place k) ++ [l]) p at hl'
        by_cases hp : p = place k
        · subst hp
          rw [Function.update_self] at hl'
          simpa [show l' ≠ l from fun heq => hnew ⟨rfl, heq⟩] using hl'
        · rwa [Function.update_of_ne hp] at hl'
      obtain ⟨i, hi, hplace, hslot⟩ := h.covered p l' hold'
      have hik : i ≠ k := by
        rintro rfl
        exact hk hi
      exact ⟨i, by rwa [Function.update_of_ne hik], hplace,
        (Function.update_of_ne hik ..).trans hslot⟩
  · have hik : i ≠ k := by
      rintro rfl
      simp at hi
    rw [Function.update_of_ne hik] at hi
    exact fun hnone => h.stale i hi ((Function.update_of_ne hik ..).symm.trans hnone)

theorem Consistent.putBack (h : g.Consistent all place hold) (hk : hold k = .owned)
    (hl : g.slot k = some l) :
    (g.putBack (place k) l).Consistent all place (Function.update hold k .stale) := by
  obtain ⟨l', hbusy, hslot⟩ := h.owned k hk
  obtain rfl := Option.some.inj (hl.symm.trans hslot)
  refine ⟨fun p => ?_, h.nodup, fun i hi => ?_, fun i hi => ?_,
    fun i j hi hj hplace hs => ?_, fun p l' hl' => ?_, fun i hi => ?_⟩
  · by_cases hp : p = place k
    · subst hp
      simp only [Ledger.putBack, Function.update_self]
      refine .trans ?_ (h.items (place k))
      rw [List.append_assoc]
      exact (List.perm_cons_erase hbusy).symm.append_left _
    · simp only [Ledger.putBack, Function.update_of_ne hp]
      exact h.items p
  · have hik : i ≠ k := by rintro rfl; simp at hi
    rw [Function.update_of_ne hik] at hi
    exact h.empty i hi
  · have hik : i ≠ k := by rintro rfl; simp at hi
    rw [Function.update_of_ne hik] at hi
    obtain ⟨l', hl', hslot'⟩ := h.owned i hi
    refine ⟨l', ?_, hslot'⟩
    simp only [Ledger.putBack]
    by_cases hp : place i = place k
    · have hne : l' ≠ l := by
        rintro rfl
        exact hik (h.unique i k hi hk hp (hslot'.trans hl.symm))
      rw [hp] at hl' ⊢
      rw [Function.update_self]
      exact (List.mem_erase_of_ne hne).mpr hl'
    · rwa [Function.update_of_ne hp]
  · have hik : i ≠ k := by rintro rfl; simp at hi
    have hjk : j ≠ k := by rintro rfl; simp at hj
    rw [Function.update_of_ne hik] at hi
    rw [Function.update_of_ne hjk] at hj
    exact h.unique i j hi hj hplace hs
  · have hnodup := (List.nodup_append.mp (h.nodup_append (place k))).2.1
    have hold' : l' ∈ g.busy p ∧ (p = place k → l' ≠ l) := by
      simp only [Ledger.putBack] at hl'
      by_cases hp : p = place k
      · subst hp
        rw [Function.update_self] at hl'
        exact ⟨List.mem_of_mem_erase hl', fun _ => (hnodup.mem_erase_iff.mp hl').1⟩
      · rw [Function.update_of_ne hp] at hl'
        exact ⟨hl', fun heq => absurd heq hp⟩
    obtain ⟨i, hi, hplace, hslot'⟩ := h.covered p l' hold'.1
    have hik : i ≠ k := by
      rintro rfl
      exact hold'.2 hplace.symm (Option.some.inj (hslot'.symm.trans hl))
    exact ⟨i, by rwa [Function.update_of_ne hik], hplace, hslot'⟩
  · by_cases hik : i = k
    · subst hik
      simp [hl]
    · rw [Function.update_of_ne hik] at hi
      exact h.stale i hi

omit [DecidableEq P] [DecidableEq L] in
theorem Consistent.transfer (h : g.Consistent all place hold) (k k' : K) (hk : hold k = .owned)
    (hk' : hold k' ≠ .owned) (hplace : place k = place k') :
    (g.transfer k k').Consistent all place
      (Function.update (Function.update hold k' .owned) k .empty) := by
  have hne : k' ≠ k := by rintro rfl; exact hk' hk
  -- the slot of the old ledger that an owning slot of the new one has its item from
  let source : K → K := fun i => if i = k' then k else i
  have hsource : ∀ i, Function.update (Function.update hold k' .owned) k .empty i = .owned →
      hold (source i) = .owned ∧ place (source i) = place i ∧
        (g.transfer k k').slot i = g.slot (source i) ∧ i ≠ k := by
    intro i hi
    have hik : i ≠ k := by rintro rfl; simp at hi
    rw [Function.update_of_ne hik] at hi
    rw [slot_transfer, if_neg hik]
    by_cases hik' : i = k'
    · subst hik'
      simp [source, hk, hplace, hik]
    · rw [Function.update_of_ne hik'] at hi
      simp [source, hik', hi, hik]
  refine ⟨h.items, h.nodup, fun i hi => ?_, fun i hi => ?_, fun i j hi hj hp hs => ?_,
    fun p l' hl' => ?_, fun i hi => ?_⟩
  · rw [slot_transfer]
    by_cases hik : i = k
    · rw [if_pos hik]
    · rw [Function.update_of_ne hik] at hi
      have hik' : i ≠ k' := by rintro rfl; simp at hi
      rw [Function.update_of_ne hik'] at hi
      rw [if_neg hik, if_neg hik', h.empty i hi]
  · obtain ⟨hold', hplace', hslot, -⟩ := hsource i hi
    rw [hslot, ← hplace']
    exact h.owned _ hold'
  · obtain ⟨hi', hpi, hsi, hik⟩ := hsource i hi
    obtain ⟨hj', hpj, hsj, hjk⟩ := hsource j hj
    have heq := h.unique _ _ hi' hj' (by rw [hpi, hpj, hp]) (by rw [← hsi, ← hsj, hs])
    simp only [source] at heq
    split at heq <;> split at heq
    · next hi hj => exact hi.trans hj.symm
    · exact absurd heq.symm hjk
    · exact absurd heq hik
    · exact heq
  · obtain ⟨i, hi, hpi, hslot⟩ := h.covered p l' hl'
    by_cases hik : i = k
    · subst hik
      exact ⟨k', by simp [hne], hplace ▸ hpi, by rw [slot_transfer, if_neg hne, if_pos rfl, hslot]⟩
    · have hik' : i ≠ k' := by
        rintro rfl
        exact hk' hi
      exact ⟨i, by rwa [Function.update_of_ne hik, Function.update_of_ne hik'], hpi,
        by rw [slot_transfer, if_neg hik, if_neg hik', hslot]⟩
  · have hik : i ≠ k := by
      rintro rfl
      simp at hi
    rw [Function.update_of_ne hik] at hi
    have hik' : i ≠ k' := by
      rintro rfl
      simp at hi
    rw [Function.update_of_ne hik'] at hi
    rw [slot_transfer, if_neg hik, if_neg hik']
    exact h.stale i hi

omit [DecidableEq P] [DecidableEq K] in
theorem Consistent.card_le (h : g.Consistent all place hold) (ks : Finset K)
    (hks : ∀ k ∈ ks, hold k = .owned ∧ place k = p) : ks.card ≤ (all p).length := by
  have hmaps : Set.MapsTo g.slot ks ((g.busy p).map some).toFinset := fun k hk => by
    obtain ⟨hown, hplace⟩ := hks k hk
    obtain ⟨l, hl, hslot⟩ := h.owned k hown
    rw [hplace] at hl
    simp [hslot, hl]
  have hinj : Set.InjOn g.slot ks := fun k hk k' hk' hslot => by
    obtain ⟨hown, hplace⟩ := hks k hk
    obtain ⟨hown', hplace'⟩ := hks k' hk'
    exact h.unique k k' hown hown' (hplace.trans hplace'.symm) hslot
  calc ks.card ≤ ((g.busy p).map some).toFinset.card := Finset.card_le_card_of_injOn _ hmaps hinj
    _ ≤ ((g.busy p).map some).length := List.toFinset_card_le _
    _ ≤ (g.free p ++ g.busy p).length := by simp
    _ = (all p).length := (h.items p).length_eq

end Ledger

end Dimemas.Library.Reservations
