import Mathlib.Data.Fintype.Card
import Mathlib.Logic.Function.Basic
import Mathlib.Logic.Relation
/-!
# Search for a cycle through a node

A depth first search that keeps no set of the nodes it visited. It writes the nodes of the
path it is on to a chain. If every cycle of the graph goes through the root, the search ends,
and it finds the root again if and only if there is a cycle.
-/

namespace Dimemas.Library.CycleSearch

open Relation

variable {α : Type*}

/-- What a search returns: whether it found the root, the chain and the number of its nodes. -/
structure Found (α : Type*) where
  found : Bool
  chain : Nat → α
  size : Nat

/-- Searches from one node after the other, and stops at the first one that finds the root. -/
def tryEach (search : α → (Nat → α) → Option (Found α)) :
    List α → (Nat → α) → Nat → Option (Found α)
  | [], chain, size => some ⟨false, chain, size⟩
  | w :: ws, chain, size => do
      let res ← search w chain
      if res.found then some res else tryEach search ws res.chain size

/-- The search from a node behind the first `size` nodes of the chain. `none` is a search that is
deeper than the fuel. -/
def searchFrom [DecidableEq α] (succ : α → List α) (root : α) :
    Nat → α → (Nat → α) → Nat → Option (Found α)
  | 0, _, _, _ => none
  | fuel + 1, v, chain, size =>
      let chain := Function.update chain size v
      if v = root then some ⟨true, chain, size + 1⟩
      else tryEach (fun w chain => searchFrom succ root fuel w chain (size + 1)) (succ v) chain
        (size + 1)

def searchCycle [DecidableEq α] (succ : α → List α) (root : α) (fuel : Nat) (chain : Nat → α) :
    Option (Found α) :=
  tryEach (fun w chain => searchFrom succ root fuel w (Function.update chain 0 root) 1) (succ root)
    chain 1

def Arc (succ : α → List α) (v w : α) : Prop := w ∈ succ v

/-- The arcs that a search follows behind the first ones: it stops at the root. -/
def ArcOff (succ : α → List α) (root : α) (v w : α) : Prop := v ≠ root ∧ w ∈ succ v

section

variable {search : α → (Nat → α) → Option (Found α)} {ws : List α} {chain : Nat → α}
  {kept size : Nat} {res : Found α}

theorem tryEach_isSome (h : ∀ w ∈ ws, ∀ chain, (search w chain).isSome) (chain : Nat → α)
    (size : Nat) : (tryEach search ws chain size).isSome := by
  induction ws generalizing chain with
  | nil => rfl
  | cons w ws ih =>
      obtain ⟨res, hres⟩ := Option.isSome_iff_exists.mp (h w (by simp) chain)
      simp only [tryEach, hres, Option.bind_eq_bind, Option.bind_some]
      split
      · rfl
      · apply ih
        intro x hx
        exact h x (by simp [hx])

/-- A search that finds nothing leaves the first nodes of the chain as they were. -/
def KeepsChain (search : α → (Nat → α) → Option (Found α)) (kept : Nat) : Prop :=
  ∀ w chain res, search w chain = some res → res.found = false →
    ∀ i < kept, res.chain i = chain i

theorem tryEach_found (hkeeps : KeepsChain search kept)
    (h : tryEach search ws chain size = some res) (hfound : res.found = true) :
    ∃ w ∈ ws, ∃ before, (∀ i < kept, before i = chain i) ∧ search w before = some res := by
  induction ws generalizing chain with
  | nil =>
      obtain rfl := Option.some.inj h
      cases hfound
  | cons w ws ih =>
      obtain ⟨first, hfirst, hrest⟩ := Option.bind_eq_some_iff.mp h
      split at hrest
      · obtain rfl := Option.some.inj hrest
        exact ⟨w, by simp, chain, fun _ _ => rfl, hfirst⟩
      · next hnot =>
          obtain ⟨x, hx, before, hbefore, hsearch⟩ := ih hrest
          refine ⟨x, by simp [hx], before, ?_, hsearch⟩
          intro i hi
          calc
            before i = first.chain i := hbefore i hi
            _ = chain i := hkeeps w chain first hfirst (by simpa using hnot) i hi

theorem tryEach_notFound (hkeeps : KeepsChain search kept)
    (h : tryEach search ws chain size = some res) (hnot : res.found = false) :
    (∀ i < kept, res.chain i = chain i) ∧
      ∀ w ∈ ws, ∃ before res, search w before = some res ∧ res.found = false := by
  induction ws generalizing chain with
  | nil =>
      obtain rfl := Option.some.inj h
      exact ⟨fun _ _ => rfl, by simp⟩
  | cons w ws ih =>
      obtain ⟨first, hfirst, hrest⟩ := Option.bind_eq_some_iff.mp h
      split at hrest
      · next hfound =>
          obtain rfl := Option.some.inj hrest
          rw [hnot] at hfound
          cases hfound
      · next hfirstNot =>
          have hfirstNot : first.found = false := by simpa using hfirstNot
          obtain ⟨hchain, hall⟩ := ih hrest
          constructor
          · intro i hi
            calc
              res.chain i = first.chain i := hchain i hi
              _ = chain i := hkeeps w chain first hfirst hfirstNot i hi
          · intro x hx
            rcases List.mem_cons.mp hx with rfl | hx
            · exact ⟨chain, first, hfirst, hfirstNot⟩
            · exact hall x hx

end

variable [DecidableEq α] {succ : α → List α} {root v : α} {fuel : Nat} {chain : Nat → α}
  {size : Nat} {res : Found α}

theorem keepsChain_searchFrom (succ : α → List α) (root : α) (fuel size : Nat) :
    KeepsChain (fun w chain => searchFrom succ root fuel w chain size) size := by
  induction fuel generalizing size with
  | zero =>
      intro w chain res h
      cases h
  | succ fuel ih =>
      intro w chain res h hnot i hi
      simp only [searchFrom] at h
      split at h
      · obtain rfl := Option.some.inj h
        cases hnot
      · have hkeeps : KeepsChain (fun w chain => searchFrom succ root fuel w chain (size + 1))
            (size + 1) := ih (size + 1)
        calc
          res.chain i = Function.update chain size w i :=
            (tryEach_notFound hkeeps h hnot).1 i (by omega)
          _ = chain i := Function.update_of_ne (by omega) ..

/-- The nodes of the chain from a position on go along arcs, from a node to the root. -/
structure LeadsTo (succ : α → List α) (root v : α) (chain : Nat → α) (size : Nat)
    (res : Found α) : Prop where
  before : ∀ i < size, res.chain i = chain i
  first : res.chain size = v
  lt : size < res.size
  last : res.chain (res.size - 1) = root
  arcs : ∀ i, size ≤ i → i + 1 < res.size → Arc succ (res.chain i) (res.chain (i + 1))

theorem leadsTo_of_searchFrom (h : searchFrom succ root fuel v chain size = some res)
    (hfound : res.found = true) : LeadsTo succ root v chain size res := by
  induction fuel generalizing v chain size with
  | zero => cases h
  | succ fuel ih =>
      simp only [searchFrom] at h
      split at h
      · next hroot =>
          obtain rfl := Option.some.inj h
          constructor
          · intro i hi
            exact Function.update_of_ne (by omega) ..
          · exact Function.update_self ..
          · show size < size + 1
            omega
          · show Function.update chain size v (size + 1 - 1) = root
            rw [Nat.add_sub_cancel, Function.update_self, hroot]
          · intro i hle hlt
            have hlt : i + 1 < size + 1 := hlt
            omega
      · obtain ⟨w, hw, before, hbefore, hsearch⟩ :=
          tryEach_found (keepsChain_searchFrom succ root fuel (size + 1)) h hfound
        have hrest := ih hsearch
        have hv : res.chain size = v := by
          calc
            res.chain size = before size := hrest.before size (by omega)
            _ = Function.update chain size v size := hbefore size (by omega)
            _ = v := Function.update_self ..
        constructor
        · intro i hi
          calc
            res.chain i = before i := hrest.before i (by omega)
            _ = Function.update chain size v i := hbefore i (by omega)
            _ = chain i := Function.update_of_ne (by omega) ..
        · exact hv
        · have hlt := hrest.lt
          omega
        · exact hrest.last
        · intro i hle hlt
          rcases Nat.eq_or_lt_of_le hle with rfl | hgt
          · rw [hv, hrest.first]
            exact hw
          · exact hrest.arcs i hgt hlt

theorem not_reaches_of_searchFrom (h : searchFrom succ root fuel v chain size = some res)
    (hnot : res.found = false) : ¬ ReflTransGen (ArcOff succ root) v root := by
  induction fuel generalizing v chain size res with
  | zero => cases h
  | succ fuel ih =>
      simp only [searchFrom] at h
      split at h
      · obtain rfl := Option.some.inj h
        cases hnot
      · next hne =>
          have hall := (tryEach_notFound (keepsChain_searchFrom succ root fuel (size + 1)) h hnot).2
          intro hreach
          rcases hreach.cases_head with heq | ⟨w, ⟨-, hw⟩, hrest⟩
          · exact hne heq
          · obtain ⟨before, res', hsearch, hnot'⟩ := hall w hw
            exact ih hsearch hnot' hrest

theorem reaches_off (h : ReflTransGen (Arc succ) v root) :
    ReflTransGen (ArcOff succ root) v root := by
  induction h using ReflTransGen.head_induction_on with
  | refl => exact .refl
  | @head v w hvw _ ih =>
      by_cases hroot : v = root
      · rw [hroot]
      · exact .head ⟨hroot, hvw⟩ ih

/-- The search is not deeper than the number of nodes if the arcs that it follows have no cycle. -/
theorem searchFrom_isSome [Fintype α] (hacyclic : ∀ v, ¬ TransGen (ArcOff succ root) v v)
    (above : Finset α) (habove : ∀ x ∈ above, TransGen (ArcOff succ root) x v)
    (hfuel : Fintype.card α < fuel + above.card) (chain : Nat → α) (size : Nat) :
    (searchFrom succ root fuel v chain size).isSome := by
  induction fuel generalizing v above chain size with
  | zero =>
      have hle := above.card_le_univ
      omega
  | succ fuel ih =>
      simp only [searchFrom]
      split
      · rfl
      · next hne =>
          apply tryEach_isSome
          intro w hw chain'
          have hstep : ArcOff succ root v w := ⟨hne, hw⟩
          have hnew : v ∉ above := fun hv => hacyclic v (habove v hv)
          apply ih (insert v above)
          · intro x hx
            rcases Finset.mem_insert.mp hx with rfl | hx
            · exact .single hstep
            · exact .tail (habove x hx) hstep
          · rw [Finset.card_insert_of_notMem hnew]
            omega

/-- The search for a cycle ends within as many steps as there are nodes if every cycle goes through
the root. -/
theorem searchCycle_isSome [Fintype α] (hacyclic : ∀ v, ¬ TransGen (ArcOff succ root) v v)
    (hfuel : Fintype.card α < fuel) (chain : Nat → α) :
    (searchCycle succ root fuel chain).isSome := by
  apply tryEach_isSome
  intro w _ chain'
  exact searchFrom_isSome hacyclic ∅ (by simp) (by simpa using hfuel) _ _

/-- A chain that starts and ends with the root and goes along arcs in between. -/
structure CycleChain (succ : α → List α) (root : α) (res : Found α) : Prop where
  first : res.chain 0 = root
  last : res.chain (res.size - 1) = root
  size : 1 < res.size
  arcs : ∀ i, i + 1 < res.size → Arc succ (res.chain i) (res.chain (i + 1))

omit [DecidableEq α] in
theorem CycleChain.transGen (h : CycleChain succ root res) : TransGen (Arc succ) root root := by
  have hreach : ∀ i, i + 1 < res.size → TransGen (Arc succ) (res.chain 0) (res.chain (i + 1)) := by
    intro i
    induction i with
    | zero => exact fun hi => .single (h.arcs 0 hi)
    | succ i ih => exact fun hi => .tail (ih (by omega)) (h.arcs (i + 1) hi)
  have hsize := h.size
  have hlast := hreach (res.size - 2) (by omega)
  rwa [h.first, show res.size - 2 + 1 = res.size - 1 by omega, h.last] at hlast

/-- The root is written anew for every arc, so nothing of the chain has to be kept. -/
theorem keepsChain_zero (search : α → (Nat → α) → Option (Found α)) : KeepsChain search 0 := by
  intro w chain res _ _ i hi
  omega

theorem cycleChain_of_searchCycle (h : searchCycle succ root fuel chain = some res)
    (hfound : res.found = true) : CycleChain succ root res := by
  obtain ⟨w, hw, before, -, hsearch⟩ := tryEach_found (keepsChain_zero _) h hfound
  have hrest := leadsTo_of_searchFrom hsearch hfound
  have hroot : res.chain 0 = root := by
    calc
      res.chain 0 = Function.update before 0 root 0 := hrest.before 0 (by omega)
      _ = root := Function.update_self ..
  constructor
  · exact hroot
  · exact hrest.last
  · exact hrest.lt
  · intro i hi
    cases i with
    | zero =>
        rw [hroot, hrest.first]
        exact hw
    | succ i => exact hrest.arcs (i + 1) (by omega) hi

theorem searchCycle_found_iff (h : searchCycle succ root fuel chain = some res) :
    res.found = true ↔ TransGen (Arc succ) root root := by
  constructor
  · intro hfound
    exact (cycleChain_of_searchCycle h hfound).transGen
  · intro hcycle
    by_contra hnot
    have hnot : res.found = false := by simpa using hnot
    have hall := (tryEach_notFound (keepsChain_zero _) h hnot).2
    obtain ⟨w, hw, hrest⟩ := TransGen.head'_iff.mp hcycle
    obtain ⟨before, res', hsearch, hnot'⟩ := hall w hw
    exact not_reaches_of_searchFrom hsearch hnot' (reaches_off hrest)

/-- A graph in which every cycle goes through the root has none if the root is on none. -/
theorem acyclic_of_off {succ : α → List α} {root : α}
    (hoff : ∀ v, ¬ TransGen (ArcOff succ root) v v) (hroot : ¬ TransGen (Arc succ) root root) :
    ∀ v, ¬ TransGen (Arc succ) v v := by
  have hsplit : ∀ v w, TransGen (Arc succ) v w → TransGen (ArcOff succ root) v w ∨
      ReflTransGen (Arc succ) v root ∧ TransGen (Arc succ) root w := by
    intro v w h
    induction h with
    | @single w hvw =>
        by_cases hv : v = root
        · exact .inr ⟨by rw [hv], hv ▸ .single hvw⟩
        · exact .inl (.single ⟨hv, hvw⟩)
    | @tail u w hvu huw ih =>
        rcases ih with hoff' | ⟨hto, hfrom⟩
        · by_cases hu : u = root
          · exact .inr ⟨hu ▸ hvu.to_reflTransGen, hu ▸ .single huw⟩
          · exact .inl (hoff'.tail ⟨hu, huw⟩)
        · exact .inr ⟨hto, hfrom.tail huw⟩
  intro v hcycle
  rcases hsplit v v hcycle with hoff' | ⟨hto, hfrom⟩
  · exact hoff v hoff'
  · exact hroot (hfrom.trans_left hto)

end Dimemas.Library.CycleSearch
