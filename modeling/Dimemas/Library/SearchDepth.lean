import Dimemas.Library.CycleSearch
import Mathlib.Data.List.Chain
/-!
# The positions that a search writes

The search for a cycle with the positions of the chain that it writes. If every cycle goes through
the root, no position is behind the number of the nodes, and that one is only written when the first
arcs lead from the root to itself through all nodes.
-/

namespace Dimemas.Library.SearchDepth

open Relation
open Dimemas.Library.CycleSearch

variable {α : Type*}

/-- The searches from one node after the other: whether the root was found, and what was written. -/
def writesEach (search : α → Option (Bool × List Nat)) : List α → Option (Bool × List Nat)
  | [] => some (false, [])
  | w :: ws => do
      let res ← search w
      if res.1 then some res
      else (writesEach search ws).map fun rest => (rest.1, res.2 ++ rest.2)

/-- The search from a node whose position is `size`. -/
def writesFrom [DecidableEq α] (succ : α → List α) (root : α) :
    Nat → α → Nat → Option (Bool × List Nat)
  | 0, _, _ => none
  | fuel + 1, v, size =>
      if v = root then some (true, [size])
      else (writesEach (fun w => writesFrom succ root fuel w (size + 1)) (succ v)).map fun res =>
        (res.1, size :: res.2)

/-- The search for a cycle through the root, which is written anew for every arc. -/
def writesCycle [DecidableEq α] (succ : α → List α) (root : α) (fuel : Nat) :
    Option (Bool × List Nat) :=
  writesEach (fun w => (writesFrom succ root fuel w 1).map fun res => (res.1, 0 :: res.2)) (succ root)

/-- The node behind some first arcs. -/
def firstWalk (succ : α → List α) : Nat → α → Option α
  | 0, v => some v
  | k + 1, v => (succ v).head?.bind (firstWalk succ k)

/-- The first arcs lead from the root to itself in `k` steps, and not before. -/
def Closes (succ : α → List α) (root : α) (k : Nat) : Prop :=
  firstWalk succ k root = some root ∧ ∀ i, 0 < i → i < k → firstWalk succ i root ≠ some root

/-- The written positions are those of a search: the same node is found, and the rest of the chain is
left as it was. -/
def Records (writes : Option (Bool × List Nat)) (chain : Nat → α) (search : Option (Found α)) :
    Prop :=
  search.map Found.found = writes.map Prod.fst ∧
    ∀ res ∈ search, ∀ w ∈ writes, ∀ i ∉ w.2, res.chain i = chain i

section

variable {writes : α → Option (Bool × List Nat)} {search : α → (Nat → α) → Option (Found α)}
  {chain : Nat → α} {size k : Nat} {found : Bool} {ps : List Nat} {ws : List α}

theorem records_none : Records none chain none :=
  ⟨rfl, fun _ h => nomatch h⟩

theorem records_some {res : Found α} (hfound : res.found = found)
    (hchain : ∀ i ∉ ps, res.chain i = chain i) : Records (some (found, ps)) chain (some res) := by
  constructor
  · rw [Option.map_some, Option.map_some, hfound]
  · intro res' hres w hw
    cases hres
    cases hw
    exact hchain

theorem records_cases {writes : Option (Bool × List Nat)} {search : Option (Found α)}
    (h : Records writes chain search) :
    (writes = none ∧ search = none) ∨ ∃ found ps res, writes = some (found, ps) ∧
      search = some res ∧ res.found = found ∧ ∀ i ∉ ps, res.chain i = chain i := by
  obtain ⟨hfound, hchain⟩ := h
  cases writes with
  | none =>
      cases search with
      | none => exact .inl ⟨rfl, rfl⟩
      | some res => cases hfound
  | some w =>
      cases search with
      | none => cases hfound
      | some res =>
          exact .inr ⟨w.1, w.2, res, rfl, rfl, Option.some.inj hfound, hchain res rfl w rfl⟩

theorem records_each (h : ∀ w chain, Records (writes w) chain (search w chain)) (ws : List α)
    (chain : Nat → α) (size : Nat) :
    Records (writesEach writes ws) chain (tryEach search ws chain size) := by
  induction ws generalizing chain with
  | nil => exact records_some rfl fun _ _ => rfl
  | cons w ws ih =>
      rcases records_cases (h w chain) with ⟨hw, hs⟩ | ⟨found, ps, res, hw, hs, hfound, hchain⟩
      · simp only [writesEach, tryEach, hw, hs]
        exact records_none
      · simp only [writesEach, tryEach, hw, hs, Option.bind_eq_bind, Option.bind_some]
        cases found with
        | true =>
            rw [if_pos rfl, if_pos hfound]
            exact records_some hfound hchain
        | false =>
            rw [if_neg Bool.false_ne_true, if_neg (by rw [hfound]; exact Bool.false_ne_true)]
            rcases records_cases (ih res.chain) with
              ⟨hrest, hnone⟩ | ⟨found', ps', res', hrest, hsome, hfound', hchain'⟩
            · rw [hrest, hnone]
              exact records_none
            · rw [hrest, hsome]
              apply records_some hfound'
              intro i hi
              rw [List.mem_append, not_or] at hi
              exact (hchain' i hi.2).trans (hchain i hi.1)

theorem mem_writesEach (h : writesEach writes ws = some (found, ps)) (hk : k ∈ ps) :
    ∃ w ∈ ws, ∃ res, writes w = some res ∧ k ∈ res.2 := by
  induction ws generalizing found ps with
  | nil =>
      cases h
      cases hk
  | cons w ws ih =>
      obtain ⟨res, hres, hrest⟩ := Option.bind_eq_some_iff.mp h
      split at hrest
      · cases hrest
        exact ⟨w, List.mem_cons_self, _, hres, hk⟩
      · obtain ⟨rest, hws, heq⟩ := Option.map_eq_some_iff.mp hrest
        cases heq
        rcases List.mem_append.mp hk with hk | hk
        · exact ⟨w, List.mem_cons_self, res, hres, hk⟩
        · obtain ⟨x, hx, res', hres', hk'⟩ := ih hws hk
          exact ⟨x, List.mem_cons_of_mem w hx, res', hres', hk'⟩

theorem writesEach_head {w : α} (hw : ws.head? = some w)
    (h : writesEach writes ws = some (found, ps)) :
    ∃ res, writes w = some res ∧ res.2 ⊆ ps := by
  cases ws with
  | nil => cases hw
  | cons x xs =>
      cases hw
      obtain ⟨res, hres, hrest⟩ := Option.bind_eq_some_iff.mp h
      refine ⟨res, hres, ?_⟩
      split at hrest
      · cases hrest
        exact List.Subset.refl _
      · obtain ⟨rest, -, heq⟩ := Option.map_eq_some_iff.mp hrest
        cases heq
        exact List.subset_append_left ..

theorem writesEach_of_found (h : writesEach writes ws = some (found, ps)) (hne : ws ≠ [])
    (hfound : ∀ w ∈ ws, ∀ res, writes w = some res → res.1 = true) :
    ∃ w, ws.head? = some w ∧ writes w = some (found, ps) := by
  cases ws with
  | nil => exact absurd rfl hne
  | cons w ws =>
      obtain ⟨res, hres, hrest⟩ := Option.bind_eq_some_iff.mp h
      rw [if_pos (hfound w List.mem_cons_self res hres)] at hrest
      rw [hrest] at hres
      exact ⟨w, rfl, hres⟩

end

variable [DecidableEq α] {succ : α → List α} {root v : α} {fuel size k : Nat} {found : Bool}
  {ps : List Nat}

theorem records_searchFrom (succ : α → List α) (root : α) (fuel : Nat) (v : α) (chain : Nat → α)
    (size : Nat) :
    Records (writesFrom succ root fuel v size) chain (searchFrom succ root fuel v chain size) := by
  induction fuel generalizing v chain size with
  | zero => exact records_none
  | succ fuel ih =>
      simp only [writesFrom, searchFrom]
      split
      · apply records_some rfl
        intro i hi
        exact Function.update_of_ne (List.ne_of_not_mem_cons hi) ..
      · have hrest := records_each (fun w chain => ih w chain (size + 1)) (succ v)
          (Function.update chain size v) (size + 1)
        rcases records_cases hrest with ⟨hw, hs⟩ | ⟨found, ps, res, hw, hs, hfound, hchain⟩
        · rw [hw, hs]
          exact records_none
        · rw [hw, hs]
          apply records_some hfound
          intro i hi
          rw [List.mem_cons, not_or] at hi
          calc
            res.chain i = Function.update chain size v i := hchain i hi.2
            _ = chain i := Function.update_of_ne hi.1 ..

/-- The search for a cycle finds what it finds in a chain without a bound, and it changes the chain
at the recorded positions only. -/
theorem records_searchCycle (succ : α → List α) (root : α) (fuel : Nat) (chain : Nat → α) :
    Records (writesCycle succ root fuel) chain (searchCycle succ root fuel chain) := by
  apply records_each
  intro w chain
  rcases records_cases (records_searchFrom succ root fuel w (Function.update chain 0 root) 1) with
    ⟨hw, hs⟩ | ⟨found, ps, res, hw, hs, hfound, hchain⟩
  · rw [hw, hs]
    exact records_none
  · rw [hw, hs]
    apply records_some hfound
    intro i hi
    rw [List.mem_cons, not_or] at hi
    calc
      res.chain i = Function.update chain 0 root i := hchain i hi.2
      _ = chain i := Function.update_of_ne hi.1 ..

theorem found_of_reaches {res : Bool × List Nat} (hreach : ∀ v, ReflTransGen (Arc succ) v root)
    (h : writesFrom succ root fuel v size = some res) : res.1 = true := by
  rcases records_cases (records_searchFrom succ root fuel v (fun _ => root) size) with
    ⟨hnone, -⟩ | ⟨found, ps, res', hw, hs, hfound, -⟩
  · rw [hnone] at h
    cases h
  · rw [hw] at h
    cases h
    show found = true
    by_contra hnot
    rw [Bool.not_eq_true, ← hfound] at hnot
    exact not_reaches_of_searchFrom hs hnot (reaches_off (hreach v))

/-! ## Paths -/

theorem path_of_writesFrom (h : writesFrom succ root fuel v size = some (found, ps)) (hk : k ∈ ps) :
    ∃ xs, (v :: xs).IsChain (ArcOff succ root) ∧ k = size + xs.length := by
  induction fuel generalizing v size found ps with
  | zero => cases h
  | succ fuel ih =>
      simp only [writesFrom] at h
      split at h
      · cases h
        exact ⟨[], .singleton v, List.mem_singleton.mp hk⟩
      · next hne =>
          obtain ⟨res, hres, heq⟩ := Option.map_eq_some_iff.mp h
          cases heq
          rcases List.mem_cons.mp hk with rfl | hk
          · exact ⟨[], .singleton v, rfl⟩
          · obtain ⟨w, hw, res', hres', hk'⟩ := mem_writesEach hres hk
            obtain ⟨xs, hchain, hlength⟩ := ih hres' hk'
            refine ⟨w :: xs, List.isChain_cons_cons.mpr ⟨⟨hne, hw⟩, hchain⟩, ?_⟩
            rw [List.length_cons, hlength]
            omega

theorem path_of_writesCycle (h : writesCycle succ root fuel = some (found, ps)) (hk : k ∈ ps) :
    k = 0 ∨ ∃ xs : List α, xs.IsChain (ArcOff succ root) ∧ k = xs.length := by
  obtain ⟨w, -, res, hres, hk⟩ := mem_writesEach h hk
  obtain ⟨res', hres', rfl⟩ := Option.map_eq_some_iff.mp hres
  rcases List.mem_cons.mp hk with rfl | hk
  · exact .inl rfl
  · obtain ⟨xs, hchain, hlength⟩ := path_of_writesFrom hres' hk
    refine .inr ⟨w :: xs, hchain, ?_⟩
    rw [List.length_cons, hlength]
    omega

omit [DecidableEq α] in
theorem nodup_of_isChain (hacyclic : ∀ v, ¬ TransGen (ArcOff succ root) v v) {xs : List α}
    (h : xs.IsChain (ArcOff succ root)) : xs.Nodup := by
  have hpairs : xs.Pairwise (TransGen (ArcOff succ root)) :=
    List.isChain_iff_pairwise.mp (h.imp fun _ _ => .single)
  apply hpairs.imp
  rintro x y hxy rfl
  exact hacyclic x hxy

/-- A path through as many nodes as there are ends with the root, which all nodes reach. -/
theorem reaches_of_full [Fintype α] (hacyclic : ∀ v, ¬ TransGen (ArcOff succ root) v v)
    {xs : List α} (h : xs.IsChain (ArcOff succ root)) (hlength : xs.length = Fintype.card α) :
    xs.getLast? = some root ∧ ∀ v, ReflTransGen (Arc succ) v root := by
  have hall : ∀ v, v ∈ xs := by
    intro v
    have huniv : xs.toFinset = Finset.univ := by
      rw [← Finset.card_eq_iff_eq_univ, List.toFinset_card_of_nodup (nodup_of_isChain hacyclic h),
        hlength]
    rw [← List.mem_toFinset, huniv]
    exact Finset.mem_univ v
  obtain ⟨before, after, rfl⟩ := List.append_of_mem (hall root)
  obtain ⟨hbefore, hafter, -⟩ := List.isChain_append.mp h
  have hnil : after = [] := by
    cases after with
    | nil => rfl
    | cons x after => exact absurd rfl (List.isChain_cons_cons.mp hafter).1.1
  subst hnil
  refine ⟨List.getLast?_concat, fun v => ?_⟩
  rcases List.mem_append.mp (hall v) with hv | hv
  · have hpairs : (before ++ [root]).Pairwise (TransGen (ArcOff succ root)) :=
      List.isChain_iff_pairwise.mp (h.imp fun _ _ => .single)
    have hreach := (List.pairwise_append.mp hpairs).2.2 v hv root (List.mem_singleton_self root)
    have hsub : ArcOff succ root ≤ Arc succ := fun _ _ harc => harc.2
    exact (TransGen.mono hsub v root hreach).to_reflTransGen
  · rw [List.mem_singleton.mp hv]

/-! ## The walk along the first arcs -/

omit [DecidableEq α] in
theorem firstWalk_succ (succ : α → List α) {w : α} (h : (succ v).head? = some w) (k : Nat) :
    firstWalk succ (k + 1) v = firstWalk succ k w := by
  rw [firstWalk, h, Option.bind_some]

omit [DecidableEq α] in
theorem path_of_firstWalk {w : α} (h : firstWalk succ k v = some w)
    (hoff : ∀ i < k, firstWalk succ i v ≠ some root) :
    ∃ xs, (v :: xs).IsChain (ArcOff succ root) ∧ xs.length = k ∧ (v :: xs).getLast? = some w := by
  induction k generalizing v with
  | zero =>
      cases h
      exact ⟨[], .singleton _, rfl, rfl⟩
  | succ k ih =>
      obtain ⟨x, hx, hwalk⟩ := Option.bind_eq_some_iff.mp h
      have hne : v ≠ root := fun hv => hoff 0 (Nat.succ_pos k) (congrArg some hv)
      have hrest : ∀ i < k, firstWalk succ i x ≠ some root := by
        intro i hi
        rw [← firstWalk_succ succ hx]
        exact hoff (i + 1) (Nat.succ_lt_succ hi)
      obtain ⟨xs, hchain, hlength, hlast⟩ := ih hwalk hrest
      refine ⟨x :: xs, List.isChain_cons_cons.mpr ⟨⟨hne, List.mem_of_head? hx⟩, hchain⟩, ?_, hlast⟩
      rw [List.length_cons, hlength]

/-- The search goes along the first arcs until it is at the root. -/
theorem mem_writesFrom (h : writesFrom succ root fuel v size = some (found, ps))
    (hsome : (firstWalk succ k v).isSome) (hoff : ∀ i < k, firstWalk succ i v ≠ some root) :
    size + k ∈ ps := by
  induction k generalizing v fuel size found ps with
  | zero =>
      cases fuel with
      | zero => cases h
      | succ fuel =>
          simp only [writesFrom] at h
          split at h
          · cases h
            exact List.mem_singleton_self size
          · obtain ⟨res, -, heq⟩ := Option.map_eq_some_iff.mp h
            cases heq
            exact List.mem_cons_self
  | succ k ih =>
      cases fuel with
      | zero => cases h
      | succ fuel =>
          have hne : v ≠ root := fun hv => hoff 0 (Nat.succ_pos k) (congrArg some hv)
          simp only [writesFrom, if_neg hne] at h
          obtain ⟨res, hres, heq⟩ := Option.map_eq_some_iff.mp h
          cases heq
          obtain ⟨w, hwalk⟩ := Option.isSome_iff_exists.mp hsome
          obtain ⟨x, hx, hwalk⟩ := Option.bind_eq_some_iff.mp hwalk
          obtain ⟨y, hy, hsub⟩ := writesEach_head hx hres
          have hrest : ∀ i < k, firstWalk succ i x ≠ some root := by
            intro i hi
            rw [← firstWalk_succ succ hx]
            exact hoff (i + 1) (Nat.succ_lt_succ hi)
          have hmem : size + 1 + k ∈ y.2 :=
            @ih x fuel (size + 1) y.1 y.2 hy (Option.isSome_of_eq_some hwalk) hrest
          rw [show size + (k + 1) = size + 1 + k by omega]
          exact List.mem_cons_of_mem size (hsub hmem)

/-- A search that finds the root behind every arc goes along the first arcs only. -/
theorem firstWalk_of_writesFrom (hreach : ∀ v, ReflTransGen (Arc succ) v root)
    (h : writesFrom succ root fuel v size = some (found, ps)) (hk : k ∈ ps) :
    ∃ j, k = size + j ∧ (firstWalk succ j v).isSome ∧
      ∀ i < j, firstWalk succ i v ≠ some root := by
  induction fuel generalizing v size found ps with
  | zero => cases h
  | succ fuel ih =>
      simp only [writesFrom] at h
      split at h
      · cases h
        exact ⟨0, List.mem_singleton.mp hk, rfl, fun i hi => absurd hi (Nat.not_lt_zero i)⟩
      · next hne =>
          obtain ⟨res, hres, heq⟩ := Option.map_eq_some_iff.mp h
          cases heq
          rcases List.mem_cons.mp hk with rfl | hk
          · exact ⟨0, rfl, rfl, fun i hi => absurd hi (Nat.not_lt_zero i)⟩
          · have harcs : succ v ≠ [] := by
              rcases (hreach v).cases_head with heq | ⟨w, hw, -⟩
              · exact absurd heq hne
              · exact List.ne_nil_of_mem hw
            obtain ⟨w, hw, hfirst⟩ := writesEach_of_found hres harcs
              fun w _ res hres => found_of_reaches hreach hres
            obtain ⟨j, rfl, hsome, hoff⟩ := ih hfirst hk
            refine ⟨j + 1, by omega, ?_, ?_⟩
            · rw [firstWalk_succ succ hw]
              exact hsome
            · intro i hi
              cases i with
              | zero => exact fun hv => hne (Option.some.inj hv)
              | succ i =>
                  rw [firstWalk_succ succ hw]
                  exact hoff i (Nat.lt_of_succ_lt_succ hi)

theorem writesCycle_isSome [Fintype α] (hacyclic : ∀ v, ¬ TransGen (ArcOff succ root) v v)
    (hfuel : Fintype.card α < fuel) : (writesCycle succ root fuel).isSome := by
  have hsearch := searchCycle_isSome hacyclic hfuel fun _ => root
  have hfound := (records_searchCycle succ root fuel fun _ => root).1
  have hsome : ((writesCycle succ root fuel).map Prod.fst).isSome := by
    rw [← hfound, Option.isSome_map]
    exact hsearch
  rwa [Option.isSome_map] at hsome

theorem le_card_of_writesCycle [Fintype α] (hacyclic : ∀ v, ¬ TransGen (ArcOff succ root) v v)
    (h : writesCycle succ root fuel = some (found, ps)) (hk : k ∈ ps) : k ≤ Fintype.card α := by
  rcases path_of_writesCycle h hk with rfl | ⟨xs, hchain, rfl⟩
  · exact Nat.zero_le _
  · exact (nodup_of_isChain hacyclic hchain).length_le_card

/-- The position behind all nodes is written exactly if the first arcs lead through all nodes. -/
theorem card_mem_writesCycle_iff [Fintype α] (hacyclic : ∀ v, ¬ TransGen (ArcOff succ root) v v)
    (h : writesCycle succ root fuel = some (found, ps)) :
    Fintype.card α ∈ ps ↔ Closes succ root (Fintype.card α) := by
  have hpos : 0 < Fintype.card α := Fintype.card_pos_iff.mpr ⟨root⟩
  constructor
  · intro hmem
    rcases path_of_writesCycle h hmem with hzero | ⟨xs, hchain, hlength⟩
    · omega
    · have hreach := (reaches_of_full hacyclic hchain hlength.symm).2
      have harcs : succ root ≠ [] := by
        intro hnil
        rw [writesCycle, hnil] at h
        cases h
        cases hmem
      have hfinds : ∀ w ∈ succ root, ∀ res, ((writesFrom succ root fuel w 1).map fun res =>
          (res.1, 0 :: res.2)) = some res → res.1 = true := by
        intro w _ res hres
        obtain ⟨res', hres', heq⟩ := Option.map_eq_some_iff.mp hres
        rw [← heq]
        exact @found_of_reaches α _ succ root w fuel 1 res' hreach hres'
      obtain ⟨w, hw, hfirst⟩ := writesEach_of_found h harcs hfinds
      obtain ⟨res, hres, heq⟩ := Option.map_eq_some_iff.mp hfirst
      cases heq
      rcases List.mem_cons.mp hmem with hzero | hmem
      · omega
      · obtain ⟨j, hj, hsome, hoff⟩ := firstWalk_of_writesFrom hreach hres hmem
        obtain ⟨x, hx⟩ := Option.isSome_iff_exists.mp hsome
        obtain ⟨ys, hys, hysLength, hlast⟩ := path_of_firstWalk hx hoff
        have hfull : (w :: ys).length = Fintype.card α := by
          rw [List.length_cons, hysLength]
          omega
        have hend : x = root := by
          have hroot := (reaches_of_full hacyclic hys hfull).1
          rw [hlast] at hroot
          exact Option.some.inj hroot
        constructor
        · rw [show Fintype.card α = j + 1 by omega, firstWalk_succ succ hw, hx, hend]
        · intro i hi hlt
          cases i with
          | zero => omega
          | succ i =>
              rw [firstWalk_succ succ hw]
              exact hoff i (by omega)
  · rintro ⟨hend, hoff⟩
    obtain ⟨j, hj⟩ := Nat.exists_eq_succ_of_ne_zero hpos.ne'
    rw [hj] at hend hoff ⊢
    obtain ⟨w, hw, hwalk⟩ := Option.bind_eq_some_iff.mp hend
    obtain ⟨res, hres, hsub⟩ := writesEach_head hw h
    obtain ⟨res', hres', rfl⟩ := Option.map_eq_some_iff.mp hres
    have hrest : ∀ i < j, firstWalk succ i w ≠ some root := by
      intro i hi
      rw [← firstWalk_succ succ hw]
      exact hoff (i + 1) (Nat.succ_pos i) (Nat.succ_lt_succ hi)
    have hmem : 1 + j ∈ res'.2 :=
      mem_writesFrom hres' (Option.isSome_of_eq_some hwalk) hrest
    rw [Nat.succ_eq_one_add]
    exact hsub (List.mem_cons_of_mem 0 hmem)

end Dimemas.Library.SearchDepth
