import Mathlib.Data.List.Count
import Mathlib.Data.List.Nodup
import Mathlib.Data.Option.Basic
/-!
# Lists with holes

A list in which one value stands for a place that is still free. Values are put at given places or
into the first holes.
-/

namespace Dimemas.Library.Holes

section

variable {α : Type} {hole x v : α} {m pre post vs ws : List α} {t : Nat} {ts : List Nat}

def place (m : List α) : List Nat → List α → List α
  | t :: ts, v :: vs => place (m.set t v) ts vs
  | _, _ => m

@[simp] theorem place_nil : place m [] vs = m := by
  cases vs <;> rfl

@[simp] theorem place_nil_right : place m ts [] = m := by
  cases ts <;> rfl

@[simp] theorem length_place : (place m ts vs).length = m.length := by
  induction ts generalizing m vs with
  | nil => rw [place_nil]
  | cons t ts ih =>
      cases vs with
      | nil => rfl
      | cons v vs => exact ih.trans (List.length_set ..)

theorem place_take : place m (ts.take vs.length) vs = place m ts vs := by
  induction ts generalizing m vs with
  | nil => rw [List.take_nil]
  | cons t ts ih =>
      cases vs with
      | nil => rw [place_nil_right, place_nil_right]
      | cons v vs =>
          rw [List.length_cons, List.take_succ_cons, place, place, ih]

theorem mem_place (hx : x ∈ place m ts vs) : x ∈ m ∨ x ∈ vs := by
  induction ts generalizing m vs with
  | nil => exact .inl (by rwa [place_nil] at hx)
  | cons t ts ih =>
      cases vs with
      | nil => exact .inl hx
      | cons v vs =>
          rcases ih hx with h | h
          · rcases List.mem_or_eq_of_mem_set h with h | rfl
            · exact .inl h
            · exact .inr List.mem_cons_self
          · exact .inr (List.mem_cons_of_mem v h)

theorem getElem?_place_of_notMem (ht : t ∉ ts) : (place m ts vs)[t]? = m[t]? := by
  induction ts generalizing m vs with
  | nil => rw [place_nil]
  | cons s ts ih =>
      cases vs with
      | nil => rfl
      | cons v vs =>
          have hne : s ≠ t := fun h => ht (h ▸ List.mem_cons_self)
          exact (ih fun h => ht (List.mem_cons_of_mem s h)).trans (List.getElem?_set_ne hne)

theorem getElem?_place {k : Nat} (hnodup : ts.Nodup) (hk : k < vs.length) (ht : ts[k]? = some t)
    (hlt : t < m.length) : (place m ts vs)[t]? = vs[k]? := by
  induction ts generalizing m vs k with
  | nil => exact nomatch ht
  | cons s ts ih =>
      cases vs with
      | nil => exact absurd hk (Nat.not_lt_zero k)
      | cons v vs =>
          rw [List.nodup_cons] at hnodup
          cases k with
          | zero =>
              obtain rfl : s = t := Option.some_injective _ ht
              rw [place, getElem?_place_of_notMem hnodup.1, List.getElem?_set_self hlt]
              rfl
          | succ k =>
              have hlt' : t < (m.set s v).length := by rwa [List.length_set]
              exact ih hnodup.2 (Nat.lt_of_succ_lt_succ hk) ht hlt'

theorem holes_set (ht : t ∉ ts) (hts : ∀ s ∈ t :: ts, m[s]? = some hole) :
    ∀ s ∈ ts, (m.set t v)[s]? = some hole := by
  intro s hs
  have hne : t ≠ s := fun h => ht (h ▸ hs)
  rw [List.getElem?_set_ne hne]
  exact hts s (List.mem_cons_of_mem t hs)

variable [DecidableEq α]

theorem count_place (hx : x ≠ hole) (hnodup : ts.Nodup) (hts : ∀ t ∈ ts, m[t]? = some hole) :
    (place m ts vs).count x = m.count x + (vs.take ts.length).count x := by
  induction ts generalizing m vs with
  | nil => rw [place_nil, List.length_nil, List.take_zero, List.count_nil, Nat.add_zero]
  | cons t ts ih =>
      cases vs with
      | nil => rw [place_nil_right, List.take_nil, List.count_nil, Nat.add_zero]
      | cons v vs =>
          rw [List.nodup_cons] at hnodup
          have hlt : t < m.length := (List.getElem?_eq_some_iff.mp (hts t List.mem_cons_self)).1
          have hhole : m[t] = hole :=
            (List.getElem?_eq_some_iff.mp (hts t List.mem_cons_self)).2
          have hset : (m.set t v).count x = m.count x + if v = x then 1 else 0 := by
            rw [List.count_set hlt, hhole]
            simp [hx.symm]
          rw [place, ih hnodup.2 (holes_set hnodup.1 hts), hset, List.length_cons, List.take_succ_cons,
            List.count_cons]
          simp only [beq_iff_eq]
          omega

theorem count_hole_place (hvs : hole ∉ vs) (hnodup : ts.Nodup)
    (hts : ∀ t ∈ ts, m[t]? = some hole) :
    (place m ts vs).count hole + (vs.take ts.length).length = m.count hole := by
  induction ts generalizing m vs with
  | nil => rw [place_nil, List.length_nil, List.take_zero, List.length_nil, Nat.add_zero]
  | cons t ts ih =>
      cases vs with
      | nil => rw [place_nil_right, List.take_nil, List.length_nil, Nat.add_zero]
      | cons v vs =>
          rw [List.nodup_cons] at hnodup
          have hlt : t < m.length := (List.getElem?_eq_some_iff.mp (hts t List.mem_cons_self)).1
          have hhole : m[t] = hole :=
            (List.getElem?_eq_some_iff.mp (hts t List.mem_cons_self)).2
          have hv : v ≠ hole := fun h => hvs (h ▸ List.mem_cons_self)
          have hset : (m.set t v).count hole + 1 = m.count hole := by
            have hpos : 0 < m.count hole :=
              List.count_pos_iff.mpr (hhole ▸ List.getElem_mem hlt)
            rw [List.count_set hlt, hhole]
            simp [hv]
            omega
          have hrest := @ih (m.set t v) vs (fun h => hvs (List.mem_cons_of_mem v h)) hnodup.2
            (holes_set hnodup.1 hts)
          rw [place, List.length_cons, List.take_succ_cons, List.length_cons, ← hset, ← hrest]
          omega

def fillHoles (hole : α) : List α → List α → List α
  | [], _ => []
  | x :: m, [] => x :: m
  | x :: m, v :: vs =>
      if x = hole then v :: fillHoles hole m vs else x :: fillHoles hole m (v :: vs)

@[simp] theorem fillHoles_nil : fillHoles hole m [] = m := by
  cases m <;> rfl

@[simp] theorem length_fillHoles : (fillHoles hole m vs).length = m.length := by
  induction m generalizing vs with
  | nil => rfl
  | cons x m ih =>
      cases vs with
      | nil => rfl
      | cons v vs =>
          rw [fillHoles]
          split
          · rw [List.length_cons, ih, List.length_cons]
          · rw [List.length_cons, ih, List.length_cons]

theorem fillHoles_of_notMem (h : hole ∉ m) : fillHoles hole m vs = m := by
  induction m generalizing vs with
  | nil => rfl
  | cons x m ih =>
      cases vs with
      | nil => rfl
      | cons v vs =>
          have hx : x ≠ hole := fun hx => h (hx ▸ List.mem_cons_self)
          rw [fillHoles, if_neg hx, ih fun hm => h (List.mem_cons_of_mem x hm)]

theorem fillHoles_first (hpre : hole ∉ pre) :
    fillHoles hole (pre ++ hole :: post) [v] = pre ++ v :: post := by
  induction pre with
  | nil => rw [List.nil_append, fillHoles, if_pos rfl, fillHoles_nil, List.nil_append]
  | cons x pre ih =>
      have hx : x ≠ hole := fun hx => hpre (hx ▸ List.mem_cons_self)
      rw [List.cons_append, fillHoles, if_neg hx, ih fun h => hpre (List.mem_cons_of_mem x h)]
      rfl

theorem fillHoles_fillHoles (hvs : hole ∉ vs) :
    fillHoles hole (fillHoles hole m vs) ws = fillHoles hole m (vs ++ ws) := by
  induction m generalizing vs with
  | nil => rfl
  | cons x m ih =>
      cases vs with
      | nil => rw [fillHoles_nil, List.nil_append]
      | cons v vs =>
          rw [List.cons_append, fillHoles, fillHoles]
          split
          · have hv : v ≠ hole := fun hv => hvs (hv ▸ List.mem_cons_self)
            cases ws with
            | nil => rw [fillHoles_nil, List.append_nil]
            | cons w ws =>
                rw [fillHoles, if_neg hv, ih fun h => hvs (List.mem_cons_of_mem v h)]
          · rename_i hx
            cases ws with
            | nil => rw [fillHoles_nil, List.append_nil]
            | cons w ws => rw [fillHoles, if_neg hx, ih hvs, List.cons_append]

theorem map_eq_fillHoles {k : Nat} (hk : m.count hole ≤ k) :
    m.map (fun x => if x = hole then v else x) = fillHoles hole m (List.replicate k v) := by
  induction m generalizing k with
  | nil => rfl
  | cons x m ih =>
      by_cases hx : x = hole
      · rw [hx, List.count_cons_self] at hk
        obtain ⟨k, rfl⟩ : ∃ j, k = j + 1 := ⟨k - 1, by omega⟩
        rw [List.map_cons, if_pos hx, List.replicate_succ, fillHoles, if_pos hx,
          ih (Nat.le_of_succ_le_succ hk)]
      · rw [List.count_cons_of_ne hx] at hk
        rw [List.map_cons, if_neg hx, ih hk]
        cases k with
        | zero => rw [List.replicate_zero, fillHoles_nil, fillHoles_nil]
        | succ k => rw [List.replicate_succ, fillHoles, if_neg hx]

theorem getElem?_fillHoles_of_ne (hx : m[t]? = some x) (hne : x ≠ hole) :
    (fillHoles hole m vs)[t]? = some x := by
  induction m generalizing vs t with
  | nil => exact nomatch hx
  | cons y m ih =>
      cases vs with
      | nil => exact hx
      | cons v vs =>
          rw [fillHoles]
          cases t with
          | zero =>
              obtain rfl : y = x := Option.some_injective _ hx
              rw [if_neg hne]
              rfl
          | succ t =>
              split
              · exact ih hx
              · exact ih hx

theorem mem_fillHoles (hx : x ∈ fillHoles hole m vs) : x ∈ m ∨ x ∈ vs := by
  induction m generalizing vs with
  | nil => exact .inl hx
  | cons y m ih =>
      cases vs with
      | nil => exact .inl hx
      | cons v vs =>
          rw [fillHoles] at hx
          split at hx
          · rcases List.mem_cons.mp hx with rfl | hx
            · exact .inr List.mem_cons_self
            · exact (ih hx).imp (List.mem_cons_of_mem y) (List.mem_cons_of_mem v)
          · rcases List.mem_cons.mp hx with rfl | hx
            · exact .inl List.mem_cons_self
            · exact (ih hx).imp_left (List.mem_cons_of_mem y)

theorem count_fillHoles (hne : x ≠ hole) (hvs : hole ∉ vs) :
    (fillHoles hole m vs).count x = m.count x + (vs.take (m.count hole)).count x := by
  induction m generalizing vs with
  | nil => simp [fillHoles]
  | cons y m ih =>
      cases vs with
      | nil => simp
      | cons v vs =>
          rw [fillHoles]
          split
          · rename_i hy
            have hrest := @ih vs fun h => hvs (List.mem_cons_of_mem v h)
            rw [List.count_cons, hrest, hy, List.count_cons_self, List.take_succ_cons,
              List.count_cons_of_ne hne.symm, List.count_cons]
            omega
          · rename_i hy
            rw [List.count_cons, ih hvs, List.count_cons_of_ne hy, List.count_cons]
            omega

theorem count_hole_fillHoles (hvs : hole ∉ vs) :
    (fillHoles hole m vs).count hole = m.count hole - vs.length := by
  induction m generalizing vs with
  | nil => simp [fillHoles]
  | cons y m ih =>
      cases vs with
      | nil => simp
      | cons v vs =>
          rw [fillHoles]
          split
          · rename_i hy
            have hv : v ≠ hole := fun hv => hvs (hv ▸ List.mem_cons_self)
            rw [List.count_cons_of_ne hv, ih fun h => hvs (List.mem_cons_of_mem v h), hy,
              List.count_cons_self, List.length_cons]
            omega
          · rename_i hy
            rw [List.count_cons_of_ne hy, ih hvs, List.count_cons_of_ne hy]

end

end Dimemas.Library.Holes
