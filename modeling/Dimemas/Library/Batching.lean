import Mathlib.Data.List.Basic
import Mathlib.Order.Lattice
/-!
# Batches of items with one key

A machine holds the items of one key back until an item of a greater key comes, or one that ends
the batch. It then arranges them and gives them on. An item of a smaller key is refused. What was
given on is what was accepted, and items that come in the order of their keys are all accepted and
given on in this order.
-/

namespace Dimemas.Library.Batching

universe u v w

structure Machine (σ : Type u) (α : Type v) (K : Type w) where
  key : α → K
  ends : α → Bool
  arrange : σ → List α → List α
  give : σ → List α → Option σ

structure State (σ : Type u) (α : Type v) where
  batch : List α
  refused : Bool
  info : σ
  given : List α

variable {σ : Type u} {α : Type v} {K : Type w}

def State.start (info : σ) : State σ α := ⟨[], false, info, []⟩

def State.accepted (s : State σ α) : List α := s.given ++ s.batch

def Machine.flush (m : Machine σ α K) (s : State σ α) : Option (State σ α) :=
  match s.batch with
  | [] => some s
  | _ :: _ =>
      (m.give s.info (m.arrange s.info s.batch)).map fun info =>
        ⟨[], s.refused, info, s.given ++ m.arrange s.info s.batch⟩

variable [LinearOrder K]

def Machine.push (m : Machine σ α K) (s : State σ α) (a : α) : Option (State σ α) :=
  match s.batch.getLast? with
  | none => some { s with batch := [a] }
  | some last =>
      if m.key last < m.key a then
        (m.flush s).map fun s => { s with batch := [a] }
      else if m.key last = m.key a then
        let s := { s with batch := s.batch ++ [a] }
        if m.ends a then m.flush s else some s
      else some { s with refused := true }

def Machine.pushAll (m : Machine σ α K) : State σ α → List α → Option (State σ α)
  | s, [] => some s
  | s, a :: as => (m.push s a).bind fun s => m.pushAll s as

def Machine.run (m : Machine σ α K) (info : σ) (as : List α) : Option (State σ α) :=
  (m.pushAll (.start info) as).bind m.flush

section

variable {m : Machine σ α K} {s s' : State σ α} {a : α} {as : List α}

/-- A batch is arranged in some order. -/
def Machine.Arranges (m : Machine σ α K) : Prop := ∀ info as, (m.arrange info as).Perm as

omit [LinearOrder K] in
theorem flush_spec (hm : m.Arranges) (h : m.flush s = some s') :
    s'.batch = [] ∧ s'.refused = s.refused ∧
      ∃ arranged, arranged.Perm s.batch ∧ s'.given = s.given ++ arranged := by
  unfold Machine.flush at h
  split at h
  · next hbatch =>
      obtain rfl := Option.some.inj h
      exact ⟨hbatch, rfl, [], hbatch ▸ .nil, (List.append_nil _).symm⟩
  · next first rest hbatch =>
      obtain ⟨info, -, rfl⟩ := Option.map_eq_some_iff.mp h
      exact ⟨rfl, rfl, _, hm s.info s.batch, rfl⟩

theorem push_cases (h : m.push s a = some s') :
    (s.batch = [] ∧ s' = { s with batch := [a] }) ∨
      (∃ last, s.batch.getLast? = some last ∧
        ((m.key last < m.key a ∧ ∃ flushed, m.flush s = some flushed ∧
            s' = { flushed with batch := [a] }) ∨
          (m.key last = m.key a ∧ (s' = { s with batch := s.batch ++ [a] } ∨
            m.flush { s with batch := s.batch ++ [a] } = some s')) ∨
          (m.key a < m.key last ∧ s' = { s with refused := true }))) := by
  unfold Machine.push at h
  split at h
  · next hlast =>
      exact .inl ⟨List.getLast?_eq_none_iff.mp hlast, (Option.some.inj h).symm⟩
  · next last hlast =>
      refine .inr ⟨last, hlast, ?_⟩
      split at h
      · next hlt =>
          obtain ⟨flushed, hflush, rfl⟩ := Option.map_eq_some_iff.mp h
          exact .inl ⟨hlt, flushed, hflush, rfl⟩
      · next hle =>
          split at h
          · next heq =>
              refine .inr (.inl ⟨heq, ?_⟩)
              simp only at h
              split at h
              · exact .inr h
              · exact .inl (Option.some.inj h).symm
          · next hne =>
              have hgt : m.key a < m.key last :=
                lt_of_le_of_ne (not_lt.mp hle) fun heq => hne heq.symm
              exact .inr (.inr ⟨hgt, (Option.some.inj h).symm⟩)

theorem accepted_push (hm : m.Arranges) (h : m.push s a = some s') :
    (s'.accepted.Perm (s.accepted ++ [a]) ∧ s'.refused = s.refused) ∨
      (s'.accepted = s.accepted ∧ s'.refused = true) := by
  rcases push_cases h with ⟨hempty, rfl⟩ |
    ⟨last, -, ⟨-, flushed, hflush, rfl⟩ | ⟨-, hsame⟩ | ⟨-, rfl⟩⟩
  · left
    constructor
    · simp only [State.accepted, hempty, List.append_nil]
      exact .refl _
    · rfl
  · left
    obtain ⟨-, hrefused, arranged, hperm, hgiven⟩ := flush_spec hm hflush
    constructor
    · simp only [State.accepted, hgiven]
      exact ((hperm.append_left s.given).append_right [a])
    · exact hrefused
  · left
    rcases hsame with rfl | hflush
    · constructor
      · simp only [State.accepted, List.append_assoc]
        exact .refl _
      · rfl
    · obtain ⟨hbatch, hrefused, arranged, hperm, hgiven⟩ := flush_spec hm hflush
      constructor
      · simp only [State.accepted, hgiven, hbatch, List.append_nil, List.append_assoc]
        exact hperm.append_left s.given
      · exact hrefused
  · exact .inr ⟨rfl, rfl⟩

/-- The items that are accepted are some of those that come, and all of them exactly if none was
noted. -/
theorem accepted_pushAll (hm : m.Arranges) (h : m.pushAll s as = some s') :
    ∃ taken : List α, taken.Sublist as ∧ s'.accepted.Perm (s.accepted ++ taken) ∧
      (s'.refused = false ↔ s.refused = false ∧ taken = as) := by
  induction as generalizing s with
  | nil =>
      obtain rfl := Option.some.inj h
      exact ⟨[], .slnil, by rw [List.append_nil], by simp⟩
  | cons a as ih =>
      obtain ⟨s₁, hpush, hrest⟩ := Option.bind_eq_some_iff.mp h
      obtain ⟨taken, hsub, hperm, hrefused⟩ := ih hrest
      rcases accepted_push hm hpush with ⟨haccepted, hsame⟩ | ⟨haccepted, htrue⟩
      · refine ⟨a :: taken, hsub.cons_cons a, ?_, ?_⟩
        · have happend := haccepted.append_right taken
          rw [List.append_assoc, List.singleton_append] at happend
          exact hperm.trans happend
        · rw [hrefused, hsame, List.cons_inj_right]
      · refine ⟨taken, hsub.cons a, haccepted ▸ hperm, ?_⟩
        rw [hrefused, htrue]
        constructor
        · rintro ⟨hfalse, -⟩
          cases hfalse
        · rintro ⟨-, heq⟩
          have hlength := hsub.length_le
          rw [heq, List.length_cons] at hlength
          omega

/-- The batch has one key, and everything is in the order of the keys. -/
structure InOrder (m : Machine σ α K) (s : State σ α) : Prop where
  one : ∀ a ∈ s.batch, ∀ b ∈ s.batch, m.key a = m.key b
  ordered : s.accepted.Pairwise fun a b => m.key a ≤ m.key b

theorem inOrder_start (info : σ) : InOrder m (.start info) :=
  ⟨fun _ ha => (by cases ha), .nil⟩

theorem InOrder.flush (hm : m.Arranges) (h : InOrder m s) (hflush : m.flush s = some s') :
    InOrder m s' := by
  obtain ⟨hbatch, -, arranged, hperm, hgiven⟩ := flush_spec hm hflush
  have hone : ∀ a ∈ s'.batch, ∀ b ∈ s'.batch, m.key a = m.key b := by
    intro a ha
    rw [hbatch] at ha
    cases ha
  refine ⟨hone, ?_⟩
  obtain ⟨hold, -, hbetween⟩ := List.pairwise_append.mp h.ordered
  rw [State.accepted, hgiven, hbatch, List.append_nil]
  apply List.pairwise_append.mpr
  refine ⟨hold, List.pairwise_of_forall_mem_list fun a ha b hb => ?_, fun a ha b hb => ?_⟩
  · exact le_of_eq (h.one a (hperm.mem_iff.mp ha) b (hperm.mem_iff.mp hb))
  · exact hbetween a ha b (hperm.mem_iff.mp hb)

theorem InOrder.push (hm : m.Arranges) (h : InOrder m s)
    (hle : ∀ b ∈ s.accepted, m.key b ≤ m.key a) (hpush : m.push s a = some s') :
    InOrder m s' ∧ s'.refused = s.refused ∧ s'.accepted.Perm (s.accepted ++ [a]) := by
  have hsnoc : (s.accepted ++ [a]).Pairwise fun a b => m.key a ≤ m.key b := by
    apply List.pairwise_append.mpr
    refine ⟨h.ordered, List.pairwise_singleton _ a, fun b hb c hc => ?_⟩
    obtain rfl := List.mem_singleton.mp hc
    exact hle b hb
  have haccepted := accepted_push hm hpush
  rcases push_cases hpush with ⟨hempty, rfl⟩ |
    ⟨last, hlast, ⟨-, flushed, hflush, rfl⟩ | ⟨heq, hsame⟩ | ⟨hgt, rfl⟩⟩
  · refine ⟨⟨?_, ?_⟩, rfl, ?_⟩
    · intro b hb c hc
      rw [List.mem_singleton.mp hb, List.mem_singleton.mp hc]
    · rw [State.accepted, hempty, List.append_nil] at hsnoc
      exact hsnoc
    · rw [State.accepted, State.accepted, hempty, List.append_nil]
  · obtain ⟨hbatch, hrefused, arranged, hperm, hgiven⟩ := flush_spec hm hflush
    have hflushed := (h.flush hm hflush).ordered
    have hpermAll : flushed.accepted.Perm s.accepted := by
      rw [State.accepted, State.accepted, hgiven, hbatch, List.append_nil]
      exact hperm.append_left s.given
    rw [State.accepted, hbatch, List.append_nil] at hflushed hpermAll
    refine ⟨⟨?_, ?_⟩, hrefused, hpermAll.append_right [a]⟩
    · intro b hb c hc
      rw [List.mem_singleton.mp hb, List.mem_singleton.mp hc]
    · apply List.pairwise_append.mpr
      refine ⟨hflushed, List.pairwise_singleton _ a, fun b hb c hc => ?_⟩
      obtain rfl := List.mem_singleton.mp hc
      exact hle b (hpermAll.mem_iff.mp hb)
  · have hall : InOrder m { s with batch := s.batch ++ [a] } := by
      constructor
      · have hkey : ∀ b ∈ s.batch ++ [a], m.key b = m.key a := by
          intro b hb
          rcases List.mem_append.mp hb with hb | hb
          · exact (h.one b hb last (List.mem_of_getLast? hlast)).trans heq
          · rw [List.mem_singleton.mp hb]
        exact fun b hb c hc => (hkey b hb).trans (hkey c hc).symm
      · rw [State.accepted, ← List.append_assoc]
        exact hsnoc
    rcases hsame with rfl | hflush
    · refine ⟨hall, rfl, ?_⟩
      rw [State.accepted, State.accepted, List.append_assoc]
    · obtain ⟨hbatch, hrefused, arranged, hperm, hgiven⟩ := flush_spec hm hflush
      refine ⟨hall.flush hm hflush, hrefused, ?_⟩
      rw [State.accepted, State.accepted, hgiven, hbatch, List.append_nil, List.append_assoc]
      exact hperm.append_left s.given
  · exact absurd hgt (not_lt.mpr (hle last (List.mem_append_right _ (List.mem_of_getLast? hlast))))

theorem InOrder.pushAll (hm : m.Arranges) (h : InOrder m s)
    (hle : (s.accepted ++ as).Pairwise fun a b => m.key a ≤ m.key b)
    (hpush : m.pushAll s as = some s') :
    InOrder m s' ∧ s'.refused = s.refused := by
  induction as generalizing s with
  | nil =>
      obtain rfl := Option.some.inj hpush
      exact ⟨h, rfl⟩
  | cons a as ih =>
      obtain ⟨s₁, hfirst, hrest⟩ := Option.bind_eq_some_iff.mp hpush
      obtain ⟨-, htail, hbetween⟩ := List.pairwise_append.mp hle
      obtain ⟨hnext, hrefused, hperm⟩ :=
        h.push hm (fun b hb => hbetween b hb a List.mem_cons_self) hfirst
      have hle' : (s₁.accepted ++ as).Pairwise fun a b => m.key a ≤ m.key b := by
        apply List.pairwise_append.mpr
        refine ⟨hnext.ordered, (List.pairwise_cons.mp htail).2, fun b hb c hc => ?_⟩
        rcases List.mem_append.mp (hperm.mem_iff.mp hb) with hb | hb
        · exact hbetween b hb c (List.mem_cons_of_mem _ hc)
        · obtain rfl := List.mem_singleton.mp hb
          exact (List.pairwise_cons.mp htail).1 c hc
      obtain ⟨hlast, hrest'⟩ := ih hnext hle' hrest
      exact ⟨hlast, hrest'.trans hrefused⟩

/-- What was given on at the end is what was accepted. An item is lost exactly if one was noted. -/
theorem given_run (hm : m.Arranges) {info : σ} (h : m.run info as = some s') :
    ∃ taken : List α, taken.Sublist as ∧ s'.given.Perm taken ∧
      (s'.refused = false ↔ taken = as) := by
  obtain ⟨s, hall, hflush⟩ := Option.bind_eq_some_iff.mp h
  obtain ⟨taken, hsub, hperm, hrefused⟩ := accepted_pushAll hm hall
  obtain ⟨-, hsame, arranged, harranged, hgiven⟩ := flush_spec hm hflush
  refine ⟨taken, hsub, ?_, ?_⟩
  · rw [hgiven]
    exact (harranged.append_left s.given).trans hperm
  · rw [hsame, hrefused]
    exact and_iff_right rfl

theorem ordered_run (hm : m.Arranges) {info : σ} (h : m.run info as = some s')
    (hle : as.Pairwise fun a b => m.key a ≤ m.key b) :
    s'.refused = false ∧ s'.given.Perm as ∧
      s'.given.Pairwise fun a b => m.key a ≤ m.key b := by
  obtain ⟨s, hall, hflush⟩ := Option.bind_eq_some_iff.mp h
  obtain ⟨horder, hnone⟩ := (inOrder_start info).pushAll hm hle hall
  obtain ⟨hbatch, hsame, -⟩ := flush_spec hm hflush
  have hrefused : s'.refused = false := hsame.trans hnone
  obtain ⟨taken, -, hperm, hiff⟩ := given_run hm h
  have hordered := (horder.flush hm hflush).ordered
  rw [State.accepted, hbatch, List.append_nil] at hordered
  exact ⟨hrefused, hiff.mp hrefused ▸ hperm, hordered⟩

end

end Dimemas.Library.Batching
