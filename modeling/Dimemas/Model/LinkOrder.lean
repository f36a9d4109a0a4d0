import Dimemas.Model.LinkSteps
/-!
# The order in which links are granted

Where a node has links of its own for both directions and no link is stolen, a link that is put back
goes to the thread that has waited longest at its pool. No link of a pool is free while a thread
waits there, except for the one that was put back and is granted next.
-/

namespace Dimemas.Model.LinkOrder

open Dimemas.Library.Transitions Dimemas.Library.Reservations
open Dimemas.Model.Links Dimemas.Model.LinkOwnership Dimemas.Model.NetworkLinks
open Dimemas.Model.LinkSteps

/-- The field of a thread that refers to its link of a pool. -/
def roleOf : LinkType → LinkRole
  | .outLink => .localLink
  | .inLink => .partnerLink

def holdsLink (s : LinkState) (t : Nat) (p : LinkPool) : Bool :=
  (s.ledger.slot (t, roleOf p.type)).any fun link => decide (link ∈ s.ledger.busy p)

/-- The thread that a step puts at the end of a queue. -/
def waitsAt (p : LinkPool) (x : Transition StepState LinkStep) : List Nat :=
  (callOf x.pre x.label).toList.filter fun t => decide (t ∈ x.post.1.1.thFor p)

/-- The first thread of a queue, if a step gives it a link. -/
def servedAt (p : LinkPool) (x : Transition StepState LinkStep) : List Nat :=
  match x.label with
  | .wake =>
      if x.pre.2.head? = some p then
        (x.pre.1.1.thFor p).head?.toList.filter fun t => holdsLink x.post.1.1 t p
      else []
  | _ => []

/-- A call steals the output link that it found if there is an input link for it at a node of
finite links. -/
def Steals (s : LinkState) (t node nodePartner : Nat) : Prop :=
  StealPending s t node ∧ s.infiniteNetLinks nodePartner = false ∧
    (s.ledger.slot (t, .partnerLink) ≠ none ∨ s.ledger.free ⟨nodePartner, .inLink⟩ ≠ [])

/-- The step steals no output link. -/
def NoSteal (e : Ends) (x : Transition StepState LinkStep) : Prop :=
  ∀ t, callOf x.pre x.label = some t → ¬ Steals x.pre.1.1 t (e.node t) (e.nodePartner t)

/-- A node with finite links has links of both directions. -/
def FullDuplex (s : LinkState) : Prop :=
  ∀ n, s.infiniteNetLinks n = false → s.halfDuplexLinks n = false

variable {e : Ends} {noInput noOutput : Nat → Nat} {ph : Nat → CommPhase}
  {all : LinkPool → List Link} {s s' s₁ : LinkState} {t : Nat} {p q : LinkPool} {granted : Bool}

/-! ## One half of a call -/

/-- What a call does at one of its two pools, and whether it goes on. -/
inductive Half (s : LinkState) (t : Nat) (p : LinkPool) : Bool → LinkState → Prop
  | pass (h : s.infiniteNetLinks p.node = true ∨ s.ledger.slot (t, roleOf p.type) ≠ none) :
      Half s t p true s
  | queued (hfinite : s.infiniteNetLinks p.node = false)
      (hslot : s.ledger.slot (t, roleOf p.type) = none) (hfree : s.ledger.free p = []) :
      Half s t p false (s.linkBusy t p.node p.type)
  | taken (s' : LinkState) (hfinite : s.infiniteNetLinks p.node = false)
      (hslot : s.ledger.slot (t, roleOf p.type) = none)
      (htake : s.takeLink p t (roleOf p.type) = some s') : Half s t p true s'
  | left (hslot : s.ledger.slot (t, roleOf p.type) = none) (hfree : s.ledger.free p = []) :
      Half s t p true s

/-- A call has its output link, waits for it, or finds one to steal. -/
theorem half_of_getOutLink {node : Nat} {r : OutPhase} (hfull : FullDuplex s)
    (h : getOutLink s t node = some r) :
    (∃ s', r = .busy s' ∧ Half s t ⟨node, .outLink⟩ false s') ∨
      (∃ s', r = .goOn s' false ∧ Half s t ⟨node, .outLink⟩ true s') ∨
      r = .goOn s true ∧ StealPending s t node := by
  unfold getOutLink at h
  split at h
  · next hinfinite => exact .inr (.inl ⟨s, (Option.some.inj h).symm, .pass (.inl hinfinite)⟩)
  · next hfinite =>
      have hfinite : s.infiniteNetLinks node = false := by simpa using hfinite
      split at h
      · next link hslot =>
          refine .inr (.inl ⟨s, (Option.some.inj h).symm, .pass (.inr fun hnone => ?_)⟩)
          rw [roleOf, hslot] at hnone
          cases hnone
      · next hslot hfree =>
          obtain ⟨⟨robable, s₁⟩, hroba, hrest⟩ := Option.bind_eq_some_iff.mp h
          cases robable with
          | true =>
              obtain ⟨-, link, c, partner, hcandidate, -, hsame⟩ := robaOutLink_eq_true hroba
              have hsame : s₁ = s := hsame
              have hsome : (s.candidate node).isSome := by rw [hcandidate]; rfl
              rw [hsame] at hrest
              exact .inr (.inr ⟨(Option.some.inj hrest).symm, hfinite, hslot, hfree, hsome⟩)
          | false =>
              obtain rfl := robaOutLink_eq_false hroba
              exact .inl ⟨_, (Option.some.inj hrest).symm, .queued hfinite hslot hfree⟩
      · next hslot hfree =>
          obtain ⟨s₁, htake, hrest⟩ := Option.bind_eq_some_iff.mp h
          obtain ⟨-, -, -, hhalf, -⟩ := takeLink_eq_some htake
          have hnot : ¬ s₁.halfDuplexLinks node = true := by
            rw [hhalf, hfull node hfinite]
            exact Bool.false_ne_true
          rw [if_neg hnot] at hrest
          exact .inr (.inl ⟨s₁, (Option.some.inj hrest).symm, .taken s₁ hfinite hslot htake⟩)

theorem half_of_getInLink {node nodePartner : Nat} (hfull : FullDuplex s)
    (h : getInLink s t node nodePartner false = some (granted, s')) :
    Half s t ⟨nodePartner, .inLink⟩ granted s' := by
  unfold getInLink at h
  split at h
  · next hinfinite =>
      obtain ⟨rfl, rfl⟩ := Prod.mk.inj (Option.some.inj h)
      exact .pass (.inl hinfinite)
  · next hfinite =>
      have hfinite : s.infiniteNetLinks nodePartner = false := by simpa using hfinite
      have hhalf := hfull nodePartner hfinite
      split at h
      · next link hslot =>
          obtain ⟨rfl, rfl⟩ := Prod.mk.inj (Option.some.inj h)
          refine .pass (.inr fun hnone => ?_)
          rw [roleOf, hslot] at hnone
          cases hnone
      · next hslot hfree =>
          have hroba : robaOutLink s t nodePartner .inLink true = some (false, s) := by
            rw [robaOutLink, if_pos ⟨rfl, by rw [hhalf]; rfl⟩]
          rw [hroba] at h
          obtain ⟨rfl, rfl⟩ := Prod.mk.inj (Option.some.inj h)
          exact .queued hfinite hslot hfree
      · next hslot hfree =>
          obtain ⟨s₁, hroba, hrest⟩ := Option.bind_eq_some_iff.mp h
          obtain rfl : s = s₁ := Option.some.inj hroba
          obtain ⟨s₂, htake, hrest⟩ := Option.bind_eq_some_iff.mp hrest
          obtain ⟨-, -, -, hsame, -⟩ := takeLink_eq_some htake
          have hnot : ¬ s₂.halfDuplexLinks nodePartner = true := by
            rw [hsame, hhalf]
            exact Bool.false_ne_true
          rw [if_neg hnot] at hrest
          obtain ⟨rfl, rfl⟩ := Prod.mk.inj (Option.some.inj hrest)
          exact .taken _ hfinite hslot htake

theorem Half.fullDuplex (h : Half s t p granted s') (hfull : FullDuplex s) : FullDuplex s' := by
  cases h with
  | pass => exact hfull
  | queued => exact hfull
  | left => exact hfull
  | taken _ _ _ htake =>
      obtain ⟨-, -, hinfinite, hhalf, -⟩ := takeLink_eq_some htake
      intro n hn
      rw [hinfinite] at hn
      rw [hhalf]
      exact hfull n hn

/-- A call that found a link to steal and does not steal it goes on without a link at a partner of
infinite links, and waits for its output link at another one. -/
theorem half_of_stealPending {node nodePartner : Nat} (hfull : FullDuplex s)
    (hpending : StealPending s t node) (hsteal : ¬ Steals s t node nodePartner)
    (h : getInLink s t node nodePartner true = some (granted, s')) :
    (granted = false ∧ Half s t ⟨node, .outLink⟩ false s') ∨
      (granted = true ∧ s' = s ∧ s.infiniteNetLinks nodePartner = true) := by
  have ⟨hfinite, hslot, hfree, _⟩ := hpending
  unfold getInLink at h
  split at h
  · next hinfinite =>
      obtain ⟨rfl, rfl⟩ := Prod.mk.inj (Option.some.inj h)
      exact .inr ⟨rfl, rfl, hinfinite⟩
  · next hpartner =>
      have hpartner : s.infiniteNetLinks nodePartner = false := by simpa using hpartner
      split at h
      · next link hslotIn =>
          exact absurd ⟨hpending, hpartner, .inl (hslotIn ▸ Option.some_ne_none link)⟩ hsteal
      · next hslotIn hfreeIn =>
          have hroba : robaOutLink s t nodePartner .inLink true = some (false, s) := by
            rw [robaOutLink, if_pos ⟨rfl, by rw [hfull nodePartner hpartner]; rfl⟩]
          rw [hroba] at h
          obtain ⟨rfl, rfl⟩ := Prod.mk.inj (Option.some.inj h)
          exact .inl ⟨rfl, .queued hfinite hslot hfree⟩
      · next first rest hslotIn hfreeIn =>
          exact absurd ⟨hpending, hpartner, .inr (hfreeIn ▸ List.cons_ne_nil first rest)⟩ hsteal

theorem halves_of_getNetworkLinks {node nodePartner : Nat} (hfull : FullDuplex s)
    (hsteal : ¬ Steals s t node nodePartner) (hne : node ≠ nodePartner)
    (h : getNetworkLinks s t node nodePartner = some (granted, s')) :
    Half (s.setPartnerNode t (some nodePartner)) t ⟨node, .outLink⟩ false s' ∨
      ∃ s₁ s₂, Half (s.setPartnerNode t (some nodePartner)) t ⟨node, .outLink⟩ true s₁ ∧
        Half s₁ t ⟨nodePartner, .inLink⟩ granted s₂ ∧
        s' = if granted then s₂.setPartnerNode t none else s₂ := by
  have hfull' : FullDuplex (s.setPartnerNode t (some nodePartner)) := hfull
  unfold getNetworkLinks at h
  rw [if_neg hne] at h
  obtain ⟨out, hout, hrest⟩ := Option.bind_eq_some_iff.mp h
  rcases half_of_getOutLink hfull' hout with
    ⟨s₁, rfl, hhalf⟩ | ⟨s₁, rfl, hhalf⟩ | ⟨rfl, hpending⟩
  · obtain ⟨-, rfl⟩ := Prod.mk.inj (Option.some.inj hrest)
    exact .inl hhalf
  · obtain ⟨⟨granted', s₂⟩, hin, hlast⟩ := Option.bind_eq_some_iff.mp hrest
    right
    cases granted' with
    | true =>
        obtain ⟨rfl, rfl⟩ := Prod.mk.inj (Option.some.inj hlast)
        exact ⟨s₁, s₂, hhalf, half_of_getInLink (hhalf.fullDuplex hfull') hin, rfl⟩
    | false =>
        obtain ⟨rfl, rfl⟩ := Prod.mk.inj (Option.some.inj hlast)
        exact ⟨s₁, s₂, hhalf, half_of_getInLink (hhalf.fullDuplex hfull') hin, rfl⟩
  · obtain ⟨⟨granted', s₂⟩, hin, hlast⟩ := Option.bind_eq_some_iff.mp hrest
    rcases half_of_stealPending hfull' hpending hsteal hin with
      ⟨rfl, hhalf⟩ | ⟨rfl, rfl, hinfinite⟩
    · obtain ⟨rfl, rfl⟩ := Prod.mk.inj (Option.some.inj hlast)
      exact .inl hhalf
    · obtain ⟨rfl, rfl⟩ := Prod.mk.inj (Option.some.inj hlast)
      exact .inr ⟨_, _, .left hpending.2.1 hpending.2.2.1, .pass (.inl hinfinite), rfl⟩

/-! ## One call at a pool -/

/-- What a call does at any pool: nothing, or the thread waits there because no link is free, or it
takes a link. -/
inductive CallAt (s s' : LinkState) (t : Nat) (p : LinkPool) : Prop
  | same (hthFor : s'.thFor p = s.thFor p) (hfree : s'.ledger.free p = s.ledger.free p)
  | queued (hthFor : s'.thFor p = s.thFor p ++ [t])
      (hfree : s'.ledger.free p = s.ledger.free p) (hnone : s.ledger.free p = [])
      (hfinite : s.infiniteNetLinks p.node = false)
  | taken (hthFor : s'.thFor p = s.thFor p)
      (hfree : (s.ledger.free p).length = (s'.ledger.free p).length + 1)
      (hholds : holdsLink s' t p)

theorem holdsLink_takeLink {role : LinkRole} (hrole : role = roleOf p.type)
    (h : s.takeLink p t role = some s') : holdsLink s' t p := by
  obtain ⟨hacquire, -⟩ := takeLink_eq_some h
  obtain ⟨l, rest, -, hledger⟩ := Ledger.acquire_eq_some hacquire
  simp [holdsLink, hledger, hrole]

theorem Half.callAt_self (h : Half s t p granted s') : CallAt s s' t p := by
  cases h with
  | pass => exact .same rfl rfl
  | left => exact .same rfl rfl
  | queued hfinite _ hfree =>
      exact .queued (Function.update_self ..) rfl hfree hfinite
  | taken _ _ _ htake =>
      obtain ⟨-, hthFor, -⟩ := takeLink_eq_some htake
      have hlength := length_free_takeLink htake p
      rw [if_pos rfl] at hlength
      exact .taken (congrFun hthFor p) hlength (holdsLink_takeLink rfl htake)

theorem Half.of_ne (h : Half s t p granted s') (hne : q ≠ p) :
    s'.thFor q = s.thFor q ∧ s'.ledger.free q = s.ledger.free q := by
  cases h with
  | pass => exact ⟨rfl, rfl⟩
  | left => exact ⟨rfl, rfl⟩
  | queued => exact ⟨Function.update_of_ne hne .., rfl⟩
  | taken _ _ _ htake =>
      obtain ⟨hacquire, hthFor, -⟩ := takeLink_eq_some htake
      exact ⟨congrFun hthFor q, Ledger.free_acquire hacquire hne⟩

theorem Half.holdsLink_of_ne (h : Half s t p granted s') (htype : q.type ≠ p.type) :
    holdsLink s' t q = holdsLink s t q := by
  have hne : q ≠ p := fun heq => htype (congrArg LinkPool.type heq)
  cases h with
  | pass => rfl
  | left => rfl
  | queued => rfl
  | taken _ _ _ htake =>
      obtain ⟨hacquire, -⟩ := takeLink_eq_some htake
      obtain ⟨l, rest, -, hledger⟩ := Ledger.acquire_eq_some hacquire
      have hrole : (t, roleOf q.type) ≠ (t, roleOf p.type) := by
        intro heq
        have hroles := (Prod.mk.inj heq).2
        cases hq : q.type <;> cases hp : p.type <;> simp [hq, hp, roleOf] at hroles htype
      simp [holdsLink, hledger, Function.update_of_ne hne, Function.update_of_ne hrole]

theorem callAt_of_getNetworkLinks {node nodePartner : Nat} (hfull : FullDuplex s)
    (hsteal : ¬ Steals s t node nodePartner)
    (h : getNetworkLinks s t node nodePartner = some (granted, s')) (q : LinkPool) :
    CallAt s s' t q := by
  by_cases hsame : node = nodePartner
  · rw [getNetworkLinks, if_pos hsame] at h
    obtain ⟨-, rfl⟩ := Prod.mk.inj (Option.some.inj h)
    exact .same rfl rfl
  have hpartner : ∀ s' partner, CallAt (s.setPartnerNode t partner) s' t q → CallAt s s' t q := by
    intro s' partner hcall
    cases hcall with
    | same hthFor hfree => exact .same hthFor hfree
    | queued hthFor hfree hnone hfinite => exact .queued hthFor hfree hnone hfinite
    | taken hthFor hfree hholds => exact .taken hthFor hfree hholds
  rcases halves_of_getNetworkLinks hfull hsteal hsame h with hout | ⟨s₁, s₂, hout, hin, rfl⟩
  · apply hpartner s' (some nodePartner)
    by_cases hq : q = ⟨node, .outLink⟩
    · exact hq ▸ hout.callAt_self
    · obtain ⟨hthFor, hfree⟩ := hout.of_ne hq
      exact .same hthFor hfree
  · have hlast : ∀ s₂ : LinkState, CallAt (s.setPartnerNode t (some nodePartner)) s₂ t q →
        CallAt s (if granted then s₂.setPartnerNode t none else s₂) t q := by
      intro s₂ hcall
      have hcall := hpartner s₂ _ hcall
      split
      · cases hcall with
        | same hthFor hfree => exact .same hthFor hfree
        | queued hthFor hfree hnone hfinite => exact .queued hthFor hfree hnone hfinite
        | taken hthFor hfree hholds => exact .taken hthFor hfree hholds
      · exact hcall
    apply hlast
    by_cases hqin : q = ⟨nodePartner, .inLink⟩
    · have hne : q ≠ ⟨node, .outLink⟩ := by
        rw [hqin]
        exact fun heq => by cases heq
      obtain ⟨hthFor, hfree⟩ := hout.of_ne hne
      have hinfinite : s₁.infiniteNetLinks = s.infiniteNetLinks := by
        cases hout with
        | pass => rfl
        | left => rfl
        | taken _ _ _ htake => exact (takeLink_eq_some htake).2.2.1
      subst hqin
      cases hin.callAt_self with
      | same hthFor' hfree' => exact .same (hthFor'.trans hthFor) (hfree'.trans hfree)
      | queued hthFor' hfree' hnone hfinite =>
          refine .queued ?_ (hfree'.trans hfree) (hfree ▸ hnone) (hinfinite ▸ hfinite)
          rw [hthFor', hthFor]
      | taken hthFor' hfree' hholds => exact .taken (hthFor'.trans hthFor) (hfree ▸ hfree') hholds
    · obtain ⟨hthFor, hfree⟩ := hin.of_ne hqin
      by_cases hqout : q = ⟨node, .outLink⟩
      · subst hqout
        have hholds := hin.holdsLink_of_ne (q := ⟨node, .outLink⟩) fun heq => by cases heq
        cases hout.callAt_self with
        | same hthFor' hfree' => exact .same (hthFor.trans hthFor') (hfree.trans hfree')
        | queued hthFor' hfree' hnone hfinite =>
            exact .queued (hthFor.trans hthFor') (hfree.trans hfree') hnone hfinite
        | taken hthFor' hfree' hheld =>
            exact .taken (hthFor.trans hthFor') (hfree.symm ▸ hfree') (hholds.trans hheld)
      · obtain ⟨hthFor', hfree'⟩ := hout.of_ne hqout
        exact .same (hthFor.trans hthFor') (hfree.trans hfree')

/-- What a call does at a pool where it takes a link. -/
structure Taken (s s' : LinkState) (t : Nat) (p : LinkPool) : Prop where
  thFor : s'.thFor p = s.thFor p
  free : (s.ledger.free p).length = (s'.ledger.free p).length + 1
  holds : holdsLink s' t p

theorem Half.taken_of_free (h : Half s t p granted s') (hfinite : s.infiniteNetLinks p.node = false)
    (hslot : s.ledger.slot (t, roleOf p.type) = none) (hfree : s.ledger.free p ≠ []) :
    granted = true ∧ Taken s s' t p := by
  cases h with
  | pass hpass =>
      rcases hpass with hinfinite | hsome
      · rw [hfinite] at hinfinite
        cases hinfinite
      · exact absurd hslot hsome
  | queued _ _ hnone => exact absurd hnone hfree
  | left _ hnone => exact absurd hnone hfree
  | taken s₁ _ _ htake =>
      obtain ⟨-, hthFor, -⟩ := takeLink_eq_some htake
      have hlength := length_free_takeLink htake p
      rw [if_pos rfl] at hlength
      exact ⟨rfl, congrFun hthFor p, hlength, holdsLink_takeLink rfl htake⟩

/-- A thread that was woken up at a pool with a free link takes one there. -/
theorem taken_of_woken (h : LinkInv e all ph s) (hfull : FullDuplex s)
    (hsteal : ¬ Steals s t (e.node t) (e.nodePartner t)) (hne : e.node t ≠ e.nodePartner t)
    (hphase : (ph t = .idle ∧ p = ⟨e.node t, .outLink⟩) ∨
      (ph t = .holdsOut ∧ p = ⟨e.nodePartner t, .inLink⟩))
    (hfinite : s.infiniteNetLinks p.node = false) (hfree : s.ledger.free p ≠ [])
    (hcall : getNetworkLinks s t (e.node t) (e.nodePartner t) = some (granted, s')) :
    Taken s s' t p := by
  have hlast : ∀ s₂ : LinkState, Taken s s₂ t p →
      Taken s (if granted then s₂.setPartnerNode t none else s₂) t p := by
    intro s₂ htaken
    split
    · exact ⟨htaken.thFor, htaken.free, htaken.holds⟩
    · exact htaken
  have hhalves := halves_of_getNetworkLinks hfull hsteal hne hcall
  rcases hphase with ⟨hidle, rfl⟩ | ⟨hholdsOut, rfl⟩
  · have hslot : s.ledger.slot (t, .localLink) = none := h.slot_eq_none (by rw [hidle]; rfl)
    rcases hhalves with hout | ⟨s₁, s₂, hout, hin, rfl⟩
    · obtain ⟨hfalse, -⟩ := hout.taken_of_free hfinite hslot hfree
      cases hfalse
    · obtain ⟨-, htaken⟩ := hout.taken_of_free hfinite hslot hfree
      have hpools : (⟨e.node t, .outLink⟩ : LinkPool) ≠ ⟨e.nodePartner t, .inLink⟩ := by simp
      obtain ⟨hthFor, hfree'⟩ := hin.of_ne hpools
      have hholds := hin.holdsLink_of_ne (q := ⟨e.node t, .outLink⟩) fun heq => by cases heq
      apply hlast
      exact ⟨hthFor.trans htaken.thFor, hfree' ▸ htaken.free, hholds.trans htaken.holds⟩
  · have hpass : ∀ {granted s₁}, Half (s.setPartnerNode t (some (e.nodePartner t))) t
        ⟨e.node t, .outLink⟩ granted s₁ →
        granted = true ∧ s₁ = s.setPartnerNode t (some (e.nodePartner t)) := by
      intro granted s₁ hout
      have hown : s.infiniteNetLinks (e.node t) = false →
          s.ledger.slot (t, .localLink) ≠ none := by
        intro hnode hnone
        have huses : e.uses s (t, .localLink) := by rw [uses_localLink hne, hnode]; rfl
        obtain ⟨l, -, hslot⟩ := h.exists_slot huses (by rw [hholdsOut]; rfl)
        rw [hnone] at hslot
        cases hslot
      cases hout with
      | pass => exact ⟨rfl, rfl⟩
      | left => exact ⟨rfl, rfl⟩
      | queued hnode hnone => exact absurd hnone (hown hnode)
      | taken _ hnode hnone => exact absurd hnone (hown hnode)
    have hslot : s.ledger.slot (t, .partnerLink) = none := h.slot_eq_none (by rw [hholdsOut]; rfl)
    rcases hhalves with hout | ⟨s₁, s₂, hout, hin, rfl⟩
    · obtain ⟨hfalse, -⟩ := hpass hout
      cases hfalse
    · obtain ⟨-, rfl⟩ := hpass hout
      obtain ⟨-, htaken⟩ := hin.taken_of_free hfinite hslot hfree
      apply hlast
      exact ⟨htaken.thFor, htaken.free, htaken.holds⟩

/-! ## The queues -/

/-- No link of a pool is free while a thread waits there, but for the one that was put back. -/
structure InOrder (e : Ends) (s : StepState) : Prop where
  finite : ∀ p, s.1.1.thFor p ≠ [] → s.1.1.infiniteNetLinks p.node = false
  apart : ∀ p, ∀ t ∈ s.1.1.thFor p, e.node t ≠ e.nodePartner t
  none : ∀ p, p ∉ s.2 → s.1.1.thFor p ≠ [] → s.1.1.ledger.free p = []
  one : ∀ p ∈ s.2, s.1.1.ledger.free p ≠ [] ∧
    (s.1.1.thFor p ≠ [] → (s.1.1.ledger.free p).length = 1)
  single : s.2 = [] ∨ ∃ p, s.2 = [p]

theorem not_mem_of_ready (h : LinkInv e all ph s) (hready : (ph t).Ready) (p : LinkPool) :
    t ∉ s.thFor p := fun hmem => hready.not_waiting (h.waiting hmem)

theorem CallAt.queue (h : CallAt s s' t p) (hmem : t ∉ s.thFor p)
    (hnone : s.thFor p ≠ [] → s.ledger.free p = [])
    (hfinite : s.thFor p ≠ [] → s.infiniteNetLinks p.node = false) :
    s'.thFor p = s.thFor p ++ [t].filter (fun t => decide (t ∈ s'.thFor p)) ∧
      (s'.thFor p ≠ [] → s'.ledger.free p = [] ∧ s.infiniteNetLinks p.node = false) := by
  cases h with
  | same hthFor hfree =>
      rw [hthFor, hfree]
      refine ⟨?_, fun hne => ⟨hnone hne, hfinite hne⟩⟩
      simp [hmem]
  | queued hthFor hfree hempty hnode =>
      rw [hthFor, hfree]
      refine ⟨?_, fun _ => ⟨hempty, hnode⟩⟩
      simp
  | taken hthFor hfree _ =>
      rw [hthFor]
      refine ⟨by simp [hmem], fun hne => ?_⟩
      rw [hnone hne] at hfree
      cases hfree

/-! ## Steps -/

variable {x x' : NetState}

theorem fullDuplex_of_stepInv (h : StepInv e noInput noOutput ph x)
    (hfull : ∀ n, noInput n = 0 ↔ noOutput n = 0) : FullDuplex x.1 := by
  intro n hn
  rw [h.infinite] at hn
  rw [h.half]
  have hn : ¬ (noInput n = 0 ∧ noOutput n = 0) := by simpa [LinkState.init] using hn
  have hnot : noInput n ≠ 0 ∧ noOutput n ≠ 0 := by
    have hiff := hfull n
    tauto
  simp [LinkState.init, hnot.1, hnot.2]

theorem call_step {t : Nat} {links : LinkState} (h : LinkInv e all ph s) (hready : (ph t).Ready)
    (hfull : FullDuplex s) (hsteal : ¬ Steals s t (e.node t) (e.nodePartner t))
    (hnone : s.thFor p ≠ [] → s.ledger.free p = [])
    (hfinite : s.thFor p ≠ [] → s.infiniteNetLinks p.node = false)
    (hapart : ∀ u ∈ s.thFor p, e.node u ≠ e.nodePartner u)
    (hcall : getNetworkLinks s t (e.node t) (e.nodePartner t) = some (granted, links)) :
    links.thFor p = s.thFor p ++ [t].filter (fun t => decide (t ∈ links.thFor p)) ∧
      (links.thFor p ≠ [] → links.ledger.free p = [] ∧ s.infiniteNetLinks p.node = false) ∧
      ∀ u ∈ links.thFor p, e.node u ≠ e.nodePartner u := by
  have hmem := not_mem_of_ready h hready p
  obtain ⟨hthFor, hqueue⟩ :=
    (callAt_of_getNetworkLinks hfull hsteal hcall p).queue hmem hnone hfinite
  refine ⟨hthFor, hqueue, fun u hu => ?_⟩
  by_cases hut : u ∈ s.thFor p
  · exact hapart u hut
  · have hnew : u ∈ s.thFor p ++ [t].filter (fun t => decide (t ∈ links.thFor p)) := hthFor ▸ hu
    have hself : u = t :=
      List.mem_singleton.mp (List.mem_filter.mp ((List.mem_append.mp hnew).resolve_left hut)).1
    rintro heq
    rw [hself] at heq
    rw [getNetworkLinks, if_pos heq] at hcall
    obtain ⟨-, rfl⟩ := Prod.mk.inj (Option.some.inj hcall)
    exact hut hu

def Served (p : LinkPool) (tr : Transition StepState LinkStep) : Prop :=
  tr.pre.1.1.thFor p ++ waitsAt p tr = servedAt p tr ++ tr.post.1.1.thFor p

theorem infinite_getLinks {t : Nat} (h : LinkInv e all ph x.1) (hready : (ph t).Ready)
    (hget : getLinks e x t = some x') : x'.1.infiniteNetLinks = x.1.infiniteNetLinks := by
  obtain ⟨⟨granted, links⟩, hcall, hrest⟩ := Option.bind_eq_some_iff.mp hget
  obtain rfl := Option.some.inj hrest
  exact (h.getNetworkLinks_cases hready hcall).1

theorem step_get {s s' : StepState} {t : Nat} (h : StepInv e noInput noOutput ph s.1)
    (hfull : FullDuplex s.1.1) (hin : InOrder e s)
    (hsteal : NoSteal e ⟨s, .get t, s'⟩) (hstep : linkStep e s (.get t) = some s') :
    InOrder e s' ∧ ∀ p, Served p ⟨s, .get t, s'⟩ := by
  simp only [linkStep] at hstep
  split at hstep
  · next henabled =>
      obtain ⟨x', hget, rfl⟩ := Option.map_eq_some_iff.mp hstep
      have hready := ready_of_status h henabled.2
      have hinfinite := infinite_getLinks h.links hready hget
      obtain ⟨⟨granted, links⟩, hcall, hrest⟩ := Option.bind_eq_some_iff.mp hget
      obtain rfl := Option.some.inj hrest
      have hcallStep := fun p => call_step h.links hready hfull (hsteal t rfl)
        (hin.none p (by rw [henabled.1]; exact List.not_mem_nil)) (hin.finite p) (hin.apart p) hcall
      constructor
      · constructor
        · intro p hne
          have hfinite : s.1.1.infiniteNetLinks p.node = false := ((hcallStep p).2.1 hne).2
          rw [← hinfinite] at hfinite
          exact hfinite
        · exact fun p => (hcallStep p).2.2
        · exact fun p _ hne => ((hcallStep p).2.1 hne).1
        · intro p hp
          cases hp
        · exact .inl rfl
      · intro p
        exact (hcallStep p).1.symm
  · cases hstep

theorem putBackLinks_full {links : LinkState} {link : Link}
    (hhalf : s.halfDuplexLinks link.node = false) (h : putBackLinks s link t = some links) :
    links = { s with ledger := s.ledger.putBack link.pool link } := by
  obtain ⟨s₁, hput, hrest⟩ := Option.bind_eq_some_iff.mp h
  obtain rfl := putBack_eq_some hput
  have hnot : ¬ s.halfDuplexLinks link.node = true := by rw [hhalf]; exact Bool.false_ne_true
  rw [if_neg hnot] at hrest
  exact (Option.some.inj hrest).symm

theorem step_release {s s' : StepState} {st : CommStatus} {role : LinkRole} {t : Nat}
    (h : StepInv e noInput noOutput ph s.1) (hfull : FullDuplex s.1.1) (hin : InOrder e s)
    (hnext : s.2 = []) (hown : ∀ link, s.1.1.ledger.slot (t, role) = some link →
      (ph t).hold role = .owned)
    (hrelease : releaseLink (s.1.setStatus t st) t role = some s') :
    InOrder e s' ∧ ∀ p, s'.1.1.thFor p = s.1.1.thFor p := by
  have hnone : ∀ p, s.1.1.thFor p ≠ [] → s.1.1.ledger.free p = [] :=
    fun p => hin.none p (by rw [hnext]; exact List.not_mem_nil)
  unfold releaseLink at hrelease
  split at hrelease
  · obtain rfl := Option.some.inj hrelease
    refine ⟨⟨hin.finite, hin.apart, fun p _ => hnone p, fun p hp => ?_, .inl rfl⟩, fun p => rfl⟩
    cases hp
  · next link hslot =>
      have hslot : s.1.1.ledger.slot (t, role) = some link := hslot
      obtain ⟨links, hput, rfl⟩ := Option.map_eq_some_iff.mp hrelease
      obtain ⟨huses, hpool⟩ := h.links.pool_of_slot (hown link hslot) hslot
      have hfinite : s.1.1.infiniteNetLinks link.node = false := by
        have hnode : link.node = (e.pool (t, role)).node := congrArg LinkPool.node hpool
        simp only [Ends.uses, Bool.and_eq_true, Bool.not_eq_true'] at huses
        rw [hnode]
        exact huses.1.2
      have hhalf := hfull link.node hfinite
      obtain rfl := putBackLinks_full hhalf hput
      have hnot : ¬ s.1.1.halfDuplexLinks link.node = true := by
        rw [hhalf]
        exact Bool.false_ne_true
      have hfree : ∀ p, ((s.1.1.ledger.putBack link.pool link).free p).length =
          (s.1.1.ledger.free p).length + if p = link.pool then 1 else 0 :=
        fun p => Ledger.length_free_putBack link.pool p
      rw [if_neg hnot]
      refine ⟨⟨hin.finite, hin.apart, fun p hp hne => ?_, fun p hp => ?_, .inr ⟨_, rfl⟩⟩,
        fun p => rfl⟩
      · have hother : p ≠ link.pool := fun heq => hp (List.mem_singleton.mpr heq)
        have hlength := hfree p
        rw [if_neg hother, hnone p hne] at hlength
        exact List.length_eq_zero_iff.mp hlength
      · obtain rfl := List.mem_singleton.mp hp
        have hlength := hfree link.pool
        rw [if_pos rfl] at hlength
        refine ⟨fun hempty => ?_, fun hne => ?_⟩
        · have hzero : ((s.1.1.ledger.putBack link.pool link).free link.pool).length = 0 :=
            List.length_eq_zero_iff.mpr hempty
          omega
        · rw [hnone link.pool hne] at hlength
          exact hlength

theorem step_woken {x : NetState} {p₀ : LinkPool} {first : Nat} {rest : List Nat} {x' : NetState}
    (h : StepInv e noInput noOutput ph x) (hfull : FullDuplex x.1) (hin : InOrder e (x, [p₀]))
    (hthFor : x.1.thFor p₀ = first :: rest)
    (hsteal : ¬ Steals x.1 first (e.node first) (e.nodePartner first))
    (hget : getLinks e ({ x.1 with thFor := Function.update x.1.thFor p₀ rest }, x.2) first =
      some x') :
    InOrder e (x', []) ∧ ∀ p, Served p ⟨(x, [p₀]), .wake, (x', [])⟩ := by
  have hmem : first ∈ x.1.thFor p₀ := by rw [hthFor]; exact List.mem_cons_self
  have hne : x.1.thFor p₀ ≠ [] := List.ne_nil_of_mem hmem
  have hwoken := h.links.wake hthFor
  have hself : (Function.update ph first (ph first).woken) first = (ph first).woken :=
    Function.update_self ..
  have hready : ((Function.update ph first (ph first).woken) first).Ready := by
    rw [hself]
    exact ((h.links.waiting hmem).woken).imp_right .inl
  have hinfinite := infinite_getLinks hwoken hready hget
  obtain ⟨⟨granted, links⟩, hcall, hrest⟩ := Option.bind_eq_some_iff.mp hget
  obtain rfl := Option.some.inj hrest
  have hphase : ((Function.update ph first (ph first).woken) first = .idle ∧
      p₀ = ⟨e.node first, .outLink⟩) ∨
      ((Function.update ph first (ph first).woken) first = .holdsOut ∧
        p₀ = ⟨e.nodePartner first, .inLink⟩) := by
    rw [hself]
    rcases (h.links.queued first p₀).mp hmem with ⟨hwait, hpool⟩ | ⟨hwait, hpool⟩
    · exact .inl ⟨by rw [hwait]; rfl, hpool⟩
    · exact .inr ⟨by rw [hwait]; rfl, hpool⟩
  obtain ⟨hfree, hone⟩ := hin.one p₀ (List.mem_singleton.mpr rfl)
  have htaken : Taken _ links first p₀ := taken_of_woken hwoken hfull hsteal
    (hin.apart p₀ first hmem) hphase (hin.finite p₀ hne) hfree hcall
  have hqueue : links.thFor p₀ = rest := by
    rw [htaken.thFor]
    exact Function.update_self ..
  have hempty : links.ledger.free p₀ = [] := by
    have hlength : (x.1.ledger.free p₀).length = (links.ledger.free p₀).length + 1 := htaken.free
    rw [hone hne] at hlength
    exact List.length_eq_zero_iff.mp (by omega)
  have hother : ∀ p, p ≠ p₀ → Function.update x.1.thFor p₀ rest p = x.1.thFor p :=
    fun p hp => Function.update_of_ne hp ..
  have hcallStep : ∀ p, p ≠ p₀ → links.thFor p =
      x.1.thFor p ++ [first].filter (fun t => decide (t ∈ links.thFor p)) ∧
        (links.thFor p ≠ [] → links.ledger.free p = [] ∧ x.1.infiniteNetLinks p.node = false) ∧
        ∀ u ∈ links.thFor p, e.node u ≠ e.nodePartner u := by
    intro p hp
    have hstep := fun hnone hfinite hapart =>
      call_step (p := p) hwoken hready hfull hsteal hnone hfinite hapart hcall
    simp only [hother p hp] at hstep
    exact hstep (hin.none p fun hin => hp (List.mem_singleton.mp hin)) (hin.finite p) (hin.apart p)
  constructor
  · constructor
    · intro p hp
      show links.infiniteNetLinks p.node = false
      have hsame : links.infiniteNetLinks = x.1.infiniteNetLinks := hinfinite
      rw [hsame]
      by_cases hpool : p = p₀
      · rw [hpool]
        exact hin.finite p₀ hne
      · exact ((hcallStep p hpool).2.1 hp).2
    · intro p u hu
      by_cases hpool : p = p₀
      · have hu : u ∈ rest := by
          rw [← hqueue, ← hpool]
          exact hu
        apply hin.apart p₀ u
        rw [hthFor]
        exact List.mem_cons_of_mem _ hu
      · exact (hcallStep p hpool).2.2 u hu
    · intro p _ hp
      by_cases hpool : p = p₀
      · rw [hpool]
        exact hempty
      · exact ((hcallStep p hpool).2.1 hp).1
    · intro p hp
      cases hp
    · exact .inl rfl
  · intro p
    have hcallOf : callOf (x, [p₀]) .wake = some first := by
      show (x.1.thFor p₀).head? = some first
      rw [hthFor]
      rfl
    unfold Served waitsAt servedAt
    simp only [hcallOf, Option.toList_some, List.head?_cons, Option.some.injEq]
    by_cases hpool : p = p₀
    · subst hpool
      have hnot : first ∉ rest := by
        have hnodup := h.links.nodup p
        rw [hthFor] at hnodup
        exact (List.nodup_cons.mp hnodup).1
      rw [hqueue, hthFor, if_pos rfl]
      simp [hnot, htaken.holds]
    · have hdiffers : ¬ p₀ = p := fun heq => hpool heq.symm
      rw [if_neg hdiffers, List.nil_append]
      exact (hcallStep p hpool).1.symm

theorem step_wake {s s' : StepState} (h : StepInv e noInput noOutput ph s.1)
    (hfull : FullDuplex s.1.1) (hin : InOrder e s)
    (hsteal : NoSteal e ⟨s, .wake, s'⟩) (hstep : linkStep e s .wake = some s') :
    InOrder e s' ∧ ∀ p, Served p ⟨s, .wake, s'⟩ := by
  obtain ⟨x, pools⟩ := s
  have hsingle := hin.single
  cases pools with
  | nil => cases hstep
  | cons p₀ ps =>
      obtain rfl : ps = [] := by
        rcases hsingle with hnil | ⟨p, hone⟩
        · cases hnil
        · exact (List.cons.inj hone).2
      obtain ⟨x', hwake, rfl⟩ := Option.map_eq_some_iff.mp hstep
      unfold wakeFirst at hwake
      split at hwake
      · next hempty =>
          obtain rfl := Option.some.inj hwake
          refine ⟨⟨hin.finite, hin.apart, fun p _ hne => ?_, fun p hp => ?_, .inl rfl⟩, fun p => ?_⟩
          · apply hin.none p _ hne
            intro hmem
            rw [List.mem_singleton.mp hmem] at hne
            exact hne hempty
          · cases hp
          · have hcallOf : callOf (x, [p₀]) .wake = none := by
              show (x.1.thFor p₀).head? = none
              rw [hempty]
              rfl
            unfold Served waitsAt servedAt
            simp only [hcallOf, List.head?_cons, Option.some.injEq]
            by_cases hpool : p₀ = p
            · subst hpool
              have hqueue : x.1.thFor p₀ = [] := hempty
              simp [hqueue]
            · simp [hpool]
      · next first rest hthFor =>
          apply step_woken h hfull hin hthFor _ hwake
          apply hsteal first
          show (x.1.thFor p₀).head? = some first
          rw [hthFor]
          rfl

theorem inOrder_step {s s' : StepState} {l : LinkStep} (h : StepInv e noInput noOutput ph s.1)
    (hfull : FullDuplex s.1.1) (hin : InOrder e s) (hsteal : NoSteal e ⟨s, l, s'⟩)
    (hstep : linkStep e s l = some s') : InOrder e s' ∧ ∀ p, Served p ⟨s, l, s'⟩ := by
  have hempty : ∀ {t}, ph t = .idle → ∀ {role link}, s.1.1.ledger.slot (t, role) = some link →
      False := by
    intro t hidle role link hslot
    have hnone : s.1.1.ledger.slot (t, role) = none :=
      h.links.slot_eq_none (by rw [hidle]; cases role <;> rfl)
    rw [hnone] at hslot
    cases hslot
  cases l with
  | get t => exact step_get h hfull hin hsteal hstep
  | wake => exact step_wake h hfull hin hsteal hstep
  | freeLocal t =>
      simp only [linkStep] at hstep
      split at hstep
      · next inSide hnext hstatus =>
          have hmatches := h.agrees t
          rw [hstatus] at hmatches
          obtain ⟨hin', hthFor⟩ := step_release h hfull hin hnext (fun link hslot => by
            rcases hmatches with hgranted | hidle
            · rw [hgranted]
              rfl
            · exact (hempty hidle hslot).elim) hstep
          refine ⟨hin', fun p => ?_⟩
          show s.1.1.thFor p ++ [] = [] ++ s'.1.1.thFor p
          rw [hthFor p, List.append_nil, List.nil_append]
      · cases hstep
  | freePartner t =>
      simp only [linkStep] at hstep
      split at hstep
      · next outSide hnext hstatus =>
          have hmatches := h.agrees t
          rw [hstatus] at hmatches
          obtain ⟨hin', hthFor⟩ := step_release h hfull hin hnext (fun link hslot => by
            rcases hmatches with hgranted | hidle
            · rw [hgranted]
              rfl
            · exact (hempty hidle hslot).elim) hstep
          refine ⟨hin', fun p => ?_⟩
          show s.1.1.thFor p ++ [] = [] ++ s'.1.1.thFor p
          rw [hthFor p, List.append_nil, List.nil_append]
      · cases hstep

/-! ## Runs -/

theorem inOrder_init : InOrder e (.init noInput noOutput, []) :=
  ⟨fun _ hne => absurd rfl hne, fun _ _ hu => (by cases hu), fun _ _ hne => absurd rfl hne,
    fun _ hp => (by cases hp), .inl rfl⟩

instance (s : LinkState) (t node : Nat) : Decidable (StealPending s t node) :=
  inferInstanceAs (Decidable (_ ∧ _))

instance (s : LinkState) (t node nodePartner : Nat) : Decidable (Steals s t node nodePartner) :=
  inferInstanceAs (Decidable (_ ∧ _ ∧ _))

instance (e : Ends) (x : Transition StepState LinkStep) : Decidable (NoSteal e x) :=
  inferInstanceAs (Decidable (∀ t ∈ callOf x.pre x.label,
    ¬ Steals x.pre.1.1 t (e.node t) (e.nodePartner t)))

def oneWay : Ends := ⟨fun _ => 0, fun _ => 1⟩

/-- The second communication is served first, and it then waits for the input link. The fourth one
finds its output link, but there is no input link to steal it for. -/
def queueing : List LinkStep :=
  [.get 0, .get 1, .get 2, .freeLocal 0, .wake, .get 3, .freePartner 0, .wake]

end Dimemas.Model.LinkOrder
