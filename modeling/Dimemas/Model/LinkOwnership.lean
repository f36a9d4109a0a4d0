import Dimemas.Model.Links
/-!
# Which communication owns which link

The invariant of the link state: the links of every pool are free or busy, no busy
link serves two communications, a communication that waits for its input link owns
its output link, one that waits for its output link owns nothing, and one whose
links were granted owns both. `LINKS_get_network_links` and
`LINKS_free_network_link` keep it, as long as no link is granted in advance to a
communication with a partner of infinite links.
-/

namespace Dimemas.Model.LinkOwnership

open Dimemas.Library.Reservations
open Dimemas.Model.Links

/-- How far a communication is: it has nothing (`idle`), waits in `th_for_out`, has its output
link, waits in `th_for_in`, or was granted its links; the flags say which side has not
been released since. -/
inductive CommPhase
  | idle | waitOut | holdsOut | waitIn
  | granted (outSide inSide : Bool)
deriving DecidableEq, Repr

def CommPhase.localHold : CommPhase → Hold
  | .idle | .waitOut => .empty
  | .holdsOut | .waitIn => .owned
  | .granted outSide _ => if outSide then .owned else .stale

def CommPhase.partnerHold : CommPhase → Hold
  | .granted _ inSide => if inSide then .owned else .stale
  | _ => .empty

/-- The nodes of the sender and of the receiver of every communication. -/
structure Ends where
  node : Nat → Nat
  nodePartner : Nat → Nat

def Ends.pool (e : Ends) : Nat × LinkRole → LinkPool
  | (t, .localLink) => ⟨e.node t, .outLink⟩
  | (t, .localHdLink) => ⟨e.node t, .inLink⟩
  | (t, .partnerLink) => ⟨e.nodePartner t, .inLink⟩
  | (t, .partnerHdLink) => ⟨e.nodePartner t, .outLink⟩

/-- The field refers to a link whenever the communication has that side. -/
def Ends.uses (e : Ends) (s : LinkState) (k : Nat × LinkRole) : Bool :=
  e.node k.1 ≠ e.nodePartner k.1 && !s.infiniteNetLinks (e.pool k).node &&
    match k.2 with
    | .localLink | .partnerLink => true
    | .localHdLink | .partnerHdLink => s.halfDuplexLinks (e.pool k).node

def CommPhase.hold (q : CommPhase) : LinkRole → Hold
  | .localLink | .localHdLink => q.localHold
  | .partnerLink | .partnerHdLink => q.partnerHold

/-- What the fields of the threads may be relied on for, by the phases of the communications. -/
def Ends.hold (e : Ends) (s : LinkState) (ph : Nat → CommPhase) (k : Nat × LinkRole) : Hold :=
  if e.uses s k then (ph k.1).hold k.2 else .empty

/-- `link->thread` of a busy link is the thread, if there is one, that has it as its own link. -/
def OwnersKnown (hold : Nat × LinkRole → Hold) (s : LinkState) : Prop :=
  ∀ p, ∀ l ∈ s.ledger.busy p, ∀ i, s.linkThread l = some i ↔
    hold (i, .localLink) = .owned ∧ s.ledger.slot (i, .localLink) = some l

/-- The reservations are consistent and the links know their owners. -/
structure LinksSound (e : Ends) (all : LinkPool → List Link) (hold : Nat × LinkRole → Hold)
    (s : LinkState) : Prop where
  consistent : s.ledger.Consistent all e.pool hold
  owners : OwnersKnown hold s

/-- As many input links as output links of a half duplex node are free. -/
def Paired (s : LinkState) : Prop :=
  ∀ n, s.halfDuplexLinks n →
    (s.ledger.free ⟨n, .inLink⟩).length = (s.ledger.free ⟨n, .outLink⟩).length

structure LinkInv (e : Ends) (all : LinkPool → List Link) (ph : Nat → CommPhase)
    (s : LinkState) : Prop where
  pools : ∀ p, ∀ l ∈ all p, l.pool = p
  sound : LinksSound e all (e.hold s ph) s
  paired : Paired s
  queued : ∀ t p, t ∈ s.thFor p ↔ (ph t = .waitOut ∧ p = ⟨e.node t, .outLink⟩) ∨
    (ph t = .waitIn ∧ p = ⟨e.nodePartner t, .inLink⟩)
  nodup : ∀ p, (s.thFor p).Nodup
  partner : ∀ t, ph t = .waitIn → s.partnerNode t = some (e.nodePartner t)

variable {e : Ends} {all : LinkPool → List Link} {ph : Nat → CommPhase} {s s' : LinkState}
  {t : Nat}

theorem LinkInv.consistent (h : LinkInv e all ph s) :
    s.ledger.Consistent all e.pool (e.hold s ph) := h.sound.consistent

theorem linkInv_init (e : Ends) (noInput noOutput : Nat → Nat) :
    LinkInv e (nodeLinks noInput noOutput) (fun _ => .idle) (.init noInput noOutput) where
  pools p l hl := by
    obtain ⟨j, -, rfl⟩ := List.mem_map.mp hl
    rfl
  sound := by
    have hempty : e.hold (.init noInput noOutput) (fun _ => .idle) = fun _ => .empty := by
      funext ⟨i, r⟩
      cases r <;> simp [Ends.hold, CommPhase.hold, CommPhase.localHold, CommPhase.partnerHold]
    rw [hempty]
    refine ⟨⟨fun p => by simp [LinkState.init], fun p => ?_, fun _ _ => rfl, ?_, ?_, ?_, ?_⟩, ?_⟩
    · exact List.nodup_range.map fun i j hij => by simpa using hij
    · simp
    · simp
    · simp [LinkState.init]
    · simp
    · simp [OwnersKnown, LinkState.init]
  paired n hn := by
    have hzero : noInput n = 0 ∨ noOutput n = 0 := by simpa [LinkState.init] using hn
    simp [LinkState.init, nodeLinks, hzero]
  queued := by simp [LinkState.init]
  nodup := by simp [LinkState.init]
  partner := by simp

theorem hold_eq_update {h : Nat × LinkRole → Hold} {q : CommPhase}
    (hother : ∀ i, i ≠ t → ∀ r, h (i, r) = e.hold s ph (i, r))
    (hself : ∀ r, h (t, r) = if e.uses s (t, r) then q.hold r else .empty) :
    h = e.hold s (Function.update ph t q) := by
  funext ⟨i, r⟩
  by_cases hi : i = t
  · subst hi
    rw [hself, Ends.hold, Function.update_self]
  · rw [hother i hi, Ends.hold, Ends.hold, Function.update_of_ne hi]

/-- A field that is not used is empty whatever the phase. -/
theorem hold_update_of_not_uses {q : CommPhase} (hself : ∀ r, e.uses s (t, r) →
    (ph t).hold r = q.hold r) : e.hold s (Function.update ph t q) = e.hold s ph := by
  refine (hold_eq_update (fun _ _ _ => rfl) fun r => ?_).symm
  simp only [Ends.hold]
  split
  · next huses => exact hself r huses
  · rfl

theorem hold_congr (hinfinite : s'.infiniteNetLinks = s.infiniteNetLinks)
    (hhalf : s'.halfDuplexLinks = s.halfDuplexLinks) : e.hold s' ph = e.hold s ph := by
  funext k
  have huses : e.uses s' k = e.uses s k := by
    obtain ⟨i, r⟩ := k
    cases r <;> simp [Ends.uses, hinfinite, hhalf]
  exact if_congr (by rw [huses]) rfl rfl

def CommPhase.Waiting (q : CommPhase) : Prop := q = .waitOut ∨ q = .waitIn

/-- A communication that is in no queue changes its phase and remains in none. -/
theorem LinkInv.rephase (h : LinkInv e all ph s) {q : CommPhase} (ht : ¬ (ph t).Waiting)
    (hq : ¬ q.Waiting) (hthFor : s'.thFor = s.thFor) (hpartner : s'.partnerNode = s.partnerNode)
    (hpaired : Paired s')
    (hsound : LinksSound e all (e.hold s' (Function.update ph t q)) s') :
    LinkInv e all (Function.update ph t q) s' := by
  refine ⟨h.pools, hsound, hpaired, fun i p => ?_, fun p => hthFor ▸ h.nodup p, fun i hi => ?_⟩
  · rw [hthFor, h.queued]
    by_cases hi : i = t
    · subst hi
      simp only [CommPhase.Waiting] at ht hq
      rw [Function.update_self]
      tauto
    · rw [Function.update_of_ne hi]
  · have hne : i ≠ t := by
      rintro rfl
      rw [Function.update_self] at hi
      exact hq (.inr hi)
    rw [Function.update_of_ne hne] at hi
    rw [hpartner, h.partner i hi]

theorem LinkInv.rephase_of_hold (h : LinkInv e all ph s) {q : CommPhase} (ht : ¬ (ph t).Waiting)
    (hq : ¬ q.Waiting) (hself : ∀ r, e.uses s (t, r) → (ph t).hold r = q.hold r) :
    LinkInv e all (Function.update ph t q) s :=
  h.rephase ht hq rfl rfl h.paired ((hold_update_of_not_uses hself).symm ▸ h.sound)

theorem takeLink_eq_some {p : LinkPool} {role : LinkRole} (h : s.takeLink p t role = some s') :
    s.ledger.acquire p (t, role) = some s'.ledger ∧ s'.thFor = s.thFor ∧
      s'.infiniteNetLinks = s.infiniteNetLinks ∧ s'.halfDuplexLinks = s.halfDuplexLinks ∧
      s'.partnerNode = s.partnerNode := by
  obtain ⟨link, -, h⟩ := Option.bind_eq_some_iff.mp h
  obtain ⟨ledger, hledger, h⟩ := Option.bind_eq_some_iff.mp h
  obtain rfl := Option.some.inj h
  exact ⟨hledger, rfl, rfl, rfl, rfl⟩

theorem takeLink_isSome {p : LinkPool} (t : Nat) (role : LinkRole) (h : s.ledger.free p ≠ []) :
    ∃ s', s.takeLink p t role = some s' := by
  obtain ⟨link, rest, hfree⟩ := List.exists_cons_of_ne_nil h
  obtain ⟨ledger, hledger⟩ := Ledger.acquire_isSome (k := (t, role)) h
  exact ⟨_, by simp only [LinkState.takeLink, hfree, hledger, List.head?_cons]; rfl⟩

theorem length_free_takeLink {p : LinkPool} {role : LinkRole} (h : s.takeLink p t role = some s')
    (p' : LinkPool) : (s.ledger.free p').length =
      (s'.ledger.free p').length + if p' = p then 1 else 0 := by
  obtain ⟨hacquire, -⟩ := takeLink_eq_some h
  by_cases hp : p' = p
  · subst hp
    obtain ⟨l, rest, hfree, hledger⟩ := Ledger.acquire_eq_some hacquire
    simp [hledger, hfree]
  · rw [Ledger.free_acquire hacquire hp, if_neg hp, Nat.add_zero]

theorem LinksSound.pool_eq {hold : Nat × LinkRole → Hold} (h : LinksSound e all hold s)
    (hpools : ∀ p, ∀ l ∈ all p, l.pool = p) {p : LinkPool} {l : Link}
    (hl : l ∈ s.ledger.free p ++ s.ledger.busy p) : l.pool = p :=
  hpools p l ((h.consistent.items p).mem_iff.mp hl)

theorem LinksSound.takeLink {hold : Nat × LinkRole → Hold} (h : LinksSound e all hold s)
    (hpools : ∀ p, ∀ l ∈ all p, l.pool = p) {role : LinkRole} (hk : hold (t, role) ≠ .owned)
    (htake : s.takeLink (e.pool (t, role)) t role = some s') :
    LinksSound e all (Function.update hold (t, role) .owned) s' := by
  have hcons := h.consistent.acquire hk (takeLink_eq_some htake).1
  obtain ⟨link, hhead, htake⟩ := Option.bind_eq_some_iff.mp htake
  obtain ⟨ledger, hledger, htake⟩ := Option.bind_eq_some_iff.mp htake
  obtain rfl := Option.some.inj htake
  obtain ⟨l₀, rest, hfree, rfl⟩ := Ledger.acquire_eq_some hledger
  obtain rfl : l₀ = link := by simpa [hfree] using hhead
  refine ⟨hcons, fun p l hl i => ?_⟩
  have hfree₀ : l₀.pool = e.pool (t, role) := h.pool_eq hpools (by simp [hfree])
  -- nobody had the link that was free
  have hnobody : ∀ k, hold k = .owned → s.ledger.slot k ≠ some l₀ := by
    intro k hown hslot
    obtain ⟨l', hbusy, hslot'⟩ := h.consistent.owned k hown
    obtain rfl := Option.some.inj (hslot.symm.trans hslot')
    have hplace : l₀.pool = e.pool k := h.pool_eq hpools (by simp [hbusy])
    have hnodup := h.consistent.nodup_append (e.pool (t, role))
    rw [hfree, List.cons_append, List.nodup_cons] at hnodup
    exact hnodup.1 (List.mem_append_right _ (hfree₀ ▸ hplace ▸ hbusy))
  simp only [Function.update_apply]
  by_cases hl₀ : l = l₀
  · subst hl₀
    rw [if_pos rfl]
    by_cases hrole : role = .localLink
    · subst hrole
      by_cases hi : i = t
      · simp [hi]
      · simpa [hi, Ne.symm hi] using hnobody (i, .localLink)
    · have hne : (i, LinkRole.localLink) ≠ (t, role) := fun heq => hrole (Prod.mk.inj heq).2.symm
      simpa [hrole, hne] using hnobody (i, .localLink)
  · have hold' : l ∈ s.ledger.busy p := by
      simp only [Function.update_apply] at hl
      split at hl
      · next hp => simpa [hp, hl₀] using hl
      · exact hl
    rw [if_neg hl₀, h.owners p l hold' i]
    by_cases hk' : (i, LinkRole.localLink) = (t, role)
    · rw [hk']
      simp [hk, Ne.symm hl₀]
    · simp [hk']

/-- Taking the links of one side, with the half duplex partner if the node has one. -/
theorem LinkInv.takeSide (h : LinkInv e all ph s) (role hdRole : LinkRole) {q : CommPhase}
    {s₁ : LinkState} (ht : ¬ (ph t).Waiting) (hq : ¬ q.Waiting) (huses : e.uses s (t, role))
    (husesHd : e.uses s (t, hdRole) = s.halfDuplexLinks (e.pool (t, role)).node)
    (hpoolHd : e.pool (t, hdRole) = ⟨(e.pool (t, role)).node, (e.pool (t, role)).type.other⟩)
    (hempty : (ph t).hold role = .empty ∧ (ph t).hold hdRole = .empty)
    (howned : q.hold role = .owned ∧ q.hold hdRole = .owned)
    (hother : ∀ r, r ≠ role → r ≠ hdRole → (ph t).hold r = q.hold r)
    (htake : s.takeLink (e.pool (t, role)) t role = some s₁)
    (hhd : if s.halfDuplexLinks (e.pool (t, role)).node then
      s₁.takeLink (e.pool (t, hdRole)) t hdRole = some s' else s₁ = s') :
    LinkInv e all (Function.update ph t q) s' := by
  obtain ⟨-, hthFor, hinfinite, hhalf, hpartner⟩ := takeLink_eq_some htake
  have hnot : ∀ r, (ph t).hold r = .empty → e.hold s ph (t, r) ≠ .owned := by
    intro r hr
    simp [Ends.hold, hr]
  have hne : role ≠ hdRole := by
    rintro rfl
    cases hpool : e.pool (t, role) with
    | mk n ty => cases ty <;> simp [hpool, LinkType.other] at hpoolHd
  have hsound₁ := h.sound.takeLink h.pools (hnot role hempty.1) htake
  have hfree₁ := length_free_takeLink htake
  by_cases hduplex : s.halfDuplexLinks (e.pool (t, role)).node
  · rw [if_pos hduplex] at hhd
    obtain ⟨-, hthFor', hinfinite', hhalf', hpartner'⟩ := takeLink_eq_some hhd
    have hfree₂ := length_free_takeLink hhd
    refine h.rephase ht hq (hthFor'.trans hthFor) (hpartner'.trans hpartner) (fun n hn => ?_) ?_
    · have hpaired := h.paired n (by rwa [hhalf', hhalf] at hn)
      have hin := hfree₁ ⟨n, .inLink⟩
      have hout := hfree₁ ⟨n, .outLink⟩
      have hin' := hfree₂ ⟨n, .inLink⟩
      have hout' := hfree₂ ⟨n, .outLink⟩
      rw [hpoolHd] at hin' hout'
      cases hpool : e.pool (t, role) with
      | mk n₀ ty =>
          simp only [hpool, LinkPool.mk.injEq] at hin hout hin' hout'
          cases ty <;> simp [LinkType.other] at hin hout hin' hout' <;> omega
    · rw [hold_congr (hinfinite'.trans hinfinite) (hhalf'.trans hhalf)]
      have hsound₂ := hsound₁.takeLink h.pools
        (by rw [Function.update_of_ne (by simpa using hne.symm)]; exact hnot hdRole hempty.2) hhd
      refine hold_eq_update (fun i hi r => ?_) (fun r => ?_) ▸ hsound₂
      · simp [hi]
      · by_cases hr : r = hdRole
        · subst hr
          simp [husesHd, hduplex, howned.2]
        · by_cases hr' : r = role
          · subst hr'
            simp [hr, huses, howned.1]
          · simp [hr, hr', Ends.hold, hother r hr' hr]
  · rw [if_neg hduplex] at hhd
    subst hhd
    refine h.rephase ht hq hthFor hpartner (fun n hn => ?_) ?_
    · rw [hhalf] at hn
      have hpaired := h.paired n hn
      have hin := hfree₁ ⟨n, .inLink⟩
      have hout := hfree₁ ⟨n, .outLink⟩
      have hnode : n ≠ (e.pool (t, role)).node := by
        rintro rfl
        exact hduplex hn
      rw [if_neg fun heq => hnode (congrArg LinkPool.node heq)] at hin hout
      omega
    · rw [hold_congr hinfinite hhalf]
      refine hold_eq_update (fun i hi r => ?_) (fun r => ?_) ▸ hsound₁
      · simp [hi]
      · by_cases hr : r = role
        · subst hr
          simp [huses, howned.1]
        · by_cases hr' : r = hdRole
          · subst hr'
            simp [hr, Ends.hold, husesHd, hduplex]
          · simp [hr, Ends.hold, hother r hr hr']

/-! ## Stealing an output link -/

theorem candidate_eq_some {node c : Nat} {link : Link} (h : s.candidate node = some (link, c)) :
    link ∈ s.ledger.busy ⟨node, .outLink⟩ ∧ s.ledger.slot (c, .localLink) = some link := by
  obtain ⟨before, link', after, hbusy, hlink, -⟩ := List.findSome?_eq_some_iff.mp h
  obtain ⟨candidat, -, hlink⟩ := Option.bind_eq_some_iff.mp hlink
  split at hlink
  · next hslot =>
      obtain ⟨rfl, rfl⟩ := Prod.mk.inj (Option.some.inj hlink)
      exact ⟨by simp [hbusy], hslot.1⟩
  · cases hlink

theorem robaOutLink_eq_true {node : Nat} {inOut : LinkType} {testOnly : Bool}
    (h : robaOutLink s t node inOut testOnly = some (true, s')) :
    (inOut = .inLink → s.halfDuplexLinks node) ∧
    ∃ link c partner, s.candidate node = some (link, c) ∧ c ∈ s.thFor ⟨partner, .inLink⟩ ∧
      s' = if testOnly then s else
        ((s.extractWaiting c partner).stealLink link c t inOut).linkBusyPrimer c node
          .outLink := by
  unfold robaOutLink at h
  split at h
  · cases h
  · next hhalf =>
      refine ⟨fun hin => by simpa [hin] using hhalf, ?_⟩
      split at h
      · cases h
      · next link c hcand =>
          obtain ⟨partner, -, h⟩ := Option.bind_eq_some_iff.mp h
          split at h
          · cases h
          · next hmem =>
              refine ⟨link, c, partner, hcand, not_not.mp hmem, ?_⟩
              split at h
              · next htest =>
                  rw [if_pos htest]
                  exact (Prod.mk.inj (Option.some.inj h)).2.symm
              · next htest =>
                  rw [if_neg htest]
                  exact (Prod.mk.inj (Option.some.inj h)).2.symm

theorem robaOutLink_eq_false {node : Nat} {inOut : LinkType} {testOnly : Bool}
    (h : robaOutLink s t node inOut testOnly = some (false, s')) : s' = s := by
  unfold robaOutLink at h
  split at h
  · exact (Prod.mk.inj (Option.some.inj h)).2.symm
  · split at h
    · exact (Prod.mk.inj (Option.some.inj h)).2.symm
    · next link c _ =>
        obtain ⟨partner, -, h⟩ := Option.bind_eq_some_iff.mp h
        split at h
        · cases h
        · split at h <;> simp at h

/-- The communication that a link is stolen from waits for its input link, and the link is of
its own node. -/
theorem LinkInv.candidate (h : LinkInv e all ph s) {node c partner : Nat} {link : Link}
    (hcand : s.candidate node = some (link, c)) (hmem : c ∈ s.thFor ⟨partner, .inLink⟩) :
    ph c = .waitIn ∧ partner = e.nodePartner c ∧ e.node c = node ∧ e.uses s (c, .localLink) ∧
      e.uses s (c, .localHdLink) = s.halfDuplexLinks node := by
  obtain ⟨hbusy, hslot⟩ := candidate_eq_some hcand
  obtain ⟨hphase, hpartner⟩ : ph c = .waitIn ∧ partner = e.nodePartner c := by
    rcases (h.queued c _).mp hmem with ⟨-, hp⟩ | ⟨hphase, hp⟩
    · cases hp
    · exact ⟨hphase, (LinkPool.mk.inj hp).1⟩
  have huses : e.uses s (c, .localLink) := by
    by_contra hno
    have hempty := h.consistent.empty (c, .localLink) (by rw [Ends.hold, if_neg hno])
    exact absurd (hslot.symm.trans hempty) (Option.some_ne_none _)
  have howned : e.hold s ph (c, .localLink) = .owned := by
    rw [Ends.hold, if_pos huses, hphase]
    rfl
  obtain ⟨link', hbusy', hslot'⟩ := h.consistent.owned _ howned
  obtain rfl := Option.some.inj (hslot.symm.trans hslot')
  have hpool := (h.pools _ link (h.consistent.mem_all hbusy)).symm.trans
    (h.pools _ link (h.consistent.mem_all hbusy'))
  have hnode : e.node c = node := (LinkPool.mk.inj hpool).1.symm
  refine ⟨hphase, hpartner, hnode, huses, ?_⟩
  simp only [Ends.uses, Bool.and_true, Bool.and_eq_true] at huses ⊢
  rw [huses.1, Bool.true_and]
  have hfinite : s.infiniteNetLinks node = false := by simpa [Ends.pool, hnode] using huses.2
  simp [hfinite, Ends.pool, hnode]

theorem thFor_requeue (s : LinkState) (c partner node : Nat) (p : LinkPool) :
    ((s.extractWaiting c partner).linkBusyPrimer c node .outLink).thFor p =
      if p = ⟨node, .outLink⟩ then c :: s.thFor p
      else if p = ⟨partner, .inLink⟩ then (s.thFor p).erase c else s.thFor p := by
  simp only [LinkState.linkBusyPrimer, LinkState.extractWaiting, Function.update_apply]
  split
  · next hp => simp [hp]
  · split
    · next hp => rw [hp]
    · rfl

theorem LinksSound.congr {hold : Nat × LinkRole → Hold} (h : LinksSound e all hold s)
    (hledger : s'.ledger = s.ledger) (hthread : s'.linkThread = s.linkThread) :
    LinksSound e all hold s' := by
  refine ⟨hledger ▸ h.consistent, fun p l hl i => ?_⟩
  rw [hthread, hledger]
  exact h.owners p l (hledger ▸ hl) i

/-- The own link of `c` becomes the link of `t` in the role `role`. -/
theorem LinksSound.transfer {hold : Nat × LinkRole → Hold} (h : LinksSound e all hold s)
    (hpools : ∀ p, ∀ l ∈ all p, l.pool = p) {c : Nat} {link : Link} (role : LinkRole)
    (hk : hold (c, .localLink) = .owned) (hslot : s.ledger.slot (c, .localLink) = some link)
    (hk' : hold (t, role) ≠ .owned) (hplace : e.pool (c, .localLink) = e.pool (t, role))
    (hledger : s'.ledger = s.ledger.transfer (c, .localLink) (t, role))
    (hthread : s'.linkThread =
      Function.update s.linkThread link (if role = .localLink then some t else none)) :
    LinksSound e all
      (Function.update (Function.update hold (t, role) .owned) (c, .localLink) .empty) s' := by
  refine ⟨hledger ▸ h.consistent.transfer _ _ hk hk' hplace, fun p l hl i => ?_⟩
  rw [hledger, Ledger.busy_transfer] at hl
  have hpool : ∀ k l, hold k = .owned → s.ledger.slot k = some l → l.pool = e.pool k := by
    intro k l hown hk
    obtain ⟨l', hbusy, hslot'⟩ := h.consistent.owned k hown
    obtain rfl := Option.some.inj (hk.symm.trans hslot')
    exact h.pool_eq hpools (by simp [hbusy])
  -- the stolen link had no other owner
  have hunique : i ≠ c → hold (i, .localLink) = .owned →
      s.ledger.slot (i, .localLink) ≠ some link := by
    intro hic hown hsloti
    have hplace' : e.pool (i, .localLink) = e.pool (c, .localLink) :=
      (hpool _ _ hown hsloti).symm.trans (hpool _ _ hk hslot)
    have heq := h.consistent.unique _ _ hown hk hplace' (hsloti.trans hslot.symm)
    exact hic (Prod.mk.inj heq).1
  have hct : (c, LinkRole.localLink) ≠ (t, role) := fun heq => hk' (heq ▸ hk)
  have hold' := h.owners p l hl i
  rw [hthread, hledger, Ledger.slot_transfer, Function.update_apply]
  by_cases hic : i = c
  · subst hic
    rw [Function.update_self, if_pos rfl]
    by_cases hlink : l = link
    · subst hlink
      have hti : role = .localLink → t ≠ i := fun hrole hti => hct (by rw [hrole, hti])
      by_cases hrole : role = .localLink
      · simp [hrole, hti hrole]
      · simp [hrole]
    · rw [if_neg hlink, hold', hslot]
      simp [Ne.symm hlink]
  · have hne : (i, LinkRole.localLink) ≠ (c, .localLink) := by simpa using hic
    rw [if_neg hne, Function.update_of_ne hne]
    by_cases hit : (i, LinkRole.localLink) = (t, role)
    · obtain ⟨rfl, rfl⟩ := Prod.mk.inj hit
      rw [if_pos rfl, Function.update_self, if_pos rfl, hslot]
      by_cases hlink : l = link
      · simp [hlink]
      · rw [if_neg hlink, hold']
        simp [hk', Ne.symm hlink]
    · rw [if_neg hit, Function.update_of_ne hit]
      by_cases hlink : l = link
      · subst hlink
        have hti : role = .localLink → t ≠ i := fun hrole hti => hit (by rw [hrole, hti])
        have hright : ¬ (hold (i, .localLink) = .owned ∧
            s.ledger.slot (i, .localLink) = some l) := fun hboth => hunique hic hboth.1 hboth.2
        rw [if_pos rfl, iff_false_intro hright, iff_false]
        by_cases hrole : role = .localLink
        · simp [hrole, hti hrole]
        · simp [hrole]
      · rw [if_neg hlink]
        exact hold'

/-- A half duplex partner changes its slot. -/
theorem LinksSound.transferHd {hold : Nat × LinkRole → Hold} (h : LinksSound e all hold s)
    (k k' : Nat × LinkRole) (hk : hold k = .owned) (hk' : hold k' ≠ .owned)
    (hplace : e.pool k = e.pool k') (hne : k.2 ≠ .localLink) (hne' : k'.2 ≠ .localLink)
    (hledger : s'.ledger = s.ledger.transfer k k') (hthread : s'.linkThread = s.linkThread) :
    LinksSound e all (Function.update (Function.update hold k' .owned) k .empty) s' := by
  refine ⟨hledger ▸ h.consistent.transfer _ _ hk hk' hplace, fun p l hl i => ?_⟩
  rw [hledger, Ledger.busy_transfer] at hl
  have hi : (i, LinkRole.localLink) ≠ k := fun heq => hne (congrArg Prod.snd heq).symm
  have hi' : (i, LinkRole.localLink) ≠ k' := fun heq => hne' (congrArg Prod.snd heq).symm
  rw [hthread, hledger, Ledger.slot_transfer, if_neg hi, if_neg hi', Function.update_of_ne hi,
    Function.update_of_ne hi']
  exact h.owners p l hl i

/-- What is held when the links of `c` have become those of `t` on the side of `role`. -/
theorem LinkInv.sound_steal (h : LinkInv e all ph s) {node c : Nat} {link : Link}
    (role hdRole : LinkRole) {q : CommPhase} (hphase : ph c = .waitIn) (hct : c ≠ t)
    (hne : role ≠ hdRole) (hslotC : s.ledger.slot (c, .localLink) = some link)
    (husesC : e.uses s (c, .localLink))
    (husesHdC : e.uses s (c, .localHdLink) = s.halfDuplexLinks node)
    (hpoolC : e.pool (c, .localLink) = e.pool (t, role))
    (hpoolHdC : e.pool (c, .localHdLink) = e.pool (t, hdRole)) (huses : e.uses s (t, role))
    (husesHd : e.uses s (t, hdRole) = s.halfDuplexLinks node)
    (hempty : (ph t).hold role = .empty ∧ (ph t).hold hdRole = .empty)
    (howned : q.hold role = .owned ∧ q.hold hdRole = .owned)
    (hother : ∀ r, r ≠ role → r ≠ hdRole → (ph t).hold r = q.hold r)
    (hrole : hdRole ≠ .localLink)
    (hledger : s'.ledger = (s.ledger.transfer (c, .localLink) (t, role)).transfer
      (c, .localHdLink) (t, hdRole))
    (hthread : s'.linkThread =
      Function.update s.linkThread link (if role = .localLink then some t else none)) :
    LinksSound e all (e.hold s (Function.update (Function.update ph t q) c .waitOut)) s' := by
  have hholdC : ∀ r, e.hold s ph (c, r) = if e.uses s (c, r) then CommPhase.hold .waitIn r
      else .empty := fun r => by rw [Ends.hold, hphase]
  have hsound₁ : LinksSound e all _ { s with
      ledger := s.ledger.transfer (c, .localLink) (t, role)
      linkThread := Function.update s.linkThread link
        (if role = .localLink then some t else none) } := h.sound.transfer h.pools role
    (by rw [hholdC, if_pos husesC]; rfl) hslotC
    (by rw [Ends.hold, if_pos huses, hempty.1]; simp) hpoolC rfl rfl
  by_cases hduplex : s.halfDuplexLinks node
  · have hsound₂ := hsound₁.transferHd (c, .localHdLink) (t, hdRole)
      (by simp [hct, hholdC, husesHdC, hduplex, CommPhase.hold, CommPhase.localHold])
      (by simp [hct.symm, hne.symm, Ends.hold, hempty.2]) hpoolHdC (by simp) hrole hledger hthread
    refine hold_eq_update (fun i hi r => ?_) (fun r => ?_) ▸ hsound₂
    · rw [Ends.hold, Function.update_apply]
      by_cases hit : i = t
      · subst hit
        by_cases hr : r = role
        · subst hr
          simp [hi, hne, huses, howned.1]
        · by_cases hr' : r = hdRole
          · subst hr'
            simp [hi, husesHd, hduplex, howned.2]
          · simp [hi, hr, hr', Ends.hold, hother r hr hr']
      · simp [hi, hit, Ends.hold]
    · cases r <;>
        simp [hct, hholdC, CommPhase.hold, CommPhase.localHold, CommPhase.partnerHold]
  · have hslotHdC : s.ledger.slot (c, .localHdLink) = none :=
      h.consistent.empty _ (by rw [hholdC, if_neg (by simp [husesHdC, hduplex])])
    have hslotT : s.ledger.slot (t, hdRole) = none :=
      h.consistent.empty _ (by rw [Ends.hold, if_neg (by simp [husesHd, hduplex])])
    rw [Ledger.transfer_of_empty (by simp [Ledger.slot_transfer, hct, hslotHdC])
      (by simp [Ledger.slot_transfer, hct.symm, hne.symm, hslotT])] at hledger
    have hsound₂ := hsound₁.congr hledger hthread
    refine hold_eq_update (fun i hi r => ?_) (fun r => ?_) ▸ hsound₂
    · rw [Ends.hold, Function.update_apply]
      by_cases hit : i = t
      · subst hit
        by_cases hr : r = role
        · subst hr
          simp [hi, huses, howned.1]
        · by_cases hr' : r = hdRole
          · subst hr'
            simp [hi, hr, Ends.hold, husesHd, hduplex]
          · simp [hi, hr, Ends.hold, hother r hr hr']
      · simp [hi, hit, Ends.hold]
    · cases r <;>
        simp [hct, hholdC, husesHdC, hduplex, CommPhase.hold, CommPhase.localHold,
          CommPhase.partnerHold]

/-- The candidate of a steal waits for its output link again. -/
theorem LinkInv.queued_requeue (h : LinkInv e all ph s) {c : Nat} {q : CommPhase}
    (hphase : ph c = .waitIn) (ht : ¬ (ph t).Waiting) (hq : ¬ q.Waiting) (i : Nat)
    (p : LinkPool) :
    i ∈ ((s.extractWaiting c (e.nodePartner c)).linkBusyPrimer c (e.node c) .outLink).thFor p ↔
      (Function.update (Function.update ph t q) c .waitOut i = .waitOut ∧
        p = ⟨e.node i, .outLink⟩) ∨
      (Function.update (Function.update ph t q) c .waitOut i = .waitIn ∧
        p = ⟨e.nodePartner i, .inLink⟩) := by
  rw [thFor_requeue]
  by_cases hic : i = c
  · subst hic
    rw [Function.update_self]
    split
    · next hp => simp [hp]
    · next hp =>
        have hno : i ∉ if p = ⟨e.nodePartner i, .inLink⟩ then (s.thFor p).erase i
            else s.thFor p := by
          split
          · exact (h.nodup p).not_mem_erase
          · next hp' => simp [h.queued, hphase, hp']
        simp [hno, hp]
  · have hmem : (i ∈ if p = ⟨e.node c, .outLink⟩ then c :: s.thFor p
        else if p = ⟨e.nodePartner c, .inLink⟩ then (s.thFor p).erase c else s.thFor p) ↔
          i ∈ s.thFor p := by
      split
      · simp [hic]
      · split
        · exact List.mem_erase_of_ne hic
        · rfl
    rw [hmem, h.queued, Function.update_of_ne hic]
    by_cases hit : i = t
    · subst hit
      simp only [CommPhase.Waiting] at ht hq
      rw [Function.update_self]
      tauto
    · rw [Function.update_of_ne hit]

theorem LinkInv.nodup_requeue (h : LinkInv e all ph s) {c : Nat} (hphase : ph c = .waitIn)
    (p : LinkPool) :
    (((s.extractWaiting c (e.nodePartner c)).linkBusyPrimer c (e.node c) .outLink).thFor p).Nodup := by
  rw [thFor_requeue]
  split
  · next hp =>
      refine List.nodup_cons.mpr ⟨?_, h.nodup p⟩
      simp [h.queued, hphase, hp]
  · split
    · exact (h.nodup p).erase c
    · exact h.nodup p

/-- The links of the candidate become those of `t` on the side of `role`, and the candidate
goes to the front of `th_for_out`. -/
theorem LinkInv.steal (h : LinkInv e all ph s) {node c partner : Nat} {link : Link}
    (role hdRole : LinkRole) {q : CommPhase}
    (hcand : s.candidate node = some (link, c)) (hmem : c ∈ s.thFor ⟨partner, .inLink⟩)
    (ht : ¬ (ph t).Waiting) (hq : ¬ q.Waiting) (huses : e.uses s (t, role))
    (husesHd : e.uses s (t, hdRole) = s.halfDuplexLinks node)
    (hpool : e.pool (t, role) = ⟨node, .outLink⟩) (hpoolHd : e.pool (t, hdRole) = ⟨node, .inLink⟩)
    (hempty : (ph t).hold role = .empty ∧ (ph t).hold hdRole = .empty)
    (howned : q.hold role = .owned ∧ q.hold hdRole = .owned)
    (hother : ∀ r, r ≠ role → r ≠ hdRole → (ph t).hold r = q.hold r)
    (hrole : hdRole ≠ .localLink)
    (hledger : s'.ledger = (s.ledger.transfer (c, .localLink) (t, role)).transfer
      (c, .localHdLink) (t, hdRole))
    (hthread : s'.linkThread =
      Function.update s.linkThread link (if role = .localLink then some t else none))
    (hpartner : s'.partnerNode = s.partnerNode)
    (hinfinite : s'.infiniteNetLinks = s.infiniteNetLinks)
    (hhalf : s'.halfDuplexLinks = s.halfDuplexLinks)
    (hthFor : s'.thFor = (((s.extractWaiting c partner)).linkBusyPrimer c node .outLink).thFor) :
    LinkInv e all (Function.update (Function.update ph t q) c .waitOut) s' := by
  obtain ⟨hphase, rfl, rfl, husesC, husesHdC⟩ := h.candidate hcand hmem
  have hct : c ≠ t := by
    rintro rfl
    exact ht (.inr hphase)
  have hne : role ≠ hdRole := by
    rintro rfl
    rw [hpool] at hpoolHd
    cases hpoolHd
  refine ⟨h.pools, ?_, fun n hn => ?_, fun i p => ?_, fun p => ?_, fun i hi => ?_⟩
  · rw [hold_congr hinfinite hhalf]
    exact h.sound_steal role hdRole hphase hct hne (candidate_eq_some hcand).2 husesC husesHdC
      hpool.symm hpoolHd.symm huses husesHd hempty howned hother hrole hledger hthread
  · rw [hledger, Ledger.free_transfer, Ledger.free_transfer]
    exact h.paired n (hhalf ▸ hn)
  · rw [hthFor]
    exact h.queued_requeue hphase ht hq i p
  · rw [hthFor]
    exact h.nodup_requeue hphase p
  · have hic : i ≠ c := by
      rintro rfl
      rw [Function.update_self] at hi
      cases hi
    have hit : i ≠ t := by
      rintro rfl
      rw [Function.update_of_ne hic, Function.update_self] at hi
      exact hq (.inr hi)
    rw [Function.update_of_ne hic, Function.update_of_ne hit] at hi
    rw [hpartner, h.partner i hi]

/-! ## LINKS_get_network_links -/

theorem LinkInv.enqueue (h : LinkInv e all ph s) {q : CommPhase} {p : LinkPool}
    (ht : ¬ (ph t).Waiting)
    (hq : (q = .waitOut ∧ p = ⟨e.node t, .outLink⟩) ∨ (q = .waitIn ∧ p = ⟨e.nodePartner t, .inLink⟩))
    (hhold : ∀ r, (ph t).hold r = q.hold r)
    (hpartner : s.partnerNode t = some (e.nodePartner t)) :
    LinkInv e all (Function.update ph t q) (s.linkBusy t p.node p.type) := by
  have hthFor : ∀ p', (s.linkBusy t p.node p.type).thFor p' =
      if p' = p then s.thFor p' ++ [t] else s.thFor p' := fun p' => by
    simp only [LinkState.linkBusy, Function.update_apply]
    split
    · next hp => rw [hp]
    · rfl
  have hnot : ∀ p', t ∉ s.thFor p' := fun p' hmem => by
    rw [h.queued] at hmem
    exact ht (hmem.imp And.left And.left)
  refine ⟨h.pools, ?_, h.paired, fun i p' => ?_, fun p' => ?_, fun i hi => ?_⟩
  · exact (hold_update_of_not_uses fun r _ => hhold r).symm ▸ h.sound.congr rfl rfl
  · rw [hthFor]
    by_cases hi : i = t
    · subst hi
      rw [Function.update_self]
      rcases hq with ⟨rfl, rfl⟩ | ⟨rfl, rfl⟩
      all_goals
        split
        · next hp => simp [hp]
        · next hp => simp [hp, hnot]
    · rw [Function.update_of_ne hi, ← h.queued]
      split <;> simp [hi]
  · rw [hthFor]
    split
    · exact List.nodup_append.mpr ⟨h.nodup p', by simp, fun i hi j hj => by
        obtain rfl := List.mem_singleton.mp hj
        rintro rfl
        exact hnot _ hi⟩
    · exact h.nodup p'
  · by_cases hit : i = t
    · rw [hit]
      exact hpartner
    · rw [Function.update_of_ne hit] at hi
      exact h.partner i hi

/-- The other communications stay where they are, or were robbed of their output link. -/
def OthersKept (ph ph' : Nat → CommPhase) (t : Nat) : Prop :=
  ∀ i, i ≠ t → ph' i = ph i ∨ (ph i = .waitIn ∧ ph' i = .waitOut)

theorem othersKept_update (ph : Nat → CommPhase) (q : CommPhase) :
    OthersKept ph (Function.update ph t q) t := fun _ hi => .inl (Function.update_of_ne hi ..)

theorem OthersKept.trans {ph' ph'' : Nat → CommPhase} (h : OthersKept ph ph' t)
    (h' : OthersKept ph' ph'' t) : OthersKept ph ph'' t := by
  intro i hi
  rcases h i hi with heq | ⟨hin, hout⟩
  · rw [← heq]
    exact h' i hi
  · rcases h' i hi with heq' | ⟨hin', -⟩
    · exact .inr ⟨hin, heq'.trans hout⟩
    · rw [hout] at hin'
      cases hin'

theorem LinkInv.slot_eq_none (h : LinkInv e all ph s) {r : LinkRole}
    (hhold : (ph t).hold r = .empty) : s.ledger.slot (t, r) = none := by
  refine h.consistent.empty _ ?_
  simp only [Ends.hold, hhold, ite_self]

theorem LinkInv.exists_slot (h : LinkInv e all ph s) {r : LinkRole} (huses : e.uses s (t, r))
    (hhold : (ph t).hold r = .owned) :
    ∃ l ∈ s.ledger.busy (e.pool (t, r)), s.ledger.slot (t, r) = some l :=
  h.consistent.owned _ (by rw [Ends.hold, if_pos huses, hhold])

theorem uses_localLink (hne : e.node t ≠ e.nodePartner t) :
    e.uses s (t, .localLink) = !s.infiniteNetLinks (e.node t) := by
  simp [Ends.uses, Ends.pool, hne]

theorem uses_partnerLink (hne : e.node t ≠ e.nodePartner t) :
    e.uses s (t, .partnerLink) = !s.infiniteNetLinks (e.nodePartner t) := by
  simp [Ends.uses, Ends.pool, hne]

theorem uses_localHdLink (hne : e.node t ≠ e.nodePartner t)
    (hfinite : s.infiniteNetLinks (e.node t) = false) :
    e.uses s (t, .localHdLink) = s.halfDuplexLinks (e.node t) := by
  simp [Ends.uses, Ends.pool, hne, hfinite]

theorem uses_partnerHdLink (hne : e.node t ≠ e.nodePartner t)
    (hfinite : s.infiniteNetLinks (e.nodePartner t) = false) :
    e.uses s (t, .partnerHdLink) = s.halfDuplexLinks (e.nodePartner t) := by
  simp [Ends.uses, Ends.pool, hne, hfinite]

/-- A communication that `LINKS_get_network_links` may be called for: a new one, one that was
just woken up, or one whose links were granted. -/
def CommPhase.Ready (q : CommPhase) : Prop :=
  q = .idle ∨ q = .holdsOut ∨ q = .granted true true

theorem CommPhase.Ready.not_waiting {q : CommPhase} (h : q.Ready) : ¬ q.Waiting := by
  rintro (hq | hq) <;> simp [Ready, hq] at h

/-- A call that goes on with a link to steal has none of its own and found none free. -/
def StealPending (s : LinkState) (thread node : Nat) : Prop :=
  s.infiniteNetLinks node = false ∧ s.ledger.slot (thread, .localLink) = none ∧
    s.ledger.free ⟨node, .outLink⟩ = [] ∧ (s.candidate node).isSome

/-- The phase that the first half of the call leaves its communication in. -/
def OutPost (e : Ends) (all : LinkPool → List Link) (ph : Nat → CommPhase) (s : LinkState)
    (t : Nat) : OutPhase → Prop
  | .busy s' => LinkInv e all (Function.update ph t .waitOut) s' ∧
      s'.infiniteNetLinks = s.infiniteNetLinks ∧ ph t = .idle
  | .goOn s' true => s' = s ∧ ph t = .idle ∧ StealPending s t (e.node t)
  | .goOn s' false => ∃ q, (q = .holdsOut ∨ q = .granted true true) ∧
      (ph t = .granted true true → q = .granted true true) ∧
      LinkInv e all (Function.update ph t q) s' ∧
      s'.infiniteNetLinks = s.infiniteNetLinks ∧ s'.partnerNode = s.partnerNode

theorem LinkInv.getOutLink (h : LinkInv e all ph s) (hne : e.node t ≠ e.nodePartner t)
    (hpartner : s.partnerNode t = some (e.nodePartner t))
    (hready : (ph t).Ready) {r : OutPhase} (hget : getOutLink s t (e.node t) = some r) :
    OutPost e all ph s t r := by
  have hself : Function.update ph t (ph t) = ph := Function.update_eq_self t ph
  unfold Links.getOutLink at hget
  split at hget
  · next hinfinite =>
      obtain rfl := Option.some.inj hget
      rcases hready with hidle | hhold
      · refine ⟨.holdsOut, .inl rfl, by simp [hidle], ?_, rfl, rfl⟩
        refine h.rephase_of_hold (by simp [hidle, CommPhase.Waiting]) (by simp [CommPhase.Waiting])
          fun r huses => ?_
        cases r <;> simp [Ends.uses, Ends.pool, hinfinite] at huses <;> simp [hidle] <;> rfl
      · exact ⟨ph t, hhold, id, by rwa [hself], rfl, rfl⟩
  · next hfinite =>
      have hfinite' : s.infiniteNetLinks (e.node t) = false := by simpa using hfinite
      have huses : e.uses s (t, .localLink) := by simp [uses_localLink hne, hfinite']
      have hidle : s.ledger.slot (t, .localLink) = none → ph t = .idle := fun hnone => by
        rcases hready with hidle | hq
        · exact hidle
        · obtain ⟨l, -, hslot⟩ := h.exists_slot (r := .localLink) huses
            (by rcases hq with hq | hq <;> rw [hq] <;> rfl)
          exact absurd (hnone.symm.trans hslot) (Option.some_ne_none _).symm
      split at hget
      · next hslot =>
          obtain rfl := Option.some.inj hget
          have hhold : ph t = .holdsOut ∨ ph t = .granted true true := by
            rcases hready with hidle | hq
            · have hnone := h.slot_eq_none (t := t) (r := .localLink) (by rw [hidle]; rfl)
              exact absurd (hslot.symm.trans hnone) (Option.some_ne_none _)
            · exact hq
          exact ⟨ph t, hhold, id, by rwa [hself], rfl, rfl⟩
      · next hslot hfree =>
          obtain ⟨⟨robable, s₁⟩, hroba, hget⟩ := Option.bind_eq_some_iff.mp hget
          simp only at hget
          split at hget
          · next hrobable =>
              obtain rfl := Option.some.inj hget
              rw [hrobable] at hroba
              obtain ⟨-, link, c, partner, hcand, -, rfl⟩ := robaOutLink_eq_true hroba
              exact ⟨rfl, hidle hslot, hfinite', hslot, hfree, by rw [hcand]; rfl⟩
          · next hrobable =>
              obtain rfl := Option.some.inj hget
              obtain rfl := robaOutLink_eq_false (by simpa [hrobable] using hroba)
              have hphase := hidle hslot
              exact ⟨h.enqueue (p := ⟨e.node t, .outLink⟩) (by simp [hphase, CommPhase.Waiting])
                (.inl ⟨rfl, rfl⟩) (fun r => by cases r <;> simp [hphase] <;> rfl) hpartner,
                rfl, hphase⟩
      · next hslot _ =>
          obtain ⟨s₁, htake, hget⟩ := Option.bind_eq_some_iff.mp hget
          obtain ⟨-, -, hinfinite₁, hhalf, hpartner₁⟩ := takeLink_eq_some htake
          have hphase := hidle hslot
          have hdone : ∃ s', r = .goOn s' false ∧ s'.infiniteNetLinks = s.infiniteNetLinks ∧
              s'.partnerNode = s.partnerNode ∧
              if s.halfDuplexLinks (e.node t) then
                s₁.takeLink ⟨e.node t, .inLink⟩ t .localHdLink = some s' else s₁ = s' := by
            rw [hhalf] at hget
            split at hget
            · next hduplex =>
                obtain ⟨s₂, htake', hget⟩ := Option.bind_eq_some_iff.mp hget
                obtain ⟨-, -, hinfinite₂, -, hpartner₂⟩ := takeLink_eq_some htake'
                exact ⟨s₂, (Option.some.inj hget).symm, hinfinite₂.trans hinfinite₁,
                  hpartner₂.trans hpartner₁, by rwa [if_pos hduplex]⟩
            · next hduplex =>
                exact ⟨s₁, (Option.some.inj hget).symm, hinfinite₁, hpartner₁,
                  by rw [if_neg hduplex]⟩
          obtain ⟨s', rfl, hinfinite', hpartner', hhd⟩ := hdone
          refine ⟨.holdsOut, .inl rfl, by simp [hphase], ?_, hinfinite', hpartner'⟩
          refine h.takeSide .localLink .localHdLink
            (by simp [hphase, CommPhase.Waiting]) (by simp [CommPhase.Waiting]) huses
            (uses_localHdLink hne hfinite') rfl (by rw [hphase]; exact ⟨rfl, rfl⟩) ⟨rfl, rfl⟩
            (fun r hr hr' => ?_) htake hhd
          cases r <;> first | exact absurd rfl hr | exact absurd rfl hr' | (rw [hphase]; rfl)

theorem robaAssert_eq_some {node : Nat} {inOut : LinkType} (h : robaAssert s t node inOut = some s') :
    robaOutLink s t node inOut false = some (true, s') := by
  obtain ⟨⟨linkRobat, s₁⟩, hroba, h⟩ := Option.bind_eq_some_iff.mp h
  simp only at h
  split at h
  · next hrobat =>
      obtain rfl := Option.some.inj h
      rw [hroba, hrobat]
  · cases h

/-- After the steal that was put off the communication has its output link. -/
theorem LinkInv.robaOutIfRobable (h : LinkInv e all ph s) (hne : e.node t ≠ e.nodePartner t)
    {robable : Bool}
    (hpending : robable → ph t = .idle ∧ s.infiniteNetLinks (e.node t) = false)
    (hroba : robaOutIfRobable s t (e.node t) robable = some s') :
    ∃ ph', LinkInv e all ph' s' ∧ ph' t = (if robable then .holdsOut else ph t) ∧
      OthersKept ph ph' t ∧ s'.infiniteNetLinks = s.infiniteNetLinks ∧
      s'.halfDuplexLinks = s.halfDuplexLinks := by
  unfold Links.robaOutIfRobable at hroba
  split at hroba
  · next hrobable =>
      obtain ⟨hphase, hfinite⟩ := hpending hrobable
      obtain ⟨-, link, c, partner, hcand, hmem, rfl⟩ := robaOutLink_eq_true (robaAssert_eq_some hroba)
      have hct : c ≠ t := by
        rintro rfl
        rw [(h.candidate hcand hmem).1] at hphase
        cases hphase
      refine ⟨_, h.steal .localLink .localHdLink (q := .holdsOut) hcand hmem
        (by simp [hphase, CommPhase.Waiting]) (by simp [CommPhase.Waiting])
        (by simp [uses_localLink hne, hfinite]) (uses_localHdLink hne hfinite) rfl rfl
        (by rw [hphase]; exact ⟨rfl, rfl⟩) ⟨rfl, rfl⟩ (fun r hr hr' => ?_) (by simp) rfl rfl rfl
        rfl rfl rfl, ?_, ?_, rfl, rfl⟩
      · cases r <;> first | exact absurd rfl hr | exact absurd rfl hr' | (rw [hphase]; rfl)
      · rw [Function.update_of_ne hct.symm, Function.update_self, if_pos hrobable]
      · intro i hi
        by_cases hic : i = c
        · subst hic
          exact .inr ⟨(h.candidate hcand hmem).1, Function.update_self ..⟩
        · rw [Function.update_of_ne hic, Function.update_of_ne hi]
          exact .inl rfl
  · next hrobable =>
      obtain rfl := Option.some.inj hroba
      exact ⟨ph, h, by rw [if_neg hrobable], fun i _ => .inl rfl, rfl, rfl⟩

/-- The phase that a whole call leaves its communication in. -/
def CommPhase.After (granted : Bool) (q : CommPhase) : Prop :=
  if granted then q = .granted true true else q.Waiting

/-- The half duplex links of the partner are stolen as an input link. -/
theorem LinkInv.stealIn (h : LinkInv e all ph s) (hne : e.node t ≠ e.nodePartner t)
    (hphase : ph t = .holdsOut) (hfinite : s.infiniteNetLinks (e.nodePartner t) = false)
    (hroba : robaOutLink s t (e.nodePartner t) .inLink false = some (true, s')) :
    ∃ ph', LinkInv e all ph' s' ∧ (ph' t).After true ∧ OthersKept ph ph' t ∧
      s'.infiniteNetLinks = s.infiniteNetLinks := by
  obtain ⟨hhalf, link, c, partner, hcand, hmem, rfl⟩ := robaOutLink_eq_true hroba
  obtain ⟨hphaseC, -⟩ := h.candidate hcand hmem
  have hct : c ≠ t := by
    rintro rfl
    rw [hphaseC] at hphase
    cases hphase
  refine ⟨_, h.steal .partnerHdLink .partnerLink (q := .granted true true)
    hcand hmem (by simp [hphase, CommPhase.Waiting]) (by simp [CommPhase.Waiting])
    (by rw [uses_partnerHdLink hne hfinite]; exact hhalf rfl)
    (by rw [uses_partnerLink hne, hfinite, hhalf rfl]; rfl) rfl rfl
    (by rw [hphase]; exact ⟨rfl, rfl⟩) ⟨rfl, rfl⟩ (fun r hr hr' => ?_) (by simp) rfl rfl rfl
    rfl rfl rfl, ?_, ?_, rfl⟩
  · cases r <;> first | exact absurd rfl hr | exact absurd rfl hr' | (rw [hphase]; rfl)
  · simp [CommPhase.After, Function.update_of_ne hct.symm]
  · intro i hi
    by_cases hic : i = c
    · subst hic
      exact .inr ⟨hphaseC, Function.update_self ..⟩
    · rw [Function.update_of_ne hic, Function.update_of_ne hi]
      exact .inl rfl

/-- What the second half of a call makes of the phases. -/
def InPost (e : Ends) (all : LinkPool → List Link) (ph : Nat → CommPhase) (s : LinkState) (t : Nat)
    (granted : Bool) (s' : LinkState) : Prop :=
  ∃ ph', LinkInv e all ph' s' ∧ (ph' t).After granted ∧ OthersKept ph ph' t ∧
    s'.infiniteNetLinks = s.infiniteNetLinks ∧ (ph t = .granted true true → granted)

theorem LinkInv.inPost_infinite (h : LinkInv e all ph s)
    (hinfinite : s.infiniteNetLinks (e.nodePartner t))
    (hphase : ph t = .holdsOut ∨ ph t = .granted true true) : InPost e all ph s t true s := by
  refine ⟨Function.update ph t (.granted true true), ?_, by simp [CommPhase.After],
    othersKept_update ph _, rfl, fun _ => rfl⟩
  rcases hphase with hphase | hphase
  · refine h.rephase_of_hold (by simp [hphase, CommPhase.Waiting]) (by simp [CommPhase.Waiting])
      fun r huses => ?_
    cases r <;> simp [Ends.uses, Ends.pool, hinfinite] at huses <;> simp [hphase] <;> rfl
  · rwa [← hphase, Function.update_eq_self]

theorem LinkInv.inPost_own (h : LinkInv e all ph s) {robable : Bool} {link : Link}
    (hslot : s.ledger.slot (t, .partnerLink) = some link)
    (hpending : if robable then ph t = .idle ∧ s.infiniteNetLinks (e.node t) = false ∧
      s.infiniteNetLinks (e.nodePartner t) = false
      else ph t = .holdsOut ∨ ph t = .granted true true)
    (hroba : Links.robaOutIfRobable s t (e.node t) robable = some s') :
    InPost e all ph s t true s' := by
  have hheld : (ph t).hold .partnerLink ≠ .empty := fun hempty => by
    exact absurd (hslot.symm.trans (h.slot_eq_none hempty)) (Option.some_ne_none _)
  cases robable with
  | true =>
      rw [if_pos rfl] at hpending
      rw [hpending.1] at hheld
      exact absurd rfl hheld
  | false =>
      rw [if_neg (by simp)] at hpending
      have hphase : ph t = .granted true true := by
        refine hpending.resolve_left fun hphase => ?_
        rw [hphase] at hheld
        exact absurd rfl hheld
      obtain rfl := Option.some.inj hroba
      exact ⟨ph, h, by rw [hphase]; rfl, fun i _ => .inl rfl, rfl, fun _ => rfl⟩

theorem LinkInv.inPost_steal (h : LinkInv e all ph s) (hne : e.node t ≠ e.nodePartner t)
    {robable : Bool} {s₁ : LinkState} (hfinite : s.infiniteNetLinks (e.nodePartner t) = false)
    (hpending : robable → ph t = .idle ∧ s.infiniteNetLinks (e.node t) = false)
    (hholdsOut : (if robable then CommPhase.holdsOut else ph t) = .holdsOut)
    (hroba : Links.robaOutIfRobable s t (e.node t) robable = some s₁)
    (hassert : robaAssert s₁ t (e.nodePartner t) .inLink = some s') :
    InPost e all ph s t true s' := by
  obtain ⟨ph', h', hph', hothers, hinfinite, -⟩ := h.robaOutIfRobable hne hpending hroba
  rw [hholdsOut] at hph'
  obtain ⟨ph'', h'', hph'', hothers', hinfinite'⟩ :=
    h'.stealIn hne hph' (hinfinite ▸ hfinite) (robaAssert_eq_some hassert)
  exact ⟨ph'', h'', hph'', hothers.trans hothers', hinfinite'.trans hinfinite, fun _ => rfl⟩

/-- Without an input link the communication waits for it, or for an output link that it has not
stolen. -/
theorem LinkInv.inPost_busy (h : LinkInv e all ph s)
    (hpartner : s.partnerNode t = some (e.nodePartner t)) {robable : Bool}
    (hpending : robable → ph t = .idle ∧ s.infiniteNetLinks (e.node t) = false)
    (hholdsOut : (if robable then CommPhase.holdsOut else ph t) = .holdsOut) :
    InPost e all ph s t false (if robable then s.linkBusy t (e.node t) .outLink
      else s.linkBusy t (e.nodePartner t) .inLink) := by
  cases robable with
  | true =>
      have hphase := (hpending rfl).1
      refine ⟨_, h.enqueue (q := .waitOut) (p := ⟨e.node t, .outLink⟩)
        (by simp [hphase, CommPhase.Waiting]) (.inl ⟨rfl, rfl⟩) (fun r => ?_) hpartner,
        by simp [CommPhase.After, CommPhase.Waiting], othersKept_update ph _, rfl, by simp [hphase]⟩
      cases r <;> rw [hphase] <;> rfl
  | false =>
      have hphase : ph t = .holdsOut := hholdsOut
      refine ⟨_, h.enqueue (q := .waitIn) (p := ⟨e.nodePartner t, .inLink⟩)
        (by simp [hphase, CommPhase.Waiting]) (.inr ⟨rfl, rfl⟩) (fun r => ?_) hpartner,
        by simp [CommPhase.After, CommPhase.Waiting], othersKept_update ph _, rfl, by simp [hphase]⟩
      cases r <;> rw [hphase] <;> rfl

/-- A free input link is taken, with the half duplex link of its node. -/
theorem LinkInv.inPost_take (h : LinkInv e all ph s) (hne : e.node t ≠ e.nodePartner t)
    {robable granted : Bool} {s₁ s₂ : LinkState}
    (hfinite : s.infiniteNetLinks (e.nodePartner t) = false)
    (hpending : robable → ph t = .idle ∧ s.infiniteNetLinks (e.node t) = false)
    (hholdsOut : (if robable then CommPhase.holdsOut else ph t) = .holdsOut)
    (hroba : Links.robaOutIfRobable s t (e.node t) robable = some s₁)
    (htake : s₁.takeLink ⟨e.nodePartner t, .inLink⟩ t .partnerLink = some s₂)
    (hdone : (if s₂.halfDuplexLinks (e.nodePartner t) then
        (s₂.takeLink ⟨e.nodePartner t, .outLink⟩ t .partnerHdLink).bind fun s => some (true, s)
      else some (true, s₂)) = some (granted, s')) : InPost e all ph s t granted s' := by
  obtain ⟨ph', h', hph', hothers, hinfinite, -⟩ := h.robaOutIfRobable hne hpending hroba
  rw [hholdsOut] at hph'
  have hfinite₁ : s₁.infiniteNetLinks (e.nodePartner t) = false := hinfinite ▸ hfinite
  obtain ⟨-, -, hinfinite₂, hhalf, -⟩ := takeLink_eq_some htake
  have htaken : granted = true ∧ s'.infiniteNetLinks = s₁.infiniteNetLinks ∧
      if s₁.halfDuplexLinks (e.nodePartner t) then
        s₂.takeLink ⟨e.nodePartner t, .outLink⟩ t .partnerHdLink = some s'
      else s₂ = s' := by
    rw [hhalf] at hdone
    split at hdone
    · next hduplex =>
        obtain ⟨s₃, htake', hlast⟩ := Option.bind_eq_some_iff.mp hdone
        obtain ⟨rfl, rfl⟩ := Prod.mk.inj (Option.some.inj hlast)
        obtain ⟨-, -, hinfinite₃, -⟩ := takeLink_eq_some htake'
        exact ⟨rfl, hinfinite₃.trans hinfinite₂, by rwa [if_pos hduplex]⟩
    · next hduplex =>
        obtain ⟨rfl, rfl⟩ := Prod.mk.inj (Option.some.inj hdone)
        exact ⟨rfl, hinfinite₂, by rw [if_neg hduplex]⟩
  obtain ⟨rfl, hinfinite', hhd⟩ := htaken
  refine ⟨Function.update ph' t (.granted true true), ?_, by simp [CommPhase.After],
    hothers.trans (othersKept_update ph' _), hinfinite'.trans hinfinite, fun _ => rfl⟩
  refine h'.takeSide .partnerLink .partnerHdLink
    (by simp [hph', CommPhase.Waiting]) (by simp [CommPhase.Waiting])
    (by simp [uses_partnerLink hne, hfinite₁]) (uses_partnerHdLink hne hfinite₁) rfl
    (by rw [hph']; exact ⟨rfl, rfl⟩) ⟨rfl, rfl⟩ (fun r hr hr' => ?_) htake hhd
  cases r <;> first | exact absurd rfl hr | exact absurd rfl hr' | (rw [hph']; rfl)

/-- The second half of the call, for a partner with finite links or without a pending steal. -/
theorem LinkInv.getInLink (h : LinkInv e all ph s) (hne : e.node t ≠ e.nodePartner t)
    (hpartner : s.partnerNode t = some (e.nodePartner t)) {robable granted : Bool}
    (hpending : if robable then ph t = .idle ∧ s.infiniteNetLinks (e.node t) = false ∧
      s.infiniteNetLinks (e.nodePartner t) = false
      else ph t = .holdsOut ∨ ph t = .granted true true)
    (hget : getInLink s t (e.node t) (e.nodePartner t) robable = some (granted, s')) :
    InPost e all ph s t granted s' := by
  have hpending' : robable → ph t = .idle ∧ s.infiniteNetLinks (e.node t) = false := by
    intro hrobable
    rw [if_pos hrobable] at hpending
    exact ⟨hpending.1, hpending.2.1⟩
  unfold Links.getInLink at hget
  split at hget
  · next hinfinite =>
      obtain ⟨rfl, rfl⟩ := Prod.mk.inj (Option.some.inj hget)
      have hrobable : ¬ robable := fun hrobable => by
        rw [if_pos hrobable, hinfinite] at hpending
        exact absurd hpending.2.2 (by simp)
      rw [if_neg hrobable] at hpending
      exact h.inPost_infinite hinfinite hpending
  · next hfinite =>
      have hfinite' : s.infiniteNetLinks (e.nodePartner t) = false := by simpa using hfinite
      -- with a pending steal or without one, what precedes the reservation of the input link
      -- leaves the communication with its output link
      have hholdsOut : s.ledger.slot (t, .partnerLink) = none →
          (if robable then CommPhase.holdsOut else ph t) = .holdsOut := by
        intro hnone
        split
        · rfl
        · next hrobable =>
            rw [if_neg hrobable] at hpending
            refine hpending.resolve_right fun hphase => ?_
            have huses : e.uses s (t, .partnerLink) := by simp [uses_partnerLink hne, hfinite']
            obtain ⟨l, -, hslot⟩ := h.exists_slot huses (by rw [hphase]; rfl)
            exact absurd (hslot.symm.trans hnone) (Option.some_ne_none _)
      split at hget
      · next hslot =>
          obtain ⟨s₁, hroba, hget⟩ := Option.map_eq_some_iff.mp hget
          obtain ⟨rfl, rfl⟩ := Prod.mk.inj hget
          exact h.inPost_own hslot hpending hroba
      · next hslot hfree =>
          obtain ⟨⟨inRobable, s₁⟩, htest, hrest⟩ := Option.bind_eq_some_iff.mp hget
          simp only at hrest
          split at hrest
          · next hinRobable =>
              rw [hinRobable] at htest
              obtain ⟨-, _, _, _, -, -, rfl⟩ := robaOutLink_eq_true htest
              obtain ⟨s₂, hroba, hrest'⟩ := Option.bind_eq_some_iff.mp hrest
              obtain ⟨s₃, hassert, hdone⟩ := Option.bind_eq_some_iff.mp hrest'
              obtain ⟨rfl, rfl⟩ := Prod.mk.inj (Option.some.inj hdone)
              exact h.inPost_steal hne hfinite' hpending' (hholdsOut hslot) hroba hassert
          · next hinRobable =>
              obtain rfl := robaOutLink_eq_false (by simpa [hinRobable] using htest)
              have hbusy := h.inPost_busy hpartner hpending' (hholdsOut hslot)
              split at hrest
              · next hrobable =>
                  obtain ⟨rfl, rfl⟩ := Prod.mk.inj (Option.some.inj hrest)
                  rwa [if_pos hrobable] at hbusy
              · next hrobable =>
                  obtain ⟨rfl, rfl⟩ := Prod.mk.inj (Option.some.inj hrest)
                  rwa [if_neg hrobable] at hbusy
      · next hslot _ =>
          obtain ⟨s₁, hroba, hrest⟩ := Option.bind_eq_some_iff.mp hget
          obtain ⟨s₂, htake, hdone⟩ := Option.bind_eq_some_iff.mp hrest
          exact h.inPost_take hne hfinite' hpending' (hholdsOut hslot) hroba htake hdone

/-- A call that returns TRUE although it has a link to steal: the node of the sender has finite
links and none free, one of them is held by a communication without an input link, and
the partner has infinite links. -/
def StealsForInfinite (s : LinkState) (thread node nodePartner : Nat) : Prop :=
  node ≠ nodePartner ∧ StealPending s thread node ∧ s.infiniteNetLinks nodePartner

theorem LinkInv.setPartnerNode (h : LinkInv e all ph s) (ht : ph t ≠ .waitIn) (node : Option Nat) :
    LinkInv e all ph (s.setPartnerNode t node) := by
  refine ⟨h.pools, h.sound.congr rfl rfl, h.paired, h.queued, h.nodup, fun i hi => ?_⟩
  have hne : i ≠ t := by
    rintro rfl
    exact ht hi
  exact (Function.update_of_ne hne ..).trans (h.partner i hi)

/-- A call for a thread that is in no queue leaves it in a queue or with both its links, and one
that has them keeps them; a call that returns TRUE with a steal pending leaves it with nothing. -/
theorem LinkInv.getNetworkLinks_cases (h : LinkInv e all ph s) (hready : (ph t).Ready)
    {granted : Bool} (hget : getNetworkLinks s t (e.node t) (e.nodePartner t) = some (granted, s')) :
    s'.infiniteNetLinks = s.infiniteNetLinks ∧
    ((StealsForInfinite s t (e.node t) (e.nodePartner t) ∧ granted = true ∧ ph t = .idle ∧
        LinkInv e all ph s') ∨
      ∃ ph', LinkInv e all ph' s' ∧ (ph' t).After granted ∧ OthersKept ph ph' t ∧
        (ph t = .granted true true → granted)) := by
  have hnotIn : ∀ {q : CommPhase}, ¬ q.Waiting → q ≠ .waitIn := by
    rintro q hq rfl
    exact hq (.inr rfl)
  unfold Links.getNetworkLinks at hget
  split at hget
  · next heq =>
      obtain ⟨rfl, rfl⟩ := Prod.mk.inj (Option.some.inj hget)
      refine ⟨rfl, .inr ⟨_, h.rephase_of_hold (q := .granted true true) hready.not_waiting
        (by simp [CommPhase.Waiting]) fun r huses => ?_, by simp [CommPhase.After],
        othersKept_update ph _, fun _ => rfl⟩⟩
      simp [Ends.uses, heq] at huses
  · next hne =>
      obtain ⟨out, hout, hrest⟩ := Option.bind_eq_some_iff.mp hget
      have h₀ := h.setPartnerNode (hnotIn hready.not_waiting) (some (e.nodePartner t))
      have hpartner₀ : (s.setPartnerNode t (some (e.nodePartner t))).partnerNode t =
          some (e.nodePartner t) := Function.update_self ..
      have hpost := h₀.getOutLink hne hpartner₀ hready hout
      cases out with
      | busy s₁ =>
          obtain ⟨rfl, rfl⟩ := Prod.mk.inj (Option.some.inj hrest)
          exact ⟨hpost.2.1, .inr ⟨_, hpost.1, by simp [CommPhase.After, CommPhase.Waiting],
            othersKept_update ph _, by simp [hpost.2.2]⟩⟩
      | goOn s₁ robable =>
          obtain ⟨⟨granted', s₂⟩, hin, hlast⟩ := Option.bind_eq_some_iff.mp hrest
          have hdone : granted' = granted ∧ s'.infiniteNetLinks = s₂.infiniteNetLinks ∧
              ∀ ph', LinkInv e all ph' s₂ → (granted' → ph' t ≠ .waitIn) → LinkInv e all ph' s' := by
            simp only at hlast
            split at hlast
            · next hgranted =>
                obtain ⟨rfl, rfl⟩ := Prod.mk.inj (Option.some.inj hlast)
                exact ⟨hgranted, rfl, fun ph' h' ht => h'.setPartnerNode (ht hgranted) none⟩
            · next hgranted =>
                obtain ⟨rfl, rfl⟩ := Prod.mk.inj (Option.some.inj hlast)
                exact ⟨by simpa using hgranted, rfl, fun ph' h' _ => h'⟩
          obtain ⟨rfl, hinfinite'', hdone⟩ := hdone
          have hafter : ∀ {ph' : Nat → CommPhase}, (ph' t).After granted' →
              granted' → ph' t ≠ .waitIn := by
            intro ph' hph' hgranted
            rw [CommPhase.After, if_pos hgranted] at hph'
            simp [hph']
          cases robable with
          | false =>
              obtain ⟨q, hq, hkeep, h₁, hinfinite₁, hpartner₁⟩ := hpost
              obtain ⟨ph', h', hph', hothers, hinfinite', hgranted⟩ :=
                h₁.getInLink hne (by rw [hpartner₁, hpartner₀])
                  (by rw [if_neg (by simp), Function.update_self]; exact hq) hin
              refine ⟨hinfinite''.trans (hinfinite'.trans hinfinite₁),
                .inr ⟨ph', hdone ph' h' (hafter hph'), hph', (othersKept_update ph q).trans hothers,
                  fun hphase => hgranted ?_⟩⟩
              rw [Function.update_self, hkeep hphase]
          | true =>
              obtain ⟨rfl, hphase, hpending⟩ := hpost
              by_cases hinfinite : s.infiniteNetLinks (e.nodePartner t)
              · rw [Links.getInLink, if_pos (by exact hinfinite)] at hin
                obtain ⟨rfl, rfl⟩ := Prod.mk.inj (Option.some.inj hin)
                exact ⟨hinfinite'', .inl ⟨⟨hne, hpending, hinfinite⟩, rfl, hphase,
                  hdone ph h₀ fun _ => by simp [hphase]⟩⟩
              · have hfinite : s.infiniteNetLinks (e.nodePartner t) = false := by
                  simpa using hinfinite
                obtain ⟨ph', h', hph', hothers, hinfinite', hgranted⟩ := h₀.getInLink hne hpartner₀
                  (by rw [if_pos rfl]; exact ⟨hphase, hpending.1, hfinite⟩) hin
                exact ⟨hinfinite''.trans hinfinite',
                  .inr ⟨ph', hdone ph' h' (hafter hph'), hph', hothers, hgranted⟩⟩

theorem LinkInv.getNetworkLinks (h : LinkInv e all ph s) (hready : (ph t).Ready)
    (hsteals : ¬ StealsForInfinite s t (e.node t) (e.nodePartner t)) {granted : Bool}
    (hget : getNetworkLinks s t (e.node t) (e.nodePartner t) = some (granted, s')) :
    ∃ ph', LinkInv e all ph' s' ∧ (ph' t).After granted ∧ OthersKept ph ph' t ∧
      s'.infiniteNetLinks = s.infiniteNetLinks ∧ (ph t = .granted true true → granted) := by
  obtain ⟨hinfinite, hcases⟩ := h.getNetworkLinks_cases hready hget
  rcases hcases with ⟨hyes, -⟩ | ⟨ph', h', hph', hothers, hgranted⟩
  · exact absurd hyes hsteals
  · exact ⟨ph', h', hph', hothers, hinfinite, hgranted⟩

/-- A call with a pending steal and a partner of infinite links returns TRUE and leaves its
communication without an output link. -/
theorem getNetworkLinks_stealsForInfinite {node nodePartner : Nat} {granted : Bool}
    (hsteals : StealsForInfinite s t node nodePartner)
    (hget : getNetworkLinks s t node nodePartner = some (granted, s')) :
    granted = true ∧ s'.ledger.slot (t, .localLink) = none := by
  obtain ⟨hne, ⟨hfinite, hslot, hfree, hcand⟩, hinfinite⟩ := hsteals
  obtain ⟨⟨link, c⟩, hcand⟩ := Option.isSome_iff_exists.mp hcand
  rw [Links.getNetworkLinks, if_neg hne] at hget
  obtain ⟨out, hout, hrest⟩ := Option.bind_eq_some_iff.mp hget
  have hgoOn : out = .goOn (s.setPartnerNode t (some nodePartner)) true := by
    have hcand' : (s.setPartnerNode t (some nodePartner)).candidate node = some (link, c) := hcand
    simp only [Links.getOutLink, LinkState.setPartnerNode, hfinite, hslot, hfree,
      Bool.false_eq_true, if_false] at hout
    obtain ⟨⟨robable, s₁⟩, hroba, hresult⟩ := Option.bind_eq_some_iff.mp hout
    cases robable with
    | true =>
        obtain ⟨-, _, _, _, -, -, hs₁⟩ := robaOutLink_eq_true hroba
        rw [if_pos rfl] at hs₁
        rw [← Option.some.inj hresult, hs₁]
        rfl
    | false =>
        change robaOutLink (s.setPartnerNode t (some nodePartner)) t node .outLink true =
          some (false, s₁) at hroba
        simp only [robaOutLink, hcand', reduceCtorEq, false_and, if_false] at hroba
        obtain ⟨partner, -, hroba'⟩ := Option.bind_eq_some_iff.mp hroba
        split at hroba' <;> simp at hroba'
  subst hgoOn
  obtain ⟨⟨granted', s₂⟩, hin, hlast⟩ := Option.bind_eq_some_iff.mp hrest
  have hinfinite' : (s.setPartnerNode t (some nodePartner)).infiniteNetLinks nodePartner = true :=
    hinfinite
  rw [Links.getInLink, if_pos hinfinite'] at hin
  obtain ⟨rfl, rfl⟩ := Prod.mk.inj (Option.some.inj hin)
  obtain ⟨rfl, rfl⟩ := Prod.mk.inj (Option.some.inj hlast)
  exact ⟨rfl, hslot⟩

/-! ## LINKS_free_network_link -/

def CommPhase.woken : CommPhase → CommPhase
  | .waitOut => .idle
  | .waitIn => .holdsOut
  | q => q

theorem CommPhase.hold_woken (q : CommPhase) (r : LinkRole) : q.woken.hold r = q.hold r := by
  cases q <;> cases r <;> rfl

theorem CommPhase.Waiting.woken {q : CommPhase} (h : q.Waiting) :
    q.woken = .idle ∨ q.woken = .holdsOut := by
  rcases h with rfl | rfl
  · exact .inl rfl
  · exact .inr rfl

theorem LinkInv.waiting (h : LinkInv e all ph s) {p : LinkPool} (ht : t ∈ s.thFor p) :
    (ph t).Waiting := ((h.queued t p).mp ht).imp And.left And.left

theorem LinkInv.wake (h : LinkInv e all ph s) {p : LinkPool} {rest : List Nat}
    (hthFor : s.thFor p = t :: rest) :
    LinkInv e all (Function.update ph t (ph t).woken)
      { s with thFor := Function.update s.thFor p rest } := by
  have hwaiting := h.waiting (t := t) (p := p) (by simp [hthFor])
  have hnodup := h.nodup p
  rw [hthFor, List.nodup_cons] at hnodup
  have hother : ∀ p', p' ≠ p → t ∉ s.thFor p' := by
    intro p' hne hmem
    have hmem' : t ∈ s.thFor p := by simp [hthFor]
    rw [h.queued] at hmem hmem'
    rcases hmem with ⟨hq, rfl⟩ | ⟨hq, rfl⟩ <;> rcases hmem' with ⟨hq', rfl⟩ | ⟨hq', rfl⟩
    · exact hne rfl
    · rw [hq] at hq'
      cases hq'
    · rw [hq] at hq'
      cases hq'
    · exact hne rfl
  have hupdate : ∀ p', Function.update s.thFor p rest p' = if p' = p then rest else s.thFor p' :=
    fun p' => Function.update_apply ..
  refine ⟨h.pools, ?_, h.paired, fun i p' => ?_, fun p' => ?_, fun i hi => ?_⟩
  · exact (hold_update_of_not_uses fun r _ => (CommPhase.hold_woken (ph t) r).symm).symm ▸
      h.sound.congr rfl rfl
  · change i ∈ Function.update s.thFor p rest p' ↔ _
    rw [hupdate]
    by_cases hi : i = t
    · subst hi
      have hno : i ∉ if p' = p then rest else s.thFor p' := by
        split
        · exact hnodup.1
        · next hp => exact hother p' hp
      rcases hwaiting.woken with hwoken | hwoken <;> simp [hno, hwoken]
    · rw [Function.update_of_ne hi, ← h.queued]
      split
      · next hp => simp [hp, hthFor, hi]
      · rfl
  · change (Function.update s.thFor p rest p').Nodup
    rw [hupdate]
    split
    · exact hnodup.2
    · exact h.nodup p'
  · have hit : i ≠ t := by
      rintro rfl
      rw [Function.update_self] at hi
      rcases hwaiting.woken with hwoken | hwoken <;> rw [hwoken] at hi <;> cases hi
    rw [Function.update_of_ne hit] at hi
    exact h.partner i hi

theorem putBack_eq_some {p : LinkPool} {link : Link} (h : s.putBack p link = some s') :
    s' = { s with ledger := s.ledger.putBack p link } := by
  unfold LinkState.putBack at h
  split at h
  · exact (Option.some.inj h).symm
  · cases h

theorem LinksSound.putBack {hold : Nat × LinkRole → Hold} (h : LinksSound e all hold s)
    (hpools : ∀ p, ∀ l ∈ all p, l.pool = p) {k : Nat × LinkRole} {link : Link}
    (hk : hold k = .owned) (hslot : s.ledger.slot k = some link) :
    LinksSound e all (Function.update hold k .stale)
      { s with ledger := s.ledger.putBack (e.pool k) link } := by
  refine ⟨h.consistent.putBack hk hslot, fun p l hl i => ?_⟩
  have hnodup := (List.nodup_append.mp (h.consistent.nodup_append p)).2.1
  have hold' : l ∈ s.ledger.busy p ∧ (p = e.pool k → l ≠ link) := by
    simp only [Ledger.putBack, Function.update_apply] at hl
    split at hl
    · next hp =>
        subst hp
        exact ⟨List.mem_of_mem_erase hl, fun _ => (hnodup.mem_erase_iff.mp hl).1⟩
    · next hp => exact ⟨hl, fun heq => absurd heq hp⟩
  change s.linkThread l = some i ↔
    Function.update hold k .stale (i, .localLink) = .owned ∧ s.ledger.slot (i, .localLink) = some l
  rw [h.owners p l hold'.1]
  by_cases hi : (i, LinkRole.localLink) = k
  · have hne : s.ledger.slot (i, .localLink) ≠ some l := by
      intro hsloti
      rw [hi, hslot] at hsloti
      obtain rfl := Option.some.inj hsloti
      obtain ⟨l', hbusy, hslot'⟩ := h.consistent.owned k hk
      obtain rfl := Option.some.inj (hslot.symm.trans hslot')
      have hp : link.pool = p := h.pool_eq hpools (by simp [hold'.1])
      have hp' : link.pool = e.pool k := h.pool_eq hpools (by simp [hbusy])
      exact hold'.2 (hp.symm.trans hp') rfl
    simp [hne]
  · rw [Function.update_of_ne hi]

theorem LinkInv.pool_of_slot (h : LinkInv e all ph s) {role : LinkRole} {link : Link}
    (hphase : (ph t).hold role = .owned) (hslot : s.ledger.slot (t, role) = some link) :
    e.uses s (t, role) ∧ link.pool = e.pool (t, role) := by
  have huses : e.uses s (t, role) := by
    by_contra hno
    have hempty := h.consistent.empty (t, role) (by rw [Ends.hold, if_neg hno])
    exact absurd (hslot.symm.trans hempty) (Option.some_ne_none _)
  obtain ⟨link', hbusy, hslot'⟩ := h.exists_slot huses hphase
  obtain rfl := Option.some.inj (hslot.symm.trans hslot')
  exact ⟨huses, h.pools _ _ (h.consistent.mem_all hbusy)⟩

theorem LinkInv.putBackSide (h : LinkInv e all ph s) (role : LinkRole) {q : CommPhase} {link : Link}
    (ht : ¬ (ph t).Waiting) (hq : ¬ q.Waiting) (hslot : s.ledger.slot (t, role) = some link)
    (hpool : link.pool = e.pool (t, role))
    (hpoolHd : e.pool (t, link.type.hdRole) = ⟨link.node, link.type.other⟩)
    (huses : e.uses s (t, role))
    (husesHd : e.uses s (t, link.type.hdRole) = s.halfDuplexLinks link.node)
    (howned : (ph t).hold role = .owned ∧ (ph t).hold link.type.hdRole = .owned)
    (hstale : q.hold role = .stale ∧ q.hold link.type.hdRole = .stale)
    (hother : ∀ r, r ≠ role → r ≠ link.type.hdRole → (ph t).hold r = q.hold r)
    (hput : putBackLinks s link t = some s') :
    LinkInv e all (Function.update ph t q) s' ∧ s'.infiniteNetLinks = s.infiniteNetLinks := by
  have hne : role ≠ link.type.hdRole := by
    rintro heq
    rw [← heq, ← hpool] at hpoolHd
    cases htype : link.type <;> simp [Link.pool, LinkType.other, htype] at hpoolHd
  obtain ⟨s₁, hput₁, hrest⟩ := Option.bind_eq_some_iff.mp hput
  obtain rfl := putBack_eq_some hput₁
  have hsound₁ := h.sound.putBack h.pools (k := (t, role))
    (by rw [Ends.hold, if_pos huses, howned.1]) hslot
  split at hrest
  · next hduplex =>
      obtain ⟨hd, hslotHd, hput₂⟩ := Option.bind_eq_some_iff.mp hrest
      obtain rfl := putBack_eq_some hput₂
      have hduplex' : s.halfDuplexLinks link.node = true := hduplex
      refine ⟨h.rephase ht hq rfl rfl (fun n hn => ?_) ?_, rfl⟩
      · have hpaired := h.paired n hn
        simp only [Ledger.length_free_putBack, Link.pool, LinkPool.mk.injEq]
        cases link.type <;> simp [LinkType.other] <;> omega
      · have hsound₂ := hsound₁.putBack h.pools (k := (t, link.type.hdRole))
          (by simp [hne.symm, Ends.hold, husesHd, hduplex', howned.2]) hslotHd
        rw [hpool, ← hpoolHd]
        change LinksSound e all (e.hold s (Function.update ph t q)) _
        refine hold_eq_update (fun i hi r => ?_) (fun r => ?_) ▸ hsound₂
        · simp [hi]
        · by_cases hr : r = link.type.hdRole
          · subst hr
            simp [husesHd, hduplex', hstale.2]
          · by_cases hr' : r = role
            · subst hr'
              simp [hr, huses, hstale.1]
            · simp [hr, hr', Ends.hold, hother r hr' hr]
  · next hduplex =>
      obtain rfl := Option.some.inj hrest
      have hduplex' : s.halfDuplexLinks link.node = false := by simpa using hduplex
      refine ⟨h.rephase ht hq rfl rfl (fun n hn => ?_) ?_, rfl⟩
      · have hn' : s.halfDuplexLinks n = true := hn
        have hpaired := h.paired n hn'
        have hnode : n ≠ link.node := by
          rintro rfl
          rw [hn'] at hduplex'
          cases hduplex'
        simp only [Ledger.length_free_putBack, Link.pool, LinkPool.mk.injEq, hnode, false_and,
          if_false]
        omega
      · rw [hpool]
        change LinksSound e all (e.hold s (Function.update ph t q)) _
        refine hold_eq_update (fun i hi r => ?_) (fun r => ?_) ▸ hsound₁
        · simp [hi]
        · by_cases hr : r = role
          · subst hr
            simp [huses, hstale.1]
          · by_cases hr' : r = link.type.hdRole
            · subst hr'
              simp [hr, Ends.hold, husesHd, hduplex']
            · simp [hr, Ends.hold, hother r hr hr']

theorem LinkInv.freeLocal (h : LinkInv e all ph s) {inSide : Bool} {link : Link}
    (hphase : ph t = .granted true inSide) (hslot : s.ledger.slot (t, .localLink) = some link)
    (hput : putBackLinks s link t = some s') :
    LinkInv e all (Function.update ph t (.granted false inSide)) s' ∧
      s'.infiniteNetLinks = s.infiniteNetLinks := by
  obtain ⟨huses, hpool⟩ := h.pool_of_slot (by rw [hphase]; rfl) hslot
  obtain ⟨hnode, htype⟩ := LinkPool.mk.inj hpool
  have hne : e.node t ≠ e.nodePartner t := by
    simp only [Ends.uses, Bool.and_eq_true, decide_eq_true_eq] at huses
    exact huses.1.1
  have hfinite : s.infiniteNetLinks (e.node t) = false := by
    simpa [uses_localLink hne] using huses
  have hhdRole : link.type.hdRole = .localHdLink := by rw [htype]; rfl
  refine h.putBackSide .localLink (by simp [hphase, CommPhase.Waiting])
    (by simp [CommPhase.Waiting]) hslot hpool ?_ huses ?_ ?_ ?_ (fun r hr hr' => ?_) hput
  · rw [hhdRole, htype, hnode]
    rfl
  · rw [hhdRole, uses_localHdLink hne hfinite, hnode]
  · rw [hhdRole, hphase]
    exact ⟨rfl, rfl⟩
  · rw [hhdRole]
    exact ⟨rfl, rfl⟩
  · rw [hhdRole] at hr'
    cases r <;> first | exact absurd rfl hr | exact absurd rfl hr' | (rw [hphase]; rfl)

theorem LinkInv.freePartner (h : LinkInv e all ph s) {outSide : Bool} {link : Link}
    (hphase : ph t = .granted outSide true)
    (hslot : s.ledger.slot (t, .partnerLink) = some link)
    (hput : putBackLinks s link t = some s') :
    LinkInv e all (Function.update ph t (.granted outSide false)) s' ∧
      s'.infiniteNetLinks = s.infiniteNetLinks := by
  obtain ⟨huses, hpool⟩ := h.pool_of_slot (by rw [hphase]; rfl) hslot
  obtain ⟨hnode, htype⟩ := LinkPool.mk.inj hpool
  have hne : e.node t ≠ e.nodePartner t := by
    simp only [Ends.uses, Bool.and_eq_true, decide_eq_true_eq] at huses
    exact huses.1.1
  have hfinite : s.infiniteNetLinks (e.nodePartner t) = false := by
    simpa [uses_partnerLink hne] using huses
  have hhdRole : link.type.hdRole = .partnerHdLink := by rw [htype]; rfl
  refine h.putBackSide .partnerLink (by simp [hphase, CommPhase.Waiting])
    (by simp [CommPhase.Waiting]) hslot hpool ?_ huses ?_ ?_ ?_ (fun r hr hr' => ?_) hput
  · rw [hhdRole, htype, hnode]
    rfl
  · rw [hhdRole, uses_partnerHdLink hne hfinite, hnode]
  · rw [hhdRole, hphase]
    exact ⟨rfl, rfl⟩
  · rw [hhdRole]
    exact ⟨rfl, rfl⟩
  · rw [hhdRole] at hr'
    cases r <;> first | exact absurd rfl hr | exact absurd rfl hr' | (rw [hphase]; rfl)

theorem LinkInv.releaseLocal (h : LinkInv e all ph s) {inSide : Bool}
    (hphase : ph t = .granted true inSide) (hslot : s.ledger.slot (t, .localLink) = none) :
    LinkInv e all (Function.update ph t (.granted false inSide)) s := by
  have hnone : ¬ e.uses s (t, .localLink) := fun hlocal => by
    obtain ⟨l, -, hslot'⟩ := h.exists_slot hlocal (by rw [hphase]; rfl)
    exact absurd (hslot'.symm.trans hslot) (Option.some_ne_none _)
  refine h.rephase_of_hold (by simp [hphase, CommPhase.Waiting]) (by simp [CommPhase.Waiting])
    fun r huses => ?_
  cases r with
  | localLink => exact absurd huses hnone
  | localHdLink =>
      refine absurd ?_ hnone
      simp only [Ends.uses, Bool.and_eq_true] at huses ⊢
      exact ⟨huses.1, trivial⟩
  | partnerLink => rw [hphase]; rfl
  | partnerHdLink => rw [hphase]; rfl

theorem LinkInv.releasePartner (h : LinkInv e all ph s) {outSide : Bool}
    (hphase : ph t = .granted outSide true) (hslot : s.ledger.slot (t, .partnerLink) = none) :
    LinkInv e all (Function.update ph t (.granted outSide false)) s := by
  have hnone : ¬ e.uses s (t, .partnerLink) := fun hpartner => by
    obtain ⟨l, -, hslot'⟩ := h.exists_slot hpartner (by rw [hphase]; rfl)
    exact absurd (hslot'.symm.trans hslot) (Option.some_ne_none _)
  refine h.rephase_of_hold (by simp [hphase, CommPhase.Waiting]) (by simp [CommPhase.Waiting])
    fun r huses => ?_
  cases r with
  | localLink => rw [hphase]; rfl
  | localHdLink => rw [hphase]; rfl
  | partnerLink => exact absurd huses hnone
  | partnerHdLink =>
      refine absurd ?_ hnone
      simp only [Ends.uses, Bool.and_eq_true] at huses ⊢
      exact ⟨huses.1, trivial⟩

/-! ## Waking up -/

section

variable {ρ : Type} {reallySend : LinkState × ρ → Nat → Option (LinkState × ρ)}
  {J : LinkState × ρ → Prop}

/-- What the sends of woken up threads preserve holds after a link was freed, if it holds once
the links are put back. -/
theorem freeNetworkLink_preserves
    (hsend : ∀ x p first rest x', J x → x.1.thFor p = first :: rest →
      reallySend ({ x.1 with thFor := Function.update x.1.thFor p rest }, x.2) first = some x' →
        J x')
    {x x' : LinkState × ρ} {link : Link}
    (hput : ∀ links, putBackLinks x.1 link t = some links → J (links, x.2))
    (hfree : freeNetworkLink reallySend x link t = some x') : J x' := by
  have hwake : ∀ {x x' : LinkState × ρ} {p : LinkPool}, J x →
      wakeFirst reallySend x p = some x' → J x' := by
    intro x x' p hx hwake
    unfold wakeFirst at hwake
    split at hwake
    · obtain rfl := Option.some.inj hwake
      exact hx
    · next first rest hthFor => exact hsend x p first rest x' hx hthFor hwake
  obtain ⟨links, hlinks, hrest⟩ := Option.bind_eq_some_iff.mp hfree
  split at hrest
  · obtain ⟨x₁, hwake₁, hwake₂⟩ := Option.bind_eq_some_iff.mp hrest
    exact hwake (hwake (hput links hlinks) hwake₁) hwake₂
  · exact hwake (hput links hlinks) hrest

theorem freeThreadLink_preserves
    (hsend : ∀ x p first rest x', J x → x.1.thFor p = first :: rest →
      reallySend ({ x.1 with thFor := Function.update x.1.thFor p rest }, x.2) first = some x' →
        J x')
    {x x' : LinkState × ρ} {t : Nat} {role : LinkRole}
    (hunused : x.1.ledger.slot (t, role) = none → J x)
    (hput : ∀ link links, x.1.ledger.slot (t, role) = some link →
      putBackLinks x.1 link t = some links → J (links, x.2))
    (hfree : freeThreadLink reallySend x t role = some x') : J x' := by
  unfold freeThreadLink at hfree
  split at hfree
  · next hslot =>
      obtain rfl := Option.some.inj hfree
      exact hunused hslot
  · next link hslot => exact freeNetworkLink_preserves hsend (fun links => hput link links hslot) hfree

end

end Dimemas.Model.LinkOwnership
