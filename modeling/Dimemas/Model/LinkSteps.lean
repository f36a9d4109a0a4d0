import Dimemas.Model.NetworkLinks
/-!
# Link reservations step by step

`LINKS_free_network_link` wakes up threads that reserve links in the middle of it. Here
every call of `LINKS_get_network_links` is a step of its own. In every state each link is
free or busy, every busy link has one owner, and a half duplex node has as many free input
links as free output links. A step fails only where `roba_out_link` finds an output link
that a granted communication to a node of infinite links keeps.
-/

namespace Dimemas.Model.LinkSteps

open Dimemas.Library.Transitions Dimemas.Library.Reservations
open Dimemas.Model.Links Dimemas.Model.LinkOwnership Dimemas.Model.NetworkLinks

/-- The links, the calls made so far, and the queues of which the call of
`LINKS_free_network_link` in progress has still to wake up the first thread. -/
abbrev StepState := NetState × List LinkPool

/-- `LINKS_free_network_link` up to its wake ups. -/
def releaseLink (s : NetState) (t : Nat) (role : LinkRole) : Option StepState :=
  match s.1.ledger.slot (t, role) with
  | none => some (s, [])
  | some link =>
      (putBackLinks s.1 link t).map fun links =>
        ((links, s.2),
          if links.halfDuplexLinks link.node then [⟨link.node, link.type.other⟩, link.pool]
          else [link.pool])

inductive LinkStep
  | get (t : Nat)
  | freeLocal (t : Nat)
  | freePartner (t : Nat)
  | wake
deriving DecidableEq, Repr

def linkStep (e : Ends) (s : StepState) : LinkStep → Option StepState
  | .get t =>
      if s.2 = [] ∧ (s.1.2.status t = .new ∨ s.1.2.status t = .granted true true) then
        (getLinks e s.1 t).map (·, [])
      else none
  | .freeLocal t =>
      match s.2, s.1.2.status t with
      | [], .granted true inSide =>
          releaseLink (s.1.setStatus t (.granted false inSide)) t .localLink
      | _, _ => none
  | .freePartner t =>
      match s.2, s.1.2.status t with
      | [], .granted outSide true =>
          releaseLink (s.1.setStatus t (.granted outSide false)) t .partnerLink
      | _, _ => none
  | .wake =>
      match s.2 with
      | [] => none
      | p :: ps => (wakeFirst (getLinks e) s.1 p).map (·, ps)

/-- The step is one that the simulator may take, whether or not it panics. -/
def Enabled (s : StepState) : LinkStep → Prop
  | .get t => s.2 = [] ∧ (s.1.2.status t = .new ∨ s.1.2.status t = .granted true true)
  | .freeLocal t => s.2 = [] ∧ ∃ inSide, s.1.2.status t = .granted true inSide
  | .freePartner t => s.2 = [] ∧ ∃ outSide, s.1.2.status t = .granted outSide true
  | .wake => s.2 ≠ []

/-- The thread that a step calls `LINKS_get_network_links` for. -/
def callOf (s : StepState) : LinkStep → Option Nat
  | .get t => some t
  | .wake => s.2.head?.bind fun p => (s.1.1.thFor p).head?
  | _ => none

/-- The links at this call. A thread that is woken has left its queue. -/
def atCall (s : StepState) : LinkStep → LinkState
  | .wake =>
      match s.2 with
      | [] => s.1.1
      | p :: _ =>
          { s.1.1 with thFor := Function.update s.1.1.thFor p (s.1.1.thFor p).tail }
  | _ => s.1.1

/-! ## The panic of the half duplex links -/

/-- A link of a half duplex node has been taken, and the node has no other one. -/
def MissesHdLink (s : LinkState) (thread node : Nat) (inOut : LinkType) (role : LinkRole) : Prop :=
  s.halfDuplexLinks node ∧ s.ledger.slot (thread, role) = none ∧
    ∃ s', s.takeLink ⟨node, inOut⟩ thread role = some s' ∧
      s'.takeLink ⟨node, inOut.other⟩ thread inOut.hdRole = none

/-- `LINKS_get_network_links` panics: "Unable to obtain the Half Duplex link". The first case is
the output link of the own node, the second one the input link of the other node. -/
def PanicsHalfDuplex (e : Ends) (s : LinkState) (thread : Nat) : Prop :=
  let s := s.setPartnerNode thread (some (e.nodePartner thread))
  e.node thread ≠ e.nodePartner thread ∧
    (s.infiniteNetLinks (e.node thread) = false ∧
        MissesHdLink s thread (e.node thread) .outLink .localLink ∨
      ∃ s₁ robable s₂, getOutLink s thread (e.node thread) = some (.goOn s₁ robable) ∧
        s₁.infiniteNetLinks (e.nodePartner thread) = false ∧
        robaOutIfRobable s₁ thread (e.node thread) robable = some s₂ ∧
        MissesHdLink s₂ thread (e.nodePartner thread) .inLink .partnerLink)

/-! ## The steps make up the runs -/

variable {e : Ends} {all : LinkPool → List Link} {ph : Nat → CommPhase} {s s' : LinkState}
  {t : Nat}

theorem run_wake {x x' : NetState} {p : LinkPool} {ps : List LinkPool}
    (h : wakeFirst (getLinks e) x p = some x') :
    Run (ofPartial (linkStep e)) (x, p :: ps) [⟨(x, p :: ps), .wake, (x', ps)⟩] (x', ps) := by
  refine .snoc .nil ?_
  simp only [ofPartial, linkStep, h, Option.map_some]

theorem run_release {x x' : NetState} {role : LinkRole} {y : StepState}
    (hrelease : releaseLink x t role = some y)
    (h : freeThreadLink (getLinks e) x t role = some x') :
    ∃ tr, Run (ofPartial (linkStep e)) y tr (x', []) := by
  unfold freeThreadLink at h
  unfold releaseLink at hrelease
  split at h
  · next hslot =>
      simp only [hslot, Option.some.injEq] at h hrelease
      subst h hrelease
      exact ⟨[], .nil⟩
  · next link hslot =>
      simp only [hslot] at hrelease
      obtain ⟨links, hput, rfl⟩ := Option.map_eq_some_iff.mp hrelease
      obtain ⟨links', hput', h⟩ := Option.bind_eq_some_iff.mp h
      obtain rfl := Option.some.inj (hput.symm.trans hput')
      split at h
      · next hhalf =>
          obtain ⟨x₁, hwake₁, hwake₂⟩ := Option.bind_eq_some_iff.mp h
          rw [if_pos hhalf]
          exact ⟨_, (run_wake hwake₁).append (run_wake hwake₂)⟩
      · next hhalf =>
          rw [if_neg hhalf]
          exact ⟨_, run_wake h⟩

theorem run_of_netNext {x x' : NetState} {l : LinkLabel} (h : netNext e x l = some x') :
    ∃ tr, Run (ofPartial (linkStep e)) (x, []) tr (x', []) := by
  have hfree : ∀ {y : NetState} {role : LinkRole} {l : LinkStep} {i : Nat},
      linkStep e (x, []) l = releaseLink y i role →
      freeThreadLink (getLinks e) y i role = some x' →
      ∃ tr, Run (ofPartial (linkStep e)) (x, []) tr (x', []) := by
    intro y role l i hlabel hfree
    have hsome : ∃ z, releaseLink y i role = some z := by
      unfold freeThreadLink at hfree
      unfold releaseLink
      cases hslot : y.1.ledger.slot (i, role) with
      | none => exact ⟨_, rfl⟩
      | some link =>
          simp only [hslot] at hfree
          obtain ⟨links, hput, -⟩ := Option.bind_eq_some_iff.mp hfree
          exact ⟨_, by simp only [hput, Option.map_some]; rfl⟩
    obtain ⟨z, hz⟩ := hsome
    obtain ⟨tr, hrun⟩ := run_release hz hfree
    exact ⟨_, (Run.snoc .nil (hlabel.trans hz)).append hrun⟩
  cases l with
  | get i =>
      simp only [netNext] at h
      split at h
      · next hstatus =>
          refine ⟨_, .snoc .nil (l := .get i) ?_⟩
          simp only [ofPartial, linkStep, hstatus, h, and_self, if_true, Option.map_some]
      · cases h
  | freeLocal i =>
      simp only [netNext] at h
      split at h
      · next inSide hstatus =>
          exact hfree (l := .freeLocal i) (by simp only [linkStep, hstatus]) h
      · cases h
  | freePartner i =>
      simp only [netNext] at h
      split at h
      · next outSide hstatus =>
          exact hfree (l := .freePartner i) (by simp only [linkStep, hstatus]) h
      · cases h

/-! ## Progress -/

/-- A communication that was granted its links keeps an output link, and has no input link
because its partner has infinite links. -/
def KeepsOut (e : Ends) (s : LinkState) (ph : Nat → CommPhase) (c : Nat) : Prop :=
  e.uses s (c, .localLink) ∧ s.infiniteNetLinks (e.nodePartner c) ∧
    ∃ inSide, ph c = .granted true inSide

theorem candidate_linkThread {node c : Nat} {link : Link} (h : s.candidate node = some (link, c)) :
    s.linkThread link = some c ∧ s.ledger.slot (c, .partnerLink) = none := by
  obtain ⟨before, link', after, -, hlink, -⟩ := List.findSome?_eq_some_iff.mp h
  obtain ⟨candidat, hthread, hlink⟩ := Option.bind_eq_some_iff.mp hlink
  split at hlink
  · next hslot =>
      obtain ⟨rfl, rfl⟩ := Prod.mk.inj (Option.some.inj hlink)
      exact ⟨hthread, hslot.2⟩
  · cases hlink

/-- Whose own link a busy output link is, as long as it has no input link: a communication of
the node that waits for its input link, one that keeps its output link, or one that was just
woken up. -/
theorem owner_phase (h : LinkInv e all ph s) {node c : Nat} {link : Link}
    (hbusy : link ∈ s.ledger.busy ⟨node, .outLink⟩) (hthread : s.linkThread link = some c)
    (hpartner : s.ledger.slot (c, .partnerLink) = none) :
    e.node c = node ∧ (ph c = .waitIn ∨ ph c = .holdsOut ∨ KeepsOut e s ph c) := by
  obtain ⟨hown, hslot⟩ := (h.sound.owners _ _ hbusy c).mp hthread
  have huses : e.uses s (c, .localLink) := by
    by_contra hno
    rw [Ends.hold, if_neg hno] at hown
    cases hown
  obtain ⟨link', hbusy', hslot'⟩ := h.consistent.owned _ hown
  obtain rfl := Option.some.inj (hslot.symm.trans hslot')
  have hnode : e.node c = node := congrArg LinkPool.node
    ((h.pools _ _ (h.consistent.mem_all hbusy')).symm.trans (h.pools _ _ (h.consistent.mem_all hbusy)))
  refine ⟨hnode, ?_⟩
  rw [Ends.hold, if_pos huses] at hown
  cases hphase : ph c with
  | idle => rw [hphase] at hown; cases hown
  | waitOut => rw [hphase] at hown; cases hown
  | holdsOut => exact .inr (.inl rfl)
  | waitIn => exact .inl rfl
  | granted outSide inSide =>
      cases outSide with
      | false => rw [hphase] at hown; cases hown
      | true =>
          refine .inr (.inr ⟨huses, ?_, inSide, hphase⟩)
          by_contra hfinite
          have hne : e.node c ≠ e.nodePartner c := by
            simp only [Ends.uses, Bool.and_eq_true, decide_eq_true_eq] at huses
            exact huses.1.1
          have husesIn : e.uses s (c, .partnerLink) := by
            simpa [uses_partnerLink hne] using hfinite
          -- the input link is owned, or was put back and is still referred to
          cases inSide with
          | true =>
              obtain ⟨l, -, hslot'⟩ := h.exists_slot husesIn (by rw [hphase]; rfl)
              exact absurd (hslot'.symm.trans hpartner) (Option.some_ne_none _)
          | false =>
              refine h.consistent.stale (c, .partnerLink) ?_ hpartner
              rw [Ends.hold, if_pos husesIn, hphase]
              rfl

theorem candidate_phase (h : LinkInv e all ph s) {node c : Nat} {link : Link}
    (hcand : s.candidate node = some (link, c)) :
    e.node c = node ∧ (ph c = .waitIn ∨ ph c = .holdsOut ∨ KeepsOut e s ph c) := by
  obtain ⟨hthread, hpartner⟩ := candidate_linkThread hcand
  exact owner_phase h (candidate_eq_some hcand).1 hthread hpartner

/-- `roba_out_link` fails only on an output link that is kept or was just woken up. -/
theorem robaOutLink_eq (h : LinkInv e all ph s) (node i : Nat) (inOut : LinkType) (testOnly : Bool)
    (hcand : ∀ link c, s.candidate node = some (link, c) →
      ph c ≠ .holdsOut ∧ ¬ KeepsOut e s ph c) :
    ∃ s', robaOutLink s i node inOut testOnly =
      some ((inOut = .outLink || s.halfDuplexLinks node) && (s.candidate node).isSome, s') := by
  unfold robaOutLink
  split
  · next hfull =>
      refine ⟨s, ?_⟩
      simp only [Bool.not_eq_true'] at hfull
      simp [hfull.1, hfull.2]
  · next hhalf =>
      have hallowed : (inOut = .outLink || s.halfDuplexLinks node) = true := by
        cases inOut <;> simp_all
      cases hfound : s.candidate node with
      | none => exact ⟨s, by simp⟩
      | some p =>
          obtain ⟨link, c⟩ := p
          obtain ⟨hholds, hkeeps⟩ := hcand link c hfound
          have hphase : ph c = .waitIn :=
            ((candidate_phase h hfound).2.resolve_right fun hor => hor.elim hholds hkeeps)
          have hmem : c ∈ s.thFor ⟨e.nodePartner c, .inLink⟩ :=
            (h.queued c _).mpr (.inr ⟨hphase, rfl⟩)
          simp only [h.partner c hphase, Option.bind_eq_bind, Option.bind_some, hmem,
            not_true_eq_false, if_false, hallowed, Option.isSome_some, Bool.and_true]
          split
          · exact ⟨_, rfl⟩
          · exact ⟨_, rfl⟩

/-- What holds before a call: no communication but the caller was just woken up, and none keeps
an output link of the two nodes. -/
structure CallReady (e : Ends) (s : LinkState) (ph : Nat → CommPhase) (t : Nat) : Prop where
  ready : (ph t).Ready
  only : ∀ i, ph i = .holdsOut → i = t
  keeps : ∀ c, e.node c = e.node t ∨ e.node c = e.nodePartner t → ¬ KeepsOut e s ph c

theorem free_ne_nil_of_paired (h : LinkInv e all ph s) {n : Nat} (hhalf : s.halfDuplexLinks n) :
    s.ledger.free ⟨n, .outLink⟩ ≠ [] ↔ s.ledger.free ⟨n, .inLink⟩ ≠ [] := by
  rw [← List.length_pos_iff, ← List.length_pos_iff, h.paired n hhalf]

/-- The first half of a call finds the half duplex link. -/
theorem getOutLink_isSome (h : LinkInv e all ph s) (hcall : CallReady e s ph t) :
    ∃ r, getOutLink s t (e.node t) = some r := by
  unfold Links.getOutLink
  split
  · exact ⟨_, rfl⟩
  · split
    · exact ⟨_, rfl⟩
    · next hslot _ =>
        obtain ⟨s', hroba⟩ := robaOutLink_eq h (e.node t) t .outLink true
          fun link c hfound => by
            obtain ⟨hnode, -⟩ := candidate_phase h hfound
            refine ⟨fun hholds => ?_, hcall.keeps c (.inl hnode)⟩
            obtain rfl := hcall.only c hholds
            exact absurd (hslot.symm.trans (candidate_eq_some hfound).2) (Option.some_ne_none _).symm
        simp only [hroba, Option.bind_eq_bind, Option.bind_some]
        split <;> exact ⟨_, rfl⟩
    · next hslot hfree =>
        have hout : s.ledger.free ⟨e.node t, .outLink⟩ ≠ [] := by simp [hfree]
        obtain ⟨s₁, htake⟩ := takeLink_isSome t .localLink hout
        obtain ⟨-, -, -, hhalf, -⟩ := takeLink_eq_some htake
        simp only [htake, Option.bind_eq_bind, Option.bind_some, hhalf]
        split
        · next hduplex =>
            have hin : s₁.ledger.free ⟨e.node t, .inLink⟩ ≠ [] := by
              rw [← List.length_pos_iff]
              have hlength := length_free_takeLink htake ⟨e.node t, .inLink⟩
              have hpos := List.length_pos_iff.mpr ((free_ne_nil_of_paired h hduplex).mp hout)
              simp only [LinkPool.mk.injEq, reduceCtorEq, and_false, if_false] at hlength
              omega
            obtain ⟨s₂, htake'⟩ := takeLink_isSome t .localHdLink hin
            rw [htake']
            exact ⟨_, rfl⟩
        · exact ⟨_, rfl⟩

theorem findSome?_congr {α β : Type} {f g : α → Option β} {l : List α} (h : ∀ x ∈ l, f x = g x) :
    l.findSome? f = l.findSome? g := by
  induction l with
  | nil => rfl
  | cons x l ih =>
      rw [List.findSome?_cons, List.findSome?_cons, h x (by simp),
        ih fun y hy => h y (by simp [hy])]

/-- The steal of an output link of one node leaves what there is to steal at another. -/
theorem candidate_of_robaOut (h : LinkInv e all ph s) {n : Nat} (hne : e.node t ≠ n)
    (hidle : ph t = .idle) (hroba : robaAssert s t (e.node t) .outLink = some s') :
    s'.candidate n = s.candidate n := by
  obtain ⟨-, link, c, partner, hcand, -, rfl⟩ := robaOutLink_eq_true (robaAssert_eq_some hroba)
  obtain ⟨hbusy, hslot⟩ := candidate_eq_some hcand
  have hslotT := h.slot_eq_none (t := t) (r := .localLink) (by rw [hidle]; rfl)
  unfold LinkState.candidate
  refine findSome?_congr fun l hl => ?_
  change l ∈ s.ledger.busy ⟨n, .outLink⟩ at hl
  have hl' : l ≠ link := by
    rintro rfl
    have hpool := (h.pools _ _ (h.consistent.mem_all hbusy)).symm.trans
      (h.pools _ _ (h.consistent.mem_all hl))
    exact hne (congrArg LinkPool.node hpool)
  change (Function.update s.linkThread link (some t) l >>= _) = _
  rw [Function.update_of_ne hl']
  cases hthread : s.linkThread l with
  | none => rfl
  | some i =>
      have hsloti := ((h.sound.owners _ l hl i).mp hthread).2
      have hic : i ≠ c := by
        rintro rfl
        exact hl' (Option.some.inj (hsloti.symm.trans hslot))
      have hit : i ≠ t := by
        rintro rfl
        exact absurd (hsloti.symm.trans hslotT) (Option.some_ne_none _)
      simp [LinkState.linkBusyPrimer, LinkState.stealLink, Ledger.slot_transfer, hic, hit,
        LinkState.extractWaiting]

theorem free_robaOutIfRobable {robable : Bool} {p : LinkPool}
    (hroba : robaOutIfRobable s t (e.node t) robable = some s') :
    s'.ledger.free p = s.ledger.free p := by
  unfold Links.robaOutIfRobable at hroba
  split at hroba
  · obtain ⟨-, link, c, partner, -, -, rfl⟩ := robaOutLink_eq_true (robaAssert_eq_some hroba)
    rfl
  · rw [Option.some.inj hroba]

/-- With a steal put off or without one, the second half of a call gets on. -/
theorem robaOutIfRobable_isSome (h : LinkInv e all ph s) {robable : Bool}
    (hcall : robable → ph t = .idle ∧ (s.candidate (e.node t)).isSome)
    (hcand : ∀ link c, s.candidate (e.node t) = some (link, c) →
      ph c ≠ .holdsOut ∧ ¬ KeepsOut e s ph c) :
    ∃ s', robaOutIfRobable s t (e.node t) robable = some s' := by
  unfold Links.robaOutIfRobable
  split
  · next hrobable =>
      obtain ⟨s', hroba⟩ := robaOutLink_eq h _ t .outLink false hcand
      rw [(hcall hrobable).2] at hroba
      exact ⟨s', by simp only [robaAssert, hroba]; rfl⟩
  · exact ⟨s, rfl⟩

theorem keepsOut_of_othersKept {ph' : Nat → CommPhase} (hothers : OthersKept ph ph' t)
    (hinfinite : s'.infiniteNetLinks = s.infiniteNetLinks) {c : Nat} (hc : c ≠ t)
    (h : KeepsOut e s' ph' c) : KeepsOut e s ph c := by
  obtain ⟨huses, hinf, inSide, hphase⟩ := h
  have huses' : e.uses s (c, .localLink) := by
    simpa [Ends.uses, hinfinite] using huses
  refine ⟨huses', hinfinite ▸ hinf, inSide, ?_⟩
  rcases hothers c hc with heq | ⟨-, hout⟩
  · rw [← heq, hphase]
  · rw [hout] at hphase
    cases hphase

/-- The second half of a call finds the half duplex link, and what it was to steal. -/
theorem getInLink_isSome (h : LinkInv e all ph s) (hne : e.node t ≠ e.nodePartner t)
    (honly : ∀ i, ph i = .holdsOut → i = t)
    (hkeeps : ∀ c, c ≠ t → e.node c = e.node t ∨ e.node c = e.nodePartner t → ¬ KeepsOut e s ph c)
    {robable : Bool}
    (hcall : if robable then ph t = .idle ∧ s.infiniteNetLinks (e.node t) = false ∧
      (s.candidate (e.node t)).isSome else ph t = .holdsOut ∨ ph t = .granted true true) :
    ∃ r, getInLink s t (e.node t) (e.nodePartner t) robable = some r := by
  have hrobable : robable → ph t = .idle ∧ s.infiniteNetLinks (e.node t) = false ∧
      (s.candidate (e.node t)).isSome := fun hyes => by rwa [if_pos hyes] at hcall
  obtain ⟨s₁, hroba⟩ : ∃ s₁, robaOutIfRobable s t (e.node t) robable = some s₁ := by
    by_cases hyes : robable
    · obtain ⟨hidle, -, hsome⟩ := hrobable hyes
      refine robaOutIfRobable_isSome h (fun _ => ⟨hidle, hsome⟩) fun link c hfound => ?_
      have hct : c ≠ t := by
        rintro rfl
        have hnone := h.slot_eq_none (t := c) (r := .localLink) (by rw [hidle]; rfl)
        exact absurd ((candidate_eq_some hfound).2.symm.trans hnone) (Option.some_ne_none _)
      exact ⟨fun hholds => hct (honly c hholds),
        hkeeps c hct (.inl (candidate_phase h hfound).1)⟩
    · exact ⟨s, by rw [Links.robaOutIfRobable, if_neg hyes]⟩
  have hpartner : ∀ {s : LinkState} {ph : Nat → CommPhase}, LinkInv e all ph s →
      (∀ i, ph i = .holdsOut → i = t) →
      (∀ c, c ≠ t → e.node c = e.nodePartner t → ¬ KeepsOut e s ph c) →
      ∀ link c, s.candidate (e.nodePartner t) = some (link, c) →
        ph c ≠ .holdsOut ∧ ¬ KeepsOut e s ph c := by
    intro s ph h honly hkeeps link c hfound
    obtain ⟨hnode, -⟩ := candidate_phase h hfound
    have hct : c ≠ t := by
      rintro rfl
      exact hne hnode
    exact ⟨fun hholds => hct (honly c hholds), hkeeps c hct hnode⟩
  obtain ⟨ph₁, h₁, hph₁, hothers, hinfinite₁, hhalf₁⟩ := h.robaOutIfRobable hne
    (fun hyes => ⟨(hrobable hyes).1, (hrobable hyes).2.1⟩) hroba
  have hcand₁ := hpartner h₁ (fun i hi => by
      by_contra hit
      rcases hothers i hit with heq | ⟨-, hout⟩
      · exact hit (honly i (heq ▸ hi))
      · rw [hout] at hi
        cases hi) fun c hct hnode hkept =>
    hkeeps c hct (.inr hnode) (keepsOut_of_othersKept hothers hinfinite₁ hct hkept)
  unfold Links.getInLink
  split
  · exact ⟨_, rfl⟩
  · split
    · rw [hroba]
      exact ⟨_, rfl⟩
    · obtain ⟨s₂, htest⟩ := robaOutLink_eq h _ t .inLink true
        (hpartner h honly fun c hct hnode => hkeeps c hct (.inr hnode))
      simp only [htest, Option.bind_eq_bind, Option.bind_some]
      split
      · next hsome =>
          simp only [reduceCtorEq, decide_false, Bool.false_or, Bool.and_eq_true] at hsome
          obtain rfl : s = s₂ := by
            rw [show ((decide (LinkType.inLink = LinkType.outLink) ||
              s.halfDuplexLinks (e.nodePartner t)) &&
                (s.candidate (e.nodePartner t)).isSome) = true by simp [hsome]] at htest
            obtain ⟨-, _, _, _, -, -, heq⟩ := robaOutLink_eq_true htest
            exact (by rw [if_pos rfl] at heq; exact heq.symm)
          have hcandidate : s₁.candidate (e.nodePartner t) = s.candidate (e.nodePartner t) := by
            by_cases hyes : robable
            · rw [Links.robaOutIfRobable, if_pos hyes] at hroba
              exact candidate_of_robaOut h hne (hrobable hyes).1 hroba
            · rw [Links.robaOutIfRobable, if_neg hyes] at hroba
              rw [Option.some.inj hroba]
          obtain ⟨s₃, hsteal⟩ := robaOutLink_eq h₁ _ t .inLink false hcand₁
          rw [hcandidate, hhalf₁, hsome.1, hsome.2] at hsteal
          simp only [hroba, robaAssert, hsteal, Option.bind_some]
          exact ⟨_, rfl⟩
      · split <;> exact ⟨_, rfl⟩
    · next hslot hfree =>
        have hin : s₁.ledger.free ⟨e.nodePartner t, .inLink⟩ ≠ [] := by
          rw [free_robaOutIfRobable hroba, hfree]
          simp
        obtain ⟨s₂, htake⟩ := takeLink_isSome t .partnerLink hin
        obtain ⟨-, -, -, hhalf₂, -⟩ := takeLink_eq_some htake
        simp only [hroba, htake, Option.bind_eq_bind, Option.bind_some, hhalf₂]
        split
        · next hduplex =>
            have hout : s₂.ledger.free ⟨e.nodePartner t, .outLink⟩ ≠ [] := by
              rw [← List.length_pos_iff]
              have hlength := length_free_takeLink htake ⟨e.nodePartner t, .outLink⟩
              have hpos := List.length_pos_iff.mpr ((free_ne_nil_of_paired h₁ hduplex).mpr hin)
              simp only [LinkPool.mk.injEq, reduceCtorEq, and_false, if_false] at hlength
              omega
            obtain ⟨s₃, htake'⟩ := takeLink_isSome t .partnerHdLink hout
            rw [htake']
            exact ⟨_, rfl⟩
        · exact ⟨_, rfl⟩

theorem getNetworkLinks_isSome (h : LinkInv e all ph s) (hcall : CallReady e s ph t) :
    ∃ r, getNetworkLinks s t (e.node t) (e.nodePartner t) = some r := by
  unfold Links.getNetworkLinks
  split
  · exact ⟨_, rfl⟩
  · next hne =>
      have hnotIn : ph t ≠ .waitIn := fun hin => hcall.ready.not_waiting (.inr hin)
      have h₀ := h.setPartnerNode hnotIn (some (e.nodePartner t))
      have hpartner₀ : (s.setPartnerNode t (some (e.nodePartner t))).partnerNode t =
          some (e.nodePartner t) := Function.update_self ..
      have hcall₀ : CallReady e (s.setPartnerNode t (some (e.nodePartner t))) ph t :=
        ⟨hcall.ready, hcall.only, hcall.keeps⟩
      obtain ⟨out, hout⟩ := getOutLink_isSome h₀ hcall₀
      have hpost := h₀.getOutLink hne hpartner₀ hcall.ready hout
      simp only [hout, Option.bind_eq_bind, Option.bind_some]
      cases out with
      | busy s₁ => exact ⟨_, rfl⟩
      | goOn s₁ robable =>
          have hin : ∃ r, getInLink s₁ t (e.node t) (e.nodePartner t) robable = some r := by
            cases robable with
            | true =>
                obtain ⟨rfl, hidle, hpending⟩ := hpost
                exact getInLink_isSome h₀ hne hcall.only (fun c _ => hcall₀.keeps c)
                  (by rw [if_pos rfl]; exact ⟨hidle, hpending.1, hpending.2.2.2⟩)
            | false =>
                obtain ⟨q, hq, -, h₁, hinfinite₁, hpartner₁⟩ := hpost
                refine getInLink_isSome h₁ hne (fun i hi => ?_) (fun c hct hnode hkept => ?_)
                  (by rw [if_neg (by simp), Function.update_self]; exact hq)
                · by_contra hit
                  rw [Function.update_of_ne hit] at hi
                  exact hit (hcall.only i hi)
                · exact hcall₀.keeps c hnode
                    (keepsOut_of_othersKept (othersKept_update ph q) hinfinite₁ hct hkept)
          obtain ⟨⟨granted, s₂⟩, hget⟩ := hin
          simp only [hget, Option.bind_some]
          split <;> exact ⟨_, rfl⟩

/-- The link that a side owns, and the half duplex partner of it. -/
theorem side_of_slot (h : LinkInv e all ph s) {role : LinkRole} {link : Link}
    (hrole : role = .localLink ∨ role = .partnerLink) (hown : (ph t).hold role = .owned)
    (hslot : s.ledger.slot (t, role) = some link) :
    link.pool = e.pool (t, role) ∧ (ph t).hold link.type.hdRole = .owned ∧
      e.pool (t, link.type.hdRole) = ⟨link.node, link.type.other⟩ ∧
      e.uses s (t, link.type.hdRole) = s.halfDuplexLinks link.node := by
  obtain ⟨huses, hpool⟩ := h.pool_of_slot hown hslot
  obtain ⟨hnode, htype⟩ := LinkPool.mk.inj hpool
  have hne : e.node t ≠ e.nodePartner t := by
    simp only [Ends.uses, Bool.and_eq_true, decide_eq_true_eq] at huses
    exact huses.1.1
  rcases hrole with rfl | rfl
  · have hhdRole : link.type.hdRole = .localHdLink := by rw [htype]; rfl
    have hfinite : s.infiniteNetLinks (e.node t) = false := by
      simpa [uses_localLink hne] using huses
    refine ⟨hpool, hhdRole ▸ hown, ?_, ?_⟩
    · rw [hhdRole, htype, hnode]
      rfl
    · rw [hhdRole, uses_localHdLink hne hfinite, hnode]
  · have hhdRole : link.type.hdRole = .partnerHdLink := by rw [htype]; rfl
    have hfinite : s.infiniteNetLinks (e.nodePartner t) = false := by
      simpa [uses_partnerLink hne] using huses
    refine ⟨hpool, hhdRole ▸ hown, ?_, ?_⟩
    · rw [hhdRole, htype, hnode]
      rfl
    · rw [hhdRole, uses_partnerHdLink hne hfinite, hnode]

/-- A link that its owner frees is in the queue of busy links, and so is its partner. -/
theorem putBackLinks_isSome (h : LinkInv e all ph s) {role : LinkRole} {link : Link}
    (hrole : role = .localLink ∨ role = .partnerLink) (hown : (ph t).hold role = .owned)
    (hslot : s.ledger.slot (t, role) = some link) : ∃ s', putBackLinks s link t = some s' := by
  obtain ⟨hpool, hownHd, hpoolHd, husesHd⟩ := side_of_slot h hrole hown hslot
  obtain ⟨huses, -⟩ := h.pool_of_slot hown hslot
  obtain ⟨link', hbusy, hslot'⟩ := h.exists_slot huses hown
  obtain rfl := Option.some.inj (hslot.symm.trans hslot')
  have hput : s.putBack link.pool link =
      some { s with ledger := s.ledger.putBack link.pool link } := by
    rw [LinkState.putBack, if_pos (hpool ▸ hbusy)]
  simp only [putBackLinks, hput, Option.bind_eq_bind, Option.bind_some]
  split
  · next hduplex =>
      have hduplex' : s.halfDuplexLinks link.node = true := hduplex
      obtain ⟨hd, hbusyHd, hslotHd⟩ := h.exists_slot (husesHd.trans hduplex') hownHd
      rw [hpoolHd] at hbusyHd
      have hne : (⟨link.node, link.type.other⟩ : LinkPool) ≠ link.pool := by
        cases htype : link.type <;> simp [Link.pool, LinkType.other, htype]
      have hbusy' : hd ∈ (s.ledger.putBack link.pool link).busy ⟨link.node, link.type.other⟩ := by
        simpa [Ledger.putBack, hne] using hbusyHd
      simp only [Ledger.slot_putBack, hslotHd, Option.bind_some, LinkState.putBack, hbusy', if_true]
      exact ⟨_, rfl⟩
  · exact ⟨_, rfl⟩

/-! ## What a node is does not change -/

theorem half_robaOutLink {node : Nat} {inOut : LinkType} {testOnly found : Bool}
    (h : robaOutLink s t node inOut testOnly = some (found, s')) :
    s'.halfDuplexLinks = s.halfDuplexLinks := by
  cases found with
  | false => rw [robaOutLink_eq_false h]
  | true =>
      obtain ⟨-, link, c, partner, -, -, rfl⟩ := robaOutLink_eq_true h
      split
      · rfl
      · cases inOut <;> rfl

theorem half_robaOutIfRobable {node : Nat} {robable : Bool}
    (h : robaOutIfRobable s t node robable = some s') : s'.halfDuplexLinks = s.halfDuplexLinks := by
  unfold Links.robaOutIfRobable at h
  split at h
  · exact half_robaOutLink (robaAssert_eq_some h)
  · rw [Option.some.inj h]

theorem half_getOutLink {node : Nat} {r : OutPhase} (h : getOutLink s t node = some r) :
    (∃ s', r = .busy s' ∧ s'.halfDuplexLinks = s.halfDuplexLinks) ∨
      ∃ s' robable, r = .goOn s' robable ∧ s'.halfDuplexLinks = s.halfDuplexLinks := by
  unfold Links.getOutLink at h
  split at h
  · exact .inr ⟨s, false, (Option.some.inj h).symm, rfl⟩
  · split at h
    · exact .inr ⟨s, false, (Option.some.inj h).symm, rfl⟩
    · obtain ⟨⟨robable, s₁⟩, hroba, hrest⟩ := Option.bind_eq_some_iff.mp h
      have hhalf := half_robaOutLink hroba
      simp only at hrest
      split at hrest
      · exact .inr ⟨s₁, true, (Option.some.inj hrest).symm, hhalf⟩
      · exact .inl ⟨_, (Option.some.inj hrest).symm, hhalf⟩
    · obtain ⟨s₁, htake, hrest⟩ := Option.bind_eq_some_iff.mp h
      obtain ⟨-, -, -, hhalf, -⟩ := takeLink_eq_some htake
      split at hrest
      · obtain ⟨s₂, htake', hlast⟩ := Option.bind_eq_some_iff.mp hrest
        obtain ⟨-, -, -, hhalf', -⟩ := takeLink_eq_some htake'
        exact .inr ⟨s₂, false, (Option.some.inj hlast).symm, hhalf'.trans hhalf⟩
      · exact .inr ⟨s₁, false, (Option.some.inj hrest).symm, hhalf⟩

/-- A node with as many free links in both directions has the half duplex link. -/
theorem not_missesHdLink {node : Nat} {inOut : LinkType} {role : LinkRole}
    (hpaired : (s.ledger.free ⟨node, .inLink⟩).length = (s.ledger.free ⟨node, .outLink⟩).length) :
    ¬ MissesHdLink s t node inOut role := by
  rintro ⟨-, -, s₁, htake, hmissing⟩
  have htaken := length_free_takeLink htake ⟨node, inOut⟩
  have hother := length_free_takeLink htake ⟨node, inOut.other⟩
  rw [if_pos rfl] at htaken
  have hne : (⟨node, inOut.other⟩ : LinkPool) ≠ ⟨node, inOut⟩ := by
    cases inOut <;> simp [LinkType.other]
  rw [if_neg hne] at hother
  have hfree : s₁.ledger.free ⟨node, inOut.other⟩ ≠ [] := by
    rw [← List.length_pos_iff]
    cases inOut <;> simp only [LinkType.other] at hother ⊢ <;> omega
  obtain ⟨s₂, hsome⟩ := takeLink_isSome t inOut.hdRole hfree
  rw [hmissing] at hsome
  cases hsome

theorem free_getOutLink {node : Nat} {robable : Bool} {p : LinkPool} (hp : p.node ≠ node)
    (h : getOutLink s t node = some (.goOn s' robable)) :
    s'.ledger.free p = s.ledger.free p := by
  have htakes : ∀ {x x' : LinkState} {inOut : LinkType} {role : LinkRole},
      x.takeLink ⟨node, inOut⟩ t role = some x' → x'.ledger.free p = x.ledger.free p := by
    intro x x' inOut role htake
    apply Ledger.free_acquire (takeLink_eq_some htake).1
    exact fun heq => hp (congrArg LinkPool.node heq)
  unfold Links.getOutLink at h
  split at h
  · obtain ⟨rfl, -⟩ := OutPhase.goOn.inj (Option.some.inj h)
    rfl
  · split at h
    · obtain ⟨rfl, -⟩ := OutPhase.goOn.inj (Option.some.inj h)
      rfl
    · obtain ⟨⟨found, s₁⟩, hroba, hrest⟩ := Option.bind_eq_some_iff.mp h
      simp only at hrest
      split at hrest
      · next hfound =>
          obtain ⟨rfl, -⟩ := OutPhase.goOn.inj (Option.some.inj hrest)
          obtain rfl : found = true := hfound
          obtain ⟨-, link, c, partner, -, -, rfl⟩ := robaOutLink_eq_true hroba
          rfl
      · cases hrest
    · obtain ⟨s₁, htake, hrest⟩ := Option.bind_eq_some_iff.mp h
      split at hrest
      · obtain ⟨s₂, htake', hlast⟩ := Option.bind_eq_some_iff.mp hrest
        obtain ⟨rfl, -⟩ := OutPhase.goOn.inj (Option.some.inj hlast)
        exact (htakes htake').trans (htakes htake)
      · obtain ⟨rfl, -⟩ := OutPhase.goOn.inj (Option.some.inj hrest)
        exact htakes htake

/-- What the own node takes leaves the free links of the other one. -/
theorem not_panicsHalfDuplex (hpaired : Paired s) : ¬ PanicsHalfDuplex e s t := by
  rintro ⟨hne, hcall⟩
  have hpaired' : Paired (s.setPartnerNode t (some (e.nodePartner t))) := hpaired
  generalize s.setPartnerNode t (some (e.nodePartner t)) = x at hpaired' hcall
  rcases hcall with ⟨-, hmisses⟩ | ⟨s₁, robable, s₂, hout, -, hroba, hmisses⟩
  · exact not_missesHdLink (hpaired' _ hmisses.1) hmisses
  · obtain ⟨s', hbusy, -⟩ | ⟨s', robable', hgoOn, hhalf⟩ := half_getOutLink hout
    · cases hbusy
    · obtain ⟨rfl, -⟩ := OutPhase.goOn.inj hgoOn
      have hfree : ∀ inOut, s₂.ledger.free ⟨e.nodePartner t, inOut⟩ =
          x.ledger.free ⟨e.nodePartner t, inOut⟩ := by
        intro inOut
        exact (free_robaOutIfRobable hroba).trans (free_getOutLink (Ne.symm hne) hout)
      have hduplex : x.halfDuplexLinks (e.nodePartner t) := by
        rw [← hhalf, ← half_robaOutIfRobable hroba]
        exact hmisses.1
      refine not_missesHdLink ?_ hmisses
      rw [hfree, hfree]
      exact hpaired' _ hduplex

theorem paired_atCall {s : StepState} (h : Paired s.1.1) (l : LinkStep) : Paired (atCall s l) := by
  cases l with
  | wake =>
      obtain ⟨x, ps⟩ := s
      cases ps with
      | nil => exact h
      | cons p ps => exact h
  | get t => exact h
  | freeLocal t => exact h
  | freePartner t => exact h

theorem half_getInLink {node nodePartner : Nat} {robable granted : Bool}
    (h : getInLink s t node nodePartner robable = some (granted, s')) :
    s'.halfDuplexLinks = s.halfDuplexLinks := by
  unfold Links.getInLink at h
  split at h
  · rw [(Prod.mk.inj (Option.some.inj h)).2]
  · split at h
    · obtain ⟨s₁, hroba, hlast⟩ := Option.map_eq_some_iff.mp h
      obtain ⟨-, rfl⟩ := Prod.mk.inj hlast
      exact half_robaOutIfRobable hroba
    · obtain ⟨⟨inRobable, s₁⟩, htest, hrest⟩ := Option.bind_eq_some_iff.mp h
      have hhalf := half_robaOutLink htest
      simp only at hrest
      split at hrest
      · obtain ⟨s₂, hroba, hrest'⟩ := Option.bind_eq_some_iff.mp hrest
        obtain ⟨s₃, hassert, hlast⟩ := Option.bind_eq_some_iff.mp hrest'
        obtain ⟨-, rfl⟩ := Prod.mk.inj (Option.some.inj hlast)
        exact (half_robaOutLink (robaAssert_eq_some hassert)).trans
          ((half_robaOutIfRobable hroba).trans hhalf)
      · split at hrest <;> obtain ⟨-, rfl⟩ := Prod.mk.inj (Option.some.inj hrest) <;> exact hhalf
    · obtain ⟨s₁, hroba, hrest⟩ := Option.bind_eq_some_iff.mp h
      obtain ⟨s₂, htake, hrest'⟩ := Option.bind_eq_some_iff.mp hrest
      obtain ⟨-, -, -, hhalf, -⟩ := takeLink_eq_some htake
      have hhalf₁ := hhalf.trans (half_robaOutIfRobable hroba)
      split at hrest'
      · obtain ⟨s₃, htake', hlast⟩ := Option.bind_eq_some_iff.mp hrest'
        obtain ⟨-, -, -, hhalf', -⟩ := takeLink_eq_some htake'
        obtain ⟨-, rfl⟩ := Prod.mk.inj (Option.some.inj hlast)
        exact hhalf'.trans hhalf₁
      · obtain ⟨-, rfl⟩ := Prod.mk.inj (Option.some.inj hrest')
        exact hhalf₁

theorem half_putBackLinks {link : Link} (h : putBackLinks s link t = some s') :
    s'.halfDuplexLinks = s.halfDuplexLinks := by
  obtain ⟨s₁, hput, hrest⟩ := Option.bind_eq_some_iff.mp h
  obtain rfl := putBack_eq_some hput
  split at hrest
  · obtain ⟨hd, -, hput'⟩ := Option.bind_eq_some_iff.mp hrest
    obtain rfl := putBack_eq_some hput'
    rfl
  · rw [← Option.some.inj hrest]

theorem half_getNetworkLinks {node nodePartner : Nat} {granted : Bool}
    (h : getNetworkLinks s t node nodePartner = some (granted, s')) :
    s'.halfDuplexLinks = s.halfDuplexLinks := by
  unfold Links.getNetworkLinks at h
  split at h
  · rw [(Prod.mk.inj (Option.some.inj h)).2]
  · obtain ⟨out, hout, hrest⟩ := Option.bind_eq_some_iff.mp h
    rcases half_getOutLink hout with ⟨s₁, rfl, hhalf⟩ | ⟨s₁, robable, rfl, hhalf⟩
    · obtain ⟨-, rfl⟩ := Prod.mk.inj (Option.some.inj hrest)
      exact hhalf
    · obtain ⟨⟨granted', s₂⟩, hin, hlast⟩ := Option.bind_eq_some_iff.mp hrest
      have hhalf' := half_getInLink hin
      simp only at hlast
      split at hlast <;> obtain ⟨-, rfl⟩ := Prod.mk.inj (Option.some.inj hlast) <;>
        exact hhalf'.trans hhalf

/-! ## The invariant of the steps -/

/-- What the status of a communication says about its phase. A communication that was granted
its links may have none, if it was to steal its output link. -/
def Matches : CommStatus → CommPhase → Prop
  | .new, q => q = .idle
  | .waiting, q => q.Waiting
  | .granted outSide inSide, q => q = .granted outSide inSide ∨ q = .idle

structure StepInv (e : Ends) (noInput noOutput : Nat → Nat) (ph : Nat → CommPhase)
    (s : NetState) : Prop where
  links : LinkInv e (nodeLinks noInput noOutput) ph s.1
  infinite : s.1.infiniteNetLinks = (LinkState.init noInput noOutput).infiniteNetLinks
  half : s.1.halfDuplexLinks = (LinkState.init noInput noOutput).halfDuplexLinks
  agrees : ∀ t, Matches (s.2.status t) (ph t)

variable {noInput noOutput : Nat → Nat}

theorem matches_granted (outSide inSide : Bool) :
    Matches (.granted outSide inSide) (.granted outSide inSide) := .inl rfl

theorem matches_idle (outSide inSide : Bool) : Matches (.granted outSide inSide) .idle := .inr rfl

theorem Matches.not_holdsOut {st : CommStatus} {q : CommPhase} (h : Matches st q) :
    q ≠ .holdsOut := by
  rintro rfl
  cases st <;> simp [Matches, CommPhase.Waiting] at h

theorem Matches.of_waiting {st : CommStatus} {q : CommPhase} (h : Matches st q) (hq : q.Waiting) :
    st = .waiting := by
  cases st with
  | waiting => rfl
  | new =>
      obtain rfl : q = .idle := h
      simp [CommPhase.Waiting] at hq
  | granted outSide inSide => rcases h with rfl | rfl <;> simp [CommPhase.Waiting] at hq

/-- A call for a thread that was taken out of its queue or is in none. -/
theorem stepInv_getLinks {x x' : NetState} {t : Nat}
    (hlinks : LinkInv e (nodeLinks noInput noOutput) ph x.1)
    (hinfinite : x.1.infiniteNetLinks = (LinkState.init noInput noOutput).infiniteNetLinks)
    (hhalf : x.1.halfDuplexLinks = (LinkState.init noInput noOutput).halfDuplexLinks)
    (hothers : ∀ i, i ≠ t → Matches (x.2.status i) (ph i)) (hready : (ph t).Ready)
    (hget : getLinks e x t = some x') :
    ∃ ph', StepInv e noInput noOutput ph' x' ∧ OthersKept ph ph' t := by
  obtain ⟨⟨granted, links⟩, hcall, hrest⟩ := Option.bind_eq_some_iff.mp hget
  obtain rfl := Option.some.inj hrest
  obtain ⟨hinfinite', hcases⟩ := hlinks.getNetworkLinks_cases hready hcall
  have hhalf' := (half_getNetworkLinks hcall).trans hhalf
  rcases hcases with ⟨-, rfl, hidle, h'⟩ | ⟨ph', h', hafter, hkept, -⟩
  · refine ⟨ph, ⟨h', hinfinite'.trans hinfinite, hhalf', fun i => ?_⟩, fun i _ => .inl rfl⟩
    by_cases hi : i = t
    · subst hi
      simp only [Function.update_self, if_true]
      exact .inr hidle
    · simp only [Function.update_of_ne hi]
      exact hothers i hi
  · refine ⟨ph', ⟨h', hinfinite'.trans hinfinite, hhalf', fun i => ?_⟩, hkept⟩
    by_cases hi : i = t
    · subst hi
      simp only [Function.update_self]
      cases granted with
      | true => exact .inl hafter
      | false => exact hafter
    · simp only [Function.update_of_ne hi]
      rcases hkept i hi with heq | ⟨hin, hout⟩
      · rw [heq]
        exact hothers i hi
      · rw [(hothers i hi).of_waiting (.inr hin)]
        exact .inl hout

theorem stepInv_woken {x x' : NetState} {p : LinkPool} {first : Nat} {rest : List Nat}
    (h : StepInv e noInput noOutput ph x) (hthFor : x.1.thFor p = first :: rest)
    (hget : getLinks e ({ x.1 with thFor := Function.update x.1.thFor p rest }, x.2) first =
      some x') :
    ∃ ph', StepInv e noInput noOutput ph' x' ∧
      OthersKept (Function.update ph first (ph first).woken) ph' first := by
  have hwaiting := h.links.waiting (t := first) (p := p) (by simp [hthFor])
  refine stepInv_getLinks (x := ({ x.1 with thFor := Function.update x.1.thFor p rest }, x.2))
    (h.links.wake hthFor) h.infinite h.half (fun i hi => ?_) ?_ hget
  · rw [Function.update_of_ne hi]
    exact h.agrees i
  · rw [Function.update_self]
    exact hwaiting.woken.imp_right .inl

/-- Releasing a side: the phase and the status change together, and a communication that was
granted its links and has none still has none. -/
theorem stepInv_release {x : NetState} {y : StepState} {role : LinkRole} {st : CommStatus}
    {q : CommPhase} (h : StepInv e noInput noOutput ph x) (hq : Matches st q)
    (hidle : Matches st .idle)
    (hunused : ph t ≠ .idle → x.1.ledger.slot (t, role) = none →
      LinkInv e (nodeLinks noInput noOutput) (Function.update ph t q) x.1)
    (hput : ph t ≠ .idle → ∀ link links, x.1.ledger.slot (t, role) = some link →
      putBackLinks x.1 link t = some links →
      LinkInv e (nodeLinks noInput noOutput) (Function.update ph t q) links ∧
        links.infiniteNetLinks = x.1.infiniteNetLinks)
    (hrelease : releaseLink (x.setStatus t st) t role = some y) :
    ∃ ph', StepInv e noInput noOutput ph' y.1 := by
  have hagrees : ∀ {q : CommPhase}, Matches st q → ∀ i,
      Matches ((x.setStatus t st).2.status i) (Function.update ph t q i) := by
    intro q hq i
    by_cases hi : i = t
    · subst hi
      simpa only [NetState.setStatus, Function.update_self] using hq
    · simpa only [NetState.setStatus, Function.update_of_ne hi] using h.agrees i
  unfold releaseLink at hrelease
  split at hrelease
  · next hslot =>
      obtain rfl := Option.some.inj hrelease
      by_cases hphase : ph t = .idle
      · refine ⟨ph, h.links, h.infinite, h.half, ?_⟩
        have hsame := hagrees (q := ph t) (hphase ▸ hidle)
        rwa [Function.update_eq_self] at hsame
      · exact ⟨_, hunused hphase hslot, h.infinite, h.half, hagrees hq⟩
  · next link hslot =>
      obtain ⟨links, hlinks, rfl⟩ := Option.map_eq_some_iff.mp hrelease
      have hphase : ph t ≠ .idle := by
        intro hphase
        have hnone := h.links.slot_eq_none (t := t) (r := role) (by rw [hphase]; cases role <;> rfl)
        exact absurd (hslot.symm.trans hnone) (Option.some_ne_none _)
      obtain ⟨hlinks', hinfinite⟩ := hput hphase link links hslot hlinks
      exact ⟨_, hlinks', hinfinite.trans h.infinite, (half_putBackLinks hlinks).trans h.half,
        hagrees hq⟩

theorem ready_of_status {x : NetState} (h : StepInv e noInput noOutput ph x)
    (hstatus : x.2.status t = .new ∨ x.2.status t = .granted true true) : (ph t).Ready := by
  have hmatches := h.agrees t
  rcases hstatus with hst | hst <;> rw [hst] at hmatches
  · exact .inl hmatches
  · exact hmatches.elim (fun hq => .inr (.inr hq)) .inl

/-- One step of a call of `LINKS_free_network_link` or of a call of `LINKS_get_network_links`. -/
theorem stepInv_step {s s' : StepState} {l : LinkStep}
    (h : ∃ ph, StepInv e noInput noOutput ph s.1) (hstep : linkStep e s l = some s') :
    ∃ ph, StepInv e noInput noOutput ph s'.1 := by
  obtain ⟨ph, h⟩ := h
  cases l with
  | get t =>
      simp only [linkStep] at hstep
      split at hstep
      · next henabled =>
          obtain ⟨x', hget, rfl⟩ := Option.map_eq_some_iff.mp hstep
          obtain ⟨ph', h', -⟩ := stepInv_getLinks h.links h.infinite h.half
            (fun i _ => h.agrees i) (ready_of_status h henabled.2) hget
          exact ⟨ph', h'⟩
      · cases hstep
  | freeLocal t =>
      simp only [linkStep] at hstep
      split at hstep
      · next inSide _ hstatus =>
          have hphase : ph t ≠ .idle → ph t = .granted true inSide :=
            fun hne => ((hstatus ▸ h.agrees t :) : Matches _ _).resolve_right hne
          exact stepInv_release h (matches_granted false inSide)
            (matches_idle false inSide)
            (fun hne hslot => h.links.releaseLocal (hphase hne) hslot)
            (fun hne _ _ hslot hput => h.links.freeLocal (hphase hne) hslot hput) hstep
      · cases hstep
  | freePartner t =>
      simp only [linkStep] at hstep
      split at hstep
      · next outSide _ hstatus =>
          have hphase : ph t ≠ .idle → ph t = .granted outSide true :=
            fun hne => ((hstatus ▸ h.agrees t :) : Matches _ _).resolve_right hne
          exact stepInv_release h (matches_granted outSide false)
            (matches_idle outSide false)
            (fun hne hslot => h.links.releasePartner (hphase hne) hslot)
            (fun hne _ _ hslot hput => h.links.freePartner (hphase hne) hslot hput) hstep
      · cases hstep
  | wake =>
      simp only [linkStep] at hstep
      split at hstep
      · cases hstep
      · next p ps _ =>
          obtain ⟨x', hwake, rfl⟩ := Option.map_eq_some_iff.mp hstep
          unfold wakeFirst at hwake
          split at hwake
          · obtain rfl := Option.some.inj hwake
            exact ⟨ph, h⟩
          · next first rest hthFor =>
              obtain ⟨ph', h', -⟩ := stepInv_woken h hthFor hwake
              exact ⟨ph', h'⟩

theorem exists_stepInv {s : StepState} {tr : List (Transition StepState LinkStep)}
    (hrun : Run (ofPartial (linkStep e)) (.init noInput noOutput, []) tr s) :
    ∃ ph, StepInv e noInput noOutput ph s.1 := by
  refine hrun.invariant (I := fun s => ∃ ph, StepInv e noInput noOutput ph s.1) ?_
    fun _ _ _ h hstep => stepInv_step h hstep
  exact ⟨fun _ => .idle, linkInv_init e noInput noOutput, rfl, rfl, fun _ => rfl⟩

/-! ## Communications that keep an output link -/

/-- A communication to a node of infinite links was granted its links, holds an output link
and has not released it. -/
def KeepsLink (e : Ends) (s : NetState) (c : Nat) : Prop :=
  s.1.infiniteNetLinks (e.nodePartner c) ∧ s.1.ledger.slot (c, .localLink) ≠ none ∧
    ∃ inSide, s.2.status c = .granted true inSide

theorem status_of_granted {x : NetState} (h : StepInv e noInput noOutput ph x)
    {outSide inSide : Bool} (hphase : ph t = .granted outSide inSide) :
    x.2.status t = .granted outSide inSide := by
  have hmatches := h.agrees t
  rw [hphase] at hmatches
  cases hstatus : x.2.status t with
  | new =>
      rw [hstatus] at hmatches
      cases hmatches
  | waiting =>
      rw [hstatus] at hmatches
      simp [Matches, CommPhase.Waiting] at hmatches
  | granted outSide' inSide' =>
      rw [hstatus] at hmatches
      rcases hmatches with heq | hidle
      · rw [CommPhase.granted.injEq] at heq
        rw [heq.1, heq.2]
      · cases hidle

theorem keepsLink_iff {x : NetState} (h : StepInv e noInput noOutput ph x) {c : Nat} :
    KeepsLink e x c ↔ KeepsOut e x.1 ph c := by
  have hmatches := h.agrees c
  constructor
  · rintro ⟨hinfinite, hslot, inSide, hstatus⟩
    rw [hstatus] at hmatches
    have hhold : ∀ q, ph c = q → q.hold .localLink ≠ .empty := by
      rintro _ rfl hempty
      exact hslot (h.links.slot_eq_none hempty)
    refine ⟨?_, hinfinite, inSide, hmatches.resolve_right fun hidle => hhold _ hidle rfl⟩
    by_contra hno
    exact hslot (h.links.consistent.empty _ (by rw [Ends.hold, if_neg hno]))
  · rintro ⟨huses, hinfinite, inSide, hphase⟩
    obtain ⟨l, -, hslot⟩ := h.links.exists_slot huses (by rw [hphase]; rfl)
    exact ⟨hinfinite, by simp [hslot], inSide, status_of_granted h hphase⟩

/-- A step fails only where a communication keeps an output link of one of the two nodes. -/
theorem linkStep_isSome {s : StepState} {l : LinkStep} (h : StepInv e noInput noOutput ph s.1)
    (henabled : Enabled s l)
    (hkeeps : ∀ t c, callOf s l = some t → e.node c = e.node t ∨ e.node c = e.nodePartner t →
      ¬ KeepsLink e s.1 c) : ∃ s', linkStep e s l = some s' := by
  have hnone : ∀ i, ph i ≠ .holdsOut := fun i => (h.agrees i).not_holdsOut
  have hgetLinks : ∀ {x : NetState} {t : Nat} {granted : Bool × LinkState},
      getNetworkLinks x.1 t (e.node t) (e.nodePartner t) = some granted →
      ∃ x', getLinks e x t = some x' := by
    intro x t granted hcall
    exact ⟨_, by simp only [getLinks, hcall, Option.bind_eq_bind, Option.bind_some]; rfl⟩
  have hrelease : ∀ {st : CommStatus} {t : Nat} {role : LinkRole},
      (role = .localLink ∨ role = .partnerLink) →
      (ph t = .idle ∨ (ph t).hold role = .owned) →
      ∃ s', releaseLink (s.1.setStatus t st) t role = some s' := by
    intro st t role hrole hphase
    unfold releaseLink
    split
    · exact ⟨_, rfl⟩
    · next link hslot =>
        have hown : (ph t).hold role = .owned := by
          refine hphase.resolve_left fun hidle => ?_
          have hempty := h.links.slot_eq_none (t := t) (r := role) (by rw [hidle]; cases role <;> rfl)
          exact absurd (hslot.symm.trans hempty) (Option.some_ne_none _)
        obtain ⟨links, hput⟩ := putBackLinks_isSome h.links hrole hown hslot
        have hput' : putBackLinks (s.1.setStatus t st).1 link t = some links := hput
        rw [hput']
        exact ⟨_, rfl⟩
  cases l with
  | get t =>
      obtain ⟨r, hcall⟩ := getNetworkLinks_isSome (t := t) h.links
        ⟨ready_of_status h henabled.2, fun i hi => absurd hi (hnone i),
          fun c hc hkept => hkeeps t c rfl hc ((keepsLink_iff h).mpr hkept)⟩
      obtain ⟨x', hget⟩ := hgetLinks (x := s.1) hcall
      have hguard : s.2 = [] ∧ (s.1.2.status t = .new ∨ s.1.2.status t = .granted true true) :=
        henabled
      exact ⟨_, by rw [linkStep, if_pos hguard, hget]; rfl⟩
  | freeLocal t =>
      obtain ⟨hempty, inSide, hstatus⟩ := henabled
      have hmatches := h.agrees t
      rw [hstatus] at hmatches
      simp only [linkStep, hempty, hstatus]
      exact hrelease (.inl rfl) (hmatches.symm.imp_right fun hphase => by rw [hphase]; rfl)
  | freePartner t =>
      obtain ⟨hempty, outSide, hstatus⟩ := henabled
      have hmatches := h.agrees t
      rw [hstatus] at hmatches
      simp only [linkStep, hempty, hstatus]
      exact hrelease (.inr rfl) (hmatches.symm.imp_right fun hphase => by rw [hphase]; rfl)
  | wake =>
      obtain ⟨p, ps, hpools⟩ := List.exists_cons_of_ne_nil henabled
      simp only [linkStep, hpools, wakeFirst]
      split
      · exact ⟨_, rfl⟩
      · next first rest hthFor =>
          have hwaiting := h.links.waiting (t := first) (p := p) (by simp [hthFor])
          obtain ⟨r, hcall⟩ := getNetworkLinks_isSome (h.links.wake hthFor) (t := first)
            ⟨by rw [Function.update_self]; exact hwaiting.woken.imp_right .inl, fun i hi => by
              by_contra hne
              rw [Function.update_of_ne hne] at hi
              exact hnone i hi, fun c hc hkept => by
              by_cases hfirst : c = first
              · obtain ⟨-, -, inSide, hphase⟩ := hkept
                rw [hfirst, Function.update_self] at hphase
                rcases hwaiting.woken with hq | hq <;> rw [hq] at hphase <;> cases hphase
              · obtain ⟨huses, hinfinite, inSide, hphase⟩ := hkept
                rw [Function.update_of_ne hfirst] at hphase
                exact hkeeps first c (by simp [callOf, hpools, hthFor]) hc
                  ((keepsLink_iff h).mpr ⟨huses, hinfinite, inSide, hphase⟩)⟩
          obtain ⟨x', hget⟩ := hgetLinks
            (x := ({ s.1.1 with thFor := Function.update s.1.1.thFor p rest }, s.1.2)) hcall
          exact ⟨_, by rw [hget]; rfl⟩

end Dimemas.Model.LinkSteps
