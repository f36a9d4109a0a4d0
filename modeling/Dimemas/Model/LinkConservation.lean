import Dimemas.Model.LinkSteps
/-!
# Conservation and stealing of links

What holds in every state that the steps of link reservations reach: no link is lost or
served twice, and `roba_out_link` finds the owner of every link that it may steal in
the queue where it looks for it, unless a communication to a node of infinite links
took an output link.
-/

namespace Dimemas.Model.LinkConservation

open Dimemas.Library.Transitions Dimemas.Library.Reservations
open Dimemas.Model.Links Dimemas.Model.LinkOwnership Dimemas.Model.NetworkLinks
open Dimemas.Model.LinkSteps

variable {e : Ends} {noInput noOutput : Nat → Nat} {ph : Nat → CommPhase}

/-! ## Conservation -/

/-- The thread has released the side of the communication that the field belongs to. -/
def released : CommStatus → LinkRole → Bool
  | .granted outSide _, .localLink | .granted outSide _, .localHdLink => !outSide
  | .granted _ inSide, .partnerLink | .granted _ inSide, .partnerHdLink => !inSide
  | _, _ => false

/-- The field of the thread refers to the link, and the thread has not released it. -/
def Holds (s : NetState) (k : Nat × LinkRole) (l : Link) : Prop :=
  s.1.ledger.slot k = some l ∧ released (s.2.status k.1) k.2 = false

/-- A field that is not empty is owned exactly if its side is not released. -/
theorem matches_released_iff {st : CommStatus} {q : CommPhase} {role : LinkRole} (h : Matches st q)
    (hne : q.hold role ≠ .empty) : released st role = false ↔ q.hold role = .owned := by
  cases st with
  | new =>
      obtain rfl : q = .idle := h
      cases role <;> exact absurd rfl hne
  | waiting =>
      rcases h with rfl | rfl
      · cases role <;> exact absurd rfl hne
      · cases role <;> first | exact absurd rfl hne | decide
  | granted outSide inSide =>
      rcases h with rfl | rfl
      · cases role <;> cases outSide <;> cases inSide <;> decide
      · cases role <;> exact absurd rfl hne

theorem holds_iff {s : NetState} (h : StepInv e noInput noOutput ph s) {k : Nat × LinkRole}
    {l : Link} : Holds s k l ↔ e.hold s.1 ph k = .owned ∧ s.1.ledger.slot k = some l := by
  rw [Holds, and_comm]
  refine and_congr_left fun hslot => ?_
  have hnonempty : e.hold s.1 ph k ≠ .empty := fun hempty =>
    absurd (hslot.symm.trans (h.links.consistent.empty _ hempty)) (Option.some_ne_none _)
  have huses : e.uses s.1 k := by
    by_contra hno
    exact hnonempty (by rw [Ends.hold, if_neg hno])
  rw [Ends.hold, if_pos huses] at hnonempty ⊢
  exact matches_released_iff (h.agrees k.1) hnonempty

theorem pool_of_holds {s : NetState} (h : StepInv e noInput noOutput ph s) {k : Nat × LinkRole}
    {l : Link} (hholds : Holds s k l) : l.pool = e.pool k := by
  obtain ⟨hown, hslot⟩ := (holds_iff h).mp hholds
  obtain ⟨l', hbusy, hslot'⟩ := h.links.consistent.owned k hown
  obtain rfl := Option.some.inj (hslot.symm.trans hslot')
  exact h.links.pools _ _ (h.links.consistent.mem_all hbusy)

/-- In every state, each link that `NODE_Fill_Node_Fields` created is in one of the two queues of
its pool, each busy link is the link of exactly one field of a thread that has not released it,
and a half duplex node has as many free input links as free output links, so that no call misses the
half duplex link. A step fails only if `roba_out_link` may find an output link that is kept by a
granted communication to a node of infinite links, so not for a link that is missing. -/
theorem links_conserved {s : StepState} {tr : List (Transition StepState LinkStep)}
    (hrun : Run (ofPartial (linkStep e)) (.init noInput noOutput, []) tr s) :
    (∀ p, (s.1.1.ledger.free p ++ s.1.1.ledger.busy p).Nodup ∧
      ∀ l, l ∈ s.1.1.ledger.free p ++ s.1.1.ledger.busy p ↔ l ∈ nodeLinks noInput noOutput p) ∧
    (∀ p, ∀ l ∈ s.1.1.ledger.busy p, ∃! k, Holds s.1 k l) ∧
    (∀ n, noInput n = 0 ∨ noOutput n = 0 →
      (s.1.1.ledger.free ⟨n, .inLink⟩).length = (s.1.1.ledger.free ⟨n, .outLink⟩).length) ∧
    (∀ l t, callOf s l = some t → ¬ PanicsHalfDuplex e (atCall s l) t) ∧
    ∀ l, Enabled s l → linkStep e s l = none → ∃ t c, callOf s l = some t ∧
      (e.node c = e.node t ∨ e.node c = e.nodePartner t) ∧ KeepsLink e s.1 c := by
  obtain ⟨ph, h⟩ := exists_stepInv hrun
  have hcons := h.links.consistent
  refine ⟨fun p => ⟨hcons.nodup_append p, fun l => (hcons.items p).mem_iff⟩, fun p l hl => ?_,
    fun n hn => ?_, fun l t _ => not_panicsHalfDuplex (paired_atCall h.links.paired l),
    fun l henabled hfails => ?_⟩
  · obtain ⟨k, hown, -, hslot⟩ := hcons.covered p l hl
    have hholds : Holds s.1 k l := (holds_iff h).mpr ⟨hown, hslot⟩
    refine ⟨k, hholds, fun k' hholds' => ?_⟩
    obtain ⟨hown', hslot'⟩ := (holds_iff h).mp hholds'
    have hplace : e.pool k' = e.pool k := (pool_of_holds h hholds').symm.trans (pool_of_holds h hholds)
    exact hcons.unique k' k hown' hown hplace (hslot'.trans hslot.symm)
  · refine h.links.paired n ?_
    rw [h.half]
    simpa [LinkState.init] using hn
  · by_contra hno
    obtain ⟨s', hstep⟩ := linkStep_isSome h henabled fun t c hcall hnode hkeeps =>
      hno ⟨t, c, hcall, hnode, hkeeps⟩
    exact absurd (hstep.symm.trans hfails) (Option.some_ne_none _)

def singleLink : Nat → Nat := fun _ => 1

def zeroToOne : Ends := ⟨fun _ => 0, fun _ => 1⟩

theorem links_conserved_zeroToOne :
    let s := ((exec (linkStep zeroToOne) (.init singleLink singleLink, [])
      [.get 0, .get 1, .freeLocal 0, .wake]).get (by rfl)).2
    ∀ p, ∀ l ∈ s.1.1.ledger.busy p, ∃! k, Holds s.1 k l :=
  (links_conserved (e := zeroToOne) (run_exec_get (by rfl))).2.1

/-- A thread that has freed its link goes on referring to it when it is the link of the next
one. -/
theorem link_of_two_threads :
    let s := ((exec (linkStep zeroToOne) (.init singleLink singleLink, [])
      [.get 0, .freeLocal 0, .wake, .get 1]).get (by rfl)).2
    ∃ p, ∃ l ∈ s.1.1.ledger.busy p,
      s.1.1.ledger.slot (0, .localLink) = some l ∧ s.1.1.ledger.slot (1, .localLink) = some l :=
  ⟨⟨0, .outLink⟩, ⟨0, .outLink, 1⟩, by decide, rfl, rfl⟩

/-! ## Stealing -/

/-- What `roba_out_link` asserts: a thread whose own output link is busy and that has no input
link waits, once, for the input link of its `partner_node`. -/
def OwnersWait (s : LinkState) : Prop :=
  ∀ n, ∀ link ∈ s.ledger.busy ⟨n, .outLink⟩, ∀ t, s.linkThread link = some t →
    s.ledger.slot (t, .localLink) = some link → s.ledger.slot (t, .partnerLink) = none →
    ∃ p, s.partnerNode t = some p ∧ (s.thFor ⟨p, .inLink⟩).count t = 1

/-- The step calls `LINKS_get_network_links` for a communication from a node of finite links to
another one of infinite links that has an output link or finds one free. -/
def TakesOut (e : Ends) (s : StepState) (l : LinkStep) : Prop :=
  ∃ t, callOf s l = some t ∧ e.node t ≠ e.nodePartner t ∧
    s.1.1.infiniteNetLinks (e.node t) = false ∧ s.1.1.infiniteNetLinks (e.nodePartner t) ∧
    (s.1.1.ledger.slot (t, .localLink) ≠ none ∨ s.1.1.ledger.free ⟨e.node t, .outLink⟩ ≠ [])

theorem ownersWait_iff {s : NetState} (h : StepInv e noInput noOutput ph s) :
    OwnersWait s.1 ↔ ∀ c, ¬ KeepsLink e s c := by
  constructor
  · intro hwait c hkeeps
    obtain ⟨huses, hinfinite, inSide, hphase⟩ := (keepsLink_iff h).mp hkeeps
    obtain ⟨link, hbusy, hslot⟩ := h.links.exists_slot huses (by rw [hphase]; rfl)
    have hown : e.hold s.1 ph (c, .localLink) = .owned := by
      rw [Ends.hold, if_pos huses, hphase]
      rfl
    have hthread := (h.links.sound.owners _ _ hbusy c).mpr ⟨hown, hslot⟩
    have hne : e.node c ≠ e.nodePartner c := by
      simp only [Ends.uses, Bool.and_eq_true, decide_eq_true_eq] at huses
      exact huses.1.1
    have hpartner : s.1.ledger.slot (c, .partnerLink) = none := by
      refine h.links.consistent.empty _ ?_
      rw [Ends.hold, if_neg]
      simp [uses_partnerLink hne, hinfinite]
    obtain ⟨p, -, hcount⟩ := hwait _ link hbusy c hthread hslot hpartner
    have hmem : c ∈ s.1.thFor ⟨p, .inLink⟩ := List.count_pos_iff.mp (by omega)
    have hwaiting := h.links.waiting hmem
    rw [hphase] at hwaiting
    simp [CommPhase.Waiting] at hwaiting
  · intro hkeeps n link hbusy t hthread _ hpartner
    obtain ⟨-, hphase⟩ := owner_phase h.links hbusy hthread hpartner
    have hin : ph t = .waitIn := by
      rcases hphase with hin | hholds | hout
      · exact hin
      · exact absurd hholds (h.agrees t).not_holdsOut
      · exact absurd ((keepsLink_iff h).mpr hout) (hkeeps t)
    refine ⟨_, h.links.partner t hin, List.count_eq_one_of_mem (h.links.nodup _) ?_⟩
    exact (h.links.queued t _).mpr (.inr ⟨hin, rfl⟩)

/-- A call for a partner of infinite links takes an output link if there is one, and none
otherwise. -/
theorem slot_of_getNetworkLinks {s s' : LinkState} {t node nodePartner : Nat} {granted : Bool}
    (hne : node ≠ nodePartner) (hfinite : s.infiniteNetLinks node = false)
    (hinfinite : s.infiniteNetLinks nodePartner = true)
    (hget : getNetworkLinks s t node nodePartner = some (granted, s')) :
    if s.ledger.slot (t, .localLink) ≠ none ∨ s.ledger.free ⟨node, .outLink⟩ ≠ []
    then granted = true ∧ s'.ledger.slot (t, .localLink) ≠ none
    else s'.ledger.slot (t, .localLink) = none := by
  rw [getNetworkLinks, if_neg hne] at hget
  obtain ⟨out, hout, hrest⟩ := Option.bind_eq_some_iff.mp hget
  have hdone : ∀ {s₁ : LinkState} {robable : Bool}, out = .goOn s₁ robable →
      s₁.infiniteNetLinks nodePartner = true →
      granted = true ∧ s'.ledger.slot (t, .localLink) = s₁.ledger.slot (t, .localLink) := by
    rintro s₁ robable rfl hinfinite₁
    obtain ⟨⟨granted', s₂⟩, hin, hlast⟩ := Option.bind_eq_some_iff.mp hrest
    rw [getInLink, if_pos hinfinite₁] at hin
    obtain ⟨rfl, rfl⟩ := Prod.mk.inj (Option.some.inj hin)
    obtain ⟨rfl, rfl⟩ := Prod.mk.inj (Option.some.inj hlast)
    exact ⟨rfl, rfl⟩
  unfold getOutLink at hout
  rw [if_neg (by simp [LinkState.setPartnerNode, hfinite])] at hout
  have hledger : (s.setPartnerNode t (some nodePartner)).ledger = s.ledger := rfl
  rw [hledger] at hout
  split at hout
  · next link hslot =>
      obtain ⟨hgranted, hsame⟩ := hdone (Option.some.inj hout).symm hinfinite
      rw [if_pos (.inl (by simp [hslot]))]
      refine ⟨hgranted, ?_⟩
      rw [hsame]
      simp [LinkState.setPartnerNode, hslot]
  · next hslot hfree =>
      rw [if_neg (by simp [hslot, hfree])]
      obtain ⟨⟨robable, s₁⟩, hroba, hresult⟩ := Option.bind_eq_some_iff.mp hout
      have hs₁ : s₁ = s.setPartnerNode t (some nodePartner) := by
        cases robable with
        | true =>
            obtain ⟨-, _, _, _, -, -, heq⟩ := robaOutLink_eq_true hroba
            rwa [if_pos rfl] at heq
        | false => exact robaOutLink_eq_false hroba
      subst hs₁
      cases robable with
      | true =>
          rw [(hdone (Option.some.inj hresult).symm hinfinite).2]
          exact hslot
      | false =>
          obtain rfl := Option.some.inj hresult
          obtain ⟨-, rfl⟩ := Prod.mk.inj (Option.some.inj hrest)
          exact hslot
  · next hslot hfree =>
      rw [if_pos (.inr (by simp [hfree]))]
      obtain ⟨s₁, htake, hresult⟩ := Option.bind_eq_some_iff.mp hout
      obtain ⟨hacquire, -, hinfinite₁, -, -⟩ := takeLink_eq_some htake
      obtain ⟨l, rest, -, hledger⟩ := Ledger.acquire_eq_some hacquire
      have hslot₁ : s₁.ledger.slot (t, .localLink) = some l := by simp [hledger]
      have hinf : s₁.infiniteNetLinks nodePartner = true := by
        rw [hinfinite₁]
        exact hinfinite
      split at hresult
      · obtain ⟨s₂, htake', hlast⟩ := Option.bind_eq_some_iff.mp hresult
        obtain ⟨hacquire', -, hinfinite₂, -, -⟩ := takeLink_eq_some htake'
        obtain ⟨hgranted, hsame⟩ := hdone (Option.some.inj hlast).symm (hinfinite₂ ▸ hinf)
        refine ⟨hgranted, ?_⟩
        rw [hsame, Ledger.slot_acquire hacquire' (by simp), hslot₁]
        simp
      · obtain ⟨hgranted, hsame⟩ := hdone (Option.some.inj hresult).symm hinf
        refine ⟨hgranted, ?_⟩
        rw [hsame, hslot₁]
        simp

/-- A call makes its communication keep an output link exactly if it takes one for a partner of
infinite links, and the others keep what they kept. -/
theorem keepsLink_getLinks {x x' : NetState} {t : Nat} {ph' : Nat → CommPhase}
    (hinit : x.1.infiniteNetLinks = (LinkState.init noInput noOutput).infiniteNetLinks)
    (h' : StepInv e noInput noOutput ph' x') (hothers : OthersKept ph ph' t)
    (hget : getLinks e x t = some x')
    (hnone : ∀ c, c ≠ t → ¬ KeepsOut e x.1 ph c) :
    (∀ c, ¬ KeepsLink e x' c) ↔
      ¬ (e.node t ≠ e.nodePartner t ∧ x.1.infiniteNetLinks (e.node t) = false ∧
        x.1.infiniteNetLinks (e.nodePartner t) ∧
        (x.1.ledger.slot (t, .localLink) ≠ none ∨ x.1.ledger.free ⟨e.node t, .outLink⟩ ≠ [])) := by
  obtain ⟨⟨granted, links⟩, hcall, hrest⟩ := Option.bind_eq_some_iff.mp hget
  obtain rfl := Option.some.inj hrest
  have hinfinite : links.infiniteNetLinks = x.1.infiniteNetLinks := h'.infinite.trans hinit.symm
  constructor
  · rintro hkeeps ⟨hne, hfin, hinf, hout⟩
    have hslot := slot_of_getNetworkLinks hne hfin hinf hcall
    rw [if_pos hout] at hslot
    refine hkeeps t ⟨by simpa [hinfinite] using hinf, hslot.2, true, ?_⟩
    simp [hslot.1]
  · intro hno c hkeeps
    by_cases hc : c = t
    · subst hc
      obtain ⟨huses, -, -⟩ := (keepsLink_iff h').mp hkeeps
      have hne : e.node c ≠ e.nodePartner c := by
        simp only [Ends.uses, Bool.and_eq_true, decide_eq_true_eq] at huses
        exact huses.1.1
      have hfin : x.1.infiniteNetLinks (e.node c) = false := by
        simpa [uses_localLink hne, hinfinite] using huses
      have hinf : x.1.infiniteNetLinks (e.nodePartner c) = true := by
        simpa [hinfinite] using hkeeps.1
      have hslot := slot_of_getNetworkLinks hne hfin hinf hcall
      rw [if_neg fun hout => hno ⟨hne, hfin, hinf, hout⟩] at hslot
      exact hkeeps.2.1 hslot
    · exact hnone c hc (keepsOut_of_othersKept hothers hinfinite hc ((keepsLink_iff h').mp hkeeps))

theorem keepsLink_release {x : NetState} {y : StepState} {role : LinkRole} {st : CommStatus}
    {t c : Nat}
    (hst : ∀ inSide, st = .granted true inSide → ∃ inSide', x.2.status t = .granted true inSide')
    (hrelease : releaseLink (x.setStatus t st) t role = some y) (hkeeps : KeepsLink e y.1 c) :
    KeepsLink e x c := by
  have hsame : y.1.1.infiniteNetLinks = x.1.infiniteNetLinks ∧
      y.1.1.ledger.slot = x.1.ledger.slot ∧ y.1.2 = (x.setStatus t st).2 := by
    unfold releaseLink at hrelease
    split at hrelease
    · obtain rfl := Option.some.inj hrelease
      exact ⟨rfl, rfl, rfl⟩
    · obtain ⟨links, hput, rfl⟩ := Option.map_eq_some_iff.mp hrelease
      obtain ⟨s₁, hput₁, hrest⟩ := Option.bind_eq_some_iff.mp hput
      obtain rfl := putBack_eq_some hput₁
      split at hrest
      · obtain ⟨hd, -, hput₂⟩ := Option.bind_eq_some_iff.mp hrest
        obtain rfl := putBack_eq_some hput₂
        exact ⟨rfl, rfl, rfl⟩
      · obtain rfl := Option.some.inj hrest
        exact ⟨rfl, rfl, rfl⟩
  obtain ⟨hinfinite, hslot, inSide, hstatus⟩ := hkeeps
  rw [hsame.1] at hinfinite
  rw [hsame.2.1] at hslot
  rw [hsame.2.2] at hstatus
  by_cases hc : c = t
  · subst hc
    simp only [NetState.setStatus, Function.update_self] at hstatus
    exact ⟨hinfinite, hslot, hst inSide hstatus⟩
  · simp only [NetState.setStatus, Function.update_of_ne hc] at hstatus
    exact ⟨hinfinite, hslot, inSide, hstatus⟩

/-- One step makes the assertion of `roba_out_link` false exactly if it takes an output link for
a partner of infinite links. -/
theorem ownersWait_step {s s' : StepState} {l : LinkStep}
    (h : ∃ ph, StepInv e noInput noOutput ph s.1) (hwait : OwnersWait s.1.1)
    (hstep : linkStep e s l = some s') : OwnersWait s'.1.1 ↔ ¬ TakesOut e s l := by
  obtain ⟨ph', h'⟩ := stepInv_step h hstep
  obtain ⟨ph, h⟩ := h
  have hnone := (ownersWait_iff h).mp hwait
  have hnone' : ∀ c, ¬ KeepsOut e s.1.1 ph c := fun c hkept => hnone c ((keepsLink_iff h).mpr hkept)
  rw [ownersWait_iff h']
  cases l with
  | get t =>
      simp only [linkStep] at hstep
      split at hstep
      · next henabled =>
          obtain ⟨x', hget, rfl⟩ := Option.map_eq_some_iff.mp hstep
          obtain ⟨ph₁, h₁, hothers⟩ := stepInv_getLinks h.links h.infinite h.half
            (fun i _ => h.agrees i) (ready_of_status h henabled.2) hget
          rw [keepsLink_getLinks h.infinite h₁ hothers hget fun c _ => hnone' c]
          simp [TakesOut, callOf]
      · cases hstep
  | freeLocal t =>
      simp only [linkStep] at hstep
      split at hstep
      · next inSide _ hstatus =>
          refine iff_of_true (fun c hkeeps => ?_) (by simp [TakesOut, callOf])
          exact hnone c (keepsLink_release (by simp) hstep hkeeps)
      · cases hstep
  | freePartner t =>
      simp only [linkStep] at hstep
      split at hstep
      · next outSide _ hstatus =>
          refine iff_of_true (fun c hkeeps => ?_) (by simp [TakesOut, callOf])
          refine hnone c (keepsLink_release (fun inSide hst => ?_) hstep hkeeps)
          obtain ⟨rfl, -⟩ := CommStatus.granted.inj hst
          exact ⟨true, hstatus⟩
      · cases hstep
  | wake =>
      simp only [linkStep] at hstep
      split at hstep
      · cases hstep
      · next p ps hpools =>
          obtain ⟨x', hwake, rfl⟩ := Option.map_eq_some_iff.mp hstep
          unfold wakeFirst at hwake
          split at hwake
          · next hthFor =>
              obtain rfl := Option.some.inj hwake
              exact iff_of_true hnone (by simp [TakesOut, callOf, hpools, hthFor])
          · next first rest hthFor =>
              obtain ⟨ph₁, h₁, hothers⟩ := stepInv_woken h hthFor hwake
              rw [keepsLink_getLinks
                (x := ({ s.1.1 with thFor := Function.update s.1.1.thFor p rest }, s.1.2))
                h.infinite h₁ hothers hwake fun c hc hkept => ?_]
              · simp [TakesOut, callOf, hpools, hthFor]
              · obtain ⟨huses, hinfinite, inSide, hphase⟩ := hkept
                rw [Function.update_of_ne hc] at hphase
                exact hnone' c ⟨huses, hinfinite, inSide, hphase⟩

/-- In a run every owner of a busy output link without an input link waits for the input link of
its `partner_node` if and only if no call takes an output link for a partner of infinite links,
and then no step fails. -/
theorem stolen_owners_wait {s : StepState} {tr : List (Transition StepState LinkStep)}
    (hrun : Run (ofPartial (linkStep e)) (.init noInput noOutput, []) tr s) :
    ((∀ x ∈ tr, OwnersWait x.post.1.1) ↔ ∀ x ∈ tr, ¬ TakesOut e x.pre x.label) ∧
    ((∀ x ∈ tr, ¬ TakesOut e x.pre x.label) → ∀ l, Enabled s l → linkStep e s l ≠ none) := by
  have hinit : ∃ ph, StepInv e noInput noOutput ph (NetState.init noInput noOutput) :=
    exists_stepInv (.nil : Run (ofPartial (linkStep e)) _ [] _)
  have hwait : OwnersWait (NetState.init noInput noOutput).1 := by
    intro n link hbusy
    cases hbusy
  constructor
  · exact hrun.forall_post_iff (I := fun s => ∃ ph, StepInv e noInput noOutput ph s.1)
      (P := fun s => OwnersWait s.1.1) (C := fun s l => ¬ TakesOut e s l) hinit hwait
      (fun _ _ _ h hstep => stepInv_step h hstep)
      fun _ _ _ h hwait hstep => ownersWait_step h hwait hstep
  · intro hguard l henabled
    obtain ⟨⟨ph, h⟩, hend⟩ := hrun.invariant_of_guard
      (I := fun s => (∃ ph, StepInv e noInput noOutput ph s.1) ∧ OwnersWait s.1.1)
      (C := fun s l => ¬ TakesOut e s l) ⟨hinit, hwait⟩
      (fun _ _ _ h hcond hstep => ⟨stepInv_step h.1 hstep, (ownersWait_step h.1 h.2 hstep).mpr hcond⟩)
      hguard
    obtain ⟨s', hstep⟩ := linkStep_isSome h henabled fun _ c _ _ => (ownersWait_iff h).mp hend c
    rw [hstep]
    simp

/-- The second communication of node 0 takes the output link that the first one had. -/
theorem stolen_owners_wait_zeroToOne :
    let s := ((exec (linkStep zeroToOne) (.init singleLink singleLink, [])
      [.get 0, .get 1, .freeLocal 0, .wake]).get (by rfl)).2
    ∀ l, Enabled s l → linkStep zeroToOne s l ≠ none := by
  have hfinite : ∀ x ∈ ((exec (linkStep zeroToOne) (.init singleLink singleLink, [])
      [.get 0, .get 1, .freeLocal 0, .wake]).get (by rfl)).1,
      x.pre.1.1.infiniteNetLinks 1 = false := by decide
  refine (stolen_owners_wait (e := zeroToOne) (run_exec_get (by rfl))).2 fun x hx => ?_
  rintro ⟨t, -, -, -, hinfinite, -⟩
  exact absurd hinfinite (by simp [zeroToOne, hfinite x hx])

/-- Node 0 has one link in each direction, the others have infinite links. -/
def onlyZero : Nat → Nat
  | 0 => 1
  | _ => 0

/-- The communication to a node of infinite links keeps the output link and waits for nothing, and
`roba_out_link` fails in the next call. -/
theorem owner_waits_for_nothing :
    let s := ((exec (linkStep zeroToOne) (.init onlyZero onlyZero, []) [.get 0]).get (by rfl)).2
    ¬ OwnersWait s.1.1 ∧ Enabled s (.get 1) ∧ linkStep zeroToOne s (.get 1) = none := by
  refine ⟨fun hwait => ?_, ⟨rfl, .inl rfl⟩, rfl⟩
  obtain ⟨p, hpartner, -⟩ := hwait 0 ⟨0, .outLink, 1⟩ (by decide) 0 rfl rfl rfl
  cases hpartner

end Dimemas.Model.LinkConservation
