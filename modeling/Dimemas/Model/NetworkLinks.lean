import Dimemas.Library.Transitions
import Dimemas.Model.LinkOwnership
/-!
# Runs of link reservations

Any sequence of `LINKS_get_network_links` and `LINKS_free_network_link` calls, with the
calls that the latter makes for the threads it wakes up. A granted communication has
the links it needs unless its output link was to be stolen and its partner has
infinite links, and otherwise the granted communications of a node are not more than
its links.
-/

namespace Dimemas.Model.NetworkLinks

open Dimemas.Library.Transitions Dimemas.Library.Reservations
open Dimemas.Model.Links Dimemas.Model.LinkOwnership

/-- What became of the calls for a communication; the flags say which of its sides has not
been released yet. -/
inductive CommStatus
  | new | waiting
  | granted (outSide inSide : Bool)
deriving DecidableEq, Repr

/-- A call of `LINKS_get_network_links` and its result. -/
structure GetCall where
  thread : Nat
  pre : LinkState
  granted : Bool
  post : LinkState

structure CallLog where
  status : Nat → CommStatus
  calls : List GetCall

/-- The links of a machine and the calls made so far. -/
abbrev NetState := LinkState × CallLog

namespace NetState

def init (noInput noOutput : Nat → Nat) : NetState :=
  (.init noInput noOutput, ⟨fun _ => .new, []⟩)

def setStatus (s : NetState) (t : Nat) (status : CommStatus) : NetState :=
  (s.1, { s.2 with status := Function.update s.2.status t status })

end NetState

/-- A call of `LINKS_get_network_links`, by a communication or by `really_send`. -/
def getLinks (e : Ends) (s : NetState) (t : Nat) : Option NetState := do
  let (granted, links) ← getNetworkLinks s.1 t (e.node t) (e.nodePartner t)
  let status := if granted then CommStatus.granted true true else .waiting
  some (links, ⟨Function.update s.2.status t status, s.2.calls ++ [⟨t, s.1, granted, links⟩]⟩)

inductive LinkLabel
  | get (t : Nat)
  | freeLocal (t : Nat)
  | freePartner (t : Nat)
deriving DecidableEq, Repr

/-- A new communication asks for its links, or one that was granted them asks again (when a
bus becomes free), or it releases one of its sides. -/
def netNext (e : Ends) (s : NetState) : LinkLabel → Option NetState
  | .get t =>
      if s.2.status t = .new ∨ s.2.status t = .granted true true then getLinks e s t else none
  | .freeLocal t =>
      match s.2.status t with
      | .granted true inSide =>
          freeThreadLink (getLinks e) (s.setStatus t (.granted false inSide)) t .localLink
      | _ => none
  | .freePartner t =>
      match s.2.status t with
      | .granted outSide true =>
          freeThreadLink (getLinks e) (s.setStatus t (.granted outSide false)) t .partnerLink
      | _ => none

/-! ## The calls of a run -/

/-- What a call that returns TRUE promises: the thread holds a busy output link of its node and
a busy input link of its partner's, where these have finite links. -/
def GetCall.Held (e : Ends) (c : GetCall) : Prop :=
  c.granted → e.node c.thread ≠ e.nodePartner c.thread →
    (c.pre.infiniteNetLinks (e.node c.thread) = false →
      ∃ link ∈ c.post.ledger.busy ⟨e.node c.thread, .outLink⟩,
        c.post.ledger.slot (c.thread, .localLink) = some link) ∧
    (c.pre.infiniteNetLinks (e.nodePartner c.thread) = false →
      ∃ link ∈ c.post.ledger.busy ⟨e.nodePartner c.thread, .inLink⟩,
        c.post.ledger.slot (c.thread, .partnerLink) = some link)

/-- A call for a thread without an output link whose node has finite links, none free and one
to steal, while its partner has infinite links. -/
def GetCall.Steals (e : Ends) (c : GetCall) : Prop :=
  StealsForInfinite c.pre c.thread (e.node c.thread) (e.nodePartner c.thread)

variable {e : Ends} {noInput noOutput : Nat → Nat}

/-- The phases of the communications are those that their status shows. -/
def Agrees (status : Nat → CommStatus) (ph : Nat → CommPhase) : Prop :=
  ∀ t, (status t = .new → ph t = .idle) ∧
    ∀ outSide inSide, status t = .granted outSide inSide ↔ ph t = .granted outSide inSide

structure NetInv (e : Ends) (noInput noOutput : Nat → Nat) (ph : Nat → CommPhase)
    (s : NetState) : Prop where
  links : LinkInv e (nodeLinks noInput noOutput) ph s.1
  infinite : s.1.infiniteNetLinks = (LinkState.init noInput noOutput).infiniteNetLinks
  agrees : Agrees s.2.status ph

/-- The calls of the log are calls of `LINKS_get_network_links`. -/
def CallsMade (e : Ends) (s : NetState) : Prop :=
  ∀ c ∈ s.2.calls, getNetworkLinks c.pre c.thread (e.node c.thread) (e.nodePartner c.thread) =
    some (c.granted, c.post)

/-- As long as no call steals for a partner of infinite links, the invariant holds and every
call keeps its promise. -/
def NetGood (e : Ends) (noInput noOutput : Nat → Nat) (s : NetState) : Prop :=
  (∀ c ∈ s.2.calls, ¬ c.Steals e) →
    (∃ ph, NetInv e noInput noOutput ph s) ∧ ∀ c ∈ s.2.calls, c.Held e

theorem Agrees.update {status : Nat → CommStatus} {ph ph' : Nat → CommPhase} {t : Nat}
    {st : CommStatus} (h : Agrees status ph) (hothers : OthersKept ph ph' t)
    (hnew : st = .new → ph' t = .idle)
    (hgranted : ∀ a b, st = .granted a b ↔ ph' t = .granted a b) :
    Agrees (Function.update status t st) ph' := by
  intro i
  by_cases hi : i = t
  · subst hi
    rw [Function.update_self]
    exact ⟨hnew, hgranted⟩
  · rw [Function.update_of_ne hi]
    rcases hothers i hi with heq | ⟨hin, hout⟩
    · rw [heq]
      exact h i
    · have hi := h i
      rw [hin] at hi
      rw [hout]
      refine ⟨fun hn => absurd (hi.1 hn) (by simp), fun a b => ?_⟩
      rw [hi.2]
      simp

theorem NetInv.getLinks {ph : Nat → CommPhase} {s s' : NetState} {t : Nat}
    (h : NetInv e noInput noOutput ph s) (hheld : ∀ c ∈ s.2.calls, c.Held e)
    (hready : (ph t).Ready) (hget : getLinks e s t = some s')
    (hsteals : ∀ c ∈ s'.2.calls, ¬ c.Steals e) :
    (∃ ph', NetInv e noInput noOutput ph' s') ∧ ∀ c ∈ s'.2.calls, c.Held e := by
  obtain ⟨⟨granted, links⟩, hcall, hrest⟩ := Option.bind_eq_some_iff.mp hget
  obtain rfl := Option.some.inj hrest
  simp only [List.forall_mem_append, List.forall_mem_singleton] at hsteals ⊢
  obtain ⟨ph', h', hafter, hothers, hinfinite, -⟩ := h.links.getNetworkLinks hready hsteals.2 hcall
  refine ⟨⟨ph', h', hinfinite.trans h.infinite, h.agrees.update hothers ?_ ?_⟩, hheld, ?_⟩
  · cases granted <;> simp
  · intro a b
    cases granted with
    | true =>
        rw [show ph' t = .granted true true from hafter]
        simp
    | false => rcases hafter with hq | hq <;> simp [hq]
  · intro hgranted hne
    simp only at hgranted hne ⊢
    rw [hgranted] at hafter
    have hphase : ph' t = .granted true true := hafter
    refine ⟨fun hfinite => ?_, fun hfinite => ?_⟩
    · exact h'.exists_slot (r := .localLink) (by simp [uses_localLink hne, hinfinite, hfinite])
        (by rw [hphase]; rfl)
    · exact h'.exists_slot (r := .partnerLink) (by simp [uses_partnerLink hne, hinfinite, hfinite])
        (by rw [hphase]; rfl)

theorem calls_subset_getLinks {s s' : NetState} {t : Nat} (hget : getLinks e s t = some s') :
    ∀ c ∈ s.2.calls, c ∈ s'.2.calls := by
  obtain ⟨⟨granted, links⟩, -, hrest⟩ := Option.bind_eq_some_iff.mp hget
  obtain rfl := Option.some.inj hrest
  intro c hc
  simp [hc]

/-- A thread that is woken up asks for its links again. -/
theorem NetGood.wake {s s' : NetState} {p : LinkPool} {first : Nat} {rest : List Nat}
    (h : NetGood e noInput noOutput s) (hthFor : s.1.thFor p = first :: rest)
    (hget : getLinks e ({ s.1 with thFor := Function.update s.1.thFor p rest }, s.2) first =
      some s') : NetGood e noInput noOutput s' := by
  intro hsteals
  obtain ⟨⟨ph, hinv⟩, hheld⟩ := h fun c hc => hsteals c (calls_subset_getLinks hget c hc)
  have hwaiting := hinv.links.waiting (t := first) (p := p) (by simp [hthFor])
  have hinv' : NetInv e noInput noOutput (Function.update ph first (ph first).woken)
      ({ s.1 with thFor := Function.update s.1.thFor p rest }, s.2) := by
    refine ⟨hinv.links.wake hthFor, hinv.infinite, ?_⟩
    have hfirst := hinv.agrees first
    refine Function.update_eq_self first s.2.status ▸ hinv.agrees.update (t := first)
      (othersKept_update ph (ph first).woken) (fun hnew => ?_) fun a b => ?_
    · rw [Function.update_self]
      rcases hwaiting with hq | hq <;> rw [hq] at hfirst <;> exact absurd (hfirst.1 hnew) (by simp)
    · rw [Function.update_self, hfirst.2]
      rcases hwaiting with hq | hq <;> simp [hq, CommPhase.woken]
  refine hinv'.getLinks hheld ?_ hget hsteals
  rw [Function.update_self]
  exact hwaiting.woken.imp_right .inl

theorem NetInv.release {ph : Nat → CommPhase} {s : NetState} {links : LinkState} {t : Nat}
    {outSide inSide : Bool} (h : NetInv e noInput noOutput ph s)
    (hlinks : LinkInv e (nodeLinks noInput noOutput)
      (Function.update ph t (.granted outSide inSide)) links)
    (hinfinite : links.infiniteNetLinks = s.1.infiniteNetLinks) :
    NetInv e noInput noOutput (Function.update ph t (.granted outSide inSide))
      (links, { s.2 with status := Function.update s.2.status t (.granted outSide inSide) }) := by
  refine ⟨hlinks, hinfinite.trans h.infinite,
    h.agrees.update (othersKept_update ph _) (by simp) fun a b => ?_⟩
  rw [Function.update_self, CommStatus.granted.injEq, CommPhase.granted.injEq]

theorem netGood_step {s s' : NetState} {l : LinkLabel} (h : NetGood e noInput noOutput s)
    (hstep : netNext e s l = some s') : NetGood e noInput noOutput s' := by
  cases l with
  | get t =>
      simp only [netNext] at hstep
      split at hstep
      · next hstatus =>
          intro hsteals
          obtain ⟨⟨ph, hinv⟩, hheld⟩ :=
            h fun c hc => hsteals c (calls_subset_getLinks hstep c hc)
          refine hinv.getLinks hheld ?_ hstep hsteals
          rcases hstatus with hnew | hgranted
          · exact .inl ((hinv.agrees t).1 hnew)
          · exact .inr (.inr (((hinv.agrees t).2 true true).mp hgranted))
      · cases hstep
  | freeLocal t =>
      simp only [netNext] at hstep
      split at hstep
      · next inSide hstatus =>
          refine freeThreadLink_preserves (J := NetGood e noInput noOutput)
            (fun _ _ _ _ _ hx hthFor hsend => hx.wake hthFor hsend)
            (fun hslot hsteals => ?_) (fun link links hslot hput hsteals => ?_) hstep
          · obtain ⟨⟨ph, hinv⟩, hheld⟩ := h hsteals
            have hphase := ((hinv.agrees t).2 true inSide).mp hstatus
            exact ⟨⟨_, hinv.release (hinv.links.releaseLocal hphase hslot) rfl⟩, hheld⟩
          · obtain ⟨⟨ph, hinv⟩, hheld⟩ := h hsteals
            have hphase := ((hinv.agrees t).2 true inSide).mp hstatus
            obtain ⟨hlinks, hinfinite⟩ := hinv.links.freeLocal hphase hslot hput
            exact ⟨⟨_, hinv.release hlinks hinfinite⟩, hheld⟩
      · cases hstep
  | freePartner t =>
      simp only [netNext] at hstep
      split at hstep
      · next outSide hstatus =>
          refine freeThreadLink_preserves (J := NetGood e noInput noOutput)
            (fun _ _ _ _ _ hx hthFor hsend => hx.wake hthFor hsend)
            (fun hslot hsteals => ?_) (fun link links hslot hput hsteals => ?_) hstep
          · obtain ⟨⟨ph, hinv⟩, hheld⟩ := h hsteals
            have hphase := ((hinv.agrees t).2 outSide true).mp hstatus
            exact ⟨⟨_, hinv.release (hinv.links.releasePartner hphase hslot) rfl⟩, hheld⟩
          · obtain ⟨⟨ph, hinv⟩, hheld⟩ := h hsteals
            have hphase := ((hinv.agrees t).2 outSide true).mp hstatus
            obtain ⟨hlinks, hinfinite⟩ := hinv.links.freePartner hphase hslot hput
            exact ⟨⟨_, hinv.release hlinks hinfinite⟩, hheld⟩
      · cases hstep

theorem netGood_init : NetGood e noInput noOutput (.init noInput noOutput) := by
  refine fun _ => ⟨⟨fun _ => .idle, linkInv_init e noInput noOutput, rfl, fun t => ?_⟩, ?_⟩
  · simp [NetState.init]
  · simp [NetState.init]

theorem CallsMade.getLinks {s s' : NetState} {t : Nat} (h : CallsMade e s)
    (hget : getLinks e s t = some s') : CallsMade e s' := by
  obtain ⟨⟨granted, links⟩, hcall, hrest⟩ := Option.bind_eq_some_iff.mp hget
  obtain rfl := Option.some.inj hrest
  simp only [CallsMade, List.forall_mem_append, List.forall_mem_singleton]
  exact ⟨h, hcall⟩

theorem CallsMade.freeThreadLink {s s' : NetState} {t : Nat} {role : LinkRole} (h : CallsMade e s)
    (hfree : freeThreadLink (NetworkLinks.getLinks e) s t role = some s') : CallsMade e s' :=
  freeThreadLink_preserves (J := CallsMade e)
    (fun x p _ rest _ hx _ hsend => CallsMade.getLinks
      (s := ({ x.1 with thFor := Function.update x.1.thFor p rest }, x.2)) hx hsend)
    (fun _ => h) (fun _ _ _ _ => h) hfree

theorem callsMade_step {s s' : NetState} {l : LinkLabel} (h : CallsMade e s)
    (hstep : netNext e s l = some s') : CallsMade e s' := by
  cases l <;> simp only [netNext] at hstep <;> split at hstep
  · exact h.getLinks hstep
  · cases hstep
  · next inSide _ =>
      exact CallsMade.freeThreadLink (s := s.setStatus _ (.granted false inSide)) h hstep
  · cases hstep
  · next outSide _ =>
      exact CallsMade.freeThreadLink (s := s.setStatus _ (.granted outSide false)) h hstep
  · cases hstep

/-- A call that steals for a partner of infinite links breaks its promise. -/
theorem not_held_of_steals {c : GetCall} (hsteals : c.Steals e)
    (hmade : getNetworkLinks c.pre c.thread (e.node c.thread) (e.nodePartner c.thread) =
      some (c.granted, c.post)) : ¬ c.Held e := by
  intro hheld
  obtain ⟨hgranted, hslot⟩ := getNetworkLinks_stealsForInfinite hsteals hmade
  obtain ⟨link, -, hslot'⟩ := (hheld hgranted hsteals.1).1 hsteals.2.1.1
  exact absurd (hslot'.symm.trans hslot) (Option.some_ne_none _)

/-! ## The granted communications of a node -/

/-- The communication was granted its links, leaves the node and has not released its output
link. -/
def Leaving (e : Ends) (s : NetState) (n t : Nat) : Prop :=
  e.node t = n ∧ e.nodePartner t ≠ n ∧ ∃ inSide, s.2.status t = .granted true inSide

/-- The communication was granted its links, enters the node and has not released its input
link. -/
def Entering (e : Ends) (s : NetState) (n t : Nat) : Prop :=
  e.nodePartner t = n ∧ e.node t ≠ n ∧ ∃ outSide, s.2.status t = .granted outSide true

theorem card_le_of_owned {ph : Nat → CommPhase} {s : LinkState} {all : LinkPool → List Link}
    {p : LinkPool} (h : LinkInv e all ph s) (role : LinkRole) (ts : Finset Nat)
    (hts : ∀ t ∈ ts, e.uses s (t, role) ∧ (ph t).hold role = .owned ∧ e.pool (t, role) = p) :
    ts.card ≤ (all p).length := by
  have hinj : Function.Injective fun t : Nat => (t, role) := fun i j hij => (Prod.mk.inj hij).1
  rw [← Finset.card_map ⟨_, hinj⟩]
  refine h.consistent.card_le _ fun k hk => ?_
  obtain ⟨t, ht, rfl⟩ := Finset.mem_map.mp hk
  obtain ⟨huses, hhold, hpool⟩ := hts t ht
  exact ⟨by simp [Ends.hold, huses, hhold], hpool⟩

theorem NetInv.card_leaving {ph : Nat → CommPhase} {s : NetState}
    (h : NetInv e noInput noOutput ph s) {n : Nat} (hin : noInput n ≠ 0) (hout : noOutput n ≠ 0)
    (ts : Finset Nat) (hts : ∀ t ∈ ts, Leaving e s n t) : ts.card ≤ noOutput n := by
  have hlength : (nodeLinks noInput noOutput ⟨n, .outLink⟩).length = noOutput n := by
    simp [nodeLinks, hin, hout]
  rw [← hlength]
  refine card_le_of_owned h.links .localLink ts fun t ht => ?_
  obtain ⟨rfl, hne, inSide, hstatus⟩ := hts t ht
  rw [((h.agrees t).2 true inSide).mp hstatus]
  refine ⟨?_, rfl, rfl⟩
  simp [uses_localLink (Ne.symm hne), h.infinite, LinkState.init, hin]

theorem NetInv.card_entering {ph : Nat → CommPhase} {s : NetState}
    (h : NetInv e noInput noOutput ph s) {n : Nat} (hin : noInput n ≠ 0) (hout : noOutput n ≠ 0)
    (ts : Finset Nat) (hts : ∀ t ∈ ts, Entering e s n t) : ts.card ≤ noInput n := by
  have hlength : (nodeLinks noInput noOutput ⟨n, .inLink⟩).length = noInput n := by
    simp [nodeLinks, hin, hout]
  rw [← hlength]
  refine card_le_of_owned h.links .partnerLink ts fun t ht => ?_
  obtain ⟨rfl, hne, outSide, hstatus⟩ := hts t ht
  rw [((h.agrees t).2 outSide true).mp hstatus]
  refine ⟨?_, rfl, rfl⟩
  simp [uses_partnerLink hne, h.infinite, LinkState.init, hin]

/-- Every call of a run that is granted gives its thread the links if and only if none of them
steals for a partner of infinite links, and then the granted communications that leave
(enter) a finite full duplex node are never more than its output (input) links. -/
theorem network_links_granted {s : NetState} {tr : List (Transition NetState LinkLabel)}
    (hrun : Run (ofPartial (netNext e)) (.init noInput noOutput) tr s) :
    ((∀ c ∈ s.2.calls, c.Held e) ↔ ∀ c ∈ s.2.calls, ¬ c.Steals e) ∧
    ((∀ c ∈ s.2.calls, ¬ c.Steals e) → ∀ n, noInput n ≠ 0 → noOutput n ≠ 0 →
      (∀ ts : Finset Nat, (∀ t ∈ ts, Leaving e s n t) → ts.card ≤ noOutput n) ∧
      ∀ ts : Finset Nat, (∀ t ∈ ts, Entering e s n t) → ts.card ≤ noInput n) := by
  have hgood : NetGood e noInput noOutput s :=
    hrun.invariant netGood_init fun _ _ _ h hstep => netGood_step h hstep
  have hmade : CallsMade e s :=
    hrun.invariant (I := CallsMade e) (by simp [CallsMade, NetState.init])
      fun _ _ _ h hstep => callsMade_step h hstep
  refine ⟨⟨fun hheld c hc hsteals => ?_, fun hsteals => (hgood hsteals).2⟩,
    fun hsteals n hin hout => ?_⟩
  · exact not_held_of_steals hsteals (hmade c hc) (hheld c hc)
  · obtain ⟨⟨ph, hinv⟩, -⟩ := hgood hsteals
    exact ⟨hinv.card_leaving hin hout, hinv.card_entering hin hout⟩

def oneLink : Nat → Nat
  | 2 => 0
  | _ => 1

def threeComms : Ends where
  node
    | 0 => 3
    | _ => 0
  nodePartner
    | 2 => 2
    | _ => 1

/-- The second communication waits for the input link of the first one and gets it. -/
theorem network_links_granted_twoComms :
    let s := ((exec (netNext threeComms) (.init oneLink oneLink)
      [.get 0, .get 1, .freeLocal 0, .freePartner 0]).get (by rfl)).2
    ∀ ts : Finset Nat, (∀ t ∈ ts, Leaving threeComms s 0 t) → ts.card ≤ 1 := by
  have hsteals : ∀ c ∈ ((exec (netNext threeComms) (.init oneLink oneLink)
      [.get 0, .get 1, .freeLocal 0, .freePartner 0]).get (by rfl)).2.2.calls,
      ¬ c.Steals threeComms := by
    refine List.forall_mem_cons.mpr ⟨?_, List.forall_mem_cons.mpr ⟨?_,
      List.forall_mem_cons.mpr ⟨?_, by rintro _ ⟨⟩⟩⟩⟩
    · exact fun h => absurd h.2.2 (by decide)
    · exact fun h => absurd h.2.2 (by decide)
    · exact fun h => absurd h.2.2 (by decide)
  exact ((network_links_granted (run_exec_get (by rfl))).2 hsteals 0 (by decide) (by decide)).1

/-- The third communication finds the output link of the waiting second one, and two
communications leave a node that has one output link. -/
theorem two_leaving_one_link :
    let s := ((exec (netNext threeComms) (.init oneLink oneLink)
      [.get 0, .get 1, .get 2, .freeLocal 0, .freePartner 0]).get (by rfl)).2
    (¬ ∀ c ∈ s.2.calls, c.Held threeComms) ∧
      ∃ ts : Finset Nat, (∀ t ∈ ts, Leaving threeComms s 0 t) ∧ oneLink 0 < ts.card := by
  constructor
  · intro h
    obtain ⟨link, -, hslot⟩ := (h _ (List.mem_cons_of_mem _ (List.mem_cons_of_mem _
      List.mem_cons_self)) rfl (by decide)).1 rfl
    cases hslot
  · refine ⟨{1, 2}, fun t ht => ?_, by decide⟩
    rcases Finset.mem_insert.mp ht with rfl | ht
    · exact ⟨rfl, by decide, true, by decide⟩
    · obtain rfl := Finset.mem_singleton.mp ht
      exact ⟨rfl, by decide, true, by decide⟩

end Dimemas.Model.NetworkLinks
