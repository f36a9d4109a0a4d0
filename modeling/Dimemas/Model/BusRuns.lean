import Dimemas.Model.BusAccounting
/-!
# Runs of bus reservations

The two handlers that release buses wake up messages, which wait for links or for a bus,
and collective operations. Between their steps a bus may be counted that no transfer uses,
or be free while threads wait for it, but not after them.
-/

namespace Dimemas.Model.BusRuns

open Dimemas.Library.Transitions Dimemas.Library.Reservations
open Dimemas.Model.Links Dimemas.Model.LinkOwnership Dimemas.Model.NetworkLinks
open Dimemas.Model.Buses Dimemas.Model.BusAccounting

variable {m : Machine} {all : LinkPool → List Link} {ended free : Int} {ph : Nat → CommPhase}
  {s s' : MachineState} {t : Nat}

/-- A transfer has left the network, its bus is still counted, and its communication is in the
phase `q` of releasing its links. -/
def Releasing (m : Machine) (all : LinkPool → List Link) (t : Nat) (q : CommPhase)
    (s : MachineState) : Prop :=
  (∀ c ∈ s.2.calls, ¬ c.Steals m.ends) → ∃ ph, BusInv m all 1 0 ph s ∧ ph t = q

theorem Releasing.wake (hN : 0 < m.numMessagesOnNetwork) (hfifo : m.policy = .fifo)
    {outSide inSide : Bool} {p : LinkPool} {first : Nat} {rest : List Nat}
    (h : Releasing m all t (.granted outSide inSide) s) (hthFor : s.1.thFor p = first :: rest)
    (hsend : reallySendInternalNetwork m
      ({ s.1 with thFor := Function.update s.1.thFor p rest }, s.2) first = some s') :
    Releasing m all t (.granted outSide inSide) s' := by
  intro hsteals
  obtain ⟨ph, hinv, hphase⟩ := h fun c hc => hsteals c (calls_reallySend hsend c hc)
  have hwaiting := hinv.links.waiting (t := first) (p := p) (by simp [hthFor])
  have hne : t ≠ first := by
    rintro rfl
    rw [hphase] at hwaiting
    simp [CommPhase.Waiting] at hwaiting
  have hidle : ¬ (m.globalOp first ∨ s.2.begun first = false) := fun hi => by
    rw [hinv.idle first hi] at hwaiting
    simp [CommPhase.Waiting] at hwaiting
  simp only [not_or, Bool.not_eq_true, Bool.not_eq_false] at hidle
  have hnowhere : ¬ (first ∈ s.2.queue ∨ first ∈ s.2.threadsOnNetwork) := fun hmem => by
    rw [hinv.granted first hmem (by simp [hidle.1])] at hwaiting
    simp [CommPhase.Waiting] at hwaiting
  simp only [not_or] at hnowhere
  have hwoken := hinv.othersKept (hinv.links.wake hthFor)
    (othersKept_update ph (ph first).woken) hnowhere.1 hnowhere.2 (by simp [hidle])
  obtain ⟨ph', h', hothers, -⟩ := hwoken.reallySend hN hfifo (by omega) (le_refl _)
    (by simp [hidle.1]) hidle.2 hnowhere.1 hnowhere.2
    (by rw [Function.update_self]; exact hwaiting.woken.imp_right .inl) hsend hsteals
  refine ⟨ph', h', ?_⟩
  have hphase' : Function.update ph first (ph first).woken t = .granted outSide inSide := by
    rw [Function.update_of_ne hne, hphase]
  rcases hothers t hne with heq | ⟨hin, -⟩
  · rw [heq, hphase']
  · rw [hphase'] at hin
    cases hin

theorem Releasing.freeLocal (hN : 0 < m.numMessagesOnNetwork) (hfifo : m.policy = .fifo)
    (h : (∀ c ∈ s.2.calls, ¬ c.Steals m.ends) → ∃ ph, BusInv m all 1 0 ph s ∧
      ph t = .granted true true ∧ t ∉ s.2.queue ∧ t ∉ s.2.threadsOnNetwork)
    (hfree : freeThreadLink (reallySendInternalNetwork m) s t .localLink = some s') :
    Releasing m all t (.granted false true) s' := by
  refine freeThreadLink_preserves (J := Releasing m all t (.granted false true))
    (fun _ _ _ _ _ hx hthFor hsend => hx.wake hN hfifo hthFor hsend)
    (fun hslot hsteals => ?_) (fun link links hslot hput hsteals => ?_) hfree
  · obtain ⟨ph, hinv, hphase, hqueue, hnetwork⟩ := h hsteals
    exact ⟨_, hinv.releaseLinks ⟨_, _, hphase⟩ hqueue hnetwork
      (hinv.links.releaseLocal hphase hslot), Function.update_self ..⟩
  · obtain ⟨ph, hinv, hphase, hqueue, hnetwork⟩ := h hsteals
    exact ⟨_, hinv.releaseLinks ⟨_, _, hphase⟩ hqueue hnetwork
      (hinv.links.freeLocal hphase hslot hput).1, Function.update_self ..⟩

theorem Releasing.freePartner (hN : 0 < m.numMessagesOnNetwork) (hfifo : m.policy = .fifo)
    (h : Releasing m all t (.granted false true) s)
    (hfree : freeThreadLink (reallySendInternalNetwork m) s t .partnerLink = some s') :
    Releasing m all t (.granted false false) s' := by
  refine freeThreadLink_preserves (J := Releasing m all t (.granted false false))
    (fun _ _ _ _ _ hx hthFor hsend => hx.wake hN hfifo hthFor hsend)
    (fun hslot hsteals => ?_) (fun link links hslot hput hsteals => ?_) hfree
  · obtain ⟨ph, hinv, hphase⟩ := h hsteals
    obtain ⟨hqueue, hnetwork⟩ := hinv.not_mem_of_phase hphase
    exact ⟨_, hinv.releaseLinks ⟨_, _, hphase⟩ hqueue hnetwork
      (hinv.links.releasePartner hphase hslot), Function.update_self ..⟩
  · obtain ⟨ph, hinv, hphase⟩ := h hsteals
    obtain ⟨hqueue, hnetwork⟩ := hinv.not_mem_of_phase hphase
    exact ⟨_, hinv.releaseLinks ⟨_, _, hphase⟩ hqueue hnetwork
      (hinv.links.freePartner hphase hslot hput).1, Function.update_self ..⟩

theorem internalResourcesComTimerOut_keeps (hN : 0 < m.numMessagesOnNetwork)
    (hfifo : m.policy = .fifo)
    (h : (∀ c ∈ s.2.calls, ¬ c.Steals m.ends) → ∃ ph, BusInv m all 0 0 ph s)
    (hop : !m.globalOp t) (hmem : t ∈ s.2.threadsOnNetwork)
    (hstep : internalResourcesComTimerOut m s t = some s')
    (hsteals : ∀ c ∈ s'.2.calls, ¬ c.Steals m.ends) : ∃ ph, BusInv m all 0 0 ph s' := by
  simp only [internalResourcesComTimerOut, hN.ne', if_false, hmem, if_true] at hstep
  obtain ⟨b, hleave, hstep₁⟩ := Option.bind_eq_some_iff.mp hstep
  obtain rfl := Option.some.inj hleave
  obtain ⟨s₁, hlocal, hstep₂⟩ := Option.bind_eq_some_iff.mp hstep₁
  obtain ⟨s₂, hpartner, hlast⟩ := Option.bind_eq_some_iff.mp hstep₂
  have hfreed : Releasing m all t (.granted false false) s₂ := by
    refine Releasing.freePartner hN hfifo (Releasing.freeLocal hN hfifo (fun hcalls => ?_) hlocal)
      hpartner
    obtain ⟨ph, hinv⟩ := h hcalls
    obtain ⟨hleft, hnetwork⟩ := hinv.leave hop hmem
    exact ⟨ph, hleft, hinv.granted t (.inr hmem) hop,
      fun hq => hinv.queueDisjoint t hq hmem, hnetwork⟩
  split at hlast
  · next hcond =>
      obtain ⟨ph, hinv, -⟩ := hfreed fun c hc => hsteals c (calls_wakeBusWaiter hlast c hc)
      have hbus := hinv.freeBus hN
      have hle := hinv.le
      have hcurr := hinv.curr
      have hgathered := gathered_nonneg hinv
      obtain ⟨ph', h', -⟩ := hbus.wakeBusWaiter hN hfifo (by omega)
        (by simp only [freeBus, recomputeInternalNetworkBandwidth]; split <;> omega) hlast hsteals
      exact ⟨ph', h'⟩
  · next hcond =>
      obtain rfl := Option.some.inj hlast
      obtain ⟨ph, hinv, -⟩ := hfreed hsteals
      exact ⟨ph, (hinv.freeBus hN).of_exhausted (.inl (by simpa [hN.ne'] using hcond))⟩

theorem freeGlobalCommunicationResources_keeps (hN : 0 < m.numMessagesOnNetwork)
    (hfifo : m.policy = .fifo) (h : BusInv m all 0 0 ph s) (hop : m.globalOp t)
    (hmem : t ∈ s.2.threadsOnNetwork) (hstep : freeGlobalCommunicationResources m s t = some s')
    (hsteals : ∀ c ∈ s'.2.calls, ¬ c.Steals m.ends) : ∃ ph', BusInv m all 0 0 ph' s' :=
  (h.freeAll hN hop hmem).wakeBusWaiters hN hfifo (by omega) (le_refl _) hstep hsteals

/-! ## Runs -/

/-- The invariant of a run, as long as no call steals for a partner of infinite links. -/
def Accounted (m : Machine) (all : LinkPool → List Link) (s : MachineState) : Prop :=
  (∀ c ∈ s.2.calls, ¬ c.Steals m.ends) → ∃ ph, BusInv m all 0 0 ph s

theorem accounted_step (hN : 0 < m.numMessagesOnNetwork) (hfifo : m.policy = .fifo)
    {l : BusLabel} (h : Accounted m all s) (hstep : busNext m s l = some s') :
    Accounted m all s' := by
  intro hsteals
  cases l with
  | send t =>
      simp only [busNext] at hstep
      split at hstep
      · next hnew =>
          obtain ⟨hop, hbegun⟩ : (!m.globalOp t) = true ∧ (!s.2.begun t) = true := by
            simpa using hnew
          obtain ⟨ph, hinv⟩ := h fun c hc => hsteals c (calls_reallySend hstep c hc)
          have hphase := hinv.idle t (.inr (by simpa using hbegun))
          obtain ⟨hqueue, hnetwork⟩ := hinv.not_mem_of_idle hop hphase
          obtain ⟨ph', h', -⟩ := hinv.begin.reallySend hN hfifo (le_refl _) (le_refl _) hop
            (Function.update_self ..) hqueue hnetwork (.inl hphase) hstep hsteals
          exact ⟨ph', h'⟩
      · cases hstep
  | netResources t =>
      simp only [busNext] at hstep
      split at hstep
      · next hcond =>
          exact internalResourcesComTimerOut_keeps hN hfifo h hcond.1 hcond.2 hstep hsteals
      · cases hstep
  | globalOp t =>
      simp only [busNext] at hstep
      split at hstep
      · next hcond =>
          obtain rfl := Option.some.inj hstep
          obtain ⟨ph, hinv⟩ := h fun c hc => hsteals c (by
            simpa only [calls_globalOpGetAllBuses] using hc)
          exact ⟨ph, hinv.globalOpGetAllBuses hN hcond.1 hcond.2.1 hcond.2.2⟩
      · cases hstep
  | groupResources t =>
      simp only [busNext] at hstep
      split at hstep
      · next hcond =>
          obtain ⟨ph, hinv⟩ := h fun c hc => hsteals c (calls_wakeBusWaiters hstep c hc)
          exact freeGlobalCommunicationResources_keeps hN hfifo hinv hcond.1 hcond.2 hstep hsteals
      · cases hstep

theorem gathered_eq (h : BusInv m all ended free ph s) :
    gathered s.2 = ((s.2.queue.filter m.globalOp).map s.2.numberBuses).sum := by
  unfold gathered
  have hzero : ∀ t, m.globalOp t = false → s.2.numberBuses t = 0 :=
    fun t hop => h.noBuses t (by simp [hop])
  induction s.2.queue with
  | nil => rfl
  | cons t q ih =>
      cases hop : m.globalOp t with
      | true => simp [hop, ih]
      | false => simp [hop, ih, hzero t hop]

/-- With the FIFO policy the buses in use are the transfers on the network and the buses that the
waiting collective operations have gathered, none is free while a thread waits for one, and
`recompute_internal_network_bandwidth` does not panic. -/
theorem buses_accounted (hN : 0 < m.numMessagesOnNetwork) (hfifo : m.policy = .fifo)
    {noInput noOutput : Nat → Nat} {tr : List (Transition MachineState BusLabel)}
    (hrun : Run (ofPartial (busNext m)) (.init noInput noOutput) tr s)
    (hsteals : ∀ c ∈ s.2.calls, ¬ c.Steals m.ends) :
    s.2.currOnNetwork = s.2.threadsOnNetwork.length +
      ((s.2.queue.filter m.globalOp).map s.2.numberBuses).sum ∧
    (0 ≤ s.2.currOnNetwork ∧ s.2.currOnNetwork ≤ m.numMessagesOnNetwork) ∧
    (s.2.queue ≠ [] → s.2.currOnNetwork = m.numMessagesOnNetwork) ∧
    s.2.threadsOnNetwork.length ≤ m.numMessagesOnNetwork ∧
    ∀ r ∈ s.2.ratios, r ≠ 0 := by
  have haccounted : Accounted m (nodeLinks noInput noOutput) s :=
    hrun.invariant (I := Accounted m (nodeLinks noInput noOutput))
      (fun _ => ⟨_, busInv_init m noInput noOutput⟩)
      fun _ _ _ h hstep => accounted_step hN hfifo h hstep
  obtain ⟨ph, h⟩ := haccounted hsteals
  have hgathered := gathered_nonneg h
  have hcurr := h.curr
  have hle := h.le
  refine ⟨by rw [← gathered_eq h]; omega, ⟨by omega, hle⟩, fun hq => ?_, by omega, h.ratios⟩
  have hfull := h.full hq
  omega

def oneBus (policy : CommunicPolicy) : Machine where
  ends := ⟨fun t => 2 * t, fun t => 2 * t + 1⟩
  numMessagesOnNetwork := 1
  policy := policy
  globalOp := (· == 2)

/-- The second message and the collective operation wait while the first message is sent. -/
theorem buses_accounted_oneBus :
    let s := ((exec (busNext (oneBus .fifo)) (.init (fun _ => 1) (fun _ => 1))
      [.send 0, .send 1, .globalOp 2, .netResources 0]).get (by rfl)).2
    s.2.queue ≠ [] → s.2.currOnNetwork = 1 := by
  have hsteals : ∀ c ∈ ((exec (busNext (oneBus .fifo)) (.init (fun _ => 1) (fun _ => 1))
      [.send 0, .send 1, .globalOp 2, .netResources 0]).get (by rfl)).2.2.calls,
      ¬ c.Steals (oneBus .fifo).ends := by
    refine List.forall_mem_cons.mpr ⟨?_, List.forall_mem_cons.mpr ⟨?_,
      List.forall_mem_cons.mpr ⟨?_, by rintro _ ⟨⟩⟩⟩⟩
    · exact fun h => absurd h.2.2 (by decide)
    · exact fun h => absurd h.2.2 (by decide)
    · exact fun h => absurd h.2.2 (by decide)
  exact (buses_accounted (m := oneBus .fifo) (by decide) rfl (run_exec_get (by rfl))
    hsteals).2.2.1

/-- The bus is not waited for with another policy. -/
theorem two_on_one_bus :
    let s := ((exec (busNext (oneBus .rr)) (.init (fun _ => 1) (fun _ => 1))
      [.send 0, .send 1]).get (by rfl)).2
    (oneBus .rr).numMessagesOnNetwork < s.2.currOnNetwork ∧ s.2.queue = [] :=
  ⟨by decide, rfl⟩

end Dimemas.Model.BusRuns
