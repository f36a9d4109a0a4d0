import Dimemas.Library.Transitions
import Dimemas.Model.Buses
import Mathlib.Algebra.Field.Rat
import Mathlib.Algebra.Order.BigOperators.Group.List
/-!
# Every bus is accounted for

On a machine with buses and the FIFO policy `curr_on_network` counts the transfers on
the network and the buses that waiting collective operations have gathered, and no
thread waits for a bus while one is free. The invariant is stated with two numbers
that are 0 between the steps: the buses of transfers that ended but are still
counted, and the buses that may be free while threads wait for them.
-/

namespace Dimemas.Model.BusAccounting

open Dimemas.Library.Transitions Dimemas.Library.Reservations
open Dimemas.Model.Links Dimemas.Model.LinkOwnership Dimemas.Model.NetworkLinks
open Dimemas.Model.Buses

def gathered (b : BusState) : Int := (b.queue.map b.numberBuses).sum

structure BusInv (m : Machine) (all : LinkPool → List Link) (ended free : Int)
    (ph : Nat → CommPhase) (s : MachineState) : Prop where
  links : LinkInv m.ends all ph s.1
  curr : s.2.currOnNetwork = s.2.threadsOnNetwork.length + gathered s.2 + ended
  le : s.2.currOnNetwork ≤ m.numMessagesOnNetwork
  full : s.2.queue ≠ [] → (m.numMessagesOnNetwork : Int) ≤ s.2.currOnNetwork + free
  queueNodup : s.2.queue.Nodup
  queueDisjoint : ∀ t ∈ s.2.queue, t ∉ s.2.threadsOnNetwork
  granted : ∀ t, t ∈ s.2.queue ∨ t ∈ s.2.threadsOnNetwork → !m.globalOp t →
    ph t = .granted true true
  once : ∀ t, !m.globalOp t → s.2.threadsOnNetwork.count t ≤ 1
  alone : ∀ t ∈ s.2.threadsOnNetwork, m.globalOp t →
    s.2.threadsOnNetwork = List.replicate m.numMessagesOnNetwork t
  buses : ∀ t, 0 ≤ s.2.numberBuses t
  noBuses : ∀ t, (m.globalOp t → t ∉ s.2.queue ∧ t ∉ s.2.threadsOnNetwork) →
    s.2.numberBuses t = 0
  idle : ∀ t, m.globalOp t ∨ s.2.begun t = false → ph t = .idle
  ratios : ∀ r ∈ s.2.ratios, r ≠ 0

variable {m : Machine} {all : LinkPool → List Link} {ended free : Int} {ph : Nat → CommPhase}
  {s s' : MachineState} {t : Nat}

theorem busInv_init (m : Machine) (noInput noOutput : Nat → Nat) :
    BusInv m (nodeLinks noInput noOutput) 0 0 (fun _ => .idle) (.init noInput noOutput) where
  links := linkInv_init m.ends noInput noOutput
  curr := by simp [MachineState.init, gathered]
  le := by simp [MachineState.init]
  full := by simp [MachineState.init]
  queueNodup := by simp [MachineState.init]
  queueDisjoint := by simp [MachineState.init]
  granted := by simp [MachineState.init]
  once := by simp [MachineState.init]
  alone := by simp [MachineState.init]
  buses := by simp [MachineState.init]
  noBuses := by simp [MachineState.init]
  idle := fun _ _ => rfl
  ratios := by simp [MachineState.init]

theorem gathered_nonneg (h : BusInv m all ended free ph s) : 0 ≤ gathered s.2 := by
  refine List.sum_nonneg fun x hx => ?_
  obtain ⟨t, -, rfl⟩ := List.mem_map.mp hx
  exact h.buses t

theorem BusInv.mono {free' : Int} (h : BusInv m all ended free ph s) (hle : free ≤ free') :
    BusInv m all ended free' ph s := by
  refine { h with full := fun hq => ?_ }
  have hfull := h.full hq
  omega

theorem ratios_recompute (hN : 0 < m.numMessagesOnNetwork) {b : BusState}
    (h : ∀ r ∈ b.ratios, r ≠ 0) :
    ∀ r ∈ (recomputeInternalNetworkBandwidth m b).ratios, r ≠ 0 := by
  simp only [recomputeInternalNetworkBandwidth, List.forall_mem_append, List.forall_mem_singleton]
  refine ⟨h, ?_⟩
  split
  · exact one_ne_zero
  · next hlt =>
      have hcurr : b.currOnNetwork ≠ 0 := by omega
      exact div_ne_zero (by exact_mod_cast hN.ne') (by exact_mod_cast hcurr)

/-- The phases may change for communications that have nothing to do with the buses. -/
theorem BusInv.othersKept {ph' : Nat → CommPhase} {links : LinkState}
    (h : BusInv m all ended free ph s) (hlinks : LinkInv m.ends all ph' links)
    (hothers : OthersKept ph ph' t) (hqueue : t ∉ s.2.queue) (hnetwork : t ∉ s.2.threadsOnNetwork)
    (hidle : ¬ (m.globalOp t ∨ s.2.begun t = false)) : BusInv m all ended free ph' (links, s.2) := by
  refine { h with links := hlinks, granted := fun i hi hop => ?_, idle := fun i hi => ?_ }
  · have hit : i ≠ t := by
      rintro rfl
      exact hi.elim hqueue hnetwork
    have hphase := h.granted i hi hop
    rcases hothers i hit with heq | ⟨hin, -⟩
    · rw [heq, hphase]
    · rw [hphase] at hin
      cases hin
  · have hit : i ≠ t := by
      rintro rfl
      exact hidle hi
    have hphase := h.idle i hi
    rcases hothers i hit with heq | ⟨hin, -⟩
    · rw [heq, hphase]
    · rw [hphase] at hin
      cases hin

theorem BusInv.setCalls (h : BusInv m all ended free ph s) (calls : List GetCall) :
    BusInv m all ended free ph (s.1, { s.2 with calls := calls }) :=
  ⟨h.links, h.curr, h.le, h.full, h.queueNodup, h.queueDisjoint, h.granted, h.once, h.alone,
    h.buses, h.noBuses, h.idle, h.ratios⟩

theorem BusInv.send_not_alone (h : BusInv m all ended free ph s)
    (hlt : s.2.threadsOnNetwork.length < m.numMessagesOnNetwork) {i : Nat}
    (hi : i ∈ s.2.threadsOnNetwork) : ¬ m.globalOp i := by
  intro hop
  have hlength := congrArg List.length (h.alone i hi hop)
  rw [List.length_replicate] at hlength
  omega

/-- A message whose links were granted joins the queue while no bus is free. -/
theorem BusInv.enqueueSend (h : BusInv m all ended free ph s) (hfree : 0 ≤ free)
    (hop : !m.globalOp t) (hphase : ph t = .granted true true) (hqueue : t ∉ s.2.queue)
    (hnetwork : t ∉ s.2.threadsOnNetwork)
    (hcurr : (m.numMessagesOnNetwork : Int) ≤ s.2.currOnNetwork) :
    BusInv m all ended free ph (s.1, { s.2 with queue := s.2.queue ++ [t] }) := by
  have hop' : m.globalOp t = false := by simpa using hop
  refine { h with
    curr := ?_, full := fun _ => by simp only; omega, queueNodup := ?_, queueDisjoint := ?_,
    granted := ?_, noBuses := ?_ }
  · have hzero := h.noBuses t (by simp [hop'])
    have hcurr := h.curr
    simp only [gathered, List.map_append, List.map_cons, List.map_nil, List.sum_append,
      List.sum_singleton, hzero] at hcurr ⊢
    omega
  · exact List.nodup_append.mpr ⟨h.queueNodup, by simp, fun i hi j hj => by
      obtain rfl := List.mem_singleton.mp hj
      rintro rfl
      exact hqueue hi⟩
  · simp only [List.forall_mem_append, List.forall_mem_singleton]
    exact ⟨h.queueDisjoint, hnetwork⟩
  · intro i hi hiop
    by_cases hit : i = t
    · rw [hit, hphase]
    · exact h.granted i (by simpa [hit] using hi) hiop
  · intro i hi
    refine h.noBuses i fun hiop => ?_
    have hi' := hi hiop
    simp only [List.mem_append, List.mem_singleton, not_or] at hi'
    exact ⟨hi'.1.1, hi'.2⟩

/-- A message whose links were granted takes a bus. -/
theorem BusInv.takeBus (hN : 0 < m.numMessagesOnNetwork) (h : BusInv m all ended free ph s)
    (hended : 0 ≤ ended) (hop : !m.globalOp t) (hphase : ph t = .granted true true)
    (hqueue : t ∉ s.2.queue) (hnetwork : t ∉ s.2.threadsOnNetwork)
    (hcurr : s.2.currOnNetwork < m.numMessagesOnNetwork) :
    BusInv m all ended (free - 1) ph (s.1, recomputeInternalNetworkBandwidth m { s.2 with
      currOnNetwork := s.2.currOnNetwork + 1
      threadsOnNetwork := s.2.threadsOnNetwork ++ [t] }) := by
  have hop' : m.globalOp t = false := by simpa using hop
  have hgathered := gathered_nonneg h
  have hlength : s.2.threadsOnNetwork.length < m.numMessagesOnNetwork := by
    have hcurr' := h.curr
    omega
  refine {
    links := h.links
    curr := ?_
    le := ?_
    full := fun hq => ?_
    queueNodup := h.queueNodup
    queueDisjoint := fun i hi => ?_
    granted := fun i hi hiop => ?_
    once := fun i hiop => ?_
    alone := fun i hi hiop => ?_
    buses := h.buses
    noBuses := fun i hi => ?_
    idle := h.idle
    ratios := ratios_recompute hN h.ratios }
  · have hcurr' := h.curr
    simp only [recomputeInternalNetworkBandwidth, gathered, List.length_append,
      List.length_singleton, Nat.cast_add, Nat.cast_one] at hcurr' ⊢
    omega
  · simp only [recomputeInternalNetworkBandwidth]
    omega
  · have hfull := h.full hq
    simp only [recomputeInternalNetworkBandwidth]
    omega
  · simp only [recomputeInternalNetworkBandwidth, List.mem_append, List.mem_singleton, not_or]
    exact ⟨h.queueDisjoint i hi, fun hit => hqueue (hit ▸ hi)⟩
  · by_cases hit : i = t
    · rw [hit, hphase]
    · simp only [recomputeInternalNetworkBandwidth, List.mem_append, List.mem_singleton, hit,
        or_false] at hi
      exact h.granted i hi hiop
  · simp only [recomputeInternalNetworkBandwidth, List.count_append, List.count_singleton]
    have honce := h.once i hiop
    split
    · next hit =>
        have hit' : t = i := by simpa using hit
        rw [← hit', List.count_eq_zero_of_not_mem hnetwork]
    · omega
  · simp only [recomputeInternalNetworkBandwidth, List.mem_append, List.mem_singleton] at hi
    rcases hi with hi | rfl
    · exact absurd hiop (h.send_not_alone hlength hi)
    · rw [hop'] at hiop
      cases hiop
  · refine h.noBuses i fun hiop => ?_
    have hi' := hi hiop
    simp only [recomputeInternalNetworkBandwidth, List.mem_append, List.mem_singleton,
      not_or] at hi'
    exact ⟨hi'.1, hi'.2.1⟩

/-- `really_send` for a thread that is in no queue. A message whose links were granted takes
the bus that is free. -/
theorem BusInv.reallySend (hN : 0 < m.numMessagesOnNetwork) (hfifo : m.policy = .fifo)
    (h : BusInv m all ended free ph s) (hended : 0 ≤ ended) (hfree : 0 ≤ free)
    (hop : !m.globalOp t) (hbegun : s.2.begun t = true) (hqueue : t ∉ s.2.queue)
    (hnetwork : t ∉ s.2.threadsOnNetwork) (hready : (ph t).Ready)
    (hsend : reallySendInternalNetwork m s t = some s')
    (hsteals : ∀ c ∈ s'.2.calls, ¬ c.Steals m.ends) :
    ∃ ph', BusInv m all ended free ph' s' ∧ OthersKept ph ph' t ∧
      (ph t = .granted true true → s.2.currOnNetwork < m.numMessagesOnNetwork →
        BusInv m all ended (free - 1) ph' s' ∧ s'.2.queue = s.2.queue) := by
  obtain ⟨⟨granted, links⟩, hget, hrest⟩ := Option.bind_eq_some_iff.mp hsend
  let call : GetCall := ⟨t, s.1, granted, links⟩
  let b : BusState := { s.2 with calls := s.2.calls ++ [call] }
  have hcall : ∀ x : MachineState, x.2.calls = b.calls → x = s' → ¬ call.Steals m.ends := by
    rintro x hx rfl
    exact hsteals call (by rw [hx]; simp [b])
  have hop' : m.globalOp t = false := by simpa using hop
  have hidle : ¬ (m.globalOp t ∨ s.2.begun t = false) := by simp [hop', hbegun]
  have hspec : ¬ call.Steals m.ends → ∃ ph', BusInv m all ended free ph' (links, b) ∧
      (ph' t).After granted ∧ OthersKept ph ph' t ∧ (ph t = .granted true true → granted) := by
    intro hsteal
    obtain ⟨ph', hlinks, hafter, hothers, -, hgranted⟩ :=
      h.links.getNetworkLinks hready hsteal hget
    exact ⟨ph', (h.othersKept hlinks hothers hqueue hnetwork hidle).setCalls _, hafter, hothers,
      hgranted⟩
  simp only [hN.ne', if_false, hfifo, true_and] at hrest
  split at hrest
  · next hgranted =>
      split at hrest
      · next hcurr =>
          obtain ⟨ph', h', hafter, hothers, -⟩ :=
            hspec (hcall (links, { b with queue := b.queue ++ [t] }) rfl (Option.some.inj hrest))
          rw [hgranted] at hafter
          obtain rfl := Option.some.inj hrest
          refine ⟨ph', h'.enqueueSend hfree hop hafter hqueue hnetwork hcurr, hothers, ?_⟩
          exact fun _ hlt => absurd hcurr (not_le.mpr hlt)
      · next hcurr =>
          obtain ⟨ph', h', hafter, hothers, -⟩ :=
            hspec (hcall (links, recomputeInternalNetworkBandwidth m { b with
              currOnNetwork := b.currOnNetwork + 1
              threadsOnNetwork := b.threadsOnNetwork ++ [t] }) rfl (Option.some.inj hrest))
          rw [hgranted] at hafter
          obtain rfl := Option.some.inj hrest
          have hbus := h'.takeBus hN hended hop hafter hqueue hnetwork (by simpa using hcurr)
          exact ⟨ph', hbus.mono (by omega), hothers, fun _ _ => ⟨hbus, rfl⟩⟩
  · next hgranted =>
      obtain ⟨ph', h', hafter, hothers, hgranted'⟩ :=
        hspec (hcall (links, b) rfl (Option.some.inj hrest))
      obtain rfl := Option.some.inj hrest
      exact ⟨ph', h', hothers, fun hphase _ => absurd (hgranted' hphase) hgranted⟩

/-! ## Collective operations -/

theorem map_update_of_not_mem {q : List Nat} (f : Nat → Int) (x : Int) (ht : t ∉ q) :
    q.map (Function.update f t x) = q.map f := by
  refine List.map_congr_left fun i hi => Function.update_of_ne ?_ ..
  rintro rfl
  exact ht hi

/-- A collective operation takes all buses of a network without transfers; `queue` and
`numberBuses` are without it. -/
theorem BusInv.takeAll (hN : 0 < m.numMessagesOnNetwork) (h : BusInv m all 0 free ph s)
    (hop : m.globalOp t) (queue : List Nat) (numberBuses : Nat → Int)
    (hsub : List.Sublist queue s.2.queue) (hqueue : t ∉ queue)
    (hmem : ∀ i ∈ s.2.queue, i ∈ queue ∨ i = t)
    (hbuses : ∀ i, i ≠ t → numberBuses i = s.2.numberBuses i) (hpos : 0 ≤ numberBuses t)
    (hnetwork : s.2.threadsOnNetwork = []) (hgathered : (queue.map s.2.numberBuses).sum = 0) :
    BusInv m all 0 0 ph (s.1, { s.2 with
      currOnNetwork := m.numMessagesOnNetwork
      threadsOnNetwork :=
        s.2.threadsOnNetwork ++ List.replicate m.numMessagesOnNetwork t
      queue := queue
      numberBuses := numberBuses }) := by
  have hmap : queue.map numberBuses = queue.map s.2.numberBuses :=
    List.map_congr_left fun i hi => hbuses i fun hit => hqueue (hit ▸ hi)
  rw [hnetwork, List.nil_append]
  refine {
    links := h.links
    curr := ?_
    le := le_refl _
    full := fun _ => by simp
    queueNodup := h.queueNodup.sublist hsub
    queueDisjoint := fun i hi hi' => hqueue (List.eq_of_mem_replicate hi' ▸ hi)
    granted := fun i hi hiop => ?_
    once := fun i hiop => ?_
    alone := fun i hi _ => by rw [List.eq_of_mem_replicate hi]
    buses := fun i => ?_
    noBuses := fun i hi => ?_
    idle := h.idle
    ratios := h.ratios }
  · simp only [gathered, List.length_replicate, hmap, hgathered]
    omega
  · rcases hi with hi | hi
    · exact h.granted i (.inl (hsub.subset hi)) hiop
    · rw [List.eq_of_mem_replicate hi, hop] at hiop
      cases hiop
  · rw [List.count_replicate]
    split
    · next hit =>
        have hit' : t = i := by simpa using hit
        rw [← hit', hop] at hiop
        cases hiop
    · exact Nat.zero_le _
  · by_cases hit : i = t
    · rw [hit]
      exact hpos
    · simp only [hbuses i hit]
      exact h.buses i
  · have hit : i ≠ t := by
      rintro rfl
      exact (hi hop).2 (List.mem_replicate.mpr ⟨hN.ne', rfl⟩)
    simp only [hbuses i hit]
    refine h.noBuses i fun hiop => ⟨fun hmem' => ?_, by simp [hnetwork]⟩
    exact (hmem i hmem').elim (hi hiop).1 hit

/-- A collective operation that finds transfers on the network waits with the free buses. -/
theorem BusInv.enqueueOp (h : BusInv m all 0 0 ph s) (hop : m.globalOp t)
    (hqueue : t ∉ s.2.queue) (hnetwork : t ∉ s.2.threadsOnNetwork) :
    BusInv m all 0 0 ph (s.1, { s.2 with
      numberBuses :=
        Function.update s.2.numberBuses t (m.numMessagesOnNetwork - s.2.currOnNetwork)
      currOnNetwork := m.numMessagesOnNetwork
      queue := s.2.queue ++ [t] }) := by
  have hcurr := h.curr
  have hle := h.le
  refine { h with
    curr := ?_, le := le_refl _, full := fun _ => by simp, queueNodup := ?_, queueDisjoint := ?_,
    granted := fun i hi hiop => ?_, buses := fun i => ?_, noBuses := fun i hi => ?_ }
  · simp only [gathered, List.map_append, List.map_cons, List.map_nil, List.sum_append,
      List.sum_singleton, Function.update_self, map_update_of_not_mem _ _ hqueue] at hcurr ⊢
    omega
  · exact List.nodup_append.mpr ⟨h.queueNodup, by simp, fun i hi j hj => by
      obtain rfl := List.mem_singleton.mp hj
      rintro rfl
      exact hqueue hi⟩
  · simp only [List.forall_mem_append, List.forall_mem_singleton]
    exact ⟨h.queueDisjoint, hnetwork⟩
  · have hit : i ≠ t := by
      rintro rfl
      rw [hop] at hiop
      cases hiop
    exact h.granted i (by simpa [hit] using hi) hiop
  · simp only [Function.update_apply]
    split
    · omega
    · exact h.buses i
  · by_cases hit : i = t
    · subst hit
      simp at hi
      exact absurd hop (by simp [hi])
    · simp only [Function.update_of_ne hit]
      refine h.noBuses i fun hiop => ?_
      have hi' := hi hiop
      simp only [List.mem_append, List.mem_singleton, not_or] at hi'
      exact ⟨hi'.1.1, hi'.2⟩

theorem BusInv.globalOpGetAllBuses (hN : 0 < m.numMessagesOnNetwork)
    (h : BusInv m all 0 0 ph s) (hop : m.globalOp t) (hqueue : t ∉ s.2.queue)
    (hnetwork : t ∉ s.2.threadsOnNetwork) :
    BusInv m all 0 0 ph (s.1, globalOpGetAllBuses m s.2 t) := by
  have hzero := h.noBuses t fun _ => ⟨hqueue, hnetwork⟩
  unfold Buses.globalOpGetAllBuses
  split
  · exact h.enqueueOp hop hqueue hnetwork
  · next hcond =>
      have hcurr0 : s.2.currOnNetwork = 0 := by
        simpa [hN.ne', hzero] using hcond
      have hcurr := h.curr
      have hgathered := gathered_nonneg h
      refine h.takeAll hN hop s.2.queue s.2.numberBuses (List.Sublist.refl _) hqueue
        (fun _ hi => .inl hi) (fun _ _ => rfl)
        (h.buses t) (List.length_eq_zero_iff.mp (by omega)) ?_
      change gathered s.2 = 0
      omega

/-- A waiting collective operation at the front of the queue gathers the free buses. -/
theorem BusInv.gather (h : BusInv m all 0 free ph s) (hop : m.globalOp t) {rest : List Nat}
    (hqueue : s.2.queue = t :: rest) (hcurr : s.2.currOnNetwork < m.numMessagesOnNetwork) :
    BusInv m all 0 0 ph (s.1, { s.2 with
      numberBuses := Function.update s.2.numberBuses t
        (s.2.numberBuses t + (m.numMessagesOnNetwork - s.2.currOnNetwork))
      currOnNetwork :=
        s.2.currOnNetwork + (m.numMessagesOnNetwork - s.2.currOnNetwork) }) := by
  have hnodup := h.queueNodup
  rw [hqueue, List.nodup_cons] at hnodup
  refine { h with
    curr := ?_, le := by simp only; omega, full := fun _ => by simp only; omega,
    buses := fun i => ?_, noBuses := fun i hi => ?_ }
  · have hcurr' := h.curr
    simp only [gathered, hqueue, List.map_cons, List.sum_cons, Function.update_self,
      map_update_of_not_mem _ _ hnodup.1] at hcurr' ⊢
    omega
  · have hpos := h.buses t
    simp only [Function.update_apply]
    split
    · omega
    · exact h.buses i
  · have hit : i ≠ t := by
      rintro rfl
      exact (hi hop).1 (by simp [hqueue])
    simp only [Function.update_of_ne hit]
    exact h.noBuses i hi

theorem BusInv.popSend (h : BusInv m all ended free ph s) (hop : !m.globalOp t) {rest : List Nat}
    (hqueue : s.2.queue = t :: rest) :
    BusInv m all ended free ph (s.1, { s.2 with queue := rest }) := by
  have hop' : m.globalOp t = false := by simpa using hop
  have hnodup := h.queueNodup
  rw [hqueue, List.nodup_cons] at hnodup
  have hsub : ∀ i ∈ rest, i ∈ s.2.queue := fun i hi => by simp [hqueue, hi]
  refine { h with
    curr := ?_, full := fun _ => h.full (by simp [hqueue]), queueNodup := hnodup.2,
    queueDisjoint := fun i hi => h.queueDisjoint i (hsub i hi),
    granted := fun i hi hiop => h.granted i (hi.imp_left (hsub i)) hiop,
    noBuses := fun i hi => h.noBuses i fun hiop => ⟨fun hmem => ?_, (hi hiop).2⟩ }
  · have hcurr := h.curr
    have hzero := h.noBuses t (by simp [hop'])
    simp only [gathered, hqueue, List.map_cons, List.sum_cons, hzero] at hcurr ⊢
    omega
  · rw [hqueue] at hmem
    rcases List.mem_cons.mp hmem with rfl | hmem
    · rw [hop'] at hiop
      cases hiop
    · exact (hi hiop).1 hmem

theorem BusInv.wakeBusWaiter (hN : 0 < m.numMessagesOnNetwork) (hfifo : m.policy = .fifo)
    (h : BusInv m all 0 free ph s) (hfree : 0 ≤ free)
    (hcurr : s.2.currOnNetwork < m.numMessagesOnNetwork)
    (hwake : wakeBusWaiter m s = some s') (hsteals : ∀ c ∈ s'.2.calls, ¬ c.Steals m.ends) :
    ∃ ph', BusInv m all 0 (free - 1) ph' s' ∧
      (s'.2.queue.length < s.2.queue.length ∨ s'.2.currOnNetwork = m.numMessagesOnNetwork) := by
  have hfull := h.full
  have hcurr' := h.curr
  have hnodup := h.queueNodup
  unfold Buses.wakeBusWaiter at hwake
  split at hwake
  · cases hwake
  · next first rest hqueue =>
      have hne : s.2.queue ≠ [] := by simp [hqueue]
      have hN' := hfull hne
      rw [hqueue, List.nodup_cons] at hnodup
      have hfirst : first ∉ s.2.threadsOnNetwork := h.queueDisjoint first (by simp [hqueue])
      split at hwake
      · next hop =>
          -- a collective operation
          have hgathered : gathered s.2 = s.2.numberBuses first + (rest.map s.2.numberBuses).sum := by
            simp [gathered, hqueue]
          have hrest : 0 ≤ (rest.map s.2.numberBuses).sum := List.sum_nonneg fun x hx => by
            obtain ⟨i, -, rfl⟩ := List.mem_map.mp hx
            exact h.buses i
          have hpos := h.buses first
          simp only [Function.update_self] at hwake
          split at hwake
          · next hall =>
              obtain rfl := Option.some.inj hwake
              refine ⟨ph, ?_, .inl (by simp [Buses.globalOpGetAllBuses, hN.ne', hall, hqueue])⟩
              have hdone := h.takeAll hN hop rest (Function.update s.2.numberBuses first
                (s.2.numberBuses first + (m.numMessagesOnNetwork - s.2.currOnNetwork)))
                (by rw [hqueue]; exact List.sublist_cons_self ..) hnodup.1
                (fun i hi => by rw [hqueue] at hi; exact (List.mem_cons.mp hi).symm)
                (fun i hi => Function.update_of_ne hi ..) (by rw [Function.update_self]; omega)
                (List.length_eq_zero_iff.mp (by omega)) (by omega)
              have hbuses : m.numMessagesOnNetwork ≠ 0 := hN.ne'
              simpa [Buses.globalOpGetAllBuses, hall, hbuses] using hdone.mono (by omega)
          · next hall =>
              obtain rfl := Option.some.inj hwake
              refine ⟨ph, ?_, .inr (by simp only; omega)⟩
              exact (h.gather hop hqueue hcurr).mono (by omega)
      · next hop =>
          have hop' : !m.globalOp first := by simpa using hop
          have hphase := h.granted first (.inl (by simp [hqueue])) hop'
          have hbegun : s.2.begun first = true := by
            by_contra hno
            have hidle := h.idle first (.inr (by simpa using hno))
            rw [hphase] at hidle
            cases hidle
          obtain ⟨ph', -, -, hbus⟩ := (h.popSend hop' hqueue).reallySend hN hfifo (le_refl _) hfree
            hop' hbegun hnodup.1 hfirst (.inr (.inr hphase)) hwake hsteals
          obtain ⟨h', hqueue'⟩ := hbus hphase hcurr
          exact ⟨ph', h', .inl (by simp [hqueue', hqueue])⟩

/-! ## Releasing the buses -/

theorem BusInv.leave (h : BusInv m all 0 0 ph s) (hop : !m.globalOp t)
    (hmem : t ∈ s.2.threadsOnNetwork) :
    BusInv m all 1 0 ph
      (s.1, { s.2 with threadsOnNetwork := s.2.threadsOnNetwork.erase t }) ∧
    t ∉ s.2.threadsOnNetwork.erase t := by
  have hop' : m.globalOp t = false := by simpa using hop
  have hsub : ∀ i ∈ s.2.threadsOnNetwork.erase t, i ∈ s.2.threadsOnNetwork :=
    fun i hi => List.mem_of_mem_erase hi
  have hnotOp : ∀ i ∈ s.2.threadsOnNetwork, ¬ m.globalOp i := fun i hi hiop => by
    have hall := h.alone i hi hiop
    rw [hall] at hmem
    rw [List.eq_of_mem_replicate hmem, hiop] at hop'
    cases hop'
  constructor
  · refine { h with
      curr := ?_, queueDisjoint := fun i hi hi' => h.queueDisjoint i hi (hsub i hi'),
      granted := fun i hi hiop => h.granted i (hi.imp_right (hsub i)) hiop,
      once := fun i hiop => (List.erase_sublist.count_le i).trans (h.once i hiop),
      alone := fun i hi hiop => absurd hiop (hnotOp i (hsub i hi)),
      noBuses := fun i hi => h.noBuses i fun hiop =>
        ⟨(hi hiop).1, fun hi' => hnotOp i hi' hiop⟩ }
    have hcurr := h.curr
    have hpos := List.length_pos_of_mem hmem
    simp only [gathered, List.length_erase_of_mem hmem] at hcurr ⊢
    omega
  · have hcount := h.once t hop
    rw [← List.count_eq_zero, List.count_erase_self]
    omega

theorem BusInv.freeBus (hN : 0 < m.numMessagesOnNetwork) (h : BusInv m all 1 0 ph s) :
    BusInv m all 0 1 ph (s.1, freeBus m s.2) := by
  have hcurr := h.curr
  have hle := h.le
  have hgathered := gathered_nonneg h
  have hpos : 0 < s.2.currOnNetwork := by omega
  rw [Buses.freeBus, if_pos hpos]
  refine {
    links := h.links
    curr := ?_
    le := ?_
    full := fun hq => ?_
    queueNodup := h.queueNodup
    queueDisjoint := h.queueDisjoint
    granted := h.granted
    once := h.once
    alone := h.alone
    buses := h.buses
    noBuses := h.noBuses
    idle := h.idle
    ratios := ratios_recompute hN h.ratios }
  · simp only [recomputeInternalNetworkBandwidth, gathered] at hcurr ⊢
    omega
  · simp only [recomputeInternalNetworkBandwidth]
    omega
  · have hfull := h.full hq
    simp only [recomputeInternalNetworkBandwidth]
    omega

theorem BusInv.freeAll (hN : 0 < m.numMessagesOnNetwork) (h : BusInv m all 0 0 ph s)
    (hop : m.globalOp t) (hmem : t ∈ s.2.threadsOnNetwork) :
    BusInv m all 0 m.numMessagesOnNetwork ph (s.1, { s.2 with
      numberBuses := Function.update s.2.numberBuses t 0
      currOnNetwork := 0
      threadsOnNetwork := s.2.threadsOnNetwork.drop m.numMessagesOnNetwork }) := by
  have hall := h.alone t hmem hop
  have hqueue : t ∉ s.2.queue := fun hq => h.queueDisjoint t hq hmem
  have hcurr := h.curr
  have hle := h.le
  have hgathered := gathered_nonneg h
  have hlength : s.2.threadsOnNetwork.length = m.numMessagesOnNetwork := by
    rw [hall, List.length_replicate]
  have hempty : s.2.threadsOnNetwork.drop m.numMessagesOnNetwork = [] :=
    List.drop_eq_nil_of_le hlength.le
  rw [hempty]
  refine { h with
    curr := ?_, le := by simp only; omega, full := fun _ => by simp,
    queueDisjoint := fun _ _ => List.not_mem_nil,
    granted := fun i hi hiop => h.granted i (.inl (by simpa using hi)) hiop,
    once := fun _ _ => by simp, alone := fun _ hi => absurd hi List.not_mem_nil,
    buses := fun i => ?_, noBuses := fun i hi => ?_ }
  · simp only [gathered, map_update_of_not_mem _ _ hqueue, List.length_nil] at hcurr hgathered ⊢
    omega
  · simp only [Function.update_apply]
    split
    · exact le_refl _
    · exact h.buses i
  · by_cases hit : i = t
    · simp only [hit, Function.update_self]
    · simp only [Function.update_of_ne hit]
      refine h.noBuses i fun hiop => ⟨(hi hiop).1, fun hi' => ?_⟩
      rw [hall] at hi'
      exact hit (List.eq_of_mem_replicate hi')

theorem BusInv.begin (h : BusInv m all ended free ph s) :
    BusInv m all ended free ph (s.1, { s.2 with begun := Function.update s.2.begun t true }) := by
  refine { h with idle := fun i hi => ?_ }
  by_cases hit : i = t
  · subst hit
    exact h.idle i (.inl (by simpa using hi))
  · exact h.idle i (by simpa [Function.update_of_ne hit] using hi)

theorem BusInv.not_mem_of_idle (h : BusInv m all ended free ph s) (hop : !m.globalOp t)
    (hphase : ph t = .idle) : t ∉ s.2.queue ∧ t ∉ s.2.threadsOnNetwork := by
  have hnowhere : ¬ (t ∈ s.2.queue ∨ t ∈ s.2.threadsOnNetwork) := fun hmem => by
    have hgranted := h.granted t hmem hop
    rw [hphase] at hgranted
    cases hgranted
  exact ⟨fun hmem => hnowhere (.inl hmem), fun hmem => hnowhere (.inr hmem)⟩

/-- The communication of a transfer that has left the network waits for no bus. -/
theorem BusInv.releaseLinks (h : BusInv m all 1 0 ph s) {outSide inSide : Bool} {links : LinkState}
    (hphase : ∃ outSide inSide, ph t = .granted outSide inSide)
    (hqueue : t ∉ s.2.queue) (hnetwork : t ∉ s.2.threadsOnNetwork)
    (hlinks : LinkInv m.ends all (Function.update ph t (.granted outSide inSide)) links) :
    BusInv m all 1 0 (Function.update ph t (.granted outSide inSide)) (links, s.2) := by
  refine h.othersKept hlinks (othersKept_update ph _) hqueue hnetwork fun hi => ?_
  obtain ⟨_, _, hphase⟩ := hphase
  rw [h.idle t hi] at hphase
  cases hphase

theorem BusInv.not_mem_of_phase (h : BusInv m all ended free ph s) {inSide : Bool}
    (hphase : ph t = .granted false inSide) : t ∉ s.2.queue ∧ t ∉ s.2.threadsOnNetwork := by
  have hop : (!m.globalOp t) = true := by
    by_contra hop
    have hidle := h.idle t (.inl (by simpa using hop))
    rw [hphase] at hidle
    cases hidle
  have hnowhere : ¬ (t ∈ s.2.queue ∨ t ∈ s.2.threadsOnNetwork) := fun hmem => by
    have hgranted := h.granted t hmem hop
    rw [hphase] at hgranted
    cases hgranted
  exact ⟨fun hmem => hnowhere (.inl hmem), fun hmem => hnowhere (.inr hmem)⟩

/-! ## The calls of a wake up -/

theorem calls_reallySend (hsend : reallySendInternalNetwork m s t = some s') :
    ∀ c ∈ s.2.calls, c ∈ s'.2.calls := by
  obtain ⟨⟨granted, links⟩, -, hrest⟩ := Option.bind_eq_some_iff.mp hsend
  intro c hc
  simp only at hrest
  split at hrest
  · split at hrest
    · obtain rfl := Option.some.inj hrest
      simp [recomputeInternalNetworkBandwidth, hc]
    · split at hrest <;> obtain rfl := Option.some.inj hrest
      · simp [hc]
      · simp [recomputeInternalNetworkBandwidth, hc]
  · obtain rfl := Option.some.inj hrest
    simp [hc]

theorem calls_globalOpGetAllBuses {b : BusState} : (globalOpGetAllBuses m b t).calls = b.calls := by
  simp only [Buses.globalOpGetAllBuses]
  split <;> rfl

theorem calls_wakeBusWaiter (hwake : wakeBusWaiter m s = some s') :
    ∀ c ∈ s.2.calls, c ∈ s'.2.calls := by
  intro c hc
  unfold Buses.wakeBusWaiter at hwake
  split at hwake
  · cases hwake
  · next first rest _ =>
      split at hwake
      · simp only at hwake
        split at hwake <;> obtain rfl := Option.some.inj hwake
        · rw [calls_globalOpGetAllBuses]
          exact hc
        · exact hc
      · exact calls_reallySend (s := (s.1, { s.2 with queue := rest })) hwake c hc

theorem calls_wakeBusWaiters {n : Nat} (hwake : wakeBusWaiters m n s = some s') :
    ∀ c ∈ s.2.calls, c ∈ s'.2.calls := by
  induction n generalizing s with
  | zero =>
      obtain rfl := Option.some.inj hwake
      exact fun _ => id
  | succ n ih =>
      simp only [wakeBusWaiters] at hwake
      split at hwake
      · obtain ⟨s₁, hfirst, hrest⟩ := Option.bind_eq_some_iff.mp hwake
        exact fun c hc => ih hrest c (calls_wakeBusWaiter hfirst c hc)
      · obtain rfl := Option.some.inj hwake
        exact fun _ => id

theorem BusInv.of_exhausted (h : BusInv m all 0 free ph s)
    (hcurr : s.2.queue = [] ∨ (m.numMessagesOnNetwork : Int) ≤ s.2.currOnNetwork) :
    BusInv m all 0 0 ph s := by
  refine { h with full := fun hne => ?_ }
  rcases hcurr with hnil | hle
  · exact absurd hnil hne
  · omega

theorem BusInv.wakeBusWaiters (hN : 0 < m.numMessagesOnNetwork) (hfifo : m.policy = .fifo)
    {n : Nat} (h : BusInv m all 0 free ph s) (hfree : 0 ≤ free) (hlength : s.2.queue.length ≤ n)
    (hwake : wakeBusWaiters m n s = some s') (hsteals : ∀ c ∈ s'.2.calls, ¬ c.Steals m.ends) :
    ∃ ph', BusInv m all 0 0 ph' s' := by
  induction n generalizing s ph with
  | zero =>
      obtain rfl := Option.some.inj hwake
      exact ⟨ph, h.of_exhausted (.inl (List.length_eq_zero_iff.mp (by omega)))⟩
  | succ n ih =>
      simp only [Buses.wakeBusWaiters] at hwake
      split at hwake
      · next hcurr =>
          obtain ⟨s₁, hfirst, hrest⟩ := Option.bind_eq_some_iff.mp hwake
          obtain ⟨ph₁, h₁, hprogress⟩ := h.wakeBusWaiter hN hfifo hfree hcurr hfirst
            fun c hc => hsteals c (calls_wakeBusWaiters hrest c hc)
          rcases hprogress with hshorter | hall
          · exact ih (h₁.mono (by omega)) (by omega) hrest
          · have hdone : s' = s₁ := by
              cases n with
              | zero => exact (Option.some.inj hrest).symm
              | succ n =>
                  rw [Buses.wakeBusWaiters, if_neg (by omega)] at hrest
                  exact (Option.some.inj hrest).symm
            exact ⟨ph₁, hdone ▸ h₁.of_exhausted (.inr (by omega))⟩
      · next hcurr =>
          obtain rfl := Option.some.inj hwake
          exact ⟨ph, h.of_exhausted (.inr (by omega))⟩

end Dimemas.Model.BusAccounting
