import Dimemas.Library.CarriedMaximum
import Dimemas.Model.ContentionStages
import Dimemas.Model.MessageSizes
import Mathlib.Data.List.Perm.Basic
import Mathlib.Data.Finset.Max
import Mathlib.Tactic.Linarith
import Mathlib.Tactic.Ring
/-!
# The order of the machines of a collective operation

`calcula_temps_operacio_global` goes through the representatives of the machines in their order. A
machine of one node takes over the times between nodes of the machine in front of it, and the
external network has the startup of the node of the last one.
-/

namespace Dimemas.Model.CollectiveOrder

open Dimemas.Library.CarriedMaximum
open Dimemas.Model.CollectiveCost
open Dimemas.Model.MessageSizes

/-- The sum of the times between and within nodes. -/
def suma (pair : Fans × Fans) : ℚ := pair.1.suma + pair.2.suma

def Fans.times (f : Fans) : ℚ × ℚ :=
  (f.fin.temps + f.fout.temps, f.fin.latencia + f.fout.latencia)

/-- The total time and the latency of a pair of times between and within nodes. -/
def pairTimes (pair : Fans × Fans) : ℚ × ℚ := Fans.times pair.1 + Fans.times pair.2

variable (P : Platform) (nodeOf : Nat → Nat) (counters : Counters) (op : GlobalOpDesc)

/-- The own times of the machine of a thread. A machine of one node has none between nodes. -/
def machineItem (others : Nat) : Option (Item Fans Fans) := do
  let node := P.node (nodeOf others)
  let machine := P.machine node.machine
  let glopInfo ← machine.globalOpsInfo op.glopId
  let nodes := (counters.nodesPerMachine node.machine).length
  let tauxn ← calculaTempsMaximIntraNodes P counters op node.machine glopInfo
  pure ⟨if 1 < machine.numberOfNodes ∧ 0 < nodes then
      some (calculaFans machine.remoteBandwidth nodes machine.numMessagesOnNetwork glopInfo op
        node.remoteStartup)
    else none, tauxn⟩

/-- The times of an operation, from those of the machines and those of the external network. -/
def compose (times : ℚ × ℚ) (externs : Fans × ℚ × ℚ) : Temps where
  latencia := times.2 + (Fans.times externs.1).2
  recursos := times.1 + (Fans.times externs.1).1
  total := times.1 + (Fans.times externs.1).1 + (externs.2.1 + externs.2.2)

def toAcc (temps : MachinesTemps) : Acc Fans Fans ℚ where
  value := temps.taux
  largest := temps.sumaMaxim
  best := (temps.int, temps.node)

def firstAcc : Acc Fans Fans ℚ := ⟨Fans.none, 0, (Fans.none, Fans.none)⟩

/-- The pair of a machine with the largest own times. -/
def LargestOwn (commMachineThreads : List Nat) (pair : Fans × Fans) : Prop :=
  ∃ t ∈ commMachineThreads, ∃ item, machineItem P nodeOf counters op t = some item ∧
    pair = item.own Fans.none ∧ ∀ t' ∈ commMachineThreads, ∀ item',
      machineItem P nodeOf counters op t' = some item' →
        suma (item'.own Fans.none) ≤ suma pair

variable (size thread : Nat) (bandwExterna : ℚ)

/-- The times do not depend on the order of the machines, and are those of a machine with the
largest own times. -/
structure OrderIndependent (commMachineThreads : List Nat) : Prop where
  same : ∀ order, order.Perm commMachineThreads →
    calculaTempsOperacioGlobal P nodeOf counters op size thread order bandwExterna =
      calculaTempsOperacioGlobal P nodeOf counters op size thread commMachineThreads bandwExterna
  largest : ∀ order, order.Perm commMachineThreads →
    ∃ pair externs, LargestOwn P nodeOf counters op commMachineThreads pair ∧
      tempsExterns P nodeOf op size thread order bandwExterna = some externs ∧
      calculaTempsOperacioGlobal P nodeOf counters op size thread order bandwExterna =
        some (compose (pairTimes pair) externs)

/-- All pairs of times that the loop can keep and that are at least as long as those of every
machine have the same time and latency. -/
def LongestAgree (commMachineThreads : List Nat) : Prop :=
  let items := commMachineThreads.filterMap (machineItem P nodeOf counters op)
  ∀ pair pair', Candidate suma Fans.none items pair → Largest suma Fans.none items pair →
    Candidate suma Fans.none items pair' → Largest suma Fans.none items pair' →
    pairTimes pair = pairTimes pair'

/-- The startup of the external network is the same for all machines, or does not count. -/
def StartupsAgree (commMachineThreads : List Nat) : Prop :=
  commMachineThreads.length ≤ 1 ∨
    (∃ glopInfo, P.wan.globalOpsInfo op.glopId = some glopInfo ∧ glopInfo.finModel = .zero ∧
      glopInfo.foutModel = .zero) ∨
    ∀ t ∈ commMachineThreads, ∀ t' ∈ commMachineThreads,
      (P.node (nodeOf t)).externalNetStartup = (P.node (nodeOf t')).externalNetStartup

/-- No configured bandwidth or startup is negative. -/
structure Configured : Prop where
  bandwidth : ∀ n, 0 ≤ (P.node n).bandwidth
  localStartup : ∀ n, 0 ≤ (P.node n).localStartup
  remoteStartup : ∀ n, 0 ≤ (P.node n).remoteStartup
  remoteBandwidth : ∀ m, 0 ≤ (P.machine m).remoteBandwidth

section

variable {P nodeOf counters op}
variable {others : Nat} {item : Item Fans Fans} {L : List Nat}

/-- A thread of the loop is a step with the own times of its machine. -/
theorem tempsMachine_eq (acc : MachinesTemps)
    (h : machineItem P nodeOf counters op others = some item) :
    ∃ acc', tempsMachine P nodeOf counters op acc others = some acc' ∧
      toAcc acc' = step suma (toAcc acc) item := by
  simp only [machineItem, Option.pure_def, Option.bind_eq_bind, Option.bind_eq_some_iff,
    Option.some.injEq] at h
  obtain ⟨glopInfo, hglop, tauxn, htauxn, hitem⟩ := h
  subst hitem
  simp only [tempsMachine, hglop, htauxn, Option.pure_def, Option.bind_eq_bind,
    Option.bind_some, Option.some.injEq, exists_eq_left']
  by_cases hnodes : 1 < (P.machine (P.node (nodeOf others)).machine).numberOfNodes ∧
      0 < (counters.nodesPerMachine (P.node (nodeOf others)).machine).length
  · simp only [if_pos hnodes, step, toAcc, suma, Option.getD_some, gt_iff_lt]
    split <;> rfl
  · simp only [if_neg hnodes, step, toAcc, suma, Option.getD_none, gt_iff_lt]
    split <;> rfl

theorem foldlM_tempsMachine (acc : MachinesTemps)
    (h : ∀ t ∈ L, (machineItem P nodeOf counters op t).isSome) :
    ∃ acc', L.foldlM (tempsMachine P nodeOf counters op) acc = some acc' ∧
      toAcc acc' = run suma (toAcc acc) (L.filterMap (machineItem P nodeOf counters op)) := by
  induction L generalizing acc with
  | nil => exact ⟨acc, rfl, rfl⟩
  | cons t L ih =>
      obtain ⟨item, hitem⟩ := Option.isSome_iff_exists.mp (h t List.mem_cons_self)
      obtain ⟨acc₁, hmachine, hacc₁⟩ := tempsMachine_eq acc hitem
      obtain ⟨acc₂, hfold, hacc₂⟩ := ih acc₁ fun t' ht' => h t' (List.mem_cons_of_mem t ht')
      refine ⟨acc₂, ?_, ?_⟩
      · rw [List.foldlM_cons, hmachine]
        exact hfold
      · rw [hacc₂, hacc₁, List.filterMap_cons_some hitem, run_cons]

/-- The pair that the loop over the machines ends with. -/
def longest (P : Platform) (nodeOf : Nat → Nat) (counters : Counters) (op : GlobalOpDesc)
    (commMachineThreads : List Nat) : Fans × Fans :=
  (run suma firstAcc (commMachineThreads.filterMap (machineItem P nodeOf counters op))).best

variable {size thread : Nat} {bandwExterna : ℚ} {externs : Fans × ℚ × ℚ}

theorem calculaTempsOperacioGlobal_eq
    (h : ∀ t ∈ L, (machineItem P nodeOf counters op t).isSome)
    (hexterns : tempsExterns P nodeOf op size thread L bandwExterna = some externs) :
    calculaTempsOperacioGlobal P nodeOf counters op size thread L bandwExterna =
      some (compose (pairTimes (longest P nodeOf counters op L)) externs) := by
  obtain ⟨acc, hfold, hacc⟩ := foldlM_tempsMachine ⟨Fans.none, 0, Fans.none, Fans.none⟩ h
  have hbest : longest P nodeOf counters op L = (acc.int, acc.node) :=
    (congrArg Acc.best hacc).symm
  simp only [calculaTempsOperacioGlobal, hfold, hexterns, hbest, Option.pure_def,
    Option.bind_eq_bind, Option.bind_some, compose, pairTimes, Fans.times, Prod.mk_add_mk,
    Option.some.injEq, Temps.mk.injEq]
  refine ⟨?_, ?_, ?_⟩ <;> ring

/-- An order of what the items of a list give is given by an order of the list. -/
theorem exists_perm_filterMap {β γ : Type*} {f : β → Option γ} {ys : List γ} {xs : List β}
    (h : ys.Perm (xs.filterMap f)) : ∃ zs : List β, zs.Perm xs ∧ zs.filterMap f = ys := by
  induction ys generalizing xs with
  | nil => exact ⟨xs, List.Perm.refl xs, h.symm.eq_nil⟩
  | cons y ys ih =>
      obtain ⟨x, hx, hy⟩ := List.mem_filterMap.mp (h.subset List.mem_cons_self)
      obtain ⟨rest, hperm⟩ := exists_perm_cons hx
      have hmap : (y :: ys).Perm (y :: rest.filterMap f) := by
        rw [← List.filterMap_cons_some hy]
        exact h.trans (hperm.symm.filterMap f)
      obtain ⟨zs, hzs, heq⟩ := ih hmap.cons_inv
      refine ⟨x :: zs, (hzs.cons x).trans hperm, ?_⟩
      rw [List.filterMap_cons_some hy, heq]

theorem suma_eq (pair : Fans × Fans) : suma pair = (pairTimes pair).1 + (pairTimes pair).2 := by
  simp only [suma, Fans.suma, pairTimes, Fans.times, Prod.mk_add_mk]
  ring

theorem suma_eq_of_times {pair pair' : Fans × Fans} (h : pairTimes pair = pairTimes pair') :
    suma pair = suma pair' := by
  rw [suma_eq, suma_eq, h]

end

structure Fans.Nonneg (f : Fans) : Prop where
  finTemps : 0 ≤ f.fin.temps
  finLatencia : 0 ≤ f.fin.latencia
  foutTemps : 0 ≤ f.fout.temps
  foutLatencia : 0 ≤ f.fout.latencia

theorem Fans.none_nonneg : Fans.Nonneg Fans.none :=
  ⟨le_refl 0, le_refl 0, le_refl 0, le_refl 0⟩

theorem Fans.Nonneg.suma_nonneg {f : Fans} (h : Fans.Nonneg f) : 0 ≤ f.suma := by
  have h₁ := add_nonneg (add_nonneg h.finTemps h.finLatencia) h.foutTemps
  exact add_nonneg h₁ h.foutLatencia

theorem Fans.Nonneg.times_eq_zero {f : Fans} (h : Fans.Nonneg f) (hsuma : f.suma ≤ 0) :
    Fans.times f = 0 := by
  have hsum : f.fin.temps + f.fin.latencia + f.fout.temps + f.fout.latencia ≤ 0 := hsuma
  have h₁ := h.finTemps
  have h₂ := h.finLatencia
  have h₃ := h.foutTemps
  have h₄ := h.foutLatencia
  apply Prod.ext
  · show f.fin.temps + f.fout.temps = 0
    linarith
  · show f.fin.latencia + f.fout.latencia = 0
    linarith

theorem calculaFan_latencia_nonneg {bandw startup : ℚ} {numPartners numBusos : Nat}
    {tipusDeFan : FanType} {model : GopModel} {sizeType : GopSize} {bytesSend bytesRecvd : Nat}
    (hpartners : 1 ≤ numPartners) (hstartup : 0 ≤ startup) :
    0 ≤ (calculaFan bandw numPartners numBusos tipusDeFan model sizeType bytesSend bytesRecvd
      startup).latencia := by
  have hfactor : (0 : ℚ) ≤ numPartners - 1 := sub_nonneg.mpr (Nat.one_le_cast.mpr hpartners)
  cases model with
  | zero => exact le_refl 0
  | cte => exact hstartup
  | lin =>
      show 0 ≤ startup * ((numPartners : ℚ) - 1)
      positivity
  | log =>
      show 0 ≤ startup * (computeContentionStage numPartners numBusos : ℚ)
      positivity

theorem calculaFans_nonneg {bandw startup : ℚ} {numPartners numBusos : Nat}
    {glopInfo : GlobalOpInformation} {op : GlobalOpDesc} (hbandw : 0 ≤ bandw)
    (hpartners : 1 ≤ numPartners) (hstartup : 0 ≤ startup) :
    Fans.Nonneg (calculaFans bandw numPartners numBusos glopInfo op startup) where
  finTemps := calculaFan_nonneg hbandw hpartners hstartup
  finLatencia := calculaFan_latencia_nonneg hpartners hstartup
  foutTemps := calculaFan_nonneg hbandw hpartners hstartup
  foutLatencia := calculaFan_latencia_nonneg hpartners hstartup

section

variable {P : Platform} {nodeOf : Nat → Nat} {counters : Counters} {op : GlobalOpDesc}
variable {item : Item Fans Fans}

theorem tempsNode_nonneg {glopInfo : GlobalOpInformation} {acc acc' : ℚ × Fans} {nodeid : Nat}
    (hP : Configured P) (htasks : ∀ x ∈ counters.tasksPerNode, 1 ≤ x.2)
    (h : tempsNode P counters op glopInfo acc nodeid = some acc') (hacc : Fans.Nonneg acc.2) :
    Fans.Nonneg acc'.2 := by
  simp only [tempsNode, Option.pure_def, Option.bind_eq_bind, Option.bind_eq_some_iff,
    Option.some.injEq] at h
  obtain ⟨entry, hentry, hacc'⟩ := h
  subst hacc'
  split
  · exact calculaFans_nonneg (hP.bandwidth nodeid) (htasks entry (List.mem_of_find?_eq_some hentry))
      (hP.localStartup nodeid)
  · exact hacc

theorem foldlM_tempsNode_nonneg {glopInfo : GlobalOpInformation} {nodes : List Nat}
    {acc acc' : ℚ × Fans} (hP : Configured P) (htasks : ∀ x ∈ counters.tasksPerNode, 1 ≤ x.2)
    (h : nodes.foldlM (tempsNode P counters op glopInfo) acc = some acc')
    (hacc : Fans.Nonneg acc.2) : Fans.Nonneg acc'.2 := by
  induction nodes generalizing acc with
  | nil =>
      cases h
      exact hacc
  | cons nodeid nodes ih =>
      rw [List.foldlM_cons] at h
      obtain ⟨acc₁, hnode, hrest⟩ := Option.bind_eq_some_iff.mp h
      exact ih hrest (tempsNode_nonneg hP htasks hnode hacc)

theorem machineItem_nonneg {others : Nat} (hP : Configured P)
    (htasks : ∀ x ∈ counters.tasksPerNode, 1 ≤ x.2)
    (h : machineItem P nodeOf counters op others = some item) :
    (∀ value, item.value = some value → Fans.Nonneg value) ∧ Fans.Nonneg item.base := by
  simp only [machineItem, Option.pure_def, Option.bind_eq_bind, Option.bind_eq_some_iff,
    Option.some.injEq] at h
  obtain ⟨glopInfo, _, tauxn, htauxn, hitem⟩ := h
  subst hitem
  constructor
  · intro value hvalue
    simp only [Option.ite_none_right_eq_some, Option.some.injEq] at hvalue
    obtain ⟨hnodes, rfl⟩ := hvalue
    exact calculaFans_nonneg (hP.remoteBandwidth _) hnodes.2 (hP.remoteStartup _)
  · obtain ⟨acc, hfold, hbase⟩ := Option.map_eq_some_iff.mp htauxn
    rw [← hbase]
    exact foldlM_tempsNode_nonneg hP htasks hfold Fans.none_nonneg

end

/-- How often `calcula_fan` counts the startup. -/
def fanFactor (numPartners numBusos : Nat) : GopModel → ℚ
  | .zero => 0
  | .cte => 1
  | .lin => numPartners - 1
  | .log => computeContentionStage numPartners numBusos

theorem calculaFan_eq (bandw : ℚ) (numPartners numBusos : Nat) (tipusDeFan : FanType)
    (model : GopModel) (sizeType : GopSize) (bytesSend bytesRecvd : Nat) (startup : ℚ) :
    calculaFan bandw numPartners numBusos tipusDeFan model sizeType bytesSend bytesRecvd startup =
      ⟨(startup + messSize sizeType tipusDeFan bytesSend bytesRecvd * bwNsPerByte bandw) *
        fanFactor numPartners numBusos model, startup * fanFactor numPartners numBusos model⟩ := by
  cases model with
  | zero => simp [calculaFan, fanFactor]
  | cte => simp [calculaFan, fanFactor]
  | lin => rfl
  | log => rfl

theorem fanFactor_nonneg {numPartners numBusos : Nat} (h : 1 ≤ numPartners) (model : GopModel) :
    0 ≤ fanFactor numPartners numBusos model := by
  have hfactor : (0 : ℚ) ≤ numPartners - 1 := sub_nonneg.mpr (Nat.one_le_cast.mpr h)
  cases model with
  | zero => exact le_refl 0
  | cte => exact zero_le_one
  | lin => exact hfactor
  | log => exact Nat.cast_nonneg _

/-- Without buses every model but the empty one counts the startup. -/
theorem fanFactor_pos {numPartners : Nat} {model : GopModel} (h : 1 < numPartners)
    (hmodel : model ≠ .zero) : 0 < fanFactor numPartners 0 model := by
  cases model with
  | zero => exact absurd rfl hmodel
  | cte => exact zero_lt_one
  | lin => exact sub_pos.mpr (Nat.one_lt_cast.mpr h)
  | log =>
      show (0 : ℚ) < (computeContentionStage numPartners 0 : Nat)
      rw [computeContentionStage, if_pos rfl, ContentionStages.provideLog_eq_clog (by omega)]
      exact Nat.cast_pos.mpr (Nat.clog_pos (by omega) h)

/-- Two startups with equal sums are equal, unless no fan counts them. -/
theorem startup_eq {bandw startup startup' : ℚ} {numPartners : Nat}
    {glopInfo : GlobalOpInformation} {op : GlobalOpDesc} (hpartners : 1 < numPartners)
    (hmodel : ¬ (glopInfo.finModel = .zero ∧ glopInfo.foutModel = .zero))
    (h : (calculaFans bandw numPartners 0 glopInfo op startup).suma =
      (calculaFans bandw numPartners 0 glopInfo op startup').suma) : startup = startup' := by
  simp only [Fans.suma, calculaFans, calculaFan_eq] at h
  have hin : 0 ≤ fanFactor numPartners 0 glopInfo.finModel := fanFactor_nonneg hpartners.le _
  have hout : 0 ≤ fanFactor numPartners 0 glopInfo.foutModel := fanFactor_nonneg hpartners.le _
  have hpos : 0 < fanFactor numPartners 0 glopInfo.finModel +
      fanFactor numPartners 0 glopInfo.foutModel := by
    by_cases hfin : glopInfo.finModel = .zero
    · have hpos := fanFactor_pos hpartners fun hfout => hmodel ⟨hfin, hfout⟩
      exact add_pos_of_nonneg_of_pos hin hpos
    · have hpos := fanFactor_pos hpartners hfin
      exact add_pos_of_pos_of_nonneg hpos hout
  have hprod : startup * (fanFactor numPartners 0 glopInfo.finModel +
        fanFactor numPartners 0 glopInfo.foutModel) =
      startup' * (fanFactor numPartners 0 glopInfo.finModel +
        fanFactor numPartners 0 glopInfo.foutModel) := by
    linarith
  exact mul_right_cancel₀ hpos.ne' hprod

section

variable {P : Platform} {nodeOf : Nat → Nat} {op : GlobalOpDesc} {size thread : Nat}
variable {bandwExterna : ℚ} {order L : List Nat} {glopInfo : GlobalOpInformation}

theorem calculaMaximFlightTimes_perm (hperm : order.Perm L) :
    calculaMaximFlightTimes P nodeOf thread order =
      calculaMaximFlightTimes P nodeOf thread L := by
  unfold calculaMaximFlightTimes
  apply hperm.foldl_eq'
  intro t _ t' _ ⟨maxIn, maxOut⟩
  have hmax : ∀ m a b : ℚ, (if b > (if a > m then a else m) then b else if a > m then a else m) =
      (if a > (if b > m then b else m) then a else if b > m then b else m) := by
    intro m a b
    have hite : ∀ x y : ℚ, (if y > x then y else x) = max x y := by
      intro x y
      split
      · rename_i hlt
        exact (max_eq_right hlt.le).symm
      · rename_i hlt
        exact (max_eq_left (not_lt.mp hlt)).symm
    rw [hite m a, hite m b, hite, hite, max_right_comm]
  by_cases ht : t = thread
  · by_cases ht' : t' = thread
    · simp only [if_pos ht, if_pos ht']
    · simp only [if_pos ht, if_neg ht']
  · by_cases ht' : t' = thread
    · simp only [if_neg ht, if_pos ht']
    · simp only [if_neg ht, if_neg ht', hmax maxIn, hmax maxOut]

/-- The times of the external network for the startup of the last node. -/
theorem tempsExterns_eq {last : Nat} (hlast : L.getLast? = some last) (hlength : 1 < L.length)
    (hglop : P.wan.globalOpsInfo op.glopId = some glopInfo) :
    tempsExterns P nodeOf op size thread L bandwExterna =
      some (calculaFans (if P.wan.bandwidth ≠ 0 then bandwExterna else 0) size 0 glopInfo op
        (P.node (nodeOf last)).externalNetStartup, calculaMaximFlightTimes P nodeOf thread L) := by
  simp only [tempsExterns, gt_iff_lt, if_pos hlength, hlast, hglop, Option.bind_eq_bind,
    Option.bind_some, Option.pure_def]

theorem tempsExterns_le_one (hlength : L.length ≤ 1) :
    tempsExterns P nodeOf op size thread L bandwExterna = some (Fans.none, 0, 0) := by
  simp only [tempsExterns, gt_iff_lt, if_neg (not_lt.mpr hlength), Option.pure_def]

theorem getLast?_of_lt (hlength : 1 < L.length) : ∃ last ∈ L, L.getLast? = some last := by
  have hne : L ≠ [] := List.ne_nil_of_length_pos (by omega)
  exact ⟨L.getLast hne, List.getLast_mem hne, List.getLast?_eq_some_getLast hne⟩

/-- Startups that agree leave the external network independent of the order. -/
theorem tempsExterns_perm (hagree : StartupsAgree P nodeOf op L) (hperm : order.Perm L)
    (hdef : 1 < L.length → (P.wan.globalOpsInfo op.glopId).isSome) :
    tempsExterns P nodeOf op size thread order bandwExterna =
      tempsExterns P nodeOf op size thread L bandwExterna := by
  by_cases hlength : 1 < L.length
  · obtain ⟨glopInfo, hglop⟩ := Option.isSome_iff_exists.mp (hdef hlength)
    have horder : 1 < order.length := by rwa [hperm.length_eq]
    obtain ⟨last, hmem, hlast⟩ := getLast?_of_lt hlength
    obtain ⟨last', hmem', hlast'⟩ := getLast?_of_lt horder
    rw [tempsExterns_eq hlast hlength hglop, tempsExterns_eq hlast' horder hglop,
      calculaMaximFlightTimes_perm hperm]
    rcases hagree with hone | ⟨glopInfo', hglop', hfin, hfout⟩ | hall
    · exact absurd hlength (not_lt.mpr hone)
    · rw [hglop, Option.some.injEq] at hglop'
      simp only [calculaFans, calculaFan, hglop', hfin, hfout]
    · rw [hall last' (hperm.subset hmem') last hmem]
  · have horder : order.length ≤ 1 := by
      rw [hperm.length_eq]
      omega
    rw [tempsExterns_le_one horder, tempsExterns_le_one (not_lt.mp hlength)]

/-- Some order ends with a given thread. -/
theorem exists_perm_last {t : Nat} (h : t ∈ L) :
    ∃ order : List Nat, order.Perm L ∧ order.getLast? = some t := by
  obtain ⟨rest, hperm⟩ := exists_perm_cons h
  exact ⟨rest ++ [t], (List.perm_append_singleton t rest).trans hperm, by simp⟩

/-- Sums of the external network that do not depend on the order come from startups that agree. -/
theorem startupsAgree_of_suma {c : ℚ} (hsize : L.length ≤ size)
    (hdef : 1 < L.length → (P.wan.globalOpsInfo op.glopId).isSome)
    (h : ∀ order externs, order.Perm L →
      tempsExterns P nodeOf op size thread order bandwExterna = some externs →
      externs.1.suma = c) : StartupsAgree P nodeOf op L := by
  by_cases hlength : 1 < L.length
  · right
    obtain ⟨glopInfo, hglop⟩ := Option.isSome_iff_exists.mp (hdef hlength)
    by_cases hmodel : glopInfo.finModel = .zero ∧ glopInfo.foutModel = .zero
    · exact .inl ⟨glopInfo, hglop, hmodel⟩
    · right
      intro t ht t' ht'
      obtain ⟨order, hperm, hlast⟩ := exists_perm_last ht
      obtain ⟨order', hperm', hlast'⟩ := exists_perm_last ht'
      have hsuma := h order _ hperm
        (tempsExterns_eq hlast (by rwa [hperm.length_eq]) hglop)
      have hsuma' := h order' _ hperm'
        (tempsExterns_eq hlast' (by rwa [hperm'.length_eq]) hglop)
      exact startup_eq (by omega) hmodel (hsuma.trans hsuma'.symm)
  · exact .inl (not_lt.mp hlength)

end

section

variable {P : Platform} {nodeOf : Nat → Nat} {counters : Counters} {op : GlobalOpDesc}
variable {size thread : Nat} {bandwExterna : ℚ} {order L : List Nat} {pair : Fans × Fans}

/-- What the code and its input files give to a call. -/
structure CallOk (P : Platform) (nodeOf : Nat → Nat) (counters : Counters) (op : GlobalOpDesc)
    (size : Nat) (commMachineThreads : List Nat) : Prop where
  configured : Configured P
  /-- A node of a communicator has a task. -/
  tasks : ∀ x ∈ counters.tasksPerNode, 1 ≤ x.2
  some_thread : commMachineThreads ≠ []
  /-- Each machine has a task. -/
  size : commMachineThreads.length ≤ size
  /-- There is no `panic`. -/
  defined : ∀ t ∈ commMachineThreads, (machineItem P nodeOf counters op t).isSome
  wan : 1 < commMachineThreads.length → (P.wan.globalOpsInfo op.glopId).isSome

theorem CallOk.perm (h : CallOk P nodeOf counters op size L) (hperm : order.Perm L) :
    CallOk P nodeOf counters op size order where
  configured := h.configured
  tasks := h.tasks
  some_thread := fun hnil => h.some_thread (hnil ▸ hperm.symm).eq_nil
  size := hperm.length_eq ▸ h.size
  defined t ht := h.defined t (hperm.subset ht)
  wan hlength := h.wan (hperm.length_eq ▸ hlength)

theorem CallOk.item_nonneg (h : CallOk P nodeOf counters op size L) {item : Item Fans Fans}
    (hitem : item ∈ L.filterMap (machineItem P nodeOf counters op)) :
    (∀ value, item.value = some value → Fans.Nonneg value) ∧ Fans.Nonneg item.base := by
  obtain ⟨t, _, ht⟩ := List.mem_filterMap.mp hitem
  exact machineItem_nonneg h.configured h.tasks ht

theorem CallOk.own_nonneg (h : CallOk P nodeOf counters op size L) {item : Item Fans Fans}
    (hitem : item ∈ L.filterMap (machineItem P nodeOf counters op)) :
    Fans.Nonneg (item.own Fans.none).1 ∧ Fans.Nonneg (item.own Fans.none).2 := by
  have hnonneg := h.item_nonneg hitem
  refine ⟨?_, hnonneg.2⟩
  cases hvalue : item.value with
  | none =>
      rw [Item.own, hvalue]
      exact Fans.none_nonneg
  | some value =>
      rw [Item.own, hvalue]
      exact hnonneg.1 value hvalue

/-- The pairs that the loop can keep have no negative times. -/
theorem CallOk.candidate_nonneg (h : CallOk P nodeOf counters op size L)
    (hpair : Candidate suma Fans.none (L.filterMap (machineItem P nodeOf counters op)) pair) :
    Fans.Nonneg pair.1 ∧ Fans.Nonneg pair.2 := by
  rcases hpair with ⟨item, hitem, rfl⟩ | ⟨before, hbefore, item, hitem, value, hvalue, _, rfl, _⟩
  · exact h.own_nonneg hitem
  · exact ⟨(h.item_nonneg hbefore).1 value hvalue, (h.item_nonneg hitem).2⟩

theorem pairTimes_eq_zero (h : Fans.Nonneg pair.1 ∧ Fans.Nonneg pair.2) (hsuma : suma pair ≤ 0) :
    pairTimes pair = 0 := by
  have h₁ := h.1.suma_nonneg
  have h₂ := h.2.suma_nonneg
  have hsum : pair.1.suma + pair.2.suma ≤ 0 := hsuma
  rw [pairTimes, h.1.times_eq_zero (by linarith), h.2.times_eq_zero (by linarith), add_zero]

theorem suma_none : suma (Fans.none, Fans.none) = 0 := by
  simp [suma, Fans.suma, Fans.none]

theorem CallOk.seen (h : CallOk P nodeOf counters op size L) :
    Seen suma Fans.none 0 (L.filterMap (machineItem P nodeOf counters op))
      (run suma firstAcc (L.filterMap (machineItem P nodeOf counters op))) := by
  apply seen_run firstAcc _ rfl rfl
  intro item hitem value hvalue base
  have hnone : Fans.none.suma = 0 := by simp [Fans.suma, Fans.none]
  have hpos := ((h.item_nonneg hitem).1 value hvalue).suma_nonneg
  show Fans.none.suma + base.suma ≤ value.suma + base.suma
  linarith

/-- The sum that the loop ends with is the one of the pair that it keeps. -/
theorem CallOk.suma_longest (h : CallOk P nodeOf counters op size L) :
    (run suma firstAcc (L.filterMap (machineItem P nodeOf counters op))).largest =
      suma (longest P nodeOf counters op L) := by
  rcases h.seen.best with hzero | ⟨hlargest, _⟩
  · have hsame := (run_mono firstAcc (L.filterMap (machineItem P nodeOf counters op))).2 hzero
    rw [longest, hsame, hzero]
    exact suma_none.symm
  · exact hlargest

/-- No machine has longer times than those that the loop keeps. -/
theorem CallOk.largest_longest (h : CallOk P nodeOf counters op size L) :
    Largest suma Fans.none (L.filterMap (machineItem P nodeOf counters op))
      (longest P nodeOf counters op L) := by
  intro item hitem
  rw [← h.suma_longest]
  exact h.seen.own item hitem

theorem LargestOwn.candidate (h : LargestOwn P nodeOf counters op L pair) :
    Candidate suma Fans.none (L.filterMap (machineItem P nodeOf counters op)) pair := by
  obtain ⟨t, ht, item, hitem, hpair, _⟩ := h
  left
  exact ⟨item, List.mem_filterMap.mpr ⟨t, ht, hitem⟩, hpair⟩

theorem LargestOwn.largest (h : LargestOwn P nodeOf counters op L pair) :
    Largest suma Fans.none (L.filterMap (machineItem P nodeOf counters op)) pair := by
  obtain ⟨_, _, _, _, _, hmax⟩ := h
  intro item hitem
  obtain ⟨t, ht, htitem⟩ := List.mem_filterMap.mp hitem
  exact hmax t ht item htitem

theorem CallOk.exists_largestOwn (h : CallOk P nodeOf counters op size L) :
    ∃ pair, LargestOwn P nodeOf counters op L pair := by
  have hne : (L.filterMap (machineItem P nodeOf counters op) : Multiset (Item Fans Fans)) ≠ 0 := by
    obtain ⟨t, ht⟩ := List.exists_mem_of_ne_nil L h.some_thread
    obtain ⟨item, hitem⟩ := Option.isSome_iff_exists.mp (h.defined t ht)
    intro hnil
    exact List.ne_nil_of_mem (List.mem_filterMap.mpr ⟨t, ht, hitem⟩)
      (Multiset.coe_eq_zero _ |>.mp hnil)
  obtain ⟨item, hitem, hmax⟩ :=
    Multiset.exists_max_image (fun item : Item Fans Fans => suma (item.own Fans.none)) hne
  obtain ⟨t, ht, htitem⟩ := List.mem_filterMap.mp (Multiset.mem_coe.mp hitem)
  refine ⟨item.own Fans.none, t, ht, item, htitem, rfl, ?_⟩
  intro t' ht' item' hitem'
  exact hmax item' (Multiset.mem_coe.mpr (List.mem_filterMap.mpr ⟨t', ht', hitem'⟩))

theorem CallOk.exists_externs (h : CallOk P nodeOf counters op size L) (thread : Nat)
    (bandwExterna : ℚ) :
    ∃ externs, tempsExterns P nodeOf op size thread L bandwExterna = some externs := by
  by_cases hlength : 1 < L.length
  · obtain ⟨glopInfo, hglop⟩ := Option.isSome_iff_exists.mp (h.wan hlength)
    obtain ⟨last, _, hlast⟩ := getLast?_of_lt hlength
    exact ⟨_, tempsExterns_eq hlast hlength hglop⟩
  · exact ⟨_, tempsExterns_le_one (not_lt.mp hlength)⟩

theorem CallOk.times_longest (h : CallOk P nodeOf counters op size L)
    (hagree : LongestAgree P nodeOf counters op L) (hperm : order.Perm L)
    (hown : LargestOwn P nodeOf counters op L pair) :
    pairTimes (longest P nodeOf counters op order) = pairTimes pair := by
  have horder := h.perm hperm
  have hitems := hperm.filterMap (machineItem P nodeOf counters op)
  have hmax := horder.largest_longest.perm hitems
  rcases horder.seen.best with hzero | ⟨_, hcandidate⟩
  · have hnone : longest P nodeOf counters op order = (Fans.none, Fans.none) :=
      (run_mono firstAcc (order.filterMap (machineItem P nodeOf counters op))).2 hzero
    have hle : suma pair ≤ 0 := by
      obtain ⟨t, ht, item, hitem, hpair, _⟩ := hown
      rw [← suma_none, ← hnone, hpair]
      exact hmax item (List.mem_filterMap.mpr ⟨t, ht, hitem⟩)
    rw [hnone, pairTimes_eq_zero (h.candidate_nonneg hown.candidate) hle,
      pairTimes_eq_zero ⟨Fans.none_nonneg, Fans.none_nonneg⟩ suma_none.le]
  · exact hagree _ _ (hcandidate.perm hitems) hmax hown.candidate hown.largest

theorem CallOk.orderIndependent (h : CallOk P nodeOf counters op size L)
    (hlongest : LongestAgree P nodeOf counters op L) (hstartups : StartupsAgree P nodeOf op L) :
    OrderIndependent P nodeOf counters op size thread bandwExterna L := by
  obtain ⟨pair, hown⟩ := h.exists_largestOwn
  obtain ⟨externs, hexterns⟩ := h.exists_externs thread bandwExterna
  have hresult : ∀ order : List Nat, order.Perm L →
      tempsExterns P nodeOf op size thread order bandwExterna = some externs ∧
      calculaTempsOperacioGlobal P nodeOf counters op size thread order bandwExterna =
        some (compose (pairTimes pair) externs) := by
    intro order hperm
    have horder : tempsExterns P nodeOf op size thread order bandwExterna = some externs := by
      rw [tempsExterns_perm hstartups hperm h.wan, hexterns]
    refine ⟨horder, ?_⟩
    rw [calculaTempsOperacioGlobal_eq (h.perm hperm).defined horder,
      h.times_longest hlongest hperm hown]
  constructor
  · intro order hperm
    rw [(hresult order hperm).2, (hresult L (List.Perm.refl L)).2]
  · intro order hperm
    exact ⟨pair, externs, hown, hresult order hperm⟩

theorem LargestOwn.suma_eq {pair' : Fans × Fans} (h : LargestOwn P nodeOf counters op L pair)
    (h' : LargestOwn P nodeOf counters op L pair') : suma pair = suma pair' := by
  have hle := h.largest
  have hle' := h'.largest
  obtain ⟨t, ht, item, hitem, hpair, _⟩ := h
  obtain ⟨t', ht', item', hitem', hpair', _⟩ := h'
  apply le_antisymm
  · rw [hpair]
    exact hle' item (List.mem_filterMap.mpr ⟨t, ht, hitem⟩)
  · rw [hpair']
    exact hle item' (List.mem_filterMap.mpr ⟨t', ht', hitem'⟩)

/-- The pair that the loop keeps has the times of a machine with the longest own ones. -/
theorem OrderIndependent.times_longest
    (hindep : OrderIndependent P nodeOf counters op size thread bandwExterna L)
    (h : CallOk P nodeOf counters op size L) (hperm : order.Perm L) :
    ∃ pair, LargestOwn P nodeOf counters op L pair ∧
      pairTimes (longest P nodeOf counters op order) = pairTimes pair := by
  obtain ⟨pair, externs, hown, hexterns, hresult⟩ := hindep.largest order hperm
  refine ⟨pair, hown, ?_⟩
  rw [calculaTempsOperacioGlobal_eq (h.perm hperm).defined hexterns, Option.some.injEq] at hresult
  have hrecursos := congrArg Temps.recursos hresult
  have hlatencia := congrArg Temps.latencia hresult
  exact Prod.ext (add_right_cancel hrecursos) (add_right_cancel hlatencia)

theorem OrderIndependent.startupsAgree
    (hindep : OrderIndependent P nodeOf counters op size thread bandwExterna L)
    (h : CallOk P nodeOf counters op size L) : StartupsAgree P nodeOf op L := by
  obtain ⟨pair, hown⟩ := h.exists_largestOwn
  obtain ⟨externs, hexterns⟩ := h.exists_externs thread bandwExterna
  have hsums : ∀ (order : List Nat) externs', order.Perm L →
      tempsExterns P nodeOf op size thread order bandwExterna = some externs' →
      externs'.1.suma = externs.1.suma := by
    intro order externs' hperm hexterns'
    obtain ⟨pair₁, hown₁, htimes₁⟩ := hindep.times_longest h hperm
    obtain ⟨pair₂, hown₂, htimes₂⟩ := hindep.times_longest h (List.Perm.refl L)
    have hsame := hindep.same order hperm
    rw [calculaTempsOperacioGlobal_eq (h.perm hperm).defined hexterns',
      calculaTempsOperacioGlobal_eq h.defined hexterns, htimes₁, htimes₂,
      Option.some.injEq] at hsame
    have hsuma := hown₁.suma_eq hown₂
    have hrecursos := congrArg Temps.recursos hsame
    have hlatencia := congrArg Temps.latencia hsame
    rw [CollectiveOrder.suma_eq, CollectiveOrder.suma_eq] at hsuma
    simp only [compose, Fans.times] at hrecursos hlatencia
    simp only [Fans.suma]
    linarith
  exact startupsAgree_of_suma h.size h.wan hsums

/-- Each pair that the loop can keep is kept in some order, if its times are as long as those of
every machine. -/
theorem OrderIndependent.exists_longest
    (hindep : OrderIndependent P nodeOf counters op size thread bandwExterna L)
    (h : CallOk P nodeOf counters op size L)
    (hcandidate : Candidate suma Fans.none (L.filterMap (machineItem P nodeOf counters op)) pair)
    (hlargest : Largest suma Fans.none (L.filterMap (machineItem P nodeOf counters op)) pair)
    (hpos : 0 < suma pair) : ∃ order : List Nat, order.Perm L ∧
      longest P nodeOf counters op order = pair := by
  obtain ⟨items', hitems, hbest⟩ := exists_perm_best firstAcc rfl hcandidate hpos
  obtain ⟨order, hperm, horder⟩ := exists_perm_filterMap hitems
  refine ⟨order, hperm, ?_⟩
  rw [← horder] at hbest
  rcases hbest with hbest | hlt
  · exact hbest
  · rw [(h.perm hperm).suma_longest] at hlt
    obtain ⟨own, ⟨t, ht, item, hitem, hown, _⟩, htimes⟩ := hindep.times_longest h hperm
    have hle := hlargest item (List.mem_filterMap.mpr ⟨t, ht, hitem⟩)
    rw [suma_eq_of_times htimes, hown] at hlt
    exact absurd hlt hle.not_gt

/-- With startups that agree the kept times do not depend on the order. -/
theorem OrderIndependent.same_longest
    (hindep : OrderIndependent P nodeOf counters op size thread bandwExterna L)
    (h : CallOk P nodeOf counters op size L) (hperm : order.Perm L) :
    pairTimes (longest P nodeOf counters op order) = pairTimes (longest P nodeOf counters op L) := by
  obtain ⟨externs, hexterns⟩ := h.exists_externs thread bandwExterna
  have horder : tempsExterns P nodeOf op size thread order bandwExterna = some externs := by
    rw [tempsExterns_perm (hindep.startupsAgree h) hperm h.wan, hexterns]
  have hsame := hindep.same order hperm
  rw [calculaTempsOperacioGlobal_eq (h.perm hperm).defined horder,
    calculaTempsOperacioGlobal_eq h.defined hexterns, Option.some.injEq] at hsame
  have hrecursos := congrArg Temps.recursos hsame
  have hlatencia := congrArg Temps.latencia hsame
  exact Prod.ext (add_right_cancel hrecursos) (add_right_cancel hlatencia)

theorem OrderIndependent.times_candidate
    (hindep : OrderIndependent P nodeOf counters op size thread bandwExterna L)
    (h : CallOk P nodeOf counters op size L)
    (hcandidate : Candidate suma Fans.none (L.filterMap (machineItem P nodeOf counters op)) pair)
    (hlargest : Largest suma Fans.none (L.filterMap (machineItem P nodeOf counters op)) pair) :
    pairTimes pair = pairTimes (longest P nodeOf counters op L) := by
  by_cases hpos : 0 < suma pair
  · obtain ⟨order, hperm, hlongest⟩ := hindep.exists_longest h hcandidate hlargest hpos
    rw [← hlongest]
    exact hindep.same_longest h hperm
  · have hzero := not_lt.mp hpos
    obtain ⟨own, hown, htimes⟩ := hindep.times_longest h (List.Perm.refl L)
    have hle : suma own ≤ 0 := by
      obtain ⟨t, ht, item, hitem, hpair, _⟩ := hown
      rw [hpair]
      exact (hlargest item (List.mem_filterMap.mpr ⟨t, ht, hitem⟩)).trans hzero
    rw [htimes, pairTimes_eq_zero (h.candidate_nonneg hcandidate) hzero,
      pairTimes_eq_zero (h.candidate_nonneg hown.candidate) hle]

/-- The times do not depend on the order of the machines exactly if those that can be kept agree. -/
theorem orderIndependent_iff (thread : Nat) (bandwExterna : ℚ)
    (h : CallOk P nodeOf counters op size L) :
    OrderIndependent P nodeOf counters op size thread bandwExterna L ↔
      LongestAgree P nodeOf counters op L ∧ StartupsAgree P nodeOf op L := by
  constructor
  · intro hindep
    constructor
    · intro pair pair' hcandidate hlargest hcandidate' hlargest'
      rw [hindep.times_candidate h hcandidate hlargest,
        hindep.times_candidate h hcandidate' hlargest']
    · exact hindep.startupsAgree h
  · intro hagree
    exact h.orderIndependent hagree.1 hagree.2

end

/-- Where every machine has times between nodes, and the same ones, all orders agree. -/
theorem longestAgree_of_same {P : Platform} {nodeOf : Nat → Nat} {counters : Counters}
    {op : GlobalOpDesc} {L : List Nat}
    (hvalue : ∀ item ∈ L.filterMap (machineItem P nodeOf counters op), item.value.isSome)
    (hsame : ∀ item ∈ L.filterMap (machineItem P nodeOf counters op),
      ∀ item' ∈ L.filterMap (machineItem P nodeOf counters op),
        pairTimes (item.own Fans.none) = pairTimes (item'.own Fans.none)) :
    LongestAgree P nodeOf counters op L := by
  have hown : ∀ pair, Candidate suma Fans.none
      (L.filterMap (machineItem P nodeOf counters op)) pair →
      ∃ item ∈ L.filterMap (machineItem P nodeOf counters op), pair = item.own Fans.none := by
    intro pair hpair
    rcases hpair with hown | ⟨_, _, item, hitem, _, _, hnone, _⟩
    · exact hown
    · have hsome := hvalue item hitem
      rw [hnone] at hsome
      cases hsome
  intro pair pair' hpair _ hpair' _
  obtain ⟨item, hitem, rfl⟩ := hown pair hpair
  obtain ⟨item', hitem', rfl⟩ := hown pair' hpair'
  exact hsame item hitem item' hitem'

/-- A linear model for both fans, on machines whose startups are all 1. -/
def linInfo : GlobalOpInformation := ⟨.lin, .max, .lin, .max⟩

def linPlatform (machineOf numberOfNodes : Nat → Nat) : Platform where
  node n := ⟨machineOf n, 0, 1, 1, 1⟩
  machine m := ⟨numberOfNodes m, 0, 0, fun _ => some linInfo⟩
  wan := ⟨0, fun _ => some linInfo, fun _ _ => 0⟩

theorem linPlatform_configured (machineOf numberOfNodes : Nat → Nat) :
    Configured (linPlatform machineOf numberOfNodes) where
  bandwidth _ := le_refl 0
  localStartup _ := zero_le_one
  remoteStartup _ := zero_le_one
  remoteBandwidth _ := le_refl 0

def pairCounters : Counters where
  nodesPerMachine m := [2 * m, 2 * m + 1]
  tasksPerNode := [(0, 2), (1, 2), (2, 2), (3, 2)]

theorem pairCounters_callOk : CallOk (linPlatform (· / 2) fun _ => 2) id pairCounters ⟨0, 8, 8⟩ 8
    [0, 2] where
  configured := linPlatform_configured _ _
  tasks := by decide
  some_thread := by decide
  size := by decide
  defined := by decide +kernel
  wan := fun _ => rfl

theorem orderIndependent_pair :
    OrderIndependent (linPlatform (· / 2) fun _ => 2) id pairCounters ⟨0, 8, 8⟩ 8 0 0 [0, 2] := by
  apply (orderIndependent_iff 0 0 pairCounters_callOk).mpr
  constructor
  · apply longestAgree_of_same
    · decide +kernel
    · decide +kernel
  · exact .inr (.inr fun _ _ _ _ => rfl)

/-- The second machine has one node with three tasks. -/
def singleCounters : Counters where
  nodesPerMachine m := if m = 0 then [0, 1] else [2]
  tasksPerNode := [(0, 1), (1, 1), (2, 3)]

theorem not_orderIndependent : ¬ ∀ P nodeOf counters op size thread bandwExterna L,
    CallOk P nodeOf counters op size L →
      OrderIndependent P nodeOf counters op size thread bandwExterna L := by
  intro h
  have hok : CallOk (linPlatform (· / 2) (2 - ·)) id singleCounters ⟨0, 8, 8⟩ 5 [0, 2] :=
    { configured := linPlatform_configured _ _
      tasks := by decide
      some_thread := by decide
      size := by decide
      defined := by decide +kernel
      wan := fun _ => rfl }
  have hsame := (h _ _ _ _ _ 0 0 _ hok).same [2, 0] (List.Perm.swap 0 2 [])
  revert hsame
  decide +kernel

end Dimemas.Model.CollectiveOrder
