import Dimemas.Model.CollectiveCost
import Mathlib.Algebra.Order.Field.Basic
import Mathlib.Algebra.Order.Field.Rat
import Mathlib.Tactic.FieldSimp
import Mathlib.Tactic.Positivity
import Mathlib.Tactic.Linarith
import Mathlib.Tactic.NormNum
import Mathlib.Tactic.Ring
/-!
# Transfer times and resource times

`transferencia` takes the time of a transfer from the bandwidth of the moment, and the time that it
uses its resources from the nominal one. Times and bandwidths are rational numbers here.
-/

namespace Dimemas.Model.Transfers

open Dimemas.Model.CollectiveCost

inductive Distribution
  | none
  | normal (mean stdev : ℚ)
  | uniform (left right : ℚ)

/-- The values that `RANDOM_GenerateRandom` can return. As a `float`, `INT_MAX` is 2 ^ 31. -/
def CanReturn (random : ℚ) : Distribution → Prop
  | .none => random = 0
  | .normal _ _ => -2 ^ 31 ≤ random ∧ random ≤ 2 ^ 31
  | .uniform left right => ∃ rnum, 0 ≤ rnum ∧ rnum ≤ 1 ∧ random = left + (right - left) * rnum

/-- A medium with a limited number of messages at a time. -/
structure SharedMedium where
  bandwidth : ℚ
  maxMessages : Nat
  curMessages : Nat

/-- `EXP` and `LOG` are left out. -/
inductive TrafficFunction
  | lineal
  | const
deriving DecidableEq, Repr

structure Wan where
  bandwidth : ℚ
  trafficFunction : TrafficFunction
  maxTrafficValue : ℚ
  traffic : ℚ
  flightTime : ℚ

structure DedicatedConnection where
  bandwidth : ℚ
  flightTime : ℚ

/-- The communication types, with what `transferencia` reads for each. -/
inductive Communication
  | memory (node : SharedMedium)
  | internalNetwork (machine : SharedMedium)
  | externalNetwork (wan : Wan)
  | dedicatedConnection (connection : DedicatedConnection)
  | accelerator (acc : SharedMedium)

def occupancyRatio (maxMessages curMessages : Nat) : ℚ :=
  if curMessages ≤ maxMessages then 1 else maxMessages / curMessages

/-- The bandwidth of a medium in ns per byte. It is a panic if nothing is left of it. -/
def recomputeBandwidth (medium : SharedMedium) (random : ℚ) : Option ℚ :=
  let bandw := bwNsPerByte (medium.bandwidth + random)
  let ratio := occupancyRatio medium.maxMessages medium.curMessages
  if ratio ≠ 0 then some (bandw / ratio) else none

def recomputeMemoryBandwidth (node : SharedMedium) (random : ℚ) : Option ℚ :=
  recomputeBandwidth node random

def recomputeInternalNetworkBandwidth (machine : SharedMedium) (random : ℚ) : Option ℚ :=
  recomputeBandwidth machine random

def recomputeAcceleratorBandwidth (acc : SharedMedium) (random : ℚ) : Option ℚ :=
  recomputeBandwidth acc random

def externalNetworkBandwidthRatio (wan : Wan) : ℚ :=
  match wan.trafficFunction with
  | .lineal =>
      if wan.maxTrafficValue ≠ 0 ∧ wan.traffic ≠ 0 then
        if wan.traffic < wan.maxTrafficValue then
          (wan.maxTrafficValue - wan.traffic) / wan.maxTrafficValue
        else 0
      else 1
  | .const => 1

def recomputeExternalNetworkBandwidth (wan : Wan) (random : ℚ) : Option ℚ :=
  let ratio := externalNetworkBandwidthRatio wan
  if ratio ≠ 0 then some ((wan.bandwidth + random) * ratio) else none

/-- The time of a transfer and the time that its resources are in use. -/
structure Transfer where
  temps : ℚ
  tRecursos : ℚ
deriving DecidableEq

def transferenciaShared (size : Nat) (medium : SharedMedium) (recomputed : Option ℚ) :
    Option Transfer :=
  if medium.bandwidth = 0 then some ⟨0, 0⟩
  else recomputed.map fun bandw => ⟨bandw * size, bwNsPerByte medium.bandwidth * size⟩

def transferencia (size : Nat) (random : ℚ) : Communication → Option Transfer
  | .memory node => transferenciaShared size node (recomputeMemoryBandwidth node random)
  | .internalNetwork machine =>
      transferenciaShared size machine (recomputeInternalNetworkBandwidth machine random)
  | .externalNetwork wan =>
      if wan.bandwidth = 0 then some ⟨0, 0⟩
      else (recomputeExternalNetworkBandwidth wan random).map fun bandw =>
        ⟨bwNsPerByte bandw * size + wan.flightTime, bwNsPerByte wan.bandwidth * size⟩
  | .dedicatedConnection connection =>
      if connection.bandwidth = 0 then some ⟨0, 0⟩
      else
        let bandw := bwNsPerByte connection.bandwidth
        some ⟨bandw * size + connection.flightTime, bandw * size⟩
  | .accelerator acc => transferenciaShared size acc (recomputeAcceleratorBandwidth acc random)

/-- The resources are not in use for longer than the transfer. -/
def InOrder (t : Transfer) : Prop := 0 ≤ t.tRecursos ∧ t.tRecursos ≤ t.temps

def Communication.bandwidth : Communication → ℚ
  | .memory node => node.bandwidth
  | .internalNetwork machine => machine.bandwidth
  | .externalNetwork wan => wan.bandwidth
  | .dedicatedConnection connection => connection.bandwidth
  | .accelerator acc => acc.bandwidth

/-- Without a limit no messages are counted. -/
def SharedMedium.Admitted (medium : SharedMedium) : Prop :=
  medium.maxMessages = 0 → medium.curMessages = 0

def Communication.Admitted : Communication → Prop
  | .memory node => node.Admitted
  | .internalNetwork machine => machine.Admitted
  | .externalNetwork _ => True
  | .dedicatedConnection _ => True
  | .accelerator acc => acc.Admitted

/-- The bandwidth with its randomness is positive, and the share of it that a message gets is not
larger than the nominal one. -/
def SharedMedium.Slower (medium : SharedMedium) (random : ℚ) : Prop :=
  0 < medium.bandwidth + random ∧
    (medium.bandwidth + random) * occupancyRatio medium.maxMessages medium.curMessages ≤
      medium.bandwidth

/-- What the randomness and the traffic make of the bandwidth does not save more than the flight
time. -/
def Wan.Slower (wan : Wan) (size : Nat) (random : ℚ) : Prop :=
  let bandw := (wan.bandwidth + random) * externalNetworkBandwidthRatio wan
  let nsPerByte := bwNsPerByte 1
  externalNetworkBandwidthRatio wan ≠ 0 ∧
    (0 < bandw ∧ nsPerByte * size * (bandw - wan.bandwidth) ≤
        wan.flightTime * (bandw * wan.bandwidth) ∨
      bandw = 0 ∧ nsPerByte * size ≤ wan.flightTime * wan.bandwidth ∨
      bandw < 0 ∧ nsPerByte * size * (wan.bandwidth - bandw) ≤
        wan.flightTime * (-bandw * wan.bandwidth))

/-- When a transfer does not end before its resources are free. -/
def Communication.Slower (size : Nat) (random : ℚ) : Communication → Prop
  | .memory node => size = 0 ∨ node.Slower random
  | .internalNetwork machine => size = 0 ∨ machine.Slower random
  | .externalNetwork wan => wan.Slower size random
  | .dedicatedConnection connection => 0 ≤ connection.flightTime
  | .accelerator acc => size = 0 ∨ acc.Slower random

def nsPerByte : ℚ := 1000000000 / 2 ^ 20

theorem nsPerByte_pos : 0 < nsPerByte := by
  unfold nsPerByte
  positivity

theorem bwNsPerByte_eq (bandw : ℚ) : bwNsPerByte bandw = nsPerByte / bandw := by
  unfold bwNsPerByte
  split
  · rfl
  · rename_i hzero
    rw [not_not.mp hzero, div_zero]

theorem occupancyRatio_pos {medium : SharedMedium} (h : medium.Admitted) :
    0 < occupancyRatio medium.maxMessages medium.curMessages := by
  unfold occupancyRatio
  split
  · exact zero_lt_one
  · rename_i hlt
    have hcur : 0 < medium.curMessages := by omega
    have hmax : 0 < medium.maxMessages := by
      apply Nat.pos_of_ne_zero
      intro hzero
      have := h hzero
      omega
    positivity

theorem div_le_div_iff_slower {k b x : ℚ} (hk : 0 < k) (hb : 0 < b) :
    k / b ≤ k / x ↔ 0 < x ∧ x ≤ b := by
  have hpos : 0 < k / b := div_pos hk hb
  constructor
  · intro h
    have hx : 0 < x := by
      by_contra hle
      have hneg : k / x ≤ 0 := div_nonpos_of_nonneg_of_nonpos hk.le (not_lt.mp hle)
      linarith
    exact ⟨hx, (div_le_div_iff_of_pos_left hk hb hx).mp h⟩
  · rintro ⟨hx, hle⟩
    exact (div_le_div_iff_of_pos_left hk hb hx).mpr hle

theorem transferenciaShared_inOrder_iff {medium : SharedMedium} (hpos : 0 < medium.bandwidth)
    (hadmitted : medium.Admitted) (size : Nat) (random : ℚ) :
    (∃ t, transferenciaShared size medium (recomputeBandwidth medium random) = some t ∧
      InOrder t) ↔ size = 0 ∨ medium.Slower random := by
  have hratio := occupancyRatio_pos hadmitted
  have hshared : transferenciaShared size medium (recomputeBandwidth medium random) =
      some ⟨bwNsPerByte (medium.bandwidth + random) /
        occupancyRatio medium.maxMessages medium.curMessages * size,
        bwNsPerByte medium.bandwidth * size⟩ := by
    rw [transferenciaShared, if_neg hpos.ne', recomputeBandwidth, if_pos hratio.ne']
    rfl
  rw [hshared]
  simp only [Option.some.injEq, exists_eq_left', InOrder, bwNsPerByte_eq, div_div]
  have hnonneg : 0 ≤ nsPerByte / medium.bandwidth * size :=
    mul_nonneg (div_pos nsPerByte_pos hpos).le (Nat.cast_nonneg size)
  rw [and_iff_right hnonneg]
  rcases Nat.eq_zero_or_pos size with rfl | hsize
  · simp
  · have hcast : (0 : ℚ) < size := Nat.cast_pos.mpr hsize
    rw [mul_le_mul_iff_of_pos_right hcast, div_le_div_iff_slower nsPerByte_pos hpos,
      mul_pos_iff_of_pos_right hratio, or_iff_right hsize.ne']
    rfl

theorem nonneg_iff_of_mul_eq {d m e : ℚ} (hm : 0 < m) (h : d * m = e) : 0 ≤ d ↔ 0 ≤ e := by
  rw [← h]
  exact (mul_nonneg_iff_of_pos_right hm).symm

/-- What a transfer saves with another bandwidth against an additional time. -/
theorem saves_iff {k b x size time : ℚ} (hb : 0 < b) :
    k / b * size ≤ k / x * size + time ↔
      (0 < x ∧ k * size * (x - b) ≤ time * (x * b) ∨
        x = 0 ∧ k * size ≤ time * b ∨
        x < 0 ∧ k * size * (b - x) ≤ time * (-x * b)) := by
  rw [← sub_nonneg]
  rcases lt_trichotomy x 0 with hx | hx | hx
  · have hne := hx.ne
    have hpos : 0 < -x * b := mul_pos (neg_pos.mpr hx) hb
    have hmul : (k / x * size + time - k / b * size) * (-x * b) =
        time * (-x * b) - k * size * (b - x) := by
      field_simp
      ring
    rw [nonneg_iff_of_mul_eq hpos hmul, sub_nonneg]
    simp [hx, hx.ne, hx.le.not_gt]
  · subst hx
    have hmul : (k / 0 * size + time - k / b * size) * b = time * b - k * size := by
      rw [div_zero]
      field_simp
      ring
    rw [nonneg_iff_of_mul_eq hb hmul, sub_nonneg]
    simp
  · have hne := hx.ne'
    have hpos : 0 < x * b := mul_pos hx hb
    have hmul : (k / x * size + time - k / b * size) * (x * b) =
        time * (x * b) - k * size * (x - b) := by
      field_simp
      ring
    rw [nonneg_iff_of_mul_eq hpos hmul, sub_nonneg]
    simp [hx, hx.ne', hx.le.not_gt]

theorem transferenciaWan_inOrder_iff {wan : Wan} (hpos : 0 < wan.bandwidth) (size : Nat)
    (random : ℚ) :
    (∃ t, transferencia size random (.externalNetwork wan) = some t ∧ InOrder t) ↔
      wan.Slower size random := by
  unfold Wan.Slower
  by_cases hratio : externalNetworkBandwidthRatio wan = 0
  · have hnone : transferencia size random (.externalNetwork wan) = none := by
      rw [transferencia, if_neg hpos.ne', recomputeExternalNetworkBandwidth,
        if_neg (not_not.mpr hratio)]
      rfl
    rw [hnone]
    simp [hratio]
  · have hsome : transferencia size random (.externalNetwork wan) =
        some ⟨bwNsPerByte ((wan.bandwidth + random) * externalNetworkBandwidthRatio wan) * size +
          wan.flightTime, bwNsPerByte wan.bandwidth * size⟩ := by
      rw [transferencia, if_neg hpos.ne', recomputeExternalNetworkBandwidth, if_pos hratio]
      rfl
    rw [hsome]
    simp only [Option.some.injEq, exists_eq_left', InOrder, bwNsPerByte_eq, div_one]
    generalize (wan.bandwidth + random) * externalNetworkBandwidthRatio wan = bandw
    have hnonneg : 0 ≤ nsPerByte / wan.bandwidth * size :=
      mul_nonneg (div_pos nsPerByte_pos hpos).le (Nat.cast_nonneg size)
    rw [and_iff_right hnonneg, and_iff_right hratio]
    exact saves_iff hpos

theorem transferencia_inOrder_iff (size : Nat) (random : ℚ) (c : Communication)
    (hpos : 0 < c.bandwidth) (hadmitted : c.Admitted) :
    (∃ t, transferencia size random c = some t ∧ InOrder t) ↔ c.Slower size random := by
  cases c with
  | memory node => exact transferenciaShared_inOrder_iff hpos hadmitted size random
  | internalNetwork machine => exact transferenciaShared_inOrder_iff hpos hadmitted size random
  | externalNetwork wan => exact transferenciaWan_inOrder_iff hpos size random
  | dedicatedConnection connection =>
      have hne : connection.bandwidth ≠ 0 := hpos.ne'
      have hnonneg : 0 ≤ bwNsPerByte connection.bandwidth * size := by
        rw [bwNsPerByte_eq]
        exact mul_nonneg (div_pos nsPerByte_pos hpos).le (Nat.cast_nonneg size)
      simp only [transferencia, if_neg hne, Option.some.injEq, exists_eq_left', InOrder,
        and_iff_right hnonneg]
      exact le_add_iff_nonneg_right _
  | accelerator acc => exact transferenciaShared_inOrder_iff hpos hadmitted size random

def twoBuses : SharedMedium := ⟨100, 2, 1⟩

/-- Without randomness the times of a local message are the same. -/
theorem transferencia_inOrder_twoBuses :
    ∃ t, transferencia 8 0 (.memory twoBuses) = some t ∧ InOrder t := by
  apply (transferencia_inOrder_iff 8 0 (.memory twoBuses) _ _).mpr
  · right
    constructor <;> decide +kernel
  · decide +kernel
  · intro h
    cases h

/-- A bandwidth that the randomness makes larger than the nominal one: the resources are in use for
longer than the transfer. -/
theorem not_transferencia_inOrder :
    ¬ ∀ (size : Nat) (random : ℚ) (distribution : Distribution) (c : Communication),
      CanReturn random distribution → 0 < c.bandwidth → c.Admitted →
        ∃ t, transferencia size random c = some t ∧ InOrder t := by
  intro h
  have hadmitted : (Communication.memory twoBuses).Admitted := by
    intro hzero
    cases hzero
  have hpos : 0 < (Communication.memory twoBuses).bandwidth := by decide +kernel
  have hreturn : CanReturn 100 (.uniform 0 100) := ⟨1, zero_le_one, le_refl 1, by norm_num⟩
  have hslower := (transferencia_inOrder_iff 8 100 _ hpos hadmitted).mp
    (h 8 100 (.uniform 0 100) (.memory twoBuses) hreturn hpos hadmitted)
  revert hslower
  simp only [Communication.Slower, SharedMedium.Slower]
  decide +kernel

end Dimemas.Model.Transfers
