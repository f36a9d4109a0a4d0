import Dimemas.Model.CollectiveCost
import Mathlib.Algebra.Order.Field.Rat
import Mathlib.Tactic.Positivity
/-!
# The sizes of a collective operation

The sizes of a global operation have 64 bits in its record, and 32 bits in `GLOBAL_operation` and in
`calcula_fan`. The cost is that of the record as long as all numbers fit in an `int`.
-/

namespace Dimemas.Model.MessageSizes

open Dimemas.Model.CollectiveCost

/-- The `int` with the low bits of a number. -/
def toInt (i : Int) : Int := i.bmod 4294967296

/-- `mess_size` in `calcula_fan`, with the arithmetic of `int`. -/
def messSizeInt (sizeType : GopSize) (tipusDeFan : FanType) (bytesSend bytesRecvd : Int) : Int :=
  match sizeType with
  | .curr =>
      match tipusDeFan with
      | .fanIn => bytesSend
      | .fanOut => bytesRecvd
  | .min => Min.min bytesSend bytesRecvd
  | .max => Max.max bytesSend bytesRecvd
  | .mean => (toInt (bytesSend + bytesRecvd)).tdiv 2
  | .twoMax => toInt (2 * Max.max bytesSend bytesRecvd)
  | .sir => toInt (bytesSend + bytesRecvd)

/-- A call of `calcula_fan` with the sizes of an action. -/
def calculaFanInt (bandw : ℚ) (numPartners numBusos : Nat) (tipusDeFan : FanType)
    (model : GopModel) (sizeType : GopSize) (bytesSend bytesRecvd : Int) (startup : ℚ) : Fan :=
  let bandw := bwNsPerByte bandw
  let messSize := messSizeInt sizeType tipusDeFan (toInt bytesSend) (toInt bytesRecvd)
  match model with
  | .zero => ⟨0, 0⟩
  | .cte => ⟨startup + messSize * bandw, startup⟩
  | .lin =>
      let factor : ℚ := numPartners - 1
      ⟨(startup + messSize * bandw) * factor, startup * factor⟩
  | .log =>
      let factor : ℚ := computeContentionStage numPartners numBusos
      ⟨(startup + messSize * bandw) * factor, startup * factor⟩

def globalOperationAsserts (bytesSend bytesRecv : Int) : Prop :=
  0 ≤ toInt bytesSend ∧ 0 ≤ toInt bytesRecv

/-- All numbers of a size model are below `2 ^ 31`. -/
def Fits (sizeType : GopSize) (bytesSend bytesRecvd : Nat) : Prop :=
  bytesSend < 2147483648 ∧ bytesRecvd < 2147483648 ∧
    match sizeType with
    | .curr => True
    | .min => True
    | .max => True
    | .mean => bytesSend + bytesRecvd < 2147483648
    | .twoMax => 2 * Nat.max bytesSend bytesRecvd < 2147483648
    | .sir => bytesSend + bytesRecvd < 2147483648

structure KeepsSizes (sizeType : GopSize) (bytesSend bytesRecvd : Nat) : Prop where
  asserts : globalOperationAsserts bytesSend bytesRecvd
  /-- No size is changed when it becomes an `int`. -/
  converted : toInt bytesSend = bytesSend ∧ toInt bytesRecvd = bytesRecvd
  messSize : ∀ tipusDeFan,
    messSizeInt sizeType tipusDeFan (toInt bytesSend) (toInt bytesRecvd) =
      messSize sizeType tipusDeFan bytesSend bytesRecvd
  nonneg : ∀ bandw numPartners numBusos tipusDeFan model startup, 0 ≤ bandw → 1 ≤ numPartners →
    0 ≤ startup → 0 ≤ (calculaFanInt bandw numPartners numBusos tipusDeFan model sizeType bytesSend
      bytesRecvd startup).temps
  monotone : ∀ bandw numPartners numBusos tipusDeFan model startup (smallerSend smallerRecvd : Nat),
    0 ≤ bandw → 1 ≤ numPartners → 0 ≤ startup → smallerSend ≤ bytesSend →
    smallerRecvd ≤ bytesRecvd →
    (calculaFanInt bandw numPartners numBusos tipusDeFan model sizeType smallerSend smallerRecvd
        startup).temps ≤
      (calculaFanInt bandw numPartners numBusos tipusDeFan model sizeType bytesSend bytesRecvd
        startup).temps

section

variable {sizeType : GopSize} {bytesSend bytesRecvd smallerSend smallerRecvd : Nat}

theorem toInt_eq_self_iff {n : Nat} : toInt n = n ↔ n < 2147483648 := by
  unfold toInt
  constructor
  · intro h
    have hlt := Int.bmod_lt (x := n) (m := 4294967296) (by omega)
    rw [h] at hlt
    omega
  · intro h
    apply Int.bmod_eq_of_le <;> omega

theorem Fits.mono (h : Fits sizeType bytesSend bytesRecvd) (hsend : smallerSend ≤ bytesSend)
    (hrecvd : smallerRecvd ≤ bytesRecvd) : Fits sizeType smallerSend smallerRecvd := by
  obtain ⟨hs, hr, hboth⟩ := h
  refine ⟨by omega, by omega, ?_⟩
  cases sizeType with
  | curr => trivial
  | min => trivial
  | max => trivial
  | mean =>
      show smallerSend + smallerRecvd < 2147483648
      have : bytesSend + bytesRecvd < 2147483648 := hboth
      omega
  | twoMax =>
      show 2 * Max.max smallerSend smallerRecvd < 2147483648
      have : 2 * Max.max bytesSend bytesRecvd < 2147483648 := hboth
      omega
  | sir =>
      show smallerSend + smallerRecvd < 2147483648
      have : bytesSend + bytesRecvd < 2147483648 := hboth
      omega

theorem toInt_twoMax_iff {n m : Nat} :
    toInt (2 * Max.max (n : Int) m) = (2 * Max.max n m : Nat) ↔ 2 * Max.max n m < 2147483648 := by
  have hcast : 2 * Max.max (n : Int) m = (2 * Max.max n m : Nat) := by
    push_cast
    rfl
  rw [hcast]
  exact toInt_eq_self_iff

theorem toInt_add {n m : Nat} (h : n + m < 2147483648) : toInt ((n : Int) + m) = (n + m : Nat) := by
  rw [← Int.natCast_add]
  exact toInt_eq_self_iff.mpr h

theorem messSizeInt_eq (h : Fits sizeType bytesSend bytesRecvd) (tipusDeFan : FanType) :
    messSizeInt sizeType tipusDeFan (toInt bytesSend) (toInt bytesRecvd) =
      messSize sizeType tipusDeFan bytesSend bytesRecvd := by
  obtain ⟨hs, hr, hboth⟩ := h
  rw [toInt_eq_self_iff.mpr hs, toInt_eq_self_iff.mpr hr]
  cases sizeType with
  | curr => cases tipusDeFan <;> rfl
  | min => exact (Nat.cast_min bytesSend bytesRecvd).symm
  | max => exact (Nat.cast_max bytesSend bytesRecvd).symm
  | mean =>
      show (toInt ((bytesSend : Int) + bytesRecvd)).tdiv 2 = ((bytesSend + bytesRecvd) / 2 : Nat)
      rw [toInt_add hboth]
      rfl
  | twoMax =>
      exact toInt_twoMax_iff.mpr hboth
  | sir => exact toInt_add hboth

/-- The cost of sizes that fit is that of the unbounded arithmetic. -/
theorem calculaFanInt_eq (h : Fits sizeType bytesSend bytesRecvd) (bandw : ℚ)
    (numPartners numBusos : Nat) (tipusDeFan : FanType) (model : GopModel) (startup : ℚ) :
    calculaFanInt bandw numPartners numBusos tipusDeFan model sizeType bytesSend bytesRecvd
        startup =
      calculaFan bandw numPartners numBusos tipusDeFan model sizeType bytesSend bytesRecvd
        startup := by
  have hcast : ((messSize sizeType tipusDeFan bytesSend bytesRecvd : Int) : ℚ) =
      messSize sizeType tipusDeFan bytesSend bytesRecvd := Int.cast_natCast _
  unfold calculaFanInt
  rw [messSizeInt_eq h]
  cases model with
  | zero => rfl
  | cte => exact congrArg (fun size => Fan.mk (startup + size * bwNsPerByte bandw) startup) hcast
  | lin =>
      exact congrArg (fun size => Fan.mk ((startup + size * bwNsPerByte bandw) *
        ((numPartners : ℚ) - 1)) (startup * ((numPartners : ℚ) - 1))) hcast
  | log =>
      exact congrArg (fun size => Fan.mk ((startup + size * bwNsPerByte bandw) *
        (computeContentionStage numPartners numBusos : ℚ))
        (startup * (computeContentionStage numPartners numBusos : ℚ))) hcast

theorem messSize_mono (tipusDeFan : FanType) (hsend : smallerSend ≤ bytesSend)
    (hrecvd : smallerRecvd ≤ bytesRecvd) :
    messSize sizeType tipusDeFan smallerSend smallerRecvd ≤
      messSize sizeType tipusDeFan bytesSend bytesRecvd := by
  cases sizeType with
  | curr =>
      cases tipusDeFan with
      | fanIn => exact hsend
      | fanOut => exact hrecvd
  | min => exact min_le_min hsend hrecvd
  | max => exact max_le_max hsend hrecvd
  | mean => exact Nat.div_le_div_right (Nat.add_le_add hsend hrecvd)
  | twoMax => exact Nat.mul_le_mul_left 2 (max_le_max hsend hrecvd)
  | sir => exact Nat.add_le_add hsend hrecvd

theorem bwNsPerByte_nonneg {bandw : ℚ} (h : 0 ≤ bandw) : 0 ≤ bwNsPerByte bandw := by
  unfold bwNsPerByte
  split
  · positivity
  · exact le_refl 0

theorem calculaFan_nonneg {bandw startup : ℚ} {numPartners numBusos : Nat}
    {tipusDeFan : FanType} {model : GopModel} (hbandw : 0 ≤ bandw) (hpartners : 1 ≤ numPartners)
    (hstartup : 0 ≤ startup) :
    0 ≤ (calculaFan bandw numPartners numBusos tipusDeFan model sizeType bytesSend bytesRecvd
      startup).temps := by
  have hbw := bwNsPerByte_nonneg hbandw
  have hfactor : (0 : ℚ) ≤ numPartners - 1 := sub_nonneg.mpr (Nat.one_le_cast.mpr hpartners)
  cases model with
  | zero => exact le_refl 0
  | cte =>
      show 0 ≤ startup + _ * bwNsPerByte bandw
      positivity
  | lin =>
      show 0 ≤ (startup + _ * bwNsPerByte bandw) * ((numPartners : ℚ) - 1)
      positivity
  | log =>
      show 0 ≤ (startup + _ * bwNsPerByte bandw) * (computeContentionStage numPartners numBusos : ℚ)
      positivity

theorem calculaFan_mono {bandw startup : ℚ} {numPartners numBusos : Nat}
    {tipusDeFan : FanType} {model : GopModel} (hbandw : 0 ≤ bandw) (hpartners : 1 ≤ numPartners)
    (hsend : smallerSend ≤ bytesSend) (hrecvd : smallerRecvd ≤ bytesRecvd) :
    (calculaFan bandw numPartners numBusos tipusDeFan model sizeType smallerSend smallerRecvd
        startup).temps ≤
      (calculaFan bandw numPartners numBusos tipusDeFan model sizeType bytesSend bytesRecvd
        startup).temps := by
  have hbw := bwNsPerByte_nonneg hbandw
  have hfactor : (0 : ℚ) ≤ numPartners - 1 := sub_nonneg.mpr (Nat.one_le_cast.mpr hpartners)
  have hsize : (messSize sizeType tipusDeFan smallerSend smallerRecvd : ℚ) ≤
      messSize sizeType tipusDeFan bytesSend bytesRecvd :=
    Nat.cast_le.mpr (messSize_mono tipusDeFan hsend hrecvd)
  cases model with
  | zero => exact le_refl 0
  | cte =>
      show startup + _ * bwNsPerByte bandw ≤ startup + _ * bwNsPerByte bandw
      gcongr
  | lin =>
      show (startup + _ * bwNsPerByte bandw) * ((numPartners : ℚ) - 1) ≤
        (startup + _ * bwNsPerByte bandw) * ((numPartners : ℚ) - 1)
      gcongr
  | log =>
      show (startup + _ * bwNsPerByte bandw) * (computeContentionStage numPartners numBusos : ℚ) ≤
        (startup + _ * bwNsPerByte bandw) * (computeContentionStage numPartners numBusos : ℚ)
      gcongr

theorem mean_fits {n m : Nat}
    (h : (toInt ((n : Int) + m)).tdiv 2 = ((n + m) / 2 : Nat)) : n + m < 2147483648 := by
  by_contra hlarge
  have hlt : toInt ((n : Int) + m) < 2147483648 := Int.bmod_lt (by omega)
  have hdiv : (toInt ((n : Int) + m)).tdiv 2 < 1073741824 := by
    generalize toInt ((n : Int) + m) = w at hlt
    rcases Int.le_total 0 w with hpos | hneg
    · rw [Int.tdiv_eq_ediv_of_nonneg hpos]
      omega
    · have hzero : w.tdiv 2 ≤ 0 := Int.tdiv_le_tdiv (by omega) hneg
      omega
  rw [h] at hdiv
  omega

theorem keepsSizes_iff (sizeType : GopSize) (bytesSend bytesRecvd : Nat) :
    KeepsSizes sizeType bytesSend bytesRecvd ↔ Fits sizeType bytesSend bytesRecvd := by
  constructor
  · intro h
    have hs := toInt_eq_self_iff.mp h.converted.1
    have hr := toInt_eq_self_iff.mp h.converted.2
    have hmess := h.messSize .fanIn
    rw [h.converted.1, h.converted.2] at hmess
    refine ⟨hs, hr, ?_⟩
    cases sizeType with
    | curr => trivial
    | min => trivial
    | max => trivial
    | mean => exact mean_fits hmess
    | twoMax => exact toInt_twoMax_iff.mp hmess
    | sir =>
        have hcast : toInt ((bytesSend + bytesRecvd : Nat) : Int) =
            (bytesSend + bytesRecvd : Nat) := by
          rw [Nat.cast_add]
          exact hmess
        exact toInt_eq_self_iff.mp hcast
  · intro h
    have hs := toInt_eq_self_iff.mpr h.1
    have hr := toInt_eq_self_iff.mpr h.2.1
    constructor
    · rw [globalOperationAsserts, hs, hr]
      omega
    · exact ⟨hs, hr⟩
    · exact messSizeInt_eq h
    · intro bandw numPartners numBusos tipusDeFan model startup hbandw hpartners hstartup
      rw [calculaFanInt_eq h]
      exact calculaFan_nonneg hbandw hpartners hstartup
    · intro bandw numPartners numBusos tipusDeFan model startup smallerSend smallerRecvd hbandw
        hpartners _ hsend hrecvd
      rw [calculaFanInt_eq h, calculaFanInt_eq (h.mono hsend hrecvd)]
      exact calculaFan_mono hbandw hpartners hsend hrecvd

/-- A size of 4 GiB and 5 bytes becomes 5 bytes. -/
theorem not_keepsSizes : ¬ ∀ (sizeType : GopSize) (bytesSend bytesRecvd : Nat),
    bytesSend < 2 ^ 63 → bytesRecvd < 2 ^ 63 → KeepsSizes sizeType bytesSend bytesRecvd := by
  intro h
  have hconverted := (h .max 4294967301 0 (by omega) (by omega)).converted.1
  rw [toInt_eq_self_iff] at hconverted
  omega

end

end Dimemas.Model.MessageSizes
