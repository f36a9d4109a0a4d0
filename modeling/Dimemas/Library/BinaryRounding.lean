import Mathlib.Algebra.Order.Field.Rat
import Mathlib.Algebra.Order.Floor.Ring
import Mathlib.Data.Int.Log
import Mathlib.Data.Rat.Floor
import Mathlib.Tactic.FieldSimp
import Mathlib.Tactic.Linarith
import Mathlib.Tactic.Positivity
import Mathlib.Tactic.Ring
/-!
# Rounding to binary digits

Numbers with a fixed number of binary digits, as those of floating point. The exponents have no
bounds. A quotient of two such numbers that differ is not rounded to one.
-/

namespace Dimemas.Library.BinaryRounding

def nearest (q : ℚ) : ℤ :=
  if Int.fract q < 1 / 2 ∨ Int.fract q = 1 / 2 ∧ ⌊q⌋ % 2 = 0 then ⌊q⌋ else ⌊q⌋ + 1

def lastPlace (bits : Nat) (q : ℚ) : ℚ := 2 ^ (Int.log 2 |q| + 1 - bits)

def roundTo (bits : Nat) (q : ℚ) : ℚ := nearest (q / lastPlace bits q) * lastPlace bits q

section

variable {bits n : Nat} {q q' x y : ℚ} {k : ℤ}

/-! ## The nearest integer -/

theorem floor_le_nearest (q : ℚ) : ⌊q⌋ ≤ nearest q := by
  unfold nearest
  split <;> omega

theorem nearest_le_floor_add_one (q : ℚ) : nearest q ≤ ⌊q⌋ + 1 := by
  unfold nearest
  split <;> omega

@[simp] theorem nearest_intCast (k : ℤ) : nearest k = k := by
  simp [nearest]

theorem nearest_mono (h : q ≤ q') : nearest q ≤ nearest q' := by
  rcases (Int.floor_le_floor h).eq_or_lt with heq | hlt
  · have hfract : Int.fract q ≤ Int.fract q' := by
      unfold Int.fract
      rw [heq]
      linarith
    unfold nearest
    rw [heq]
    split
    · split <;> omega
    · rename_i hup
      rw [if_neg]
      rintro (hdown | ⟨hhalf, heven⟩)
      · exact hup (.inl (lt_of_le_of_lt hfract hdown))
      · rcases (hhalf ▸ hfract).lt_or_eq with hless | hsame
        · exact hup (.inl hless)
        · exact hup (.inr ⟨hsame, heven⟩)
  · calc nearest q ≤ ⌊q⌋ + 1 := nearest_le_floor_add_one q
      _ ≤ ⌊q'⌋ := hlt
      _ ≤ nearest q' := floor_le_nearest q'

theorem nearest_le_of_le (h : q ≤ k) : nearest q ≤ k := by
  have hmono := nearest_mono h
  rwa [nearest_intCast] at hmono

theorem le_nearest_of_le (h : k ≤ q) : k ≤ nearest q := by
  have hmono := nearest_mono h
  rwa [nearest_intCast] at hmono

/-- A number below the half in front of an integer is not rounded to it. -/
theorem nearest_lt_of_lt (h : q < k - 1 / 2) : nearest q < k := by
  have hfloor : ⌊q⌋ < k := Int.floor_lt.mpr (by linarith)
  unfold nearest
  split
  · exact hfloor
  · next hup =>
      rcases (Int.add_one_le_of_lt hfloor).lt_or_eq with hlt | heq
      · exact hlt
      · refine absurd (.inl ?_) hup
        have hcast : (⌊q⌋ : ℚ) + 1 = k := by exact_mod_cast heq
        unfold Int.fract
        linarith

/-! ## Rounding to digits -/

theorem lastPlace_pos (bits : Nat) (q : ℚ) : 0 < lastPlace bits q := zpow_pos two_pos _

theorem lastPlace_of_pos (hq : 0 < q) :
    lastPlace bits q = 2 ^ (Int.log 2 q + 1 - bits) := by
  rw [lastPlace, abs_of_pos hq]

theorem two_pow_mul_lastPlace (hq : 0 < q) :
    (2 : ℚ) ^ bits * lastPlace bits q = 2 ^ (Int.log 2 q + 1) := by
  rw [lastPlace_of_pos hq, ← zpow_natCast, ← zpow_add₀ two_ne_zero]
  congr 1
  ring

/-- The digits are enough for a number, and the first of them is not zero. -/
theorem lt_two_pow_mul_lastPlace (hq : 0 < q) : q < 2 ^ bits * lastPlace bits q := by
  rw [two_pow_mul_lastPlace hq]
  exact Int.lt_zpow_succ_log_self Nat.one_lt_two q

theorem roundTo_zero (bits : Nat) : roundTo bits 0 = 0 := by
  have hzero : nearest 0 = 0 := nearest_intCast 0
  rw [roundTo, zero_div, hzero, Int.cast_zero, zero_mul]

theorem roundTo_le_zpow (hq : 0 < q) : roundTo bits q ≤ 2 ^ (Int.log 2 q + 1) := by
  have hplace := lastPlace_pos bits q
  have hle : q / lastPlace bits q ≤ ((2 ^ bits : ℤ) : ℚ) := by
    rw [div_le_iff₀ hplace, Int.cast_pow, Int.cast_ofNat]
    exact (lt_two_pow_mul_lastPlace hq).le
  rw [← two_pow_mul_lastPlace hq, roundTo]
  apply mul_le_mul_of_nonneg_right _ hplace.le
  exact_mod_cast nearest_le_of_le hle

theorem zpow_le_roundTo (hbits : 0 < bits) (hq : 0 < q) : 2 ^ Int.log 2 q ≤ roundTo bits q := by
  have hplace := lastPlace_pos bits q
  have hfirst : (2 : ℚ) ^ Int.log 2 q = ((2 ^ (bits - 1) : ℤ) : ℚ) * lastPlace bits q := by
    rw [lastPlace_of_pos hq, Int.cast_pow, Int.cast_ofNat, ← zpow_natCast,
      ← zpow_add₀ two_ne_zero, Nat.cast_sub hbits]
    congr 1
    push_cast
    ring
  have hle : ((2 ^ (bits - 1) : ℤ) : ℚ) ≤ q / lastPlace bits q := by
    rw [le_div_iff₀ hplace, ← hfirst]
    exact Int.zpow_log_le_self Nat.one_lt_two hq
  rw [hfirst, roundTo]
  apply mul_le_mul_of_nonneg_right _ hplace.le
  exact_mod_cast le_nearest_of_le hle

theorem roundTo_pos (hbits : 0 < bits) (hq : 0 < q) : 0 < roundTo bits q :=
  lt_of_lt_of_le (zpow_pos two_pos _) (zpow_le_roundTo hbits hq)

theorem roundTo_nonneg (hbits : 0 < bits) (hq : 0 ≤ q) : 0 ≤ roundTo bits q := by
  rcases hq.eq_or_lt with rfl | hpos
  · exact (roundTo_zero bits).ge
  · exact (roundTo_pos hbits hpos).le

theorem roundTo_mono (hbits : 0 < bits) (hx : 0 ≤ x) (h : x ≤ y) :
    roundTo bits x ≤ roundTo bits y := by
  rcases hx.eq_or_lt with rfl | hpos
  · rw [roundTo_zero]
    exact roundTo_nonneg hbits h
  have hy : 0 < y := lt_of_lt_of_le hpos h
  rcases (Int.log_mono_right (b := 2) hpos h).eq_or_lt with heq | hlt
  · have hsame : lastPlace bits x = lastPlace bits y := by
      rw [lastPlace_of_pos hpos, lastPlace_of_pos hy, heq]
    have hplace := lastPlace_pos bits y
    rw [roundTo, roundTo, hsame]
    apply mul_le_mul_of_nonneg_right _ hplace.le
    exact_mod_cast nearest_mono (div_le_div_of_nonneg_right h hplace.le)
  · calc roundTo bits x ≤ 2 ^ (Int.log 2 x + 1) := roundTo_le_zpow hpos
      _ ≤ 2 ^ Int.log 2 y := zpow_le_zpow_right₀ one_le_two (Int.add_one_le_of_lt hlt)
      _ ≤ roundTo bits y := zpow_le_roundTo hbits hy

theorem roundTo_natCast (h : n < 2 ^ bits) : roundTo bits n = n := by
  rcases Nat.eq_zero_or_pos n with rfl | hpos
  · exact roundTo_zero bits
  have hlog : Nat.log 2 n < bits := Nat.log_lt_of_lt_pow hpos.ne' h
  -- The last place divides one.
  have hplace : lastPlace bits (n : ℚ) = (((2 ^ (bits - 1 - Nat.log 2 n) : ℤ) : ℚ))⁻¹ := by
    rw [lastPlace_of_pos (Nat.cast_pos.mpr hpos), Int.log_natCast, Int.cast_pow, Int.cast_ofNat,
      ← zpow_natCast, ← zpow_neg]
    congr 1
    omega
  have hinteger : (n : ℚ) / lastPlace bits (n : ℚ) =
      ((n * 2 ^ (bits - 1 - Nat.log 2 n) : ℤ) : ℚ) := by
    rw [hplace, div_inv_eq_mul]
    push_cast
    rfl
  rw [roundTo, hinteger, nearest_intCast, ← hinteger]
  exact div_mul_cancel₀ _ (lastPlace_pos bits _).ne'

theorem roundTo_add_lastPlace_le (hbits : 0 < bits) (hx : 0 < x)
    (h : roundTo bits x < roundTo bits y) (hy : 0 < y) :
    roundTo bits x + lastPlace bits x ≤ roundTo bits y := by
  have hle : x ≤ y := by
    by_contra hlt
    exact absurd h (not_lt.mpr (roundTo_mono hbits hy.le (not_le.mp hlt).le))
  have hplace := lastPlace_pos bits x
  obtain ⟨j, hj⟩ := Int.le.dest (Int.log_mono_right (b := 2) hx hle)
  have hmultiple : lastPlace bits y = ((2 ^ j : ℤ) : ℚ) * lastPlace bits x := by
    rw [lastPlace_of_pos hx, lastPlace_of_pos hy, ← hj, Int.cast_pow, Int.cast_ofNat,
      ← zpow_natCast, ← zpow_add₀ two_ne_zero]
    congr 1
    ring
  rw [roundTo, roundTo, hmultiple, ← mul_assoc] at h ⊢
  have hnext : nearest (x / lastPlace bits x) + 1 ≤
      nearest (y / (((2 ^ j : ℤ) : ℚ) * lastPlace bits x)) * 2 ^ j := by
    apply Int.add_one_le_of_lt
    exact_mod_cast (mul_lt_mul_iff_left₀ hplace).mp h
  have hcast := mul_le_mul_of_nonneg_right
    (Int.cast_le (R := ℚ).mpr hnext) hplace.le
  push_cast at hcast ⊢
  linarith

/-- The quotient of two numbers of the digits, of which the second is larger. -/
theorem roundTo_div_lt_one (hbits : 0 < bits) (hx : 0 ≤ x) (hy : 0 < y)
    (h : roundTo bits x < roundTo bits y) :
    roundTo bits (roundTo bits x / roundTo bits y) < 1 := by
  have hpow : (2 : ℚ) ≤ 2 ^ bits := by
    calc (2 : ℚ) = 2 ^ 1 := (pow_one 2).symm
      _ ≤ 2 ^ bits := pow_le_pow_right₀ one_le_two hbits
  -- The quotient is below the half in front of one.
  have hquotient : roundTo bits x / roundTo bits y < 1 - 1 / (2 * 2 ^ bits) := by
    rcases hx.eq_or_lt with rfl | hpos
    · rw [roundTo_zero, zero_div, sub_pos, div_lt_one (by positivity)]
      linarith
    have hplace := lastPlace_pos bits x
    have hgap := roundTo_add_lastPlace_le hbits hpos h hy
    have hdigits : roundTo bits x ≤ 2 ^ bits * lastPlace bits x := by
      rw [two_pow_mul_lastPlace hpos]
      exact roundTo_le_zpow hpos
    rw [div_lt_iff₀ (roundTo_pos hbits hy), sub_mul, one_mul, lt_sub_iff_add_lt]
    have hone : (1 : ℚ) / (2 * 2 ^ bits) * roundTo bits y < 
        roundTo bits y - roundTo bits x := by
      rw [one_div_mul_eq_div, div_lt_iff₀ (by positivity)]
      nlinarith [mul_le_mul_of_nonneg_right hgap (show (0 : ℚ) ≤ 2 * 2 ^ bits - 1 by linarith)]
    linarith
  have hhalf : (1 : ℚ) / 2 < 1 - 1 / (2 * 2 ^ bits) := by
    rw [lt_sub_iff_add_lt, ← lt_sub_iff_add_lt', div_lt_iff₀ (by positivity)]
    linarith
  have hnonneg : 0 ≤ roundTo bits x / roundTo bits y :=
    div_nonneg (roundTo_nonneg hbits hx) (roundTo_pos hbits hy).le
  -- So is the larger one of the quotient and one half, and its last place is known.
  set q := max (roundTo bits x / roundTo bits y) (1 / 2) with hq
  have hle : 1 / 2 ≤ q := le_max_right _ _
  have hlt : q < 1 - 1 / (2 * 2 ^ bits) := max_lt hquotient hhalf
  have hqpos : 0 < q := by linarith
  have hlog : Int.log 2 q = -1 := by
    have hpositive : (0 : ℚ) < 1 / (2 * 2 ^ bits) := by positivity
    apply le_antisymm
    · apply Int.lt_add_one_iff.mp
      apply (Int.lt_zpow_iff_log_lt Nat.one_lt_two hqpos).mp
      norm_num
      linarith
    · apply (Int.zpow_le_iff_le_log Nat.one_lt_two hqpos).mp
      norm_num
      linarith
  have hplace : lastPlace bits q = (2 ^ bits)⁻¹ := by
    rw [lastPlace_of_pos hqpos, hlog, ← zpow_natCast, ← zpow_neg]
    congr 1
    ring
  calc roundTo bits (roundTo bits x / roundTo bits y)
    _ ≤ roundTo bits q := roundTo_mono hbits hnonneg (le_max_left _ _)
    _ < 1 := by
      rw [roundTo, hplace, div_inv_eq_mul, ← div_eq_mul_inv, div_lt_one (by positivity)]
      have hbelow : q * 2 ^ bits < ((2 ^ bits : ℤ) : ℚ) - 1 / 2 := by
        have hmul := mul_lt_mul_of_pos_right hlt (show (0 : ℚ) < 2 ^ bits by positivity)
        have hcancel : (1 - 1 / (2 * 2 ^ bits)) * 2 ^ bits = (2 : ℚ) ^ bits - 1 / 2 := by
          field_simp
        push_cast
        linarith
      exact_mod_cast nearest_lt_of_lt hbelow

end

end Dimemas.Library.BinaryRounding
