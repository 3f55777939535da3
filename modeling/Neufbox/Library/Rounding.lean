import Mathlib.Tactic
import Mathlib.Data.Int.Log

/-! Binary rounding: rationals to the nearest one with a significand of `p` bits, ties to the even significand, with no
bound on the exponent. `roundBits_error` is the relative error of one rounding, and `roundBits_nonneg` that a rounding
keeps the sign. -/
namespace Neufbox.Rounding
set_option autoImplicit false
set_option maxHeartbeats 250000

/-! ## To an integer -/

def roundEven (x : ℚ) : ℤ :=
  let k := ⌊x⌋
  if x - k < 1 / 2 then k
  else if 1 / 2 < x - k then k + 1
  else k + k % 2

theorem roundEven_error (x : ℚ) : |(roundEven x : ℚ) - x| ≤ 1 / 2 := by
  have hlow := Int.floor_le x
  have hhigh := Int.lt_floor_add_one x
  have hbit : ⌊x⌋ % 2 = 0 ∨ ⌊x⌋ % 2 = 1 := Int.emod_two_eq_zero_or_one _
  unfold roundEven
  dsimp only
  rw [abs_le]
  split_ifs with hless hmore
  · constructor <;> linarith
  · push_cast
    constructor <;> linarith
  · have htie : x - ⌊x⌋ = 1 / 2 := le_antisymm (not_lt.mp hmore) (not_lt.mp hless)
    rcases hbit with h | h
    · rw [h]
      push_cast
      constructor <;> linarith
    · rw [h]
      push_cast
      constructor <;> linarith

theorem roundEven_nonneg {x : ℚ} (h : 0 ≤ x) : 0 ≤ roundEven x := by
  by_contra hneg
  have hle : (roundEven x : ℚ) ≤ -1 := by exact_mod_cast (show roundEven x ≤ -1 by omega)
  have herr := (abs_le.mp (roundEven_error x)).1
  linarith

theorem roundEven_zero : roundEven 0 = 0 := by
  simp [roundEven]

/-! ## To a number of bits -/

/-- The distance of two neighbours around `x`. -/
def spacing (p : ℕ) (x : ℚ) : ℚ := 2 ^ (Int.log 2 |x| + 1 - p)

def roundBits (p : ℕ) (x : ℚ) : ℚ := roundEven (x / spacing p x) * spacing p x

section Bits
variable (p : ℕ)

theorem spacing_pos (x : ℚ) : 0 < spacing p x := zpow_pos (by norm_num) _

theorem roundBits_zero : roundBits p 0 = 0 := by
  rw [roundBits, zero_div, roundEven_zero, Int.cast_zero, zero_mul]

/-- Half the spacing is at most `2 ^ -p` of the number. -/
theorem spacing_le {x : ℚ} (hx : x ≠ 0) : spacing p x / 2 ≤ |x| / 2 ^ p := by
  have hpow : (2 : ℚ) ^ Int.log 2 |x| ≤ |x| := by
    exact_mod_cast Int.zpow_log_le_self (b := 2) (by norm_num) (abs_pos.mpr hx)
  have heq : spacing p x / 2 = 2 ^ Int.log 2 |x| / 2 ^ p := by
    rw [spacing, zpow_sub₀ (by norm_num), zpow_add₀ (by norm_num), zpow_one, zpow_natCast]
    ring
  rw [heq]
  exact div_le_div_of_nonneg_right hpow (by positivity)

theorem roundBits_error (x : ℚ) : |roundBits p x - x| ≤ |x| / 2 ^ p := by
  by_cases hx : x = 0
  · rw [hx, roundBits_zero]
    simp
  · have hpos := spacing_pos p x
    have hsplit : roundBits p x - x = (roundEven (x / spacing p x) - x / spacing p x) * spacing p x := by
      rw [sub_mul, div_mul_cancel₀ _ hpos.ne', roundBits]
    calc |roundBits p x - x|
        = |(roundEven (x / spacing p x) : ℚ) - x / spacing p x| * spacing p x := by
          rw [hsplit, abs_mul, abs_of_pos hpos]
      _ ≤ 1 / 2 * spacing p x := mul_le_mul_of_nonneg_right (roundEven_error _) hpos.le
      _ = spacing p x / 2 := by ring
      _ ≤ |x| / 2 ^ p := spacing_le p hx

theorem roundBits_nonneg {x : ℚ} (h : 0 ≤ x) : 0 ≤ roundBits p x := by
  have hpos := spacing_pos p x
  have hround : (0 : ℚ) ≤ roundEven (x / spacing p x) := by
    exact_mod_cast roundEven_nonneg (div_nonneg h hpos.le)
  exact mul_nonneg hround hpos.le

theorem le_roundBits {x : ℚ} (h : 0 ≤ x) : (1 - 1 / 2 ^ p) * x ≤ roundBits p x := by
  have herr := (abs_le.mp (roundBits_error p x)).1
  rw [abs_of_nonneg h] at herr
  have hring : (1 - 1 / 2 ^ p) * x = x - x / 2 ^ p := by ring
  linarith

theorem abs_roundBits_le (x : ℚ) : |roundBits p x| ≤ (1 + 1 / 2 ^ p) * |x| := by
  have herr := roundBits_error p x
  have htri := abs_sub_abs_le_abs_sub (roundBits p x) x
  have hring : (1 + 1 / 2 ^ p) * |x| = |x| + |x| / 2 ^ p := by ring
  linarith

/-- A lower bound `-b` stays one, up to the error of the rounding. -/
theorem neg_le_roundBits {x b : ℚ} (hb : 0 ≤ b) (h : -b ≤ x) : -((1 + 1 / 2 ^ p) * b) ≤ roundBits p x := by
  have hfactor : (0 : ℚ) ≤ 1 + 1 / 2 ^ p := by positivity
  rcases le_total 0 x with hx | hx
  · exact (neg_nonpos.mpr (mul_nonneg hfactor hb)).trans (roundBits_nonneg p hx)
  · have habs : |x| ≤ b := by
      rw [abs_of_nonpos hx]
      linarith
    have hround := (abs_roundBits_le p x).trans (mul_le_mul_of_nonneg_left habs hfactor)
    exact (abs_le.mp hround).1

end Bits

end Neufbox.Rounding
