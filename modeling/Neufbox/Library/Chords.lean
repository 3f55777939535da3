import Mathlib.Tactic

/-! The count, sum and sum of squares of integers, divided from time to time by a common factor with each quotient
truncated on its own. `Moments n s ss` says that the three lie above every chord of the parabola between neighbouring
integers, `(2 * m + 1) * s - m * (m + 1) * n ≤ ss`: that is kept by another integer and by such a division, and gives
`s * s ≤ n * ss`, which alone is not kept. -/
namespace Neufbox.Chords
set_option autoImplicit false
set_option maxHeartbeats 250000

def Moments (n : ℕ) (s ss : ℤ) : Prop := ∀ m : ℤ, (2 * m + 1) * s - m * (m + 1) * n ≤ ss

theorem chord_nonneg (m : ℤ) : 0 ≤ m * (m + 1) := by
  rcases le_or_gt 0 m with h | h
  · exact mul_nonneg h (by omega)
  · exact mul_nonneg_of_nonpos_of_nonpos h.le (by omega)

/-- An integer lies on one side of both ends of a chord. -/
theorem chord_le_square (m x : ℤ) : (2 * m + 1) * x - m * (m + 1) ≤ x * x := by
  have h := chord_nonneg (x - m - 1)
  nlinarith

theorem moments_zero : Moments 0 0 0 := by
  intro m
  simp

section Steps
variable {n : ℕ} {s ss : ℤ}

theorem Moments.add (h : Moments n s ss) (x : ℤ) : Moments (n + 1) (s + x) (ss + x * x) := by
  intro m
  have hm := h m
  have hx := chord_le_square m x
  push_cast
  linarith

/-- A count without an integer. -/
theorem Moments.count (h : Moments n s ss) : Moments (n + 1) s ss := by
  intro m
  have hm := h m
  have hchord := chord_nonneg m
  push_cast
  linarith

theorem Moments.neg (h : Moments n s ss) : Moments n (-s) ss := by
  intro m
  have hm := h (-m - 1)
  linarith

theorem Moments.abs_sum_le (h : Moments n s ss) : |s| ≤ ss := by
  have hright := h 0
  have hleft := h (-1)
  apply abs_le.mpr
  constructor
  · linarith
  · linarith

theorem Moments.nonneg (h : Moments n s ss) : 0 ≤ ss := (abs_nonneg s).trans h.abs_sum_le

/-- The division for a sum that is not negative. -/
theorem Moments.div_of_nonneg (h : Moments n s ss) (hs : 0 ≤ s) {k n' : ℕ} (hk : 0 < k) (hn : n ≤ k * n') :
    Moments n' (s / k) (ss / k) := by
  intro m
  have hk' : (0 : ℤ) < k := by exact_mod_cast hk
  have hquot : 0 ≤ s / k := Int.ediv_nonneg hs hk'.le
  have hback : (k : ℤ) * (s / k) ≤ s := Int.mul_ediv_self_le hk'.ne'
  have hn' : (n : ℤ) ≤ k * n' := by exact_mod_cast hn
  rw [Int.le_ediv_iff_mul_le hk']
  rcases le_or_gt 0 m with hm | hm
  · have hslope : (2 * m + 1) * (k * (s / k)) ≤ (2 * m + 1) * s := mul_le_mul_of_nonneg_left hback (by omega)
    have hchord : m * (m + 1) * n ≤ m * (m + 1) * (k * n') := mul_le_mul_of_nonneg_left hn' (chord_nonneg m)
    have hold := h m
    linarith
  · -- the chord is below zero there
    have hslope : (2 * m + 1) * (s / k) ≤ 0 := mul_nonpos_of_nonpos_of_nonneg (by omega) hquot
    have hchord : 0 ≤ m * (m + 1) * n' := mul_nonneg (chord_nonneg m) (by positivity)
    have hneg : ((2 * m + 1) * (s / k) - m * (m + 1) * n') * k ≤ 0 :=
      mul_nonpos_of_nonpos_of_nonneg (by linarith) hk'.le
    exact hneg.trans h.nonneg

/-- Sum and sum of squares divided, truncated to zero, and the count at least divided. -/
theorem Moments.tdiv (h : Moments n s ss) {k n' : ℕ} (hk : 0 < k) (hn : n ≤ k * n') :
    Moments n' (s.tdiv k) (ss.tdiv k) := by
  rw [Int.tdiv_eq_ediv_of_nonneg h.nonneg]
  rcases le_or_gt 0 s with hs | hs
  · rw [Int.tdiv_eq_ediv_of_nonneg hs]
    exact h.div_of_nonneg hs hk hn
  · have hflip := (h.neg.div_of_nonneg (by omega) hk hn).neg
    rwa [← Int.tdiv_eq_ediv_of_nonneg (by omega), Int.neg_tdiv, neg_neg] at hflip

/-- The chord around the mean gives the inequality between the moments. -/
theorem Moments.square_le (h : Moments n s ss) : s * s ≤ n * ss := by
  rcases Nat.eq_zero_or_pos n with rfl | hn
  · have hup := h ss
    have hdown := h (-ss - 1)
    have hss := h.nonneg
    simp only [Nat.cast_zero, mul_zero, sub_zero, zero_mul] at hup hdown ⊢
    have hle : s ≤ 0 := by
      by_contra hs
      have hmul : (2 * ss + 1) * 1 ≤ (2 * ss + 1) * s := mul_le_mul_of_nonneg_left (by omega) (by omega)
      linarith
    have hge : 0 ≤ s := by
      by_contra hs
      have hmul : (2 * ss + 1) * 1 ≤ (2 * ss + 1) * -s := mul_le_mul_of_nonneg_left (by omega) (by omega)
      linarith
    obtain rfl : s = 0 := le_antisymm hle hge
    simp
  · have hpos : (0 : ℤ) < n := by exact_mod_cast hn
    have hsplit := Int.mul_ediv_add_emod s n
    have hlow := Int.emod_nonneg s hpos.ne'
    have hhigh := Int.emod_lt_of_pos s hpos
    have hm := h (s / n)
    generalize s / (n : ℤ) = m at *
    generalize s % (n : ℤ) = r at *
    obtain rfl : s = n * m + r := by omega
    have hchord : n * ((2 * m + 1) * (n * m + r) - m * (m + 1) * n) ≤ n * ss := mul_le_mul_of_nonneg_left hm hpos.le
    have hrest : r * r ≤ r * n := mul_le_mul_of_nonneg_left hhigh.le hlow
    nlinarith

/-- The variance that is taken the root of. -/
theorem Moments.variance_nonneg (h : Moments n s ss) (hn : 0 < n) :
    (0 : ℚ) ≤ (ss : ℚ) / n - ((s : ℚ) / n) ^ 2 := by
  have hpos : (0 : ℚ) < n := by exact_mod_cast hn
  have hsq : (s : ℚ) * s ≤ n * ss := by exact_mod_cast h.square_le
  have heq : (ss : ℚ) / n - ((s : ℚ) / n) ^ 2 = (n * ss - s * s) / (n * n) := by
    field_simp
  rw [heq]
  exact div_nonneg (by linarith) (mul_self_nonneg _)

end Steps

end Neufbox.Chords
