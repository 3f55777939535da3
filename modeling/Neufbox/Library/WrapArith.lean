import Mathlib.Tactic

/-! Unsigned machine arithmetic on natural numbers. A register of width `w` holds a number below
`2 ^ w`; addition is `(a + b) % 2 ^ w` written in place, subtraction is `wrapSub`. Nothing here
names a program. -/
namespace Neufbox.WrapArith
set_option autoImplicit false
set_option maxHeartbeats 250000

/-- `a - b` in unsigned arithmetic of width `w`. -/
def wrapSub (w a b : ℕ) : ℕ := (a + (2 ^ w - b % 2 ^ w)) % 2 ^ w

theorem wrapSub_of_le {w a b : ℕ} (hba : b ≤ a) (ha : a < 2 ^ w) : wrapSub w a b = a - b := by
  have hb : b % 2 ^ w = b := Nat.mod_eq_of_lt (hba.trans_lt ha)
  have hsum : a + (2 ^ w - b) = (a - b) + 2 ^ w := by omega
  rw [wrapSub, hb, hsum, Nat.add_mod_right, Nat.mod_eq_of_lt (by omega)]

theorem wrapSub_self (w a : ℕ) (ha : a < 2 ^ w) : wrapSub w a a = 0 := by
  rw [wrapSub_of_le (le_refl a) ha, Nat.sub_self]

/-- The difference of counters kept modulo `2 ^ w` is the true difference, also after the
counters wrapped. -/
theorem wrapSub_mod {w n m : ℕ} (hmn : m ≤ n) : wrapSub w (n % 2 ^ w) m = (n - m) % 2 ^ w := by
  have hm : m % 2 ^ w < 2 ^ w := Nat.mod_lt _ (by positivity)
  have hcast : ((n % 2 ^ w + (2 ^ w - m % 2 ^ w) : ℕ) : ℤ) ≡ ((n - m : ℕ) : ℤ) [ZMOD (2 ^ w : ℕ)] := by
    have hmod : ∀ x : ℕ, ((x % 2 ^ w : ℕ) : ℤ) ≡ x [ZMOD (2 ^ w : ℕ)] := by
      intro x
      rw [Int.natCast_mod]
      exact Int.mod_modEq _ _
    have hfull : (((2 ^ w : ℕ) : ℤ)) ≡ 0 [ZMOD (2 ^ w : ℕ)] := by simp [Int.ModEq]
    have h := (hmod n).add (hfull.sub (hmod m))
    rw [Nat.cast_add, Nat.cast_sub hm.le, Nat.cast_sub hmn]
    simpa [sub_eq_add_neg] using h
  exact Int.natCast_modEq_iff.mp hcast

theorem wrapSub_mod_right (w a b : ℕ) : wrapSub w a (b % 2 ^ w) = wrapSub w a b := by
  rw [wrapSub, wrapSub, Nat.mod_mod]

theorem wrapSub_add_mod (w a b : ℕ) (ha : a < 2 ^ w) : (wrapSub w a b + b) % 2 ^ w = a := by
  have hb : b % 2 ^ w < 2 ^ w := Nat.mod_lt _ (by positivity)
  have e : a + (2 ^ w - b % 2 ^ w) + b % 2 ^ w = a + 2 ^ w := by omega
  rw [wrapSub, Nat.mod_add_mod, ← Nat.add_mod_mod, e, Nat.add_mod_right, Nat.mod_eq_of_lt ha]

theorem wrapSub_add (w a n b : ℕ) :
    wrapSub w ((a + n) % 2 ^ w) b = (wrapSub w a b + n) % 2 ^ w := by
  rw [wrapSub, wrapSub, Nat.mod_add_mod, Nat.mod_add_mod]
  congr 1
  omega

theorem and_wrapSub_one {w k x : ℕ} (hk : k < w) : x &&& wrapSub w (2 ^ k) 1 = x % 2 ^ k := by
  have hlt : 2 ^ k < 2 ^ w := Nat.pow_lt_pow_right (by omega) hk
  rw [wrapSub_of_le Nat.one_le_two_pow hlt, Nat.and_two_pow_sub_one_eq_mod]

/-! ## Signed registers -/

/-- The value of a signed register of width `w`. -/
def signed (w : ℕ) (x : ℤ) : ℤ := x.bmod (2 ^ w)

theorem signed_of_fits {w : ℕ} {x : ℤ} (hlow : -2 ^ w ≤ x * 2) (hhigh : x * 2 < 2 ^ w) : signed w x = x := by
  apply Int.bmod_eq_of_le_mul_two
  · simpa using hlow
  · simpa using hhigh

/-- A natural number below half of the range. -/
theorem signed_natCast {w n : ℕ} (h : n * 2 < 2 ^ w) : signed w n = n := by
  apply signed_of_fits
  · have hpos : (0 : ℤ) ≤ 2 ^ w := by positivity
    omega
  · exact_mod_cast h

/-! ## Masks -/

/-- Clearing the bits of a mask takes away what the mask holds. -/
theorem and_not_mask_add {w m : ℕ} (hm : m < 2 ^ w) (y : ℕ) :
    (y &&& (2 ^ w - 1 - m)) + (y % 2 ^ w &&& m) = y % 2 ^ w := by
  have hM : (BitVec.ofNat w m).toNat = m := by rw [BitVec.toNat_ofNat, Nat.mod_eq_of_lt hm]
  have hnot : (~~~BitVec.ofNat w m).toNat = 2 ^ w - 1 - m := by rw [BitVec.toNat_not, hM]
  have hlow : y &&& (2 ^ w - 1 - m) = (BitVec.ofNat w y &&& ~~~BitVec.ofNat w m).toNat := by
    rw [BitVec.toNat_and, hnot, BitVec.toNat_ofNat]
    apply Nat.eq_of_testBit_eq
    intro i
    rw [Nat.testBit_and, Nat.testBit_and, Nat.testBit_mod_two_pow]
    by_cases hi : i < w
    · simp [hi]
    · have hlt : 2 ^ w - 1 - m < 2 ^ i :=
        lt_of_lt_of_le (by omega : 2 ^ w - 1 - m < 2 ^ w) (Nat.pow_le_pow_right (by norm_num) (by omega))
      simp [Nat.testBit_lt_two_pow hlt]
  have hhigh : y % 2 ^ w &&& m = (BitVec.ofNat w y &&& BitVec.ofNat w m).toNat := by
    rw [BitVec.toNat_and, hM, BitVec.toNat_ofNat]
  have hdisjoint : (BitVec.ofNat w y &&& ~~~BitVec.ofNat w m) &&& (BitVec.ofNat w y &&& BitVec.ofNat w m) =
      0#w := by
    ext i
    simp only [BitVec.getElem_and, BitVec.getElem_not, BitVec.getElem_zero]
    cases (BitVec.ofNat w y)[i] <;> cases (BitVec.ofNat w m)[i] <;> rfl
  have hor : (BitVec.ofNat w y &&& ~~~BitVec.ofNat w m) ||| (BitVec.ofNat w y &&& BitVec.ofNat w m) =
      BitVec.ofNat w y := by
    ext i
    simp only [BitVec.getElem_or, BitVec.getElem_and, BitVec.getElem_not]
    cases (BitVec.ofNat w y)[i] <;> cases (BitVec.ofNat w m)[i] <;> rfl
  rw [hlow, hhigh, ← BitVec.toNat_add_of_and_eq_zero hdisjoint,
    BitVec.add_eq_or_of_and_eq_zero _ _ hdisjoint, hor, BitVec.toNat_ofNat]

/-! ## Rounding up -/

def roundUp (x b : ℕ) : ℕ := (x + b - 1) / b * b

theorem dvd_roundUp (x b : ℕ) : b ∣ roundUp x b := Dvd.intro_left _ rfl

theorem le_roundUp {x b : ℕ} (hb : 0 < b) : x ≤ roundUp x b := by
  have hdiv := Nat.div_add_mod' (x + b - 1) b
  have hmod := Nat.mod_lt (x + b - 1) hb
  rw [roundUp]
  omega

theorem roundUp_lt {x b : ℕ} (hb : 0 < b) : roundUp x b < x + b := by
  have hle := Nat.div_mul_le_self (x + b - 1) b
  rw [roundUp]
  omega

/-- The least multiple of `b` not below `x`. -/
theorem roundUp_le {x b m : ℕ} (hb : 0 < b) (hm : b ∣ m) (h : x ≤ m) : roundUp x b ≤ m := by
  obtain ⟨c, rfl⟩ := hm
  have hdiv : (x + b - 1) / b < c + 1 := by
    rw [Nat.div_lt_iff_lt_mul hb, Nat.add_mul, Nat.mul_comm c b]
    omega
  rw [roundUp, Nat.mul_comm b c]
  exact Nat.mul_le_mul_right b (by omega)

theorem roundUp_add_of_dvd {x b m : ℕ} (hb : 0 < b) (hm : b ∣ m) : roundUp (m + x) b = m + roundUp x b := by
  obtain ⟨c, rfl⟩ := hm
  have hsum : b * c + x + b - 1 = x + b - 1 + b * c := by omega
  rw [roundUp, hsum, Nat.add_mul_div_left _ _ hb, Nat.add_mul, Nat.add_comm, Nat.mul_comm c b, roundUp]

theorem roundUp_mono {x y b : ℕ} (h : x ≤ y) : roundUp x b ≤ roundUp y b :=
  Nat.mul_le_mul_right b (Nat.div_le_div_right (by omega))

theorem roundUp_mod (x : ℕ) {b : ℕ} (hb : 0 < b) :
    roundUp x b = if x % b = 0 then x else x + (b - x % b) := by
  have hdiv := Nat.div_add_mod x b
  have hmod := Nat.mod_lt x hb
  have hx : x = b * (x / b) + x % b := by omega
  split
  · next h =>
    rw [hx, h, Nat.add_zero]
    apply le_antisymm
    · exact roundUp_le hb (dvd_mul_right b _) (le_refl _)
    · exact le_roundUp hb
  · next h =>
    have hnext : x + (b - x % b) = b * (x / b + 1) := by rw [Nat.mul_add]; omega
    apply le_antisymm
    · rw [hnext]
      exact roundUp_le hb (dvd_mul_right b _) (by rw [Nat.mul_add]; omega)
    · obtain ⟨c, hc⟩ := dvd_roundUp x b
      have hle := le_roundUp (x := x) hb
      have hlt : x / b < c := by
        by_contra hge
        have hmul := Nat.mul_le_mul_left b (by omega : c ≤ x / b)
        omega
      have hmul := Nat.mul_le_mul_left b (by omega : x / b + 1 ≤ c)
      omega

theorem roundUp_isLeast (x : ℕ) {b : ℕ} (hb : 0 < b) : IsLeast {m | b ∣ m ∧ x ≤ m} (roundUp x b) :=
  ⟨⟨dvd_roundUp x b, le_roundUp hb⟩, fun _ hm => roundUp_le hb hm.1 hm.2⟩

/-- Rounding up with a mask gives the low bits of the rounded number, also where the sum wraps. -/
theorem mask_roundUp {w k : ℕ} (hk : k ≤ w) (n : ℕ) :
    (BitVec.ofNat w n + (BitVec.ofNat w (2 ^ k) - 1)) &&& ~~~(BitVec.ofNat w (2 ^ k) - 1) =
      BitVec.ofNat w (roundUp n (2 ^ k)) := by
  have hpos : 0 < 2 ^ k := Nat.two_pow_pos k
  have hle : 2 ^ k ≤ 2 ^ w := Nat.pow_le_pow_right (by omega) hk
  have hlow : BitVec.ofNat w (2 ^ k) - 1 = BitVec.ofNat w (2 ^ k - 1) := by
    rw [BitVec.sub_eq_iff_eq_add]
    have hone : (1 : BitVec w) = BitVec.ofNat w 1 := rfl
    rw [hone, ← BitVec.ofNat_add, Nat.sub_add_cancel hpos]
  obtain ⟨m, hm⟩ : ∃ m, 2 ^ k = m + 1 := ⟨2 ^ k - 1, by omega⟩
  have hsum : BitVec.ofNat w n + BitVec.ofNat w (2 ^ k - 1) = BitVec.ofNat w (n + m) := by
    rw [← BitVec.ofNat_add, hm, Nat.add_sub_cancel]
  have hnot : (~~~BitVec.ofNat w (2 ^ k - 1)).toNat = 2 ^ w - 1 - (2 ^ k - 1) := by
    rw [BitVec.toNat_not, BitVec.toNat_ofNat, Nat.mod_eq_of_lt (by omega)]
  have hclear := and_not_mask_add (by omega : 2 ^ k - 1 < 2 ^ w) ((n + m) % 2 ^ w)
  rw [Nat.mod_mod, Nat.and_two_pow_sub_one_eq_mod, Nat.mod_mod_of_dvd _ (Nat.pow_dvd_pow 2 hk)] at hclear
  have hround : roundUp n (2 ^ k) + (n + m) % 2 ^ k = n + m := by
    have hsub : n + 2 ^ k - 1 = n + m := by omega
    rw [roundUp, hsub]
    exact Nat.div_add_mod' _ _
  have hsplit := Nat.div_add_mod (n + m) (2 ^ w)
  have hlt : (n + m) % 2 ^ w < 2 ^ w := Nat.mod_lt _ (by omega)
  have hcleared : (n + m) % 2 ^ w &&& (2 ^ w - 1 - (2 ^ k - 1)) < 2 ^ w := by omega
  have heq : roundUp n (2 ^ k) =
      2 ^ w * ((n + m) / 2 ^ w) + ((n + m) % 2 ^ w &&& (2 ^ w - 1 - (2 ^ k - 1))) := by omega
  apply BitVec.eq_of_toNat_eq
  rw [hlow, hsum, BitVec.toNat_and, hnot, BitVec.toNat_ofNat, BitVec.toNat_ofNat, heq, Nat.mul_add_mod,
    Nat.mod_eq_of_lt hcleared]

end Neufbox.WrapArith
