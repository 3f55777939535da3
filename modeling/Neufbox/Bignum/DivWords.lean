import Neufbox.Bignum.Shift

/-! # Division of two words by one

`bn_div_words` of `bn_asm.c` in `package/ead/src/tinysrp`, where no long long division is at hand: the divisor is
moved up until its top bit is set, and two digits of half a word are found one after the other, each
estimated from the upper half of the divisor and corrected. -/
namespace Neufbox.Bignum
open Radix
set_option autoImplicit false
set_option maxHeartbeats 250000
set_option maxRecDepth 120000

section Model
variable (z : WordSize)

/-- A difference of words. -/
def wordSub (x y : ℕ) : ℕ := (x + z.base - y) % z.base

/-- The inner loop of `bn_div_words`: the digit goes down, and its products `th` and `tl` with it, until they fit. -/
def digitLoop (dh dl h l : ℕ) : ℕ → ℕ → ℕ → ℕ × ℕ × ℕ
  | 0, th, tl => (0, th, tl)
  | q + 1, th, tl =>
    if wordSub z h th ≥ z.half ∨ tl ≤ (wordSub z h th * z.half % z.base ||| l / z.half) then (q + 1, th, tl)
    else digitLoop dh dl h l q (wordSub z th dh) (wordSub z tl dl)

/-- One turn of the outer loop: the digit and what is left of `h` and `l`. -/
def digit (d dh dl h l : ℕ) : ℕ × ℕ × ℕ :=
  let q := if h / z.half = dh then z.half - 1 else h / dh
  let r := digitLoop z dh dl h l q (q * dh % z.base) (dl * q % z.base)
  let tl := r.2.2 * z.half % z.base
  let th := (r.2.1 + r.2.2 / z.half + if l < tl then 1 else 0) % z.base
  if h < th then (wordSub z r.1 1, wordSub z ((h + d) % z.base) th, wordSub z l tl)
  else (r.1, wordSub z h th, wordSub z l tl)

/-- Both turns, for a divisor with its top bit set. -/
def divNormal (h l d : ℕ) : ℕ :=
  let s := digit z d (d / z.half) (d % z.half) h l
  let t := digit z d (d / z.half) (d % z.half) (s.2.1 * z.half % z.base ||| s.2.2 / z.half) (s.2.2 % z.half * z.half)
  s.1 * z.half % z.base ||| t.1

def bnDivWords (h l d : ℕ) : ℕ :=
  if d = 0 then z.base - 1
  else
    let i := z.bits2 - bnNumBitsWord z d
    let h := if h ≥ d then h - d else h
    if i = 0 then divNormal z h l d
    else divNormal z (h <<< i % z.base ||| l >>> (z.bits2 - i)) (l <<< i % z.base) (d <<< i % z.base)

end Model

section Specs
variable {z : WordSize}

theorem wordSub_eq {x y : ℕ} (hx : x < z.base) (hle : y ≤ x) : wordSub z x y = x - y := by
  rw [wordSub, show x + z.base - y = x - y + z.base from by omega, Nat.add_mod_right, Nat.mod_eq_of_lt (by omega)]

theorem wordSub_wrap {x y : ℕ} (hlt : x < y) (hy : y < z.base) : wordSub z x y = x + z.base - y := by
  rw [wordSub, Nat.mod_eq_of_lt (by omega)]

theorem WordSize.div_half_lt {l : ℕ} (hl : l < z.base) : l / z.half < z.half :=
  Nat.div_lt_of_lt_mul (by rwa [← z.base_eq])

theorem half_mul_lt {x : ℕ} (hx : x < z.half) : x * z.half < z.base := by
  rw [z.base_eq]
  exact Nat.mul_lt_mul_of_pos_right hx z.half_pos

/-- Two halves make a word. -/
theorem word_or {x y : ℕ} (hx : x < z.half) (hy : y < z.half) : x * z.half % z.base ||| y = x * z.half + y := by
  rw [Nat.mod_eq_of_lt (half_mul_lt hx), Nat.mul_comm]
  exact (Nat.two_pow_add_eq_or_of_lt hy x).symm

/-- The test of the inner loop is whether the product fits. -/
theorem digit_test {dh dl h l q : ℕ} (hdl : dl < z.half) (hq : q < z.half) (hth : q * dh ≤ h) (hh : h < z.base)
    (hl : l < z.base) :
    (wordSub z h (q * dh) ≥ z.half ∨ dl * q ≤ (wordSub z h (q * dh) * z.half % z.base ||| l / z.half)) ↔
      q * (dh * z.half + dl) ≤ h * z.half + l / z.half := by
  rw [wordSub_eq hh hth]
  obtain ⟨t, rfl⟩ := Nat.exists_eq_add_of_le hth
  rw [Nat.add_sub_cancel_left]
  have hexpand : q * (dh * z.half + dl) = q * dh * z.half + dl * q := by ring
  have hexpand' : (q * dh + t) * z.half = q * dh * z.half + t * z.half := by ring
  rw [hexpand, hexpand']
  have htl := mul_half_lt hdl hq
  rw [z.base_eq] at htl
  have hlh := WordSize.div_half_lt hl
  generalize l / z.half = c at *
  rcases Nat.lt_or_ge t z.half with ht | ht
  · rw [word_or ht hlh, or_iff_right (by omega)]
    omega
  · have hmul : z.half * z.half ≤ t * z.half := Nat.mul_le_mul_right _ ht
    exact iff_of_true (Or.inl ht) (by omega)

theorem digitLoop_spec {dh dl h l q : ℕ} (hdl : dl < z.half) (hq : q < z.half) (hth : q * dh ≤ h)
    (hh : h < z.base) (hl : l < z.base) (hd : 0 < dh * z.half + dl)
    (hle : (h * z.half + l / z.half) / (dh * z.half + dl) ≤ q) :
    digitLoop z dh dl h l q (q * dh) (dl * q) =
      ((h * z.half + l / z.half) / (dh * z.half + dl), (h * z.half + l / z.half) / (dh * z.half + dl) * dh,
        dl * ((h * z.half + l / z.half) / (dh * z.half + dl))) := by
  induction q with
  | zero =>
    rw [Nat.le_zero.mp hle, digitLoop]
  | succ q ih =>
    rw [digitLoop]
    by_cases hfits : (q + 1) * (dh * z.half + dl) ≤ h * z.half + l / z.half
    · rw [if_pos ((digit_test hdl hq hth hh hl).mpr hfits)]
      have heq : (h * z.half + l / z.half) / (dh * z.half + dl) = q + 1 :=
        Nat.le_antisymm hle ((Nat.le_div_iff_mul_le hd).mpr hfits)
      rw [heq]
    · rw [if_neg fun h => hfits ((digit_test hdl hq hth hh hl).mp h)]
      have hlt : (h * z.half + l / z.half) / (dh * z.half + dl) < q + 1 :=
        (Nat.div_lt_iff_lt_mul hd).mpr (Nat.lt_of_not_le hfits)
      have hdown : (q + 1) * dh = q * dh + dh := by ring
      have hdown' : dl * (q + 1) = dl * q + dl := by ring
      have hlow : dl * (q + 1) < z.base := mul_half_lt hdl hq
      rw [wordSub_eq (by omega) (by omega), wordSub_eq hlow (by omega), hdown, hdown', Nat.add_sub_cancel,
        Nat.add_sub_cancel]
      exact ih (by omega) (by omega) (by omega)

/-- The first estimate of a digit is not too small, and its product with the upper half is no more than `h`. -/
theorem estimate_spec {d h : ℕ} (htop : 0 < d / z.half) (hh : h < d) {c : ℕ} (hc : c < z.half) :
    (if h / z.half = d / z.half then z.half - 1 else h / (d / z.half)) < z.half ∧
    (if h / z.half = d / z.half then z.half - 1 else h / (d / z.half)) * (d / z.half) ≤ h ∧
    (h * z.half + c) / d ≤ if h / z.half = d / z.half then z.half - 1 else h / (d / z.half) := by
  have hpos := z.half_pos
  have hhd : h / z.half ≤ d / z.half := Nat.div_le_div_right hh.le
  have hN : h * z.half + c < (h + 1) * z.half := digits_lt hc (Nat.lt_succ_self h)
  have hquot : (h * z.half + c) / d < z.half := by
    refine (Nat.div_lt_iff_lt_mul (by omega)).mpr (hN.trans_le ?_)
    rw [Nat.mul_comm z.half]
    exact Nat.mul_le_mul_right _ hh
  split
  · next heq =>
    refine ⟨by omega, ?_, by omega⟩
    calc (z.half - 1) * (d / z.half) ≤ z.half * (d / z.half) := Nat.mul_le_mul_right _ (Nat.sub_le _ _)
      _ = z.half * (h / z.half) := by rw [heq]
      _ ≤ h := Nat.mul_div_le h z.half
  · next hne =>
    have hlt : h / z.half < d / z.half := Nat.lt_of_le_of_ne hhd hne
    refine ⟨(Nat.div_lt_iff_lt_mul htop).mpr ?_, Nat.div_mul_le_self _ _, ?_⟩
    · rw [Nat.mul_comm]
      exact (Nat.div_lt_iff_lt_mul hpos).mp hlt
    · refine (Nat.le_div_iff_mul_le htop).mpr (Nat.le_of_lt_succ ?_)
      refine Nat.lt_of_mul_lt_mul_right (a := z.half) (lt_of_le_of_lt ?_ hN)
      calc (h * z.half + c) / d * (d / z.half) * z.half = (h * z.half + c) / d * (d / z.half * z.half) :=
            Nat.mul_assoc _ _ _
        _ ≤ (h * z.half + c) / d * d := Nat.mul_le_mul_left _ (Nat.div_mul_le_self d z.half)
        _ ≤ h * z.half + c := Nat.div_mul_le_self _ _

/-- Taking `t` words and `u` from two words that hold as much borrows once at most. -/
theorem take_words {h l t u r : ℕ} (hh : h < z.base) (hl : l < z.base) (hu : u < z.base)
    (heq : t * z.base + u + r = h * z.base + l) :
    (t + if l < u then 1 else 0) ≤ h ∧
      z.base * wordSub z h (t + if l < u then 1 else 0) + wordSub z l u = r := by
  split
  · next hlt =>
    have hle : t + 1 ≤ h := by
      by_contra hgt
      have hmul : h * z.base ≤ t * z.base := Nat.mul_le_mul_right _ (by omega)
      omega
    obtain ⟨n, rfl⟩ := Nat.exists_eq_add_of_le hle
    rw [wordSub_eq hh hle, wordSub_wrap hlt hu, Nat.add_sub_cancel_left]
    refine ⟨hle, ?_⟩
    have hexpand : (t + 1 + n) * z.base = t * z.base + z.base + z.base * n := by ring
    omega
  · next hge =>
    have hle : t ≤ h := by
      by_contra hgt
      have hmul : (h + 1) * z.base ≤ t * z.base := Nat.mul_le_mul_right _ (by omega)
      rw [Nat.add_mul, Nat.one_mul] at hmul
      omega
    obtain ⟨n, rfl⟩ := Nat.exists_eq_add_of_le hle
    rw [Nat.add_zero, wordSub_eq hh hle, wordSub_eq hl (Nat.le_of_not_lt hge), Nat.add_sub_cancel_left]
    refine ⟨hle, ?_⟩
    have hexpand : (t + n) * z.base = t * z.base + z.base * n := by ring
    omega

/-- One turn finds the next digit of the quotient and leaves the remainder, with the lower half of `l` behind it. -/
theorem digit_spec {d h l : ℕ} (hd : d < z.base) (htop : 0 < d / z.half) (hh : h < d) (hl : l < z.base) :
    (digit z d (d / z.half) (d % z.half) h l).1 = (h * z.half + l / z.half) / d ∧
    (digit z d (d / z.half) (d % z.half) h l).1 < z.half ∧
    (digit z d (d / z.half) (d % z.half) h l).2.2 < z.base ∧
    z.base * (digit z d (d / z.half) (d % z.half) h l).2.1 + (digit z d (d / z.half) (d % z.half) h l).2.2 =
      (h * z.half + l / z.half) % d * z.half + l % z.half := by
  have hbase := z.base_eq
  have hdl : d % z.half < z.half := Nat.mod_lt _ z.half_pos
  have hhlt : h < z.base := hh.trans hd
  have hlh := WordSize.div_half_lt hl
  have hdsplit : d / z.half * z.half + d % z.half = d := Nat.div_add_mod' d z.half
  have hlsplit : l / z.half * z.half + l % z.half = l := Nat.div_add_mod' l z.half
  obtain ⟨hq, hqh, hqle⟩ := estimate_spec htop hh hlh
  have hloop := digitLoop_spec hdl hq hqh hhlt hl (by omega) (by rwa [hdsplit])
  rw [hdsplit] at hloop
  have hQsplit : (h * z.half + l / z.half) / d * d + (h * z.half + l / z.half) % d = h * z.half + l / z.half :=
    Nat.div_add_mod' _ _
  have hQ : (h * z.half + l / z.half) / d < z.half := hqle.trans_lt hq
  rw [digit]
  generalize (if h / z.half = d / z.half then z.half - 1 else h / (d / z.half)) = q at *
  have hqlow : d % z.half * q < z.base := mul_half_lt hdl hq
  rw [Nat.mod_eq_of_lt (hqh.trans_lt hhlt), Nat.mod_eq_of_lt hqlow, hloop]
  dsimp only
  generalize hQdef : (h * z.half + l / z.half) / d = Q at *
  generalize (h * z.half + l / z.half) % d = R at *
  -- the product as words
  have hshift : d % z.half * Q * z.half % z.base = d % z.half * Q % z.half * z.half := by
    rw [hbase, Nat.mul_mod_mul_right]
  have hprod : d % z.half * Q / z.half * z.half + d % z.half * Q % z.half = d % z.half * Q := Nat.div_add_mod' _ _
  have hu : d % z.half * Q % z.half * z.half < z.base := half_mul_lt (Nat.mod_lt _ z.half_pos)
  have heq : (Q * (d / z.half) + d % z.half * Q / z.half) * z.base + d % z.half * Q % z.half * z.half +
      (R * z.half + l % z.half) = h * z.base + l := by
    have hwhole : (Q * (d / z.half) + d % z.half * Q / z.half) * z.base + d % z.half * Q % z.half * z.half =
        Q * d * z.half := by
      calc _ = Q * (d / z.half * z.half) * z.half +
            (d % z.half * Q / z.half * z.half + d % z.half * Q % z.half) * z.half := by rw [hbase]; ring
        _ = Q * (d / z.half * z.half + d % z.half) * z.half := by rw [hprod]; ring
        _ = Q * d * z.half := by rw [hdsplit]
    rw [hwhole]
    calc Q * d * z.half + (R * z.half + l % z.half) = (Q * d + R) * z.half + l % z.half := by ring
      _ = h * (z.half * z.half) + (l / z.half * z.half + l % z.half) := by rw [hQsplit]; ring
      _ = h * z.base + l := by rw [hlsplit, hbase]
  obtain ⟨hle, hrest⟩ := take_words hhlt hl hu heq
  rw [hshift, Nat.mod_eq_of_lt (hle.trans_lt hhlt), if_neg hle.not_gt]
  exact ⟨rfl, hQ, Nat.mod_lt _ z.base_pos, hrest⟩

/-- For a divisor with its top bit set, both digits together are the quotient. -/
theorem divNormal_eq {h l d : ℕ} (hd : d < z.base) (htop : 0 < d / z.half) (hh : h < d) (hl : l < z.base) :
    divNormal z h l d = (h * z.base + l) / d := by
  obtain ⟨hq, hqlt, hlow, hrest⟩ := digit_spec hd htop hh hl
  have hbase := z.base_eq
  have hlm : l % z.half < z.half := Nat.mod_lt _ z.half_pos
  have hdpos : 0 < d := by omega
  rw [divNormal]
  generalize digit z d (d / z.half) (d % z.half) h l = s at *
  have hRlt : (h * z.half + l / z.half) % d < d := Nat.mod_lt _ hdpos
  -- what is left, as the next two words
  have hnext : s.2.1 * z.half + s.2.2 / z.half = (h * z.half + l / z.half) % d := by
    have hdiv := congrArg (· / z.half) hrest
    rw [Nat.add_comm (_ * z.half), Nat.add_mul_div_right _ _ z.half_pos, Nat.div_eq_of_lt hlm, Nat.zero_add, hbase,
      Nat.mul_assoc, Nat.add_comm, Nat.add_mul_div_left _ _ z.half_pos] at hdiv
    rw [← hdiv]
    ring
  have hmod : s.2.2 % z.half = l % z.half := by
    have hm := congrArg (· % z.half) hrest
    rw [Nat.add_comm (_ * z.half), Nat.add_mul_mod_self_right, Nat.mod_mod, hbase, Nat.mul_assoc, Nat.add_comm,
      Nat.add_mul_mod_self_left] at hm
    exact hm
  have hhigh : s.2.1 < z.half := by
    by_contra hge
    have hmul : z.half * z.half ≤ s.2.1 * z.half := Nat.mul_le_mul_right _ (Nat.le_of_not_lt hge)
    have hle : s.2.1 * z.half ≤ (h * z.half + l / z.half) % d := (Nat.le_add_right _ _).trans hnext.le
    omega
  have hlast : l % z.half * z.half < z.base := half_mul_lt hlm
  obtain ⟨hq2, hq2lt, -, -⟩ := digit_spec hd htop hRlt hlast
  rw [Nat.mul_div_cancel _ z.half_pos] at hq2
  rw [word_or hhigh (WordSize.div_half_lt hlow), hnext, hmod, word_or hqlt hq2lt, hq2, hq]
  -- the quotient by digits
  have hsplit := Nat.div_add_mod (h * z.half + l / z.half) d
  have hlsplit := Nat.div_add_mod' l z.half
  have hwhole : h * z.base + l = ((h * z.half + l / z.half) % d * z.half + l % z.half) +
      d * (z.half * ((h * z.half + l / z.half) / d)) := by
    calc h * z.base + l = (h * z.half + l / z.half) * z.half + l % z.half := by
          rw [hbase]
          nth_rewrite 1 [← hlsplit]
          ring
      _ = (d * ((h * z.half + l / z.half) / d) + (h * z.half + l / z.half) % d) * z.half + l % z.half := by rw [hsplit]
      _ = _ := by ring
  rw [hwhole, Nat.add_mul_div_left _ _ hdpos, Nat.add_comm, Nat.mul_comm z.half]

/-- A divisor and the two words above it, moved up by the same bits. -/
theorem divNormal_shift {h l d i : ℕ} (hi : i ≤ z.bits2) (hd : d * 2 ^ i < z.base) (htop : 0 < d * 2 ^ i / z.half)
    (hh : h < d) (hl : l < z.base) :
    divNormal z (h <<< i % z.base ||| l >>> (z.bits2 - i)) (l <<< i % z.base) (d <<< i % z.base) =
      (h * z.base + l) / d := by
  have hpos : 0 < 2 ^ i := Nat.two_pow_pos i
  have hcarry : l * 2 ^ i / z.base < 2 ^ i := by
    refine Nat.div_lt_of_lt_mul ?_
    exact Nat.mul_lt_mul_of_pos_right hl hpos
  have hup := digits_lt hcarry hh
  rw [shift_high hi, shift_or hi hcarry, Nat.shiftLeft_eq, Nat.shiftLeft_eq, Nat.mod_eq_of_lt hd,
    Nat.mod_eq_of_lt ((Nat.le_add_right _ _).trans_lt (hup.trans hd)),
    divNormal_eq hd htop hup (Nat.mod_lt _ z.base_pos)]
  have hwords : (h * 2 ^ i + l * 2 ^ i / z.base) * z.base + l * 2 ^ i % z.base = (h * z.base + l) * 2 ^ i := by
    calc _ = h * 2 ^ i * z.base + (l * 2 ^ i / z.base * z.base + l * 2 ^ i % z.base) := by ring
      _ = h * 2 ^ i * z.base + l * 2 ^ i := by rw [Nat.div_add_mod']
      _ = (h * z.base + l) * 2 ^ i := by ring
  rw [hwords, Nat.mul_div_mul_right _ _ hpos]

/-- `bn_div_words` is the quotient of the two words where it is a word. -/
theorem bnDivWords_eq {h l d : ℕ} (hd : d < z.base) (hh : h < d) (hl : l < z.base) :
    bnDivWords z h l d = (h * z.base + l) / d := by
  have hsize : Nat.size d ≤ z.bits2 := Nat.size_le.mpr hd
  have hspos : 0 < Nat.size d := Nat.size_pos.mpr (by omega)
  have hlow : 2 ^ (Nat.size d - 1) ≤ d := Nat.lt_size.mp (Nat.sub_lt hspos Nat.one_pos)
  have hup : d * 2 ^ (z.bits2 - Nat.size d) < z.base := by
    calc d * 2 ^ (z.bits2 - Nat.size d) < 2 ^ Nat.size d * 2 ^ (z.bits2 - Nat.size d) :=
          Nat.mul_lt_mul_of_pos_right (Nat.lt_size_self d) (Nat.two_pow_pos _)
      _ = z.base := (base_split hsize).symm
  -- the top bit is above the lower half
  have htop : 0 < d * 2 ^ (z.bits2 - Nat.size d) / z.half := by
    refine Nat.div_pos ?_ z.half_pos
    calc z.half ≤ 2 ^ (Nat.size d - 1 + (z.bits2 - Nat.size d)) := by
          refine Nat.pow_le_pow_right (by norm_num) ?_
          have hbits : z.bits4 + 1 ≤ z.bits2 := by cases z <;> decide
          omega
      _ = 2 ^ (Nat.size d - 1) * 2 ^ (z.bits2 - Nat.size d) := pow_add _ _ _
      _ ≤ d * 2 ^ (z.bits2 - Nat.size d) := Nat.mul_le_mul_right _ hlow
  rw [bnDivWords, if_neg (by omega)]
  dsimp only
  rw [if_neg hh.not_ge, bnNumBitsWord_eq hd]
  split
  · next hzero =>
    rw [hzero, pow_zero, Nat.mul_one] at htop
    exact divNormal_eq hd htop hh hl
  · exact divNormal_shift (Nat.sub_le _ _) hup htop hh hl

end Specs

end Neufbox.Bignum
