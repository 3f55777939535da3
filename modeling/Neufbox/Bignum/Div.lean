import Neufbox.Bignum.DivWords

/-! # Division of the big numbers

`BN_div` and `BN_mod` of `bn_div.c` in `package/ead/src/tinysrp`. Both numbers are moved up until the divisor has its
top bit set; a window as wide as the divisor goes down over the other, and each word of the quotient
is estimated from the top words of both, at most one too large. The words of the window above its top
are zeros in memory, so they are read as zeros here. -/
namespace Neufbox.Bignum
open Radix
set_option autoImplicit false
set_option maxHeartbeats 250000
set_option maxRecDepth 120000

section Model
variable (z : WordSize)

/-- `BN_sub` on the window, and `BN_add` where the signs differ: the words of the difference, and whether it is below
zero. The one with more words is the first for `BN_usub`, which cannot fail then. -/
def windowSub (a b : List ℕ) : List ℕ × Bool :=
  if ucmpWords a b < 0 then (fixTop (usubWords z b a), true) else (fixTop (usubWords z a b), false)

/-- The loop that lowers the estimate `q`; `t2h` and `t2l` are its product with `d1`. -/
def estimateLoop (d0 d1 n2 : ℕ) : ℕ → ℕ → ℕ → ℕ → ℕ
  | 0, _, _, _ => 0
  | q + 1, rem, t2h, t2l =>
    if t2h < rem ∨ t2h = rem ∧ t2l ≤ n2 then q + 1
    else
      let rem := (rem + d0) % z.base
      if rem < d0 then q
      else estimateLoop d0 d1 n2 q rem (if t2l < d1 then wordSub z t2h 1 else t2h) (wordSub z t2l d1)

def estimate (d0 d1 n0 n1 n2 : ℕ) : ℕ :=
  if n0 = d0 then z.base - 1
  else
    let q := bnDivWords z n0 n1 d0
    let t2 := mul64 z (lbits z d1) (hbits z d1) (lbits z q) (hbits z q)
    estimateLoop z d0 d1 n2 q (wordSub z n1 (q * d0 % z.base)) t2.2 t2.1

/-- One turn of `BN_div`: the word `x` below the window `w` comes into it, `y` is the next one down. `none` would be a
window that stays below zero when the divisor `v` is added back. -/
def divStep (v w : List ℕ) (x y : ℕ) : Option (ℕ × List ℕ) :=
  let n := v.length
  let q := estimate z (v.getD (n - 1) 0) (if n = 1 then 0 else v.getD (n - 2) 0) (w.getD (n - 1) 0)
    ((x :: w).getD (n - 1) 0) ((y :: x :: w).getD (n - 1) 0)
  let p := bnMulWords z v q
  let r := windowSub z (x :: w) (fixTop (p.1 ++ [p.2]))
  if r.2 then
    let s := windowSub z v r.1
    if s.2 then none else some (wordSub z q 1, s.1)
  else some (q, r.1)

/-- The turns over the words below the window, the upper ones first; the last word does not come into it. -/
def divLoop (v : List ℕ) : List ℕ → List ℕ → Option (List ℕ × List ℕ)
  | x :: y :: low, w =>
    (divStep z v w x y).bind fun s => (divLoop v (y :: low) s.2).map fun t => (t.1 ++ [s.1], t.2)
  | _, w => some ([], w)

end Model

/-- `BN_div`: the words and the sign of the quotient and of the remainder, as they are left. -/
def bnDiv {z : WordSize} (num divisor : BigNum z) : Option ((List ℕ × Bool) × (List ℕ × Bool)) :=
  if divisor.isZero then none
  else if bnUcmp num divisor < 0 then some (([], false), (num.d, num.neg))
  else
    let normShift := z.bits2 - divisor.numBits % z.bits2
    let sdiv := bnLshift divisor normShift
    let snum := bnLshift num (normShift + z.bits2)
    let loop := snum.top - sdiv.top
    let wnum := snum.d.drop loop
    let first := ucmpWords wnum sdiv.d ≥ 0
    let wnum := if first then fixTop (usubWords z wnum sdiv.d) else wnum
    (divLoop z sdiv.d (snum.d.take loop).reverse wnum).map fun t =>
      ((t.1 ++ (if first then [1] else []), num.neg ^^ divisor.neg),
        (fixTop (rshiftWords z (snum.d.take 1 ++ t.2) (normShift + z.bits2)), num.neg))

/-- `BN_mod`. -/
def bnMod {z : WordSize} (m d : BigNum z) : Option (List ℕ × Bool) := (bnDiv m d).map Prod.snd

section Specs
variable {z : WordSize}

/-! ## One word of the quotient -/

theorem base_even (z : WordSize) : ∃ m, z.base = 2 * m :=
  ⟨2 ^ (z.bits2 - 1), by rw [WordSize.base, ← pow_succ', Nat.sub_add_cancel z.bits2_pos]⟩

theorem wordSub_mod {a s r : ℕ} (h : a = s + r) (hr : r < z.base) : wordSub z (a % z.base) (s % z.base) = r := by
  have hs : s % z.base < z.base := Nat.mod_lt _ z.base_pos
  rw [h, Nat.add_mod, Nat.mod_eq_of_lt hr, wordSub]
  generalize s % z.base = t at *
  rcases Nat.lt_or_ge (t + r) z.base with hlt | hge
  · rw [Nat.mod_eq_of_lt hlt, show t + r + z.base - t = r + z.base from by omega, Nat.add_mod_right, Nat.mod_eq_of_lt hr]
  · rw [Nat.mod_eq_sub_mod hge, Nat.mod_eq_of_lt (by omega : t + r - z.base < z.base),
      show t + r - z.base + z.base - t = r from by omega, Nat.mod_eq_of_lt hr]

theorem estimateLoop_spec {d0 d1 n n2 q rem t2h t2l : ℕ} (hd0 : d0 < z.base) (hd1 : d1 < z.base) (hpos : 0 < d0)
    (hn2 : n2 < z.base) (hq : q < z.base) (hrem : rem < z.base) (hn : q * d0 + rem = n)
    (ht : t2h * z.base + t2l = d1 * q)
    (hth : t2h < z.base) (htl : t2l < z.base) (hle : (n * z.base + n2) / (d0 * z.base + d1) ≤ q) :
    estimateLoop z d0 d1 n2 q rem t2h t2l = (n * z.base + n2) / (d0 * z.base + d1) := by
  have hone := z.one_lt_base
  have hdpos : 0 < d0 * z.base + d1 := Nat.add_pos_left (Nat.mul_pos hpos z.base_pos) _
  induction q generalizing rem t2h t2l with
  | zero => rw [Nat.le_zero.mp hle, estimateLoop]
  | succ q ih =>
    have htest : t2h < rem ∨ t2h = rem ∧ t2l ≤ n2 ↔ (q + 1) * (d0 * z.base + d1) ≤ n * z.base + n2 := by
      rw [two_digits_le htl hn2, ht, ← hn]
      have hexpand : (q + 1) * (d0 * z.base + d1) = (q + 1) * d0 * z.base + d1 * (q + 1) := by ring
      rw [hexpand, Nat.add_mul _ rem]
      omega
    rw [estimateLoop]
    by_cases hfits : (q + 1) * (d0 * z.base + d1) ≤ n * z.base + n2
    · rw [if_pos (htest.mpr hfits)]
      exact (Nat.le_antisymm hle ((Nat.le_div_iff_mul_le hdpos).mpr hfits)).symm
    · rw [if_neg fun h => hfits (htest.mp h)]
      have hlt : (n * z.base + n2) / (d0 * z.base + d1) < q + 1 :=
        (Nat.div_lt_iff_lt_mul hdpos).mpr (Nat.lt_of_not_le hfits)
      have hn' : q * d0 + (rem + d0) = n := by
        rw [← hn]
        ring
      dsimp only
      rcases Nat.lt_or_ge (rem + d0) z.base with hsmall | hbig
      · rw [Nat.mod_eq_of_lt hsmall, if_neg (Nat.le_add_left _ _).not_gt]
        have hdown : d1 * (q + 1) = d1 * q + d1 := by ring
        rw [hdown] at ht
        by_cases hborrow : t2l < d1
        · have hthpos : 1 ≤ t2h := by
            by_contra hzero
            rw [Nat.lt_one_iff.mp (Nat.lt_of_not_le hzero), Nat.zero_mul] at ht
            omega
          obtain ⟨m, rfl⟩ := Nat.exists_eq_add_of_le' hthpos
          rw [if_pos hborrow, wordSub_eq hth hthpos, wordSub_wrap hborrow hd1, Nat.add_sub_cancel]
          rw [Nat.add_mul, Nat.one_mul] at ht
          exact ih (by omega) hsmall hn' (by omega) (by omega) (by omega) (by omega)
        · rw [if_neg hborrow, wordSub_eq htl (Nat.le_of_not_lt hborrow)]
          exact ih (by omega) hsmall hn' (by omega) hth (by omega) (by omega)
      · -- the remainder is two words, and the product fits
        rw [Nat.mod_eq_sub_mod hbig, Nat.mod_eq_of_lt (by omega), if_pos (by omega)]
        refine (Nat.le_antisymm (Nat.le_of_lt_succ hlt) ((Nat.le_div_iff_mul_le hdpos).mpr ?_)).symm
        have hmul : q * d1 ≤ z.base * z.base := Nat.mul_le_mul (by omega) hd1.le
        calc q * (d0 * z.base + d1) = q * d0 * z.base + q * d1 := by ring
          _ ≤ q * d0 * z.base + (rem + d0) * z.base := Nat.add_le_add_left (hmul.trans (Nat.mul_le_mul_right _ hbig)) _
          _ = n * z.base := by rw [← hn']; ring
          _ ≤ n * z.base + n2 := Nat.le_add_right _ _

/-- The estimate is the quotient of the top words. -/
theorem estimate_eq {d0 d1 n0 n1 n2 : ℕ} (hd0 : d0 < z.base) (hd1 : d1 < z.base) (hn1 : n1 < z.base) (hn2 : n2 < z.base)
    (hlt : n0 < d0) :
    estimate z d0 d1 n0 n1 n2 = ((n0 * z.base + n1) * z.base + n2) / (d0 * z.base + d1) := by
  have hpos : 0 < d0 := by omega
  rw [estimate, if_neg hlt.ne]
  dsimp only
  rw [bnDivWords_eq hd0 hlt hn1]
  have hq : (n0 * z.base + n1) / d0 < z.base := by
    refine (Nat.div_lt_iff_lt_mul hpos).mpr ?_
    rw [Nat.mul_comm z.base]
    exact digits_lt hn1 hlt
  have hrem : (n0 * z.base + n1) % d0 < d0 := Nat.mod_lt _ hpos
  have hsplit : n0 * z.base + n1 = (n0 * z.base + n1) / d0 * d0 + (n0 * z.base + n1) % d0 := (Nat.div_add_mod' _ _).symm
  have hword := wordSub_mod hsplit (hrem.trans hd0)
  rw [Nat.add_comm, Nat.add_mul_mod_self_right, Nat.mod_eq_of_lt hn1, Nat.add_comm n1] at hword
  rw [hword, mul64_halves hd1 hq]
  refine estimateLoop_spec hd0 hd1 hpos hn2 hq (hrem.trans hd0) hsplit.symm (Nat.div_add_mod' _ _) ?_
    (Nat.mod_lt _ z.base_pos) ?_
  · exact Nat.div_lt_of_lt_mul (Nat.mul_lt_mul'' hd1 hq)
  · calc ((n0 * z.base + n1) * z.base + n2) / (d0 * z.base + d1) ≤ ((n0 * z.base + n1) * z.base + n2) / (d0 * z.base) :=
          Nat.div_le_div_left (Nat.le_add_right _ _) (Nat.mul_pos hpos z.base_pos)
      _ = (n0 * z.base + n1) / d0 := by
          rw [Nat.mul_comm d0, ← Nat.div_div_eq_div_mul, Nat.add_comm, Nat.add_mul_div_right _ _ z.base_pos,
            Nat.div_eq_of_lt hn2, Nat.zero_add]

/-- The estimate from the top words is the next word of the quotient, or one more. -/
theorem estimate_window {v w : List ℕ} {x y : ℕ} (hv : Small z.base v) (hvpos : 0 < v.length)
    (hnorm : z.base ^ v.length ≤ 2 * Nat.ofDigits z.base v) (hw : Small z.base w)
    (hlt : Nat.ofDigits z.base w < Nat.ofDigits z.base v) (hx : x < z.base) (hy : y < z.base) {q : ℕ}
    (hq : q = estimate z (v.getD (v.length - 1) 0) (if v.length = 1 then 0 else v.getD (v.length - 2) 0)
      (w.getD (v.length - 1) 0) ((x :: w).getD (v.length - 1) 0) ((y :: x :: w).getD (v.length - 1) 0)) :
    q < z.base ∧ (x + z.base * Nat.ofDigits z.base w) / Nat.ofDigits z.base v ≤ q ∧
      q ≤ (x + z.base * Nat.ofDigits z.base w) / Nat.ofDigits z.base v + 1 ∧
      (x + z.base * Nat.ofDigits z.base w = 0 → q = 0) := by
  have hbase := z.base_pos
  obtain ⟨n, hn⟩ : ∃ n, v.length = n + 1 := ⟨v.length - 1, by omega⟩
  have hvlt := hv.lt z.one_lt_base
  have hxw : Small z.base (x :: w) := small_cons.mpr ⟨hx, hw⟩
  have hyxw : Small z.base (y :: x :: w) := small_cons.mpr ⟨hy, hxw⟩
  have hd1 : (if v.length = 1 then 0 else v.getD (v.length - 2) 0) = (0 :: v).getD (v.length - 1) 0 := by
    rw [hn, Nat.add_sub_cancel]
    cases n with
    | zero => rfl
    | succ n => rw [if_neg (by omega), List.getD_cons_succ, show n + 1 + 1 - 2 = n from by omega]
  rw [hd1, getD_eq_div hbase hv, getD_eq_div hbase hw, getD_eq_div hbase (small_cons.mpr ⟨hbase, hv⟩),
    getD_eq_div hbase hxw, getD_eq_div hbase hyxw, Nat.ofDigits_cons, Nat.ofDigits_cons, Nat.ofDigits_cons,
    Nat.ofDigits_cons, hn, Nat.add_sub_cancel] at hq
  rw [hn, pow_succ] at hvlt hnorm
  have he : 0 < z.base ^ n := Nat.pow_pos hbase
  generalize z.base ^ n = e at *
  generalize Nat.ofDigits z.base v = V at *
  generalize Nat.ofDigits z.base w = W at *
  have hVe : V / e < z.base := Nat.div_lt_of_lt_mul hvlt
  have hWe : W / e ≤ V / e := Nat.div_le_div_right hlt.le
  rw [Nat.mod_eq_of_lt hVe, Nat.mod_eq_of_lt (hWe.trans_lt hVe)] at hq
  -- the divisor with its top bit set
  have hVup : V < (V / e + 1) * e := Nat.lt_mul_of_div_lt (Nat.lt_succ_self _) he
  have htop : z.base ≤ 2 * (V / e) := by
    have hmul : e * z.base < e * (2 * (V / e + 1)) := by
      calc e * z.base ≤ 2 * V := hnorm
        _ < 2 * ((V / e + 1) * e) := by omega
        _ = e * (2 * (V / e + 1)) := by ring
    have hlt' := Nat.lt_of_mul_lt_mul_left hmul
    obtain ⟨m, hm⟩ := base_even z
    omega
  have hone := z.one_lt_base
  have hU := cons_lt hx hlt
  have hVpos : 0 < V := by omega
  have hquot : (x + z.base * W) / V < z.base := (Nat.div_lt_iff_lt_mul hVpos).mpr hU
  have hDpos : 0 < V / e := by omega
  rcases hWe.eq_or_lt with heq | hless
  · rw [estimate, if_pos heq] at hq
    have hWpos : 0 < W := Nat.pos_of_ne_zero (by rintro rfl; rw [Nat.zero_div] at heq; omega)
    have hUpos : 0 < z.base * W := Nat.mul_pos hbase hWpos
    refine ⟨by omega, by omega, ?_, by omega⟩
    rw [hq]
    exact pred_base_le he hVpos heq htop
  · have hn1 : (x + z.base * W) / e % z.base < z.base := Nat.mod_lt _ hbase
    have hn2 : (y + z.base * (x + z.base * W)) / e % z.base < z.base := Nat.mod_lt _ hbase
    have hd1lt : (0 + z.base * V) / e % z.base < z.base := Nat.mod_lt _ hbase
    rw [estimate_eq hVe hd1lt hn1 hn2 hless, ← cons_div hx, ← cons_div hy, ← cons_div hbase, Nat.zero_add] at hq
    -- the divisor of the estimate has two words
    have hD : z.base * (V / e) ≤ z.base * V / e := Nat.mul_div_le_mul_div_assoc _ _ _
    have hDge : z.base ≤ z.base * V / e := (Nat.le_mul_of_pos_right _ hDpos).trans hD
    have hDepos : 0 < z.base * V / e := hbase.trans_le hDge
    have hwhole : (y + z.base * (x + z.base * W)) / (z.base * V) = (x + z.base * W) / V := by
      rw [← Nat.div_div_eq_div_mul, Nat.add_mul_div_left _ _ hbase, Nat.div_eq_of_lt hy, Nat.zero_add]
    have hqlt : q < z.base := by
      rw [hq]
      refine (Nat.div_lt_iff_lt_mul (by omega)).mpr ?_
      have hup : (x + z.base * W) / e < z.base * (V / e) := by
        rw [cons_div hx, Nat.mul_comm z.base (V / e)]
        exact digits_lt hn1 hless
      rw [cons_div hy]
      calc _ < z.base * (V / e) * z.base := digits_lt hn2 hup
        _ ≤ z.base * V / e * z.base := Nat.mul_le_mul_right _ hD
        _ = z.base * (z.base * V / e) := Nat.mul_comm _ _
    refine ⟨hqlt, ?_, ?_, fun hzero => ?_⟩
    · rw [← hwhole, hq]
      exact div_le_cut hDepos
    · rw [← hwhole]
      refine cut_le_succ hDepos ?_ (by omega)
      rw [hq]
      exact Nat.div_mul_le_self _ _
    · rw [hq, hzero, Nat.mul_zero, Nat.add_zero]
      exact Nat.div_eq_of_lt ((Nat.div_le_self y e).trans_lt (hy.trans_le hDge))

/-! ## The window -/

theorem windowSub_spec {a b : List ℕ} (ha : Small z.base a) (hb : Small z.base b) (hbfix : Fixed b)
    (hafix : Fixed a ∨ b = []) :
    Small z.base (windowSub z a b).1 ∧ Fixed (windowSub z a b).1 ∧
    (windowSub z a b).2 = decide (Nat.ofDigits z.base a < Nat.ofDigits z.base b) ∧
    Nat.ofDigits z.base (windowSub z a b).1 =
      Nat.ofDigits z.base a - Nat.ofDigits z.base b + (Nat.ofDigits z.base b - Nat.ofDigits z.base a) := by
  have hcmp := ucmpWords_lt ha hb hbfix hafix
  rw [windowSub]
  by_cases hlt : Nat.ofDigits z.base a < Nat.ofDigits z.base b
  · have hneg := hcmp.mpr hlt
    have hlen : a.length ≤ b.length := by
      rw [ucmpWords] at hneg
      split at hneg
      · next h => exact h.le
      · omega
    rw [if_pos hneg, decide_eq_true hlt]
    have hvalue := usubWords_value hlen hb ha hlt.le
    refine ⟨(usubWords_small hlen hb ha).1.fixTop, fixTop_fixed _, rfl, ?_⟩
    rw [ofDigits_fixTop]
    omega
  · have hneg : ¬ ucmpWords a b < 0 := fun h => hlt (hcmp.mp h)
    have hlen : b.length ≤ a.length := by
      rw [ucmpWords] at hneg
      split at hneg
      · next h => exact h.ge
      · omega
    rw [if_neg hneg, decide_eq_false hlt]
    have hvalue := usubWords_value hlen ha hb (Nat.le_of_not_lt hlt)
    refine ⟨(usubWords_small hlen ha hb).1.fixTop, fixTop_fixed _, rfl, ?_⟩
    rw [ofDigits_fixTop]
    omega

/-- A window below the divisor: its words are in order, and no zero is at the top. -/
structure Window (z : WordSize) (v w : List ℕ) : Prop where
  small : Small z.base w
  fixed : Fixed w
  lt : Nat.ofDigits z.base w < Nat.ofDigits z.base v

/-- A divisor with its top bit set. -/
structure Normal (z : WordSize) (v : List ℕ) : Prop where
  small : Small z.base v
  fixed : Fixed v
  pos : 0 < v.length
  top : z.base ^ v.length ≤ 2 * Nat.ofDigits z.base v

/-- One turn divides the window with its new word, and leaves the remainder as the window. -/
theorem divStep_spec {v w : List ℕ} {x y : ℕ} (hv : Normal z v) (hw : Window z v w) (hx : x < z.base) (hy : y < z.base) :
    ∃ w', divStep z v w x y = some ((x + z.base * Nat.ofDigits z.base w) / Nat.ofDigits z.base v, w') ∧ Window z v w' ∧
      Nat.ofDigits z.base w' = (x + z.base * Nat.ofDigits z.base w) % Nat.ofDigits z.base v := by
  obtain ⟨q, hq⟩ : ∃ q, q = estimate z (v.getD (v.length - 1) 0) (if v.length = 1 then 0 else v.getD (v.length - 2) 0)
      (w.getD (v.length - 1) 0) ((x :: w).getD (v.length - 1) 0) ((y :: x :: w).getD (v.length - 1) 0) := ⟨_, rfl⟩
  obtain ⟨hqlt, hge, hle, hzero⟩ := estimate_window hv.small hv.pos hv.top hw.small hw.lt hx hy hq
  have hVpos : 0 < Nat.ofDigits z.base v := (Nat.zero_le _).trans_lt hw.lt
  have hdivmod := Nat.div_add_mod (x + z.base * Nat.ofDigits z.base w) (Nat.ofDigits z.base v)
  have hmod : (x + z.base * Nat.ofDigits z.base w) % Nat.ofDigits z.base v < Nat.ofDigits z.base v := Nat.mod_lt _ hVpos
  obtain ⟨hpl, hps, hpc, hpv⟩ := bnMulWords_spec hv.small hqlt
  rw [divStep]
  dsimp only
  rw [← hq]
  -- the product of the divisor and the estimate
  obtain ⟨p, hp⟩ : ∃ p, p = fixTop ((bnMulWords z v q).1 ++ [(bnMulWords z v q).2]) := ⟨_, rfl⟩
  have hpsmall : Small z.base p := by
    rw [hp]
    exact (small_append.mpr ⟨hps, small_cons.mpr ⟨hpc, Small.nil⟩⟩).fixTop
  have hpfix : Fixed p := by
    rw [hp]
    exact fixTop_fixed _
  have hpvalue : Nat.ofDigits z.base p = Nat.ofDigits z.base v * q := by
    rw [hp, ofDigits_fixTop, Nat.ofDigits_append, Nat.ofDigits_singleton, hpl, hpv]
  rw [← hp]
  have hxw : Small z.base (x :: w) := small_cons.mpr ⟨hx, hw.small⟩
  have hcase : Fixed (x :: w) ∨ p = [] := by
    rcases List.eq_nil_or_concat w with rfl | ⟨ws, d, rfl⟩
    · rcases Nat.eq_zero_or_pos x with rfl | hxpos
      · right
        refine hpfix.eq_nil z.one_lt_base ?_
        rw [hpvalue, hzero (by simp), Nat.mul_zero]
      · left
        exact (@fixed_concat [] x).mpr hxpos.ne'
    · left
      exact (fixed_append [x] (by simp)).mpr hw.fixed
  obtain ⟨hrs, hrf, hr2, hrv⟩ := windowSub_spec hxw hpsmall hpfix hcase
  rw [hpvalue, Nat.ofDigits_cons] at hr2 hrv
  generalize windowSub z (x :: w) p = r at *
  generalize x + z.base * Nat.ofDigits z.base w = U at *
  rcases Nat.lt_or_ge (U / Nat.ofDigits z.base v) q with hbig | hsmall
  · -- one too large: the divisor is added back
    obtain rfl : q = U / Nat.ofDigits z.base v + 1 := by omega
    rw [Nat.mul_add, Nat.mul_one] at hr2 hrv
    rw [decide_eq_true (by omega)] at hr2
    rw [if_pos hr2]
    obtain ⟨hss, hsf, hs2, hsv⟩ := windowSub_spec hv.small hrs hrf (Or.inl hv.fixed)
    rw [decide_eq_false (by omega)] at hs2
    rw [hs2, if_neg Bool.false_ne_true, wordSub_eq hqlt (Nat.le_add_left 1 _), Nat.add_sub_cancel]
    exact ⟨_, rfl, ⟨hss, hsf, by omega⟩, by omega⟩
  · obtain rfl : q = U / Nat.ofDigits z.base v := by omega
    rw [decide_eq_false (by omega)] at hr2
    rw [hr2, if_neg Bool.false_ne_true]
    exact ⟨_, rfl, ⟨hrs, hrf, by omega⟩, by omega⟩

/-- All turns: long division of the words below the window, less the last. -/
theorem divLoop_spec {v low w : List ℕ} (hv : Normal z v) (hlow : Small z.base low) (hw : Window z v w) :
    ∃ qs w', divLoop z v low w = some (qs, w') ∧ qs.length = low.length - 1 ∧ Small z.base qs ∧ Window z v w' ∧
      Nat.ofDigits z.base low.dropLast.reverse + z.base ^ (low.length - 1) * Nat.ofDigits z.base w =
        Nat.ofDigits z.base qs * Nat.ofDigits z.base v + Nat.ofDigits z.base w' := by
  induction low generalizing w with
  | nil => exact ⟨[], w, rfl, rfl, Small.nil, hw, by simp⟩
  | cons x low ih =>
    cases low with
    | nil => exact ⟨[], w, rfl, rfl, Small.nil, hw, by simp⟩
    | cons y low =>
      obtain ⟨hx, hlow⟩ := small_cons.mp hlow
      obtain ⟨w₁, hstep, hw₁, hv₁⟩ := divStep_spec hv hw hx (small_cons.mp hlow).1
      obtain ⟨qs, w', hrun, hlen, hsmall, hw', hvalue⟩ := ih hlow hw₁
      have hVpos : 0 < Nat.ofDigits z.base v := (Nat.zero_le _).trans_lt hw.lt
      have hword : (x + z.base * Nat.ofDigits z.base w) / Nat.ofDigits z.base v < z.base :=
        (Nat.div_lt_iff_lt_mul hVpos).mpr (cons_lt hx hw.lt)
      refine ⟨qs ++ [(x + z.base * Nat.ofDigits z.base w) / Nat.ofDigits z.base v], w', ?_, ?_,
        small_append.mpr ⟨hsmall, small_cons.mpr ⟨hword, Small.nil⟩⟩, hw', ?_⟩
      · rw [divLoop, hstep, Option.bind_some, hrun, Option.map_some]
      · rw [List.length_append, hlen, List.length_singleton]
        simp
      · rw [List.length_cons, Nat.add_sub_cancel] at hlen hvalue
        have hdivmod := Nat.div_add_mod (x + z.base * Nat.ofDigits z.base w) (Nat.ofDigits z.base v)
        rw [← hv₁] at hdivmod
        simp only [List.dropLast_cons_cons, List.reverse_cons, Nat.ofDigits_append, Nat.ofDigits_singleton,
          List.length_reverse, List.length_dropLast, List.length_cons, Nat.add_sub_cancel, hlen, pow_succ]
        linear_combination hvalue + z.base ^ low.length * hdivmod.symm

/-! ## The numbers -/

/-- The divisor moved up as `BN_div` does it has its top bit set. -/
theorem normal_lshift {divisor : BigNum z} (h : divisor.abs ≠ 0) :
    Normal z (bnLshift divisor (z.bits2 - divisor.numBits % z.bits2)).d := by
  obtain ⟨v, hv⟩ : ∃ v, v = bnLshift divisor (z.bits2 - divisor.numBits % z.bits2) := ⟨_, rfl⟩
  have habs : v.abs = divisor.abs * 2 ^ (z.bits2 - divisor.numBits % z.bits2) := by rw [hv, bnLshift_abs]
  rw [← hv]
  have hpos : 0 < v.abs := by
    rw [habs]
    exact Nat.mul_pos (Nat.pos_of_ne_zero h) (Nat.two_pow_pos _)
  have hne : v.d ≠ [] := fun hnil => by rw [BigNum.abs, hnil, Nat.ofDigits_nil] at hpos; exact absurd hpos (lt_irrefl 0)
  have hlenpos : 0 < v.d.length := List.length_pos_of_ne_nil hne
  refine ⟨v.small, v.fixed, hlenpos, ?_⟩
  -- the bits are a multiple of a word's
  have hmod : divisor.numBits % z.bits2 < z.bits2 := Nat.mod_lt _ z.bits2_pos
  have hdivmod := Nat.div_add_mod divisor.numBits z.bits2
  rw [BigNum.numBits_eq] at habs hmod hdivmod
  have hsize : Nat.size v.abs = z.bits2 * (Nat.size divisor.abs / z.bits2 + 1) := by
    rw [habs, ← Nat.shiftLeft_eq, Nat.size_shiftLeft h, Nat.mul_add, Nat.mul_one]
    omega
  generalize Nat.size divisor.abs / z.bits2 = m at hsize
  have hlow : v.abs < z.base ^ (m + 1) := by
    rw [WordSize.base, ← pow_mul, ← hsize]
    exact Nat.lt_size_self _
  have hup : z.base ^ (m + 1) ≤ 2 * v.abs := by
    have hbits : 0 < z.bits2 * (m + 1) := Nat.mul_pos z.bits2_pos (Nat.succ_pos m)
    have hle : 2 ^ (z.bits2 * (m + 1) - 1) ≤ v.abs := Nat.lt_size.mp (by omega)
    rw [WordSize.base, ← pow_mul]
    calc 2 ^ (z.bits2 * (m + 1)) = 2 * 2 ^ (z.bits2 * (m + 1) - 1) := by
          rw [← pow_succ', Nat.sub_add_cancel hbits]
      _ ≤ 2 * v.abs := Nat.mul_le_mul_left _ hle
  have hfix : z.base ^ (v.d.length - 1) ≤ v.abs := v.fixed.le hne
  have hlt : v.d.length - 1 < m + 1 := (Nat.pow_lt_pow_iff_right z.one_lt_base).mp (hfix.trans_lt hlow)
  exact (Nat.pow_le_pow_right z.base_pos (by omega)).trans hup

/-- Truncated division of the values, by the numbers without their signs. -/
theorem value_tdiv {a b q r : BigNum z} (hq : q.abs = a.abs / b.abs) (hqneg : q.abs ≠ 0 → q.neg = (a.neg ^^ b.neg))
    (hr : r.abs = a.abs % b.abs) (hrneg : r.neg = a.neg) :
    q.value = a.value.tdiv b.value ∧ r.value = a.value.tmod b.value := by
  have hqv : q.value = if a.neg ^^ b.neg then -((a.abs / b.abs : ℕ) : ℤ) else ((a.abs / b.abs : ℕ) : ℤ) := by
    rw [BigNum.value, hq]
    by_cases hzero : q.abs = 0
    · rw [← hq, hzero]
      simp
    · rw [hqneg hzero]
  rw [hqv, BigNum.value_of_neg hr hrneg, BigNum.value, BigNum.value, Int.ofNat_tdiv, Int.ofNat_tmod]
  cases a.neg <;> cases b.neg <;> simp [Int.neg_tdiv, Int.neg_tmod]

/-- The window at the start, the divisor taken off it where it fits: the first word of the quotient is 0 or 1. -/
theorem first_window {v w : List ℕ} (hv : Normal z v) (hw : Small z.base w) (hfix : Fixed w)
    (hlen : w.length = v.length) :
    Window z v (if ucmpWords w v ≥ 0 then fixTop (usubWords z w v) else w) ∧
      Nat.ofDigits z.base w = (if ucmpWords w v ≥ 0 then 1 else 0) * Nat.ofDigits z.base v +
        Nat.ofDigits z.base (if ucmpWords w v ≥ 0 then fixTop (usubWords z w v) else w) := by
  have hcmp := ucmpWords_lt hw hv.small hv.fixed (Or.inl hfix)
  have hup := hw.lt z.one_lt_base
  have htop := hv.top
  rw [hlen] at hup
  by_cases hlt : ucmpWords w v < 0
  · rw [if_neg (by omega), if_neg (by omega)]
    exact ⟨⟨hw, hfix, hcmp.mp hlt⟩, by omega⟩
  · rw [if_pos (by omega), if_pos (by omega), ofDigits_fixTop]
    have hvalue := usubWords_value hlen.ge hw hv.small (Nat.le_of_not_lt fun h => hlt (hcmp.mpr h))
    refine ⟨⟨(usubWords_small hlen.ge hw hv.small).1.fixTop, fixTop_fixed _, ?_⟩, by omega⟩
    rw [ofDigits_fixTop]
    omega

/-- The turns leave quotient and remainder of all words but the lowest, where these hold the divisor. -/
theorem divWords_spec {v s : List ℕ} (hv : Normal z v) (hs : Small z.base s) (hfix : Fixed s)
    (hle : z.base * Nat.ofDigits z.base v ≤ Nat.ofDigits z.base s) {w f : List ℕ}
    (hw : w = s.drop (s.length - v.length)) (hf : f = if ucmpWords w v ≥ 0 then [1] else []) :
    ∃ qs w', divLoop z v (s.take (s.length - v.length)).reverse
        (if ucmpWords w v ≥ 0 then fixTop (usubWords z w v) else w) = some (qs, w') ∧ Window z v w' ∧
      Small z.base (qs ++ f) ∧ Fixed (qs ++ f) ∧
      Nat.ofDigits z.base s / z.base =
        Nat.ofDigits z.base (qs ++ f) * Nat.ofDigits z.base v + Nat.ofDigits z.base w' := by
  have hone := z.one_lt_base
  have hvne : v ≠ [] := List.ne_nil_of_length_pos hv.pos
  have hlen : v.length < s.length := by
    refine (Nat.pow_lt_pow_iff_right hone).mp (lt_of_le_of_lt ?_ (hs.lt hone))
    calc z.base ^ v.length = z.base * z.base ^ (v.length - 1) := by rw [← pow_succ', Nat.sub_add_cancel hv.pos]
      _ ≤ z.base * Nat.ofDigits z.base v := Nat.mul_le_mul_left _ (hv.fixed.le hvne)
      _ ≤ Nat.ofDigits z.base s := hle
  obtain ⟨x, s, rfl⟩ : ∃ x t, s = x :: t := List.exists_cons_of_length_pos (by omega)
  obtain ⟨hx, hs'⟩ := small_cons.mp hs
  obtain ⟨k, hk⟩ : ∃ k, s.length = k + v.length := ⟨s.length - v.length, by rw [List.length_cons] at hlen; omega⟩
  rw [List.length_cons, show s.length + 1 - v.length = k + 1 from by omega] at hw ⊢
  rw [List.drop_succ_cons] at hw
  rw [List.take_succ_cons]
  have hwlen : w.length = v.length := by
    rw [hw, List.length_drop]
    omega
  obtain ⟨hw₁, hv₁⟩ := first_window hv (hw ▸ hs'.drop k) (hw ▸ hfix.tail.drop k) hwlen
  have hlow : Small z.base (x :: s.take k).reverse := by
    intro d hd
    rw [List.mem_reverse] at hd
    exact (small_cons.mpr ⟨hx, hs'.take k⟩) d hd
  obtain ⟨qs, w', hrun, hqlen, hqs, hw', hvalue⟩ := divLoop_spec hv hlow hw₁
  have htk : (s.take k).length = k := by
    rw [List.length_take]
    omega
  rw [List.length_reverse, List.length_cons, Nat.add_sub_cancel, htk] at hqlen hvalue
  rw [List.dropLast_reverse, List.tail_cons, List.reverse_reverse] at hvalue
  have hsplit := ofDigits_take_drop (b := z.base) s (show k ≤ s.length by omega)
  rw [← hw] at hsplit
  have hshort : Nat.ofDigits z.base (x :: s) / z.base = Nat.ofDigits z.base s := by
    rw [Nat.ofDigits_cons, Nat.add_mul_div_left _ _ z.base_pos, Nat.div_eq_of_lt hx, Nat.zero_add]
  have hfvalue : Nat.ofDigits z.base f = if ucmpWords w v ≥ 0 then 1 else 0 := by
    rw [hf]
    split <;> simp
  have hwhole : Nat.ofDigits z.base s =
      Nat.ofDigits z.base (qs ++ f) * Nat.ofDigits z.base v + Nat.ofDigits z.base w' := by
    rw [Nat.ofDigits_append, hqlen, hfvalue, hsplit, hv₁]
    linear_combination hvalue
  refine ⟨qs, w', hrun, hw', ?_, ?_, hshort.trans hwhole⟩
  · refine small_append.mpr ⟨hqs, ?_⟩
    rw [hf]
    split
    · exact small_cons.mpr ⟨hone, Small.nil⟩
    · exact Small.nil
  · by_cases hfirst : ucmpWords w v ≥ 0
    · rw [hf, if_pos hfirst]
      exact fixed_concat.mpr Nat.one_ne_zero
    · rw [hf, if_neg hfirst, List.append_nil] at hwhole ⊢
      refine fixed_of_le hone hqs fun hne => ?_
      have hkpos : 0 < k := hqlen ▸ List.length_pos_of_ne_nil hne
      have hsne : s ≠ [] := List.ne_nil_of_length_pos (by omega)
      have hpow : z.base ^ (k - 1) * z.base ^ v.length < (Nat.ofDigits z.base qs + 1) * z.base ^ v.length := by
        calc z.base ^ (k - 1) * z.base ^ v.length = z.base ^ (s.length - 1) := by
              rw [← pow_add]
              congr 1
              omega
          _ ≤ Nat.ofDigits z.base s := hfix.tail.le hsne
          _ < (Nat.ofDigits z.base qs + 1) * Nat.ofDigits z.base v := by
              rw [hwhole, Nat.add_mul, Nat.one_mul]
              exact Nat.add_lt_add_left hw'.lt _
          _ ≤ (Nat.ofDigits z.base qs + 1) * z.base ^ v.length := Nat.mul_le_mul_left _ (hv.small.lt hone).le
      rw [hqlen]
      exact Nat.le_of_lt_succ (Nat.lt_of_mul_lt_mul_right hpow)

theorem bnDiv_large {num divisor : BigNum z} (h : divisor.abs ≠ 0) (hle : divisor.abs ≤ num.abs) :
    ∃ q r : BigNum z, bnDiv num divisor = some ((q.d, q.neg), (r.d, r.neg)) ∧ q.abs = num.abs / divisor.abs ∧
      q.neg = (num.neg ^^ divisor.neg) ∧ r.abs = num.abs % divisor.abs ∧ r.neg = num.neg := by
  have hv := normal_lshift h
  rw [bnDiv, if_neg (fun hz => h ((BigNum.isZero_iff divisor).mp hz)),
    if_neg (fun hlt => hle.not_gt ((bnUcmp_spec num divisor).1.mp hlt))]
  dsimp only
  have hvabs := bnLshift_abs divisor (z.bits2 - divisor.numBits % z.bits2)
  generalize z.bits2 - divisor.numBits % z.bits2 = i at *
  have hsabs : (bnLshift num (i + z.bits2)).abs = z.base * (num.abs * 2 ^ i) := by
    rw [bnLshift_abs, pow_add, ← WordSize.base]
    ring
  generalize bnLshift divisor i = v at *
  generalize bnLshift num (i + z.bits2) = s at *
  have hpow : 0 < 2 ^ i := Nat.two_pow_pos i
  have hfits : z.base * Nat.ofDigits z.base v.d ≤ Nat.ofDigits z.base s.d := by
    change z.base * v.abs ≤ s.abs
    rw [hvabs, hsabs]
    exact Nat.mul_le_mul_left _ (Nat.mul_le_mul_right _ hle)
  obtain ⟨qs, w', hrun, hw', hqsmall, hqfix, hvalue⟩ := divWords_spec hv s.small s.fixed hfits rfl rfl
  have hs1 : Small z.base (s.d.take 1 ++ w') := small_append.mpr ⟨s.small.take 1, hw'.small⟩
  obtain ⟨hrs, hrv⟩ := rshiftWords_spec hs1 (i + z.bits2)
  -- both numbers were moved up by the same
  have hsv : Nat.ofDigits z.base s.d = z.base * (num.abs * 2 ^ i) := hsabs
  have hvv : Nat.ofDigits z.base v.d = divisor.abs * 2 ^ i := hvabs
  have hwlt := hw'.lt
  rw [hsv, hvv, Nat.mul_div_cancel_left _ z.base_pos] at hvalue
  rw [hvv] at hwlt
  have hquot := (Nat.div_mod_unique (Nat.mul_pos (Nat.pos_of_ne_zero h) hpow)).mpr
    ⟨((Nat.add_comm _ _).trans (congrArg (· + _) (Nat.mul_comm _ _))).trans hvalue.symm, hwlt⟩
  rw [Nat.mul_div_mul_right _ _ hpow, Nat.mul_mod_mul_right] at hquot
  obtain ⟨x, t, hxt⟩ : ∃ x t, s.d = x :: t := by
    refine List.exists_cons_of_ne_nil fun hnil => ?_
    rw [hnil, Nat.ofDigits_nil, eq_comm] at hsv
    exact absurd hsv (Nat.mul_pos z.base_pos (Nat.mul_pos (by omega) hpow)).ne'
  have hx : x < z.base := s.small x (hxt ▸ List.mem_cons_self)
  refine ⟨⟨_, num.neg ^^ divisor.neg, hqsmall, hqfix⟩, .ofWords _ hrs num.neg, ?_, hquot.1.symm, rfl, ?_, rfl⟩
  · rw [BigNum.top, BigNum.top, hrun]
    rfl
  · rw [BigNum.ofWords_abs, hrv, hxt, List.take_succ_cons, List.take_zero, List.singleton_append, Nat.ofDigits_cons,
      pow_add, ← WordSize.base, Nat.mul_comm (2 ^ i), ← Nat.div_div_eq_div_mul, Nat.add_mul_div_left _ _ z.base_pos,
      Nat.div_eq_of_lt hx, Nat.zero_add, ← hquot.2, Nat.mul_div_cancel _ hpow]

theorem bnDiv_zero (num : BigNum z) {divisor : BigNum z} (h : divisor.abs = 0) : bnDiv num divisor = none := by
  rw [bnDiv, if_pos ((BigNum.isZero_iff divisor).mpr h)]

theorem bnDiv_abs (num : BigNum z) {divisor : BigNum z} (h : divisor.abs ≠ 0) :
    ∃ q r : BigNum z, bnDiv num divisor = some ((q.d, q.neg), (r.d, r.neg)) ∧ q.abs = num.abs / divisor.abs ∧
      (q.abs ≠ 0 → q.neg = (num.neg ^^ divisor.neg)) ∧ r.abs = num.abs % divisor.abs ∧ r.neg = num.neg := by
  rcases Nat.lt_or_ge num.abs divisor.abs with hlt | hge
  · have hzero : (BigNum.zero : BigNum z).abs = 0 := Nat.ofDigits_nil
    refine ⟨.zero, num, ?_, ?_, fun hne => absurd hzero hne, (Nat.mod_eq_of_lt hlt).symm, rfl⟩
    · rw [bnDiv, if_neg (fun hz => h ((BigNum.isZero_iff divisor).mp hz)), if_pos ((bnUcmp_spec num divisor).1.mpr hlt)]
      rfl
    · rw [hzero, Nat.div_eq_of_lt hlt]
  · obtain ⟨q, r, hrun, hq, hqneg, hr, hrneg⟩ := bnDiv_large h hge
    exact ⟨q, r, hrun, hq, fun _ => hqneg, hr, hrneg⟩

/-- `BN_div` and `BN_mod` fail for a zero divisor only, and are the division of the values rounded towards zero. -/
theorem bn_quotient_remainder (num divisor : BigNum z) :
    if divisor.abs = 0 then bnDiv num divisor = none ∧ bnMod num divisor = none
    else ∃ q r : BigNum z, bnDiv num divisor = some ((q.d, q.neg), (r.d, r.neg)) ∧
      bnMod num divisor = some (r.d, r.neg) ∧ q.value = num.value.tdiv divisor.value ∧
      r.value = num.value.tmod divisor.value := by
  split
  · next h =>
    have hnone := bnDiv_zero num h
    exact ⟨hnone, by rw [bnMod, hnone, Option.map_none]⟩
  · next h =>
    obtain ⟨q, r, hrun, hq, hqneg, hr, hrneg⟩ := bnDiv_abs num h
    exact ⟨q, r, hrun, by rw [bnMod, hrun, Option.map_some], value_tdiv hq hqneg hr hrneg⟩

end Specs

end Neufbox.Bignum
