import Mathlib.Data.Nat.Size
import Mathlib.Tactic

/-! # Modular powers of the big numbers

`BN_mod_exp` of `package/ead/src/tinysrp/bn_exp.c`, which is `BN_mod_exp_simple` as `bn.h` undefines the
other ways. The exponent is read from its top bit in windows that end in a set bit, with a table of
the odd powers of the base. What it leaves is the power, and every index into the table is inside. -/
namespace Neufbox.Bignum
set_option autoImplicit false
set_option maxHeartbeats 250000
set_option maxRecDepth 120000

/-! ## `BN_mod_exp_simple` -/

/-- `BN_num_bits`. -/
def bnNumBits (p : ℕ) : ℕ := p.size

/-- `BN_window_bits_for_exponent_size`. -/
def bnWindowBits (b : ℕ) : ℕ := if b > 671 then 6 else if b > 239 then 5 else if b > 79 then 4 else if b > 23 then 3 else 1

/-- `BN_mod_mul`. -/
def bnModMul (a b m : ℕ) : ℕ := a * b % m

/-- The table `val`: each entry but the first is the one before times the square of the base. -/
def powerTable (a m window : ℕ) : List ℕ :=
  let d := bnModMul (a % m) (a % m) m
  List.iterate (fun v => bnModMul v d m) (a % m) (2 ^ (window - 1))

/-- The loop that looks for the end of the window from `wstart` down, with the passes left, `i`, `wvalue`
and `wend`. -/
def scanWindow (p wstart : ℕ) : ℕ → ℕ → ℕ → ℕ → ℕ × ℕ
  | 0, _, wvalue, wend => (wvalue, wend)
  | n + 1, i, wvalue, wend =>
    if wstart < i then (wvalue, wend)
    else if p.testBit (wstart - i) then scanWindow p wstart n (i + 1) (wvalue <<< (i - wend) ||| 1) i
    else scanWindow p wstart n (i + 1) wvalue wend

/-- The loop over the exponent; it needs at most `wstart + 1` passes. -/
def expLoop (p m window : ℕ) (val : List ℕ) : ℕ → ℕ → Bool → ℕ → ℕ
  | 0, _, _, r => r
  | fuel + 1, wstart, start, r =>
    if p.testBit wstart = false then
      let r := if start then r else bnModMul r r m
      if wstart = 0 then r else expLoop p m window val fuel (wstart - 1) start r
    else
      let (wvalue, wend) := scanWindow p wstart (window - 1) 1 1 0
      let r := if start then r else (fun r => bnModMul r r m)^[wend + 1] r
      let r := bnModMul r (val.getD (wvalue >>> 1) 0) m
      if wstart < wend + 1 then r else expLoop p m window val fuel (wstart - (wend + 1)) false r

/-- `BN_mod_exp`; `none` where it fails. An exponent of zero gives one before the modulus is looked at. -/
def bnModExp (a p m : ℕ) : Option ℕ :=
  let bits := bnNumBits p
  if bits = 0 then some 1
  else if m = 0 then none
  else
    let window := bnWindowBits bits
    some (expLoop p m window (powerTable a m window) bits (bits - 1) true 1)

/-! ## The table -/

theorem powerTable_length (a m window : ℕ) : (powerTable a m window).length = 2 ^ (window - 1) :=
  List.length_iterate _ _ _

theorem bnModMul_mod (a b m : ℕ) : bnModMul (a % m) (b % m) m = a * b % m := (Nat.mul_mod a b m).symm

theorem powerTable_getD (a m window k : ℕ) (hk : k < 2 ^ (window - 1)) :
    (powerTable a m window).getD k 0 = a ^ (2 * k + 1) % m := by
  have hiter : (fun v => bnModMul v (bnModMul (a % m) (a % m) m) m)^[k] (a % m) = a ^ (2 * k + 1) % m := by
    induction k with
    | zero => rw [Function.iterate_zero, id_eq, Nat.mul_zero, Nat.zero_add, pow_one]
    | succ k ih =>
      rw [Function.iterate_succ_apply', ih (by omega), bnModMul_mod, bnModMul_mod]
      congr 1
      ring
  rw [List.getD_eq_getElem?_getD, powerTable, List.getElem?_iterate _ _ _ _ hk, hiter, Option.getD_some]

/-! ## The window -/

/-- The `i` bits of `p` from bit `s` down. -/
def topBits (p s i : ℕ) : ℕ := p / 2 ^ (s + 1 - i) % 2 ^ i

theorem topBits_lt (p s i : ℕ) : topBits p s i < 2 ^ i := Nat.mod_lt _ (Nat.two_pow_pos i)

theorem topBits_succ (p s i : ℕ) (hi : i ≤ s) :
    topBits p s (i + 1) = 2 * topBits p s i + (p.testBit (s - i)).toNat := by
  have hbit : (p.testBit (s - i)).toNat = p / 2 ^ (s - i) % 2 := Nat.toNat_testBit p (s - i)
  have hdiv : p / 2 ^ (s + 1 - i) = p / 2 ^ (s - i) / 2 := by
    rw [Nat.div_div_eq_div_mul, ← pow_succ, show s - i + 1 = s + 1 - i from by omega]
  rw [topBits, topBits, hbit, hdiv, show s + 1 - (i + 1) = s - i from by omega, pow_succ', Nat.mod_mul]
  omega

theorem topBits_one (p s : ℕ) (h : p.testBit s = true) : topBits p s 1 = 1 := by
  have hs := topBits_succ p s 0 (Nat.zero_le s)
  rw [Nat.sub_zero, h] at hs
  rw [hs, topBits, pow_zero, Nat.mod_one]
  rfl

/-- What the search keeps: the value is odd and made of the bits down to the end so far, and the bits
behind it are clear. -/
structure InWindow (p s i wvalue wend : ℕ) : Prop where
  before : wend < i
  inside : wend ≤ s
  odd : wvalue % 2 = 1
  value : wvalue = topBits p s (wend + 1)
  behind : i ≤ s + 1 → topBits p s i = wvalue * 2 ^ (i - 1 - wend)

theorem InWindow.start {p s : ℕ} (h : p.testBit s = true) : InWindow p s 1 1 0 where
  before := Nat.one_pos
  inside := Nat.zero_le s
  odd := rfl
  value := (topBits_one p s h).symm
  behind _ := by rw [topBits_one p s h, Nat.sub_zero, Nat.sub_self, pow_zero, Nat.mul_one]

theorem InWindow.set {p s i wvalue wend : ℕ} (h : InWindow p s i wvalue wend) (hi : i ≤ s)
    (hbit : p.testBit (s - i) = true) : InWindow p s (i + 1) (wvalue <<< (i - wend) ||| 1) i := by
  have hlt := h.before
  have hor : wvalue <<< (i - wend) ||| 1 = wvalue * 2 ^ (i - wend) + 1 := by
    rw [Nat.shiftLeft_eq, show i - wend = i - wend - 1 + 1 from by omega, pow_succ, ← Nat.mul_assoc, Nat.mul_comm _ 2]
    exact (Nat.two_pow_add_eq_or_of_lt (i := 1) (by norm_num) _).symm
  have htop : topBits p s (i + 1) = wvalue * 2 ^ (i - wend) + 1 := by
    rw [topBits_succ p s i hi, hbit, h.behind (by omega), show i - wend = i - 1 - wend + 1 from by omega, pow_succ]
    change _ + 1 = _
    ring
  refine ⟨Nat.lt_succ_self i, hi, ?_, by rw [hor, htop], fun _ => ?_⟩
  · rw [hor, show i - wend = i - wend - 1 + 1 from by omega, pow_succ, ← Nat.mul_assoc]
    omega
  · rw [htop, hor, Nat.add_sub_cancel, Nat.sub_self, pow_zero, Nat.mul_one]

theorem InWindow.clear {p s i wvalue wend : ℕ} (h : InWindow p s i wvalue wend) (hi : i ≤ s)
    (hbit : p.testBit (s - i) = false) : InWindow p s (i + 1) wvalue wend := by
  have hlt := h.before
  refine ⟨Nat.lt_succ_of_lt hlt, h.inside, h.odd, h.value, fun _ => ?_⟩
  rw [topBits_succ p s i hi, hbit, h.behind (by omega), Nat.add_sub_cancel,
    show i - wend = i - 1 - wend + 1 from by omega, pow_succ]
  change _ + 0 = _
  ring

theorem scanWindow_spec {p s i wvalue wend : ℕ} (n : ℕ) (h : InWindow p s i wvalue wend) :
    (scanWindow p s n i wvalue wend).2 ≤ s ∧ (scanWindow p s n i wvalue wend).2 < i + n ∧
      (scanWindow p s n i wvalue wend).1 % 2 = 1 ∧
      (scanWindow p s n i wvalue wend).1 = topBits p s ((scanWindow p s n i wvalue wend).2 + 1) := by
  induction n generalizing i wvalue wend with
  | zero => exact ⟨h.inside, h.before, h.odd, h.value⟩
  | succ n ih =>
    rw [scanWindow]
    by_cases hi : s < i
    · rw [if_pos hi]
      exact ⟨h.inside, Nat.lt_of_lt_of_le h.before (Nat.le_add_right i _), h.odd, h.value⟩
    · rw [if_neg hi]
      cases hbit : p.testBit (s - i) with
      | true =>
        obtain ⟨hs, hlt, hodd, hval⟩ := ih (h.set (by omega) hbit)
        exact ⟨hs, by rw [if_pos rfl]; omega, hodd, hval⟩
      | false =>
        obtain ⟨hs, hlt, hodd, hval⟩ := ih (h.clear (by omega) hbit)
        rw [if_neg Bool.false_ne_true]
        exact ⟨hs, by omega, hodd, hval⟩

/-! ## The power -/

theorem squarings (a e m j : ℕ) : (fun r => bnModMul r r m)^[j] (a ^ e % m) = a ^ (e * 2 ^ j) % m := by
  induction j with
  | zero => rw [Function.iterate_zero, id_eq, pow_zero, Nat.mul_one]
  | succ j ih =>
    rw [Function.iterate_succ_apply', ih, bnModMul_mod]
    congr 1
    ring

/-- The bits down to the end of a window are those above it and those in it. -/
theorem div_window (p s j : ℕ) (hj : j ≤ s + 1) :
    p / 2 ^ (s + 1 - j) = p / 2 ^ (s + 1) * 2 ^ j + topBits p s j := by
  have hpow : 2 ^ (s + 1) = 2 ^ (s + 1 - j) * 2 ^ j := by rw [← pow_add, Nat.sub_add_cancel hj]
  rw [topBits, hpow, ← Nat.div_div_eq_div_mul, Nat.mul_comm, Nat.div_add_mod]

/-- What `r` holds with the bits of the exponent above `wstart` done: the power of the base by them. Before
the first set bit it is one. -/
def Done (a p m s : ℕ) (start : Bool) (r : ℕ) : Prop :=
  if start then p / 2 ^ (s + 1) = 0 ∧ r = 1 else r = a ^ (p / 2 ^ (s + 1)) % m

theorem Done.clear {a p m s : ℕ} {start : Bool} {r : ℕ} (h : Done a p m s start r) (hbit : p.testBit s = false) :
    if start then p / 2 ^ s = 0 ∧ r = 1 else bnModMul r r m = a ^ (p / 2 ^ s) % m := by
  have hdiv : p / 2 ^ s = 2 * (p / 2 ^ (s + 1)) := by
    have hs := div_window p s 1 (by omega)
    have htop := topBits_succ p s 0 (Nat.zero_le s)
    rw [Nat.sub_zero, hbit] at htop
    rw [Nat.add_sub_cancel, htop, topBits, pow_zero, Nat.mod_one, pow_one] at hs
    change _ = _ + 0 at hs
    omega
  cases start with
  | true =>
    obtain ⟨hp, hr⟩ := h
    exact ⟨by rw [hdiv, hp], hr⟩
  | false =>
    have hr : r = a ^ (p / 2 ^ (s + 1)) % m := h
    change bnModMul r r m = _
    rw [hr, bnModMul_mod, hdiv]
    congr 1
    ring

theorem expLoop_spec {a p m window : ℕ} (hp : p ≠ 0) (hw : 0 < window) (fuel s : ℕ) (start : Bool) (r : ℕ)
    (hfuel : s < fuel) (h : Done a p m s start r) :
    expLoop p m window (powerTable a m window) fuel s start r = a ^ p % m := by
  induction fuel generalizing s start r with
  | zero => omega
  | succ fuel ih =>
    rw [expLoop]
    cases hbit : p.testBit s with
    | false =>
      have hclear := h.clear hbit
      rw [if_pos rfl]
      cases s with
      | zero =>
        rw [if_pos rfl]
        cases start with
        | true =>
          obtain ⟨hzero, -⟩ := hclear
          rw [pow_zero, Nat.div_one] at hzero
          exact absurd hzero hp
        | false =>
          rw [if_neg Bool.false_ne_true]
          rw [if_neg Bool.false_ne_true, pow_zero, Nat.div_one] at hclear
          exact hclear
      | succ s =>
        rw [if_neg (Nat.succ_ne_zero s), Nat.add_sub_cancel]
        refine ih s start _ (by omega) ?_
        cases start with
        | true => exact hclear
        | false => exact hclear
    | true =>
      obtain ⟨hend, hlt, hodd, hval⟩ := scanWindow_spec (window - 1) (InWindow.start hbit)
      rw [if_neg (by decide)]
      dsimp only
      generalize scanWindow p s (window - 1) 1 1 0 = found at hend hlt hodd hval ⊢
      obtain ⟨wvalue, wend⟩ := found
      dsimp only at hend hlt hodd hval ⊢
      have hsmall : wvalue < 2 ^ window := by
        rw [hval]
        exact (topBits_lt p s (wend + 1)).trans_le (Nat.pow_le_pow_right (by norm_num) (by omega))
      have hindex : wvalue >>> 1 < 2 ^ (window - 1) := by
        have hpow : 2 ^ window = 2 * 2 ^ (window - 1) := by rw [← pow_succ', Nat.sub_add_cancel hw]
        rw [Nat.shiftRight_one]
        omega
      have hentry : (powerTable a m window).getD (wvalue >>> 1) 0 = a ^ wvalue % m := by
        rw [powerTable_getD a m window _ hindex, Nat.shiftRight_one, show 2 * (wvalue / 2) + 1 = wvalue from by omega]
      have hexp := div_window p s (wend + 1) (by omega)
      rw [← hval] at hexp
      have hnext : bnModMul (if start then r else (fun r => bnModMul r r m)^[wend + 1] r)
          ((powerTable a m window).getD (wvalue >>> 1) 0) m = a ^ (p / 2 ^ (s + 1 - (wend + 1))) % m := by
        rw [hentry, hexp]
        cases start with
        | true =>
          obtain ⟨hzero, hr⟩ := h
          rw [if_pos rfl, hr, hzero, Nat.zero_mul, Nat.zero_add, bnModMul, Nat.one_mul, Nat.mod_mod]
        | false =>
          have hr : r = a ^ (p / 2 ^ (s + 1)) % m := h
          rw [if_neg Bool.false_ne_true, hr, squarings, bnModMul_mod, pow_add a]
      rw [hnext]
      by_cases hlast : s < wend + 1
      · rw [if_pos hlast, show s + 1 - (wend + 1) = 0 from by omega, pow_zero, Nat.div_one]
      · rw [if_neg hlast]
        refine ih (s - (wend + 1)) false _ (by omega) ?_
        change _ = a ^ (p / 2 ^ (s - (wend + 1) + 1)) % m
        rw [show s - (wend + 1) + 1 = s + 1 - (wend + 1) from by omega]

theorem bnWindowBits_pos (b : ℕ) : 0 < bnWindowBits b := by
  unfold bnWindowBits
  split_ifs <;> norm_num

/-- The table fits the array of `TABLE_SIZE` entries. -/
theorem powerTable_size (a m b : ℕ) : (powerTable a m (bnWindowBits b)).length ≤ 32 := by
  rw [powerTable_length]
  unfold bnWindowBits
  split_ifs <;> norm_num

/-- The windows compute the power. -/
theorem bnModExp_eq (a p m : ℕ) :
    bnModExp a p m = if p = 0 then some 1 else if m = 0 then none else some (a ^ p % m) := by
  rw [bnModExp, bnNumBits]
  dsimp only
  by_cases hp : p = 0
  · rw [hp, Nat.size_zero, if_pos rfl, if_pos rfl]
  · have hsize : p.size ≠ 0 := fun h => hp (Nat.size_eq_zero.mp h)
    rw [if_neg hsize, if_neg hp]
    by_cases hm : m = 0
    · rw [if_pos hm, if_pos hm]
    · rw [if_neg hm, if_neg hm]
      congr 1
      refine expLoop_spec hp (bnWindowBits_pos _) _ _ true 1 (by omega) ?_
      refine ⟨?_, rfl⟩
      rw [Nat.sub_add_cancel (Nat.pos_of_ne_zero hsize)]
      exact Nat.div_eq_of_lt (Nat.lt_size_self p)

/-- What `BN_mod_exp_simple` gives in every case, from a table that fits its array. -/
theorem bnModExp_spec (a p m : ℕ) :
    bnModExp a p m = (if p = 0 then some 1 else if m = 0 then none else some (a ^ p % m)) ∧
      (powerTable a m (bnWindowBits (bnNumBits p))).length ≤ 32 :=
  ⟨bnModExp_eq a p m, powerTable_size a m _⟩

end Neufbox.Bignum
