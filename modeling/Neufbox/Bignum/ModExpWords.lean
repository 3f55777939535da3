import Neufbox.Bignum.Div
import Neufbox.Bignum.ModExp
import Neufbox.Bignum.Product

/-! # Modular powers on the words

`BN_mod_mul` and `BN_mod_exp_simple` of `bn_exp.c` in `package/ead/src/tinysrp`, with the squares, products, remainders
and bits of the numbers as words. The powers of natural numbers are what they come to without the
signs. -/
namespace Neufbox.Bignum
open Radix
set_option autoImplicit false
set_option maxHeartbeats 250000
set_option maxRecDepth 120000

instance (b : ℕ) (ds : List ℕ) : Decidable (Small b ds) := inferInstanceAs (Decidable (∀ d ∈ ds, d < b))

instance (ds : List ℕ) : Decidable (Fixed ds) := inferInstanceAs (Decidable (_ ≠ _))

section Model
variable {z : WordSize} (mem : ℕ → ℕ)

namespace BigNum

/-- Words and a sign that were written into a number. -/
def ofPair (p : List ℕ × Bool) : Option (BigNum z) :=
  if h : Small z.base p.1 ∧ Fixed p.1 then some ⟨p.1, p.2, h.1, h.2⟩ else none

/-- `BN_one`. -/
def one : BigNum z := ⟨[1], false, small_cons.mpr ⟨z.one_lt_base, Small.nil⟩, by simp [Fixed]⟩

def mod (a m : BigNum z) : Option (BigNum z) := (bnMod a m).bind ofPair

/-- `BN_mod_mul` of a number with itself, which is squared. -/
def modSqr (m a : BigNum z) : Option (BigNum z) := (bnSqr mem a).mod m

/-- `BN_mod_mul` of two numbers. -/
def modMul (a b m : BigNum z) : Option (BigNum z) := (bnMul mem a b).mod m

/-- The table `val` from the entry `v` on. -/
def powers (d m : BigNum z) : ℕ → BigNum z → Option (List (BigNum z))
  | 0, v => some [v]
  | n + 1, v => (modMul mem v d m).bind fun w => (powers d m n w).map (v :: ·)

def sqrTimes (m : BigNum z) : ℕ → BigNum z → Option (BigNum z)
  | 0, r => some r
  | n + 1, r => (modSqr mem m r).bind (sqrTimes m n)

def scanWindow (p : BigNum z) (wstart : ℕ) : ℕ → ℕ → ℕ → ℕ → ℕ × ℕ
  | 0, _, wvalue, wend => (wvalue, wend)
  | n + 1, i, wvalue, wend =>
    if wstart < i then (wvalue, wend)
    else if bnIsBitSet p (wstart - i) then scanWindow p wstart n (i + 1) (wvalue <<< (i - wend) ||| 1) i
    else scanWindow p wstart n (i + 1) wvalue wend

/-- The loop over the exponent; it needs at most `wstart + 1` passes. -/
def expLoop (p m : BigNum z) (window : ℕ) (val : List (BigNum z)) : ℕ → ℕ → Bool → BigNum z → Option (BigNum z)
  | 0, _, _, r => some r
  | fuel + 1, wstart, start, r =>
    if bnIsBitSet p wstart = false then
      (if start then some r else modSqr mem m r).bind fun r =>
        if wstart = 0 then some r else expLoop p m window val fuel (wstart - 1) start r
    else
      let w := scanWindow p wstart (window - 1) 1 1 0
      (if start then some r else sqrTimes mem m (w.2 + 1) r).bind fun r =>
        (modMul mem r (val.getD (w.1 >>> 1) .zero) m).bind fun r =>
          if wstart < w.2 + 1 then some r else expLoop p m window val fuel (wstart - (w.2 + 1)) false r

end BigNum

/-- `BN_mod_exp_simple`. -/
def bnModExpSimple (a p m : BigNum z) : Option (BigNum z) :=
  let bits := p.numBits
  if bits = 0 then some .one
  else
    (a.mod m).bind fun v =>
      let window := bnWindowBits bits
      (if window > 1 then (BigNum.modSqr mem m v).bind fun d => BigNum.powers mem d m (2 ^ (window - 1) - 1) v
        else some [v]).bind fun val => BigNum.expLoop mem p m window val bits (bits - 1) true .one

end Model

namespace BigNum
variable {z : WordSize} (mem : ℕ → ℕ)

theorem ofPair_pair (r : BigNum z) : ofPair (r.d, r.neg) = some r := dif_pos ⟨r.small, r.fixed⟩

theorem one_abs : (one : BigNum z).abs = 1 := Nat.ofDigits_singleton

theorem zero_abs : (zero : BigNum z).abs = 0 := Nat.ofDigits_nil

theorem mod_abs (a : BigNum z) {m : BigNum z} (h : m.abs ≠ 0) : ∃ r, a.mod m = some r ∧ r.abs = a.abs % m.abs := by
  obtain ⟨q, r, hrun, -, -, hr, -⟩ := bnDiv_abs a h
  exact ⟨r, by rw [mod, bnMod, hrun, Option.map_some, Option.bind_some, ofPair_pair], hr⟩

theorem modSqr_abs (a : BigNum z) {m : BigNum z} (h : m.abs ≠ 0) :
    ∃ r, modSqr mem m a = some r ∧ r.abs = bnModMul a.abs a.abs m.abs := by
  obtain ⟨r, hr, habs⟩ := mod_abs (bnSqr mem a) h
  exact ⟨r, hr, by rw [habs, (bnSqr_abs mem a).1, bnModMul]⟩

theorem modMul_abs (a b : BigNum z) {m : BigNum z} (h : m.abs ≠ 0) :
    ∃ r, modMul mem a b m = some r ∧ r.abs = bnModMul a.abs b.abs m.abs := by
  obtain ⟨r, hr, habs⟩ := mod_abs (bnMul mem a b) h
  exact ⟨r, hr, by rw [habs, (bnMul_spec mem a b).1, bnModMul]⟩

theorem powers_abs (d : BigNum z) {m : BigNum z} (h : m.abs ≠ 0) (n : ℕ) (v : BigNum z) :
    ∃ val, powers mem d m n v = some val ∧
      val.map abs = List.iterate (fun v => bnModMul v d.abs m.abs) v.abs (n + 1) := by
  induction n generalizing v with
  | zero => exact ⟨[v], rfl, rfl⟩
  | succ n ih =>
    obtain ⟨w, hw, hwabs⟩ := modMul_abs mem v d h
    obtain ⟨val, hval, hvalabs⟩ := ih w
    refine ⟨v :: val, ?_, ?_⟩
    · rw [powers, hw, Option.bind_some, hval, Option.map_some]
    · rw [List.map_cons, hvalabs, hwabs]
      rfl

theorem sqrTimes_abs {m : BigNum z} (h : m.abs ≠ 0) (n : ℕ) (a : BigNum z) :
    ∃ r, sqrTimes mem m n a = some r ∧ r.abs = (fun r => bnModMul r r m.abs)^[n] a.abs := by
  induction n generalizing a with
  | zero => exact ⟨a, rfl, rfl⟩
  | succ n ih =>
    obtain ⟨w, hw, hwabs⟩ := modSqr_abs mem a h
    obtain ⟨r, hr, hrabs⟩ := ih w
    refine ⟨r, ?_, ?_⟩
    · rw [sqrTimes, hw, Option.bind_some, hr]
    · rw [hrabs, hwabs, Function.iterate_succ_apply]

theorem scanWindow_abs (p : BigNum z) (wstart n i wvalue wend : ℕ) :
    scanWindow p wstart n i wvalue wend = Bignum.scanWindow p.abs wstart n i wvalue wend := by
  induction n generalizing i wvalue wend with
  | zero => rfl
  | succ n ih => rw [scanWindow, Bignum.scanWindow, bnIsBitSet_eq, ih, ih]

/-- A pass over the words is a pass over the numbers. -/
theorem expLoop_abs (p : BigNum z) {m : BigNum z} (h : m.abs ≠ 0) (window : ℕ) (val : List (BigNum z))
    (fuel wstart : ℕ) (start : Bool) (a : BigNum z) :
    ∃ r, expLoop mem p m window val fuel wstart start a = some r ∧
      r.abs = Bignum.expLoop p.abs m.abs window (val.map abs) fuel wstart start a.abs := by
  induction fuel generalizing wstart start a with
  | zero => exact ⟨a, rfl, rfl⟩
  | succ fuel ih =>
    rw [expLoop, Bignum.expLoop, bnIsBitSet_eq, scanWindow_abs]
    split
    · obtain ⟨b, hb, hbabs⟩ : ∃ b, (if start then some a else modSqr mem m a) = some b ∧
          b.abs = if start then a.abs else bnModMul a.abs a.abs m.abs := by
        cases start
        · exact modSqr_abs mem a h
        · exact ⟨a, rfl, rfl⟩
      rw [hb, Option.bind_some]
      dsimp only
      rw [← hbabs]
      split
      · exact ⟨b, rfl, rfl⟩
      · exact ih _ _ _
    · obtain ⟨⟨wvalue, wend⟩, hw⟩ : ∃ w, w = Bignum.scanWindow p.abs wstart (window - 1) 1 1 0 := ⟨_, rfl⟩
      rw [← hw]
      dsimp only
      obtain ⟨b, hb, hbabs⟩ : ∃ b, (if start then some a else sqrTimes mem m (wend + 1) a) = some b ∧
          b.abs = if start then a.abs else (fun r => bnModMul r r m.abs)^[wend + 1] a.abs := by
        cases start
        · exact sqrTimes_abs mem h (wend + 1) a
        · exact ⟨a, rfl, rfl⟩
      obtain ⟨c, hc, hcabs⟩ := modMul_abs mem b (val.getD (wvalue >>> 1) .zero) h
      have hentry : (val.map abs).getD (wvalue >>> 1) 0 = (val.getD (wvalue >>> 1) .zero).abs := by
        rw [← zero_abs (z := z)]
        exact List.getD_map ..
      rw [hb, Option.bind_some, hc, Option.bind_some, ← hbabs, hentry, ← hcabs]
      split
      · exact ⟨c, rfl, rfl⟩
      · exact ih _ _ _

end BigNum

section Specs
variable {z : WordSize} (mem : ℕ → ℕ)

/-- The power of words is the power of the numbers, and fails where that does. -/
theorem bnModExpSimple_abs (a p m : BigNum z) :
    (bnModExpSimple mem a p m).map BigNum.abs = bnModExp a.abs p.abs m.abs := by
  rw [bnModExpSimple, bnModExp, bnNumBits, p.numBits_eq]
  dsimp only
  split
  · rw [Option.map_some, BigNum.one_abs]
  · by_cases hm : m.abs = 0
    · rw [if_pos hm, BigNum.mod, bnMod, bnDiv_zero a hm, Option.map_none, Option.bind_none, Option.bind_none,
        Option.map_none]
    · rw [if_neg hm]
      obtain ⟨v, hv, hvabs⟩ := BigNum.mod_abs a hm
      rw [hv, Option.bind_some]
      generalize Nat.size p.abs = bits
      -- the table
      obtain ⟨val, hval, hvalabs⟩ : ∃ val, (if bnWindowBits bits > 1 then
            (BigNum.modSqr mem m v).bind fun d => BigNum.powers mem d m (2 ^ (bnWindowBits bits - 1) - 1) v
          else some [v]) = some val ∧ val.map BigNum.abs = powerTable a.abs m.abs (bnWindowBits bits) := by
        split
        · obtain ⟨d, hd, hdabs⟩ := BigNum.modSqr_abs mem v hm
          obtain ⟨val, hval, hvalabs⟩ := BigNum.powers_abs mem d hm (2 ^ (bnWindowBits bits - 1) - 1) v
          rw [Nat.sub_add_cancel Nat.one_le_two_pow, hdabs, hvabs] at hvalabs
          exact ⟨val, by rw [hd, Option.bind_some, hval], hvalabs⟩
        · next hone =>
          have hwindow : bnWindowBits bits - 1 = 0 := by omega
          exact ⟨[v], rfl, by rw [powerTable, hwindow, List.map_singleton, hvabs]; rfl⟩
      rw [hval, Option.bind_some]
      obtain ⟨r, hr, hrabs⟩ := BigNum.expLoop_abs mem p hm (bnWindowBits bits) val bits (bits - 1) true .one
      rw [hr, Option.map_some, hrabs, hvalabs, BigNum.one_abs]

/-- `BN_mod_exp_simple` on words, whatever the memory of its products held: the power of the numbers without their
signs, and failure for a zero modulus unless the exponent is zero. -/
theorem bn_mod_exp_words (a p m : BigNum z) :
    (bnModExpSimple mem a p m).map BigNum.abs =
      if p.abs = 0 then some 1 else if m.abs = 0 then none else some (a.abs ^ p.abs % m.abs) := by
  rw [bnModExpSimple_abs, bnModExp_eq]

end Specs

end Neufbox.Bignum
