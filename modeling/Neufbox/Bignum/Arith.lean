import Neufbox.Bignum.Words

/-! # Sums and differences of the big numbers

`bn_add.c` and `BN_ucmp` of `bn_lib.c` in `package/ead/src/tinysrp`. A number keeps its words without a zero
word at the top, which is what `bn_fix_top` sees to; the ways in which memory can fail are left out. The
words a result overwrites are those of its operand in place, so a number that is both is read before it
is written. -/
namespace Neufbox.Bignum
open Radix
set_option autoImplicit false
set_option maxHeartbeats 250000
set_option maxRecDepth 120000

/-- `struct bignum_st`; the words are as many as `top` says. -/
structure BigNum (z : WordSize) where
  d : List ℕ
  neg : Bool
  small : Small z.base d
  fixed : Fixed d

namespace BigNum
variable {z : WordSize}

def top (a : BigNum z) : ℕ := a.d.length

/-- The number without its sign. -/
def abs (a : BigNum z) : ℕ := Nat.ofDigits z.base a.d

def value (a : BigNum z) : ℤ := if a.neg then -a.abs else a.abs

/-- Words that `bn_fix_top` has gone over. -/
def ofWords (ds : List ℕ) (h : Small z.base ds) (neg : Bool) : BigNum z := ⟨Radix.fixTop ds, neg, h.fixTop, fixTop_fixed ds⟩

def zero : BigNum z := ⟨[], false, Small.nil, by simp [Fixed]⟩

/-- `BN_is_zero`. -/
def isZero (a : BigNum z) : Prop := a.top = 0 ∨ a.top = 1 ∧ a.d.getD 0 0 = 0

instance (a : BigNum z) : Decidable a.isZero := inferInstanceAs (Decidable (_ ∨ _))

@[simp] theorem ofWords_abs (ds : List ℕ) (h : Small z.base ds) (neg : Bool) :
    (ofWords ds h neg).abs = Nat.ofDigits z.base ds := ofDigits_fixTop ds

theorem abs_lt (a : BigNum z) : a.abs < z.base ^ a.top := a.small.lt z.one_lt_base

theorem isZero_iff (a : BigNum z) : a.isZero ↔ a.abs = 0 := by
  have hnil : a.abs = 0 ↔ a.d = [] :=
    ⟨fun h => a.fixed.eq_nil z.one_lt_base h, fun h => by rw [abs, h, Nat.ofDigits_nil]⟩
  rw [hnil, isZero, top]
  refine ⟨fun h => ?_, fun h => Or.inl (by rw [h, List.length_nil])⟩
  rcases h with h | ⟨hlen, hzero⟩
  · exact List.length_eq_zero_iff.mp h
  · obtain ⟨x, hx⟩ := List.length_eq_one_iff.mp hlen
    have hfixed := a.fixed
    rw [hx, List.getD_cons_zero] at hzero
    rw [hx, hzero] at hfixed
    exact absurd rfl hfixed

/-- Words and sign make the number. -/
theorem eq_of_abs {a b : BigNum z} (h : a.abs = b.abs) (hneg : a.neg = b.neg) : a = b := by
  obtain ⟨d, neg, small, fixed⟩ := a
  obtain ⟨e, neg', small', fixed'⟩ := b
  obtain rfl : neg = neg' := hneg
  obtain rfl : d = e := fixed.eq z.one_lt_base small small' fixed' h
  rfl

end BigNum

section Model
variable (z : WordSize)

/-! ## Words -/

/-- `BN_ucmp` on the words. -/
def ucmpWords (a b : List ℕ) : ℤ :=
  if a.length = b.length then compareDown a.reverse b.reverse else (a.length : ℤ) - b.length

/-- The carry of `BN_uadd` above the shorter number. -/
def carryUp : List ℕ → List ℕ
  | [] => [1]
  | t1 :: ap => if (t1 + 1) % z.base ≥ t1 then (t1 + 1) % z.base :: ap else (t1 + 1) % z.base :: carryUp ap

/-- The words `BN_uadd` writes, where `a` is not the shorter. -/
def uaddWords (a b : List ℕ) : List ℕ :=
  let s := bnAddWords z (a.take b.length) b
  if s.2 = 0 then s.1 ++ a.drop b.length else s.1 ++ carryUp z (a.drop b.length)

/-- The loop of `BN_usub` over the shorter number. -/
def subLoop : List ℕ → List ℕ → Bool → List ℕ × Bool
  | t1 :: ap, t2 :: bp, carry =>
    let t := if carry then ((t1 + z.base - t2 - 1) % z.base, decide (t1 ≤ t2))
      else ((t1 + z.base - t2) % z.base, decide (t1 < t2))
    let s := subLoop ap bp t.2
    (t.1 :: s.1, s.2)
  | _, _, carry => ([], carry)

def borrowDown : List ℕ → List ℕ
  | [] => []
  | t1 :: ap =>
    let t2 := (t1 + z.base - 1) % z.base
    if t1 > t2 then t2 :: ap else t2 :: borrowDown ap

/-- The words `BN_usub` writes before the top is fixed. -/
def usubWords (a b : List ℕ) : List ℕ :=
  let s := subLoop z (a.take b.length) b false
  if s.2 then s.1 ++ borrowDown z (a.drop b.length) else s.1 ++ a.drop b.length

end Model

section Specs
variable {z : WordSize}

theorem carryUp_ne_nil (ds : List ℕ) : carryUp z ds ≠ [] := by
  cases ds with
  | nil => exact List.cons_ne_nil _ _
  | cons t ds =>
    rw [carryUp]
    split <;> exact List.cons_ne_nil _ _

theorem carryUp_spec {ds : List ℕ} (h : Small z.base ds) :
    Small z.base (carryUp z ds) ∧ Nat.ofDigits z.base (carryUp z ds) = Nat.ofDigits z.base ds + 1 ∧
      (Fixed ds → Fixed (carryUp z ds)) := by
  induction ds with
  | nil => exact ⟨small_cons.mpr ⟨z.one_lt_base, Small.nil⟩, rfl, fun _ => by simp [carryUp, Fixed]⟩
  | cons t ds ih =>
    obtain ⟨ht, hds⟩ := small_cons.mp h
    obtain ⟨hs, hv, hf⟩ := ih hds
    have hone := z.one_lt_base
    rw [carryUp]
    rcases Nat.lt_or_ge (t + 1) z.base with hlt | hge
    · rw [Nat.mod_eq_of_lt hlt, if_pos (by omega)]
      refine ⟨small_cons.mpr ⟨hlt, hds⟩, by rw [Nat.ofDigits_cons, Nat.ofDigits_cons]; ring, fun hfix => ?_⟩
      cases ds with
      | nil => simp [Fixed]
      | cons e ds => exact (fixed_append [t + 1] (List.cons_ne_nil e ds)).mpr hfix.tail
    · have heq : t + 1 = z.base := by omega
      rw [heq, Nat.mod_self, if_neg (by omega)]
      refine ⟨small_cons.mpr ⟨z.base_pos, hs⟩, ?_, fun hfix => ?_⟩
      · rw [Nat.ofDigits_cons, Nat.ofDigits_cons, hv]
        linarith
      · exact (fixed_append [0] (carryUp_ne_nil ds)).mpr (hf hfix.tail)

theorem uaddWords_spec {a b : List ℕ} (hlen : b.length ≤ a.length) (ha : Small z.base a) (hb : Small z.base b)
    (hfix : Fixed a) :
    Small z.base (uaddWords z a b) ∧ Fixed (uaddWords z a b) ∧
      Nat.ofDigits z.base (uaddWords z a b) = Nat.ofDigits z.base a + Nat.ofDigits z.base b := by
  have htake : (a.take b.length).length = b.length := by rw [List.length_take, Nat.min_eq_left hlen]
  obtain ⟨hl, hs, hc, hv⟩ := addLoop_spec htake (ha.take b.length) hb (Nat.zero_le 1)
  rw [htake] at hl hv
  obtain ⟨hus, huv, huf⟩ := carryUp_spec (ha.drop b.length)
  have hsplit := ofDigits_take_drop (b := z.base) a hlen
  rw [uaddWords, bnAddWords]
  split
  · next hzero =>
    rw [hzero, Nat.mul_zero, Nat.add_zero] at hv
    have hvalue : Nat.ofDigits z.base ((addLoop z (a.take b.length) b 0).1 ++ a.drop b.length) =
        Nat.ofDigits z.base a + Nat.ofDigits z.base b := by
      rw [Nat.ofDigits_append, hl, hv, hsplit]
      ring
    have hsmall := small_append.mpr ⟨hs, ha.drop b.length⟩
    refine ⟨hsmall, fixed_of_le z.one_lt_base hsmall fun hne => ?_, hvalue⟩
    have hlength : ((addLoop z (a.take b.length) b 0).1 ++ a.drop b.length).length = a.length := by
      rw [List.length_append, hl, List.length_drop]
      omega
    rw [hvalue, hlength]
    have hane : a ≠ [] := fun h => hne (List.length_eq_zero_iff.mp (by rw [hlength, h, List.length_nil]))
    exact (hfix.le hane).trans (Nat.le_add_right _ _)
  · next hone =>
    have hcarry : (addLoop z (a.take b.length) b 0).2 = 1 := by omega
    rw [hcarry, Nat.mul_one] at hv
    refine ⟨small_append.mpr ⟨hs, hus⟩, (fixed_append _ (carryUp_ne_nil _)).mpr (huf (hfix.drop _)), ?_⟩
    rw [Nat.ofDigits_append, hl, huv, hsplit]
    linarith

theorem subLoop_spec {a b : List ℕ} (carry : Bool) (hlen : a.length = b.length) (ha : Small z.base a)
    (hb : Small z.base b) :
    (subLoop z a b carry).1.length = a.length ∧ Small z.base (subLoop z a b carry).1 ∧
    Nat.ofDigits z.base (subLoop z a b carry).1 + Nat.ofDigits z.base b + carry.toNat =
      Nat.ofDigits z.base a + z.base ^ a.length * (subLoop z a b carry).2.toNat := by
  induction a generalizing b carry with
  | nil =>
    rw [List.length_nil, eq_comm, List.length_eq_zero_iff] at hlen
    rw [hlen, subLoop]
    · exact ⟨rfl, Small.nil, by simp⟩
    · simp
  | cons x a ih =>
    cases b with
    | nil => exact absurd hlen (Nat.succ_ne_zero _)
    | cons y b =>
      obtain ⟨hx, ha⟩ := small_cons.mp ha
      obtain ⟨hy, hb⟩ := small_cons.mp hb
      -- one word
      obtain ⟨t, ht⟩ : ∃ t, t = if carry then ((x + z.base - y - 1) % z.base, decide (x ≤ y))
          else ((x + z.base - y) % z.base, decide (x < y)) := ⟨_, rfl⟩
      have hword : t.1 < z.base ∧ t.1 + y + carry.toNat = x + z.base * t.2.toNat := by
        rw [ht]
        cases carry
        · rw [if_neg Bool.false_ne_true]
          refine ⟨Nat.mod_lt _ z.base_pos, ?_⟩
          dsimp only [Bool.toNat_false]
          by_cases h : x < y
          · rw [decide_eq_true h, Nat.mod_eq_of_lt (by omega), Bool.toNat_true]
            omega
          · rw [decide_eq_false h, Nat.mod_eq_sub_mod (by omega), Nat.mod_eq_of_lt (by omega), Bool.toNat_false]
            omega
        · rw [if_pos rfl]
          refine ⟨Nat.mod_lt _ z.base_pos, ?_⟩
          dsimp only [Bool.toNat_true]
          by_cases h : x ≤ y
          · rw [decide_eq_true h, Nat.mod_eq_of_lt (by omega), Bool.toNat_true]
            omega
          · rw [decide_eq_false h, Nat.mod_eq_sub_mod (by omega), Nat.mod_eq_of_lt (by omega), Bool.toNat_false]
            omega
      rw [subLoop, ← ht]
      obtain ⟨hl, hs, hv⟩ := ih t.2 (Nat.succ.inj hlen) ha hb
      refine ⟨congrArg Nat.succ hl, small_cons.mpr ⟨hword.1, hs⟩, ?_⟩
      rw [Nat.ofDigits_cons, Nat.ofDigits_cons, Nat.ofDigits_cons, List.length_cons, pow_succ']
      linarith [congrArg (z.base * ·) hv, hword.2]

theorem borrowDown_spec {ds : List ℕ} (h : Small z.base ds) :
    (borrowDown z ds).length = ds.length ∧ Small z.base (borrowDown z ds) ∧
      (0 < Nat.ofDigits z.base ds → Nat.ofDigits z.base (borrowDown z ds) + 1 = Nat.ofDigits z.base ds) := by
  induction ds with
  | nil => exact ⟨rfl, Small.nil, fun h => absurd h (lt_irrefl 0)⟩
  | cons t ds ih =>
    obtain ⟨ht, hds⟩ := small_cons.mp h
    obtain ⟨hl, hs, hv⟩ := ih hds
    have hone := z.one_lt_base
    rw [borrowDown]
    rcases Nat.eq_zero_or_pos t with rfl | hpos
    · rw [Nat.zero_add, Nat.mod_eq_of_lt (by omega), if_neg (by omega)]
      refine ⟨congrArg Nat.succ hl, small_cons.mpr ⟨by omega, hs⟩, fun hgt => ?_⟩
      rw [Nat.ofDigits_cons, Nat.zero_add] at hgt
      rw [Nat.ofDigits_cons, Nat.ofDigits_cons, ← hv (Nat.pos_of_mul_pos_left hgt), Nat.mul_add]
      omega
    · have heq : (t + z.base - 1) % z.base = t - 1 := by
        rw [show t + z.base - 1 = t - 1 + z.base from by omega, Nat.add_mod_right, Nat.mod_eq_of_lt (by omega)]
      rw [heq, if_pos (by omega)]
      refine ⟨rfl, small_cons.mpr ⟨by omega, hds⟩, fun _ => ?_⟩
      rw [Nat.ofDigits_cons, Nat.ofDigits_cons]
      omega

/-- The comparison also holds for a first number with a zero at the top, where the second is zero. -/
theorem ucmpWords_lt {a b : List ℕ} (ha : Small z.base a) (hb : Small z.base b) (hbfix : Fixed b)
    (hafix : Fixed a ∨ b = []) : ucmpWords a b < 0 ↔ Nat.ofDigits z.base a < Nat.ofDigits z.base b := by
  rw [ucmpWords]
  split
  · next h => exact (compareDown_spec z.one_lt_base ha hb h).1
  · next h =>
    rcases Nat.lt_or_gt_of_ne h with hlt | hgt
    · have hv := hbfix.length_lt z.one_lt_base ha hlt
      omega
    · refine ⟨fun hneg => by omega, fun hv => ?_⟩
      rcases hafix with hafix | rfl
      · exact absurd (hafix.length_lt z.one_lt_base hb hgt) hv.le.not_gt
      · exact absurd hv (Nat.not_lt_zero _)

theorem usubWords_small {a b : List ℕ} (hlen : b.length ≤ a.length) (ha : Small z.base a) (hb : Small z.base b) :
    Small z.base (usubWords z a b) ∧ (usubWords z a b).length = a.length := by
  have htake : (a.take b.length).length = b.length := by rw [List.length_take, Nat.min_eq_left hlen]
  obtain ⟨hl, hs, -⟩ := subLoop_spec false htake (ha.take b.length) hb
  obtain ⟨hbl, hbs, -⟩ := borrowDown_spec (ha.drop b.length)
  rw [List.length_drop] at hbl
  rw [usubWords]
  split
  · refine ⟨small_append.mpr ⟨hs, hbs⟩, ?_⟩
    rw [List.length_append, hl, hbl, htake]
    omega
  · refine ⟨small_append.mpr ⟨hs, ha.drop _⟩, ?_⟩
    rw [List.length_append, hl, List.length_drop, htake]
    omega

theorem usubWords_value {a b : List ℕ} (hlen : b.length ≤ a.length) (ha : Small z.base a) (hb : Small z.base b)
    (hle : Nat.ofDigits z.base b ≤ Nat.ofDigits z.base a) :
    Nat.ofDigits z.base (usubWords z a b) + Nat.ofDigits z.base b = Nat.ofDigits z.base a := by
  have htake : (a.take b.length).length = b.length := by rw [List.length_take, Nat.min_eq_left hlen]
  obtain ⟨hl, hs, hv⟩ := subLoop_spec false htake (ha.take b.length) hb
  obtain ⟨-, -, hbv⟩ := borrowDown_spec (ha.drop b.length)
  have hsplit := ofDigits_take_drop (b := z.base) a hlen
  rw [htake] at hl hv
  rw [Bool.toNat_false, Nat.add_zero] at hv
  rw [usubWords]
  split
  · next hc =>
    rw [hc, Bool.toNat_true, Nat.mul_one] at hv
    have hlt := hs.lt z.one_lt_base
    rw [hl] at hlt
    -- the words above cannot be zero, or the difference would be negative
    have hpos : 0 < Nat.ofDigits z.base (a.drop b.length) := by
      by_contra hzero
      rw [Nat.eq_zero_of_not_pos hzero, Nat.mul_zero, Nat.add_zero] at hsplit
      omega
    have hval := hbv hpos
    rw [Nat.ofDigits_append, hl, hsplit, ← hval]
    linarith
  · next hc =>
    rw [Bool.not_eq_true] at hc
    rw [hc, Bool.toNat_false, Nat.mul_zero, Nat.add_zero] at hv
    rw [Nat.ofDigits_append, hl, hsplit]
    linarith

end Specs

/-! ## Numbers -/

section Numbers
variable {z : WordSize}

/-- `BN_ucmp`. -/
def bnUcmp (a b : BigNum z) : ℤ := ucmpWords a.d b.d

/-- `BN_uadd`, the sign as the callers set it. -/
def bnUadd (a b : BigNum z) (neg : Bool) : BigNum z :=
  if h : a.top < b.top then
    have hspec := uaddWords_spec (Nat.le_of_lt h) b.small a.small b.fixed
    ⟨uaddWords z b.d a.d, neg, hspec.1, hspec.2.1⟩
  else
    have hspec := uaddWords_spec (Nat.le_of_not_lt h) a.small b.small a.fixed
    ⟨uaddWords z a.d b.d, neg, hspec.1, hspec.2.1⟩

/-- `BN_usub`, the sign as the callers set it; `none` where it fails. -/
def bnUsub (a b : BigNum z) (neg : Bool) : Option (BigNum z) :=
  if h : a.top < b.top then none
  else some (.ofWords (usubWords z a.d b.d) (usubWords_small (Nat.le_of_not_lt h) a.small b.small).1 neg)

/-- The difference both `BN_add` and `BN_sub` come to. -/
def bnDiff (a b : BigNum z) : Option (BigNum z) :=
  if bnUcmp a b < 0 then bnUsub b a true else bnUsub a b false

def bnAdd (a b : BigNum z) : Option (BigNum z) :=
  if a.neg ≠ b.neg then (if a.neg then bnDiff b a else bnDiff a b)
  else some (bnUadd a b a.neg)

def bnSub (a b : BigNum z) : Option (BigNum z) :=
  if a.neg then
    if b.neg then bnDiff b a else some (bnUadd a b true)
  else if b.neg then some (bnUadd a b false)
  else bnDiff a b

theorem bnUcmp_spec (a b : BigNum z) : (bnUcmp a b < 0 ↔ a.abs < b.abs) ∧ (bnUcmp a b = 0 ↔ a.abs = b.abs) := by
  rw [bnUcmp, ucmpWords]
  split
  · next h => exact compareDown_spec z.one_lt_base a.small b.small h
  · next h =>
    rcases Nat.lt_or_gt_of_ne h with hlt | hgt
    · have hv : a.abs < b.abs := b.fixed.length_lt z.one_lt_base a.small hlt
      constructor <;> omega
    · have hv : b.abs < a.abs := a.fixed.length_lt z.one_lt_base b.small hgt
      constructor <;> omega

theorem top_le_of_abs {a b : BigNum z} (h : a.abs ≤ b.abs) : a.top ≤ b.top := by
  by_contra hlt
  exact absurd (a.fixed.length_lt z.one_lt_base b.small (Nat.lt_of_not_le hlt)) h.not_gt

theorem bnUadd_spec (a b : BigNum z) (neg : Bool) : (bnUadd a b neg).abs = a.abs + b.abs ∧ (bnUadd a b neg).neg = neg := by
  rw [bnUadd]
  split
  · next h =>
    have hvalue := (uaddWords_spec (Nat.le_of_lt h) b.small a.small b.fixed).2.2
    exact ⟨hvalue.trans (Nat.add_comm _ _), rfl⟩
  · next h => exact ⟨(uaddWords_spec (Nat.le_of_not_lt h) a.small b.small a.fixed).2.2, rfl⟩

theorem bnUsub_spec {a b : BigNum z} (h : b.abs ≤ a.abs) (neg : Bool) :
    ∃ r, bnUsub a b neg = some r ∧ r.abs = a.abs - b.abs ∧ r.neg = neg := by
  have htop : b.top ≤ a.top := top_le_of_abs h
  have hvalue := usubWords_value htop a.small b.small h
  rw [bnUsub, dif_neg htop.not_gt]
  refine ⟨_, rfl, ?_, rfl⟩
  rw [BigNum.ofWords_abs]
  change _ = Nat.ofDigits z.base a.d - Nat.ofDigits z.base b.d
  omega

theorem bnDiff_spec (a b : BigNum z) : ∃ r, bnDiff a b = some r ∧ r.value = (a.abs : ℤ) - b.abs ∧
    r.neg = decide (a.abs < b.abs) := by
  rw [bnDiff]
  by_cases h : a.abs < b.abs
  · rw [if_pos ((bnUcmp_spec a b).1.mpr h)]
    obtain ⟨r, hr, habs, hneg⟩ := bnUsub_spec h.le true
    refine ⟨r, hr, ?_, by rw [hneg, decide_eq_true h]⟩
    rw [BigNum.value, hneg, if_pos rfl, habs]
    omega
  · rw [if_neg (fun hlt => h ((bnUcmp_spec a b).1.mp hlt))]
    obtain ⟨r, hr, habs, hneg⟩ := bnUsub_spec (Nat.le_of_not_lt h) false
    refine ⟨r, hr, ?_, by rw [hneg, decide_eq_false h]⟩
    rw [BigNum.value, hneg, if_neg Bool.false_ne_true, habs]
    omega

theorem BigNum.value_of_neg {a : BigNum z} {neg : Bool} {n : ℕ} (habs : a.abs = n) (hneg : a.neg = neg) :
    a.value = if neg then -(n : ℤ) else n := by
  rw [value, habs, hneg]

theorem bnAdd_spec (a b : BigNum z) : ∃ r, bnAdd a b = some r ∧ r.value = a.value + b.value := by
  rw [bnAdd, BigNum.value, BigNum.value]
  cases ha : a.neg <;> cases hb : b.neg
  · obtain ⟨habs, hneg⟩ := bnUadd_spec a b false
    refine ⟨bnUadd a b false, by simp, ?_⟩
    rw [BigNum.value_of_neg habs hneg]
    simp
  · obtain ⟨r, hr, hv, -⟩ := bnDiff_spec a b
    refine ⟨r, by simpa using hr, ?_⟩
    rw [hv]
    simp [sub_eq_add_neg]
  · obtain ⟨r, hr, hv, -⟩ := bnDiff_spec b a
    refine ⟨r, by simpa using hr, ?_⟩
    rw [hv]
    simp
    ring
  · obtain ⟨habs, hneg⟩ := bnUadd_spec a b true
    refine ⟨bnUadd a b true, by simp, ?_⟩
    rw [BigNum.value_of_neg habs hneg]
    push_cast
    simp
    ring

theorem bnSub_spec (a b : BigNum z) : ∃ r, bnSub a b = some r ∧ r.value = a.value - b.value := by
  rw [bnSub, BigNum.value, BigNum.value]
  cases ha : a.neg <;> cases hb : b.neg
  · obtain ⟨r, hr, hv, -⟩ := bnDiff_spec a b
    exact ⟨r, by simpa using hr, by simpa using hv⟩
  · obtain ⟨habs, hneg⟩ := bnUadd_spec a b false
    refine ⟨bnUadd a b false, by simp, ?_⟩
    rw [BigNum.value_of_neg habs hneg]
    simp
  · obtain ⟨habs, hneg⟩ := bnUadd_spec a b true
    refine ⟨bnUadd a b true, by simp, ?_⟩
    rw [BigNum.value_of_neg habs hneg]
    push_cast
    simp
    ring
  · obtain ⟨r, hr, hv, -⟩ := bnDiff_spec b a
    refine ⟨r, by simpa using hr, ?_⟩
    rw [hv]
    simp
    ring

/-- `BN_add` and `BN_sub` never fail, and give the sum and the difference of signed numbers. -/
theorem bn_sum_difference (a b : BigNum z) :
    (∃ r, bnAdd a b = some r ∧ r.value = a.value + b.value) ∧ (∃ r, bnSub a b = some r ∧ r.value = a.value - b.value) :=
  ⟨bnAdd_spec a b, bnSub_spec a b⟩

end Numbers

end Neufbox.Bignum
