import Neufbox.Library.Radix

/-! # The word loops of the big numbers

`bn_asm.c` of `package/ead/src/tinysrp` with the macros of `bn_lcl.h`, as `bn.h` sets them: no long long
arithmetic, so words are multiplied and divided by halves. The unrolled loops take one word at a
time here. -/
namespace Neufbox.Bignum
open Radix
set_option autoImplicit false
set_option maxHeartbeats 250000
set_option maxRecDepth 120000

/-- The two sizes of `unsigned long`. -/
inductive WordSize
  | thirtyTwoBit
  | sixtyFourBitLong
  deriving DecidableEq

/-- `BN_BITS4`. -/
def WordSize.bits4 : WordSize → ℕ
  | .thirtyTwoBit => 16
  | .sixtyFourBitLong => 32

/-- `BN_BITS2`. -/
def WordSize.bits2 (z : WordSize) : ℕ := 2 * z.bits4

/-- One more than `BN_MASK2l`. -/
def WordSize.half (z : WordSize) : ℕ := 2 ^ z.bits4

/-- One more than `BN_MASK2`. -/
def WordSize.base (z : WordSize) : ℕ := 2 ^ z.bits2

section Model
variable (z : WordSize)

/-! ## Macros -/

def lbits (a : ℕ) : ℕ := a % z.half
def hbits (a : ℕ) : ℕ := a / z.half % z.half
def l2hbits (a : ℕ) : ℕ := a % z.half * z.half

/-- `mul64`: the words `l` and `h` it leaves. -/
def mul64 (l h bl bh : ℕ) : ℕ × ℕ :=
  let m := addCarry z.base (bh * l % z.base) (bl * h % z.base)
  let lt := addCarry z.base (bl * l % z.base) (l2hbits z m.1)
  (lt.1, (bh * h + z.half * m.2 + hbits z m.1 + lt.2) % z.base)

/-- `mul_add`: the word and the carry. -/
def mulAdd (r a bl bh c : ℕ) : ℕ × ℕ :=
  let p := mul64 z (lbits z a) (hbits z a) bl bh
  let l := addCarry z.base p.1 c
  let l' := addCarry z.base l.1 r
  (l'.1, (p.2 + l.2 + l'.2) % z.base)

def mul (a bl bh c : ℕ) : ℕ × ℕ :=
  let p := mul64 z (lbits z a) (hbits z a) bl bh
  let l := addCarry z.base p.1 c
  (l.1, (p.2 + l.2) % z.base)

def sqr64 (a : ℕ) : ℕ × ℕ :=
  let l := lbits z a
  let h := hbits z a
  let m := l * h % z.base
  let s := addCarry z.base (l * l % z.base) (m % z.half * (2 * z.half) % z.base)
  (s.1, (h * h + m / (z.half / 2) + s.2) % z.base)

/-! ## `bn_asm.c` -/

/-- The loop of `bn_mul_add_words`, with the words it writes and the last carry. -/
def mulAddLoop (bl bh : ℕ) : List ℕ → List ℕ → ℕ → List ℕ × ℕ
  | r :: rp, a :: ap, c =>
    let s := mulAdd z r a bl bh c
    let t := mulAddLoop bl bh rp ap s.2
    (s.1 :: t.1, t.2)
  | _, _, c => ([], c)

def bnMulAddWords (rp ap : List ℕ) (w : ℕ) : List ℕ × ℕ := mulAddLoop z (lbits z w) (hbits z w) rp ap 0

def mulLoop (bl bh : ℕ) : List ℕ → ℕ → List ℕ × ℕ
  | a :: ap, c =>
    let s := mul z a bl bh c
    let t := mulLoop bl bh ap s.2
    (s.1 :: t.1, t.2)
  | [], c => ([], c)

def bnMulWords (ap : List ℕ) (w : ℕ) : List ℕ × ℕ := mulLoop z (lbits z w) (hbits z w) ap 0

def bnSqrWords (a : List ℕ) : List ℕ := a.flatMap fun d => [(sqr64 z d).1, (sqr64 z d).2]

def addLoop : List ℕ → List ℕ → ℕ → List ℕ × ℕ
  | a :: ap, b :: bp, c =>
    let t := addCarry z.base a c
    let l := addCarry z.base b t.1
    let s := addLoop ap bp (t.2 + l.2)
    (l.1 :: s.1, s.2)
  | _, _, c => ([], c)

def bnAddWords (a b : List ℕ) : List ℕ × ℕ := addLoop z a b 0

end Model

/-! ## Sizes -/

theorem WordSize.half_pos (z : WordSize) : 0 < z.half := Nat.two_pow_pos _

theorem WordSize.base_eq (z : WordSize) : z.base = z.half * z.half := by
  rw [WordSize.base, WordSize.half, WordSize.bits2, two_mul, pow_add]

theorem WordSize.half_even (z : WordSize) : 2 * (z.half / 2) = z.half := by
  cases z <;> rfl

theorem WordSize.one_lt_base (z : WordSize) : 1 < z.base := by
  cases z <;> norm_num [WordSize.base, WordSize.bits2, WordSize.bits4]

theorem WordSize.base_pos (z : WordSize) : 0 < z.base := Nat.two_pow_pos _

section Specs
variable {z : WordSize}

theorem lbits_lt (a : ℕ) : lbits z a < z.half := Nat.mod_lt _ z.half_pos
theorem hbits_lt (a : ℕ) : hbits z a < z.half := Nat.mod_lt _ z.half_pos

theorem hbits_eq {a : ℕ} (h : a < z.base) : hbits z a = a / z.half := by
  rw [hbits, Nat.mod_eq_of_lt (Nat.div_lt_of_lt_mul (by rwa [← z.base_eq]))]

/-- A word is its halves. -/
theorem halves {a : ℕ} (h : a < z.base) : lbits z a + z.half * hbits z a = a := by
  rw [hbits_eq h, lbits, Nat.mod_add_div]

theorem mul_half_lt {x y : ℕ} (hx : x < z.half) (hy : y < z.half) : x * y < z.base := by
  rw [z.base_eq]
  exact Nat.mul_lt_mul'' hx hy

theorem mul_lt {a w : ℕ} (ha : a < z.base) (hw : w < z.base) : a * w + (z.base - 1) + (z.base - 1) < z.base * z.base := by
  have hle : a * w ≤ (z.base - 1) * (z.base - 1) := Nat.mul_le_mul (by omega) (by omega)
  obtain ⟨n, hn⟩ : ∃ n, z.base = n + 1 := ⟨z.base - 1, by omega⟩
  rw [hn, Nat.add_sub_cancel] at hle ⊢
  nlinarith

theorem join_lt {l h : ℕ} (hl : l < z.half) (hh : h < z.half) : l + z.half * h < z.base := by
  rw [z.base_eq]
  calc l + z.half * h < z.half + z.half * h := Nat.add_lt_add_right hl _
    _ = z.half * (h + 1) := by ring
    _ ≤ z.half * z.half := Nat.mul_le_mul_left _ hh

/-! ## Products -/

theorem mul64_eq {l h bl bh : ℕ} (hl : l < z.half) (hh : h < z.half) (hbl : bl < z.half) (hbh : bh < z.half) :
    mul64 z l h bl bh =
      ((l + z.half * h) * (bl + z.half * bh) % z.base, (l + z.half * h) * (bl + z.half * bh) / z.base) := by
  rw [mul64, Nat.mod_eq_of_lt (mul_half_lt hbh hl), Nat.mod_eq_of_lt (mul_half_lt hbl hh),
    Nat.mod_eq_of_lt (mul_half_lt hbl hl)]
  have hm := addCarry_eq (mul_half_lt hbh hl) (mul_half_lt hbl hh)
  have hm1 := addCarry_lt z.base_pos (bh * l) (bl * h)
  generalize addCarry z.base (bh * l) (bl * h) = m at hm hm1 ⊢
  have hlow : l2hbits z m.1 < z.base := by
    rw [l2hbits, z.base_eq]
    exact Nat.mul_lt_mul_of_pos_right (Nat.mod_lt _ z.half_pos) z.half_pos
  have hlt := addCarry_eq (mul_half_lt hbl hl) hlow
  refine pair_mod (addCarry_lt z.base_pos _ _) ?_ (Nat.mul_lt_mul'' (join_lt hl hh) (join_lt hbl hbh))
  have hsplit := halves hm1
  rw [lbits] at hsplit
  rw [l2hbits, z.base_eq] at hlt
  rw [z.base_eq] at hm
  rw [l2hbits, z.base_eq]
  linarith [congrArg (z.half * ·) hm, congrArg (z.half * ·) hsplit]

theorem mul64_halves {a w : ℕ} (ha : a < z.base) (hw : w < z.base) :
    mul64 z (lbits z a) (hbits z a) (lbits z w) (hbits z w) = (a * w % z.base, a * w / z.base) := by
  rw [mul64_eq (lbits_lt a) (hbits_lt a) (lbits_lt w) (hbits_lt w), halves ha, halves hw]

theorem mul_eq {a w c : ℕ} (ha : a < z.base) (hw : w < z.base) (hc : c < z.base) :
    mul z a (lbits z w) (hbits z w) c = ((a * w + c) % z.base, (a * w + c) / z.base) := by
  rw [mul, mul64_halves ha hw]
  have hmod : a * w % z.base < z.base := Nat.mod_lt _ z.base_pos
  have hl := addCarry_eq hmod hc
  have hsplit := Nat.mod_add_div (a * w) z.base
  have hbound := mul_lt ha hw
  refine pair_mod (addCarry_lt z.base_pos _ _) ?_ (by omega)
  linarith

theorem mulAdd_eq {r a w c : ℕ} (hr : r < z.base) (ha : a < z.base) (hw : w < z.base) (hc : c < z.base) :
    mulAdd z r a (lbits z w) (hbits z w) c = ((a * w + r + c) % z.base, (a * w + r + c) / z.base) := by
  rw [mulAdd, mul64_halves ha hw]
  have hmod : a * w % z.base < z.base := Nat.mod_lt _ z.base_pos
  have hl := addCarry_eq hmod hc
  have hl' := addCarry_eq (addCarry_lt z.base_pos (a * w % z.base) c) hr
  have hsplit := Nat.mod_add_div (a * w) z.base
  have hbound := mul_lt ha hw
  refine pair_mod (addCarry_lt z.base_pos _ _) ?_ (by omega)
  linarith

theorem sqr64_eq {a : ℕ} (ha : a < z.base) : sqr64 z a = (a * a % z.base, a * a / z.base) := by
  have hlh := mul_half_lt (lbits_lt (z := z) a) (hbits_lt (z := z) a)
  have hll := mul_half_lt (lbits_lt (z := z) a) (lbits_lt (z := z) a)
  rw [sqr64, Nat.mod_eq_of_lt hlh, Nat.mod_eq_of_lt hll]
  generalize hm : lbits z a * hbits z a = m at hlh ⊢
  have heven := z.half_even
  have hpos : 0 < z.half / 2 := by
    have := z.half_pos
    omega
  -- twice the middle product, less what is carried beyond the word
  have hmid : m % z.half * (2 * z.half) % z.base = z.half * (2 * (m % (z.half / 2))) := by
    rw [z.base_eq, show m % z.half * (2 * z.half) = z.half * (2 * (m % z.half)) from by ring, Nat.mul_mod_mul_left]
    congr 1
    conv_lhs => rw [← heven]
    rw [Nat.mul_mod_mul_left, heven, Nat.mod_mod_of_dvd]
    exact ⟨2, by omega⟩
  have hmidlt : m % z.half * (2 * z.half) % z.base < z.base := Nat.mod_lt _ z.base_pos
  have hs := addCarry_eq hll hmidlt
  rw [hmid] at hs ⊢
  refine pair_mod (addCarry_lt z.base_pos _ _) ?_ (Nat.mul_lt_mul'' ha ha)
  have hsplit := Nat.mod_add_div m (z.half / 2)
  have ha' := halves ha
  have hsq : a * a = lbits z a * lbits z a + 2 * z.half * m + z.half * z.half * (hbits z a * hbits z a) := by
    rw [← hm]
    nth_rewrite 1 2 [← ha']
    ring
  rw [hsq]
  rw [z.base_eq] at hs ⊢
  have hdouble : 2 * z.half * m = z.half * (2 * (m % (z.half / 2))) + z.half * z.half * (m / (z.half / 2)) := by
    calc 2 * z.half * m = 2 * z.half * (m % (z.half / 2) + z.half / 2 * (m / (z.half / 2))) := by rw [hsplit]
      _ = z.half * (2 * (m % (z.half / 2))) + z.half * (2 * (z.half / 2)) * (m / (z.half / 2)) := by ring
      _ = _ := by rw [heven]
  linarith

/-! ## Loops -/

theorem mulAddLoop_spec {w : ℕ} (hw : w < z.base) {rp ap : List ℕ} {c : ℕ} (hlen : rp.length = ap.length)
    (hrp : Small z.base rp) (hap : Small z.base ap) (hc : c < z.base) :
    (mulAddLoop z (lbits z w) (hbits z w) rp ap c).1.length = ap.length ∧
    Small z.base (mulAddLoop z (lbits z w) (hbits z w) rp ap c).1 ∧
    (mulAddLoop z (lbits z w) (hbits z w) rp ap c).2 < z.base ∧
    Nat.ofDigits z.base (mulAddLoop z (lbits z w) (hbits z w) rp ap c).1 +
        z.base ^ ap.length * (mulAddLoop z (lbits z w) (hbits z w) rp ap c).2 =
      Nat.ofDigits z.base rp + Nat.ofDigits z.base ap * w + c := by
  induction ap generalizing rp c with
  | nil =>
    rw [List.length_nil, List.length_eq_zero_iff] at hlen
    rw [hlen, mulAddLoop]
    · exact ⟨rfl, Small.nil, hc, by simp⟩
    · simp
  | cons a ap ih =>
    cases rp with
    | nil => exact absurd hlen.symm (Nat.succ_ne_zero _)
    | cons r rp =>
      obtain ⟨hr, hrp⟩ := small_cons.mp hrp
      obtain ⟨ha, hap⟩ := small_cons.mp hap
      have hbound := mul_lt ha hw
      have hcarry : (a * w + r + c) / z.base < z.base := Nat.div_lt_of_lt_mul (by omega)
      obtain ⟨hl, hs, hc', hv⟩ := ih (Nat.succ.inj hlen) hrp hap hcarry
      rw [mulAddLoop, mulAdd_eq hr ha hw hc]
      dsimp only
      refine ⟨congrArg Nat.succ hl, small_cons.mpr ⟨Nat.mod_lt _ z.base_pos, hs⟩, hc', ?_⟩
      rw [Nat.ofDigits_cons, Nat.ofDigits_cons, Nat.ofDigits_cons, List.length_cons, pow_succ']
      have hsplit := Nat.mod_add_div (a * w + r + c) z.base
      linarith [congrArg (z.base * ·) hv]

theorem mulLoop_spec {w : ℕ} (hw : w < z.base) {ap : List ℕ} {c : ℕ} (hap : Small z.base ap) (hc : c < z.base) :
    (mulLoop z (lbits z w) (hbits z w) ap c).1.length = ap.length ∧
    Small z.base (mulLoop z (lbits z w) (hbits z w) ap c).1 ∧
    (mulLoop z (lbits z w) (hbits z w) ap c).2 < z.base ∧
    Nat.ofDigits z.base (mulLoop z (lbits z w) (hbits z w) ap c).1 +
        z.base ^ ap.length * (mulLoop z (lbits z w) (hbits z w) ap c).2 =
      Nat.ofDigits z.base ap * w + c := by
  induction ap generalizing c with
  | nil => exact ⟨rfl, Small.nil, hc, by simp [mulLoop]⟩
  | cons a ap ih =>
    obtain ⟨ha, hap⟩ := small_cons.mp hap
    have hbound := mul_lt ha hw
    have hcarry : (a * w + c) / z.base < z.base := Nat.div_lt_of_lt_mul (by omega)
    obtain ⟨hl, hs, hc', hv⟩ := ih hap hcarry
    rw [mulLoop, mul_eq ha hw hc]
    dsimp only
    refine ⟨congrArg Nat.succ hl, small_cons.mpr ⟨Nat.mod_lt _ z.base_pos, hs⟩, hc', ?_⟩
    rw [Nat.ofDigits_cons, Nat.ofDigits_cons, List.length_cons, pow_succ']
    have hsplit := Nat.mod_add_div (a * w + c) z.base
    linarith [congrArg (z.base * ·) hv]

/-- `bn_mul_add_words` adds the product to the words. -/
theorem bnMulAddWords_spec {rp ap : List ℕ} {w : ℕ} (hlen : rp.length = ap.length) (hrp : Small z.base rp)
    (hap : Small z.base ap) (hw : w < z.base) :
    (bnMulAddWords z rp ap w).1.length = ap.length ∧ Small z.base (bnMulAddWords z rp ap w).1 ∧
    (bnMulAddWords z rp ap w).2 < z.base ∧
    Nat.ofDigits z.base (bnMulAddWords z rp ap w).1 + z.base ^ ap.length * (bnMulAddWords z rp ap w).2 =
      Nat.ofDigits z.base rp + Nat.ofDigits z.base ap * w :=
  mulAddLoop_spec hw hlen hrp hap z.base_pos

theorem bnMulWords_spec {ap : List ℕ} {w : ℕ} (hap : Small z.base ap) (hw : w < z.base) :
    (bnMulWords z ap w).1.length = ap.length ∧ Small z.base (bnMulWords z ap w).1 ∧ (bnMulWords z ap w).2 < z.base ∧
    Nat.ofDigits z.base (bnMulWords z ap w).1 + z.base ^ ap.length * (bnMulWords z ap w).2 =
      Nat.ofDigits z.base ap * w :=
  mulLoop_spec hw hap z.base_pos

theorem bnSqrWords_length (a : List ℕ) : (bnSqrWords z a).length = 2 * a.length := by
  induction a with
  | nil => rfl
  | cons d a ih =>
    rw [bnSqrWords, List.flatMap_cons, List.length_append, ← bnSqrWords, ih, List.length_cons]
    change 2 + 2 * a.length = 2 * (a.length + 1)
    ring

theorem bnSqrWords_small {a : List ℕ} (ha : Small z.base a) : Small z.base (bnSqrWords z a) := by
  intro d hd
  obtain ⟨e, he, hd⟩ := List.mem_flatMap.mp hd
  have he' := ha e he
  rw [sqr64_eq he', List.mem_cons, List.mem_singleton] at hd
  obtain rfl | rfl := hd
  · exact Nat.mod_lt _ z.base_pos
  · exact Nat.div_lt_of_lt_mul (Nat.mul_lt_mul'' he' he')

/-- `bn_add_words`: the carry goes out at the top. -/
theorem addLoop_spec {a b : List ℕ} {c : ℕ} (hlen : a.length = b.length) (ha : Small z.base a) (hb : Small z.base b)
    (hc : c ≤ 1) :
    (addLoop z a b c).1.length = a.length ∧ Small z.base (addLoop z a b c).1 ∧ (addLoop z a b c).2 ≤ 1 ∧
    Nat.ofDigits z.base (addLoop z a b c).1 + z.base ^ a.length * (addLoop z a b c).2 =
      Nat.ofDigits z.base a + Nat.ofDigits z.base b + c := by
  induction a generalizing b c with
  | nil =>
    rw [List.length_nil, eq_comm, List.length_eq_zero_iff] at hlen
    rw [hlen, addLoop]
    · exact ⟨rfl, Small.nil, hc, by simp⟩
    · simp
  | cons x a ih =>
    cases b with
    | nil => exact absurd hlen (Nat.succ_ne_zero _)
    | cons y b =>
      obtain ⟨hx, ha⟩ := small_cons.mp ha
      obtain ⟨hy, hb⟩ := small_cons.mp hb
      have hone := z.one_lt_base
      have ht := addCarry_eq hx (show c < z.base by omega)
      have htlt := addCarry_lt z.base_pos x c
      have hl := addCarry_eq hy htlt
      -- both carries together are one at most
      have hcarry : (addCarry z.base x c).2 + (addCarry z.base y (addCarry z.base x c).1).2 ≤ 1 := by
        have h1 := addCarry_le (b := z.base) x c
        have h2 := addCarry_le (b := z.base) y (addCarry z.base x c).1
        by_contra hgt
        have h1' : (addCarry z.base x c).2 = 1 := by omega
        have h2' : (addCarry z.base y (addCarry z.base x c).1).2 = 1 := by omega
        rw [h1', Nat.mul_one] at ht
        rw [h2', Nat.mul_one] at hl
        omega
      obtain ⟨hlen', hs, hc', hv⟩ := ih (Nat.succ.inj hlen) ha hb hcarry
      rw [addLoop]
      dsimp only
      refine ⟨congrArg Nat.succ hlen', small_cons.mpr ⟨addCarry_lt z.base_pos _ _, hs⟩, hc', ?_⟩
      rw [Nat.ofDigits_cons, Nat.ofDigits_cons, Nat.ofDigits_cons, List.length_cons, pow_succ']
      linarith [congrArg (z.base * ·) hv]

end Specs

end Neufbox.Bignum
