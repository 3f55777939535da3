import Neufbox.Bignum.Arith
import Mathlib.Data.Nat.Bitwise
import Mathlib.Data.Nat.Size

/-! # Shifts and bits of the big numbers

`bn_shift.c` and the bit functions of `bn_lib.c` in `package/ead/src/tinysrp`. -/
namespace Neufbox.Bignum
open Radix
set_option autoImplicit false
set_option maxHeartbeats 250000
set_option maxRecDepth 120000

section Model
variable (z : WordSize)

/-! ## Shifts -/

/-- The words of `BN_lshift` by less than a word: each word and what the one below it sends up. -/
def shiftUp (lb : ℕ) : List ℕ → ℕ → List ℕ
  | [], c => [c]
  | l :: f, c => ((l <<< lb) % z.base ||| c) :: shiftUp lb f (l >>> (z.bits2 - lb))

/-- The words of `BN_lshift` before the top is fixed. -/
def lshiftWords (a : List ℕ) (n : ℕ) : List ℕ :=
  List.replicate (n / z.bits2) 0 ++ if n % z.bits2 = 0 then a ++ [0] else shiftUp z (n % z.bits2) a 0

/-- The words of `BN_rshift` by less than a word. -/
def shiftDown (rb : ℕ) : List ℕ → List ℕ
  | [] => []
  | l :: f => (l >>> rb ||| (f.headD 0 <<< (z.bits2 - rb)) % z.base) :: shiftDown rb f

/-- The words of `BN_rshift` before the top is fixed. -/
def rshiftWords (a : List ℕ) (n : ℕ) : List ℕ :=
  if n / z.bits2 > a.length ∨ a.length = 0 then []
  else if n % z.bits2 = 0 then a.drop (n / z.bits2)
  else shiftDown z (n % z.bits2) (a.drop (n / z.bits2))

end Model

section Specs
variable {z : WordSize}

theorem WordSize.bits2_pos (z : WordSize) : 0 < z.bits2 := by cases z <;> decide

theorem base_split {lb : ℕ} (h : lb ≤ z.bits2) : z.base = 2 ^ lb * 2 ^ (z.bits2 - lb) := by
  rw [WordSize.base, ← pow_add, Nat.add_sub_cancel' h]

/-- A word moved up and bits below it. -/
theorem shift_or {l c lb : ℕ} (hlb : lb ≤ z.bits2) (hc : c < 2 ^ lb) :
    (l <<< lb) % z.base ||| c = l * 2 ^ lb % z.base + c := by
  rw [Nat.shiftLeft_eq, base_split hlb, Nat.mul_comm l, Nat.mul_mod_mul_left, ← Nat.two_pow_add_eq_or_of_lt hc]

theorem shift_high {l lb : ℕ} (hlb : lb ≤ z.bits2) : l >>> (z.bits2 - lb) = l * 2 ^ lb / z.base := by
  rw [Nat.shiftRight_eq_div_pow, base_split hlb, Nat.mul_comm l, Nat.mul_div_mul_left _ _ (Nat.two_pow_pos lb)]

theorem shiftUp_spec {lb c : ℕ} {f : List ℕ} (hlb : lb ≤ z.bits2) (hf : Small z.base f) (hc : c < 2 ^ lb) :
    (shiftUp z lb f c).length = f.length + 1 ∧ Small z.base (shiftUp z lb f c) ∧
      Nat.ofDigits z.base (shiftUp z lb f c) = Nat.ofDigits z.base f * 2 ^ lb + c := by
  induction f generalizing c with
  | nil =>
    refine ⟨rfl, small_cons.mpr ⟨hc.trans_le ?_, Small.nil⟩, by rw [shiftUp]; simp⟩
    exact Nat.pow_le_pow_right (by norm_num) hlb
  | cons l f ih =>
    obtain ⟨hl, hf⟩ := small_cons.mp hf
    have hhigh : l >>> (z.bits2 - lb) < 2 ^ lb := by
      rw [Nat.shiftRight_eq_div_pow]
      exact Nat.div_lt_of_lt_mul (by rwa [Nat.mul_comm, ← base_split hlb])
    obtain ⟨hlen, hs, hv⟩ := ih hf hhigh
    have hword : (l <<< lb) % z.base ||| c < z.base := by
      rw [Nat.shiftLeft_eq, WordSize.base]
      refine Nat.or_lt_two_pow (Nat.mod_lt _ (Nat.two_pow_pos _)) (hc.trans_le ?_)
      exact Nat.pow_le_pow_right (by norm_num) hlb
    refine ⟨congrArg Nat.succ hlen, small_cons.mpr ⟨hword, hs⟩, ?_⟩
    rw [shiftUp, Nat.ofDigits_cons, Nat.ofDigits_cons, hv, shift_or hlb hc, shift_high hlb]
    have hsplit := Nat.mod_add_div (l * 2 ^ lb) z.base
    linarith

theorem lshiftWords_spec {a : List ℕ} (ha : Small z.base a) (n : ℕ) :
    (lshiftWords z a n).length = a.length + n / z.bits2 + 1 ∧ Small z.base (lshiftWords z a n) ∧
      Nat.ofDigits z.base (lshiftWords z a n) = Nat.ofDigits z.base a * 2 ^ n := by
  have hpow : (2 : ℕ) ^ n = z.base ^ (n / z.bits2) * 2 ^ (n % z.bits2) := by
    rw [WordSize.base, ← pow_mul, ← pow_add, Nat.div_add_mod]
  have hzeros : Small z.base (List.replicate (n / z.bits2) 0) := fun d hd => by
    rw [List.eq_of_mem_replicate hd]
    exact z.base_pos
  rw [lshiftWords]
  split
  · next hzero =>
    refine ⟨by simp; omega, small_append.mpr ⟨hzeros, small_append.mpr ⟨ha, small_cons.mpr ⟨z.base_pos, Small.nil⟩⟩⟩, ?_⟩
    rw [Nat.ofDigits_append, Nat.ofDigits_replicate_zero, Nat.ofDigits_append_zero, List.length_replicate, hpow, hzero]
    ring
  · next hne =>
    have hlb : n % z.bits2 ≤ z.bits2 := (Nat.mod_lt _ z.bits2_pos).le
    obtain ⟨hl, hs, hv⟩ := shiftUp_spec hlb ha (Nat.two_pow_pos _)
    refine ⟨by rw [List.length_append, List.length_replicate, hl]; omega, small_append.mpr ⟨hzeros, hs⟩, ?_⟩
    rw [Nat.ofDigits_append, Nat.ofDigits_replicate_zero, List.length_replicate, hv, hpow]
    ring

theorem headD_mod (f : List ℕ) (k : ℕ) : k * f.headD 0 % z.base = k * Nat.ofDigits z.base f % z.base := by
  cases f with
  | nil => rfl
  | cons l f =>
    rw [List.headD_cons, Nat.ofDigits_cons, Nat.mul_add, Nat.mul_left_comm, Nat.add_mul_mod_self_left]

theorem shiftDown_spec {rb : ℕ} {f : List ℕ} (hrb : rb ≤ z.bits2) (hf : Small z.base f) :
    Small z.base (shiftDown z rb f) ∧ Nat.ofDigits z.base (shiftDown z rb f) = Nat.ofDigits z.base f / 2 ^ rb := by
  induction f with
  | nil => exact ⟨Small.nil, by simp [shiftDown]⟩
  | cons l f ih =>
    obtain ⟨hl, hf⟩ := small_cons.mp hf
    obtain ⟨hs, hv⟩ := ih hf
    have hlow : l >>> rb < 2 ^ (z.bits2 - rb) := by
      rw [Nat.shiftRight_eq_div_pow]
      exact Nat.div_lt_of_lt_mul (by rwa [← base_split hrb])
    have hword : l >>> rb ||| (f.headD 0 <<< (z.bits2 - rb)) % z.base < z.base := by
      rw [WordSize.base]
      refine Nat.or_lt_two_pow (hlow.trans_le ?_) (Nat.mod_lt _ (Nat.two_pow_pos _))
      exact Nat.pow_le_pow_right (by norm_num) (Nat.sub_le _ _)
    refine ⟨small_cons.mpr ⟨hword, hs⟩, ?_⟩
    rw [shiftDown, Nat.ofDigits_cons, Nat.ofDigits_cons, hv, Nat.or_comm, shift_or (Nat.sub_le _ _) hlow, Nat.mul_comm _ (2 ^ _),
      headD_mod, Nat.shiftRight_eq_div_pow]
    -- what leaves a word below is a whole number of the next
    have hbase := base_split hrb
    have hdiv : (l + z.base * Nat.ofDigits z.base f) / 2 ^ rb =
        l / 2 ^ rb + 2 ^ (z.bits2 - rb) * Nat.ofDigits z.base f := by
      nth_rewrite 1 [hbase]
      rw [Nat.mul_assoc, Nat.add_mul_div_left _ _ (Nat.two_pow_pos rb)]
    have hcarry : 2 ^ (z.bits2 - rb) * Nat.ofDigits z.base f / z.base = Nat.ofDigits z.base f / 2 ^ rb := by
      rw [show z.base = 2 ^ (z.bits2 - rb) * 2 ^ rb from by rw [hbase, Nat.mul_comm],
        Nat.mul_div_mul_left _ _ (Nat.two_pow_pos _)]
    have hsplit := Nat.mod_add_div (2 ^ (z.bits2 - rb) * Nat.ofDigits z.base f) z.base
    rw [hcarry] at hsplit
    rw [hdiv]
    linarith

theorem rshiftWords_spec {a : List ℕ} (ha : Small z.base a) (n : ℕ) :
    Small z.base (rshiftWords z a n) ∧ Nat.ofDigits z.base (rshiftWords z a n) = Nat.ofDigits z.base a / 2 ^ n := by
  have hpow : (2 : ℕ) ^ n = z.base ^ (n / z.bits2) * 2 ^ (n % z.bits2) := by
    rw [WordSize.base, ← pow_mul, ← pow_add, Nat.div_add_mod]
  have hdrop := Nat.ofDigits_div_pow_eq_ofDigits_drop (n / z.bits2) z.base_pos a ha
  rw [hpow, ← Nat.div_div_eq_div_mul, hdrop, rshiftWords]
  split
  · next h =>
    have hle : a.length ≤ n / z.bits2 := h.elim (fun h => h.le) fun h => h ▸ Nat.zero_le _
    refine ⟨Small.nil, ?_⟩
    rw [List.drop_eq_nil_of_le hle, Nat.ofDigits_nil, Nat.zero_div]
  · split
    · next hzero => exact ⟨ha.drop _, by rw [hzero, pow_zero, Nat.div_one]⟩
    · exact shiftDown_spec (Nat.mod_lt _ z.bits2_pos).le (ha.drop _)

/-! ## Bits -/

/-- The table of `BN_num_bits_word`. -/
def numBits : List ℕ :=
  [0, 1] ++ List.replicate 2 2 ++ List.replicate 4 3 ++ List.replicate 8 4 ++ List.replicate 16 5 ++ List.replicate 32 6 ++
    List.replicate 64 7 ++ List.replicate 128 8

/-- The bits of a byte that starts at bit `k` of the word. -/
def bitsAbove (l k : ℕ) : ℕ := numBits.getD (l >>> k) 0 + k

/-- The halves of `BN_num_bits_word` below 32 bits. -/
def numBitsLow (l : ℕ) : ℕ :=
  if l &&& 0xffff0000 ≠ 0 then if l &&& 0xff000000 ≠ 0 then bitsAbove l 24 else bitsAbove l 16
  else if l &&& 0xff00 ≠ 0 then bitsAbove l 8 else bitsAbove l 0

def bnNumBitsWord : WordSize → ℕ → ℕ
  | .thirtyTwoBit, l => numBitsLow l
  | .sixtyFourBitLong, l =>
    if l &&& 0xffffffff00000000 ≠ 0 then
      if l &&& 0xffff000000000000 ≠ 0 then if l &&& 0xff00000000000000 ≠ 0 then bitsAbove l 56 else bitsAbove l 48
      else if l &&& 0x0000ff0000000000 ≠ 0 then bitsAbove l 40 else bitsAbove l 32
    else numBitsLow l

theorem numBits_eq : ∀ i < 256, numBits.getD i 0 = Nat.size i := by decide +kernel

theorem size_shiftRight {l k : ℕ} (h : l >>> k ≠ 0) : Nat.size (l >>> k) + k = Nat.size l := by
  rw [Nat.shiftRight_eq_div_pow] at h ⊢
  apply Nat.le_antisymm
  · obtain ⟨m, hm⟩ : ∃ m, Nat.size (l / 2 ^ k) = m + 1 := ⟨_, (Nat.succ_pred_eq_of_pos (Nat.size_pos.mpr (Nat.pos_of_ne_zero h))).symm⟩
    have hle : 2 ^ m ≤ l / 2 ^ k := Nat.lt_size.mp (by omega)
    rw [hm, show m + 1 + k = m + k + 1 from by ring, Nat.succ_le_iff, Nat.lt_size, pow_add]
    exact (Nat.le_div_iff_mul_le (Nat.two_pow_pos k)).mp hle
  · rw [Nat.size_le, pow_add, Nat.mul_comm]
    exact (Nat.div_lt_iff_lt_mul (Nat.two_pow_pos k)).mp (Nat.lt_size_self _) |>.trans_eq (Nat.mul_comm _ _)

/-- A byte of a word with nothing above it gives its bits. -/
theorem bitsAbove_eq {l k : ℕ} (hk : l >>> k < 256) (h : l >>> k ≠ 0 ∨ k = 0) : bitsAbove l k = Nat.size l := by
  rw [bitsAbove, numBits_eq _ hk]
  rcases h with h | rfl
  · exact size_shiftRight h
  · rfl

/-- A mask of the bits from `k` on tells whether the word goes that far. -/
theorem land_high {l k n : ℕ} (h : l < 2 ^ (k + n)) : l &&& (2 ^ n - 1) <<< k = (l >>> k) <<< k := by
  apply Nat.eq_of_testBit_eq
  intro i
  rw [Nat.testBit_and, Nat.testBit_shiftLeft, Nat.testBit_shiftLeft, Nat.testBit_two_pow_sub_one, Nat.testBit_shiftRight]
  by_cases hk : k ≤ i
  · rw [show k + (i - k) = i from by omega]
    by_cases hi : i - k < n
    · simp [hk, hi]
    · have hzero : l.testBit i = false := Nat.testBit_lt_two_pow (h.trans_le (Nat.pow_le_pow_right (by norm_num) (by omega)))
      simp [hzero]
  · simp [hk]

theorem land_high_ne {l k n : ℕ} (h : l < 2 ^ (k + n)) : l &&& (2 ^ n - 1) <<< k ≠ 0 ↔ 2 ^ k ≤ l := by
  rw [land_high h, Nat.shiftLeft_eq, Nat.shiftRight_eq_div_pow, Ne, Nat.mul_eq_zero, not_or]
  have hpos : 2 ^ k ≠ 0 := (Nat.two_pow_pos k).ne'
  rw [Nat.div_eq_zero_iff_lt (Nat.two_pow_pos k), not_lt]
  exact ⟨fun h => h.1, fun h => ⟨h, hpos⟩⟩

theorem shiftRight_lt {l k n : ℕ} (h : l < 2 ^ (k + n)) : l >>> k < 2 ^ n := by
  rw [Nat.shiftRight_eq_div_pow]
  exact Nat.div_lt_of_lt_mul (by rwa [← pow_add])

theorem shiftRight_ne {l k : ℕ} (h : 2 ^ k ≤ l) : l >>> k ≠ 0 := by
  rw [Nat.shiftRight_eq_div_pow]
  exact (Nat.div_pos h (Nat.two_pow_pos k)).ne'

theorem numBitsLow_eq {l : ℕ} (h : l < 2 ^ 32) : numBitsLow l = Nat.size l := by
  rw [numBitsLow]
  split
  · next h1 =>
    have h16 := (land_high_ne (k := 16) (n := 16) h).mp h1
    split
    · next h2 =>
      have h24 := (land_high_ne (k := 24) (n := 8) h).mp h2
      exact bitsAbove_eq (shiftRight_lt (n := 8) h) (Or.inl (shiftRight_ne h24))
    · next h2 =>
      have h24 := fun hle => h2 ((land_high_ne (k := 24) (n := 8) h).mpr hle)
      exact bitsAbove_eq (shiftRight_lt (n := 8) (Nat.lt_of_not_le h24)) (Or.inl (shiftRight_ne h16))
  · next h1 =>
    have h16 := Nat.lt_of_not_le fun hle => h1 ((land_high_ne (k := 16) (n := 16) h).mpr hle)
    split
    · next h2 =>
      have h8 := (land_high_ne (k := 8) (n := 8) h16).mp h2
      exact bitsAbove_eq (shiftRight_lt (n := 8) h16) (Or.inl (shiftRight_ne h8))
    · next h2 =>
      have h8 := Nat.lt_of_not_le fun hle => h2 ((land_high_ne (k := 8) (n := 8) h16).mpr hle)
      exact bitsAbove_eq (shiftRight_lt (k := 0) (n := 8) h8) (Or.inr rfl)

theorem bnNumBitsWord_eq {l : ℕ} (h : l < z.base) : bnNumBitsWord z l = Nat.size l := by
  cases z with
  | thirtyTwoBit => exact numBitsLow_eq h
  | sixtyFourBitLong =>
    change l < 2 ^ 64 at h
    rw [bnNumBitsWord]
    split
    · next h1 =>
      have h32 := (land_high_ne (k := 32) (n := 32) h).mp h1
      split
      · next h2 =>
        have h48 := (land_high_ne (k := 48) (n := 16) h).mp h2
        split
        · next h3 =>
          have h56 := (land_high_ne (k := 56) (n := 8) h).mp h3
          exact bitsAbove_eq (shiftRight_lt (n := 8) h) (Or.inl (shiftRight_ne h56))
        · next h3 =>
          have h56 := fun hle => h3 ((land_high_ne (k := 56) (n := 8) h).mpr hle)
          exact bitsAbove_eq (shiftRight_lt (n := 8) (Nat.lt_of_not_le h56)) (Or.inl (shiftRight_ne h48))
      · next h2 =>
        have h48 := Nat.lt_of_not_le fun hle => h2 ((land_high_ne (k := 48) (n := 16) h).mpr hle)
        split
        · next h3 =>
          have h40 := (land_high_ne (k := 40) (n := 8) h48).mp h3
          exact bitsAbove_eq (shiftRight_lt (n := 8) h48) (Or.inl (shiftRight_ne h40))
        · next h3 =>
          have h40 := fun hle => h3 ((land_high_ne (k := 40) (n := 8) h48).mpr hle)
          exact bitsAbove_eq (shiftRight_lt (n := 8) (Nat.lt_of_not_le h40)) (Or.inl (shiftRight_ne h32))
    · next h1 => exact numBitsLow_eq (Nat.lt_of_not_le fun hle => h1 ((land_high_ne (k := 32) (n := 32) h).mpr hle))

/-! ## Numbers -/

/-- `BN_num_bits` of the words. -/
def numBitsWords (z : WordSize) (a : List ℕ) : ℕ :=
  if a.length = 0 then 0 else (a.length - 1) * z.bits2 + bnNumBitsWord z (a.getD (a.length - 1) 0)

def BigNum.numBits (a : BigNum z) : ℕ := numBitsWords z a.d

def bnLshift (a : BigNum z) (n : ℕ) : BigNum z := .ofWords (lshiftWords z a.d n) (lshiftWords_spec a.small n).2.1 a.neg

/-- `BN_rshift`; a result of no words has no sign. -/
def bnRshift (a : BigNum z) (n : ℕ) : BigNum z :=
  if n / z.bits2 > a.top ∨ a.top = 0 then .zero
  else .ofWords (rshiftWords z a.d n) (rshiftWords_spec a.small n).1 a.neg

/-- `BN_is_bit_set`. -/
def bnIsBitSet (a : BigNum z) (n : ℕ) : Bool :=
  if a.top ≤ n / z.bits2 then false else (a.d.getD (n / z.bits2) 0 &&& 1 <<< (n % z.bits2)) != 0

theorem size_append {ds : List ℕ} {d : ℕ} (h : Small z.base (ds ++ [d])) (hd : d ≠ 0) :
    Nat.size (Nat.ofDigits z.base (ds ++ [d])) = ds.length * z.bits2 + Nat.size d := by
  have hlow := (small_append.mp h).1.lt z.one_lt_base
  have hpow : z.base ^ ds.length = 2 ^ (ds.length * z.bits2) := by rw [WordSize.base, ← pow_mul, Nat.mul_comm]
  have hvalue : Nat.ofDigits z.base (ds ++ [d]) >>> (ds.length * z.bits2) = d := by
    rw [Nat.shiftRight_eq_div_pow, ← hpow, Nat.ofDigits_append, Nat.ofDigits_singleton,
      Nat.add_mul_div_left _ _ (Nat.pow_pos z.base_pos), Nat.div_eq_of_lt hlow, Nat.zero_add]
  rw [← size_shiftRight (k := ds.length * z.bits2) (by rwa [hvalue]), hvalue, Nat.add_comm]

theorem numBitsWords_eq {a : List ℕ} (ha : Small z.base a) (hfix : Fixed a) :
    numBitsWords z a = Nat.size (Nat.ofDigits z.base a) := by
  rcases List.eq_nil_or_concat a with rfl | ⟨ds, d, rfl⟩
  · rfl
  · rw [List.concat_eq_append] at ha hfix ⊢
    have hd := ha d (List.mem_append_right _ List.mem_cons_self)
    have htop : (ds ++ [d]).getD ((ds ++ [d]).length - 1) 0 = d := by
      rw [List.length_append, List.length_singleton, Nat.add_sub_cancel, List.getD_eq_getElem?_getD,
        List.getElem?_concat_length]
      rfl
    rw [numBitsWords, if_neg (by simp), htop, bnNumBitsWord_eq hd, size_append ha (fixed_concat.mp hfix),
      List.length_append, List.length_singleton, Nat.add_sub_cancel]

theorem BigNum.numBits_eq (a : BigNum z) : a.numBits = Nat.size a.abs := numBitsWords_eq a.small a.fixed

theorem bnLshift_abs (a : BigNum z) (n : ℕ) : (bnLshift a n).abs = a.abs * 2 ^ n := by
  rw [bnLshift, BigNum.ofWords_abs]
  exact (lshiftWords_spec a.small n).2.2

theorem bnRshift_abs (a : BigNum z) (n : ℕ) : (bnRshift a n).abs = a.abs / 2 ^ n := by
  have hspec := (rshiftWords_spec a.small n).2
  rw [bnRshift]
  split
  · next h =>
    change n / z.bits2 > a.d.length ∨ a.d.length = 0 at h
    rw [rshiftWords, if_pos h] at hspec
    exact hspec
  · rw [BigNum.ofWords_abs]
    exact hspec

theorem bnIsBitSet_eq (a : BigNum z) (n : ℕ) : bnIsBitSet a n = a.abs.testBit n := by
  rw [bnIsBitSet]
  have hpow : (2 : ℕ) ^ n = z.base ^ (n / z.bits2) * 2 ^ (n % z.bits2) := by
    rw [WordSize.base, ← pow_mul, ← pow_add, Nat.div_add_mod]
  split
  · next h =>
    symm
    refine Nat.testBit_lt_two_pow (a.abs_lt.trans_le ?_)
    rw [WordSize.base, ← pow_mul]
    refine Nat.pow_le_pow_right (by norm_num) ?_
    calc z.bits2 * a.top ≤ z.bits2 * (n / z.bits2) := Nat.mul_le_mul_left _ h
      _ ≤ n := Nat.mul_div_le n _
  · next h =>
    have hlt : n / z.bits2 < a.d.length := Nat.lt_of_not_le h
    have hdiv : a.abs / z.base ^ (n / z.bits2) =
        a.d.getD (n / z.bits2) 0 + z.base * Nat.ofDigits z.base (a.d.drop (n / z.bits2 + 1)) := by
      rw [BigNum.abs, Nat.ofDigits_div_pow_eq_ofDigits_drop _ z.base_pos _ a.small, drop_eq_getD_cons a.d hlt,
        Nat.ofDigits_cons]
    have hbit : n % z.bits2 < z.bits2 := Nat.mod_lt _ z.bits2_pos
    have htest (x : ℕ) : (x &&& 1 <<< (n % z.bits2) != 0) = x.testBit (n % z.bits2) := by
      rw [Nat.one_shiftLeft, Nat.and_two_pow]
      cases x.testBit (n % z.bits2)
      · simp
      · simp
    rw [htest, Nat.testBit_eq_decide_div_mod_eq, Nat.testBit_eq_decide_div_mod_eq, hpow, ← Nat.div_div_eq_div_mul, hdiv,
      base_split hbit.le, Nat.mul_assoc, Nat.add_mul_div_left _ _ (Nat.two_pow_pos _)]
    obtain ⟨m, hm⟩ : ∃ m, z.bits2 - n % z.bits2 = m + 1 := ⟨_, (Nat.succ_pred_eq_of_pos (Nat.sub_pos_of_lt hbit)).symm⟩
    rw [hm, pow_succ', Nat.mul_assoc, Nat.add_mul_mod_self_left]

theorem bnLshift_value (a : BigNum z) (n : ℕ) : (bnLshift a n).value = a.value * 2 ^ n := by
  rw [BigNum.value_of_neg (bnLshift_abs a n) rfl, BigNum.value, bnLshift, BigNum.ofWords]
  split
  · push_cast
    rw [neg_mul]
  · push_cast
    rfl

/-- The shift to the right rounds towards zero. -/
theorem bnRshift_value (a : BigNum z) (n : ℕ) : (bnRshift a n).value = a.value.tdiv (2 ^ n) := by
  have hvalue : (bnRshift a n).value = if a.neg then -((a.abs / 2 ^ n : ℕ) : ℤ) else ((a.abs / 2 ^ n : ℕ) : ℤ) := by
    have habs := bnRshift_abs a n
    by_cases h : n / z.bits2 > a.top ∨ a.top = 0
    · have hzero : bnRshift a n = .zero := if_pos h
      have hquot : 0 = a.abs / 2 ^ n := by rwa [hzero] at habs
      rw [hzero, ← hquot]
      cases a.neg <;> rfl
    · have hneg : (bnRshift a n).neg = a.neg := by rw [bnRshift, if_neg h]; rfl
      exact BigNum.value_of_neg habs hneg
  rw [hvalue, BigNum.value]
  split
  · rw [Int.neg_tdiv]
    norm_cast
  · norm_cast

/-- Shifts are products and quotients by powers of two, with the sign kept, and bits are counted and read as those of
the number. -/
theorem bn_bits (a : BigNum z) (n : ℕ) :
    ((bnLshift a n).abs = a.abs * 2 ^ n ∧ (bnLshift a n).value = a.value * 2 ^ n) ∧
      ((bnRshift a n).abs = a.abs / 2 ^ n ∧ (bnRshift a n).value = a.value.tdiv (2 ^ n)) ∧
      a.numBits = Nat.size a.abs ∧ bnIsBitSet a n = a.abs.testBit n :=
  ⟨⟨bnLshift_abs a n, bnLshift_value a n⟩, ⟨bnRshift_abs a n, bnRshift_value a n⟩, a.numBits_eq, bnIsBitSet_eq a n⟩

end Specs

end Neufbox.Bignum
