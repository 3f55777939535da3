import Mathlib.Tactic

/-! Table-driven cyclic redundancy checks of 32 bits, least significant bit first. A register is a
number below `2 ^ 32`. In a `CrcTable` the top bytes of the entries are all different; a step can then
be undone, so two registers that meet after the same bytes were the same before them. `bitwise` goes bit
by bit, and a table that `Generates` a polynomial computes the same (`update_eq_bitwise`). -/
namespace Neufbox.Crc32
set_option autoImplicit false
set_option maxHeartbeats 250000

/-- The numbers are all different, and different from those whose bit is set in `seen`. -/
def distinctFrom (seen : ℕ) : List ℕ → Bool
  | [] => true
  | x :: xs => !seen.testBit x && distinctFrom (seen ||| 2 ^ x) xs

theorem nodup_of_distinctFrom {seen : ℕ} {xs : List ℕ} (h : distinctFrom seen xs = true) :
    xs.Nodup ∧ ∀ x ∈ xs, seen.testBit x = false := by
  induction xs generalizing seen with
  | nil => simp
  | cons x xs ih =>
    simp only [distinctFrom, Bool.and_eq_true, Bool.not_eq_true'] at h
    obtain ⟨hnodup, hseen⟩ := ih h.2
    have hbits : ∀ y ∈ xs, seen.testBit y = false ∧ y ≠ x := by
      intro y hy
      have hy' := hseen y hy
      rw [Nat.testBit_or, Bool.or_eq_false_iff, Nat.testBit_two_pow, decide_eq_false_iff_not] at hy'
      exact ⟨hy'.1, fun hxy => hy'.2 hxy.symm⟩
    refine ⟨List.nodup_cons.mpr ⟨fun hx => (hbits x hx).2 rfl, hnodup⟩, fun y hy => ?_⟩
    rcases List.mem_cons.mp hy with rfl | hy
    · exact h.1
    · exact (hbits y hy).1

structure CrcTable where
  entries : List ℕ
  size : entries.length = 256
  bound : ∀ e ∈ entries, e < 2 ^ 32
  topBytes : (entries.map (· >>> 24)).Nodup

variable (t : CrcTable)

def CrcTable.entry (i : ℕ) : ℕ := t.entries.getD i 0

def step (crc : ℕ) (b : UInt8) : ℕ := (crc >>> 8) ^^^ t.entry ((crc ^^^ b.toNat) &&& 255)

def update (crc : ℕ) (bs : List UInt8) : ℕ := bs.foldl (step t) crc

@[simp] theorem update_nil (crc : ℕ) : update t crc [] = crc := rfl

theorem update_append (crc : ℕ) (xs ys : List UInt8) :
    update t crc (xs ++ ys) = update t (update t crc xs) ys := List.foldl_append

/-! ## Registers stay below `2 ^ 32` -/

theorem entry_lt (i : ℕ) : t.entry i < 2 ^ 32 := by
  rw [CrcTable.entry, List.getD_eq_getElem?_getD]
  cases h : t.entries[i]? with
  | none => norm_num
  | some e => exact t.bound e (List.mem_of_getElem? h)

theorem step_lt {crc : ℕ} (h : crc < 2 ^ 32) (b : UInt8) : step t crc b < 2 ^ 32 := by
  apply Nat.xor_lt_two_pow _ (entry_lt t _)
  rw [Nat.shiftRight_eq_div_pow]
  omega

theorem update_lt {crc : ℕ} (h : crc < 2 ^ 32) (bs : List UInt8) : update t crc bs < 2 ^ 32 := by
  induction bs generalizing crc with
  | nil => exact h
  | cons b bs ih => exact ih (step_lt t h b)

/-! ## A step can be undone -/

theorem eq_of_xor_eq {x y z : ℕ} (h : x ^^^ z = y ^^^ z) : x = y := by
  have hxor := congrArg (· ^^^ z) h
  simpa only [Nat.xor_assoc, Nat.xor_self, Nat.xor_zero] using hxor

theorem entry_top_injective {i j : ℕ} (hi : i < 256) (hj : j < 256)
    (h : t.entry i >>> 24 = t.entry j >>> 24) : i = j := by
  have hsize := t.size
  have hi' : i < (t.entries.map (· >>> 24)).length := by rw [List.length_map]; omega
  have hj' : j < (t.entries.map (· >>> 24)).length := by rw [List.length_map]; omega
  have hinj : (t.entries.map (· >>> 24))[i] = (t.entries.map (· >>> 24))[j] ↔ i = j :=
    List.Nodup.getElem_inj_iff t.topBytes
  apply hinj.mp
  rw [List.getElem_map, List.getElem_map]
  simpa [CrcTable.entry, List.getD_eq_getElem?_getD, hsize, hi, hj] using h

theorem step_top {crc : ℕ} (h : crc < 2 ^ 32) (b : UInt8) :
    step t crc b >>> 24 = t.entry ((crc ^^^ b.toNat) &&& 255) >>> 24 := by
  have hcrc : crc >>> 8 >>> 24 = 0 := by
    rw [← Nat.shiftRight_add, Nat.shiftRight_eq_div_pow]
    omega
  rw [step, Nat.shiftRight_xor_distrib, hcrc, Nat.zero_xor]

theorem step_injective {c d : ℕ} (hc : c < 2 ^ 32) (hd : d < 2 ^ 32) {b : UInt8}
    (h : step t c b = step t d b) : c = d := by
  have hmask : ∀ x : ℕ, x &&& 255 = x % 2 ^ 8 := fun x => Nat.and_two_pow_sub_one_eq_mod x 8
  have hlt : ∀ x : ℕ, x &&& 255 < 256 := by
    intro x
    rw [hmask]
    omega
  have hindex : (c ^^^ b.toNat) &&& 255 = (d ^^^ b.toNat) &&& 255 := by
    apply entry_top_injective t (hlt _) (hlt _)
    rw [← step_top t hc, ← step_top t hd, h]
  have hhigh : c >>> 8 = d >>> 8 := by
    have h' := h
    rw [step, step, hindex] at h'
    exact eq_of_xor_eq h'
  have hlow : c % 2 ^ 8 = d % 2 ^ 8 := by
    rw [hmask, hmask, Nat.xor_mod_two_pow, Nat.xor_mod_two_pow] at hindex
    exact eq_of_xor_eq hindex
  rw [Nat.shiftRight_eq_div_pow, Nat.shiftRight_eq_div_pow] at hhigh
  omega

theorem update_injective {c d : ℕ} (hc : c < 2 ^ 32) (hd : d < 2 ^ 32) {bs : List UInt8}
    (h : update t c bs = update t d bs) : c = d := by
  induction bs generalizing c d with
  | nil => exact h
  | cons b bs ih => exact step_injective t hc hd (ih (step_lt t hc b) (step_lt t hd b) h)

/-! ## Bit by bit -/

/-- The register moves down by a bit, and the polynomial is added where the bit that falls out was set. -/
def shiftBit (poly crc : ℕ) : ℕ := if crc.testBit 0 then poly ^^^ (crc >>> 1) else crc >>> 1

def shiftBits (poly : ℕ) : ℕ → ℕ → ℕ
  | 0, crc => crc
  | n + 1, crc => shiftBits poly n (shiftBit poly crc)

def byteStep (poly crc : ℕ) (b : UInt8) : ℕ := shiftBits poly 8 (crc ^^^ b.toNat)

/-- The check of a byte string, without a final inversion. -/
def bitwise (poly crc : ℕ) (bs : List UInt8) : ℕ := bs.foldl (byteStep poly) crc

theorem bitwise_append (poly crc : ℕ) (xs ys : List UInt8) :
    bitwise poly crc (xs ++ ys) = bitwise poly (bitwise poly crc xs) ys := List.foldl_append

theorem shiftBit_xor (poly x y : ℕ) : shiftBit poly (x ^^^ y) = shiftBit poly x ^^^ shiftBit poly y := by
  unfold shiftBit
  rw [Nat.testBit_xor, Nat.shiftRight_xor_distrib]
  cases x.testBit 0 <;> cases y.testBit 0
  · rfl
  · show poly ^^^ (x >>> 1 ^^^ y >>> 1) = x >>> 1 ^^^ (poly ^^^ y >>> 1)
    rw [← Nat.xor_assoc, ← Nat.xor_assoc, Nat.xor_comm poly]
  · exact (Nat.xor_assoc poly _ _).symm
  · have hcancel : poly ^^^ (x >>> 1) ^^^ (poly ^^^ (y >>> 1)) = (x >>> 1) ^^^ (y >>> 1) := by
      rw [Nat.xor_comm poly, Nat.xor_assoc, ← Nat.xor_assoc poly poly, Nat.xor_self, Nat.zero_xor]
    exact hcancel.symm

theorem shiftBits_xor (poly n x y : ℕ) : shiftBits poly n (x ^^^ y) = shiftBits poly n x ^^^ shiftBits poly n y := by
  induction n generalizing x y with
  | zero => rfl
  | succ n ih => rw [shiftBits, shiftBit_xor, ih, shiftBits, shiftBits]

/-- Bits that are clear fall out without a trace. -/
theorem shiftBits_clear (poly n x : ℕ) : shiftBits poly n (x <<< n) = x := by
  induction n with
  | zero => rfl
  | succ n ih =>
    have hlow : (x <<< (n + 1)).testBit 0 = false := by rw [Nat.testBit_shiftLeft, Nat.zero_sub]; rfl
    have hshift : shiftBit poly (x <<< (n + 1)) = x <<< n := by
      rw [shiftBit, hlow, if_neg Bool.false_ne_true, Nat.shiftLeft_succ, Nat.shiftRight_one, Nat.mul_div_cancel_left _ two_pos]
    rw [shiftBits, hshift, ih]

theorem low_xor_high (n x : ℕ) : x % 2 ^ n ^^^ ((x >>> n) <<< n) = x := by
  apply Nat.eq_of_testBit_eq
  intro i
  rw [Nat.testBit_xor, Nat.testBit_mod_two_pow, Nat.testBit_shiftLeft, Nat.testBit_shiftRight]
  by_cases hi : i < n
  · simp [hi, Nat.not_le.mpr hi]
  · simp [hi, Nat.not_lt.mp hi]

/-- Only the bits that fall out meet the polynomial. -/
theorem shiftBits_eq (poly n x : ℕ) : shiftBits poly n x = shiftBits poly n (x % 2 ^ n) ^^^ (x >>> n) := by
  have hsplit := shiftBits_xor poly n (x % 2 ^ n) ((x >>> n) <<< n)
  rwa [low_xor_high, shiftBits_clear] at hsplit

theorem shiftBit_lt {poly x k : ℕ} (hpoly : poly < 2 ^ k) (hx : x < 2 ^ k) : shiftBit poly x < 2 ^ k := by
  have hshift : x >>> 1 < 2 ^ k := by
    rw [Nat.shiftRight_one]
    omega
  unfold shiftBit
  split
  · exact Nat.xor_lt_two_pow hpoly hshift
  · exact hshift

theorem shiftBits_lt {poly x k : ℕ} (hpoly : poly < 2 ^ k) (hx : x < 2 ^ k) (n : ℕ) : shiftBits poly n x < 2 ^ k := by
  induction n generalizing x with
  | zero => exact hx
  | succ n ih => exact ih (shiftBit_lt hpoly hx)

/-- A byte by one look into a table. -/
theorem byteStep_eq (poly crc : ℕ) (b : UInt8) :
    byteStep poly crc b = shiftBits poly 8 ((crc ^^^ b.toNat) &&& 255) ^^^ (crc >>> 8) := by
  have hmask : (crc ^^^ b.toNat) &&& 255 = (crc ^^^ b.toNat) % 2 ^ 8 := Nat.and_two_pow_sub_one_eq_mod _ 8
  have hhigh : (crc ^^^ b.toNat) >>> 8 = crc >>> 8 := by
    have hb : b.toNat >>> 8 = 0 := by
      rw [Nat.shiftRight_eq_div_pow]
      exact Nat.div_eq_of_lt b.toNat_lt
    rw [Nat.shiftRight_xor_distrib, hb, Nat.xor_zero]
  rw [byteStep, shiftBits_eq, hmask, hhigh]

/-- The entries are what the bytes leave behind. -/
def CrcTable.Generates (poly : ℕ) : Prop := t.entries = (List.range 256).map (shiftBits poly 8)

section Generates
variable {t} {poly : ℕ} (h : t.Generates poly)
include h

theorem entry_eq {i : ℕ} (hi : i < 256) : t.entry i = shiftBits poly 8 i := by
  rw [CrcTable.entry, h, List.getD_eq_getElem?_getD, List.getElem?_map, List.getElem?_range hi]
  rfl

theorem step_eq_byteStep (crc : ℕ) (b : UInt8) : step t crc b = byteStep poly crc b := by
  have hlow : (crc ^^^ b.toNat) &&& 255 < 256 := Nat.lt_succ_of_le Nat.and_le_right
  rw [step, byteStep_eq, entry_eq h hlow, Nat.xor_comm]

/-- The table computes what goes bit by bit. -/
theorem update_eq_bitwise (crc : ℕ) (bs : List UInt8) : update t crc bs = bitwise poly crc bs := by
  induction bs generalizing crc with
  | nil => rfl
  | cons b bs ih =>
    show update t (step t crc b) bs = bitwise poly (byteStep poly crc b) bs
    rw [step_eq_byteStep h, ih]

end Generates

/-! ## Bytes of a signed type -/

/-- A byte as an operand of 32 bits, of a type that may be signed. -/
def operand (signed : Bool) (b : UInt8) : BitVec 32 := if signed then b.toBitVec.signExtend 32 else b.toBitVec.setWidth 32

/-- The sign is not in the index of the table. -/
theorem operand_index (signed : Bool) (crc : BitVec 32) (b : UInt8) :
    ((crc ^^^ operand signed b) &&& 0xff).toNat = (crc.toNat ^^^ b.toNat) &&& 255 := by
  have hlow : (operand signed b).toNat % 2 ^ 8 = b.toNat % 2 ^ 8 := by
    have hbyte : (operand signed b).setWidth 8 = b.toBitVec := by
      cases signed with
      | true =>
        apply BitVec.eq_of_getLsbD_eq
        intro i hi
        have hword : i < 32 := by omega
        rw [operand, if_pos rfl, BitVec.getLsbD_setWidth, BitVec.getLsbD_signExtend]
        simp only [hi, hword, decide_true, Bool.true_and, if_true]
      | false => simp [operand]
    have hnat := congrArg BitVec.toNat hbyte
    rw [BitVec.toNat_setWidth] at hnat
    rw [hnat]
    exact (Nat.mod_eq_of_lt b.toNat_lt).symm
  have hmask : ∀ x : ℕ, x &&& 255 = x % 2 ^ 8 := fun x => Nat.and_two_pow_sub_one_eq_mod x 8
  have h255 : (0xff : BitVec 32).toNat = 255 := rfl
  rw [BitVec.toNat_and, BitVec.toNat_xor, h255, hmask, hmask, Nat.xor_mod_two_pow, hlow, ← Nat.xor_mod_two_pow]

end Neufbox.Crc32
