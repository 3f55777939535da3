import Neufbox.Library.Bits

/-! # The code over a NAND block

`nand_calculate_ecc`: three bytes of parities over a block of 256 bytes. The column parities come from a table, the
line parities from the numbers of the bytes whose own parity is odd, once plain and once inverted. -/
namespace Neufbox.NandEcc
open Library.Bits
set_option autoImplicit false
set_option maxHeartbeats 250000
set_option maxRecDepth 120000

/-! ## The code -/

def nandEccPrecalcTable : List (BitVec 8) :=
  [0x00, 0x55, 0x56, 0x03, 0x59, 0x0c, 0x0f, 0x5a, 0x5a, 0x0f, 0x0c, 0x59, 0x03, 0x56, 0x55, 0x00,
   0x65, 0x30, 0x33, 0x66, 0x3c, 0x69, 0x6a, 0x3f, 0x3f, 0x6a, 0x69, 0x3c, 0x66, 0x33, 0x30, 0x65,
   0x66, 0x33, 0x30, 0x65, 0x3f, 0x6a, 0x69, 0x3c, 0x3c, 0x69, 0x6a, 0x3f, 0x65, 0x30, 0x33, 0x66,
   0x03, 0x56, 0x55, 0x00, 0x5a, 0x0f, 0x0c, 0x59, 0x59, 0x0c, 0x0f, 0x5a, 0x00, 0x55, 0x56, 0x03,
   0x69, 0x3c, 0x3f, 0x6a, 0x30, 0x65, 0x66, 0x33, 0x33, 0x66, 0x65, 0x30, 0x6a, 0x3f, 0x3c, 0x69,
   0x0c, 0x59, 0x5a, 0x0f, 0x55, 0x00, 0x03, 0x56, 0x56, 0x03, 0x00, 0x55, 0x0f, 0x5a, 0x59, 0x0c,
   0x0f, 0x5a, 0x59, 0x0c, 0x56, 0x03, 0x00, 0x55, 0x55, 0x00, 0x03, 0x56, 0x0c, 0x59, 0x5a, 0x0f,
   0x6a, 0x3f, 0x3c, 0x69, 0x33, 0x66, 0x65, 0x30, 0x30, 0x65, 0x66, 0x33, 0x69, 0x3c, 0x3f, 0x6a,
   0x6a, 0x3f, 0x3c, 0x69, 0x33, 0x66, 0x65, 0x30, 0x30, 0x65, 0x66, 0x33, 0x69, 0x3c, 0x3f, 0x6a,
   0x0f, 0x5a, 0x59, 0x0c, 0x56, 0x03, 0x00, 0x55, 0x55, 0x00, 0x03, 0x56, 0x0c, 0x59, 0x5a, 0x0f,
   0x0c, 0x59, 0x5a, 0x0f, 0x55, 0x00, 0x03, 0x56, 0x56, 0x03, 0x00, 0x55, 0x0f, 0x5a, 0x59, 0x0c,
   0x69, 0x3c, 0x3f, 0x6a, 0x30, 0x65, 0x66, 0x33, 0x33, 0x66, 0x65, 0x30, 0x6a, 0x3f, 0x3c, 0x69,
   0x03, 0x56, 0x55, 0x00, 0x5a, 0x0f, 0x0c, 0x59, 0x59, 0x0c, 0x0f, 0x5a, 0x00, 0x55, 0x56, 0x03,
   0x66, 0x33, 0x30, 0x65, 0x3f, 0x6a, 0x69, 0x3c, 0x3c, 0x69, 0x6a, 0x3f, 0x65, 0x30, 0x33, 0x66,
   0x65, 0x30, 0x33, 0x66, 0x3c, 0x69, 0x6a, 0x3f, 0x3f, 0x6a, 0x69, 0x3c, 0x66, 0x33, 0x30, 0x65,
   0x00, 0x55, 0x56, 0x03, 0x59, 0x0c, 0x0f, 0x5a, 0x5a, 0x0f, 0x0c, 0x59, 0x03, 0x56, 0x55, 0x00]

/-- `uint8_t` registers. -/
structure Regs where
  reg1 : BitVec 8
  reg2 : BitVec 8
  reg3 : BitVec 8

abbrev Block := Fin 256 → BitVec 8

def column (b : BitVec 8) : BitVec 8 := nandEccPrecalcTable.getD b.toNat 0

/-- A round of the loop. -/
def addByte (dat : Block) (r : Regs) (i : Fin 256) : Regs :=
  let idx := column (dat i)
  let reg1 := r.reg1 ^^^ (idx &&& 0x3f)
  if idx &&& 0x40 ≠ 0 then ⟨reg1, r.reg2 ^^^ ~~~BitVec.ofNat 8 i, r.reg3 ^^^ BitVec.ofNat 8 i⟩
  else { r with reg1 := reg1 }

def registers (dat : Block) : Regs := (List.finRange 256).foldl (addByte dat) ⟨0, 0, 0⟩

def tmp1 (reg2 reg3 : BitVec 8) : BitVec 8 :=
  (reg3 &&& 0x80) >>> 0 ||| (reg2 &&& 0x80) >>> 1 ||| (reg3 &&& 0x40) >>> 1 ||| (reg2 &&& 0x40) >>> 2 |||
    (reg3 &&& 0x20) >>> 2 ||| (reg2 &&& 0x20) >>> 3 ||| (reg3 &&& 0x10) >>> 3 ||| (reg2 &&& 0x10) >>> 4

def tmp2 (reg2 reg3 : BitVec 8) : BitVec 8 :=
  (reg3 &&& 0x08) <<< 4 ||| (reg2 &&& 0x08) <<< 3 ||| (reg3 &&& 0x04) <<< 3 ||| (reg2 &&& 0x04) <<< 2 |||
    (reg3 &&& 0x02) <<< 2 ||| (reg2 &&& 0x02) <<< 1 ||| (reg3 &&& 0x01) <<< 1 ||| (reg2 &&& 0x01) <<< 0

/-- The three bytes of `ecc_code`. -/
structure Ecc where
  code0 : BitVec 8
  code1 : BitVec 8
  code2 : BitVec 8
  deriving DecidableEq

/-- `smc` is `CONFIG_MTD_NAND_ECC_SMC`. -/
def nandCalculateEcc (smc : Bool) (dat : Block) : Ecc :=
  let r := registers dat
  let line := if smc then (~~~tmp2 r.reg2 r.reg3, ~~~tmp1 r.reg2 r.reg3)
    else (~~~tmp1 r.reg2 r.reg3, ~~~tmp2 r.reg2 r.reg3)
  ⟨line.1, line.2, (~~~r.reg1) <<< 2 ||| 0x03⟩

/-! ## One changed bit -/

/-- A bit of a block: the number of its byte and its number there. -/
structure Place where
  byte : Fin 256
  bit : Fin 8
  deriving DecidableEq

def oneBit (k : Fin 8) : BitVec 8 := BitVec.twoPow 8 k

def flip (dat : Block) (p : Place) : Block := Function.update dat p.byte (dat p.byte ^^^ oneBit p.bit)

/-- The table holds parities: an entry is put together from the entries of the single bits. -/
theorem column_bits (b : BitVec 8) : column b =
    (List.finRange 8).foldl (fun acc (i : Fin 8) => acc ^^^ if b.getLsbD i then column (oneBit i) else 0) 0 := by
  revert b
  decide +kernel

/-- A changed bit changes an entry by the entry of the bit. -/
theorem column_flip (b : BitVec 8) (k : Fin 8) : column (b ^^^ oneBit k) = column b ^^^ column (oneBit k) := by
  have hbit : ∀ i : Fin 8, (b ^^^ oneBit k).getLsbD i = (b.getLsbD i ^^ decide (k = i)) := by
    intro i
    rw [BitVec.getLsbD_xor, oneBit, BitVec.getLsbD_twoPow]
    simp [Fin.ext_iff]
  rw [column_bits (b ^^^ oneBit k), column_bits b, foldl_xor_change
    (f := fun i : Fin 8 => if b.getLsbD i then column (oneBit i) else 0) (List.nodup_finRange 8) (List.mem_finRange k)]
  · congr 1
    simp only [hbit k, decide_true, Bool.xor_true]
    cases b.getLsbD k <;> simp
  · intro i _ hi
    simp only [hbit i, decide_eq_false (Ne.symm hi), Bool.xor_false]

/-- The parity of a whole byte changes with each of its bits. -/
theorem column_oneBit (k : Fin 8) : column (oneBit k) &&& 0x40 = 0x40 := by
  revert k
  decide +kernel

section Registers
variable (dat : Block)

/-- The registers are parities, each over its own contributions. -/
theorem foldl_addByte (l : List (Fin 256)) (r : Regs) : l.foldl (addByte dat) r =
    ⟨l.foldl (fun acc i => acc ^^^ (column (dat i) &&& 0x3f)) r.reg1,
      l.foldl (fun acc i => acc ^^^ if column (dat i) &&& 0x40 ≠ 0 then ~~~BitVec.ofNat 8 i else 0) r.reg2,
      l.foldl (fun acc i => acc ^^^ if column (dat i) &&& 0x40 ≠ 0 then BitVec.ofNat 8 i else 0) r.reg3⟩ := by
  induction l generalizing r with
  | nil => rfl
  | cons i l ih =>
    rw [List.foldl_cons, ih]
    simp only [List.foldl_cons, addByte]
    split <;> simp

/-- The parity bit of an entry is set or clear. -/
theorem parity_bit (b : BitVec 8) : b &&& 0x40 = 0 ∨ b &&& 0x40 = 0x40 := by
  revert b
  decide +kernel

theorem parity_change {w : ℕ} (c d : BitVec 8) (hd : d &&& 0x40 = 0x40) (x : BitVec w) :
    (if c &&& 0x40 ≠ 0 then x else 0) ^^^ (if (c ^^^ d) &&& 0x40 ≠ 0 then x else 0) = x := by
  rw [xor_and, hd]
  rcases parity_bit c with hc | hc
  · rw [hc]
    simp
  · rw [hc]
    simp

theorem registers_flip (p : Place) : registers (flip dat p) =
    ⟨(registers dat).reg1 ^^^ (column (oneBit p.bit) &&& 0x3f), (registers dat).reg2 ^^^ ~~~BitVec.ofNat 8 p.byte,
      (registers dat).reg3 ^^^ BitVec.ofNat 8 p.byte⟩ := by
  have hall : p.byte ∈ List.finRange 256 := List.mem_finRange p.byte
  have hnodup : (List.finRange 256).Nodup := List.nodup_finRange 256
  have hother : ∀ i, i ≠ p.byte → flip dat p i = dat i := fun i hi => Function.update_of_ne hi _ _
  have hhere : flip dat p p.byte = dat p.byte ^^^ oneBit p.bit := Function.update_self _ _ _
  rw [registers, registers, foldl_addByte, foldl_addByte]
  congr 1
  · rw [foldl_xor_change (f := fun i => column (dat i) &&& 0x3f) hnodup hall]
    · congr 1
      simp only [hhere, column_flip, xor_and]
      rw [← BitVec.xor_assoc, BitVec.xor_self, BitVec.zero_xor]
    · intro i _ hi
      rw [hother i hi]
  · rw [foldl_xor_change (f := fun i : Fin 256 => if column (dat i) &&& 0x40 ≠ 0 then ~~~BitVec.ofNat 8 i else 0) hnodup hall]
    · rw [hhere, column_flip, parity_change _ _ (column_oneBit p.bit)]
    · intro i _ hi
      rw [hother i hi]
  · rw [foldl_xor_change (f := fun i : Fin 256 => if column (dat i) &&& 0x40 ≠ 0 then BitVec.ofNat 8 i else 0) hnodup hall]
    · rw [hhere, column_flip, parity_change _ _ (column_oneBit p.bit)]
    · intro i _ hi
      rw [hother i hi]

end Registers

/-! ## The pairs of parities -/

namespace Ecc

def xor (a b : Ecc) : Ecc := ⟨a.code0 ^^^ b.code0, a.code1 ^^^ b.code1, a.code2 ^^^ b.code2⟩

/-- The byte with the parities over the lower or the upper half of a byte number. -/
def lineByte (smc low : Bool) (e : Ecc) : BitVec 8 := if smc = low then e.code0 else e.code1

/-- The parities come in pairs: three for the number of a bit, eight for that of a byte. -/
def parity (smc odd : Bool) (e : Ecc) (n : ℕ) : Bool :=
  if n < 3 then e.code2.getLsbD (2 * n + 2 + odd.toNat)
  else if n < 7 then (e.lineByte smc true).getLsbD (2 * (n - 3) + odd.toNat)
  else (e.lineByte smc false).getLsbD (2 * (n - 7) + odd.toNat)

/-- The two bits that hold no parity. -/
def unused (e : Ecc) : BitVec 8 := e.code2 &&& 0x03

theorem parity_xor (smc odd : Bool) (a b : Ecc) (n : ℕ) :
    (a.xor b).parity smc odd n = (a.parity smc odd n ^^ b.parity smc odd n) := by
  unfold parity lineByte xor
  split
  · simp
  · split <;> split <;> simp

end Ecc

theorem tmp1_getLsbD (reg2 reg3 : BitVec 8) {n : ℕ} (hn : n < 4) :
    (tmp1 reg2 reg3).getLsbD (2 * n) = reg2.getLsbD (n + 4) ∧
      (tmp1 reg2 reg3).getLsbD (2 * n + 1) = reg3.getLsbD (n + 4) := by
  interval_cases n <;> simp [tmp1]

theorem tmp2_getLsbD (reg2 reg3 : BitVec 8) {n : ℕ} (hn : n < 4) :
    (tmp2 reg2 reg3).getLsbD (2 * n) = reg2.getLsbD n ∧ (tmp2 reg2 reg3).getLsbD (2 * n + 1) = reg3.getLsbD n := by
  interval_cases n <;> simp [tmp2]

theorem lineByte_code (smc : Bool) (dat : Block) :
    (nandCalculateEcc smc dat).lineByte smc true = ~~~tmp2 (registers dat).reg2 (registers dat).reg3 ∧
      (nandCalculateEcc smc dat).lineByte smc false = ~~~tmp1 (registers dat).reg2 (registers dat).reg3 := by
  cases smc <;> exact ⟨rfl, rfl⟩

/-- The parities of the code, inverted. -/
theorem parity_code (smc odd : Bool) (dat : Block) {n : ℕ} (hn : n < 11) :
    (nandCalculateEcc smc dat).parity smc odd n = !(if n < 3 then (registers dat).reg1.getLsbD (2 * n + odd.toNat)
      else if odd then (registers dat).reg3.getLsbD (n - 3) else (registers dat).reg2.getLsbD (n - 3)) := by
  rw [Ecc.parity]
  split
  · next hcol =>
    have hcode : (nandCalculateEcc smc dat).code2 = (~~~(registers dat).reg1) <<< 2 ||| 0x03 := rfl
    rw [hcode]
    interval_cases n <;> cases odd <;> simp
  · next hcol =>
    rw [(lineByte_code smc dat).1, (lineByte_code smc dat).2]
    split
    · next hlow =>
      have htmp := tmp2_getLsbD (registers dat).reg2 (registers dat).reg3 (n := n - 3) (by omega)
      have hwidth : 2 * (n - 3) + 1 < 8 := by omega
      cases odd
      · simp only [Bool.toNat_false, Nat.add_zero, BitVec.getLsbD_not, htmp.1]
        simp
        omega
      · simp only [Bool.toNat_true, BitVec.getLsbD_not, htmp.2]
        simp [hwidth]
    · next hhigh =>
      have htmp := tmp1_getLsbD (registers dat).reg2 (registers dat).reg3 (n := n - 7) (by omega)
      have hwidth : 2 * (n - 7) + 1 < 8 := by omega
      have hbit : n - 7 + 4 = n - 3 := by omega
      rw [hbit] at htmp
      cases odd
      · simp only [Bool.toNat_false, Nat.add_zero, BitVec.getLsbD_not, htmp.1]
        simp
        omega
      · simp only [Bool.toNat_true, BitVec.getLsbD_not, htmp.2]
        simp [hwidth]

theorem unused_code (smc : Bool) (dat : Block) : (nandCalculateEcc smc dat).unused = 0x03 := by
  have hcode : (nandCalculateEcc smc dat).code2 = (~~~(registers dat).reg1) <<< 2 ||| 0x03 := rfl
  rw [Ecc.unused, hcode]
  generalize (registers dat).reg1 = r
  revert r
  decide +kernel

/-! ## Syndromes -/

/-- The number of a bit in the block. -/
def Place.number (p : Place) : ℕ := 8 * p.byte + p.bit

theorem Place.number_lt (p : Place) : p.number < 2 ^ 11 := by
  have hbyte := p.byte.isLt
  have hbit := p.bit.isLt
  unfold number
  omega

theorem Place.number_injective {p q : Place} (h : p.number = q.number) : p = q := by
  have hp := p.bit.isLt
  have hq := q.bit.isLt
  unfold number at h
  obtain ⟨pi, pk⟩ := p
  obtain ⟨qi, qk⟩ := q
  rw [Place.mk.injEq, Fin.ext_iff, Fin.ext_iff]
  simp only at h hp hq
  omega

theorem Place.number_testBit (p : Place) (n : ℕ) :
    p.number.testBit n = if n < 3 then (p.bit : ℕ).testBit n else (p.byte : ℕ).testBit (n - 3) :=
  Nat.testBit_two_pow_mul_add (p.byte : ℕ) (show (p.bit : ℕ) < 2 ^ 3 from p.bit.isLt) n

/-- Two places differ in one of eleven bits. -/
theorem Place.exists_testBit {p q : Place} (h : p ≠ q) : ∃ n < 11, p.number.testBit n ≠ q.number.testBit n := by
  by_contra hnone
  push Not at hnone
  apply h
  apply Place.number_injective
  apply Nat.eq_of_testBit_eq
  intro n
  by_cases hn : n < 11
  · exact hnone n hn
  · have hpow : 2 ^ 11 ≤ 2 ^ n := Nat.pow_le_pow_right (by norm_num) (by omega)
    rw [Nat.testBit_lt_two_pow (p.number_lt.trans_le hpow), Nat.testBit_lt_two_pow (q.number_lt.trans_le hpow)]

/-- The difference of the codes of two blocks. -/
def syndrome (smc : Bool) (dat dat' : Block) : Ecc := (nandCalculateEcc smc dat').xor (nandCalculateEcc smc dat)

/-- The column parities of one bit spell its number. -/
theorem column_spells (k : Fin 8) {n : ℕ} (hn : n < 3) :
    (column (oneBit k) &&& 0x3f).getLsbD (2 * n + 1) = (k : ℕ).testBit n ∧
      (column (oneBit k) &&& 0x3f).getLsbD (2 * n) = !(k : ℕ).testBit n := by
  revert k
  interval_cases n <;> decide +kernel

/-- A changed bit: the odd parities spell its number, and the even ones the complement. -/
theorem parity_flip (smc odd : Bool) (dat : Block) (p : Place) {n : ℕ} (hn : n < 11) :
    (syndrome smc dat (flip dat p)).parity smc odd n = (p.number.testBit n == odd) := by
  rw [syndrome, Ecc.parity_xor, parity_code smc odd _ hn, parity_code smc odd _ hn, registers_flip, Place.number_testBit]
  have hcancel : ∀ a b : Bool, ((!(a ^^ b)) ^^ (!a)) = b := by decide
  split
  · next hcol =>
    obtain ⟨hodd, heven⟩ := column_spells p.bit hcol
    rw [BitVec.getLsbD_xor, hcancel]
    cases odd
    · rw [Bool.toNat_false, Nat.add_zero, heven]
      simp
    · rw [Bool.toNat_true, hodd]
      simp
  · next hline =>
    have hwidth : n - 3 < 8 := by omega
    cases odd
    · simp only [Bool.false_eq_true, if_false, BitVec.getLsbD_xor, hcancel]
      simp [hwidth]
    · simp only [if_true, BitVec.getLsbD_xor, hcancel]
      simp [hwidth]

theorem unused_syndrome (smc : Bool) (dat dat' : Block) : (syndrome smc dat dat').unused = 0 := by
  have h := unused_code smc dat
  have h' := unused_code smc dat'
  unfold Ecc.unused at *
  rw [syndrome, Ecc.xor]
  simp only [xor_and, h, h', BitVec.xor_self]
  rfl

/-- Two changed bits: the odd and the even parities are the same. -/
theorem parity_flip_flip (smc odd : Bool) (dat : Block) (p q : Place) {n : ℕ} (hn : n < 11) :
    (syndrome smc dat (flip (flip dat p) q)).parity smc odd n = (p.number.testBit n ^^ q.number.testBit n) := by
  have hsplit : ∀ a b c : Bool, (a ^^ c) = ((a ^^ b) ^^ (b ^^ c)) := by decide
  have hsame : ∀ a b c : Bool, ((a == c) ^^ (b == c)) = (b ^^ a) := by decide
  have hp := parity_flip smc odd dat p hn
  have hq := parity_flip smc odd (flip dat p) q hn
  rw [syndrome, Ecc.parity_xor] at hp hq ⊢
  rw [hsplit _ ((nandCalculateEcc smc (flip dat p)).parity smc odd n) _, hq, hp, hsame]

/-! ## Changes of the stored code -/

/-- A bit of the code. -/
def codeBit (j : Fin 24) : Ecc :=
  ⟨if (j : ℕ) < 8 then BitVec.twoPow 8 j else 0, if 8 ≤ (j : ℕ) ∧ (j : ℕ) < 16 then BitVec.twoPow 8 (j - 8) else 0,
    if 16 ≤ (j : ℕ) then BitVec.twoPow 8 (j - 16) else 0⟩

/-- A single bit makes the parities of a pair differ, or it holds no parity. -/
theorem codeBit_parity (smc : Bool) (j : Fin 24) : (codeBit j).unused ≠ 0 ∨
    ∃ n < 11, (codeBit j).parity smc true n ≠ (codeBit j).parity smc false n := by
  revert smc j
  decide +kernel

theorem xor_codeBit (e : Ecc) (j : Fin 24) : (e.xor (codeBit j)).xor e = codeBit j := by
  have hcancel : ∀ x y : BitVec 8, x ^^^ y ^^^ x = y := by
    intro x y
    rw [BitVec.xor_comm x, BitVec.xor_assoc, BitVec.xor_self, BitVec.xor_zero]
  simp only [Ecc.xor, hcancel]

/-! ## One and two changed bits -/

section Changes
variable (smc : Bool) (dat : Block)

/-- The syndromes of different bits differ. -/
theorem flip_unique {dat' : Block} {p q : Place}
    (h : syndrome smc dat' (flip dat' q) = syndrome smc dat (flip dat p)) : q = p := by
  by_contra hne
  obtain ⟨n, hn, hbit⟩ := Place.exists_testBit hne
  apply hbit
  have hq := parity_flip smc true dat' q hn
  have hp := parity_flip smc true dat p hn
  rw [h, hp] at hq
  simpa using hq.symm

theorem flip_flip_ne_zero {p q : Place} (h : p ≠ q) : syndrome smc dat (flip (flip dat p) q) ≠ ⟨0, 0, 0⟩ := by
  intro hzero
  obtain ⟨n, hn, hbit⟩ := Place.exists_testBit h
  have hparity := parity_flip_flip smc true dat p q hn
  have hnone : Ecc.parity smc true ⟨0, 0, 0⟩ n = false := by
    simp [Ecc.parity, Ecc.lineByte]
  rw [hzero, hnone] at hparity
  apply hbit
  simpa using hparity.symm

theorem flip_flip_ne_flip (p q r : Place) (dat' : Block) :
    syndrome smc dat (flip (flip dat p) q) ≠ syndrome smc dat' (flip dat' r) := by
  intro h
  have hodd := parity_flip_flip smc true dat p q (by norm_num : 0 < 11)
  have heven := parity_flip_flip smc false dat p q (by norm_num : 0 < 11)
  rw [h, parity_flip smc _ dat' r (by norm_num)] at hodd heven
  rw [← hodd] at heven
  simp at heven

theorem flip_flip_ne_codeBit (p q : Place) (j : Fin 24) : syndrome smc dat (flip (flip dat p) q) ≠ codeBit j := by
  intro h
  rcases codeBit_parity smc j with hunused | ⟨n, hn, hpair⟩
  · rw [← h, unused_syndrome] at hunused
    exact hunused rfl
  · rw [← h, parity_flip_flip smc true dat p q hn, parity_flip_flip smc false dat p q hn] at hpair
    exact hpair rfl

/-- One changed bit gives a syndrome whose pairs spell its place, and no other bit gives the same. Two changed bits
give a syndrome that is not zero and neither that of one changed bit nor that of a changed bit of a stored code. -/
theorem nand_ecc_corrects_detects :
    (∀ p, (∀ n < 11, (syndrome smc dat (flip dat p)).parity smc true n = p.number.testBit n ∧
        (syndrome smc dat (flip dat p)).parity smc false n = !p.number.testBit n) ∧
      ∀ dat' q, syndrome smc dat' (flip dat' q) = syndrome smc dat (flip dat p) → q = p) ∧
    ∀ p q, p ≠ q → syndrome smc dat (flip (flip dat p) q) ≠ ⟨0, 0, 0⟩ ∧
      (∀ dat' r, syndrome smc dat (flip (flip dat p) q) ≠ syndrome smc dat' (flip dat' r)) ∧
      ∀ (code : Ecc) j, syndrome smc dat (flip (flip dat p) q) ≠ (code.xor (codeBit j)).xor code := by
  refine ⟨fun p => ⟨fun n hn => ?_, fun dat' q => flip_unique smc dat⟩, fun p q hne => ?_⟩
  · rw [parity_flip smc true dat p hn, parity_flip smc false dat p hn]
    simp
  · refine ⟨flip_flip_ne_zero smc dat hne, fun dat' r => flip_flip_ne_flip smc dat p q r dat', fun code j => ?_⟩
    rw [xor_codeBit]
    exact flip_flip_ne_codeBit smc dat p q j

end Changes

end Neufbox.NandEcc
