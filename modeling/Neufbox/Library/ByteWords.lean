import Mathlib.Tactic

/-! 32-bit words as four bytes, the first the most significant: what shifts, masks, rotations and
exclusive or do to the bytes. -/
namespace Neufbox.ByteWords
set_option autoImplicit false
set_option maxHeartbeats 250000
set_option maxRecDepth 120000

abbrev Byte := BitVec 8
abbrev Word := BitVec 32

/-- The word of the bytes `a b c d`, the most significant first. -/
def word (a b c d : Byte) : Word := a ++ b ++ c ++ d

theorem word_getLsbD (a b c d : Byte) (i : ℕ) :
    (word a b c d).getLsbD i =
      if i < 8 then d.getLsbD i
      else if i < 16 then c.getLsbD (i - 8)
      else if i < 24 then b.getLsbD (i - 16)
      else a.getLsbD (i - 24) := by
  simp only [word, BitVec.getLsbD_append]
  split
  · rfl
  · split
    · next h1 h2 => rw [if_pos (by omega)]
    · split
      · next h1 h2 h3 => rw [if_neg (by omega), if_pos (by omega), Nat.sub_sub]
      · next h1 h2 h3 => rw [if_neg (by omega), if_neg (by omega), Nat.sub_sub, Nat.sub_sub]

/-! ## Bytes of a word -/

/-- What numerals for a byte or a word of four rest on. -/
scoped instance fourNeZero : NeZero 4 := ⟨by decide⟩

/-- Byte `r` of a word, counted from the most significant. -/
def byte (w : Word) (r : Fin 4) : Byte := w.extractLsb' (24 - 8 * r) 8

theorem byte_getLsbD (w : Word) (r : Fin 4) (i : ℕ) :
    (byte w r).getLsbD i = (decide (i < 8) && w.getLsbD (24 - 8 * r + i)) := by
  rw [byte, BitVec.getLsbD_extractLsb']

@[simp] theorem byte_word_zero (a b c d : Byte) : byte (word a b c d) 0 = a := by
  apply BitVec.eq_of_getLsbD_eq
  intro i hi
  simp only [byte_getLsbD, word_getLsbD, Fin.val_zero]
  rw [if_neg (by omega), if_neg (by omega), if_neg (by omega), decide_eq_true hi, Bool.true_and]
  congr 1
  omega

@[simp] theorem byte_word_one (a b c d : Byte) : byte (word a b c d) 1 = b := by
  apply BitVec.eq_of_getLsbD_eq
  intro i hi
  simp only [byte_getLsbD, word_getLsbD, Fin.val_one]
  rw [if_neg (by omega), if_neg (by omega), if_pos (by omega), decide_eq_true hi, Bool.true_and]
  congr 1
  omega

@[simp] theorem byte_word_two (a b c d : Byte) : byte (word a b c d) 2 = c := by
  apply BitVec.eq_of_getLsbD_eq
  intro i hi
  simp only [byte_getLsbD, word_getLsbD, Fin.val_two]
  rw [if_neg (by omega), if_pos (by omega), decide_eq_true hi, Bool.true_and]
  congr 1
  omega

@[simp] theorem byte_word_three (a b c d : Byte) : byte (word a b c d) 3 = d := by
  apply BitVec.eq_of_getLsbD_eq
  intro i hi
  have h3 : ((3 : Fin 4) : ℕ) = 3 := rfl
  simp only [byte_getLsbD, word_getLsbD, h3]
  rw [if_pos (by omega), decide_eq_true hi, Bool.true_and]
  congr 1
  omega

theorem word_byte (w : Word) : word (byte w 0) (byte w 1) (byte w 2) (byte w 3) = w := by
  apply BitVec.eq_of_getLsbD_eq
  intro i hi
  have h3 : ((3 : Fin 4) : ℕ) = 3 := rfl
  simp only [word_getLsbD, byte_getLsbD, Fin.val_zero, Fin.val_one, Fin.val_two, h3]
  split
  · next h => rw [decide_eq_true h, Bool.true_and, show 24 - 8 * 3 + i = i from by omega]
  · split
    · rw [decide_eq_true (by omega), Bool.true_and, show 24 - 8 * 2 + (i - 8) = i from by omega]
    · split
      · rw [decide_eq_true (by omega), Bool.true_and, show 24 - 8 * 1 + (i - 16) = i from by omega]
      · rw [decide_eq_true (by omega), Bool.true_and, show 24 - 8 * 0 + (i - 24) = i from by omega]

/-- Two words with the same bytes are the same. -/
theorem word_ext {v w : Word} (h : ∀ r, byte v r = byte w r) : v = w := by
  rw [← word_byte v, ← word_byte w, h, h, h, h]

/-! ## Operations on words, byte by byte -/

@[simp] theorem byte_xor (v w : Word) (r : Fin 4) : byte (v ^^^ w) r = byte v r ^^^ byte w r := by
  apply BitVec.eq_of_getLsbD_eq
  intro i hi
  rw [BitVec.getLsbD_xor, byte_getLsbD, byte_getLsbD, byte_getLsbD, BitVec.getLsbD_xor,
    decide_eq_true hi, Bool.true_and, Bool.true_and, Bool.true_and]

theorem xor_word (a b c d a' b' c' d' : Byte) :
    word a b c d ^^^ word a' b' c' d' = word (a ^^^ a') (b ^^^ b') (c ^^^ c') (d ^^^ d') := by
  apply word_ext
  intro r
  fin_cases r <;> simp

theorem word_zero (b : Byte) : word 0 0 0 b = b.setWidth 32 := by
  apply BitVec.eq_of_getLsbD_eq
  intro i hi
  rw [word_getLsbD, BitVec.getLsbD_setWidth, decide_eq_true hi, Bool.true_and]
  split
  · rfl
  · next h =>
    rw [BitVec.getLsbD_of_ge b i (by omega)]
    simp

@[simp] theorem word_zero_toNat (b : Byte) : (word 0 0 0 b).toNat = b.toNat := by
  have hb := b.isLt
  rw [word_zero, BitVec.toNat_setWidth, Nat.mod_eq_of_lt (by omega)]

/-- A shift to the right by `24 - 8 r` bits and a mask give byte `r`. -/
theorem shift_and_byte (w : Word) (r : Fin 4) :
    (w >>> (24 - 8 * (r : ℕ))) &&& 0xff#32 = word 0 0 0 (byte w r) := by
  rw [word_zero]
  apply BitVec.eq_of_getLsbD_eq
  intro i hi
  have hmask : (0xff#32).getLsbD i = decide (i < 8) := by
    have h : ∀ j : Fin 32, (0xff#32).getLsbD j = decide ((j : ℕ) < 8) := by decide
    exact h ⟨i, hi⟩
  rw [BitVec.getLsbD_and, hmask, BitVec.getLsbD_ushiftRight, BitVec.getLsbD_setWidth, byte_getLsbD,
    decide_eq_true hi, Bool.true_and, Bool.and_comm]

theorem shiftLeft_word (a b c d : Byte) : word a b c d <<< 8 = word b c d 0 := by
  apply BitVec.eq_of_getLsbD_eq
  intro i hi
  simp only [BitVec.getLsbD_shiftLeft, word_getLsbD, decide_eq_true hi, Bool.true_and]
  by_cases h1 : i < 8
  · simp [h1]
  · by_cases h2 : i < 16
    · rw [if_neg h1, if_pos h2, if_pos (by omega)]
      simp [h1]
    · by_cases h3 : i < 24
      · rw [if_neg h1, if_neg h2, if_pos h3, if_neg (by omega), if_pos (by omega), Nat.sub_sub]
        simp [h1]
      · rw [if_neg h1, if_neg h2, if_neg h3, if_neg (by omega), if_neg (by omega), if_pos (by omega),
          Nat.sub_sub]
        simp [h1]

theorem shiftRight_word (a b c d : Byte) : word a b c d >>> 8 = word 0 a b c := by
  apply BitVec.eq_of_getLsbD_eq
  intro i hi
  simp only [BitVec.getLsbD_ushiftRight, word_getLsbD]
  by_cases h1 : i < 8
  · rw [if_neg (by omega), if_pos (by omega), if_pos h1, Nat.add_sub_cancel_left]
  · by_cases h2 : i < 16
    · rw [if_neg (by omega), if_neg (by omega), if_pos (by omega), if_neg h1, if_pos h2]
      congr 1
      omega
    · by_cases h3 : i < 24
      · rw [if_neg (by omega), if_neg (by omega), if_neg (by omega), if_neg h1, if_neg h2, if_pos h3]
        congr 1
        omega
      · rw [if_neg (by omega), if_neg (by omega), if_neg (by omega), if_neg h1, if_neg h2, if_neg h3]
        simp [BitVec.getLsbD_of_ge a (8 + i - 24) (by omega)]

/-! ### Shifts by whole bytes, one after the other -/

theorem shiftLeft_word_two (a b c d : Byte) : word a b c d <<< 16 = word c d 0 0 := by
  rw [show 16 = 8 + 8 from rfl, BitVec.shiftLeft_add, shiftLeft_word, shiftLeft_word]

theorem shiftLeft_word_three (a b c d : Byte) : word a b c d <<< 24 = word d 0 0 0 := by
  rw [show 24 = 16 + 8 from rfl, BitVec.shiftLeft_add, shiftLeft_word_two, shiftLeft_word]

theorem shiftRight_word_two (a b c d : Byte) : word a b c d >>> 16 = word 0 0 a b := by
  rw [show 16 = 8 + 8 from rfl, BitVec.shiftRight_add, shiftRight_word, shiftRight_word]

theorem shiftRight_word_three (a b c d : Byte) : word a b c d >>> 24 = word 0 0 0 a := by
  rw [show 24 = 16 + 8 from rfl, BitVec.shiftRight_add, shiftRight_word_two, shiftRight_word]

/-! ### Bitwise operations -/

theorem or_word (a b c d a' b' c' d' : Byte) :
    word a b c d ||| word a' b' c' d' = word (a ||| a') (b ||| b') (c ||| c') (d ||| d') := by
  apply BitVec.eq_of_getLsbD_eq
  intro i hi
  simp only [BitVec.getLsbD_or, word_getLsbD]
  split
  · rfl
  · split
    · rfl
    · split <;> rfl

theorem and_word (a b c d a' b' c' d' : Byte) :
    word a b c d &&& word a' b' c' d' = word (a &&& a') (b &&& b') (c &&& c') (d &&& d') := by
  apply BitVec.eq_of_getLsbD_eq
  intro i hi
  simp only [BitVec.getLsbD_and, word_getLsbD]
  split
  · rfl
  · split
    · rfl
    · split <;> rfl

/-- The low byte of a word that is shifted to the right. -/
theorem setWidth_shift (w : Word) (r : Fin 4) : (w >>> (24 - 8 * (r : ℕ))).setWidth 8 = byte w r := by
  apply BitVec.eq_of_getLsbD_eq
  intro i hi
  rw [BitVec.getLsbD_setWidth, BitVec.getLsbD_ushiftRight, byte_getLsbD]

end Neufbox.ByteWords
