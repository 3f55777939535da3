import Neufbox.Library.ByteWords

/-! # The plain 128-bit block cipher

The cipher on a four by four array of bytes, as FIPS 197 composes it: the substitution of a byte is
its inverse in the field of 256 elements followed by an affine map, the columns are mixed by a circulant
matrix over that field. Decryption is the equivalent inverse cipher, whose round keys have the inverse
mix applied to them. That it undoes encryption is a fact about any substitution and any additive mix
with inverses: `Rounds.decrypt_encrypt`. -/
namespace Neufbox.Rijndael
open ByteWords
set_option autoImplicit false
set_option maxHeartbeats 250000
set_option maxRecDepth 120000

/-! ## Rounds over any state -/

/-- What a key-alternating cipher is made of. -/
structure Rounds (σ : Type) where
  add : σ → σ → σ
  sub : σ → σ
  unsub : σ → σ
  mix : σ → σ
  unmix : σ → σ
  add_add : ∀ s k, add (add s k) k = s
  unsub_sub : ∀ s, unsub (sub s) = s
  unmix_mix : ∀ s, unmix (mix s) = s
  unmix_add : ∀ s k, unmix (add s k) = add (unmix s) (unmix k)

namespace Rounds
variable {σ : Type} (c : Rounds σ)

/-- The rounds with a mix, one for each key. -/
def forth (s : σ) (keys : List σ) : σ := keys.foldl (fun s k => c.add (c.mix (c.sub s)) k) s

def encrypt (first : σ) (keys : List σ) (last s : σ) : σ :=
  c.add (c.sub (c.forth (c.add s first) keys)) last

def back (s : σ) (keys : List σ) : σ := keys.foldl (fun s k => c.add (c.unmix (c.unsub s)) k) s

def decrypt (first : σ) (keys : List σ) (last s : σ) : σ :=
  c.add (c.unsub (c.back (c.add s first) keys)) last

/-- The rounds of decryption undo those of encryption from the last on, under the substitution. -/
theorem back_forth (s : σ) (keys : List σ) :
    c.back (c.sub (c.forth s keys)) (keys.reverse.map c.unmix) = c.sub s := by
  induction keys using List.reverseRecOn with
  | nil => rfl
  | append_singleton keys k ih =>
    have hstep : c.add (c.unmix (c.unsub (c.sub (c.forth s (keys ++ [k]))))) (c.unmix k) =
        c.sub (c.forth s keys) := by
      rw [c.unsub_sub, forth, List.foldl_append, List.foldl_cons, List.foldl_nil, ← forth, c.unmix_add,
        c.unmix_mix, c.add_add]
    rw [List.reverse_append, List.reverse_singleton, List.singleton_append, List.map_cons, back,
      List.foldl_cons, hstep]
    exact ih

theorem decrypt_encrypt (first : σ) (keys : List σ) (last s : σ) :
    c.decrypt last (keys.reverse.map c.unmix) first (c.encrypt first keys last s) = s := by
  rw [decrypt, encrypt, c.add_add, back_forth, c.unsub_sub, c.add_add]

end Rounds

/-! ## The field of 256 elements -/

/-- The product with `x`, modulo `x ^ 8 + x ^ 4 + x ^ 3 + x + 1`. -/
def xtime (b : Byte) : Byte := b <<< 1 ^^^ if b.msb then 0x1b#8 else 0#8

/-- The product of two elements; bit `i` of the first stands for `x ^ i`. -/
def gmul (a b : Byte) : Byte :=
  (List.range 8).foldr (fun i r => (if a.getLsbD i then xtime^[i] b else 0#8) ^^^ r) 0#8

theorem xtime_xor (a b : Byte) : xtime (a ^^^ b) = xtime a ^^^ xtime b := by
  rw [xtime, xtime, xtime, BitVec.shiftLeft_xor_distrib, BitVec.msb_xor]
  cases a.msb <;> cases b.msb
  · simp
  · simp [BitVec.xor_assoc]
  · simp only [Bool.true_xor, Bool.not_false, if_true, Bool.false_eq_true, if_false, BitVec.xor_zero]
    ac_rfl
  · simp only [Bool.true_xor, Bool.not_true, Bool.false_eq_true, if_false, if_true, BitVec.xor_zero]
    calc a <<< 1 ^^^ b <<< 1
        = a <<< 1 ^^^ b <<< 1 ^^^ (0x1b#8 ^^^ 0x1b#8) := by rw [BitVec.xor_self, BitVec.xor_zero]
      _ = a <<< 1 ^^^ 0x1b#8 ^^^ (b <<< 1 ^^^ 0x1b#8) := by ac_rfl

theorem iterate_xtime_xor (n : ℕ) (a b : Byte) : xtime^[n] (a ^^^ b) = xtime^[n] a ^^^ xtime^[n] b := by
  induction n with
  | zero => rfl
  | succ n ih => rw [Function.iterate_succ_apply', Function.iterate_succ_apply',
      Function.iterate_succ_apply', ih, xtime_xor]

theorem gmul_xor (k a b : Byte) : gmul k (a ^^^ b) = gmul k a ^^^ gmul k b := by
  rw [gmul, gmul, gmul]
  induction List.range 8 with
  | nil => simp
  | cons i is ih =>
    rw [List.foldr_cons, List.foldr_cons, List.foldr_cons, ih, iterate_xtime_xor]
    cases k.getLsbD i
    · simp
    · simp only [if_true]
      ac_rfl

theorem gmul_zero (b : Byte) : gmul 0#8 b = 0#8 := by
  have hbit : ∀ i, (0#8).getLsbD i = false := fun i => BitVec.getLsbD_zero
  rw [gmul]
  induction List.range 8 with
  | nil => rfl
  | cons i is ih => rw [List.foldr_cons, ih, hbit, if_neg Bool.false_ne_true, BitVec.xor_zero]

/-! ### Additive maps -/

/-- Every byte is the sum of the powers of `x` of its bits. -/
theorem sum_bits : ∀ a : Byte,
    (List.range 8).foldr (fun i r => (if a.getLsbD i then 1#8 <<< i else 0#8) ^^^ r) 0#8 = a := by
  decide +kernel

/-- An additive map that vanishes on the powers of `x` vanishes. -/
theorem additive_zero {f : Byte → Byte} (hf : ∀ a b, f (a ^^^ b) = f a ^^^ f b)
    (h : ∀ i < 8, f (1#8 <<< i) = 0#8) (a : Byte) : f a = 0#8 := by
  have hzero : f 0#8 = 0#8 := by
    have hsum := hf 0#8 0#8
    rw [BitVec.xor_self, BitVec.xor_self] at hsum
    exact hsum
  have hfold : ∀ is : List ℕ, (∀ i ∈ is, i < 8) →
      f (is.foldr (fun i r => (if a.getLsbD i then 1#8 <<< i else 0#8) ^^^ r) 0#8) = 0#8 := by
    intro is his
    induction is with
    | nil => exact hzero
    | cons i is ih =>
      rw [List.foldr_cons, hf, ih fun j hj => his j (List.mem_cons_of_mem _ hj), BitVec.xor_zero]
      split
      · exact h i (his i List.mem_cons_self)
      · exact hzero
  rw [← sum_bits a]
  exact hfold _ fun i hi => List.mem_range.mp hi

/-! ## Substitution -/

/-- The inverses of the elements, sixteen in a row. -/
def inverses : List (List ℕ) :=
  [[0x00, 0x01, 0x8d, 0xf6, 0xcb, 0x52, 0x7b, 0xd1, 0xe8, 0x4f, 0x29, 0xc0, 0xb0, 0xe1, 0xe5, 0xc7],
   [0x74, 0xb4, 0xaa, 0x4b, 0x99, 0x2b, 0x60, 0x5f, 0x58, 0x3f, 0xfd, 0xcc, 0xff, 0x40, 0xee, 0xb2],
   [0x3a, 0x6e, 0x5a, 0xf1, 0x55, 0x4d, 0xa8, 0xc9, 0xc1, 0x0a, 0x98, 0x15, 0x30, 0x44, 0xa2, 0xc2],
   [0x2c, 0x45, 0x92, 0x6c, 0xf3, 0x39, 0x66, 0x42, 0xf2, 0x35, 0x20, 0x6f, 0x77, 0xbb, 0x59, 0x19],
   [0x1d, 0xfe, 0x37, 0x67, 0x2d, 0x31, 0xf5, 0x69, 0xa7, 0x64, 0xab, 0x13, 0x54, 0x25, 0xe9, 0x09],
   [0xed, 0x5c, 0x05, 0xca, 0x4c, 0x24, 0x87, 0xbf, 0x18, 0x3e, 0x22, 0xf0, 0x51, 0xec, 0x61, 0x17],
   [0x16, 0x5e, 0xaf, 0xd3, 0x49, 0xa6, 0x36, 0x43, 0xf4, 0x47, 0x91, 0xdf, 0x33, 0x93, 0x21, 0x3b],
   [0x79, 0xb7, 0x97, 0x85, 0x10, 0xb5, 0xba, 0x3c, 0xb6, 0x70, 0xd0, 0x06, 0xa1, 0xfa, 0x81, 0x82],
   [0x83, 0x7e, 0x7f, 0x80, 0x96, 0x73, 0xbe, 0x56, 0x9b, 0x9e, 0x95, 0xd9, 0xf7, 0x02, 0xb9, 0xa4],
   [0xde, 0x6a, 0x32, 0x6d, 0xd8, 0x8a, 0x84, 0x72, 0x2a, 0x14, 0x9f, 0x88, 0xf9, 0xdc, 0x89, 0x9a],
   [0xfb, 0x7c, 0x2e, 0xc3, 0x8f, 0xb8, 0x65, 0x48, 0x26, 0xc8, 0x12, 0x4a, 0xce, 0xe7, 0xd2, 0x62],
   [0x0c, 0xe0, 0x1f, 0xef, 0x11, 0x75, 0x78, 0x71, 0xa5, 0x8e, 0x76, 0x3d, 0xbd, 0xbc, 0x86, 0x57],
   [0x0b, 0x28, 0x2f, 0xa3, 0xda, 0xd4, 0xe4, 0x0f, 0xa9, 0x27, 0x53, 0x04, 0x1b, 0xfc, 0xac, 0xe6],
   [0x7a, 0x07, 0xae, 0x63, 0xc5, 0xdb, 0xe2, 0xea, 0x94, 0x8b, 0xc4, 0xd5, 0x9d, 0xf8, 0x90, 0x6b],
   [0xb1, 0x0d, 0xd6, 0xeb, 0xc6, 0x0e, 0xcf, 0xad, 0x08, 0x4e, 0xd7, 0xe3, 0x5d, 0x50, 0x1e, 0xb3],
   [0x5b, 0x23, 0x38, 0x34, 0x68, 0x46, 0x03, 0x8c, 0xdd, 0x9c, 0x7d, 0xa0, 0xcd, 0x1a, 0x41, 0x1c]]

/-- The inverse of an element; zero is left alone. -/
def ginv (b : Byte) : Byte :=
  BitVec.ofNat 8 ((inverses.getD (b.toNat / 16) []).getD (b.toNat % 16) 0)

def sbox (b : Byte) : Byte :=
  let i := ginv b
  i ^^^ i.rotateLeft 1 ^^^ i.rotateLeft 2 ^^^ i.rotateLeft 3 ^^^ i.rotateLeft 4 ^^^ 0x63#8

def invSbox (b : Byte) : Byte :=
  ginv (b.rotateLeft 1 ^^^ b.rotateLeft 3 ^^^ b.rotateLeft 6 ^^^ 0x05#8)

theorem gmul_ginv : ∀ b : Byte, b ≠ 0 → gmul b (ginv b) = 1#8 := by decide +kernel

theorem invSbox_sbox : ∀ b : Byte, invSbox (sbox b) = b := by decide +kernel

/-! ## The state -/

/-- The byte of row `r` and column `c`. -/
abbrev State := Fin 4 → Fin 4 → Byte

def addRoundKey (s k : State) : State := fun r c => s r c ^^^ k r c
def subBytes (s : State) : State := fun r c => sbox (s r c)
def invSubBytes (s : State) : State := fun r c => invSbox (s r c)
def shiftRows (s : State) : State := fun r c => s r (c + r)
def invShiftRows (s : State) : State := fun r c => s r (c - r)

def mixColumns (s : State) : State := fun r c =>
  gmul 2 (s r c) ^^^ gmul 3 (s (r + 1) c) ^^^ s (r + 2) c ^^^ s (r + 3) c

def invMixColumns (s : State) : State := fun r c =>
  gmul 14 (s r c) ^^^ gmul 11 (s (r + 1) c) ^^^ gmul 13 (s (r + 2) c) ^^^ gmul 9 (s (r + 3) c)

/-! ### The inverse of the mix -/

theorem gmul_one (a : Byte) : gmul 1 a = a := by
  rw [← BitVec.xor_eq_zero_iff]
  refine additive_zero (f := fun a => gmul 1 a ^^^ a) (fun a b => ?_) (by decide +kernel) a
  simp only [gmul_xor]
  ac_rfl

/-- The sum of four products of products of an element. -/
def products (p q : Fin 4 → Byte) (a : Byte) : Byte :=
  gmul (p 0) (gmul (q 0) a) ^^^ gmul (p 1) (gmul (q 1) a) ^^^ gmul (p 2) (gmul (q 2) a) ^^^
    gmul (p 3) (gmul (q 3) a)

theorem products_eq (p q : Fin 4 → Byte) (k : Byte)
    (h : ∀ i < 8, products p q (1#8 <<< i) ^^^ gmul k (1#8 <<< i) = 0#8) (a : Byte) :
    products p q a = gmul k a := by
  rw [← BitVec.xor_eq_zero_iff]
  refine additive_zero (f := fun a => products p q a ^^^ gmul k a) (fun a b => ?_) h a
  simp only [products, gmul_xor]
  ac_rfl

/-- One byte of a column that was mixed and mixed back. -/
theorem invMix_mix_byte (a b c d : Byte) :
    gmul 14 (gmul 2 a ^^^ gmul 3 b ^^^ c ^^^ d) ^^^ gmul 11 (gmul 2 b ^^^ gmul 3 c ^^^ d ^^^ a) ^^^
        gmul 13 (gmul 2 c ^^^ gmul 3 d ^^^ a ^^^ b) ^^^ gmul 9 (gmul 2 d ^^^ gmul 3 a ^^^ b ^^^ c) = a := by
  have ha := products_eq ![14, 11, 13, 9] ![2, 1, 1, 3] 1 (by decide +kernel) a
  have hb := products_eq ![14, 11, 13, 9] ![3, 2, 1, 1] 0 (by decide +kernel) b
  have hc := products_eq ![14, 11, 13, 9] ![1, 3, 2, 1] 0 (by decide +kernel) c
  have hd := products_eq ![14, 11, 13, 9] ![1, 1, 3, 2] 0 (by decide +kernel) d
  calc _ = products ![14, 11, 13, 9] ![2, 1, 1, 3] a ^^^ products ![14, 11, 13, 9] ![3, 2, 1, 1] b ^^^
        products ![14, 11, 13, 9] ![1, 3, 2, 1] c ^^^ products ![14, 11, 13, 9] ![1, 1, 3, 2] d := by
        simp only [gmul_xor, products, Matrix.cons_val, gmul_one]
        ac_rfl
    _ = a := by
        rw [ha, hb, hc, hd, gmul_one]
        simp [gmul_zero b, gmul_zero c, gmul_zero d]

theorem invMixColumns_mixColumns (s : State) : invMixColumns (mixColumns s) = s := by
  funext r c
  have h := invMix_mix_byte (s r c) (s (r + 1) c) (s (r + 2) c) (s (r + 3) c)
  fin_cases r <;> exact h

theorem invMixColumns_addRoundKey (s k : State) :
    invMixColumns (addRoundKey s k) = addRoundKey (invMixColumns s) (invMixColumns k) := by
  funext r c
  simp only [invMixColumns, addRoundKey, gmul_xor]
  ac_rfl

/-! ## The cipher -/

theorem invShift_inverse (s : State) : invSubBytes (invShiftRows (shiftRows (subBytes s))) = s := by
  funext r c
  simp only [invSubBytes, invShiftRows, shiftRows, subBytes, sub_add_cancel, invSbox_sbox]

/-- The rounds of the cipher. -/
def rounds : Rounds State where
  add := addRoundKey
  sub := fun s => shiftRows (subBytes s)
  unsub := fun s => invSubBytes (invShiftRows s)
  mix := mixColumns
  unmix := invMixColumns
  add_add := by
    intro s k
    funext r c
    rw [addRoundKey, addRoundKey, BitVec.xor_assoc, BitVec.xor_self, BitVec.xor_zero]
  unsub_sub := invShift_inverse
  unmix_mix := invMixColumns_mixColumns
  unmix_add := invMixColumns_addRoundKey

/-- `AES-128` with the round keys `key 0` to `key 10`. -/
def cipher (key : ℕ → State) (s : State) : State :=
  rounds.encrypt (key 0) ((List.range 9).map fun r => key (r + 1)) (key 10) s

def eqInvCipher (key : ℕ → State) (s : State) : State :=
  rounds.decrypt (key 0) ((List.range 9).map fun r => key (r + 1)) (key 10) s

/-! ## The key schedule -/

def rcon (i : ℕ) : Byte := xtime^[i] 1#8

/-- The round key after `k`. Column `c` is the exclusive or of the columns up to `c` and of the last
one, rotated and substituted. -/
def nextKey (i : ℕ) (k : State) : State := fun r c =>
  let temp := sbox (k (r + 1) 3) ^^^ if r = 0 then rcon i else 0
  match c with
  | 0 => k r 0 ^^^ temp
  | 1 => k r 1 ^^^ (k r 0 ^^^ temp)
  | 2 => k r 2 ^^^ (k r 1 ^^^ (k r 0 ^^^ temp))
  | 3 => k r 3 ^^^ (k r 2 ^^^ (k r 1 ^^^ (k r 0 ^^^ temp)))

def keyExpansion (key : State) : ℕ → State
  | 0 => key
  | i + 1 => nextKey i (keyExpansion key i)

/-- The keys of the equivalent inverse cipher. -/
def decryptKeys (key : ℕ → State) (r : ℕ) : State :=
  if r = 0 ∨ r = 10 then key (10 - r) else invMixColumns (key (10 - r))

theorem eqInvCipher_cipher (key : ℕ → State) (s : State) :
    eqInvCipher (decryptKeys key) (cipher key s) = s := by
  have h := rounds.decrypt_encrypt (key 0) ((List.range 9).map fun r => key (r + 1)) (key 10) s
  exact h

end Neufbox.Rijndael
