import Neufbox.Library.Absorb
import Neufbox.Library.ByteWords

/-! # The secure hash

The hash of FIPS 180-1: the schedule of a block, the steps, the compression of a block and the padding
of a message. -/
namespace Neufbox.Sha1
open ByteWords Absorb
set_option autoImplicit false
set_option maxHeartbeats 250000
set_option maxRecDepth 120000

/-! ## Compression -/

structure Chain where
  a : Word
  b : Word
  c : Word
  d : Word
  e : Word
  deriving DecidableEq

def init : Chain := ⟨0x67452301#32, 0xefcdab89#32, 0x98badcfe#32, 0x10325476#32, 0xc3d2e1f0#32⟩

def ch (x y z : Word) : Word := (x &&& y) ^^^ (~~~x &&& z)
def parity (x y z : Word) : Word := x ^^^ y ^^^ z
def maj (x y z : Word) : Word := (x &&& y) ^^^ (x &&& z) ^^^ (y &&& z)

/-- The function of step `t`. -/
def func (t : ℕ) : Word → Word → Word → Word :=
  if t < 20 then ch else if t < 40 then parity else if t < 60 then maj else parity

/-- The constant of step `t`. -/
def const (t : ℕ) : Word :=
  if t < 20 then 0x5a827999#32 else if t < 40 then 0x6ed9eba1#32 else if t < 60 then 0x8f1bbcdc#32
  else 0xca62c1d6#32

/-- Word `t` of a block. -/
def blockWord (block : List UInt8) (t : ℕ) : Word :=
  word (block.getD (4 * t) 0).toBitVec (block.getD (4 * t + 1) 0).toBitVec (block.getD (4 * t + 2) 0).toBitVec
    (block.getD (4 * t + 3) 0).toBitVec

def schedule (block : List UInt8) (t : ℕ) : Word :=
  if t < 16 then blockWord block t
  else (schedule block (t - 3) ^^^ schedule block (t - 8) ^^^ schedule block (t - 14) ^^^
    schedule block (t - 16)).rotateLeft 1

theorem schedule_block {block : List UInt8} {t : ℕ} (ht : t < 16) : schedule block t = blockWord block t := by
  rw [schedule, if_pos ht]

theorem schedule_next (block : List UInt8) (t : ℕ) :
    schedule block (t + 16) = (schedule block (t + 13) ^^^ schedule block (t + 8) ^^^ schedule block (t + 2) ^^^
      schedule block t).rotateLeft 1 := by
  rw [schedule, if_neg (by omega)]
  rfl

def step (w : ℕ → Word) (r : Chain) (t : ℕ) : Chain where
  a := r.a.rotateLeft 5 + func t r.b r.c r.d + r.e + const t + w t
  b := r.a
  c := r.b.rotateLeft 30
  d := r.c
  e := r.d

def Chain.add (g h : Chain) : Chain := ⟨g.a + h.a, g.b + h.b, g.c + h.c, g.d + h.d, g.e + h.e⟩

def compress (h : Chain) (block : List UInt8) : Chain :=
  h.add ((List.range 80).foldl (step (schedule block)) h)

/-! ## The functions of a step -/

theorem func_first {t : ℕ} (h : t < 20) : func t = ch := if_pos h

theorem func_second {t : ℕ} (h : 20 ≤ t) (h' : t < 40) : func t = parity := by
  rw [func, if_neg (by omega), if_pos h']

theorem func_third {t : ℕ} (h : 40 ≤ t) (h' : t < 60) : func t = maj := by
  rw [func, if_neg (by omega), if_neg (by omega), if_pos h']

theorem func_fourth {t : ℕ} (h : 60 ≤ t) : func t = parity := by
  rw [func, if_neg (by omega), if_neg (by omega), if_neg (by omega)]

theorem const_first {t : ℕ} (h : t < 20) : const t = 0x5a827999#32 := if_pos h

theorem const_second {t : ℕ} (h : 20 ≤ t) (h' : t < 40) : const t = 0x6ed9eba1#32 := by
  rw [const, if_neg (by omega), if_pos h']

theorem const_third {t : ℕ} (h : 40 ≤ t) (h' : t < 60) : const t = 0x8f1bbcdc#32 := by
  rw [const, if_neg (by omega), if_neg (by omega), if_pos h']

theorem const_fourth {t : ℕ} (h : 60 ≤ t) : const t = 0xca62c1d6#32 := by
  rw [const, if_neg (by omega), if_neg (by omega), if_neg (by omega)]

theorem select_eq_ch (x y z : Word) : z ^^^ (x &&& (y ^^^ z)) = ch x y z := by
  apply BitVec.eq_of_getLsbD_eq
  intro i hi
  simp only [ch, BitVec.getLsbD_xor, BitVec.getLsbD_and, BitVec.getLsbD_not, hi, decide_true, Bool.true_and]
  cases x.getLsbD i <;> cases y.getLsbD i <;> cases z.getLsbD i <;> rfl

theorem or_eq_maj (x y z : Word) : ((x ||| y) &&& z) ||| (x &&& y) = maj x y z := by
  apply BitVec.eq_of_getLsbD_eq
  intro i hi
  simp only [maj, BitVec.getLsbD_xor, BitVec.getLsbD_and, BitVec.getLsbD_or]
  cases x.getLsbD i <;> cases y.getLsbD i <;> cases z.getLsbD i <;> rfl

/-- The two parts of the majority have no bit in common, so their sum is it. -/
theorem add_eq_maj (x y z : Word) : (x &&& y) + (z &&& (x ^^^ y)) = maj x y z := by
  have hdisjoint : (x &&& y) &&& (z &&& (x ^^^ y)) = 0#32 := by
    apply BitVec.eq_of_getLsbD_eq
    intro i hi
    simp only [BitVec.getLsbD_xor, BitVec.getLsbD_and, BitVec.getLsbD_zero]
    cases x.getLsbD i <;> cases y.getLsbD i <;> cases z.getLsbD i <;> rfl
  rw [BitVec.add_eq_or_of_and_eq_zero _ _ hdisjoint]
  apply BitVec.eq_of_getLsbD_eq
  intro i hi
  simp only [maj, BitVec.getLsbD_xor, BitVec.getLsbD_and, BitVec.getLsbD_or]
  cases x.getLsbD i <;> cases y.getLsbD i <;> cases z.getLsbD i <;> rfl

/-! ## The hash of a message -/

def wordBytes (w : Word) : List UInt8 := [⟨byte w 0⟩, ⟨byte w 1⟩, ⟨byte w 2⟩, ⟨byte w 3⟩]

def digest (h : Chain) : List UInt8 :=
  wordBytes h.a ++ wordBytes h.b ++ wordBytes h.c ++ wordBytes h.d ++ wordBytes h.e

/-- The length in bits, modulo `2 ^ 64`, as the padding holds it. -/
def lengthBytes (n : ℕ) : List UInt8 :=
  wordBytes (BitVec.ofNat 32 (8 * n / 2 ^ 32)) ++ wordBytes (BitVec.ofNat 32 (8 * n))

/-- The zeros that leave room for the length alone in the last block. -/
def zeros (n : ℕ) : ℕ := (119 - n % 64) % 64

def pad (m : List UInt8) : List UInt8 :=
  m ++ 0x80 :: (List.replicate (zeros m.length) 0 ++ lengthBytes m.length)

def sha1 (m : List UInt8) : List UInt8 :=
  digest ((blocks 64 ((pad m).length / 64) (pad m)).foldl compress init)

@[simp] theorem lengthBytes_length (n : ℕ) : (lengthBytes n).length = 8 := rfl
@[simp] theorem digest_length (h : Chain) : (digest h).length = 20 := rfl
@[simp] theorem sha1_length (m : List UInt8) : (sha1 m).length = 20 := rfl

theorem pad_length (m : List UInt8) : (pad m).length % 64 = 0 := by
  simp only [pad, List.length_append, List.length_cons, List.length_replicate, lengthBytes_length, zeros]
  omega

/-- The hash from what absorbing the padded message leaves. -/
theorem sha1_absorb (m : List UInt8) : sha1 m = digest (absorb compress 64 (init, []) (pad m)).1 := by
  have h := pad_length m
  rw [sha1, absorb_blocks compress (by norm_num) ((pad m).length / 64) init (pad m) (by omega)]

end Neufbox.Sha1
