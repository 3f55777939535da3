import Neufbox.Ead.AesCipher
import Neufbox.Ead.Crypt
import Neufbox.Library.Sha1

/-! # The message hash of the emergency access daemon

`package/ead/src/sha1.c`: one block with a workspace of 80 words. It is the compression of the secure
hash, whatever the workspace held before. With the block cipher of `aes.c` it makes the messages of
`ead-crypt.c` concrete: `eadCipher`. -/
namespace Neufbox.Ead.Sha
open ByteWords Sha1
set_option autoImplicit false
set_option maxHeartbeats 250000
set_option maxRecDepth 120000

/-! ## `sha1.c` -/

def rol32 (word : Word) (shift : ℕ) : Word := (word <<< shift) ||| (word >>> (32 - shift))

def f1 (x y z : Word) : Word := z ^^^ (x &&& (y ^^^ z))
def f2 (x y z : Word) : Word := x ^^^ y ^^^ z
def f3 (x y z : Word) : Word := (x &&& y) + (z &&& (x ^^^ y))

def k1 : Word := 0x5a827999#32
def k2 : Word := 0x6ed9eba1#32
def k3 : Word := 0x8f1bbcdc#32
def k4 : Word := 0xca62c1d6#32

def shaInit : Chain := ⟨0x67452301#32, 0xefcdab89#32, 0x98badcfe#32, 0x10325476#32, 0xc3d2e1f0#32⟩

def inWord (data : List UInt8) (ofs : ℕ) : Word :=
  (data.getD ofs 0).toBitVec.setWidth 32 <<< 24 ||| (data.getD (ofs + 1) 0).toBitVec.setWidth 32 <<< 16 |||
    (data.getD (ofs + 2) 0).toBitVec.setWidth 32 <<< 8 ||| (data.getD (ofs + 3) 0).toBitVec.setWidth 32

/-- The loop that loads the block into the workspace. -/
def load (data : List UInt8) (n : ℕ) (w : ℕ → Word) : ℕ → Word :=
  (List.range n).foldl (fun w i => Function.update w i (inWord data (4 * i))) w

/-- The loop that expands it to 80 words. -/
def expand (n : ℕ) (w : ℕ → Word) : ℕ → Word :=
  (List.range n).foldl (fun w i =>
    Function.update w (i + 16) (rol32 (w (i + 13) ^^^ w (i + 8) ^^^ w (i + 2) ^^^ w i) 1)) w

/-- One pass of the four loops over the registers. -/
def pass (f : Word → Word → Word → Word) (k : Word) (w : ℕ → Word) (r : Chain) (i : ℕ) : Chain :=
  let t := f r.b r.c r.d + k + rol32 r.a 5 + r.e + w i
  ⟨t, r.a, rol32 r.b 30, r.c, r.d⟩

def shaTransform (digest : Chain) (data : List UInt8) (w : ℕ → Word) : Chain :=
  let w := expand 64 (load data 16 w)
  let r := (List.range' 0 20).foldl (pass f1 k1 w) digest
  let r := (List.range' 20 20).foldl (pass f2 k2 w) r
  let r := (List.range' 40 20).foldl (pass f3 k3 w) r
  let r := (List.range' 60 20).foldl (pass f2 k4 w) r
  ⟨digest.a + r.a, digest.b + r.b, digest.c + r.c, digest.d + r.d, digest.e + r.e⟩

/-! ## The workspace -/

theorem inWord_eq (data : List UInt8) (t : ℕ) : inWord data (4 * t) = blockWord data t := by
  rw [inWord, ← word_zero, ← word_zero, ← word_zero, ← word_zero, shiftLeft_word_three, shiftLeft_word_two,
    shiftLeft_word, or_word, or_word, or_word, blockWord]
  simp

theorem load_eq (data : List UInt8) (n : ℕ) (w : ℕ → Word) (i : ℕ) (hi : i < n) :
    load data n w i = blockWord data i := by
  induction n with
  | zero => omega
  | succ n ih =>
    rw [load, List.range_succ, List.foldl_append, List.foldl_cons, List.foldl_nil, ← load]
    by_cases h : i = n
    · rw [h, Function.update_self, inWord_eq]
    · rw [Function.update_of_ne h, ih (by omega)]

theorem expand_eq {data : List UInt8} {w : ℕ → Word} (hw : ∀ i < 16, w i = schedule data i) (n i : ℕ)
    (hi : i < n + 16) : expand n w i = schedule data i := by
  induction n generalizing i with
  | zero => exact hw i (by omega)
  | succ n ih =>
    rw [expand, List.range_succ, List.foldl_append, List.foldl_cons, List.foldl_nil, ← expand]
    by_cases h : i = n + 16
    · rw [h, Function.update_self, ih _ (by omega), ih _ (by omega), ih _ (by omega), ih _ (by omega),
        schedule_next]
      rfl
    · rw [Function.update_of_ne h, ih i (by omega)]

theorem workspace_eq (data : List UInt8) (w : ℕ → Word) (i : ℕ) (hi : i < 80) :
    expand 64 (load data 16 w) i = schedule data i := by
  refine expand_eq (fun j hj => ?_) 64 i hi
  rw [load_eq data 16 w j hj, schedule_block hj]

/-! ## The passes -/

/-- Where the function and the constant of the loop are those of the step, a pass is the step. -/
theorem pass_eq {f : Word → Word → Word → Word} {k : Word} {t : ℕ} (hf : ∀ x y z, f x y z = func t x y z)
    (hk : k = const t) {w v : ℕ → Word} (hw : w t = v t) (r : Chain) : pass f k w r t = step v r t := by
  rw [pass, step, hf, hk, hw]
  have hsum : func t r.b r.c r.d + const t + rol32 r.a 5 + r.e + v t =
      r.a.rotateLeft 5 + func t r.b r.c r.d + r.e + const t + v t := by
    rw [show rol32 r.a 5 = r.a.rotateLeft 5 from rfl]
    ac_rfl
  rw [hsum]
  rfl

theorem passes_eq {f : Word → Word → Word → Word} {k : Word} {w v : ℕ → Word} (s n : ℕ)
    (hf : ∀ t, s ≤ t → t < s + n → ∀ x y z, f x y z = func t x y z)
    (hk : ∀ t, s ≤ t → t < s + n → k = const t) (hw : ∀ t < s + n, w t = v t) (r : Chain) :
    (List.range' s n).foldl (pass f k w) r = (List.range' s n).foldl (step v) r := by
  refine List.foldl_ext _ _ _ fun r t ht => ?_
  obtain ⟨hs, hn⟩ := List.mem_range'_1.mp ht
  exact pass_eq (hf t hs hn) (hk t hs hn) (hw t hn) r

/-- The eighty steps in four runs of twenty. -/
theorem steps_split (w : ℕ → Word) (r : Chain) :
    (List.range 80).foldl (step w) r = (List.range' 60 20).foldl (step w) ((List.range' 40 20).foldl (step w)
      ((List.range' 20 20).foldl (step w) ((List.range' 0 20).foldl (step w) r))) := by
  rw [← List.foldl_append, ← List.foldl_append, ← List.foldl_append, List.range_eq_range']
  rfl

/-- One block is chained as the secure hash does. -/
theorem shaTransform_eq (digest : Chain) (data : List UInt8) (w : ℕ → Word) :
    shaTransform digest data w = compress digest data := by
  have hw : ∀ t < 80, expand 64 (load data 16 w) t = schedule data t := workspace_eq data w
  rw [shaTransform, passes_eq (k := k1) 0 20 (fun t _ ht x y z => by rw [func_first (by omega)]; exact select_eq_ch x y z)
      (fun t _ ht => (const_first (by omega)).symm) fun t ht => hw t (by omega),
    passes_eq (k := k2) 20 20 (fun t hs ht x y z => by rw [func_second hs ht]; rfl)
      (fun t hs ht => (const_second hs ht).symm) fun t ht => hw t (by omega),
    passes_eq (k := k3) 40 20 (fun t hs ht x y z => by rw [func_third hs ht]; exact add_eq_maj x y z)
      (fun t hs ht => (const_third hs ht).symm) fun t ht => hw t (by omega),
    passes_eq (k := k4) 60 20 (fun t hs ht x y z => by rw [func_fourth hs]; rfl)
      (fun t hs ht => (const_fourth hs).symm) fun t ht => hw t (by omega),
    compress, steps_split]
  rfl

/-! ## Messages -/

/-- The words of a hash in a message: each is stored by `htonl`, on hosts of both byte orders. -/
def hashBytes (h : Chain) : List UInt8 := [h.a, h.b, h.c, h.d, h.e].flatMap wordBytes

/-- The loop of `ead_hash_message` over the blocks of a message, with the workspace it starts from. -/
def hashBlocks (w : ℕ → Word) (data : List UInt8) : Chain :=
  (Absorb.blocks 64 ((data.length + 63) / 64) data).foldl (fun h block => shaTransform h block w) shaInit

theorem hashBytes_length (h : Chain) : (hashBytes h).length = 20 := rfl

/-- The block cipher and the hash that `ead-crypt.c` is built with. -/
def eadCipher (w : ℕ → Word) : Cipher where
  rijndaelEncrypt key block := Aes.rijndaelEncrypt (Aes.rijndaelKeySetupEnc key) block
  rijndaelDecrypt key block := Aes.rijndaelDecrypt (Aes.rijndaelKeySetupDec key) block
  sha data := hashBytes (hashBlocks w data)
  encrypt_length _ _ _ := Aes.rijndaelEncrypt_length _ _
  decrypt_encrypt key block hblock := Aes.rijndaelDecrypt_encrypt key block hblock
  sha_length _ := hashBytes_length _

/-- A message of whole blocks is hashed as the secure hash chains its blocks. -/
theorem eadCipher_sha (w : ℕ → Word) (data : List UInt8) (n : ℕ) (hdata : data.length = 64 * n) :
    (eadCipher w).sha data = hashBytes ((Absorb.blocks 64 n data).foldl compress Sha1.init) := by
  have hn : (data.length + 63) / 64 = n := by omega
  have hfold : (fun h block => shaTransform h block w) = compress := by
    funext h block
    exact shaTransform_eq h block w
  change hashBytes (hashBlocks w data) = _
  rw [hashBlocks, hn, hfold]
  rfl

end Neufbox.Ead.Sha
