import Neufbox.Library.Blocks
import Neufbox.Library.RunAlong

/-! # Encrypted messages of the emergency access daemon

`package/ead/src/ead-crypt.c`. An encrypted message is a 20-byte hash, a 32-bit IV, a padding length
and the payload, padded to a multiple of 64 bytes and encrypted block by block. The block cipher of
`aes.c` and the hash of `sha1.c` are a parameter, `Cipher`, with what the callers rely on as fields.
Server and client run the same code, each with its own static variables: `Crypt`. -/
namespace Neufbox.Ead
open Blocks RunAlong
set_option autoImplicit false
set_option maxHeartbeats 250000
set_option maxRecDepth 120000

/-! ## Cipher and state -/

/-- `rijndaelEncrypt` and `rijndaelDecrypt` of a 16-byte block under a 32-byte key, and the bytes of
the hash `sha_transform` leaves after a sequence of 64-byte blocks. -/
structure Cipher where
  rijndaelEncrypt : List UInt8 → List UInt8 → List UInt8
  rijndaelDecrypt : List UInt8 → List UInt8 → List UInt8
  sha : List UInt8 → List UInt8
  encrypt_length : ∀ key block, block.length = 16 → (rijndaelEncrypt key block).length = 16
  decrypt_encrypt : ∀ key block, block.length = 16 →
    rijndaelDecrypt key (rijndaelEncrypt key block) = block
  sha_length : ∀ blocks, (sha blocks).length = 20

/-- The static variables of `ead-crypt.c`; the two AES contexts are the key they are set up from. -/
structure Crypt where
  key : List UInt8
  rxIv : ℕ
  txIv : ℕ
  ivofsVec : ℕ
  ivofsIdx : ℕ
  deriving DecidableEq

def Crypt.init : Crypt := ⟨[], 0, 0, 0, 0⟩

def eadEncPad : ℕ := 64
def eadMaxIvIncr : ℕ := 128

def encryptedSize : ℕ := 25

/-- A 32-bit word in memory, read in the byte order of the host. -/
def hostWord (bigEndian : Bool) (bs : List UInt8) : ℕ :=
  if bigEndian then beWord bs else beWord bs.reverse

/-- `ead_set_key`; the index into the increments is kept. -/
def eadSetKey (bigEndian : Bool) (c : Crypt) (skey : List UInt8) : Crypt :=
  let iv := beWord ((skey.drop 32).take 4) % 2 ^ 24
  { c with
    key := skey.take 32
    rxIv := iv
    txIv := iv
    ivofsVec := hostWord bigEndian ((skey.drop 36).take 4) }

/-! ## The IV window -/

def eadCheckRxIv (c : Crypt) (iv : ℕ) : Crypt × Bool :=
  if iv ≤ c.rxIv then (c, false)
  else if iv > (c.rxIv + eadMaxIvIncr) % 2 ^ 32 then (c, false)
  else ({ c with rxIv := iv }, true)

def eadGetTxIv (c : Crypt) : Crypt × ℕ :=
  let ofs := 1 + c.ivofsVec / 2 ^ (2 * c.ivofsIdx) % 4
  let iv := (c.txIv + ofs) % 2 ^ 32
  ({ c with txIv := iv, ivofsIdx := (c.ivofsIdx + 1) % 16 }, iv)

/-! ## Messages -/

def hashField (enc : List UInt8) : List UInt8 := enc.take 20
def ivField (enc : List UInt8) : ℕ := beWord ((enc.drop 20).take 4)
def padField (enc : List UInt8) : ℕ := (enc.getD 24 0).toNat

def clearHash (enc : List UInt8) : List UInt8 := List.replicate 20 0 ++ enc.drop 20

/-- `ead_hash_message`, which leaves the message with its hash cleared. -/
def eadHashMessage (k : Cipher) (enc : List UInt8) (len : ℕ) : List UInt8 :=
  k.sha ((clearHash enc).take len)

def padding (len : ℕ) : ℕ := (eadEncPad - len % eadEncPad) % eadEncPad

/-- The message before it is encrypted; `behind` is what the buffer holds behind the payload. -/
def plainMessage (k : Cipher) (iv : ℕ) (payload : List UInt8) (behind : ℕ → UInt8) : List UInt8 :=
  let pad := padding (payload.length + encryptedSize)
  let enc := List.replicate 20 0 ++ beBytes iv ++ UInt8.ofNat pad ::
    (payload ++ (List.range pad).map behind)
  eadHashMessage k enc enc.length ++ enc.drop 20

def eadEncryptMessage (k : Cipher) (c : Crypt) (payload : List UInt8) (behind : ℕ → UInt8) :
    Crypt × List UInt8 :=
  let (c, iv) := eadGetTxIv c
  let plain := plainMessage k iv payload behind
  (c, mapBlocks 16 (k.rijndaelEncrypt c.key) (plain.length / 16) plain)

def toInt (n : ℕ) : ℤ := if n < 2 ^ 31 then n else n - 2 ^ 32

theorem toInt_le (n : ℕ) : toInt n ≤ n := by
  unfold toInt
  split <;> omega

/-- The buffer after the decryption loop over `len` bytes. -/
def decryptBlocks (k : Cipher) (key : List UInt8) (len : ℕ) (enc : List UInt8) : List UInt8 :=
  mapBlocks 16 (k.rijndaelDecrypt key) ((toInt len).toNat / 16) enc

structure Decrypted where
  plain : List UInt8
  ret : ℤ
  deriving DecidableEq

/-- `ead_decrypt_message` of a body of `msg->len` bytes, at the start of the buffer `enc`; `none` where
it returns 0 for a message it rejects. A length of `2 ^ 31` or more is negative: nothing is decrypted
or hashed then. -/
def eadDecryptMessage (k : Cipher) (c : Crypt) (len : ℕ) (enc : List UInt8) :
    Crypt × Option Decrypted :=
  let enclen := toInt len
  if enclen = 0 ∨ enclen.tmod eadEncPad > 0 then (c, none)
  else
    let plain := decryptBlocks k c.key len enc
    if padField plain ≥ eadEncPad then (c, none)
    else
      let r := eadCheckRxIv c (ivField plain)
      if r.2 = false then (r.1, none)
      else if hashField plain = eadHashMessage k plain enclen.toNat then
        (r.1, some ⟨clearHash plain, enclen - padField plain - encryptedSize⟩)
      else (r.1, none)

/-! ## What the operations keep -/

theorem eadCheckRxIv_cases (c : Crypt) (iv : ℕ) :
    (eadCheckRxIv c iv = ({ c with rxIv := iv }, true) ∧ c.rxIv < iv ∧
      iv ≤ (c.rxIv + eadMaxIvIncr) % 2 ^ 32) ∨
    (eadCheckRxIv c iv = (c, false) ∧
      ¬ (c.rxIv < iv ∧ iv ≤ (c.rxIv + eadMaxIvIncr) % 2 ^ 32)) := by
  unfold eadCheckRxIv
  split
  · exact Or.inr ⟨rfl, by omega⟩
  · split
    · exact Or.inr ⟨rfl, by omega⟩
    · exact Or.inl ⟨rfl, by omega, by omega⟩

theorem eadDecryptMessage_cases (k : Cipher) (c : Crypt) (len : ℕ) (enc : List UInt8) :
    ((eadDecryptMessage k c len enc).2 = none ∧
      ((eadDecryptMessage k c len enc).1 = c ∨
        (c.rxIv < ivField (decryptBlocks k c.key len enc) ∧
          (eadDecryptMessage k c len enc).1 =
            { c with rxIv := ivField (decryptBlocks k c.key len enc) }))) ∨
    (eadDecryptMessage k c len enc =
        ({ c with rxIv := ivField (decryptBlocks k c.key len enc) },
          some ⟨clearHash (decryptBlocks k c.key len enc),
            toInt len - padField (decryptBlocks k c.key len enc) - encryptedSize⟩) ∧
      toInt len ≠ 0 ∧ ¬ (toInt len).tmod eadEncPad > 0 ∧
      padField (decryptBlocks k c.key len enc) < eadEncPad ∧
      c.rxIv < ivField (decryptBlocks k c.key len enc) ∧
      ivField (decryptBlocks k c.key len enc) ≤ (c.rxIv + eadMaxIvIncr) % 2 ^ 32 ∧
      hashField (decryptBlocks k c.key len enc) =
        eadHashMessage k (decryptBlocks k c.key len enc) (toInt len).toNat) := by
  unfold eadDecryptMessage
  dsimp only
  split
  · exact Or.inl ⟨rfl, Or.inl rfl⟩
  · next hlen =>
    rw [not_or] at hlen
    split
    · exact Or.inl ⟨rfl, Or.inl rfl⟩
    · next hpad =>
      obtain ⟨hr, hlt, hle⟩ | ⟨hr, -⟩ :=
        eadCheckRxIv_cases c (ivField (decryptBlocks k c.key len enc))
      · rw [hr]
        simp only [Bool.true_eq_false, if_false]
        split
        · next hhash => exact Or.inr ⟨rfl, hlen.1, hlen.2, by omega, hlt, hle, hhash⟩
        · exact Or.inl ⟨rfl, Or.inr ⟨hlt, rfl⟩⟩
      · rw [hr]
        exact Or.inl ⟨rfl, Or.inl rfl⟩

end Neufbox.Ead
