import Neufbox.Ead.Codec
import Neufbox.Ead.ReplayWindow

/-! # Single messages

An encrypted message comes out of `ead_decrypt_message` as it went into `ead_encrypt_message`. A message that is
rejected should leave no trace; the IV is stored before the hash is looked at. -/
namespace Neufbox.Ead
open Blocks
set_option autoImplicit false
set_option maxHeartbeats 250000
set_option maxRecDepth 120000

/-! ## Accepted messages -/

/-- A payload is encrypted and decrypted to itself, in any buffer that the body lies in; the body has a positive
multiple of 64 bytes. -/
theorem ead_message_roundtrip (k : Cipher) (sender receiver : Crypt) (payload : List UInt8) (behind : ℕ → UInt8)
    (data : List UInt8) (hkey : receiver.key = sender.key) (hbuffer : data.length < 2 ^ 31)
    (hdata : (eadEncryptMessage k sender payload behind).2 <+: data)
    (hwindow : (eadCheckRxIv receiver (eadGetTxIv sender).2).2 = true) :
    let body := (eadEncryptMessage k sender payload behind).2
    (0 < body.length ∧ body.length % 64 = 0) ∧
    ∃ d, (eadDecryptMessage k receiver body.length data).2 = some d ∧ d.ret = payload.length ∧
      (d.plain.drop encryptedSize).take payload.length = payload := by
  intro body
  have hbody : body = encryptBlocks k receiver.key (plainMessage k (eadGetTxIv sender).2 payload behind) := by
    rw [hkey]
    exact eadEncryptMessage_body k payload behind sender
  have hlength : body.length = (plainMessage k (eadGetTxIv sender).2 payload behind).length := by
    rw [hbody, encryptBlocks_length]
  have htotal := plainMessage_length k (eadGetTxIv sender).2 payload behind
  have hsize : encryptedSize = 25 := rfl
  refine ⟨⟨by omega, by rw [hlength]; exact plainMessage_blocks k _ payload behind⟩, ?_⟩
  have hiv : (eadGetTxIv sender).2 < 2 ^ 32 := Nat.mod_lt _ (by decide)
  obtain ⟨-, hlow, hhigh⟩ | ⟨hno, -⟩ := eadCheckRxIv_cases receiver (eadGetTxIv sender).2
  · have htake : data.take body.length = body := List.prefix_iff_eq_take.mp hdata |>.symm
    have hlt : body.length < 2 ^ 31 := lt_of_le_of_lt hdata.length_le hbuffer
    have haccept := eadDecryptMessage_encrypt k (eadGetTxIv sender).2 payload behind hlt (congrArg List.length hbody)
      (htake.trans hbody) hiv hlow hhigh
    refine ⟨_, by rw [haccept], rfl, ?_⟩
    have hpayload := payload_plain k (eadGetTxIv sender).2 payload behind (data.drop body.length) 0
    rwa [Nat.add_zero, Nat.sub_zero, List.drop_zero] at hpayload
  · rw [hno] at hwindow
    cases hwindow

/-- A payload that fills its block, under a key whose increments are all 4. -/
theorem ead_message_roundtrip_full_block :
    let sender := eadSetKey false .init fastKey
    let body := (eadEncryptMessage daemonCipher sender (List.replicate 39 7) fun _ => 0).2
    (0 < body.length ∧ body.length % 64 = 0) ∧
    ∃ d, (eadDecryptMessage daemonCipher sender body.length body).2 = some d ∧
      d.ret = (List.replicate 39 (7 : UInt8)).length ∧
      (d.plain.drop encryptedSize).take (List.replicate 39 (7 : UInt8)).length = List.replicate 39 7 := by
  have hbuffer : (eadEncryptMessage daemonCipher (eadSetKey false .init fastKey) (List.replicate 39 7)
      fun _ => 0).2.length < 2 ^ 31 := by
    rw [eadEncryptMessage_body, encryptBlocks_length, plainMessage_length]
    decide
  exact ead_message_roundtrip daemonCipher (eadSetKey false .init fastKey) (eadSetKey false .init fastKey)
    (List.replicate 39 7) (fun _ => 0) _ rfl hbuffer (List.prefix_refl _) (by decide)

/-! ## Rejected messages -/

/-- A message that fails only at the last check: its length, its padding and its IV are good, and its hash is not. -/
structure WrongHash (k : Cipher) (c : Crypt) (len : ℕ) (enc : List UInt8) : Prop where
  length : toInt len ≠ 0 ∧ ¬ (toInt len).tmod eadEncPad > 0
  pad : padField (decryptBlocks k c.key len enc) < eadEncPad
  iv : (eadCheckRxIv c (ivField (decryptBlocks k c.key len enc))).2 = true
  hash : hashField (decryptBlocks k c.key len enc) ≠ eadHashMessage k (decryptBlocks k c.key len enc) (toInt len).toNat

/-- A rejected message leaves the receive IV, and with it the answer to every later message, as they were. -/
def LeavesSession (k : Cipher) (c : Crypt) (len : ℕ) (enc : List UInt8) : Prop :=
  (eadDecryptMessage k c len enc).2 = none →
    (eadDecryptMessage k c len enc).1.rxIv = c.rxIv ∧
    ∀ len' enc', eadDecryptMessage k (eadDecryptMessage k c len enc).1 len' enc' = eadDecryptMessage k c len' enc'

section Rejected
variable {k : Cipher} {c : Crypt} {len : ℕ} {enc : List UInt8}

theorem eadDecryptMessage_wrongHash (h : WrongHash k c len enc) :
    eadDecryptMessage k c len enc = ({ c with rxIv := ivField (decryptBlocks k c.key len enc) }, none) := by
  obtain ⟨hr, -⟩ | ⟨hr, -⟩ := eadCheckRxIv_cases c (ivField (decryptBlocks k c.key len enc))
  · unfold eadDecryptMessage
    dsimp only
    rw [if_neg (by have := h.length; tauto), if_neg (by have := h.pad; omega), hr]
    simp only [Bool.true_eq_false, if_false]
    rw [if_neg h.hash]
  · have hiv := h.iv
    rw [hr] at hiv
    cases hiv

theorem eadDecryptMessage_rejected (h : (eadDecryptMessage k c len enc).2 = none) (hhash : ¬ WrongHash k c len enc) :
    (eadDecryptMessage k c len enc).1 = c := by
  unfold eadDecryptMessage at h ⊢
  dsimp only at h ⊢
  split at h
  next hlen => rw [if_pos hlen]
  next hlen =>
    rw [if_neg hlen]
    split at h
    next hpad => rw [if_pos hpad]
    next hpad =>
      rw [if_neg hpad]
      obtain ⟨hr, -⟩ | ⟨hr, -⟩ := eadCheckRxIv_cases c (ivField (decryptBlocks k c.key len enc))
      · rw [hr] at h
        simp only [Bool.true_eq_false, if_false] at h
        split at h
        · cases h
        next hwrong =>
          exact absurd ⟨by tauto, by omega, by rw [hr], hwrong⟩ hhash
      · rw [hr]
        rfl

/-- The IV of a message with a wrong hash is above the one that was there. -/
theorem wrongHash_rxIv (h : WrongHash k c len enc) : (eadDecryptMessage k c len enc).1.rxIv ≠ c.rxIv := by
  rw [eadDecryptMessage_wrongHash h]
  obtain ⟨-, hlow, -⟩ | ⟨hr, -⟩ := eadCheckRxIv_cases c (ivField (decryptBlocks k c.key len enc))
  · exact Nat.ne_of_gt hlow
  · have hiv := h.iv
    rw [hr] at hiv
    cases hiv

end Rejected

/-- A rejected message leaves the session intact if and only if it was not the hash alone that was wrong. -/
theorem ead_rejected_leaves_session_iff (k : Cipher) (c : Crypt) (len : ℕ) (enc : List UInt8) :
    LeavesSession k c len enc ↔ ¬ WrongHash k c len enc := by
  constructor
  · intro h hwrong
    have hnone : (eadDecryptMessage k c len enc).2 = none := by
      rw [eadDecryptMessage_wrongHash hwrong]
    exact wrongHash_rxIv hwrong (h hnone).1
  · intro hhash hnone
    rw [eadDecryptMessage_rejected hnone hhash]
    exact ⟨rfl, fun _ _ => rfl⟩

/-- A body of 64 bytes with IV 1 and a hash of ones. -/
def forgedBody : List UInt8 := List.replicate 20 1 ++ [0, 0, 0, 1] ++ List.replicate 40 0

theorem ead_forged_body_moves_window : ¬ LeavesSession noCipher .init 64 forgedBody := by
  intro h
  have hrx := (h (by decide)).1
  exact absurd hrx (by decide)

end Neufbox.Ead
