import Neufbox.Ead.Crypt

/-! # The fields of an encrypted message

What `ead_encrypt_message` puts into a message, and that the decryption loop gives it back. -/
namespace Neufbox.Ead
open Blocks
set_option autoImplicit false
set_option maxHeartbeats 250000
set_option maxRecDepth 120000

section Codec
variable (k : Cipher) (iv : ℕ) (payload : List UInt8) (behind : ℕ → UInt8)

def hashedMessage : List UInt8 :=
  List.replicate 20 0 ++ beBytes iv ++ UInt8.ofNat (padding (payload.length + encryptedSize)) ::
    (payload ++ (List.range (padding (payload.length + encryptedSize))).map behind)

theorem padding_lt (len : ℕ) : padding len < 64 := Nat.mod_lt _ (by decide)

theorem padding_total (len : ℕ) : (len + padding len) % 64 = 0 := by
  simp only [padding, eadEncPad]
  omega

theorem hashedMessage_length :
    (hashedMessage iv payload behind).length =
      payload.length + encryptedSize + padding (payload.length + encryptedSize) := by
  simp only [hashedMessage, List.length_append, List.length_replicate, beBytes_length, List.length_cons,
    List.length_map, List.length_range, encryptedSize]
  omega

theorem plainMessage_eq :
    plainMessage k iv payload behind =
      k.sha (hashedMessage iv payload behind) ++ (hashedMessage iv payload behind).drop 20 := by
  have hclear : clearHash (hashedMessage iv payload behind) = hashedMessage iv payload behind := by
    simp [clearHash, hashedMessage]
  have hplain : plainMessage k iv payload behind =
      k.sha ((clearHash (hashedMessage iv payload behind)).take (hashedMessage iv payload behind).length) ++
        (hashedMessage iv payload behind).drop 20 := rfl
  rw [hplain, hclear, List.take_length]

theorem plainMessage_length :
    (plainMessage k iv payload behind).length =
      payload.length + encryptedSize + padding (payload.length + encryptedSize) := by
  have hlen := hashedMessage_length iv payload behind
  have hsize : encryptedSize = 25 := rfl
  rw [plainMessage_eq, List.length_append, k.sha_length, List.length_drop, hlen]
  omega

theorem plainMessage_blocks : (plainMessage k iv payload behind).length % 64 = 0 := by
  rw [plainMessage_length]
  exact padding_total _

/-! ## Fields, with anything behind the message -/

variable (rest : List UInt8)

theorem clearHash_plain :
    clearHash (plainMessage k iv payload behind ++ rest) = hashedMessage iv payload behind ++ rest := by
  have hlen := hashedMessage_length iv payload behind
  have hsize : encryptedSize = 25 := rfl
  have hhead : (hashedMessage iv payload behind).take 20 = List.replicate 20 0 := by
    simp [hashedMessage]
  rw [clearHash, plainMessage_eq, List.append_assoc, List.drop_left' (k.sha_length _), ← List.append_assoc,
    ← hhead, List.take_append_drop]

theorem ivField_plain (hiv : iv < 2 ^ 32) : ivField (plainMessage k iv payload behind ++ rest) = iv := by
  have hdrop : (plainMessage k iv payload behind ++ rest).drop 20 =
      beBytes iv ++ (UInt8.ofNat (padding (payload.length + encryptedSize)) ::
        (payload ++ (List.range (padding (payload.length + encryptedSize))).map behind) ++ rest) := by
    rw [plainMessage_eq, List.append_assoc, List.drop_left' (k.sha_length _)]
    simp [hashedMessage]
  rw [ivField, hdrop, List.take_left' (beBytes_length iv), beWord_beBytes hiv]

theorem padField_plain :
    padField (plainMessage k iv payload behind ++ rest) = padding (payload.length + encryptedSize) := by
  have hpad := padding_lt (payload.length + encryptedSize)
  have hget : (plainMessage k iv payload behind ++ rest)[24]? =
      some (UInt8.ofNat (padding (payload.length + encryptedSize))) := by
    rw [plainMessage_eq, List.append_assoc, List.getElem?_append_right (by rw [k.sha_length]; norm_num),
      k.sha_length]
    simp [hashedMessage, beBytes]
  rw [padField, List.getD_eq_getElem?_getD, hget, Option.getD_some, UInt8.toNat_ofNat']
  exact Nat.mod_eq_of_lt (by omega)

theorem payload_plain (n : ℕ) :
    ((clearHash (plainMessage k iv payload behind ++ rest)).drop (encryptedSize + n)).take
      (payload.length - n) = payload.drop n := by
  rw [clearHash_plain, ← List.drop_drop]
  have hdrop : (hashedMessage iv payload behind ++ rest).drop encryptedSize =
      payload ++ ((List.range (padding (payload.length + encryptedSize))).map behind ++ rest) := by
    simp [hashedMessage, encryptedSize, beBytes]
  rw [hdrop]
  by_cases hn : n ≤ payload.length
  · rw [List.drop_append_of_le_length hn, List.take_left' (by rw [List.length_drop])]
  · rw [List.drop_eq_nil_of_le (by omega : payload.length ≤ n),
      Nat.sub_eq_zero_of_le (by omega), List.take_zero]

theorem first_plain (b : UInt8) :
    (clearHash (plainMessage k iv (b :: payload) behind ++ rest)).getD encryptedSize 0 = b := by
  rw [clearHash_plain]
  simp [hashedMessage, encryptedSize, beBytes]

/-! ## Decryption -/

def encryptBlocks (key plain : List UInt8) : List UInt8 :=
  mapBlocks 16 (k.rijndaelEncrypt key) (plain.length / 16) plain

theorem eadEncryptMessage_body (c : Crypt) :
    (eadEncryptMessage k c payload behind).2 =
      encryptBlocks k c.key (plainMessage k (eadGetTxIv c).2 payload behind) := rfl

variable (key : List UInt8)

theorem encryptBlocks_length (plain : List UInt8) : (encryptBlocks k key plain).length = plain.length :=
  mapBlocks_length (k.encrypt_length key) _ _ (Nat.div_mul_le_self _ _)

/-- A body at the start of the buffer is decrypted to its message; the rest of the buffer stays. -/
theorem decryptBlocks_encrypt {len : ℕ} {data : List UInt8} (hlt : len < 2 ^ 32) (hpos : 0 < toInt len)
    (hlen : len = (encryptBlocks k key (plainMessage k iv payload behind)).length)
    (hdata : data.take len = encryptBlocks k key (plainMessage k iv payload behind)) :
    decryptBlocks k key len data = plainMessage k iv payload behind ++ data.drop len := by
  have hblocks := plainMessage_blocks k iv payload behind
  rw [encryptBlocks_length] at hlen
  have hnat : (toInt len).toNat = (plainMessage k iv payload behind).length := by
    rw [← hlen]
    unfold toInt at hpos ⊢
    split at hpos <;> omega
  have hbody : (encryptBlocks k key (plainMessage k iv payload behind)).length =
      (plainMessage k iv payload behind).length / 16 * 16 := by
    rw [encryptBlocks_length]
    omega
  have hsplit : data = encryptBlocks k key (plainMessage k iv payload behind) ++ data.drop len := by
    rw [← hdata, List.take_append_drop]
  rw [decryptBlocks, hnat, hsplit, mapBlocks_append _ _ _ hbody, ← hsplit, encryptBlocks,
    mapBlocks_inverse (k.encrypt_length key) (k.decrypt_encrypt key) _ _ (Nat.div_mul_le_self _ _)]

theorem hash_plain :
    hashField (plainMessage k iv payload behind ++ rest) =
      eadHashMessage k (plainMessage k iv payload behind ++ rest)
        (plainMessage k iv payload behind).length := by
  have hlen : (plainMessage k iv payload behind).length = (hashedMessage iv payload behind).length := by
    rw [plainMessage_length, hashedMessage_length]
  rw [eadHashMessage, clearHash_plain, hlen, List.take_left, hashField, plainMessage_eq, List.append_assoc,
    List.take_left' (k.sha_length _)]

/-- A body whose IV is in the window is accepted, with the length of its payload. -/
theorem eadDecryptMessage_encrypt {c : Crypt} {len : ℕ} {data : List UInt8} (hlt : len < 2 ^ 31)
    (hlen : len = (encryptBlocks k c.key (plainMessage k iv payload behind)).length)
    (hdata : data.take len = encryptBlocks k c.key (plainMessage k iv payload behind))
    (hiv : iv < 2 ^ 32) (hlow : c.rxIv < iv) (hhigh : iv ≤ (c.rxIv + eadMaxIvIncr) % 2 ^ 32) :
    eadDecryptMessage k c len data =
      ({ c with rxIv := iv },
        some ⟨clearHash (plainMessage k iv payload behind ++ data.drop len), payload.length⟩) := by
  have hsize : encryptedSize = 25 := rfl
  have hpad := padding_lt (payload.length + encryptedSize)
  have htotal := plainMessage_length k iv payload behind
  have hblocks := plainMessage_blocks k iv payload behind
  have hlen' : len = (plainMessage k iv payload behind).length := by rw [hlen, encryptBlocks_length]
  have hint : toInt len = len := if_pos hlt
  have hdec := decryptBlocks_encrypt k iv payload behind c.key (by omega) (by rw [hint]; omega) hlen hdata
  have hcheck : eadCheckRxIv c iv = ({ c with rxIv := iv }, true) := by
    obtain ⟨hr, -⟩ | ⟨-, hnot⟩ := eadCheckRxIv_cases c iv
    · exact hr
    · exact absurd ⟨hlow, hhigh⟩ hnot
  have htmod : (toInt len).tmod eadEncPad = 0 := by
    rw [hint, hlen', eadEncPad, ← Int.ofNat_tmod, hblocks]
    rfl
  unfold eadDecryptMessage
  dsimp only
  rw [if_neg (by rw [htmod, hint]; omega), hdec, padField_plain, if_neg (by rw [eadEncPad]; omega),
    ivField_plain k iv payload behind _ hiv, hcheck, hint, Int.toNat_natCast]
  simp only [Bool.true_eq_false, if_false]
  rw [if_pos (by rw [hlen']; exact hash_plain k iv payload behind _)]
  have hret : (len : ℤ) - padding (payload.length + encryptedSize) - encryptedSize = payload.length := by
    omega
  rw [hret]

end Codec

end Neufbox.Ead
