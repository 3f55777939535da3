import Neufbox.Ead.Aes

/-! # The table-driven cipher is the plain one

`package/ead/src/aes.c` looks a byte up once for the substitution, the shift of the rows and the mix of
the columns together. Word by word its rounds, its key schedules and its last rounds are those of the
plain cipher and of the equivalent inverse cipher, so decryption undoes encryption. -/
namespace Neufbox.Ead.Aes
open ByteWords Rijndael
set_option autoImplicit false
set_option maxHeartbeats 250000
set_option maxRecDepth 120000

/-! ## Bytes of the lookups -/

theorem mask_byte_zero (w : Word) : (w >>> 24) &&& 0xff#32 = word 0 0 0 (byte w 0) := shift_and_byte w 0
theorem mask_byte_one (w : Word) : (w >>> 16) &&& 0xff#32 = word 0 0 0 (byte w 1) := shift_and_byte w 1
theorem mask_byte_two (w : Word) : (w >>> 8) &&& 0xff#32 = word 0 0 0 (byte w 2) := shift_and_byte w 2

theorem mask_byte_three (w : Word) : w &&& 0xff#32 = word 0 0 0 (byte w 3) := by
  have h := shift_and_byte w 3
  rwa [show 24 - 8 * ((3 : Fin 4) : ℕ) = 0 from rfl, BitVec.ushiftRight_zero] at h

theorem rotr_word (a b c d : Byte) : rotr (word a b c d) 8 = word d a b c := by
  rw [rotr, shiftRight_word, shiftLeft_word_three, or_word]
  simp

theorem rotr_word_two (a b c d : Byte) : rotr (word a b c d) 16 = word c d a b := by
  rw [rotr, shiftRight_word_two, shiftLeft_word_two, or_word]
  simp

theorem rotr_word_three (a b c d : Byte) : rotr (word a b c d) 24 = word b c d a := by
  rw [rotr, shiftRight_word_three, shiftLeft_word, or_word]
  simp

theorem and_ones (b : Byte) : b &&& 255#8 = b := by
  rw [show 255#8 = BitVec.allOnes 8 from rfl, BitVec.and_allOnes]

theorem and_first (a b c d : Byte) : word a b c d &&& 0xff000000#32 = word a 0 0 0 := by
  rw [show 0xff000000#32 = word 0xff 0 0 0 from rfl, and_word]
  simp [and_ones]

theorem and_second (a b c d : Byte) : word a b c d &&& 0x00ff0000#32 = word 0 b 0 0 := by
  rw [show 0x00ff0000#32 = word 0 0xff 0 0 from rfl, and_word]
  simp [and_ones]

theorem and_third (a b c d : Byte) : word a b c d &&& 0x0000ff00#32 = word 0 0 c 0 := by
  rw [show 0x0000ff00#32 = word 0 0 0xff 0 from rfl, and_word]
  simp [and_ones]

theorem and_fourth (a b c d : Byte) : word a b c d &&& 0x000000ff#32 = word 0 0 0 d := by
  rw [show 0x000000ff#32 = word 0 0 0 0xff from rfl, and_word]
  simp [and_ones]

/-! ### Encryption -/

theorem te0_eq (w : Word) : te0 w =
    word (gmul 2 (sbox (byte w 0))) (sbox (byte w 0)) (sbox (byte w 0)) (gmul 3 (sbox (byte w 0))) := by
  rw [te0, mask_byte_zero, lookup_te0]

theorem te1_eq (w : Word) : te1 w =
    word (gmul 3 (sbox (byte w 1))) (gmul 2 (sbox (byte w 1))) (sbox (byte w 1)) (sbox (byte w 1)) := by
  rw [te1, mask_byte_one, lookup_te0, rotr_word]

theorem te2_eq (w : Word) : te2 w =
    word (sbox (byte w 2)) (gmul 3 (sbox (byte w 2))) (gmul 2 (sbox (byte w 2))) (sbox (byte w 2)) := by
  rw [te2, mask_byte_two, lookup_te0, rotr_word_two]

theorem te3_eq (w : Word) : te3 w =
    word (sbox (byte w 3)) (sbox (byte w 3)) (gmul 3 (sbox (byte w 3))) (gmul 2 (sbox (byte w 3))) := by
  rw [te3, mask_byte_three, lookup_te0, rotr_word_three]

theorem te41_eq (w : Word) : te41 w = word (sbox (byte w 0)) 0 0 0 := by
  rw [te41, mask_byte_zero, lookup_te0, shiftLeft_word, and_first]

theorem te42_eq (w : Word) : te42 w = word 0 (sbox (byte w 1)) 0 0 := by
  rw [te42, mask_byte_one, lookup_te0, and_second]

theorem te43_eq (w : Word) : te43 w = word 0 0 (sbox (byte w 2)) 0 := by
  rw [te43, mask_byte_two, lookup_te0, and_third]

theorem te44_eq (w : Word) : te44 w = word 0 0 0 (sbox (byte w 3)) := by
  rw [te44, mask_byte_three w, lookup_te0, shiftRight_word, and_fourth]

theorem te421_eq (w : Word) : te421 w = word (sbox (byte w 1)) 0 0 0 := by
  rw [te421, mask_byte_one, lookup_te0, shiftLeft_word, and_first]

theorem te432_eq (w : Word) : te432 w = word 0 (sbox (byte w 2)) 0 0 := by
  rw [te432, mask_byte_two, lookup_te0, and_second]

theorem te443_eq (w : Word) : te443 w = word 0 0 (sbox (byte w 3)) 0 := by
  rw [te443, mask_byte_three, lookup_te0, and_third]

theorem te414_eq (w : Word) : te414 w = word 0 0 0 (sbox (byte w 0)) := by
  rw [te414, mask_byte_zero, lookup_te0, shiftRight_word, and_fourth]

theorem te4_eq (b : Byte) : te4 (word 0 0 0 b) = word 0 0 0 (sbox b) := by
  rw [te4, lookup_te0, shiftRight_word, and_fourth]

/-! ### Decryption -/

theorem td0_eq (w : Word) : td0 w =
    word (gmul 14 (invSbox (byte w 0))) (gmul 9 (invSbox (byte w 0))) (gmul 13 (invSbox (byte w 0)))
      (gmul 11 (invSbox (byte w 0))) := by
  rw [td0, mask_byte_zero, lookup_td0]

theorem td1_eq (w : Word) : td1 w =
    word (gmul 11 (invSbox (byte w 1))) (gmul 14 (invSbox (byte w 1))) (gmul 9 (invSbox (byte w 1)))
      (gmul 13 (invSbox (byte w 1))) := by
  rw [td1, mask_byte_one, lookup_td0, rotr_word]

theorem td2_eq (w : Word) : td2 w =
    word (gmul 13 (invSbox (byte w 2))) (gmul 11 (invSbox (byte w 2))) (gmul 14 (invSbox (byte w 2)))
      (gmul 9 (invSbox (byte w 2))) := by
  rw [td2, mask_byte_two, lookup_td0, rotr_word_two]

theorem td3_eq (w : Word) : td3 w =
    word (gmul 9 (invSbox (byte w 3))) (gmul 13 (invSbox (byte w 3))) (gmul 11 (invSbox (byte w 3)))
      (gmul 14 (invSbox (byte w 3))) := by
  rw [td3, mask_byte_three, lookup_td0, rotr_word_three]

theorem td41_eq (w : Word) : td41 w = word (invSbox (byte w 0)) 0 0 0 := by
  rw [td41, mask_byte_zero, lookup_td4s, shiftLeft_word_three]

theorem td42_eq (w : Word) : td42 w = word 0 (invSbox (byte w 1)) 0 0 := by
  rw [td42, mask_byte_one, lookup_td4s, shiftLeft_word_two]

theorem td43_eq (w : Word) : td43 w = word 0 0 (invSbox (byte w 2)) 0 := by
  rw [td43, mask_byte_two, lookup_td4s, shiftLeft_word]

theorem td44_eq (w : Word) : td44 w = word 0 0 0 (invSbox (byte w 3)) := by
  rw [td44, mask_byte_three, lookup_td4s]

/-- The inverse mix of a word of a round key; the substitution before the lookup takes the one in the
table back. -/
theorem invMixWord_eq (w : Word) : invMixWord w =
    word (gmul 14 (byte w 0) ^^^ gmul 11 (byte w 1) ^^^ gmul 13 (byte w 2) ^^^ gmul 9 (byte w 3))
      (gmul 9 (byte w 0) ^^^ gmul 14 (byte w 1) ^^^ gmul 11 (byte w 2) ^^^ gmul 13 (byte w 3))
      (gmul 13 (byte w 0) ^^^ gmul 9 (byte w 1) ^^^ gmul 14 (byte w 2) ^^^ gmul 11 (byte w 3))
      (gmul 11 (byte w 0) ^^^ gmul 13 (byte w 1) ^^^ gmul 9 (byte w 2) ^^^ gmul 14 (byte w 3)) := by
  have htop : w >>> 24 = word 0 0 0 (byte w 0) := by
    conv_lhs => rw [← word_byte w]
    exact shiftRight_word_three _ _ _ _
  have hte (b : Byte) : te4 (word 0 0 0 b) &&& 0xff#32 = word 0 0 0 (sbox b) := by
    rw [te4_eq, and_fourth]
  rw [invMixWord, htop, mask_byte_one, mask_byte_two, mask_byte_three, td0', td1', td2', td3', hte, hte, hte,
    hte, lookup_td0, lookup_td0, lookup_td0, lookup_td0, rotr_word, rotr_word_two, rotr_word_three, xor_word,
    xor_word, xor_word]
  simp only [invSbox_sbox]

/-! ## Rounds -/

/-- The words of a block as the columns of a state. -/
def state (s : Block) : State := fun r c => byte (s c) r

theorem state_xor (s k : Block) : state (fun i => s i ^^^ k i) = addRoundKey (state s) (state k) := by
  funext r c
  exact byte_xor _ _ _

theorem state_encRound (rk s : Block) :
    state (encRound rk s) = rounds.add (rounds.mix (rounds.sub (state s))) (state rk) := by
  funext r c
  simp only [state, encRound, rounds, addRoundKey, mixColumns, shiftRows, subBytes, te0_eq, te1_eq, te2_eq,
    te3_eq, xor_word, byte_xor]
  fin_cases r <;> simp <;> ac_rfl

/-- Counting a column back is counting it on. -/
theorem column_back (c : Fin 4) : c - 1 = c + 3 ∧ c - 2 = c + 2 ∧ c - 3 = c + 1 := by
  revert c
  decide

theorem state_decRound (rk s : Block) :
    state (decRound rk s) = rounds.add (rounds.unmix (rounds.unsub (state s))) (state rk) := by
  funext r c
  obtain ⟨h1, h2, h3⟩ := column_back c
  simp only [state, decRound, rounds, addRoundKey, invMixColumns, invShiftRows, invSubBytes, td0_eq, td1_eq,
    td2_eq, td3_eq, xor_word, byte_xor]
  fin_cases r <;> simp [h1, h2, h3] <;> ac_rfl

theorem state_lastEnc (rk t : Block) :
    state (fun i => te41 (t i) ^^^ te42 (t (i + 1)) ^^^ te43 (t (i + 2)) ^^^ te44 (t (i + 3)) ^^^ rk i) =
      rounds.add (rounds.sub (state t)) (state rk) := by
  funext r c
  simp only [state, rounds, addRoundKey, shiftRows, subBytes, te41_eq, te42_eq, te43_eq, te44_eq, xor_word,
    byte_xor]
  fin_cases r <;> simp

theorem state_lastDec (rk t : Block) :
    state (fun i => td41 (t i) ^^^ td42 (t (i + 3)) ^^^ td43 (t (i + 2)) ^^^ td44 (t (i + 1)) ^^^ rk i) =
      rounds.add (rounds.unsub (state t)) (state rk) := by
  funext r c
  obtain ⟨h1, h2, h3⟩ := column_back c
  simp only [state, rounds, addRoundKey, invShiftRows, invSubBytes, td41_eq, td42_eq, td43_eq, td44_eq, xor_word,
    byte_xor]
  fin_cases r <;> simp [h1, h2, h3]

/-! ## The loop over the rounds -/

/-- What the loop computes for an odd number of rounds: one round for each key behind the first. -/
theorem fullRounds_eq (round : Block → Block → Block) (r : ℕ) (rk : ℕ → Block) (s : Block) :
    fullRounds round (r + 1) rk s =
      (((List.range (2 * r + 1)).map fun i => rk (i + 1)).foldl (fun s k => round k s) s,
        fun i => rk (i + 2 * (r + 1))) := by
  induction r generalizing rk s with
  | zero => rfl
  | succ r ih =>
    have hrange : (List.range (2 * (r + 1) + 1)).map (fun i => rk (i + 1)) =
        rk 1 :: rk 2 :: (List.range (2 * r + 1)).map fun i => rk (i + 1 + 2) := by
      rw [show 2 * (r + 1) + 1 = 2 * r + 1 + 1 + 1 from by ring, List.range_succ_eq_map,
        List.range_succ_eq_map, List.map_cons, List.map_map, List.map_cons, List.map_map]
      rfl
    rw [fullRounds, if_neg (Nat.succ_ne_zero r), ih, hrange, List.foldl_cons, List.foldl_cons]
    refine Prod.ext rfl ?_
    funext i
    exact congrArg rk (by ring)

/-- A run of rounds on words is the run on states. -/
theorem state_foldl {round : Block → Block → Block} {f : State → State → State}
    (hround : ∀ k s, state (round k s) = f (state s) (state k)) (keys : List Block) (s : Block) :
    state (keys.foldl (fun s k => round k s) s) = (keys.map state).foldl f (state s) := by
  induction keys generalizing s with
  | nil => rfl
  | cons k keys ih => rw [List.foldl_cons, ih, hround, List.map_cons, List.foldl_cons]

/-! ## Memory -/

/-- Sixteen bytes as a state, column by column. -/
def stateOf (bs : List UInt8) : State := fun r c => memByte bs (4 * c + r)

theorem getu32_eq (pt : List UInt8) (i : ℕ) :
    getu32 pt i = word (memByte pt i) (memByte pt (i + 1)) (memByte pt (i + 2)) (memByte pt (i + 3)) := by
  rw [getu32, ← word_zero, ← word_zero, ← word_zero, ← word_zero, shiftLeft_word_three, shiftLeft_word_two,
    shiftLeft_word, xor_word, xor_word, xor_word]
  simp

theorem putu32_eq (st : Word) : putu32 st = [⟨byte st 0⟩, ⟨byte st 1⟩, ⟨byte st 2⟩, ⟨byte st 3⟩] := by
  have h0 := setWidth_shift st 0
  have h1 := setWidth_shift st 1
  have h2 := setWidth_shift st 2
  have h3 := setWidth_shift st 3
  rw [show 24 - 8 * ((3 : Fin 4) : ℕ) = 0 from rfl, BitVec.ushiftRight_zero] at h3
  rw [← h0, ← h1, ← h2, ← h3]
  rfl

theorem state_getBlock (pt : List UInt8) : state (getBlock pt) = stateOf pt := by
  funext r c
  simp only [state, getBlock, getu32_eq, stateOf]
  fin_cases r <;> simp

theorem stateOf_putBlock (s : Block) : stateOf (putBlock s) = state s := by
  funext r c
  simp only [stateOf, putBlock, putu32_eq, state]
  fin_cases c <;> fin_cases r <;> rfl

theorem stateOf_injective {as bs : List UInt8} (ha : as.length = 16) (hb : bs.length = 16)
    (h : stateOf as = stateOf bs) : as = bs := by
  refine List.ext_getElem (ha.trans hb.symm) fun i hi hi' => ?_
  have hcell := congrFun (congrFun h ⟨i % 4, Nat.mod_lt _ (by norm_num)⟩) ⟨i / 4, by omega⟩
  simp only [stateOf, memByte, Nat.div_add_mod] at hcell
  have hbyte := UInt8.toBitVec_inj.mp hcell
  simpa [List.getD_eq_getElem?_getD, hi, hi'] using hbyte

/-! ## Key schedules -/

theorem state_keySetupStep (i : ℕ) (hi : i < 10) (rk : Block) :
    state (keySetupStep i rk) = nextKey i (state rk) := by
  funext r c
  simp only [keySetupStep, te421_eq, te432_eq, te443_eq, te414_eq, rcon_eq i hi]
  have h31 : (3 : Fin 4) + 1 = 0 := rfl
  fin_cases c <;> fin_cases r <;> simp [state, nextKey, h31, BitVec.xor_assoc]

theorem state_rijndaelKeySetupEnc (cipherKey : List UInt8) (i : ℕ) (hi : i ≤ 10) :
    state (rijndaelKeySetupEnc cipherKey i) = keyExpansion (stateOf cipherKey) i := by
  induction i with
  | zero => exact state_getBlock cipherKey
  | succ i ih => rw [rijndaelKeySetupEnc, state_keySetupStep i (by omega), ih (by omega), keyExpansion]

theorem invertOrder_eq (rk : ℕ → Block) (i : ℕ) (hi : i ≤ 10) : invertOrder rk i = rk (10 - i) := by
  interval_cases i <;> rfl

theorem state_invMixWord (s : Block) : state (fun j => invMixWord (s j)) = invMixColumns (state s) := by
  funext r c
  simp only [state, invMixWord_eq, invMixColumns]
  fin_cases r <;> simp <;> ac_rfl

theorem state_rijndaelKeySetupDec (cipherKey : List UInt8) (i : ℕ) (hi : i ≤ 10) :
    state (rijndaelKeySetupDec cipherKey i) = decryptKeys (keyExpansion (stateOf cipherKey)) i := by
  rw [decryptKeys, ← state_rijndaelKeySetupEnc cipherKey (10 - i) (Nat.sub_le 10 i)]
  simp only [rijndaelKeySetupDec]
  by_cases h : 1 ≤ i ∧ i < 10
  · rw [if_pos h, if_neg (by omega), state_invMixWord, invertOrder_eq _ i hi]
  · rw [if_neg h, if_pos (by omega), invertOrder_eq _ i hi]

/-! ## The cipher -/

theorem stateOf_encrypt (rk : ℕ → Block) (pt : List UInt8) :
    stateOf (rijndaelEncrypt rk pt) = cipher (fun i => state (rk i)) (stateOf pt) := by
  rw [rijndaelEncrypt, fullRounds_eq]
  dsimp only
  rw [stateOf_putBlock, state_lastEnc,
    state_foldl (f := fun s k => rounds.add (rounds.mix (rounds.sub s)) k) state_encRound, List.map_map, state_xor, state_getBlock]
  rfl

theorem stateOf_decrypt (rk : ℕ → Block) (ct : List UInt8) :
    stateOf (rijndaelDecrypt rk ct) = eqInvCipher (fun i => state (rk i)) (stateOf ct) := by
  rw [rijndaelDecrypt, fullRounds_eq]
  dsimp only
  rw [stateOf_putBlock, state_lastDec,
    state_foldl (f := fun s k => rounds.add (rounds.unmix (rounds.unsub s)) k) state_decRound, List.map_map, state_xor, state_getBlock]
  rfl

/-- The cipher depends on the round keys 0 to 10 alone. -/
theorem cipher_congr {k k' : ℕ → State} (h : ∀ i ≤ 10, k i = k' i) (s : State) : cipher k s = cipher k' s := by
  have hkeys : (List.range 9).map (fun r => k (r + 1)) = (List.range 9).map fun r => k' (r + 1) :=
    List.map_congr_left fun r hr => h _ (by have := List.mem_range.mp hr; omega)
  rw [cipher, cipher, hkeys, h 0 (by omega), h 10 le_rfl]

theorem eqInvCipher_congr {k k' : ℕ → State} (h : ∀ i ≤ 10, k i = k' i) (s : State) :
    eqInvCipher k s = eqInvCipher k' s := by
  have hkeys : (List.range 9).map (fun r => k (r + 1)) = (List.range 9).map fun r => k' (r + 1) :=
    List.map_congr_left fun r hr => h _ (by have := List.mem_range.mp hr; omega)
  rw [eqInvCipher, eqInvCipher, hkeys, h 0 (by omega), h 10 le_rfl]

/-- Encryption with the key schedule of `rijndaelKeySetupEnc` is the plain cipher. -/
theorem rijndaelEncrypt_cipher (cipherKey pt : List UInt8) :
    stateOf (rijndaelEncrypt (rijndaelKeySetupEnc cipherKey) pt) =
      cipher (keyExpansion (stateOf cipherKey)) (stateOf pt) := by
  rw [stateOf_encrypt]
  exact cipher_congr (state_rijndaelKeySetupEnc cipherKey) _

theorem rijndaelDecrypt_eqInvCipher (cipherKey ct : List UInt8) :
    stateOf (rijndaelDecrypt (rijndaelKeySetupDec cipherKey) ct) =
      eqInvCipher (decryptKeys (keyExpansion (stateOf cipherKey))) (stateOf ct) := by
  rw [stateOf_decrypt]
  exact eqInvCipher_congr (state_rijndaelKeySetupDec cipherKey) _

theorem rijndaelEncrypt_length (rk : ℕ → Block) (pt : List UInt8) : (rijndaelEncrypt rk pt).length = 16 := rfl
theorem rijndaelDecrypt_length (rk : ℕ → Block) (ct : List UInt8) : (rijndaelDecrypt rk ct).length = 16 := rfl

/-- Decryption undoes encryption, under every key. -/
theorem rijndaelDecrypt_encrypt (cipherKey pt : List UInt8) (hpt : pt.length = 16) :
    rijndaelDecrypt (rijndaelKeySetupDec cipherKey) (rijndaelEncrypt (rijndaelKeySetupEnc cipherKey) pt) = pt := by
  refine stateOf_injective (rijndaelDecrypt_length _ _) hpt ?_
  rw [rijndaelDecrypt_eqInvCipher, rijndaelEncrypt_cipher, eqInvCipher_cipher]

/-- The tables and key schedules of the code are the standard's cipher, and decryption undoes it. -/
theorem rijndael_refines_cipher (cipherKey pt : List UInt8) (hpt : pt.length = 16) :
    stateOf (rijndaelEncrypt (rijndaelKeySetupEnc cipherKey) pt) =
      cipher (keyExpansion (stateOf cipherKey)) (stateOf pt) ∧
    (∀ ct : List UInt8, stateOf (rijndaelDecrypt (rijndaelKeySetupDec cipherKey) ct) =
      eqInvCipher (decryptKeys (keyExpansion (stateOf cipherKey))) (stateOf ct)) ∧
    rijndaelDecrypt (rijndaelKeySetupDec cipherKey) (rijndaelEncrypt (rijndaelKeySetupEnc cipherKey) pt) = pt :=
  ⟨rijndaelEncrypt_cipher cipherKey pt, rijndaelDecrypt_eqInvCipher cipherKey,
    rijndaelDecrypt_encrypt cipherKey pt hpt⟩

theorem rijndael_refines_cipher_zeros :
    rijndaelDecrypt (rijndaelKeySetupDec (List.replicate 16 7)) (rijndaelEncrypt
      (rijndaelKeySetupEnc (List.replicate 16 7)) (List.replicate 16 0)) = List.replicate 16 0 :=
  (rijndael_refines_cipher (List.replicate 16 7) (List.replicate 16 0) rfl).2.2

end Neufbox.Ead.Aes
