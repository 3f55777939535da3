import Neufbox.Library.Accesses
import Neufbox.Ead.Network
import Neufbox.Ead.Reply

/-! # The bounds of a received frame

What the handlers of `ead.c` touch of a frame that was captured. Three lengths meet here: the length on the wire,
which `handle_packet` compares, the length that was captured, which nothing compares, and the length field of the
message, which the handlers use. Offsets count from the start of the frame. -/
namespace Neufbox.Ead
open Blocks WrapArith RunAlong Accesses
set_option autoImplicit false
set_option maxHeartbeats 250000
set_option maxRecDepth 120000

/-! ## Captured frames -/

/-- What the filter program of `filter.c` returns for a packet it lets pass. -/
def filterLen : ℕ := 1500

/-- A frame as pcap hands it over: `caplen` of its bytes are in the buffer. -/
structure Capture where
  frame : Frame
  caplen : ℕ
  len_lt : frame.len < 2 ^ 32
  le_caplen : min frame.len filterLen ≤ caplen
  caplen_le : caplen ≤ min frame.len pcapMru
  data_length : frame.data.length = caplen - packetSize

/-! ## Selection of a handler -/

/-- The checks of `handle_packet`. -/
def Passes (cfg : Config) (f : Frame) : Prop :=
  packetSize ≤ f.len ∧ f.etherType = ethertypeIp ∧ f.etherDhost = List.replicate 6 0xff ∧ f.proto = uipProtoUdp ∧
    f.destport = eadPort ∧ f.magic = eadMagic ∧ (packetSize + f.msgLen.toNat) % 2 ^ 32 ≤ f.len ∧
    (f.nid = 0xffff ∨ f.nid = cfg.nid)

/-- The length a handler asks for, behind the header. -/
def minLen : EadType → Option ℕ
  | .ping => some 0
  | .setUsername => some 32
  | .getPrime => some 0
  | .sendA => some 1
  | .sendAuth => some 20
  | .sendCmd => some (cmdSize + encryptedSize)
  | _ => none

section Selection
variable {T : Type}

/-- The frame passes the checks of `handle_packet` and `parse_message` and reaches the handler of `type`. -/
def Selects (cfg : Config) (s : Server T) (f : Frame) (type : EadType) : Prop :=
  Passes cfg f ∧ eadType f.type.toNat = some type ∧ (EadType.getPrime.val ≤ type.val → s.state = type) ∧
    (type = .ping ∨ f.sid.toNat / 2 ^ 12 % 2 ^ 4 = cfg.instanceId) ∧
    ∃ n, minLen type = some n ∧ (packetSize + n : ℕ) ≤ toInt f.len

end Selection

/-! ## What the handlers touch -/

/-- Where the length field of the message lies. -/
def msgLenAt : Access := ⟨46, 4⟩

/-- A byte count handed to `memcpy` as a `size_t`. -/
def sizeT (len : ℤ) : ℕ := (len % 2 ^ 32).toNat

/-- The `strncpy` of the user name stops behind the first NUL. -/
def setUsernameAccesses (f : Frame) : List Access :=
  [⟨packetSize, min 32 (((f.data.take 32).takeWhile (· ≠ 0)).length + 1)⟩]

/-- The number of bytes that `handle_send_a` copies into `abuf`, when it does. -/
def sendACopy (f : Frame) : Option ℤ :=
  let len := toInt (wrapSub 32 f.msgLen.toNat 1)
  if len > maxParamLen + 1 then none else some len

def sendAAccesses (f : Frame) : List Access :=
  msgLenAt :: (sendACopy f).toList.map fun len => ⟨packetSize + 1, sizeT len⟩

def sendAuthAccesses : List Access := [⟨packetSize, 20⟩]

/-- `ead_decrypt_message`: the blocks it decrypts, the padding, the IV, the hash, which is read and then cleared,
the blocks it hashes, and the padding again. -/
def decryptAccesses (k : Cipher) (c : Crypt) (len : ℕ) (enc : List UInt8) : List Access :=
  let enclen := toInt len
  let plain := decryptBlocks k c.key len enc
  msgLenAt ::
    if enclen = 0 ∨ enclen.tmod eadEncPad > 0 then []
    else blocks packetSize 16 (enclen.toNat / 16) ++ ⟨packetSize + 24, 1⟩ ::
      if padField plain ≥ eadEncPad then []
      else ⟨packetSize + 20, 4⟩ ::
        if (eadCheckRxIv c (ivField plain)).2 = false then []
        else ⟨packetSize, 20⟩ :: ⟨packetSize, 20⟩ :: blocks packetSize 64 (enclen.toNat / 64) ++
          if hashField plain = eadHashMessage k plain enclen.toNat then [⟨packetSize + 24, 1⟩] else []

/-- A child was started, which hands the command to `system`. -/
def childStarts {T : Type} (cfg : Config) (env : Env T) (type : UInt8) : Bool :=
  match cmdType cfg.bigEndian type with
  | some .normal => env.pipe && env.fork
  | some .background => env.fork
  | none => false

/-- The type and the timeout of a command, the NUL behind it, and the text that `system` reads. -/
def commandAccesses {T : Type} (cfg : Config) (env : Env T) (plain : List UInt8) (datalen : ℕ) : List Access :=
  let data := packetSize + encryptedSize + cmdSize
  let command := ((plain.drop (encryptedSize + cmdSize)).take datalen).takeWhile (· ≠ 0)
  ⟨packetSize + encryptedSize, 1⟩ :: ⟨packetSize + encryptedSize + 1, 2⟩ :: ⟨data + datalen, 1⟩ ::
    if childStarts cfg env (plain.getD encryptedSize 0) then [⟨data, command.length + 1⟩] else []

def sendCmdAccesses {T : Type} (k : Cipher) (cfg : Config) (env : Env T) (s : Server T) (f : Frame) : List Access :=
  decryptAccesses k s.crypt f.msgLen.toNat f.data ++
    match (eadDecryptMessage k s.crypt f.msgLen.toNat f.data).2 with
    | none => []
    | some d =>
        let datalen := d.ret - cmdSize
        if datalen ≤ 0 then [] else commandAccesses cfg env d.plain datalen.toNat

def handlerAccesses {T : Type} (k : Cipher) (cfg : Config) (env : Env T) (s : Server T) (f : Frame) :
    EadType → List Access
  | .setUsername => setUsernameAccesses f
  | .sendA => sendAAccesses f
  | .sendAuth => sendAuthAccesses
  | .sendCmd => sendCmdAccesses k cfg env s f
  | _ => []

/-- The handler that is run stays inside of the captured bytes, and a copy into `abuf` has a length that fits. -/
def HandlerInBounds {T : Type} (k : Cipher) (cfg : Config) (env : Env T) (s : Server T) (c : Capture) : Prop :=
  ∀ type, Selects cfg s c.frame type →
    Inside c.caplen (handlerAccesses k cfg env s c.frame type) ∧
    (type = .sendA → ∀ n ∈ sendACopy c.frame, 0 ≤ n ∧ n ≤ maxParamLen + 1)

/-! ## When a handler stays inside -/

/-- A message that `ead_decrypt_message` accepts and that has no padding. -/
def Unpadded (k : Cipher) (c : Crypt) (f : Frame) : Prop :=
  (eadDecryptMessage k c f.msgLen.toNat f.data).2 ≠ none ∧ padField (decryptBlocks k c.key f.msgLen.toNat f.data) = 0

/-- The number of a `SEND_A` message is there. A command lies inside of the captured bytes, with one byte behind it
when it has no padding. -/
def LengthsFit {T : Type} (k : Cipher) (s : Server T) (c : Capture) : EadType → Prop
  | .sendA => 0 < c.frame.msgLen.toNat ∧ c.frame.msgLen.toNat < 2 ^ 31
  | .sendCmd =>
      c.frame.msgLen.toNat < 2 ^ 31 → eadEncPad ∣ c.frame.msgLen.toNat →
        packetSize + c.frame.msgLen.toNat ≤ c.caplen ∧
        ¬ (packetSize + c.frame.msgLen.toNat = c.caplen ∧ Unpadded k s.crypt c.frame)
  | _ => True

section Bounds
variable {T : Type} {k : Cipher} {cfg : Config} {env : Env T} {s : Server T} {c : Capture}

theorem Selects.caplen {type : EadType} {n : ℕ} (h : Selects cfg s c.frame type) (hmin : minLen type = some n)
    (hn : n ≤ 64) : packetSize + n ≤ c.caplen := by
  obtain ⟨-, -, -, -, m, hm, hlen⟩ := h
  obtain rfl : m = n := Option.some.inj (hm.symm.trans hmin)
  have hwire := toInt_le c.frame.len
  have hcap := c.le_caplen
  unfold filterLen at hcap
  unfold packetSize at *
  omega

/-- A length field of `2 ^ 31` or more passes only where the sum with the header wraps. -/
theorem Selects.msgLen {type : EadType} (h : Selects cfg s c.frame type) :
    c.frame.msgLen.toNat < 2 ^ 31 ∧ packetSize + c.frame.msgLen.toNat ≤ c.frame.len ∨
      2 ^ 32 - packetSize ≤ c.frame.msgLen.toNat := by
  obtain ⟨⟨-, -, -, -, -, -, hsum, -⟩, -, -, -, n, -, hlen⟩ := h
  have hlt := c.len_lt
  have hmsg := c.frame.msgLen.toNat_lt
  unfold toInt at hlen
  unfold packetSize at *
  split at hlen <;> omega

theorem setUsername_inside (h : Selects cfg s c.frame .setUsername) :
    Inside c.caplen (setUsernameAccesses c.frame) := by
  have hcap := h.caplen rfl (by norm_num)
  simp only [setUsernameAccesses, inside_cons, inside_nil, and_true]
  omega

theorem sendAuth_inside (h : Selects cfg s c.frame .sendAuth) : Inside c.caplen sendAuthAccesses := by
  have hcap := h.caplen rfl (by norm_num)
  simp only [sendAuthAccesses, inside_cons, inside_nil, and_true]
  omega

theorem sendA_inside_iff (h : Selects cfg s c.frame .sendA) :
    (Inside c.caplen (sendAAccesses c.frame) ∧ ∀ n ∈ sendACopy c.frame, 0 ≤ n ∧ n ≤ maxParamLen + 1) ↔
      LengthsFit k s c .sendA := by
  have hcap := h.caplen rfl (by norm_num)
  have hmru := c.caplen_le
  have hfilter := c.le_caplen
  have hmsg := h.msgLen
  have hlt := c.frame.msgLen.toNat_lt
  simp only [LengthsFit, sendAAccesses, sendACopy, msgLenAt, inside_cons]
  by_cases hzero : c.frame.msgLen.toNat = 0
  · simp [hzero, wrapSub, toInt, maxParamLen]
  · have hsub : wrapSub 32 c.frame.msgLen.toNat 1 = c.frame.msgLen.toNat - 1 := wrapSub_of_le (by omega) hlt
    rw [hsub]
    unfold toInt maxParamLen packetSize filterLen at *
    split
    · next hpos =>
      split
      · simp
        omega
      · simp [sizeT]
        omega
    · next hneg =>
      rw [if_neg (by omega)]
      simp
      omega

theorem toInt_tmod_pos {len : ℕ} (hlt : len < 2 ^ 31) :
    (toInt len = 0 ∨ (toInt len).tmod eadEncPad > 0) ↔ len = 0 ∨ ¬ eadEncPad ∣ len := by
  have hmod : (len : ℤ).tmod eadEncPad = (len % eadEncPad : ℕ) := by
    rw [Int.tmod_eq_emod_of_nonneg (by omega), Int.natCast_mod]
  rw [toInt, if_pos hlt, hmod, Nat.dvd_iff_mod_eq_zero]
  omega

/-- The decryption stays inside of the frame when all of the blocks do; a negative length has no blocks. -/
theorem decrypt_inside_iff (c : Crypt) (len : ℕ) (enc : List UInt8) {size : ℕ}
    (hsize : packetSize + (cmdSize + encryptedSize) ≤ size) (hlt : len < 2 ^ 32) :
    Inside size (decryptAccesses k c len enc) ↔ (len < 2 ^ 31 → eadEncPad ∣ len → packetSize + len ≤ size) := by
  have hfixed : Inside size [msgLenAt, ⟨packetSize + 24, 1⟩, ⟨packetSize + 20, 4⟩, ⟨packetSize, 20⟩] := by
    simp only [msgLenAt, inside_cons, inside_nil, and_true]
    unfold packetSize cmdSize encryptedSize at *
    omega
  simp only [inside_cons, inside_nil, and_true] at hfixed
  obtain ⟨hlen, hpad, hiv, hhash⟩ := hfixed
  have hstart : packetSize ≤ size := by omega
  -- Which of the later parts is reached does not matter: none of them reaches beyond the blocks.
  have hall : Inside size (blocks packetSize 16 ((toInt len).toNat / 16)) →
      Inside size (blocks packetSize 64 ((toInt len).toNat / 64)) →
      Inside size (decryptAccesses k c len enc) := by
    intro h16 h64
    simp only [decryptAccesses, inside_cons]
    refine ⟨hlen, ?_⟩
    split
    · exact inside_nil
    simp only [inside_append, inside_cons]
    refine ⟨h16, hpad, ?_⟩
    split
    · exact inside_nil
    simp only [inside_cons]
    refine ⟨hiv, ?_⟩
    split
    · exact inside_nil
    simp only [List.cons_append, inside_append, inside_cons]
    refine ⟨hhash, hhash, h64, ?_⟩
    split
    · simpa using hpad
    · exact inside_nil
  by_cases hpos : len < 2 ^ 31
  · have hnat : (toInt len).toNat = len := by rw [toInt, if_pos hpos, Int.toNat_natCast]
    by_cases hdvd : len = 0 ∨ ¬ eadEncPad ∣ len
    · simp only [decryptAccesses, if_pos ((toInt_tmod_pos hpos).mpr hdvd), inside_cons, inside_nil, and_true]
      refine ⟨?_, fun _ => hlen⟩
      intro _ _ h64
      obtain hzero | hnot := hdvd
      · omega
      · exact absurd h64 hnot
    · obtain ⟨hne, h64⟩ := not_or.mp hdvd
      have h64 := not_not.mp h64
      rw [hnat, inside_blocks _ _ hstart, inside_blocks _ _ hstart] at hall
      unfold eadEncPad at h64
      constructor
      · intro h _ _
        simp only [decryptAccesses, if_neg (mt (toInt_tmod_pos hpos).mp hdvd), inside_cons, inside_append, hnat] at h
        have h16 := (inside_blocks _ _ hstart).mp h.2.1
        omega
      · intro h
        have hin := h hpos h64
        exact hall (by omega) (by omega)
  · have hnat : (toInt len).toNat = 0 := by
      rw [toInt, if_neg hpos]
      omega
    rw [hnat] at hall
    exact ⟨fun _ hneg => absurd hneg hpos, fun _ => hall (by simp [blocks]) (by simp [blocks])⟩

theorem command_inside_iff (plain : List UInt8) (datalen size : ℕ) :
    Inside size (commandAccesses cfg env plain datalen) ↔
      packetSize + encryptedSize + cmdSize + datalen < size := by
  have hle : (((plain.drop (encryptedSize + cmdSize)).take datalen).takeWhile (· ≠ 0)).length ≤ datalen := by
    refine (List.takeWhile_sublist _).length_le.trans ?_
    rw [List.length_take]
    exact min_le_left _ _
  unfold commandAccesses
  simp only [inside_cons]
  unfold packetSize encryptedSize cmdSize at *
  split
  · simp only [inside_cons, inside_nil, and_true]
    omega
  · simp only [inside_nil, and_true]
    omega

/-- The NUL lies where the padding starts. -/
theorem command_inside_if_iff (plain : List UInt8) (n pad size : ℕ) :
    Inside size (if (n - pad - encryptedSize - cmdSize : ℤ) ≤ 0 then []
      else commandAccesses cfg env plain (n - pad - encryptedSize - cmdSize : ℤ).toNat) ↔
      ((n - pad - encryptedSize - cmdSize : ℤ) ≤ 0 ∨ packetSize + n - pad < size) := by
  split
  · next hnone => simp only [inside_nil, hnone, true_or]
  · rw [command_inside_iff]
    unfold encryptedSize cmdSize packetSize at *
    omega

theorem sendCmd_inside_iff (h : Selects cfg s c.frame .sendCmd) :
    Inside c.caplen (sendCmdAccesses k cfg env s c.frame) ↔ LengthsFit k s c .sendCmd := by
  have hcap := h.caplen rfl (by decide)
  have hlt := c.frame.msgLen.toNat_lt
  rw [sendCmdAccesses, inside_append, decrypt_inside_iff s.crypt _ _ hcap hlt]
  simp only [LengthsFit, Unpadded]
  obtain ⟨hnone, -⟩ | ⟨hsome, hne, htmod, hpad, -, -, -⟩ :=
    eadDecryptMessage_cases k s.crypt c.frame.msgLen.toNat c.frame.data
  · simp [hnone]
  · rw [hsome]
    generalize padField (decryptBlocks k s.crypt.key c.frame.msgLen.toNat c.frame.data) = pad at hpad ⊢
    generalize clearHash (decryptBlocks k s.crypt.key c.frame.msgLen.toNat c.frame.data) = plain
    by_cases hpos : c.frame.msgLen.toNat < 2 ^ 31
    · have hdvd := (not_congr (toInt_tmod_pos hpos)).mp (not_or.mpr ⟨hne, htmod⟩)
      rw [not_or, not_not] at hdvd
      have hint : toInt c.frame.msgLen.toNat = c.frame.msgLen.toNat := if_pos hpos
      have h64 := Nat.le_of_dvd (Nat.pos_of_ne_zero hdvd.1) hdvd.2
      simp only [hpos, hdvd.2, hint, true_implies]
      rw [command_inside_if_iff]
      unfold eadEncPad encryptedSize cmdSize packetSize at *
      simp only [ne_eq, reduceCtorEq, not_false_eq_true, true_and]
      omega
    · have hneg : (toInt c.frame.msgLen.toNat - pad - encryptedSize - cmdSize : ℤ) ≤ 0 := by
        rw [toInt, if_neg hpos]
        omega
      simp only [hpos, false_implies, true_and, if_pos hneg, inside_nil]

/-- The handlers stay inside of the frame exactly when the length field of a number or a command allows it. -/
theorem ead_server_bounds_iff (k : Cipher) (cfg : Config) (env : Env T) (s : Server T) (c : Capture) :
    HandlerInBounds k cfg env s c ↔ ∀ type, Selects cfg s c.frame type → LengthsFit k s c type := by
  refine forall_congr' fun type => forall_congr' fun h => ?_
  cases type with
  | sendA => simpa only [handlerAccesses, true_implies] using sendA_inside_iff h
  | sendCmd => simpa [handlerAccesses] using sendCmd_inside_iff h
  | setUsername => simpa [handlerAccesses, LengthsFit] using setUsername_inside h
  | sendAuth => simpa [handlerAccesses, LengthsFit] using sendAuth_inside h
  | _ => simp [handlerAccesses, LengthsFit]

end Bounds

/-- A `SEND_A` message of 63 bytes whose length field is 0, sent after a user name and a `GET_PRIME`. -/
def emptyNumber : Capture where
  frame := { frameOf 6 [0] with msgLen := 0 }
  caplen := 63
  len_lt := by decide
  le_caplen := by decide
  caplen_le := by decide
  data_length := by decide

def serverAfterPrime : Server Unit :=
  (runSteps (runStep noCipher openSrp plainConfig) (.start Unit) (loginFrames.take 2)).server

theorem emptyNumber_selects : Selects plainConfig serverAfterPrime emptyNumber.frame .sendA :=
  ⟨by unfold Passes; decide, by decide, by decide, by decide, 1, by decide, by decide⟩

theorem ead_empty_number_out_of_bounds :
    ¬ HandlerInBounds noCipher plainConfig quietEnv serverAfterPrime emptyNumber := by
  intro h
  obtain ⟨-, hcopy⟩ := h .sendA emptyNumber_selects
  have hlen := hcopy rfl (-1) (by decide)
  exact absurd hlen.1 (by decide)

end Neufbox.Ead
