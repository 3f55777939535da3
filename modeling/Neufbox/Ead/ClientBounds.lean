import Neufbox.Library.ByteStore
import Neufbox.Library.Memory
import Neufbox.Library.Accesses
import Neufbox.Ead.Network

/-! # The buffers of the client

`ead-client.c` has one buffer for messages, `msgbuf`, which holds the message that was sent until a reply is read
over it. `send_packet` checks that a reply has the length its header gives; each handler has to see to its own
buffers. Offsets count from the start of `msgbuf`. -/
namespace Neufbox.Ead
open Blocks WrapArith CString ByteStore Accesses
set_option autoImplicit false
set_option maxHeartbeats 250000
set_option maxRecDepth 120000

/-! ## The client -/

/-- The width of `size_t` where the client runs. -/
inductive Host where
  | bits32
  | bits64

def Host.width : Host → ℕ
  | .bits32 => 32
  | .bits64 => 64

/-- A byte count handed to `memcpy`. -/
def Host.sizeT (h : Host) (len : ℤ) : ℕ := (len % 2 ^ h.width).toNat

def msgbufSize : ℕ := 1500
def msgSize : ℕ := 20

structure Client where
  msgbuf : List UInt8
  nid : UInt16
  authMd5 : Bool
  msgbuf_length : msgbuf.length = msgbufSize

def wordAt (buf : List UInt8) (off : ℕ) : ℕ := beWord ((buf.drop off).take 4)
def halfAt (buf : List UInt8) (off : ℕ) : ℕ := beWord ((buf.drop off).take 2)

/-- What `read` stores of a datagram. -/
def stored (datagram : List UInt8) : List UInt8 := datagram.take msgbufSize

/-- `msgbuf` after a datagram was read. -/
def Client.readMsg (c : Client) (datagram : List UInt8) : List UInt8 := overlay c.msgbuf 0 (stored datagram)

def Client.msgLen (c : Client) (datagram : List UInt8) : ℕ := wordAt (c.readMsg datagram) 4

/-- The checks of `send_packet`; the sum is a `size_t`. -/
def Accepted (h : Host) (c : Client) (datagram : List UInt8) (type : EadType) : Prop :=
  msgSize ≤ (stored datagram).length ∧
    (msgSize + c.msgLen datagram) % 2 ^ h.width ≤ (stored datagram).length ∧
    wordAt (c.readMsg datagram) 0 = eadMagic.toNat ∧
    (c.nid = 0xffff ∨ halfAt (c.readMsg datagram) 12 = c.nid.toNat) ∧
    wordAt (c.readMsg datagram) 8 = type.val

/-! ## Replies -/

/-- Where `handle_pong` stores the NUL behind the name. -/
def pongNul (msgLen : ℕ) : Option ℤ :=
  let len := toInt (wrapSub 32 msgLen 2)
  if len ≤ 0 then none else some (msgSize + 2 + len)

/-- `sb->len`. -/
def saltLen (buf : List UInt8) : ℕ := (buf.getD (msgSize + 1) 0).toNat

/-- What `handle_prime` reads: the length of the salt, the salt, the salt of the password, the prime. -/
def primeAccesses (c : Client) (buf : List UInt8) : List Access :=
  [⟨msgSize + 1, 1⟩, ⟨msgSize + 2, saltLen buf⟩] ++
    (if c.authMd5 then [⟨msgSize + 2 + maxSaltLen, maxSaltLen⟩] else []) ++ [⟨msgSize, 1⟩]

/-- The number of bytes that `handle_b` copies to `bbuf`. -/
def bCopy (h : Host) (msgLen : ℕ) : ℕ := h.sizeT (toInt (wrapSub 32 msgLen 1))

/-- The copies of the handler that is called for a reply stay inside of their buffers. -/
def ReplyInBounds (h : Host) (c : Client) (datagram : List UInt8) : EadType → Prop
  | .pong => ∀ off ∈ pongNul (c.msgLen datagram), 0 ≤ off ∧ off < msgbufSize
  | .prime =>
      saltLen (c.readMsg datagram) ≤ maxSaltLen ∧
        Inside (stored datagram).length (primeAccesses c (c.readMsg datagram))
  | .sendB => bCopy h (c.msgLen datagram) ≤ maxParamLen
  | _ => True

/-! ## Commands -/

/-- `msgbuf` when `send_command` calls `ead_encrypt_message`. -/
def Client.commandBuf (c : Client) (command : CStr) : List UInt8 :=
  overlay c.msgbuf (msgSize + encryptedSize) (0 :: 0 :: 10 :: strncpy 1024 command)

/-- The length argument of `ead_encrypt_message`, an `unsigned int`. -/
def commandLen (command : CStr) : ℕ := (cmdSize + command.strlen + 1) % 2 ^ 32

/-- The length of the encrypted message, an `int`. -/
def commandEnclen (command : CStr) : ℤ :=
  let len := (commandLen command + encryptedSize) % 2 ^ 32
  toInt ((len + padding len) % 2 ^ 32)

/-- The padding, the length, the IV, the hash that is cleared and then set, the blocks that are hashed and those
that are encrypted. -/
def encryptAccesses (enclen : ℤ) : List Access :=
  [⟨msgSize + 24, 1⟩, ⟨4, 4⟩, ⟨msgSize + 20, 4⟩, ⟨msgSize, 20⟩] ++ blocks msgSize 64 (enclen.toNat / 64) ++
    ⟨msgSize, 20⟩ :: blocks msgSize 16 (enclen.toNat / 16)

/-- The data that is encrypted behind the type and the timeout. -/
def Client.commandData (c : Client) (command : CStr) : List UInt8 :=
  ((c.commandBuf command).drop (msgSize + encryptedSize + cmdSize)).take (commandLen command - cmdSize)

/-- The encryption stays inside of `msgbuf`, and what it encrypts is the command with its NUL. -/
def CommandInBounds (c : Client) (command : CStr) : Prop :=
  Inside msgbufSize (encryptAccesses (commandEnclen command)) ∧ c.commandData command = command.bytes ++ [0]

/-! ## When the copies fit -/

/-- A pong leaves a byte of `msgbuf` free, the salts of a prime are there and fit, and a number fits into `bbuf`. -/
def ReplyFits (c : Client) (datagram : List UInt8) : EadType → Prop
  | .pong => c.msgLen datagram ≠ msgbufSize - msgSize
  | .prime =>
      saltLen (c.readMsg datagram) ≤ maxSaltLen ∧
        msgSize + 2 + saltLen (c.readMsg datagram) ≤ (stored datagram).length ∧
        (c.authMd5 = true → msgSize + 2 + 2 * maxSaltLen ≤ (stored datagram).length)
  | .sendB => 0 < c.msgLen datagram ∧ c.msgLen datagram ≤ maxParamLen + 1
  | _ => True

/-- The message fits into `msgbuf`, and what `strncpy` leaves out of a long command stands there already. -/
def CommandFits (c : Client) (command : CStr) : Prop :=
  command.strlen ≤ 1443 ∧
    (1024 ≤ command.strlen →
      (c.msgbuf.drop (msgSize + encryptedSize + cmdSize + 1024)).take (command.strlen + 1 - 1024) =
        command.bytes.drop 1024 ++ [0])

section Bounds
variable {h : Host} {c : Client} {datagram : List UInt8}

theorem stored_length_le (datagram : List UInt8) : (stored datagram).length ≤ msgbufSize := by
  rw [stored, List.length_take]
  exact min_le_left _ _

theorem Client.msgLen_lt (c : Client) (datagram : List UInt8) : c.msgLen datagram < 2 ^ 32 := by
  have hlt := Memory.beWord_lt (((c.readMsg datagram).drop 4).take 4)
  have hle : (((c.readMsg datagram).drop 4).take 4).length ≤ 4 := by
    rw [List.length_take]
    exact min_le_left _ _
  exact hlt.trans_le (Nat.pow_le_pow_right (by norm_num) hle)

/-- The length field of an accepted reply is true, or so large that the sum with the header wraps. -/
theorem Accepted.msgLen {type : EadType} (ha : Accepted h c datagram type) :
    msgSize + c.msgLen datagram ≤ (stored datagram).length ∨ 2 ^ 32 - msgSize ≤ c.msgLen datagram := by
  obtain ⟨-, hsum, -⟩ := ha
  have hlt := c.msgLen_lt datagram
  have hle := stored_length_le datagram
  unfold msgSize at *
  cases h <;> simp only [Host.width] at hsum <;> omega

theorem pong_inBounds_iff (ha : Accepted h c datagram .pong) :
    ReplyInBounds h c datagram .pong ↔ ReplyFits c datagram .pong := by
  have hmsg := ha.msgLen
  have hle := stored_length_le datagram
  have hlt := c.msgLen_lt datagram
  simp only [ReplyInBounds, ReplyFits, pongNul]
  unfold msgbufSize msgSize at *
  by_cases hshort : c.msgLen datagram < 2
  · have hneg : toInt (wrapSub 32 (c.msgLen datagram) 2) ≤ 0 := by
      unfold toInt wrapSub
      omega
    rw [if_pos hneg]
    simp
    omega
  · rw [wrapSub_of_le (by omega) hlt]
    unfold toInt
    split
    · split
      · simp
        omega
      · simp
        omega
    · rw [if_pos (by omega)]
      simp
      omega

theorem prime_inBounds_iff (c : Client) (datagram : List UInt8) :
    ReplyInBounds h c datagram .prime ↔ ReplyFits c datagram .prime := by
  simp only [ReplyInBounds, ReplyFits, primeAccesses]
  cases c.authMd5
  · simp
    omega
  · simp
    unfold maxSaltLen
    omega

theorem sendB_inBounds_iff (ha : Accepted h c datagram .sendB) :
    ReplyInBounds h c datagram .sendB ↔ ReplyFits c datagram .sendB := by
  have hmsg := ha.msgLen
  have hle := stored_length_le datagram
  have hlt := c.msgLen_lt datagram
  simp only [ReplyInBounds, ReplyFits, bCopy, Host.sizeT]
  unfold msgbufSize msgSize at *
  by_cases hzero : c.msgLen datagram = 0
  · rw [hzero]
    cases h <;> decide
  · rw [wrapSub_of_le (by omega) hlt]
    unfold toInt maxParamLen
    cases h <;> simp only [Host.width] <;> split <;> omega

/-! ## The command -/

theorem strncpy_length (n : ℕ) (s : CStr) : (strncpy n s).length = n := by
  rw [strncpy, List.length_take, List.length_append, List.length_replicate]
  omega

/-- The data that is encrypted: what `strncpy` stored, and `msgbuf` as it was behind it. -/
theorem commandData_eq (c : Client) (command : CStr) :
    c.commandData command =
      (strncpy 1024 command ++ c.msgbuf.drop (msgSize + encryptedSize + cmdSize + 1024)).take
        (commandLen command - cmdSize) := by
  have hfront : (c.msgbuf.take (msgSize + encryptedSize) ++ [0, 0, 10]).length = msgSize + encryptedSize + cmdSize := by
    rw [List.length_append, List.length_take, c.msgbuf_length]
    rfl
  have hbuf : c.commandBuf command = (c.msgbuf.take (msgSize + encryptedSize) ++ [0, 0, 10]) ++
      (strncpy 1024 command ++ c.msgbuf.drop (msgSize + encryptedSize + cmdSize + 1024)) := by
    rw [Client.commandBuf, overlay, List.length_cons, List.length_cons, List.length_cons, strncpy_length]
    simp [cmdSize, Nat.add_assoc]
  rw [Client.commandData, hbuf, List.drop_left' hfront]

/-- The text of a command is encrypted as it is, as far as `strncpy` reaches; the rest is what stood there. -/
theorem commandData_exact_iff (c : Client) (command : CStr) (hlen : command.strlen ≤ 1451) :
    c.commandData command = command.bytes ++ [0] ↔
      (1024 ≤ command.strlen →
        (c.msgbuf.drop (msgSize + encryptedSize + cmdSize + 1024)).take (command.strlen + 1 - 1024) =
          command.bytes.drop 1024 ++ [0]) := by
  have hcount : commandLen command - cmdSize = command.strlen + 1 := by
    unfold commandLen cmdSize
    omega
  rw [commandData_eq, hcount, List.take_append, strncpy_length]
  unfold CStr.strlen at *
  by_cases hlong : 1024 ≤ command.bytes.length
  · have hcopy : strncpy 1024 command = command.bytes.take 1024 := by
      rw [strncpy, List.take_append_of_le_length hlong]
    have hsplit : command.bytes ++ [0] = command.bytes.take 1024 ++ (command.bytes.drop 1024 ++ [0]) := by
      rw [← List.append_assoc, List.take_append_drop]
    rw [List.take_of_length_le (by rw [strncpy_length]; omega), hcopy, hsplit, List.append_cancel_left_eq]
    simp [hlong]
  · have hcopy : (strncpy 1024 command).take (command.bytes.length + 1) = command.bytes ++ [0] := by
      rw [strncpy, List.take_take, Nat.min_eq_left (by omega), List.take_append, List.take_of_length_le (by omega),
        Nat.add_sub_cancel_left]
      rfl
    have hnone : command.bytes.length + 1 - 1024 = 0 := by omega
    rw [hcopy, hnone, List.take_zero, List.append_nil]
    simp [hlong]

theorem encrypt_inside_iff (enclen : ℤ) :
    Inside msgbufSize (encryptAccesses enclen) ↔
      msgSize + 64 * (enclen.toNat / 64) ≤ msgbufSize ∧ msgSize + 16 * (enclen.toNat / 16) ≤ msgbufSize := by
  have hstart : msgSize ≤ msgbufSize := by decide
  simp only [encryptAccesses, inside_append, inside_cons, inside_nil, inside_blocks _ _ hstart, and_true]
  unfold msgSize msgbufSize
  simp

theorem command_inBounds_iff (c : Client) (command : CStr) : CommandInBounds c command ↔ CommandFits c command := by
  have hexact : c.commandData command = command.bytes ++ [0] → command.strlen ≤ 1451 := by
    intro hdata
    have hlength := congrArg List.length hdata
    rw [commandData_eq, List.length_take, List.length_append, strncpy_length, List.length_drop, c.msgbuf_length,
      List.length_append, List.length_singleton] at hlength
    unfold CStr.strlen
    unfold msgbufSize msgSize encryptedSize cmdSize at hlength
    omega
  have hinside : command.strlen ≤ 1451 →
      (Inside msgbufSize (encryptAccesses (commandEnclen command)) ↔ command.strlen ≤ 1443) := by
    intro hlen
    have hlen25 : (commandLen command + encryptedSize) % 2 ^ 32 = command.strlen + 29 := by
      unfold commandLen cmdSize encryptedSize
      omega
    have henclen : commandEnclen command = (command.strlen + 29 + padding (command.strlen + 29) : ℕ) := by
      simp only [commandEnclen, hlen25]
      unfold padding eadEncPad toInt
      omega
    rw [encrypt_inside_iff, henclen]
    unfold padding eadEncPad msgbufSize msgSize
    omega
  constructor
  · rintro ⟨hin, hdata⟩
    have hlen := hexact hdata
    exact ⟨(hinside hlen).mp hin, (commandData_exact_iff c command hlen).mp hdata⟩
  · rintro ⟨hlen, htail⟩
    exact ⟨(hinside (by omega)).mpr hlen, (commandData_exact_iff c command (by omega)).mpr htail⟩

/-- The copies of the client stay inside of its buffers exactly when the reply fits and the command does. -/
theorem ead_client_bounds_iff (h : Host) (c : Client) (datagram : List UInt8) (command : CStr) :
    ((∀ type, Accepted h c datagram type → ReplyInBounds h c datagram type) ∧ CommandInBounds c command) ↔
      (∀ type, Accepted h c datagram type → ReplyFits c datagram type) ∧ CommandFits c command := by
  rw [command_inBounds_iff]
  refine and_congr_left fun _ => forall_congr' fun type => forall_congr' fun ha => ?_
  cases type with
  | pong => exact pong_inBounds_iff ha
  | prime => exact prime_inBounds_iff c datagram
  | sendB => exact sendB_inBounds_iff ha
  | _ => rfl

end Bounds

/-- A `SEND_B` reply that is nothing but a header. -/
def emptyB : List UInt8 :=
  [218, 218, 202, 254, 0, 0, 0, 0, 0, 0, 0, 7, 0x12, 0x34, 0, 0, 1, 1, 1, 1]

def freshClient : Client where
  msgbuf := List.replicate msgbufSize 0
  nid := 0x1234
  authMd5 := true
  msgbuf_length := List.length_replicate

theorem emptyB_accepted : Accepted .bits32 freshClient emptyB .sendB :=
  ⟨by decide, by decide, by decide, Or.inr (by decide), by decide⟩

theorem ead_client_copies_beyond_bbuf :
    ¬ ((∀ type, Accepted .bits32 freshClient emptyB type → ReplyInBounds .bits32 freshClient emptyB type) ∧
      CommandInBounds freshClient .empty) := by
  intro h
  have hcopy := h.1 .sendB emptyB_accepted
  exact absurd hcopy (by unfold ReplyInBounds; decide)

end Neufbox.Ead
