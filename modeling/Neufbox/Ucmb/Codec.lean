import Neufbox.Library.Crc32
import Neufbox.Ucmb.Driver

/-! # What is on the bus

The header goes through `cpu_to_le16`, so it is the same on every host. The CRC and the code of a status are stored
as they are: on a big-endian host their bytes come the other way round, while the CRC of a message that is read
is converted. The length is cut to 16 bits. -/
namespace Neufbox.Ucmb
open Library.HostWords
set_option autoImplicit false
set_option maxHeartbeats 250000
set_option maxRecDepth 120000

/-! ## The message as it is declared -/

namespace Setup
variable (u : Setup)

/-- The complemented CRC of the bytes of header and payload. -/
def frameCrc (len : BitVec 16) (payload : List UInt8) : BitVec 16 :=
  u.crc16 0xffff#16 (leBytes ucmbMagic ++ leBytes len ++ payload) ^^^ 0xffff#16

/-- All fields are little-endian, and the length is that of the payload. -/
def Framed (payload bytes : List UInt8) : Prop :=
  ∃ len : BitVec 16, len.toNat = payload.length ∧
    bytes = leBytes ucmbMagic ++ leBytes len ++ payload ++ leBytes (u.frameCrc len payload)

/-! ## Header and CRC -/

def convertedHdr (len : BitVec 16) : UcmbMessageHdr := ⟨cpuToLe16 u.host ucmbMagic, cpuToLe16 u.host len⟩

@[simp] theorem bytes_convertedHdr (len : BitVec 16) :
    (u.convertedHdr len).bytes u.host = leBytes ucmbMagic ++ leBytes len := by
  simp [convertedHdr, UcmbMessageHdr.bytes]

theorem ofBytes_convertedHdr (len : BitVec 16) :
    UcmbMessageHdr.ofBytes u.host (leBytes ucmbMagic ++ leBytes len) = u.convertedHdr len := by
  rw [UcmbMessageHdr.ofBytes, List.take_left' (length_leBytes _), List.drop_left' (length_leBytes _),
    ofMemBytes_leBytes, ofMemBytes_leBytes]
  rfl

theorem messageCrc_convertedHdr (len : BitVec 16) (payload : List UInt8) :
    u.messageCrc (u.convertedHdr len) payload = u.frameCrc len payload := by
  rw [messageCrc, frameCrc, bytes_convertedHdr, crc16, crc16, crc16, ← List.foldl_append]

/-! ## Writing -/

theorem getStatus_sent (size : ℕ) (w : Wire) : (u.getStatus wire size w).2.sent = w.sent := by
  have hsent := readChunks_sent (if u.chunkSize = 0 then 4 else u.chunkSize) 4 4 w
  rw [getStatus, ucmbSpiRead]
  rcases hread : readChunks wire (if u.chunkSize = 0 then 4 else u.chunkSize) 4 4 w with ⟨res, w'⟩
  rw [hread] at hsent
  cases res with
  | error err => exact hsent
  | ok bytes =>
    rw [andThen_ok]
    dsimp only
    split
    · exact hsent
    · split <;> exact hsent

/-- The bytes that are written: all as declared but for the length, which is cut, and the CRC, which lies as it does
in the memory of the host. -/
def writtenBytes (payload : List UInt8) : List UInt8 :=
  leBytes ucmbMagic ++ leBytes (BitVec.ofNat 16 payload.length) ++ payload ++
    memBytes u.host (u.frameCrc (BitVec.ofNat 16 payload.length) payload)

variable {u}

theorem ucmbWrite_sent (hfree : u.freePage = true) (haccess : u.userAccess = true) {payload : List UInt8}
    (hpayload : payload.length ≤ u.pageSize) (w : Wire) :
    (u.ucmbWrite wire payload w).2.sent = w.sent ++ u.writtenBytes payload := by
  have hsize : min u.pageSize payload.length = payload.length := Nat.min_eq_right hpayload
  have hcrc := u.messageCrc_convertedHdr (BitVec.ofNat 16 payload.length) payload
  have hbytes := u.bytes_convertedHdr (BitVec.ofNat 16 payload.length)
  rw [convertedHdr] at hcrc hbytes
  rw [ucmbWrite, hfree, haccess]
  simp only [Bool.not_true, Bool.false_eq_true, if_false, hsize, List.take_length, ucmbSpiWrite_wire, andThen_ok,
    getStatus_sent, hcrc, hbytes, UcmbMessageFooter.bytes, writtenBytes, List.append_assoc]

theorem framed_iff (payload : List UInt8) :
    u.Framed payload (u.writtenBytes payload) ↔
      payload.length < 2 ^ 16 ∧ Unchanged u.host (u.frameCrc (BitVec.ofNat 16 payload.length) payload) := by
  rw [← memBytes_eq_leBytes_iff]
  constructor
  · rintro ⟨len, hlen, hbytes⟩
    have hlt : payload.length < 2 ^ 16 := hlen ▸ len.isLt
    obtain rfl : len = BitVec.ofNat 16 payload.length := by
      apply BitVec.eq_of_toNat_eq
      rw [hlen, BitVec.toNat_ofNat, Nat.mod_eq_of_lt hlt]
    rw [writtenBytes] at hbytes
    exact ⟨hlt, List.append_cancel_left hbytes⟩
  · rintro ⟨hlt, hcrc⟩
    refine ⟨BitVec.ofNat 16 payload.length, ?_, ?_⟩
    · rw [BitVec.toNat_ofNat, Nat.mod_eq_of_lt hlt]
    · rw [writtenBytes, hcrc]

/-! ## Reading -/

theorem getMessage_wire {len crc : BitVec 16} {buf : List UInt8} (hbuf : buf.length = len.toNat) {size : ℕ}
    (hsize : len.toNat ≤ size) (sent rest : List UInt8) :
    u.getMessage wire size ⟨sent, leBytes ucmbMagic ++ leBytes len ++ buf ++ memBytes u.host crc ++ rest⟩ =
      (.ok (u.convertedHdr len, buf, ⟨crc⟩), ⟨sent, rest⟩) := by
  have hhdr := ucmbSpiRead_wire u.chunkSize (leBytes ucmbMagic ++ leBytes len) (buf ++ (memBytes u.host crc ++ rest)) sent
  have hpayload := ucmbSpiRead_wire u.chunkSize buf (memBytes u.host crc ++ rest) sent
  have hfooter := ucmbSpiRead_wire u.chunkSize (memBytes u.host crc) rest sent
  have hfour : (leBytes ucmbMagic ++ leBytes len).length = 4 := rfl
  have hlen : (le16ToCpu u.host (u.convertedHdr len).len).toNat = len.toNat := by
    rw [convertedHdr, le16ToCpu_cpuToLe16]
  rw [hfour] at hhdr
  rw [hbuf] at hpayload
  rw [length_memBytes] at hfooter
  have hmagic : ¬(u.convertedHdr len).magic ≠ cpuToLe16 u.host ucmbMagic := fun h => h rfl
  have hfits : ¬size < (le16ToCpu u.host (u.convertedHdr len).len).toNat := by
    rw [hlen]
    exact Nat.not_lt.mpr hsize
  rw [getMessage, List.append_assoc, List.append_assoc _ buf, hhdr, andThen_ok]
  simp only [ofBytes_convertedHdr]
  rw [if_neg hmagic, if_neg hfits, hlen, hpayload, andThen_ok, hfooter, andThen_ok, UcmbMessageFooter.ofBytes,
    ofMemBytes_memBytes]

@[simp] theorem sendStatus_wire (code : UcmbStatusCode) (ret : Except Errno ℕ) (user : List UInt8) (w : Wire) :
    u.sendStatus wire code ret user w =
      ⟨ret, user, { w with sent := w.sent ++ (leBytes ucmbMagic ++ memBytes u.host code.code) }⟩ := by
  simp only [sendStatus, ucmbSpiWrite_wire, UcmbStatus.bytes, memBytes_cpuToLe16]

/-- A message is taken if its footer, converted, is the CRC. -/
theorem ucmbRead_wire (hfree : u.freePage = true) (haccess : u.userAccess = true) {len crc : BitVec 16} {buf : List UInt8}
    (hbuf : buf.length = len.toNat) {size : ℕ} (hsize : len.toNat ≤ min size u.pageSize) (sent rest : List UInt8) :
    u.ucmbRead wire size ⟨sent, leBytes ucmbMagic ++ leBytes len ++ buf ++ memBytes u.host crc ++ rest⟩ =
      if u.frameCrc len buf ≠ le16ToCpu u.host crc then
        ⟨.error .eproto, [], ⟨sent ++ (leBytes ucmbMagic ++ memBytes u.host UcmbStatusCode.ecrc.code), rest⟩⟩
      else
        ⟨.ok len.toNat, buf, ⟨sent ++ (leBytes ucmbMagic ++ memBytes u.host UcmbStatusCode.ok.code), rest⟩⟩ := by
  have hlen : (le16ToCpu u.host (u.convertedHdr len).len).toNat = len.toNat := by
    rw [convertedHdr, le16ToCpu_cpuToLe16]
  rw [ucmbRead, hfree, haccess, getMessage_wire hbuf hsize]
  simp only [Bool.not_true, Bool.false_eq_true, if_false, messageCrc_convertedHdr, sendStatus_wire, hlen]

theorem sendStatus_ret {σ : Type} {spi : SpiDevice σ} {code : UcmbStatusCode} {ret : Except Errno ℕ} {user : List UInt8}
    {s : σ} {n : ℕ} (h : (u.sendStatus spi code ret user s).ret = .ok n) : ret = .ok n := by
  simp only [sendStatus] at h
  split at h
  · cases h
  · exact h

/-- A length that is returned is one of 16 bits. -/
theorem ret_lt {σ : Type} {spi : SpiDevice σ} {size n : ℕ} {s : σ} (h : (u.ucmbRead spi size s).ret = .ok n) :
    n < 2 ^ 16 := by
  rw [ucmbRead] at h
  split at h
  · cases h
  · rcases hmessage : u.getMessage spi (min size u.pageSize) s with ⟨res, s'⟩
    rw [hmessage] at h
    rcases res with err | ⟨hdr, buf, footer⟩
    · cases h
    · dsimp only at h
      split at h
      · cases sendStatus_ret h
      · split at h
        · cases sendStatus_ret h
        · cases sendStatus_ret h
          exact (le16ToCpu u.host hdr.len).isLt

theorem code_ok_bytes (host : Endian) : memBytes host UcmbStatusCode.ok.code = leBytes UcmbStatusCode.ok.code := by
  rw [memBytes_eq_leBytes_iff]
  exact Or.inr rfl

theorem code_ecrc_bytes_iff (host : Endian) :
    memBytes host UcmbStatusCode.ecrc.code = leBytes UcmbStatusCode.ecrc.code ↔ host = .little := by
  have hswab : swab16 UcmbStatusCode.ecrc.code ≠ UcmbStatusCode.ecrc.code := by decide
  rw [memBytes_eq_leBytes_iff, Unchanged]
  simp [hswab]

/-- What was written is read again, with the status for it. -/
theorem read_written_iff (hfree : u.freePage = true) (haccess : u.userAccess = true) {payload : List UInt8}
    (hpayload : payload.length ≤ u.pageSize) {size : ℕ} (hsize : payload.length ≤ size) (sent rest : List UInt8) :
    u.ucmbRead wire size ⟨sent, u.writtenBytes payload ++ rest⟩ =
        ⟨.ok payload.length, payload, ⟨sent ++ (leBytes ucmbMagic ++ leBytes UcmbStatusCode.ok.code), rest⟩⟩ ↔
      payload.length < 2 ^ 16 ∧ Unchanged u.host (u.frameCrc (BitVec.ofNat 16 payload.length) payload) := by
  by_cases hlt : payload.length < 2 ^ 16
  · have hlen : payload.length = (BitVec.ofNat 16 payload.length).toNat := by
      rw [BitVec.toNat_ofNat, Nat.mod_eq_of_lt hlt]
    rw [writtenBytes, ucmbRead_wire hfree haccess hlen (by omega), code_ok_bytes, ← hlen, ← cpuToLe16_eq_iff]
    by_cases hcrc : u.frameCrc (BitVec.ofNat 16 payload.length) payload =
        le16ToCpu u.host (u.frameCrc (BitVec.ofNat 16 payload.length) payload)
    · rw [if_neg (fun h => h hcrc)]
      exact iff_of_true rfl ⟨hlt, hcrc.symm⟩
    · rw [if_pos hcrc]
      exact iff_of_false (fun h => by cases h) (fun h => hcrc h.2.symm)
  · constructor
    · intro h
      exact absurd (ret_lt (congrArg Received.ret h)) hlt
    · intro h
      exact absurd h.1 hlt
end Setup

/-- The bytes that are written are the declared ones, and what is written is read again, if the payload is shorter
than 65536 bytes and the host is little-endian or the two bytes of the CRC are the same. A message with another CRC
is refused, and the answer is the declared one on a little-endian host only. -/
theorem ucmb_codec (u : Setup) (hfree : u.freePage = true) (haccess : u.userAccess = true) (payload : List UInt8)
    (hpayload : payload.length ≤ u.pageSize) :
    (∀ w, ∃ bytes, (u.ucmbWrite wire payload w).2.sent = w.sent ++ bytes ∧
      (u.Framed payload bytes ↔
        payload.length < 2 ^ 16 ∧ Unchanged u.host (u.frameCrc (BitVec.ofNat 16 payload.length) payload)) ∧
      ∀ size sent rest, payload.length ≤ size →
        (u.ucmbRead wire size ⟨sent, bytes ++ rest⟩ =
            ⟨.ok payload.length, payload, ⟨sent ++ (leBytes ucmbMagic ++ leBytes UcmbStatusCode.ok.code), rest⟩⟩ ↔
          payload.length < 2 ^ 16 ∧ Unchanged u.host (u.frameCrc (BitVec.ofNat 16 payload.length) payload))) ∧
    ∀ (len crc : BitVec 16) size sent rest, payload.length = len.toNat → payload.length ≤ size →
      crc ≠ u.frameCrc len payload →
      let r := u.ucmbRead wire size ⟨sent, leBytes ucmbMagic ++ leBytes len ++ payload ++ leBytes crc ++ rest⟩
      r.ret = .error .eproto ∧ r.user = [] ∧
        (r.state.sent = sent ++ (leBytes ucmbMagic ++ leBytes UcmbStatusCode.ecrc.code) ↔ u.host = .little) := by
  constructor
  · intro w
    exact ⟨u.writtenBytes payload, Setup.ucmbWrite_sent hfree haccess hpayload w, Setup.framed_iff payload,
      fun size sent rest hsize => Setup.read_written_iff hfree haccess hpayload hsize sent rest⟩
  · intro len crc size sent rest hlen hsize hcrc
    have hfits : len.toNat ≤ min size u.pageSize := by omega
    have hread := @Setup.ucmbRead_wire u hfree haccess len (cpuToLe16 u.host crc) payload hlen size hfits sent rest
    rw [memBytes_cpuToLe16, le16ToCpu_cpuToLe16, if_pos (Ne.symm hcrc)] at hread
    dsimp only
    rw [hread]
    refine ⟨rfl, rfl, ?_⟩
    rw [← Setup.code_ecrc_bytes_iff]
    constructor
    · intro h
      exact List.append_cancel_left (List.append_cancel_left h)
    · intro h
      rw [h]

/-- The CRC-16 that the bus uses, bit by bit. -/
def crc16Bitwise (crc : BitVec 16) (b : UInt8) : BitVec 16 := BitVec.ofNat 16 (Crc32.byteStep 0xa001 crc.toNat b)

/-- Two bytes in chunks of three, on a little-endian host. -/
theorem ucmb_codec_two_bytes :
    let u : Setup := ⟨.little, crc16Bitwise, 4096, 3, true, true⟩
    (∃ bytes, (u.ucmbWrite wire [0x41, 0x42] ⟨[], []⟩).2.sent = bytes ∧ u.Framed [0x41, 0x42] bytes ∧
      u.ucmbRead wire 2 ⟨[], bytes⟩ = ⟨.ok 2, [0x41, 0x42], ⟨[0x37, 0x13, 0, 0], []⟩⟩) ∧
    (u.ucmbRead wire 2 ⟨[], [0x37, 0x13, 2, 0, 0x41, 0x42, 0, 0]⟩).state.sent = [0x37, 0x13, 4, 0] := by
  intro u
  obtain ⟨hwritten, hrefused⟩ := ucmb_codec u rfl rfl [0x41, 0x42] (by decide)
  obtain ⟨bytes, hsent, hframed, hread⟩ := hwritten ⟨[], []⟩
  have hback := (hread 2 [] [] (by decide)).mpr ⟨by decide, Or.inl rfl⟩
  rw [List.append_nil] at hback
  exact ⟨⟨bytes, hsent, hframed.mpr ⟨by decide, Or.inl rfl⟩, hback⟩,
    (hrefused 2#16 0#16 2 [] [] rfl (by decide) (by decide)).2.2.mpr rfl⟩

/-- On a big-endian host an `A` is sent with the CRC the other way round, is not read again, and the code of the
answer lies the other way round too. -/
theorem ucmb_codec_big_endian :
    let u : Setup := ⟨.big, crc16Bitwise, 4096, 0, true, true⟩
    let bytes := (u.ucmbWrite wire [0x41] ⟨[], []⟩).2.sent
    ¬u.Framed [0x41] bytes ∧ (u.ucmbRead wire 1 ⟨[], bytes⟩).ret = .error .eproto ∧
      (u.ucmbRead wire 1 ⟨[], [0x37, 0x13, 1, 0, 0x41, 0, 0]⟩).state.sent = [0x37, 0x13, 0, 4] := by
  intro u bytes
  refine ⟨?_, by decide, by decide⟩
  have hbytes : bytes = u.writtenBytes [0x41] := by decide
  rw [hbytes, Setup.framed_iff]
  rintro ⟨-, hhost | hcrc⟩
  · cases hhost
  · revert hcrc
    decide

end Neufbox.Ucmb
