import Neufbox.Library.HostWords

/-! # The microcontroller message bus

`ucmb.c`: a message is a header, a payload and a CRC, sent over SPI in chunks, and a read is answered with a
status. The fields are declared little-endian. The host's byte order, the page size, the CRC and the SPI
device are parameters. -/
namespace Neufbox.Ucmb
open Library.HostWords
set_option autoImplicit false
set_option maxHeartbeats 250000
set_option maxRecDepth 120000

/-! ## Transfers -/

inductive Errno
  | enomem | efault | eproto | enobufs | e2big | ebadmsg | ebusy | eio
  deriving DecidableEq, Repr

/-- `spi_write` and `spi_read`, on the states of a device. -/
structure SpiDevice (σ : Type) where
  spiWrite : List UInt8 → σ → Except Errno Unit × σ
  spiRead : ℕ → σ → Except Errno (List UInt8) × σ

/-- On to the next step, or out with the error. -/
def andThen {σ α β : Type} (r : Except Errno α × σ) (f : α → σ → Except Errno β × σ) : Except Errno β × σ :=
  match r with
  | (.error err, s) => (.error err, s)
  | (.ok a, s) => f a s

section Transfers
variable {σ : Type} (spi : SpiDevice σ) (chunkSize : ℕ)

/-- The loop of `ucmb_spi_write`; the second number bounds its turns. -/
def writeChunks (chunk : ℕ) : ℕ → List UInt8 → σ → Except Errno Unit × σ
  | 0, _, s => (.ok (), s)
  | k + 1, buf, s =>
      if buf = [] then (.ok (), s)
      else andThen (spi.spiWrite (buf.take chunk) s) fun _ s => writeChunks chunk k (buf.drop chunk) s

def ucmbSpiWrite (buf : List UInt8) (s : σ) : Except Errno Unit × σ :=
  writeChunks spi (if chunkSize = 0 then buf.length else chunkSize) buf.length buf s

/-- The loop of `ucmb_spi_read`, with the number of bytes that are left. -/
def readChunks (chunk : ℕ) : ℕ → ℕ → σ → Except Errno (List UInt8) × σ
  | 0, _, s => (.ok [], s)
  | k + 1, left, s =>
      if left = 0 then (.ok [], s)
      else andThen (spi.spiRead (min chunk left) s) fun bytes s =>
        andThen (readChunks chunk k (left - chunk) s) fun rest s => (.ok (bytes ++ rest), s)

def ucmbSpiRead (size : ℕ) (s : σ) : Except Errno (List UInt8) × σ :=
  readChunks spi (if chunkSize = 0 then size else chunkSize) size size s

end Transfers

/-! ## Messages -/

def ucmbMagic : BitVec 16 := 0x1337#16

inductive UcmbStatusCode
  | ok | eproto | enomem | e2big | ecrc
  deriving DecidableEq, Repr

def UcmbStatusCode.code : UcmbStatusCode → BitVec 16
  | .ok => 0#16
  | .eproto => 1#16
  | .enomem => 2#16
  | .e2big => 3#16
  | .ecrc => 4#16

def ucmbStatusCodeToErrno (code : BitVec 16) : Option Errno :=
  if code = UcmbStatusCode.ok.code then none
  else if code = UcmbStatusCode.eproto.code then some .eproto
  else if code = UcmbStatusCode.enomem.code then some .enomem
  else if code = UcmbStatusCode.e2big.code then some .e2big
  else if code = UcmbStatusCode.ecrc.code then some .ebadmsg
  else some .ebusy

/-- The structures as the driver has them in memory: the fields are words of the host. -/
structure UcmbMessageHdr where
  magic : BitVec 16
  len : BitVec 16
  deriving DecidableEq, Repr

structure UcmbMessageFooter where
  crc : BitVec 16
  deriving DecidableEq, Repr

structure UcmbStatus where
  magic : BitVec 16
  code : BitVec 16
  deriving DecidableEq, Repr

section Layout
variable (host : Endian)

def UcmbMessageHdr.bytes (hdr : UcmbMessageHdr) : List UInt8 := memBytes host hdr.magic ++ memBytes host hdr.len

def UcmbMessageHdr.ofBytes (bs : List UInt8) : UcmbMessageHdr :=
  ⟨ofMemBytes host (bs.take 2), ofMemBytes host (bs.drop 2)⟩

def UcmbMessageFooter.bytes (footer : UcmbMessageFooter) : List UInt8 := memBytes host footer.crc

def UcmbMessageFooter.ofBytes (bs : List UInt8) : UcmbMessageFooter := ⟨ofMemBytes host bs⟩

def UcmbStatus.bytes (status : UcmbStatus) : List UInt8 := memBytes host status.magic ++ memBytes host status.code

def UcmbStatus.ofBytes (bs : List UInt8) : UcmbStatus :=
  ⟨ofMemBytes host (bs.take 2), ofMemBytes host (bs.drop 2)⟩

end Layout

/-! ## Reading and writing -/

/-- What stays the same while the driver is open. `freePage` and `userAccess` say whether the page can be had and
the user's buffer can be copied. -/
structure Setup where
  host : Endian
  crc16Byte : BitVec 16 → UInt8 → BitVec 16
  pageSize : ℕ
  chunkSize : ℕ
  freePage : Bool
  userAccess : Bool

namespace Setup
variable (u : Setup) {σ : Type} (spi : SpiDevice σ)

def crc16 (crc : BitVec 16) (bs : List UInt8) : BitVec 16 := bs.foldl u.crc16Byte crc

/-- The CRC of a message, from the header as it lies in memory and the payload. -/
def messageCrc (hdr : UcmbMessageHdr) (buf : List UInt8) : BitVec 16 :=
  u.crc16 (u.crc16 0xffff#16 (hdr.bytes u.host)) buf ^^^ 0xffff#16

/-- The second part of `ucmb_write`, from the reading of the status on. -/
def getStatus (size : ℕ) (s : σ) : Except Errno ℕ × σ :=
  andThen (ucmbSpiRead spi u.chunkSize 4 s) fun bytes s =>
    let status := UcmbStatus.ofBytes u.host bytes
    if status.magic ≠ cpuToLe16 u.host ucmbMagic then (.error .eproto, s)
    else
      match ucmbStatusCodeToErrno (le16ToCpu u.host status.code) with
      | some err => (.error err, s)
      | none => (.ok size, s)

def ucmbWrite (userBuf : List UInt8) (s : σ) : Except Errno ℕ × σ :=
  if !u.freePage then (.error .enomem, s)
  else
    let size := min u.pageSize userBuf.length
    if !u.userAccess then (.error .efault, s)
    else
      let buf := userBuf.take size
      let hdr : UcmbMessageHdr := ⟨cpuToLe16 u.host ucmbMagic, cpuToLe16 u.host (BitVec.ofNat 16 size)⟩
      let footer : UcmbMessageFooter := ⟨u.messageCrc hdr buf⟩
      andThen (ucmbSpiWrite spi u.chunkSize (hdr.bytes u.host) s) fun _ s =>
        andThen (ucmbSpiWrite spi u.chunkSize buf s) fun _ s =>
          andThen (ucmbSpiWrite spi u.chunkSize (footer.bytes u.host) s) fun _ s =>
            u.getStatus spi size s

/-- What `ucmb_read` takes from the bus: the header, the payload and the footer. -/
def getMessage (size : ℕ) (s : σ) : Except Errno (UcmbMessageHdr × List UInt8 × UcmbMessageFooter) × σ :=
  andThen (ucmbSpiRead spi u.chunkSize 4 s) fun bytes s =>
    let hdr := UcmbMessageHdr.ofBytes u.host bytes
    if hdr.magic ≠ cpuToLe16 u.host ucmbMagic then (.error .eproto, s)
    else if size < (le16ToCpu u.host hdr.len).toNat then (.error .enobufs, s)
    else
      let size := (le16ToCpu u.host hdr.len).toNat
      andThen (ucmbSpiRead spi u.chunkSize size s) fun buf s =>
        andThen (ucmbSpiRead spi u.chunkSize 2 s) fun bytes s =>
          (.ok (hdr, buf, UcmbMessageFooter.ofBytes u.host bytes), s)

/-- A result of `ucmb_read`: what it returns, and what it has put into the user's buffer. -/
structure Received (σ : Type) where
  ret : Except Errno ℕ
  user : List UInt8
  state : σ

/-- `out_send_status`: the code goes into the status as it is. -/
def sendStatus (code : UcmbStatusCode) (ret : Except Errno ℕ) (user : List UInt8) (s : σ) : Received σ :=
  let status : UcmbStatus := ⟨cpuToLe16 u.host ucmbMagic, code.code⟩
  match ret, ucmbSpiWrite spi u.chunkSize (status.bytes u.host) s with
  | .ok _, (.error res, s) => ⟨.error res, user, s⟩
  | ret, (_, s) => ⟨ret, user, s⟩

def ucmbRead (size : ℕ) (s : σ) : Received σ :=
  if !u.freePage then ⟨.error .enomem, [], s⟩
  else
    match u.getMessage spi (min size u.pageSize) s with
    | (.error err, s) => ⟨.error err, [], s⟩
    | (.ok (hdr, buf, footer), s) =>
        if u.messageCrc hdr buf ≠ le16ToCpu u.host footer.crc then u.sendStatus spi .ecrc (.error .eproto) [] s
        else if !u.userAccess then u.sendStatus spi .enomem (.error .efault) [] s
        else u.sendStatus spi .ok (.ok (le16ToCpu u.host hdr.len).toNat) buf s

end Setup

/-! ## A bus that transfers what it is given -/

/-- What was sent, and what is still to come. -/
structure Wire where
  sent : List UInt8
  incoming : List UInt8
  deriving DecidableEq, Repr

/-- Every byte is transferred; a read fails if too few bytes come. -/
def wire : SpiDevice Wire where
  spiWrite bs w := (.ok (), { w with sent := w.sent ++ bs })
  spiRead n w :=
    if n ≤ w.incoming.length then (.ok (w.incoming.take n), { w with incoming := w.incoming.drop n })
    else (.error .eio, w)

@[simp] theorem andThen_ok {σ α β : Type} (a : α) (s : σ) (f : α → σ → Except Errno β × σ) :
    andThen (.ok a, s) f = f a s := rfl

@[simp] theorem andThen_error {σ α β : Type} (err : Errno) (s : σ) (f : α → σ → Except Errno β × σ) :
    andThen (.error err, s) f = (.error err, s) := rfl

theorem writeChunks_wire {chunk k : ℕ} {buf : List UInt8} (hchunk : buf ≠ [] → 0 < chunk) (hk : buf.length ≤ k)
    (w : Wire) : writeChunks wire chunk k buf w = (.ok (), { w with sent := w.sent ++ buf }) := by
  induction k generalizing buf w with
  | zero =>
    obtain rfl := List.length_eq_zero_iff.mp (Nat.le_zero.mp hk)
    rw [List.append_nil]
    rfl
  | succ k ih =>
    rw [writeChunks]
    by_cases hbuf : buf = []
    · rw [if_pos hbuf, hbuf, List.append_nil]
    · have hpos := hchunk hbuf
      have hlen : (buf.drop chunk).length ≤ k := by
        rw [List.length_drop]
        omega
      rw [if_neg hbuf, wire, andThen_ok]
      show writeChunks wire chunk k _ _ = _
      rw [ih (fun _ => hpos) hlen, List.append_assoc, List.take_append_drop]

theorem readChunks_wire {chunk k left : ℕ} (hchunk : left ≠ 0 → 0 < chunk) (hk : left ≤ k) {w : Wire}
    (hcome : left ≤ w.incoming.length) :
    readChunks wire chunk k left w = (.ok (w.incoming.take left), { w with incoming := w.incoming.drop left }) := by
  induction k generalizing left w with
  | zero =>
    obtain rfl := Nat.le_zero.mp hk
    rfl
  | succ k ih =>
    rw [readChunks]
    by_cases hleft : left = 0
    · rw [if_pos hleft, hleft]
      rfl
    · have hpos := hchunk hleft
      have hfirst : wire.spiRead (min chunk left) w =
          (.ok (w.incoming.take (min chunk left)), { w with incoming := w.incoming.drop (min chunk left) }) :=
        if_pos (by omega)
      have hrest : left - chunk ≤ (w.incoming.drop (min chunk left)).length := by
        rw [List.length_drop]
        omega
      have hsum : min chunk left + (left - chunk) = left := by omega
      rw [if_neg hleft, hfirst, andThen_ok, ih (fun _ => hpos) (by omega) hrest, andThen_ok, ← List.take_add,
        List.drop_drop, hsum]

/-- A read sends nothing. -/
theorem readChunks_sent (chunk k left : ℕ) (w : Wire) : (readChunks wire chunk k left w).2.sent = w.sent := by
  induction k generalizing left w with
  | zero => rfl
  | succ k ih =>
    rw [readChunks]
    split
    · rfl
    · by_cases hcome : min chunk left ≤ w.incoming.length
      · have hfirst : wire.spiRead (min chunk left) w =
            (.ok (w.incoming.take (min chunk left)), { w with incoming := w.incoming.drop (min chunk left) }) :=
          if_pos hcome
        have hrest := ih (left - chunk) { w with incoming := w.incoming.drop (min chunk left) }
        rw [hfirst, andThen_ok]
        rcases hread : readChunks wire chunk k (left - chunk) { w with incoming := w.incoming.drop (min chunk left) }
          with ⟨res, w'⟩
        rw [hread] at hrest
        cases res <;> exact hrest
      · have hfirst : wire.spiRead (min chunk left) w = (.error .eio, w) := if_neg hcome
        rw [hfirst, andThen_error]

/-- Whatever the chunk size, a write sends the bytes it is given. -/
@[simp] theorem ucmbSpiWrite_wire (chunkSize : ℕ) (buf : List UInt8) (w : Wire) :
    ucmbSpiWrite wire chunkSize buf w = (.ok (), { w with sent := w.sent ++ buf }) := by
  apply writeChunks_wire _ (Nat.le_refl _)
  intro hbuf
  have hpos := List.length_pos_of_ne_nil hbuf
  split <;> omega

/-- Whatever the chunk size, a read takes the bytes that come first. -/
theorem ucmbSpiRead_wire (chunkSize : ℕ) (bs rest sent : List UInt8) :
    ucmbSpiRead wire chunkSize bs.length ⟨sent, bs ++ rest⟩ = (.ok bs, ⟨sent, rest⟩) := by
  have hread : ucmbSpiRead wire chunkSize bs.length ⟨sent, bs ++ rest⟩ =
      (.ok ((bs ++ rest).take bs.length), ⟨sent, (bs ++ rest).drop bs.length⟩) := by
    apply readChunks_wire _ (Nat.le_refl _) (by simp)
    intro hlen
    split <;> omega
  rw [hread, List.take_left, List.drop_left]

end Neufbox.Ucmb
