import Neufbox.Library.Blocks
import Neufbox.Library.ByteStore
import Neufbox.Library.OnesComplement

/-! # The stateless IP/ICMP translator

`siit.c`: `ip4_ip6` and `ip6_ip4` translate a packet in a buffer into another buffer. An ICMP error has the packet
that caused it inside, which is translated by a call of the same function; in that call an ICMP error is dropped, so
there is no third one.

A read or write outside of a buffer and a copy of negative length are faults of their own here. The kernel's checksum
functions are parameters. -/
namespace Neufbox.Siit
open Blocks ByteStore OnesComplement
set_option autoImplicit false
set_option maxHeartbeats 250000
set_option maxRecDepth 120000

/-! ## Buffers -/

/-- Why there is no result: the code returns -1, leaves a buffer, copies a negative length, or does not end. -/
inductive Fault
  | dropped
  | outOfBounds
  | negativeLength
  | endless
  deriving DecidableEq, Repr

abbrev Run := Except Fault

def byte (m : List UInt8) (i : ℕ) : UInt8 := m.getD i 0

/-- `ntohs` of a field. -/
def field16 (m : List UInt8) (i : ℕ) : ℕ := 256 * (byte m i).toNat + (byte m (i + 1)).toNat

/-- A field of four bytes as it is. -/
def bytes4 (m : List UInt8) (i : ℕ) : List UInt8 := [byte m i, byte m (i + 1), byte m (i + 2), byte m (i + 3)]

def inside (m : List UInt8) (i n : ℕ) : Run Unit := if i + n ≤ m.length then .ok () else .error .outOfBounds

/-- The cells that a function with an `int` length reads. -/
def region (m : List UInt8) (i : ℕ) (n : ℤ) : Run (List UInt8) :=
  if n < 0 then .error .negativeLength
  else if i + n.toNat ≤ m.length then .ok ((m.drop i).take n.toNat) else .error .outOfBounds

def write (m : List UInt8) (i : ℕ) (bs : List UInt8) : Run (List UInt8) :=
  if i + bs.length ≤ m.length then .ok (overlay m i bs) else .error .outOfBounds

def memcpy (dst : List UInt8) (d : ℕ) (src : List UInt8) (s : ℕ) (n : ℤ) : Run (List UInt8) := do
  write dst d (← region src s n)

/-- `htons` of an `int`. -/
def htons (n : ℤ) : List UInt8 := half (n % 65536).toNat

/-- The checksum functions of the kernel, with sums in network byte order. -/
structure Checksums where
  csumPartial : List UInt8 → ℕ → ℕ
  csumIpv6Magic : List UInt8 → List UInt8 → ℤ → UInt8 → ℕ → ℕ
  ipFastCsum : List UInt8 → ℕ
  ipComputeCsum : List UInt8 → ℕ

/-! ## Constants -/

def protoIcmp : UInt8 := 1
def protoTcp : UInt8 := 6
def protoUdp : UInt8 := 17

def ipDf : ℕ := 0x4000
def ipMf : ℕ := 0x2000
def ipOffset : ℕ := 0x1fff

def nexthdrHop : UInt8 := 0
def nexthdrRouting : UInt8 := 43
def nexthdrFragment : UInt8 := 44
def nexthdrIcmp : UInt8 := 58
def nexthdrNone : UInt8 := 59
def nexthdrDest : UInt8 := 60

def translatedPrefix : ℕ := 0x0000ffff
def mappedPrefix : ℕ := 0x0000ffff

/-! ## IPv4 to IPv6 -/

/-- The protocol as a next header. -/
def protocolNexthdr (protocol : UInt8) : UInt8 := if protocol = protoIcmp then nexthdrIcmp else protocol

/-- `frag_off` of the fragment header: the offset, and the flag for more fragments. -/
def fragOff6 (fragOff : ℕ) : ℕ := (fragOff &&& ipOffset) <<< 3 ||| (fragOff &&& ipMf) >>> 13

def fragHeader (src : List UInt8) (s : ℕ) : List UInt8 :=
  [protocolNexthdr (byte src (s + 9)), 0] ++ half (fragOff6 (field16 src (s + 6))) ++
    beBytes (field16 src (s + 4))

/-- Version, traffic class and flow label. -/
def versionBytes (tosIgnoreFlag : Bool) (tos : UInt8) : List UInt8 :=
  if tosIgnoreFlag then [0x60, 0, 0, 0] else [(0x60 : UInt8) ||| (tos &&& 0xf0) >>> 4, (tos &&& 0x0f) <<< 4, 0, 0]

def ip6Header (tosIgnoreFlag : Bool) (src : List UInt8) (s : ℕ) (sourcePrefix destPrefix : ℕ) (plen : ℤ)
    (nexthdr : UInt8) : List UInt8 :=
  versionBytes tosIgnoreFlag (byte src (s + 1)) ++ htons plen ++ [nexthdr, byte src (s + 8)] ++
    beBytes 0 ++ beBytes 0 ++ beBytes sourcePrefix ++ bytes4 src (s + 12) ++
    beBytes 0 ++ beBytes 0 ++ beBytes destPrefix ++ bytes4 src (s + 16)

/-- Where an ICMPv4 parameter problem points to in the IPv6 header. -/
def pointer6 (ptr : UInt8) : ℕ :=
  if ptr = 0 then 0 else if ptr = 2 then 4 else if ptr = 8 then 7 else if ptr = 9 then 6
  else if ptr = 12 then 8 else if ptr = 16 then 24 else 0xffffffff

/-- The fields that are set in the header of an ICMPv6 error, at their offsets. -/
def icmp6Error (src : List UInt8) (icmp : ℕ) : Run (List (ℕ × List UInt8)) :=
  let type := byte src icmp
  if type = 3 then do
    inside src (icmp + 1) 1
    let code := byte src (icmp + 1)
    if code ∈ [0, 1, 5, 6, 7, 8, 11, 12] then return [(0, [1]), (4, beBytes 0), (1, [0])]
    else if code = 2 then return [(0, [1]), (4, beBytes 0), (0, [4]), (1, [1]), (4, beBytes 6)]
    else if code = 3 then return [(0, [1]), (4, beBytes 0), (1, [4])]
    else if code = 4 then do
      inside src (icmp + 6) 2
      let mtu := field16 src (icmp + 6)
      return [(0, [1]), (4, beBytes 0), (0, [2]), (1, [0]), (4, beBytes (if mtu = 0 then 576 else mtu + 20))]
    else if code = 9 ∨ code = 10 then return [(0, [1]), (4, beBytes 0), (1, [1])]
    else throw .dropped
  else if type = 11 then do
    inside src (icmp + 1) 1
    return [(0, [3]), (1, [byte src (icmp + 1)])]
  else if type = 12 then do
    inside src (icmp + 1) 5
    return [(0, [4]), (1, [byte src (icmp + 1)]), (4, beBytes (pointer6 (byte src (icmp + 4))))]
  else .error .dropped

/-- The fields of a header, one after the other. -/
def writeFields (dst : List UInt8) (d : ℕ) (fields : List (ℕ × List UInt8)) : Run (List UInt8) :=
  fields.foldlM (fun dst w => write dst (d + w.1) w.2) dst

/-- The checksum behind an IPv6 header: the field is cleared, and then set. -/
def checksum6 (k : Checksums) (dst : List UInt8) (d at6 field : ℕ) (len : ℤ) (proto : UInt8) : Run (List UInt8) := do
  let dst ← write dst (at6 + field) (half 0)
  let body ← region dst at6 len
  write dst (at6 + field) (half (k.csumIpv6Magic ((dst.drop (d + 8)).take 16) ((dst.drop (d + 24)).take 16) len proto
    (k.csumPartial body 0)))

/-- The call for the packet inside an ICMP error: where it is, its length, and where it goes to. -/
abbrev Inner (α : Type) := ℕ → ℤ → List UInt8 → ℕ → Run α

section Ip4Ip6
variable (k : Checksums) (inner : Inner (List UInt8)) (src : List UInt8) (s : ℕ) (len : ℤ) (dst : List UInt8) (d : ℕ)

/-- `case IPPROTO_ICMP` -/
def icmp4Icmp6 (includeFlag : Bool) (hdrLen fr : ℕ) (plen : ℤ) : Run (List UInt8) :=
  let fragOff := field16 src (s + 6)
  let icmp := s + hdrLen
  let icmp6 := d + 40 + fr
  let icmpLen : ℤ := field16 src (s + 2) - hdrLen
  if fragOff &&& ipOffset ≠ 0 ∨ fragOff &&& ipMf ≠ 0 ∨ includeFlag then .error .dropped
  else do
    inside src icmp 1
    let type := byte src icmp
    if type = 8 ∨ type = 0 then do
      let dst ← write dst icmp6 [if type = 8 then 128 else 129, 0]
      let dst ← memcpy dst (icmp6 + 4) src (icmp + 4) (len - hdrLen - 4)
      checksum6 k dst d icmp6 2 icmpLen nexthdrIcmp
    else do
      let dst ← writeFields dst icmp6 (← icmp6Error src icmp)
      let dst ← inner (icmp + 8) (len - hdrLen - 8) dst (icmp6 + 8)
      let dst ← write dst (d + 4) (htons (plen + 20))
      checksum6 k dst d icmp6 2 (icmpLen + 20) nexthdrIcmp

/-- `case IPPROTO_UDP`: a checksum that is missing is computed, but not for a fragment. -/
def udp4Udp6 (includeFlag : Bool) (hdrLen fr : ℕ) (plen : ℤ) : Run (List UInt8) := do
  let fragOff := field16 src (s + 6)
  let flCsum ←
    if fragOff &&& ipOffset = 0 then do
      inside src (s + hdrLen + 6) 2
      if field16 src (s + hdrLen + 6) ≠ 0 then pure false
      else if fragOff &&& ipMf ≠ 0 then throw .dropped
      else pure true
    else pure false
  let dst ← memcpy dst (d + 40 + fr) src (s + hdrLen) (len - hdrLen)
  if flCsum ∧ ¬includeFlag then checksum6 k dst d (d + 40 + fr) 6 (plen - fr) protoUdp else return dst

def ip4Ip6Body (tosIgnoreFlag includeFlag : Bool) : Run (List UInt8) := do
  inside src s 20
  let hdrLen := 4 * (byte src s &&& 0x0f).toNat
  let protocol := byte src (s + 9)
  let frag : Bool := ¬(field16 src (s + 6) = ipDf ∨ includeFlag)
  let fr := if frag then 8 else 0
  let plen : ℤ := ((field16 src (s + 2) + fr) % 65536 : ℕ) - hdrLen
  let dst ← if frag then write dst (d + 40) (fragHeader src s) else pure dst
  let dst ← write dst d (ip6Header tosIgnoreFlag src s (if includeFlag then translatedPrefix else mappedPrefix)
    (if includeFlag then mappedPrefix else translatedPrefix) plen
    (if frag then nexthdrFragment else protocolNexthdr protocol))
  if protocol = protoIcmp then icmp4Icmp6 k inner src s len dst d includeFlag hdrLen fr plen
  else if protocol = protoTcp then memcpy dst (d + 40 + fr) src (s + hdrLen) (len - hdrLen)
  else if protocol = protoUdp then udp4Udp6 k src s len dst d includeFlag hdrLen fr plen
  else .error .dropped

end Ip4Ip6

/-- The packet inside an ICMP error. -/
def ip4Ip6Included (k : Checksums) (tosIgnoreFlag : Bool) (src : List UInt8) : Inner (List UInt8) :=
  fun s len dst d => ip4Ip6Body k (fun _ _ _ _ => .error .dropped) src s len dst d tosIgnoreFlag true

def ip4Ip6 (k : Checksums) (tosIgnoreFlag : Bool) (src : List UInt8) (len : ℤ) (dst : List UInt8) :
    Run (List UInt8) :=
  ip4Ip6Body k (ip4Ip6Included k tosIgnoreFlag src) src 0 len dst 0 tosIgnoreFlag false

/-- `skb_delta` of `siit_xmit`. -/
def skbDelta (src : List UInt8) : ℕ :=
  let icmp := 4 * (byte src 0 &&& 0x0f).toNat
  (if field16 src 6 = ipDf then 20 else 28) +
    if byte src 9 = protoIcmp ∧ byte src icmp ≠ 8 ∧ byte src icmp ≠ 0 then 20 else 0

/-! ## IPv6 to IPv4 -/

/-- The byte order of the host, which shows where the code stores a number without `htons`. -/
inductive ByteOrder
  | big
  | little
  deriving DecidableEq, Repr

/-- A 16-bit number as the host stores it. -/
def hostHalf (host : ByteOrder) (n : ℕ) : List UInt8 :=
  match host with
  | .big => half n
  | .little => (half n).reverse

/-- `(__u16)` of a 32-bit field, as the host stores it again. -/
def truncated (host : ByteOrder) (m : List UInt8) (i : ℕ) : List UInt8 :=
  match host with
  | .big => [byte m (i + 2), byte m (i + 3)]
  | .little => [byte m i, byte m (i + 1)]

/-- What is known while the extension headers are passed. -/
structure Ext where
  lenDelta : ℤ
  optsLen : ℕ
  nextHdr : UInt8
  id : ℕ
  fragOff : ℕ

/-- The length of an extension header. -/
def optLen (src : List UInt8) (i : ℕ) : ℕ := (byte src (i + 1)).toNat * 8 + 8

/-- The option header at the place reached is passed. -/
def Ext.pass (st : Ext) (src : List UInt8) (s : ℕ) : Ext :=
  let i := s + 40 + st.optsLen
  { st with
    lenDelta := st.lenDelta - optLen src i
    optsLen := st.optsLen + optLen src i
    nextHdr := byte src i }

/-- Hop-by-hop options come first. The test for the length of the header is one of unsigned numbers, which holds. -/
def hopByHop (src : List UInt8) (s : ℕ) (st : Ext) : Run Ext :=
  if st.nextHdr = nexthdrHop then do
    inside src (s + 40) 2
    if 0 ≤ st.lenDelta - optLen src (s + 40) then return st.pass src s else throw .dropped
  else .ok st

/-- `frag_off` of IPv4. -/
def fragOff4 (fragOff : ℕ) : ℕ := (fragOff &&& 0xfff8) >>> 3 ||| (fragOff &&& 0x0001) <<< 13

/-- The loop ends at a protocol, and at `NEXTHDR_NONE`. -/
def Ext.ends (st : Ext) : Prop := st.nextHdr ∈ [nexthdrIcmp, protoTcp, protoUdp, nexthdrNone]

instance Ext.ends.decidable (st : Ext) : Decidable st.ends := inferInstanceAs (Decidable (_ ∈ _))

/-- Another header: the one of a destination option is not passed when it does not fit, and met again. -/
def extStep (src : List UInt8) (s : ℕ) (st : Ext) : Run Ext :=
  let i := s + 40 + st.optsLen
  if st.nextHdr = nexthdrDest then do
    inside src i 2
    if 0 ≤ st.lenDelta - optLen src i then return st.pass src s
    else return { st with lenDelta := st.lenDelta - optLen src i }
  else if st.nextHdr = nexthdrRouting then do
    inside src i 4
    if byte src (i + 3) ≠ 0 then throw .dropped
    else if 0 ≤ st.lenDelta - optLen src i then return st.pass src s
    else throw .dropped
  else if st.nextHdr = nexthdrFragment then
    if 0 ≤ st.lenDelta - 8 then do
      inside src i 8
      return ⟨st.lenDelta - 8, st.optsLen + 8, byte src i, field16 src (i + 6), fragOff4 (field16 src (i + 2))⟩
    else .error .dropped
  else .error .dropped

/-- A header that is passed takes eight bytes at least, so a loop that takes more turns than there are bytes meets the
same header for ever. -/
def extLoop (src : List UInt8) (s : ℕ) : ℕ → Ext → Run Ext
  | 0, _ => .error .endless
  | n + 1, st => if st.ends then .ok st else do extLoop src s n (← extStep src s st)

/-- The IPv4 header before the checksum is set. -/
def ip4Header (tosIgnoreFlag : Bool) (src : List UInt8) (s : ℕ) (st : Ext) (totLen : ℤ) (protocol : UInt8)
    (check : ℕ) : List UInt8 :=
  [(0x45 : UInt8), if tosIgnoreFlag then 0 else (byte src s &&& 0x0f) <<< 4 ||| byte src (s + 1) >>> 4] ++
    htons totLen ++
    half st.id ++ half st.fragOff ++ [byte src (s + 7), protocol] ++ half check ++
    bytes4 src (s + 20) ++ bytes4 src (s + 36)

def ip4HeaderChecked (k : Checksums) (tosIgnoreFlag : Bool) (src : List UInt8) (s : ℕ) (st : Ext) (totLen : ℤ)
    (protocol : UInt8) : List UInt8 :=
  ip4Header tosIgnoreFlag src s st totLen protocol (k.ipFastCsum (ip4Header tosIgnoreFlag src s st totLen protocol 0))

/-- Where an ICMPv6 parameter problem points to in the IPv4 header. -/
def pointer4 (ptr : ℕ) : ℕ :=
  if ptr = 0 then 0 else if ptr = 4 then 2 else if ptr = 6 then 9 else if ptr = 7 then 8
  else if ptr = 8 then 12 else if ptr = 24 then 16 else 0xff

/-- The fields that are set in the header of an ICMPv4 error, at their offsets. -/
def icmp4Error (host : ByteOrder) (src : List UInt8) (icmp6 : ℕ) : Run (List (ℕ × List UInt8)) :=
  let type := byte src icmp6
  let code := byte src (icmp6 + 1)
  if type = 1 then
    if code = 0 ∨ code = 2 ∨ code = 3 then .ok [(0, [3]), (4, beBytes 0), (1, [1])]
    else if code = 1 then .ok [(0, [3]), (4, beBytes 0), (1, [10])]
    else if code = 4 then .ok [(0, [3]), (4, beBytes 0), (1, [3])]
    else .error .dropped
  else if type = 2 then .ok [(0, [3]), (1, [4]), (6, truncated host src (icmp6 + 4))]
  else if type = 3 then .ok [(0, [11]), (1, [code])]
  else if type = 4 then
    if code = 1 then .ok [(0, [3]), (1, [2])]
    else .ok [(0, [12]), (1, [0]), (4, hostHalf host (pointer4 (beWord (bytes4 src (icmp6 + 4)))))]
  else .error .dropped

section Ip6Ip4
variable (k : Checksums) (host : ByteOrder) (tosIgnoreFlag : Bool) (inner : Inner (List UInt8 × ℤ))
  (src : List UInt8) (s : ℕ) (len : ℤ) (dst : List UInt8) (d : ℕ)

/-- The checksums behind the translation of an ICMP message. -/
def icmp4Finish (st : Ext) (ntotLen totLen : ℤ) (dst : List UInt8) : Run (List UInt8) := do
  let dst ← write dst d (ip4HeaderChecked k tosIgnoreFlag src s st totLen protoIcmp)
  if ntotLen = 0 then return dst
  else do
    let dst ← write dst (d + 22) (half 0)
    let body ← region dst (d + 20) (totLen % 65536 - 20)
    write dst (d + 22) (half (k.ipComputeCsum body))

/-- `PROCESS ICMP`; `real_len` is returned too. -/
def icmp6Icmp4 (includeFlag : Bool) (st : Ext) (ntotLen : ℤ) : Run (List UInt8 × ℤ) :=
  let icmp6 := s + 40 + st.optsLen
  let icmp := d + 20
  let lenDelta := st.lenDelta - 8
  let realLen := 20 + (lenDelta + 8)
  if lenDelta < 0 then .error .dropped
  else do
    inside src icmp6 8
    let type := byte src icmp6
    if includeFlag ∧ type ≠ 128 then throw .dropped
    else if type = 128 ∨ type = 129 then do
      let dst ← write dst icmp [if type = 128 then 8 else 0, 0]
      let dst ← write dst (icmp + 4) (bytes4 src (icmp6 + 4))
      let dst ← if 0 < lenDelta then memcpy dst (icmp + 8) src (icmp6 + 8) lenDelta else pure dst
      return (← icmp4Finish k tosIgnoreFlag src s d st ntotLen ntotLen dst, realLen)
    else do
      let dst ← writeFields dst icmp (← icmp4Error host src icmp6)
      if 40 ≤ lenDelta then do
        let (dst, incOptsLen) ← inner (icmp6 + 8) lenDelta dst (icmp + 8)
        let totLen := if ntotLen ≠ 0 then ntotLen - incOptsLen - 20 else ntotLen
        return (← icmp4Finish k tosIgnoreFlag src s d st ntotLen totLen dst, realLen - incOptsLen - 20)
      else do
        let dst ← if 0 < lenDelta then memcpy dst (icmp + 8) src (icmp6 + 8) lenDelta else pure dst
        return (← icmp4Finish k tosIgnoreFlag src s d st ntotLen ntotLen dst, realLen)

def ip6Ip4Body (includeFlag : Bool) : Run (List UInt8 × ℤ) :=
  if len - 40 < 0 then .error .dropped
  else do
    inside src s 40
    if bytes4 src (s + 16) ≠ beBytes (if includeFlag then mappedPrefix else translatedPrefix) then throw .dropped
    else if bytes4 src (s + 32) ≠ beBytes (if includeFlag then translatedPrefix else mappedPrefix) then throw .dropped
    else do
      let st ← hopByHop src s ⟨len - 40, 0, byte src (s + 6), 0, 0⟩
      let st ← if 0 < st.lenDelta then extLoop src s (len.toNat + 1) st else pure st
      let payloadLen := field16 src (s + 4)
      let ntotLen : ℤ := if payloadLen = 0 then 0 else payloadLen + 20 - st.optsLen
      let dst ← write dst d (ip4HeaderChecked k tosIgnoreFlag src s st ntotLen st.nextHdr)
      let (dst, realLen) ←
        if 0 < st.lenDelta then
          if st.nextHdr = nexthdrIcmp then icmp6Icmp4 k host tosIgnoreFlag inner src s dst d includeFlag st ntotLen
          else do pure (← memcpy dst (d + 20) src (s + 40 + st.optsLen) st.lenDelta, 20 + st.lenDelta)
        else pure (dst, 20)
      return (dst, if includeFlag then st.optsLen else realLen)

end Ip6Ip4

/-- The packet inside an ICMP error. Only an echo request is translated then, so no further call is made. -/
def ip6Ip4Included (k : Checksums) (host : ByteOrder) (tosIgnoreFlag : Bool) (src : List UInt8) :
    Inner (List UInt8 × ℤ) :=
  fun s len dst d => ip6Ip4Body k host tosIgnoreFlag (fun _ _ _ _ => .error .dropped) src s len dst d true

def ip6Ip4 (k : Checksums) (host : ByteOrder) (tosIgnoreFlag : Bool) (src : List UInt8) (len : ℤ)
    (dst : List UInt8) : Run (List UInt8 × ℤ) :=
  ip6Ip4Body k host tosIgnoreFlag (ip6Ip4Included k host tosIgnoreFlag src) src 0 len dst 0 false

end Neufbox.Siit
