import Neufbox.Library.OnesComplement
import Neufbox.Ead.Server

/-! # Replies of the emergency access daemon

`ead_send_packet_clone` makes a frame from the headers of a request and the message in the packet buffer, and
computes the checksums of the IP and the UDP header with `chksum`. -/
namespace Neufbox.Ead
open Blocks OnesComplement
set_option autoImplicit false
set_option maxHeartbeats 250000
set_option maxRecDepth 120000

/-! ## Packets -/

/-- `struct ead_msg`; `data` is all of the buffer behind its header. -/
structure EadMsg where
  magic : UInt32
  len : UInt32
  type : UInt32
  nid : UInt16
  sid : UInt16
  ip : UInt32
  data : List UInt8

def EadMsg.bytes (m : EadMsg) : List UInt8 :=
  beBytes m.magic.toNat ++ (beBytes m.len.toNat ++ (beBytes m.type.toNat ++ (half m.nid.toNat ++ (half m.sid.toNat ++
    (beBytes m.ip.toNat ++ m.data)))))

/-- `struct ead_packet`. Fields of more than a byte are in network order. -/
structure EadPacket where
  etherDhost : List UInt8
  etherShost : List UInt8
  etherType : UInt16
  vhl : UInt8
  tos : UInt8
  len : UInt16
  ipid : UInt16
  ipoffset : UInt16
  ttl : UInt8
  proto : UInt8
  ipchksum : UInt16
  srcipaddr : UInt32
  destipaddr : UInt32
  srcport : UInt16
  destport : UInt16
  udplen : UInt16
  udpchksum : UInt16
  msg : EadMsg

namespace EadPacket

/-- The IP header before its checksum. -/
def ipFront (p : EadPacket) : List UInt8 :=
  [p.vhl, p.tos] ++ (half p.len.toNat ++ (half p.ipid.toNat ++ (half p.ipoffset.toNat ++ [p.ttl, p.proto])))

def addresses (p : EadPacket) : List UInt8 := beBytes p.srcipaddr.toNat ++ beBytes p.destipaddr.toNat

def ipBytes (p : EadPacket) : List UInt8 := p.ipFront ++ (half p.ipchksum.toNat ++ p.addresses)

/-- The UDP header before its checksum. -/
def udpFront (p : EadPacket) : List UInt8 := half p.srcport.toNat ++ (half p.destport.toNat ++ half p.udplen.toNat)

/-- The UDP header and everything behind it. -/
def udpBytes (p : EadPacket) : List UInt8 := p.udpFront ++ (half p.udpchksum.toNat ++ p.msg.bytes)

end EadPacket

/-! ## Checksums -/

/-- A 16-bit sum and its carry. -/
def addCarry (sum t : UInt16) : UInt16 := if sum + t < t then sum + t + 1 else sum + t

def chksum (sum : UInt16) : List UInt8 → UInt16
  | a :: b :: data => chksum (addCarry sum (a.toUInt16 * 256 + b.toUInt16)) data
  | [a] => addCarry sum (a.toUInt16 * 256)
  | [] => sum

def uipIphLen : ℕ := 20

/-- The complement, for a sum in which zero is written with all bits set. -/
def chksumField (sum : UInt16) : UInt16 := ~~~(if sum = 0 then 0xffff else sum)

/-- `ead_send_packet_clone`: what is in the packet buffer when it is sent. -/
def eadSendPacketClone (ethmac : List UInt8) (pktbuf pkt : EadPacket) : EadPacket :=
  let p := { pkt with msg := pktbuf.msg }
  let p := { p with etherShost := ethmac, etherDhost := pkt.etherShost }
  let len : UInt16 := UInt16.ofNat (packetSize - 14 + p.msg.len.toNat)
  let p := { p with len := len, srcipaddr := pkt.msg.ip, destipaddr := pkt.srcipaddr, ipchksum := 0 }
  let p := { p with ipchksum := chksumField (chksum 0 (p.ipBytes.take uipIphLen)) }
  let p := { p with srcport := pkt.destport, destport := pkt.srcport }
  let len := len - UInt16.ofNat uipIphLen
  let p := { p with udplen := len, udpchksum := 0 }
  let sum := len + uipProtoUdp.toUInt16
  let sum := chksum sum p.addresses
  let sum := chksum sum (p.udpBytes.take len.toNat)
  { p with udpchksum := chksumField sum }

/-- The UDP datagram that is sent, behind its pseudo-header. -/
def EadPacket.udpChecked (p : EadPacket) : List UInt8 :=
  p.addresses ++ ([0, uipProtoUdp] ++ (half p.udplen.toNat ++ p.udpBytes.take p.udplen.toNat))

/-! ## `chksum` is one's complement addition -/

theorem addCarry_toNat (sum t : UInt16) : (addCarry sum t).toNat = onesAdd sum.toNat t.toNat := by
  have hsum := sum.toNat_lt
  have ht := t.toNat_lt
  have hadd : (sum + t).toNat = (sum.toNat + t.toNat) % 65536 := UInt16.toNat_add sum t
  have hone : (sum + t + 1).toNat = ((sum + t).toNat + 1) % 65536 := UInt16.toNat_add (sum + t) 1
  unfold addCarry onesAdd
  simp only [UInt16.lt_iff_toNat_lt]
  split_ifs <;> omega

theorem word_toNat (a b : UInt8) : (a.toUInt16 * 256 + b.toUInt16).toNat = 256 * a.toNat + b.toNat := by
  have ha := a.toNat_lt
  have hb := b.toNat_lt
  have hmul : (a.toUInt16 * 256).toNat = a.toNat * 256 % 65536 := UInt16.toNat_mul a.toUInt16 256
  have hadd : (a.toUInt16 * 256 + b.toUInt16).toNat = ((a.toUInt16 * 256).toNat + b.toNat) % 65536 :=
    UInt16.toNat_add _ _
  omega

theorem chksum_toNat (sum : UInt16) (data : List UInt8) :
    (chksum sum data).toNat = (halves data).foldl onesAdd sum.toNat := by
  fun_induction chksum sum data with
  | case1 sum a b data ih =>
    rw [ih, addCarry_toNat, word_toNat]
    rfl
  | case2 sum a =>
    have hword : (a.toUInt16 * 256).toNat = 256 * a.toNat := by
      have ha := a.toNat_lt
      have hmul : (a.toUInt16 * 256).toNat = a.toNat * 256 % 65536 := UInt16.toNat_mul a.toUInt16 256
      omega
    rw [addCarry_toNat, hword]
    rfl
  | case3 sum => rfl

theorem residue_of_le {n : ℕ} (hn : n ≤ 65535) : residue n = n := by
  unfold residue
  split_ifs <;> omega

/-- No carry is lost: the sum of all words is what is left. -/
theorem chksum_residue (sum : UInt16) (data : List UInt8) :
    (chksum sum data).toNat = residue (sum.toNat + (halves data).sum) := by
  have hsum := sum.toNat_lt
  have hfold := foldl_onesAdd sum.toNat (halves_lt data)
  rw [residue_of_le (by omega)] at hfold
  rw [chksum_toNat, hfold]

theorem chksum_append (sum : UInt16) {xs : List UInt8} (hxs : 2 ∣ xs.length) (ys : List UInt8) :
    chksum sum (xs ++ ys) = chksum (chksum sum xs) ys := by
  apply UInt16.toNat_inj.mp
  rw [chksum_toNat, chksum_toNat, chksum_toNat, halves_append hxs, List.foldl_append]

theorem chksumField_toNat {sum : UInt16} (hsum : sum ≠ 0) : (chksumField sum).toNat = 65535 - sum.toNat := by
  rw [chksumField, if_neg hsum, UInt16.toNat_not]
  rfl

/-- With its complement in place, a sum has all bits set. -/
theorem residue_complement (n : ℕ) : residue (n + (65535 - residue n)) = 65535 := by
  unfold residue
  split_ifs <;> omega

theorem residue_ne_zero {n : ℕ} (hn : n ≠ 0) : residue n ≠ 0 := by
  rw [residue, if_neg hn]
  omega

/-- A field with the complement of a sum that it does not count in. -/
theorem chksumField_of_residue {sum : UInt16} {n : ℕ} (hn : n ≠ 0) (hsum : sum.toNat = residue n) :
    (chksumField sum).toNat = 65535 - residue n := by
  have hne : sum ≠ 0 := by
    rintro rfl
    exact residue_ne_zero hn hsum.symm
  rw [chksumField_toNat hne, hsum]

/-! ## Headers -/

theorem halves_sum_append {xs : List UInt8} (hxs : 2 ∣ xs.length) (ys : List UInt8) :
    (halves (xs ++ ys)).sum = (halves xs).sum + (halves ys).sum := by
  rw [halves_append hxs, List.sum_append]

theorem halves_sum_half {n : ℕ} (hn : n < 65536) : (halves (half n)).sum = n := by
  have h := halves_half_append hn []
  rw [List.append_nil] at h
  rw [h]
  rfl

section Headers
variable (p : EadPacket)

/-- The sum of an IP header counts its length. -/
theorem ipFront_sum_pos (hlen : p.len.toNat ≠ 0) : (halves p.ipFront).sum ≠ 0 := by
  have hlt := p.len.toNat_lt
  rw [EadPacket.ipFront, halves_sum_append ⟨1, rfl⟩, halves_sum_append ⟨1, rfl⟩, halves_sum_half hlt]
  omega

theorem udpBytes_take {n : ℕ} (hn : 8 ≤ n) :
    p.udpBytes.take n = p.udpFront ++ (half p.udpchksum.toNat ++ p.msg.bytes.take (n - 8)) := by
  have hfront : (p.udpFront ++ half p.udpchksum.toNat).length = 8 := rfl
  rw [EadPacket.udpBytes, ← List.append_assoc, List.take_append, hfront, List.take_of_length_le (by omega),
    List.append_assoc]

end Headers

/-! ## The frame that is sent -/

def pcapMru : ℕ := 1600

section Sent
variable (ethmac : List UInt8) (pktbuf pkt : EadPacket)

/-- The fields that the lengths give. -/
theorem sent_lengths (hfit : packetSize + pktbuf.msg.len.toNat ≤ pcapMru) :
    (eadSendPacketClone ethmac pktbuf pkt).len.toNat = 48 + pktbuf.msg.len.toNat ∧
      (eadSendPacketClone ethmac pktbuf pkt).udplen.toNat = 28 + pktbuf.msg.len.toNat := by
  unfold packetSize pcapMru at hfit
  have hlen : (UInt16.ofNat (packetSize - 14 + pktbuf.msg.len.toNat)).toNat = 48 + pktbuf.msg.len.toNat := by
    rw [UInt16.toNat_ofNat', packetSize]
    omega
  refine ⟨hlen, ?_⟩
  have hsub : (eadSendPacketClone ethmac pktbuf pkt).udplen =
      UInt16.ofNat (packetSize - 14 + pktbuf.msg.len.toNat) - UInt16.ofNat uipIphLen := rfl
  have hiph : (UInt16.ofNat uipIphLen).toNat = 20 := rfl
  rw [hsub, UInt16.toNat_sub_of_le]
  · rw [hlen, hiph]
    omega
  · rw [UInt16.le_iff_toNat_le, hlen, hiph]
    omega

theorem sent_ipchksum (hfit : packetSize + pktbuf.msg.len.toNat ≤ pcapMru) :
    Verifies (eadSendPacketClone ethmac pktbuf pkt).ipBytes := by
  have hlen := (sent_lengths ethmac pktbuf pkt hfit).1
  generalize hp : eadSendPacketClone ethmac pktbuf pkt = p at hlen ⊢
  have hfield : p.ipchksum = chksumField (chksum 0 (p.ipFront ++ (half 0 ++ p.addresses))) := by
    rw [← hp]
    rfl
  have hfront : 2 ∣ p.ipFront.length := ⟨5, rfl⟩
  have hothers : others p.ipFront p.addresses ≠ 0 := by
    have hpos := ipFront_sum_pos p (by omega)
    unfold others
    omega
  have hsum : (chksum 0 (p.ipFront ++ (half 0 ++ p.addresses))).toNat = residue (others p.ipFront p.addresses) := by
    rw [chksum_residue, halves_sum_append hfront, halves_sum_append ⟨1, rfl⟩, halves_sum_half (by decide)]
    simp [others]
  rw [Verifies, EadPacket.ipBytes, onesSum_field hfront _ p.ipchksum.toNat_lt, hfield,
    chksumField_of_residue hothers hsum, residue_complement]

/-- The sum of the pseudo-header and of the datagram without its checksum. -/
def udpOthers (p : EadPacket) : ℕ :=
  others (p.addresses ++ ([0, uipProtoUdp] ++ (half p.udplen.toNat ++ p.udpFront))) (p.msg.bytes.take (p.udplen.toNat - 8))

theorem udpOthers_eq (p : EadPacket) :
    udpOthers p = p.udplen.toNat + 17 + ((halves p.addresses).sum + ((halves p.udpFront).sum +
      (halves (p.msg.bytes.take (p.udplen.toNat - 8))).sum)) := by
  have hproto : (halves [0, uipProtoUdp]).sum = 17 := rfl
  rw [udpOthers, others, halves_sum_append ⟨4, rfl⟩, halves_sum_append ⟨1, rfl⟩, halves_sum_append ⟨1, rfl⟩, hproto,
    halves_sum_half p.udplen.toNat_lt]
  omega

theorem sent_udpchksum (hfit : packetSize + pktbuf.msg.len.toNat ≤ pcapMru) :
    Verifies (eadSendPacketClone ethmac pktbuf pkt).udpChecked := by
  have hlen := (sent_lengths ethmac pktbuf pkt hfit).2
  unfold packetSize pcapMru at hfit
  generalize hp : eadSendPacketClone ethmac pktbuf pkt = p at hlen ⊢
  have htake : p.udpBytes.take p.udplen.toNat =
      p.udpFront ++ (half p.udpchksum.toNat ++ p.msg.bytes.take (p.udplen.toNat - 8)) := udpBytes_take p (by omega)
  have hfield : p.udpchksum = chksumField (chksum (chksum (p.udplen + 17) p.addresses)
      (({ p with udpchksum := 0 } : EadPacket).udpBytes.take p.udplen.toNat)) := by
    rw [← hp]
    rfl
  have hzero : ({ p with udpchksum := 0 } : EadPacket).udpBytes.take p.udplen.toNat =
      p.udpFront ++ (half 0 ++ p.msg.bytes.take (p.udplen.toNat - 8)) :=
    udpBytes_take { p with udpchksum := 0 } (by omega)
  have hstart : (p.udplen + 17).toNat = p.udplen.toNat + 17 := by
    have hadd : (p.udplen + 17).toNat = (p.udplen.toNat + 17) % 65536 := UInt16.toNat_add p.udplen 17
    omega
  have hsum : (chksum (chksum (p.udplen + 17) p.addresses)
      (p.udpFront ++ (half 0 ++ p.msg.bytes.take (p.udplen.toNat - 8)))).toNat = residue (udpOthers p) := by
    rw [← chksum_append _ ⟨4, rfl⟩, chksum_residue, hstart, halves_sum_append ⟨4, rfl⟩, halves_sum_append ⟨3, rfl⟩,
      halves_sum_append ⟨1, rfl⟩, halves_sum_half (by decide), udpOthers_eq, Nat.zero_add]
  have hothers : udpOthers p ≠ 0 := by
    rw [udpOthers_eq]
    omega
  rw [hzero] at hfield
  have hsplit : p.udpChecked = (p.addresses ++ ([0, uipProtoUdp] ++ (half p.udplen.toNat ++ p.udpFront))) ++
      (half p.udpchksum.toNat ++ p.msg.bytes.take (p.udplen.toNat - 8)) := by
    rw [EadPacket.udpChecked, htake]
    simp only [List.append_assoc]
  have hfront : 2 ∣ (p.addresses ++ ([0, uipProtoUdp] ++ (half p.udplen.toNat ++ p.udpFront))).length := ⟨9, rfl⟩
  rw [Verifies, hsplit, onesSum_field hfront _ p.udpchksum.toNat_lt, hfield, chksumField_of_residue hothers hsum]
  exact residue_complement _

end Sent

/-- Both checksums of every reply verify; and `chksum` is the one's complement sum, can be split behind an even
number of bytes, and loses no carry. -/
theorem ead_reply_checksums (ethmac : List UInt8) (pktbuf pkt : EadPacket)
    (hfit : packetSize + pktbuf.msg.len.toNat ≤ pcapMru) :
    Verifies (eadSendPacketClone ethmac pktbuf pkt).ipBytes ∧
    Verifies (eadSendPacketClone ethmac pktbuf pkt).udpChecked ∧
    (∀ data, (chksum 0 data).toNat = onesSum data) ∧
    (∀ sum xs ys, 2 ∣ xs.length → chksum sum (xs ++ ys) = chksum (chksum sum xs) ys) ∧
    ∀ sum data, (chksum sum data).toNat = residue (sum.toNat + (halves data).sum) :=
  ⟨sent_ipchksum ethmac pktbuf pkt hfit, sent_udpchksum ethmac pktbuf pkt hfit, chksum_toNat 0,
    fun sum _ ys hxs => chksum_append sum hxs ys, chksum_residue⟩

/-- A packet with a body of three bytes. -/
def smallPacket : EadPacket where
  etherDhost := List.replicate 6 0xff
  etherShost := [0, 1, 2, 3, 4, 5]
  etherType := 0x0800
  vhl := 0x45
  tos := 0
  len := 51
  ipid := 7
  ipoffset := 0
  ttl := 64
  proto := 17
  ipchksum := 0
  srcipaddr := 0xC0A80102
  destipaddr := 0xFFFFFFFF
  srcport := 1024
  destport := 56026
  udplen := 31
  udpchksum := 0
  msg := ⟨3671771902, 3, 1, 0xffff, 0, 0xC0A80101, [1, 2, 3]⟩

theorem ead_reply_checksums_small :
    packetSize + smallPacket.msg.len.toNat ≤ pcapMru ∧
      Verifies (eadSendPacketClone [0, 0x13, 0x37, 0, 0, 0] smallPacket smallPacket).udpChecked :=
  ⟨by decide, (ead_reply_checksums [0, 0x13, 0x37, 0, 0, 0] smallPacket smallPacket (by decide)).2.1⟩

end Neufbox.Ead
