import Neufbox.Siit.Written

/-! # Transport behind new addresses

TCP and UDP are copied with the checksum that they have. It goes over the addresses as well, and these get a prefix
of 96 bits each, whose words add nothing to a sum that is not zero. -/
namespace Neufbox.Siit
open Blocks Guarded ByteStore OnesComplement
set_option autoImplicit false
set_option maxHeartbeats 250000
set_option maxRecDepth 120000

/-! ## Pseudo-headers -/

/-- What a checksum covers in front of a segment or datagram of IPv4. -/
def pseudo4 (saddr daddr : List UInt8) (len : ℕ) (proto : UInt8) : List UInt8 := saddr ++ daddr ++ [0, proto] ++ half len

/-- An address of IPv6 for one of IPv4. -/
def prefixed (addressPrefix : ℕ) (addr : List UInt8) : List UInt8 := beBytes 0 ++ beBytes 0 ++ beBytes addressPrefix ++ addr

theorem residue_add {n : ℕ} (hn : n ≠ 0) (c : ℕ) : residue (n + 65535 * c) = residue n := by
  have hsum : n + 65535 * c - 1 = n - 1 + 65535 * c := by omega
  rw [residue, residue, if_neg (by omega), if_neg hn, hsum, Nat.add_mul_mod_self_left]

theorem prefixed_length {addr : List UInt8} (h : addr.length = 4) (addressPrefix : ℕ) :
    (prefixed addressPrefix addr).length = 16 := by
  rw [prefixed, List.length_append, h]
  rfl

theorem pseudo4_length {saddr daddr : List UInt8} (hs : saddr.length = 4) (hd : daddr.length = 4) (len : ℕ)
    (proto : UInt8) : (pseudo4 saddr daddr len proto).length = 12 := by
  rw [pseudo4, List.length_append, List.length_append, List.length_append, hs, hd]
  rfl

section Sums
variable {saddr daddr : List UInt8} (hs : saddr.length = 4) (hd : daddr.length = 4) {len : ℕ} (hlen : len < 65536)
include hs hd hlen

theorem halves_pseudo4 (proto : UInt8) : (halves (pseudo4 saddr daddr len proto)).sum =
    (halves saddr).sum + (halves daddr).sum + proto.toNat + len := by
  have hlen4 : (halves (half len)).sum = len := by
    have h := halves_half_append hlen []
    rw [List.append_nil] at h
    rw [h]
    rfl
  have hproto : (halves [0, proto]).sum = proto.toNat := by
    show 256 * 0 + proto.toNat + 0 = _
    omega
  have haddrs : (saddr ++ daddr).length = 8 := by rw [List.length_append, hs, hd]
  have hfront : (saddr ++ daddr ++ [0, proto]).length = 10 := by rw [List.length_append, haddrs]; rfl
  rw [pseudo4, halves_append (by rw [hfront]; norm_num), halves_append (by rw [haddrs]; norm_num),
    halves_append (by rw [hs]; norm_num), List.sum_append, List.sum_append, List.sum_append, hlen4, hproto]

theorem halves_pseudo6 (proto : UInt8) :
    (halves (pseudo6 (prefixed mappedPrefix saddr) (prefixed translatedPrefix daddr) len proto)).sum =
      (halves saddr).sum + (halves daddr).sum + proto.toNat + len + 65535 * 2 := by
  have hlen6 : (halves (beBytes len)).sum = len := by
    show 256 * (UInt8.ofNat (len / 2 ^ 24)).toNat + (UInt8.ofNat (len / 2 ^ 16)).toNat +
      (256 * (UInt8.ofNat (len / 2 ^ 8)).toNat + (UInt8.ofNat len).toNat + 0) = len
    rw [UInt8.toNat_ofNat', UInt8.toNat_ofNat', UInt8.toNat_ofNat', UInt8.toNat_ofNat']
    omega
  have hprefix : ∀ addr : List UInt8, (halves (beBytes 0 ++ beBytes 0 ++ beBytes 0xffff ++ addr)).sum =
      65535 + (halves addr).sum := by
    intro addr
    show 0 + (0 + (0 + (0 + (0 + (65535 + (halves addr).sum))))) = _
    omega
  have hlast : (halves [0, 0, 0, proto]).sum = proto.toNat := by
    show 0 + (256 * 0 + proto.toNat + 0) = _
    omega
  have hsaddr := prefixed_length hs mappedPrefix
  have hdaddr := prefixed_length hd translatedPrefix
  rw [pseudo6, halves_append (by rw [List.length_append, List.length_append, hsaddr, hdaddr]; exact Dvd.intro 18 rfl),
    halves_append (by rw [List.length_append, hsaddr, hdaddr]; exact Dvd.intro 16 rfl),
    halves_append (by rw [hsaddr]; exact Dvd.intro 8 rfl), List.sum_append, List.sum_append, List.sum_append, prefixed,
    prefixed, mappedPrefix, translatedPrefix, hprefix, hprefix, hlen6, hlast]
  omega

/-- Both prefixes and the longer fields of the pseudo-header leave the sum as it is. -/
theorem onesSum_pseudo {proto : UInt8} (hproto : proto ≠ 0) (bs : List UInt8) :
    onesSum (pseudo6 (prefixed mappedPrefix saddr) (prefixed translatedPrefix daddr) len proto ++ bs) =
      onesSum (pseudo4 saddr daddr len proto ++ bs) := by
  have hpos : 0 < proto.toNat := Nat.pos_of_ne_zero fun h => hproto (UInt8.toNat_inj.mp h)
  have hsaddr := prefixed_length hs mappedPrefix
  have hdaddr := prefixed_length hd translatedPrefix
  rw [onesSum_eq, onesSum_eq, halves_append (by rw [pseudo6_length hsaddr hdaddr]; exact Dvd.intro 20 rfl),
    halves_append (by rw [pseudo4_length hs hd]; exact Dvd.intro 6 rfl), List.sum_append, List.sum_append, halves_pseudo6 hs hd hlen,
    halves_pseudo4 hs hd hlen, Nat.add_right_comm]
  exact residue_add (by omega) 2

end Sums

/-! ## From IPv4 -/

section Forward
variable (k : Checksums) (tosIgnoreFlag : Bool) (src : List UInt8) (len : ℕ) (dst : List UInt8)

/-- The payload length before it is stored. -/
def plen6 : ℤ := ((field16 src 2 + fr6 src) % 65536 : ℕ) - hdrLen src 0

def transportHeader : List UInt8 :=
  ip6Header tosIgnoreFlag src 0 mappedPrefix translatedPrefix (plen6 src)
    (if field16 src 6 = ipDf then protocolNexthdr (byte src 9) else nexthdrFragment)

/-- The data of a packet that has a length. -/
def data4 : List UInt8 := (src.drop (hdrLen src 0)).take (len - hdrLen src 0)

/-- The packet in a buffer. -/
def transport6 : List UInt8 :=
  transportHeader tosIgnoreFlag src ++ (fragments src ++ (data4 src len ++ dst.drop (40 + fr6 src + (data4 src len).length)))

variable {src len dst}

theorem data4_length (hlen : len ≤ src.length) : (data4 src len).length = len - hdrLen src 0 := by
  rw [data4, List.length_take, List.length_drop]
  omega

theorem transportHeader_length : (transportHeader tosIgnoreFlag src).length = 40 := ip6Header_length ..

theorem fr6_eq : fr6 src = if field16 src 6 = ipDf then 0 else 8 := fragments_length src

/-- The headers are in the buffer when the protocol is looked at. -/
theorem ip4Ip6_transport (h20 : 20 ≤ src.length) (hroom : 40 + fr6 src ≤ dst.length)
    (hproto : byte src 9 = protoTcp ∨ byte src 9 = protoUdp) :
    ip4Ip6 k tosIgnoreFlag src len dst =
      let m := transportHeader tosIgnoreFlag src ++ (fragments src ++ dst.drop (40 + fr6 src))
      if byte src 9 = protoTcp then memcpy m (40 + fr6 src) src (hdrLen src 0) (len - hdrLen src 0)
      else udp4Udp6 k src 0 len m 0 false (hdrLen src 0) (fr6 src) (plen6 src) := by
  have hhdr : 4 * (byte src 0 &&& 0x0f).toNat = hdrLen src 0 := rfl
  have hicmp : byte src 9 ≠ protoIcmp := by
    rcases hproto with h | h <;> rw [h] <;> decide
  have hfrag : write dst 40 (fragments src) = .ok (dst.take 40 ++ (fragments src ++ dst.drop (40 + fr6 src))) :=
    write_ok hroom
  have hheader : write (dst.take 40 ++ (fragments src ++ dst.drop (40 + fr6 src))) 0 (transportHeader tosIgnoreFlag src) =
      .ok (transportHeader tosIgnoreFlag src ++ (fragments src ++ dst.drop (40 + fr6 src))) :=
    write_piece [] (dst.take 40) _ _ (by rw [transportHeader_length, List.length_take]; omega) rfl
  have hkind : ∀ copied checked other : Run (List UInt8), (if byte src 9 = protoIcmp then other
      else if byte src 9 = protoTcp then copied else if byte src 9 = protoUdp then checked else .error .dropped) =
      if byte src 9 = protoTcp then copied else checked := by
    intro copied checked other
    rw [if_neg hicmp]
    rcases hproto with h | h
    · rw [if_pos h, if_pos h]
    · rw [h]
      rfl
  unfold ip4Ip6 ip4Ip6Body
  rw [inside_ok (by omega)]
  simp only [hhdr, Nat.zero_add, ok_bind]
  by_cases hdf : field16 src 6 = ipDf
  · have hnone : fragments src = [] := if_pos hdf
    have hfr : fr6 src = 0 := by rw [fr6_eq, if_pos hdf]
    rw [hfr, hnone, List.nil_append, Nat.add_zero, List.take_append_drop, transportHeader, plen6, hfr, if_pos hdf] at hheader
    simp only [hdf, true_or, not_true_eq_false, decide_false, Bool.false_eq_true, if_false, pure_bind]
    rw [hheader, ok_bind, hkind, hfr, hnone, List.nil_append, transportHeader, plen6, hfr, if_pos hdf]
  · have hsome : fragments src = fragHeader src 0 := if_neg hdf
    have hfr : fr6 src = 8 := by rw [fr6_eq, if_neg hdf]
    rw [hsome] at hfrag hheader
    rw [hfr] at hfrag hheader
    rw [transportHeader, plen6, hfr, if_neg hdf] at hheader
    simp only [hdf, false_or, Bool.false_eq_true, not_false_eq_true, decide_true, if_true, if_false]
    rw [hfrag, ok_bind, hheader, ok_bind, hkind, hfr, hsome, transportHeader, plen6, hfr, if_neg hdf]

/-- A packet with data of its length, which has room in the buffer. -/
structure Room (src : List UInt8) (len : ℕ) (dst : List UInt8) : Prop where
  ihl : 20 ≤ hdrLen src 0
  header : hdrLen src 0 ≤ len
  inside : len ≤ src.length
  room : 40 + fr6 src + (len - hdrLen src 0) ≤ dst.length

theorem copy_transport (h : Room src len dst) :
    memcpy (transportHeader tosIgnoreFlag src ++ (fragments src ++ dst.drop (40 + fr6 src))) (40 + fr6 src) src
      (hdrLen src 0) (len - hdrLen src 0) = .ok (transport6 tosIgnoreFlag src len dst) := by
  have hheader := h.header
  have hinside := h.inside
  have hroom := h.room
  have hlen : ((len : ℤ) - hdrLen src 0).toNat = len - hdrLen src 0 := by omega
  have hregion : region src (hdrLen src 0) (len - hdrLen src 0) = .ok (data4 src len) := by
    rw [region_ok (by omega) (by omega), hlen]
    rfl
  have hold : ((dst.drop (40 + fr6 src)).take (data4 src len).length).length = (data4 src len).length := by
    rw [List.length_take, List.length_drop, data4_length hinside]
    omega
  have hsplit : dst.drop (40 + fr6 src) = (dst.drop (40 + fr6 src)).take (data4 src len).length ++
      dst.drop (40 + fr6 src + (data4 src len).length) := by
    have hdrop : dst.drop (40 + fr6 src + (data4 src len).length) =
        (dst.drop (40 + fr6 src)).drop (data4 src len).length := by rw [List.drop_drop]
    rw [hdrop, List.take_append_drop]
  rw [memcpy, hregion, ok_bind, hsplit, ← List.append_assoc]
  have hwrite := write_piece (transportHeader tosIgnoreFlag src ++ fragments src)
    ((dst.drop (40 + fr6 src)).take (data4 src len).length) (dst.drop (40 + fr6 src + (data4 src len).length))
    (data4 src len) hold.symm (i := 40 + fr6 src) (by rw [List.length_append, transportHeader_length])
  rw [hwrite, transport6, List.append_assoc]

theorem udp4Udp6_eq (hlong : First src 0 → hdrLen src 0 + 8 ≤ src.length) (m : List UInt8) (fr : ℕ) (plen : ℤ) :
    udp4Udp6 k src 0 len m 0 false (hdrLen src 0) fr plen =
      if Unchecked src 0 ∧ More src 0 then .error .dropped
      else memcpy m (40 + fr) src (hdrLen src 0) (len - hdrLen src 0) >>= fun m =>
        if Unchecked src 0 then checksum6 k m 0 (40 + fr) 6 (plen - fr) protoUdp else pure m := by
  unfold udp4Udp6
  simp only [Nat.zero_add]
  by_cases hfirst : First src 0
  · have hoffset : field16 src 6 &&& ipOffset = 0 := hfirst
    have hinside : inside src (hdrLen src 0 + 6) 2 = .ok () := inside_ok (by have := hlong hfirst; omega)
    rw [if_pos hoffset, hinside, ok_bind]
    by_cases hcheck : field16 src (hdrLen src 0 + 6) = 0
    · have hun : Unchecked src 0 := ⟨hfirst, by rw [Nat.zero_add]; exact hcheck⟩
      rw [if_neg (not_not.mpr hcheck)]
      by_cases hmore : More src 0
      · have hmf : field16 src 6 &&& ipMf ≠ 0 := hmore
        rw [if_pos hmf, if_pos ⟨hun, hmore⟩]
        rfl
      · have hmf : ¬ field16 src 6 &&& ipMf ≠ 0 := hmore
        rw [if_neg hmf, if_neg fun h => hmore h.2]
        simp only [pure_bind, true_and, Bool.false_eq_true, not_false_eq_true, if_true, if_pos hun]
    · have hun : ¬ Unchecked src 0 := fun h => hcheck (by have := h.2; rwa [Nat.zero_add] at this)
      rw [if_pos hcheck, if_neg fun h => hun h.1]
      simp only [pure_bind, Bool.false_eq_true, false_and, if_false, if_neg hun]
  · have hoffset : ¬ field16 src 6 &&& ipOffset = 0 := hfirst
    have hun : ¬ Unchecked src 0 := fun h => hfirst h.1
    rw [if_neg hoffset, if_neg fun h => hun h.1]
    simp only [pure_bind, Bool.false_eq_true, false_and, if_false, if_neg hun]

/-- A packet of TCP or UDP, with its UDP header if that is in it. -/
structure Segment (src : List UInt8) : Prop where
  protocol : byte src 9 = protoTcp ∨ byte src 9 = protoUdp
  header : byte src 9 = protoUdp → First src 0 → hdrLen src 0 + 8 ≤ src.length

/-- A UDP header without a checksum. -/
abbrev ZeroChecksum (src : List UInt8) : Prop := byte src 9 = protoUdp ∧ Unchecked src 0

theorem ip4Ip6_segment (h : Room src len dst) (hseg : Segment src) :
    ip4Ip6 k tosIgnoreFlag src len dst =
      if ZeroChecksum src ∧ More src 0 then .error .dropped
      else if ZeroChecksum src then
        checksum6 k (transport6 tosIgnoreFlag src len dst) 0 (40 + fr6 src) 6 (plen6 src - fr6 src) protoUdp
      else .ok (transport6 tosIgnoreFlag src len dst) := by
  have hihl := h.ihl
  have hheader := h.header
  have hinside := h.inside
  have hroom := h.room
  rw [ip4Ip6_transport k tosIgnoreFlag (by omega) (by omega) hseg.protocol]
  dsimp only
  rcases hseg.protocol with htcp | hudp
  · have hnot : ¬ ZeroChecksum src := fun h => absurd (htcp.symm.trans h.1) (by decide)
    rw [if_pos htcp, copy_transport tosIgnoreFlag h, if_neg fun h => hnot h.1, if_neg hnot]
  · have hne : byte src 9 ≠ protoTcp := by
      rw [hudp]
      decide
    rw [if_neg hne, udp4Udp6_eq k (hseg.header hudp)]
    by_cases hun : Unchecked src 0
    · have hzero : ZeroChecksum src := ⟨hudp, hun⟩
      by_cases hmore : More src 0
      · rw [if_pos ⟨hun, hmore⟩, if_pos ⟨hzero, hmore⟩]
      · rw [if_neg fun h => hmore h.2, if_neg fun h => hmore h.2, copy_transport tosIgnoreFlag h, ok_bind, if_pos hun,
          if_pos hzero]
    · have hnot : ¬ ZeroChecksum src := fun h => hun h.2
      rw [if_neg fun h => hun h.1, if_neg fun h => hnot h.1, copy_transport tosIgnoreFlag h, ok_bind, if_neg hun,
        if_neg hnot]
      rfl

/-! ## The fields of such a packet -/

theorem transportHeader_append (m : List UInt8) : transportHeader tosIgnoreFlag src ++ m =
    versionBytes tosIgnoreFlag (byte src 1) ++ (htons (plen6 src) ++
      ((if field16 src 6 = ipDf then protocolNexthdr (byte src 9) else nexthdrFragment) :: byte src 8 ::
        (prefixed mappedPrefix (bytes4 src 12) ++ (prefixed translatedPrefix (bytes4 src 16) ++ m)))) := by
  simp only [transportHeader, ip6Header, prefixed, List.append_assoc, List.cons_append, List.nil_append, Nat.zero_add]

theorem header_saddr (m : List UInt8) :
    ((transportHeader tosIgnoreFlag src ++ m).drop 8).take 16 = prefixed mappedPrefix (bytes4 src 12) := by
  rw [transportHeader_append]
  cases tosIgnoreFlag <;> rfl

theorem header_daddr (m : List UInt8) :
    ((transportHeader tosIgnoreFlag src ++ m).drop 24).take 16 = prefixed translatedPrefix (bytes4 src 16) := by
  rw [transportHeader_append]
  cases tosIgnoreFlag <;> rfl

theorem header_nexthdr (m : List UInt8) : byte (transportHeader tosIgnoreFlag src ++ m) 6 =
    if field16 src 6 = ipDf then protocolNexthdr (byte src 9) else nexthdrFragment := by
  rw [transportHeader_append]
  cases tosIgnoreFlag <;> rfl

theorem header_payloadLen (htot : field16 src 2 = len) (hihl : 20 ≤ hdrLen src 0) (hlen : hdrLen src 0 ≤ len)
    (m : List UInt8) : field16 (transportHeader tosIgnoreFlag src ++ m) 4 = len + fr6 src - hdrLen src 0 := by
  have hfr : fr6 src ≤ 8 := by
    rw [fr6_eq]
    split <;> omega
  have hlt := field16_lt src 2
  have hread : field16 (transportHeader tosIgnoreFlag src ++ m) 4 = (plen6 src % 65536).toNat := by
    rw [transportHeader_append]
    cases tosIgnoreFlag
    · exact half_toNat (by omega)
    · exact half_toNat (by omega)
  rw [hread, plen6, htot]
  omega

theorem protocolNexthdr_eq (h : byte src 9 = protoTcp ∨ byte src 9 = protoUdp) :
    protocolNexthdr (byte src 9) = byte src 9 := by
  rcases h with h | h <;> rw [h] <;> rfl

/-- The data begins behind the headers, where the chain of headers ends. -/
theorem transport_behind (h : byte src 9 = protoTcp ∨ byte src 9 = protoUdp) (m : List UInt8) :
    Behind (transportHeader tosIgnoreFlag src ++ (fragments src ++ m)) 0 (40 + fr6 src, byte src 9) := by
  have hprotocol : IsProtocol (byte src 9) := by
    rcases h with h | h <;> rw [h] <;> decide
  have hnexthdr : byte (transportHeader tosIgnoreFlag src ++ (fragments src ++ m)) 6 = _ :=
    header_nexthdr tosIgnoreFlag (fragments src ++ m)
  rw [protocolNexthdr_eq h] at hnexthdr
  by_cases hdf : field16 src 6 = ipDf
  · have hfr : fr6 src = 0 := by rw [fr6_eq, if_pos hdf]
    have hhop : byte src 9 ≠ nexthdrHop := by
      rcases h with h | h <;> rw [h] <;> decide
    rw [if_pos hdf] at hnexthdr
    refine ⟨(40 + fr6 src, byte src 9), ?_, ?_⟩
    · rw [start, Nat.zero_add, hnexthdr, if_neg hhop, hfr]
    · split
      · exact ⟨.refl, hprotocol⟩
      · rfl
  · have hfr : fr6 src = 8 := by rw [fr6_eq, if_neg hdf]
    have hsome : fragments src = fragHeader src 0 := if_neg hdf
    have hlen : (transportHeader tosIgnoreFlag src ++ (fragments src ++ m)).length = 48 + m.length := by
      have hfragment : (fragments src).length = 8 := hfr
      rw [List.length_append, List.length_append, transportHeader_length, hfragment]
      omega
    rw [if_neg hdf] at hnexthdr
    refine ⟨(40, nexthdrFragment), ?_, ?_⟩
    · rw [start, Nat.zero_add, hnexthdr]
      rfl
    · rw [if_pos (by rw [hlen]; omega)]
      refine ⟨.single ?_, hprotocol⟩
      have hbyte : byte (transportHeader tosIgnoreFlag src ++ (fragments src ++ m)) 40 = byte src 9 := by
        rw [byte_append (by rw [transportHeader_length]), transportHeader_length, hsome, fragHeader_append,
          protocolNexthdr_eq h]
        rfl
      rw [Orbit.Follows, next, if_neg (by decide), if_neg (by decide), if_pos rfl, if_pos (by rw [hlen]; omega), hbyte, hfr]

theorem transport6_data (m : List UInt8) (n : ℕ) :
    ((transportHeader tosIgnoreFlag src ++ (fragments src ++ m)).drop (40 + fr6 src)).take n = m.take n := by
  have hlen : (transportHeader tosIgnoreFlag src ++ fragments src).length = 40 + fr6 src := by
    rw [List.length_append, transportHeader_length]
  rw [← List.append_assoc, List.drop_left' hlen]

end Forward

/-! ## Checksums that verify -/

/-- The checksum of `n` bytes behind the IPv4 header verifies. -/
def Verifies4 (m : List UInt8) (n : ℕ) : Prop :=
  Verifies (pseudo4 (bytes4 m 12) (bytes4 m 16) n (byte m 9) ++ (m.drop (hdrLen m 0)).take n)

/-- The checksum of `n` bytes behind the headers of IPv6 verifies. -/
def Verifies6 (m : List UInt8) (p : Place) (n : ℕ) : Prop :=
  Verifies (pseudo6 ((m.drop 8).take 16) ((m.drop 24).take 16) n p.2 ++ (m.drop p.1).take n)

section Checksums
variable {k : Checksums} {tosIgnoreFlag : Bool} {src dst : List UInt8}

theorem protocol_ne_zero {proto : UInt8} (h : proto = protoTcp ∨ proto = protoUdp) : proto ≠ 0 := by
  rcases h with h | h <;> rw [h] <;> decide

theorem ValidHeader.lt (h : ValidHeader src) : src.length < 65536 := by
  rw [← h.totLen]
  exact field16_lt src 2

theorem transport6_verifies (h : ValidHeader src) (hproto : byte src 9 = protoTcp ∨ byte src 9 = protoUdp) {n : ℕ}
    (hn : n ≤ src.length - hdrLen src 0) :
    Verifies6 (transport6 tosIgnoreFlag src src.length dst) (40 + fr6 src, byte src 9) n ↔ Verifies4 src n := by
  have hlt := h.lt
  have hdata : (data4 src src.length ++ dst.drop (40 + fr6 src + (data4 src src.length).length)).take n =
      (src.drop (hdrLen src 0)).take n := by
    rw [List.take_append_of_le_length (by rw [data4_length le_rfl]; exact hn), data4, List.take_take, Nat.min_eq_left hn]
  rw [Verifies6, Verifies4, Verifies, Verifies, transport6, header_saddr, header_daddr, transport6_data, hdata,
    onesSum_pseudo rfl rfl (by omega) (protocol_ne_zero hproto)]

/-- `siit_xmit` has room for a packet of TCP or UDP. -/
theorem room_of_valid (h : ValidHeader src) (hdst : dst.length = src.length + skbDelta src) : Room src src.length dst := by
  have hihl := h.ihl
  have hfits := h.fits
  have hdelta := skbDelta_fragLen src
  have hfr : fragLen src 0 false = fr6 src := by
    rw [fragLen, fr6_eq, Nat.zero_add]
    simp only [Bool.false_eq_true, or_false]
  exact ⟨hihl, hfits, le_rfl, by omega⟩

/-! ## From IPv6 -/

theorem take_four {m : List UInt8} {i : ℕ} (h : i + 4 ≤ m.length) (n : ℕ) :
    (m.drop i).take (4 + n) = bytes4 m i ++ (m.drop (i + 4)).take n := by
  rw [drop_eq_cons (m := m) (i := i) (by omega), drop_eq_cons (m := m) (i := i + 1) (by omega),
    drop_eq_cons (m := m) (i := i + 2) (by omega), drop_eq_cons (m := m) (i := i + 3) (by omega), Nat.add_comm 4 n]
  rfl

theorem take_sixteen {m : List UInt8} {i : ℕ} (h : i + 16 ≤ m.length) :
    (m.drop i).take 16 = bytes4 m i ++ (bytes4 m (i + 4) ++ (bytes4 m (i + 8) ++ bytes4 m (i + 12))) := by
  have hlast := take_four (m := m) (i := i + 12) (by omega) 0
  rw [List.take_zero, List.append_nil] at hlast
  rw [← hlast]
  exact (take_four (by omega) 12).trans (congrArg _ ((take_four (by omega) 8).trans (congrArg _ (take_four (by omega) 4))))

/-- The addresses are those of the translator, from the first word on. -/
structure Prefixed (src : List UInt8) : Prop where
  saddr : bytes4 src 8 = beBytes 0 ∧ bytes4 src 12 = beBytes 0 ∧ bytes4 src 16 = beBytes translatedPrefix
  daddr : bytes4 src 24 = beBytes 0 ∧ bytes4 src 28 = beBytes 0 ∧ bytes4 src 32 = beBytes mappedPrefix

theorem Prefixed.words (h : Prefixed src) (hlong : 40 ≤ src.length) :
    (src.drop 8).take 16 = prefixed translatedPrefix (bytes4 src 20) ∧
      (src.drop 24).take 16 = prefixed mappedPrefix (bytes4 src 36) := by
  obtain ⟨h8, h12, h16⟩ := h.saddr
  obtain ⟨h24, h28, h32⟩ := h.daddr
  rw [take_sixteen (by omega), take_sixteen (by omega), h8, h12, h16, h24, h28, h32, prefixed, prefixed]
  exact ⟨rfl, rfl⟩

/-- The copy of a segment that comes out verifies exactly if the segment does. -/
theorem copied_verifies (h : Prefixed src) (hlong : 40 ≤ src.length) {st : Ext} {m : List UInt8} {len : ℤ}
    (hcopied : Copied k tosIgnoreFlag src st m len) (hproto : st.nextHdr = protoTcp ∨ st.nextHdr = protoUdp) {n : ℕ}
    (hn : n ≤ src.length - (0 + 40 + st.optsLen)) (hlt : n < 65536) :
    Verifies4 m n ↔ Verifies6 src (st.place 0) n := by
  obtain ⟨hsaddr, hdaddr⟩ := h.words hlong
  have hbyte : ∀ i < 20, byte m i =
      byte (ip4HeaderChecked k tosIgnoreFlag src 0 st (ntotLen src 0 (0 + 40 + st.optsLen)) st.nextHdr) i := by
    intro i hi
    rw [← hcopied.header, List.drop_zero, byte_take hi]
  have hihl : hdrLen m 0 = 20 := by
    have hversion : byte (ip4HeaderChecked k tosIgnoreFlag src 0 st (ntotLen src 0 (0 + 40 + st.optsLen)) st.nextHdr) 0 =
        0x45 := rfl
    rw [hdrLen, hbyte 0 (by norm_num), hversion]
    rfl
  have hprotocol : byte m 9 = st.nextHdr := by
    rw [hbyte 9 (by norm_num)]
    rfl
  have hsource : bytes4 m 12 = bytes4 src 20 := by
    rw [bytes4_congr fun j hj => hbyte (12 + j) (by omega)]
    rfl
  have hdest : bytes4 m 16 = bytes4 src 36 := by
    rw [bytes4_congr fun j hj => hbyte (16 + j) (by omega)]
    rfl
  have hdata : (m.drop 20).take n = (src.drop (0 + 40 + st.optsLen)).take n := by
    rw [← hcopied.data, List.take_take, Nat.min_eq_left hn]
  have hplace : st.place 0 = (0 + 40 + st.optsLen, st.nextHdr) := rfl
  rw [Verifies4, Verifies6, Verifies, Verifies, hihl, hprotocol, hsource, hdest, hdata, hplace, hsaddr, hdaddr]
  exact iff_of_eq (congrArg (· = 65535) (onesSum_pseudo rfl rfl hlt (protocol_ne_zero hproto) _).symm)

/-- A segment of TCP, or a datagram of UDP with a checksum, in a packet that is not a fragment. -/
structure Checked (src : List UInt8) : Prop where
  valid : ValidHeader src
  whole : First src 0 ∧ ¬ More src 0
  segment : Segment src
  checksum : ¬ ZeroChecksum src

/-- A checksum that is copied verifies behind the new addresses exactly if it did behind the old ones, in both
directions; of the data any number of bytes may be covered. -/
theorem siit_checksum_neutral (k : Checksums) (tosIgnoreFlag : Bool) :
    (∀ src dst : List UInt8, Checked src → dst.length = src.length + skbDelta src →
      ∃ out p, ip4Ip6 k tosIgnoreFlag src src.length dst = .ok out ∧ Behind out 0 p ∧ p.2 = byte src 9 ∧
        field16 out 4 - (p.1 - 40) = src.length - hdrLen src 0 ∧
        ∀ n ≤ src.length - hdrLen src 0, Verifies6 out p n ↔ Verifies4 src n) ∧
    ∀ (host : ByteOrder) (src dst m : List UInt8) (p : Place) (len : ℤ), 40 ≤ src.length → Prefixed src → Behind src 0 p →
      p.2 = protoTcp ∨ p.2 = protoUdp → ip6Ip4 k host tosIgnoreFlag src src.length dst = .ok (m, len) →
        len - 20 = (src.length - p.1 : ℕ) ∧
          ∀ n ≤ src.length - p.1, n < 65536 → (Verifies4 m n ↔ Verifies6 src p n) := by
  constructor
  · intro src dst h hdst
    have hihl := h.valid.ihl
    have hfits := h.valid.fits
    have hrun := ip4Ip6_segment k tosIgnoreFlag (room_of_valid h.valid hdst) h.segment
    rw [if_neg fun hz => h.checksum hz.1, if_neg h.checksum] at hrun
    refine ⟨_, (40 + fr6 src, byte src 9), hrun, transport_behind tosIgnoreFlag h.segment.protocol _, rfl, ?_,
      fun n hn => transport6_verifies h.valid h.segment.protocol hn⟩
    rw [transport6, header_payloadLen tosIgnoreFlag h.valid.totLen hihl hfits]
    dsimp only
    omega
  · intro host src dst m p len hlong hprefixed hp hproto hrun
    have hkind : p.2 ≠ nexthdrIcmp := by
      rcases hproto with h | h <;> rw [h] <;> decide
    obtain ⟨st, -, rfl, hcopied⟩ := ip6Ip4_copied hlong hrun hp hkind
    refine ⟨?_, fun n hn hlt => copied_verifies hprefixed hlong hcopied hproto hn hlt⟩
    rw [hcopied.len]
    exact add_sub_cancel_left _ _

/-- A segment of four bytes, with `DF` set. -/
def tcpSegment : List UInt8 := [0x45, 0, 0, 24, 0, 0, 0x40, 0, 64, 6, 0, 0, 10, 0, 0, 1, 10, 0, 0, 2, 0, 80, 0, 80]

theorem tcpSegment_checked : Checked tcpSegment where
  valid := ⟨by decide, by decide, by decide⟩
  whole := by decide
  segment := ⟨.inl rfl, fun h => absurd h (by decide)⟩
  checksum := by decide

theorem siit_checksum_neutral_segments :
    (∃ out p, ip4Ip6 kernelChecksums false tcpSegment tcpSegment.length (List.replicate 44 0) = .ok out ∧
      (Verifies6 out p 4 ↔ Verifies4 tcpSegment 4)) ∧
    ∃ m len, ip6Ip4 kernelChecksums .big false optionsUdp optionsUdp.length (List.replicate 2048 0) = .ok (m, len) ∧
      (Verifies4 m 8 ↔ Verifies6 optionsUdp (48, protoUdp) 8) := by
  obtain ⟨hthere, hback⟩ := siit_checksum_neutral kernelChecksums false
  constructor
  · obtain ⟨out, p, hrun, -, -, -, hverifies⟩ := hthere tcpSegment (List.replicate 44 0) tcpSegment_checked (by decide)
    exact ⟨out, p, hrun, hverifies 4 (by decide)⟩
  · obtain ⟨r, hr⟩ := optionsUdp_ok
    obtain ⟨-, hverifies⟩ := hback .big optionsUdp (List.replicate 2048 0) r.1 (48, protoUdp) r.2 (by decide)
      ⟨by decide, by decide⟩ optionsUdp_behind (.inr rfl) hr
    exact ⟨r.1, r.2, hr, hverifies 8 (by decide) (by decide)⟩

end Checksums

end Neufbox.Siit
