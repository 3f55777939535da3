import Neufbox.Siit.Reassembly

/-! # Datagrams without a checksum

UDP over IPv4 may have no checksum, over IPv6 it has one. `siit_xmit` has it computed in one of two places: in
`ip4_ip6`, over the data of the packet, or before the packet is cut, over the length in the UDP header. -/
namespace Neufbox.Siit
open Blocks Guarded ByteStore OnesComplement
set_option autoImplicit false
set_option maxHeartbeats 250000
set_option maxRecDepth 120000

/-! ## Model -/

/-- `siit_xmit` for a packet of IPv4: what is sent, and how it ends. -/
def siitXmit4 (k : Checksums) (csumTcpudpMagic : TcpudpMagic) (tosIgnoreFlag : Bool) (src : List UInt8)
    (alloc : ℕ → ℕ → Option (List UInt8)) (buff : List UInt8) : List (List UInt8) × Run Unit :=
  if src.length ≠ field16 src 2 then ([], .error .dropped)
  else
    let hdrLen := 4 * (byte src 0 &&& 0x0f).toNat
    let dataLen : ℤ := src.length - hdrLen
    if field16 src 6 &&& ipDf = 0 ∧ (fragBuffSize : ℤ) < dataLen then
      ip4Fragment k csumTcpudpMagic tosIgnoreFlag src hdrLen alloc buff
    else
      match alloc 0 (src.length + skbDelta src) with
      | none => ([], .error .dropped)
      | some skb =>
        match ip4Ip6 k tosIgnoreFlag src src.length skb with
        | .error e => ([], .error e)
        | .ok out => ([out], .ok ())

/-! ## Datagrams -/

/-- A datagram that is not a fragment, with zero for its checksum. -/
structure BareDatagram (src : List UInt8) : Prop where
  valid : ValidHeader src
  protocol : byte src 9 = protoUdp
  whole : First src 0 ∧ ¬ More src 0
  header : hdrLen src 0 + 8 ≤ src.length
  check : field16 src (hdrLen src 0 + 6) = 0

def dataLen (src : List UInt8) : ℕ := src.length - hdrLen src 0

/-- The datagram with a checksum. -/
def udpDatagram (src : List UInt8) (check : ℕ) : List UInt8 := overlay (src.drop (hdrLen src 0)) 6 (half check)

/-- The checksum in a packet of IPv6. -/
def udpCheck (src out : List UInt8) : ℕ := field16 out (40 + fr6 src + 6)

/-- The packet begins the datagram with its checksum, which is not zero and verifies over the whole of it. -/
structure Checks (src out : List UInt8) : Prop where
  nonzero : udpCheck src out ≠ 0
  data : (out.drop (40 + fr6 src)).take (field16 out 4 - fr6 src) =
    (udpDatagram src (udpCheck src out)).take (field16 out 4 - fr6 src)
  verifies : Verifies (pseudo6 ((out.drop 8).take 16) ((out.drop 24).take 16) (dataLen src) protoUdp ++
    udpDatagram src (udpCheck src out))

/-- No buffer is left, and what is sent has its checksum, which is in the first packet. -/
def AlwaysChecked (src : List UInt8) (r : List (List UInt8) × Run Unit) : Prop :=
  (r.2 = .ok () ∨ r.2 = .error .dropped) ∧ ∀ out ∈ r.1.head?, Checks src out

section Datagram
variable {src : List UInt8}

theorem alwaysChecked_dropped (src : List UInt8) : AlwaysChecked src ([], .error .dropped) :=
  ⟨.inr rfl, fun out ho => absurd ho (Option.not_mem_none out)⟩

theorem not_alwaysChecked {e : Fault} (he : e ≠ .dropped) (outs : List (List UInt8)) :
    ¬ AlwaysChecked src (outs, .error e) := by
  rintro ⟨hok | hdropped, -⟩
  · cases hok
  · cases hdropped
    exact he rfl

theorem alwaysChecked_cons {r : Run Unit} (hr : r = .ok () ∨ r = .error .dropped) (out : List UInt8)
    (outs : List (List UInt8)) : AlwaysChecked src (out :: outs, r) ↔ Checks src out := by
  constructor
  · intro h
    exact h.2 out rfl
  · intro h
    refine ⟨hr, fun o ho => ?_⟩
    obtain rfl : out = o := Option.some.inj ho
    exact h

theorem BareDatagram.zeroChecksum (h : BareDatagram src) : ZeroChecksum src :=
  ⟨h.protocol, h.whole.1, by rw [Nat.zero_add]; exact h.check⟩

theorem BareDatagram.segment (h : BareDatagram src) : Segment src := ⟨.inr h.protocol, fun _ _ => h.header⟩

theorem udpDatagram_length (h : BareDatagram src) (check : ℕ) : (udpDatagram src check).length = dataLen src := by
  have hheader := h.header
  rw [udpDatagram, overlay_length (by rw [half_length, List.length_drop]; omega), List.length_drop, dataLen]

theorem udpDatagram_zero (h : BareDatagram src) : udpDatagram src 0 = src.drop (hdrLen src 0) := by
  have hheader := h.header
  have hfield := half_field16 src (hdrLen src 0 + 6)
  rw [h.check] at hfield
  have hdrop : (src.drop (hdrLen src 0)).drop 6 = half 0 ++ (src.drop (hdrLen src 0)).drop 8 := by
    rw [List.drop_drop, List.drop_drop, drop_eq_cons (show hdrLen src 0 + 6 < src.length by omega),
      drop_eq_cons (show hdrLen src 0 + 6 + 1 < src.length by omega), hfield]
    rfl
  have hsplit := List.take_append_drop 6 (src.drop (hdrLen src 0))
  rw [hdrop] at hsplit
  exact hsplit

/-! ## When a checksum verifies -/

/-- What is in front of the checksum, and what is behind it. -/
theorem onesSum_udpDatagram (h : BareDatagram src) {check : ℕ} (hcheck : check < 65536) :
    ∃ n, 0 < n ∧ onesSum (covered src (dataLen src)) = residue n ∧
      onesSum (pseudo4 (bytes4 src 12) (bytes4 src 16) (dataLen src) protoUdp ++ udpDatagram src check) =
        residue (n + check) := by
  have hheader := h.header
  have hlen : dataLen src < 65536 := by
    have hlt := h.valid.lt
    rw [dataLen]
    omega
  have hsaddr : (bytes4 src 12).length = 4 := rfl
  have hdaddr : (bytes4 src 16).length = 4 := rfl
  have hsix : ((src.drop (hdrLen src 0)).take 6).length = 6 := by
    rw [List.length_take, List.length_drop]
    omega
  have hpseudo : 2 ∣ (pseudo4 (bytes4 src 12) (bytes4 src 16) (dataLen src) protoUdp).length := by
    rw [pseudo4_length hsaddr hdaddr]
    exact Dvd.intro 6 rfl
  have hfront : 2 ∣ (pseudo4 (bytes4 src 12) (bytes4 src 16) (dataLen src) protoUdp ++
      (src.drop (hdrLen src 0)).take 6).length := by
    rw [List.length_append, pseudo4_length hsaddr hdaddr, hsix]
    exact Dvd.intro 9 rfl
  have hsum : ∀ c < 65536, onesSum (pseudo4 (bytes4 src 12) (bytes4 src 16) (dataLen src) protoUdp ++ udpDatagram src c) =
      residue (others (pseudo4 (bytes4 src 12) (bytes4 src 16) (dataLen src) protoUdp ++
        (src.drop (hdrLen src 0)).take 6) ((src.drop (hdrLen src 0)).drop 8) + c) := by
    intro c hc
    rw [← onesSum_field hfront _ hc, List.append_assoc]
    rfl
  refine ⟨_, ?_, ?_, hsum check hcheck⟩
  · have hudp : protoUdp.toNat = 17 := rfl
    rw [others, halves_append hpseudo, List.sum_append, halves_pseudo4 hsaddr hdaddr hlen]
    omega
  · have hzero := hsum 0 (by norm_num)
    rw [udpDatagram_zero h, Nat.add_zero] at hzero
    rw [covered, List.take_of_length_le (by rw [List.length_drop, dataLen]), hzero]

theorem onesSum_covered_pos (src : List UInt8) {n : ℕ} (hn : n < 65536) : 0 < onesSum (covered src n) := by
  have hsaddr : (bytes4 src 12).length = 4 := rfl
  have hdaddr : (bytes4 src 16).length = 4 := rfl
  have hudp : protoUdp.toNat = 17 := rfl
  rw [onesSum_pos, covered, halves_append (by rw [pseudo4_length hsaddr hdaddr]; exact Dvd.intro 6 rfl), List.sum_append,
    halves_pseudo4 hsaddr hdaddr hn]
  omega

/-- A checksum over some of the bytes is one over all of them if the sums are the same. -/
theorem verifies_iff (h : BareDatagram src) {n : ℕ} (hn : n < 65536) :
    checksum (covered src n) ≠ 0 ∧ Verifies (pseudo6 (prefixed mappedPrefix (bytes4 src 12))
        (prefixed translatedPrefix (bytes4 src 16)) (dataLen src) protoUdp ++ udpDatagram src (checksum (covered src n))) ↔
      onesSum (covered src n) ≠ 65535 ∧ onesSum (covered src n) = onesSum (covered src (dataLen src)) := by
  have hlen : dataLen src < 65536 := by
    have hlt := h.valid.lt
    rw [dataLen]
    omega
  have hpos := onesSum_covered_pos src hn
  have hcheck : checksum (covered src n) < 65536 := by
    rw [checksum]
    omega
  obtain ⟨m, hm, hwhole, hfield⟩ := onesSum_udpDatagram h hcheck
  rw [Verifies, onesSum_pseudo rfl rfl hlen (by decide), hfield, hwhole, Ne, checksum_eq_zero, checksum]
  have hle := onesSum_le (covered src n)
  generalize onesSum (covered src n) = s at *
  unfold residue
  split_ifs <;> omega

/-- A packet has the first `n` bytes of the datagram with a checksum. -/
structure Bears (src : List UInt8) (n check : ℕ) (out : List UInt8) : Prop where
  payloadLen : field16 out 4 = n + fr6 src
  saddr : (out.drop 8).take 16 = prefixed mappedPrefix (bytes4 src 12)
  daddr : (out.drop 24).take 16 = prefixed translatedPrefix (bytes4 src 16)
  data : (out.drop (40 + fr6 src)).take n = (udpDatagram src check).take n

theorem Bears.udpCheck {n check : ℕ} {out : List UInt8} (hb : Bears src n check out) (h : BareDatagram src) (hn : 8 ≤ n)
    (hcheck : check < 65536) : udpCheck src out = check := by
  have hheader := h.header
  have hfield : field16 (udpDatagram src check) 6 = check :=
    field16_overlay (by rw [List.length_drop]; omega) hcheck
  have hbyte : ∀ i < n, byte out (40 + fr6 src + i) = byte (udpDatagram src check) i := by
    intro i hi
    rw [← byte_drop, ← byte_take hi, hb.data, byte_take hi]
  rw [Siit.udpCheck, field16, Nat.add_assoc (40 + fr6 src), hbyte 6 (by omega), hbyte (6 + 1) (by omega)]
  exact hfield

theorem Bears.checks_iff {n m : ℕ} {out : List UInt8} (hb : Bears src n (checksum (covered src m)) out)
    (h : BareDatagram src) (hn : 8 ≤ n) (hm : m < 65536) :
    Checks src out ↔
      onesSum (covered src m) ≠ 65535 ∧ onesSum (covered src m) = onesSum (covered src (dataLen src)) := by
  have hcheck := hb.udpCheck h hn (by rw [checksum]; omega)
  rw [← verifies_iff h hm]
  constructor
  · intro hc
    have hnonzero := hc.nonzero
    have hverifies := hc.verifies
    rw [hcheck] at hnonzero hverifies
    rw [hb.saddr, hb.daddr] at hverifies
    exact ⟨hnonzero, hverifies⟩
  · rintro ⟨hnonzero, hverifies⟩
    refine ⟨by rwa [hcheck], ?_, ?_⟩
    · rw [hcheck, hb.payloadLen, Nat.add_sub_cancel]
      exact hb.data
    · rwa [hcheck, hb.saddr, hb.daddr]

/-! ## In one packet -/

section Direct
variable {k : Checksums} (tosIgnoreFlag : Bool) {skb : List UInt8}

theorem plen6_eq (h : BareDatagram src) (hlen : src.length + fr6 src < 65536) :
    plen6 src - fr6 src = (dataLen src : ℕ) := by
  have hheader := h.header
  rw [plen6, h.valid.totLen, Nat.mod_eq_of_lt hlen, dataLen]
  omega

theorem transport6_fits (skb : List UInt8) :
    40 + fr6 src + dataLen src ≤ (transport6 tosIgnoreFlag src src.length skb).length := by
  have hdata : (data4 src src.length).length = dataLen src := data4_length le_rfl
  have hfragments : (fragments src).length = fr6 src := rfl
  rw [transport6, List.length_append, List.length_append, List.length_append, hdata, transportHeader_length, hfragments]
  omega

/-- The sum is over the data, and the length in front of it is the one of the data. -/
theorem direct_bears (hk : k.Lawful6) (h : BareDatagram src) (hlen : src.length + fr6 src < 65536)
    (hskb : skb.length = src.length + skbDelta src) :
    ∃ out, ip4Ip6 k tosIgnoreFlag src src.length skb = .ok out ∧
      Bears src (dataLen src) (checksum (covered src (dataLen src))) out := by
  have hheader := h.header
  have hihl := h.valid.ihl
  have hshort := h.valid.lt
  have hdataLen : dataLen src = src.length - hdrLen src 0 := rfl
  have hroom := room_of_valid h.valid hskb
  have hrun := ip4Ip6_segment k tosIgnoreFlag hroom h.segment
  rw [if_neg fun hz => h.whole.2 hz.2, if_pos h.zeroChecksum, plen6_eq h hlen] at hrun
  have hpayload : field16 (transport6 tosIgnoreFlag src src.length skb) 4 = dataLen src + fr6 src := by
    rw [transport6, header_payloadLen tosIgnoreFlag h.valid.totLen hihl h.valid.fits]
    omega
  have hsaddr : ((transport6 tosIgnoreFlag src src.length skb).drop 8).take 16 = prefixed mappedPrefix (bytes4 src 12) :=
    header_saddr tosIgnoreFlag _
  have hdaddr : ((transport6 tosIgnoreFlag src src.length skb).drop 24).take 16 =
      prefixed translatedPrefix (bytes4 src 16) := header_daddr tosIgnoreFlag _
  have hdata : ((transport6 tosIgnoreFlag src src.length skb).drop (40 + fr6 src)).take (dataLen src) =
      src.drop (hdrLen src 0) := by
    have hdata4 : data4 src src.length = src.drop (hdrLen src 0) :=
      List.take_of_length_le (by rw [List.length_drop])
    rw [transport6, transport6_data, hdata4]
    exact List.take_left' (by rw [List.length_drop, hdataLen])
  have hlong : 40 + fr6 src + dataLen src ≤ (transport6 tosIgnoreFlag src src.length skb).length :=
    transport6_fits tosIgnoreFlag skb
  generalize transport6 tosIgnoreFlag src src.length skb = m at *
  have hagain : ∀ c, overlay (overlay m (40 + fr6 src + 6) (half 0)) (40 + fr6 src + 6) (half c) =
      overlay m (40 + fr6 src + 6) (half c) := fun c => overlay_again (by rw [half_length]; omega) rfl
  rw [checksum6_ok k m 0 (40 + fr6 src) 6 protoUdp (by omega) (by omega) (by rw [Int.toNat_natCast]; exact hlong),
    hagain] at hrun
  have hwithin : ∀ c, ((overlay m (40 + fr6 src + 6) (half c)).drop (40 + fr6 src)).take (dataLen src) =
      udpDatagram src c := by
    intro c
    rw [overlay_within hlong (by rw [half_length]; omega), hdata]
    rfl
  have hfirst : ∀ c d, d + 16 ≤ 40 → ((overlay m (40 + fr6 src + 6) (half c)).drop d).take 16 = (m.drop d).take 16 :=
    fun c d hd => overlay_before (by omega) (by omega)
  have hsum : sum6 k (overlay m (40 + fr6 src + 6) (half 0)) 0 (40 + fr6 src) (dataLen src : ℕ) protoUdp =
      checksum (covered src (dataLen src)) := by
    rw [sum6, Nat.zero_add, Nat.zero_add, Int.toNat_natCast, hfirst 0 8 (by norm_num), hfirst 0 24 (by norm_num), hsaddr,
      hdaddr, hwithin, udpDatagram_zero h, hk _ _ _ (prefixed_length rfl _) (prefixed_length rfl _), checksum, checksum,
      onesSum_pseudo rfl rfl (by omega) (by decide), covered,
      List.take_of_length_le (by rw [List.length_drop, hdataLen])]
  rw [hsum] at hrun
  refine ⟨_, hrun, ?_, ?_, ?_, ?_⟩
  · rw [field16, byte_overlay (by rw [half_length]; omega) (.inl (by omega)),
      byte_overlay (by rw [half_length]; omega) (.inl (by omega))]
    exact hpayload
  · rw [hfirst _ 8 (by norm_num), hsaddr]
  · rw [hfirst _ 24 (by norm_num), hdaddr]
  · rw [hwithin, List.take_of_length_le (udpDatagram_length h _).le]

/-- With the fragment header the length does not fit, and the sum is over less than nothing. -/
theorem direct_wraps (h : BareDatagram src) (hlen : 65536 ≤ src.length + fr6 src)
    (hskb : skb.length = src.length + skbDelta src) :
    ip4Ip6 k tosIgnoreFlag src src.length skb = .error .negativeLength := by
  have hheader := h.header
  have hihl := h.valid.ihl
  have hshort := h.valid.lt
  have hfr : fr6 src ≤ 8 := by
    rw [fr6_eq]
    split <;> omega
  have hroom := room_of_valid h.valid hskb
  have hrun := ip4Ip6_segment k tosIgnoreFlag hroom h.segment
  rw [if_neg fun hz => h.whole.2 hz.2, if_pos h.zeroChecksum] at hrun
  have hnegative : plen6 src - fr6 src < 0 := by
    rw [plen6, h.valid.totLen]
    omega
  have hdataLen : dataLen src = src.length - hdrLen src 0 := rfl
  have hlong : 40 + fr6 src + dataLen src ≤ (transport6 tosIgnoreFlag src src.length skb).length :=
    transport6_fits tosIgnoreFlag skb
  rw [hrun, checksum6, write_ok (by rw [half_length]; omega), ok_bind, region, if_pos hnegative]
  rfl

end Direct

/-! ## In fragments -/

section Pieces
variable {k : Checksums} {csumTcpudpMagic : TcpudpMagic} {alloc : ℕ → ℕ → Option (List UInt8)} {buff : List UInt8}

theorem BareDatagram.long (h : BareDatagram src) (hlong : fragBuffSize < dataLen src) : Long src where
  valid := h.valid
  protocol := .inr h.protocol
  long := hlong
  fits := by
    have hoffset : field16 src 6 &&& ipOffset = 0 := h.whole.1
    have hshort := h.valid.lt
    rw [hoffset]
    omega

theorem filled_drop (h : BareDatagram src) :
    (filled src).drop (hdrLen src 0) = udpDatagram src (checksum (covered src (udpLen src))) := by
  have hheader := h.header
  have hwithin : ((overlay src (hdrLen src 0 + 6) (half (checksum (covered src (udpLen src))))).drop (hdrLen src 0)).take
      (src.length - hdrLen src 0) = overlay ((src.drop (hdrLen src 0)).take (src.length - hdrLen src 0)) 6
        (half (checksum (covered src (udpLen src)))) := overlay_within (by omega) (by rw [half_length]; omega)
  rw [List.take_of_length_le (by rw [List.length_drop, overlay_length (by rw [half_length]; omega)]),
    List.take_of_length_le (by rw [List.length_drop])] at hwithin
  rw [filled, if_pos h.zeroChecksum]
  exact hwithin

/-- The first fragment has the checksum over the length in the UDP header. -/
theorem fragment_bears (h : BareDatagram src) (hdf : field16 src 6 &&& ipDf = 0) {n fragOff : ℕ} {out : List UInt8}
    (hout : Fragment (filled src) (hdrLen src 0) n fragOff out) :
    Bears src n (checksum (covered src (udpLen src))) out := by
  have hihl := h.valid.ihl
  have hheader := h.header
  have hfr : fr6 src = 8 := by
    rw [fr6_eq, if_neg]
    intro hne
    rw [hne] at hdf
    exact absurd hdf (by decide)
  have hbyte : ∀ i < 20, byte (filled src) i = byte src i := fun i hi => filled_byte hihl hheader hi
  have hsaddr : bytes4 (filled src) 12 = bytes4 src 12 := bytes4_congr fun j hj => hbyte (12 + j) (by omega)
  have hdaddr : bytes4 (filled src) 16 = bytes4 src 16 := bytes4_congr fun j hj => hbyte (16 + j) (by omega)
  refine ⟨by rw [hfr]; exact hout.payloadLen, ?_, ?_, ?_⟩
  · rw [hout.saddr, hsaddr]
  · rw [hout.daddr, hdaddr]
  · rw [hfr, hout.data, filled_drop h]

theorem cut_checked_iff (hmagic : LawfulMagic k csumTcpudpMagic) (tosIgnoreFlag : Bool) (h : BareDatagram src)
    (hdf : field16 src 6 &&& ipDf = 0) (hlong : fragBuffSize < dataLen src)
    (halloc : ∀ i n skb, alloc i n = some skb → skb.length = n) (hbuff : buff.length = fragBuffSize + hdrLen src 0) :
    AlwaysChecked src (ip4Fragment k csumTcpudpMagic tosIgnoreFlag src (hdrLen src 0) alloc buff) ↔
      udpLen src ≤ dataLen src ∧ (alloc 0 (fragBuffSize + hdrLen src 0 + 28) = none ∨
        onesSum (covered src (udpLen src)) = 65535 ∨
        onesSum (covered src (udpLen src)) = onesSum (covered src (dataLen src))) := by
  have hsize : fragBuffSize = 1232 := rfl
  have hL := h.long hlong
  by_cases hudp : udpLen src ≤ dataLen src
  · have hrun := ip4Fragment_filled hmagic hL tosIgnoreFlag (fun hz => h.whole.2 hz.2) (fun _ => hudp) alloc buff
    have hready := hL.ready hbuff
    rw [hrun]
    by_cases hsum : onesSum (covered src (udpLen src)) = 65535
    · rw [fragLoop_dropped k tosIgnoreFlag halloc hL.cut _ src.length 0 hready
        ((lacks_iff hL buff).mpr ⟨h.zeroChecksum, hsum⟩)]
      exact iff_of_true (alwaysChecked_dropped src) ⟨hudp, .inr (.inl hsum)⟩
    · have hchecked : ¬ Lacks (filled src) (firstState src buff) := (lacks_iff hL buff).not.mpr fun hl => hsum hl.2
      have hmore : ¬ (firstState src buff).restLen ≤ fragBuffSize := not_le.mpr hlong
      obtain ⟨buff', hpiece, -, hsend⟩ := hready.more k tosIgnoreFlag hL.cut hchecked hmore
      cases hskb : alloc 0 (fragBuffSize + hdrLen src 0 + 28) with
      | none =>
        rw [fragLoop_unsent k tosIgnoreFlag hmore hpiece hskb]
        exact iff_of_true (alwaysChecked_dropped src) ⟨hudp, .inl rfl⟩
      | some skb =>
        obtain ⟨out, hout, -, -, hfragment⟩ := hsend skb (halloc _ _ _ hskb)
        have hfuel : (firstState src buff).restLen ≤ (src.length + 1) * fragBuffSize := by
          rw [firstState, hsize]
          dsimp only
          omega
        have hends := fragLoop_ends k tosIgnoreFlag halloc hL.cut (field16 src 6 &&& ipMf = 0) 0 hready hchecked hfuel
        have hfirst : Checks src out ↔ onesSum (covered src (udpLen src)) = onesSum (covered src (dataLen src)) := by
          rw [(fragment_bears h hdf hfragment).checks_iff h (by omega) (field16_lt src _)]
          exact and_iff_right hsum
        rw [fragLoop_more k tosIgnoreFlag hmore hpiece hskb hout] at hends ⊢
        rw [alwaysChecked_cons hends, hfirst]
        constructor
        · exact fun heq => ⟨hudp, .inr (.inr heq)⟩
        · rintro ⟨-, hnone | hones | heq⟩
          · cases hnone
          · exact absurd hones hsum
          · exact heq
  · have hfill := fillChecksum_eq hmagic hL.eight
    rw [if_neg fun hz => h.whole.2 hz.2, if_pos ⟨h.zeroChecksum, not_le.mp hudp⟩] at hfill
    rw [ip4Fragment, hfill]
    exact iff_of_false (not_alwaysChecked (by decide) []) fun hcond => hudp hcond.1

end Pieces

/-! ## Both ways -/

section Sent
variable {k : Checksums} (csumTcpudpMagic : TcpudpMagic) (tosIgnoreFlag : Bool) {alloc : ℕ → ℕ → Option (List UInt8)}
  {buff : List UInt8}

theorem siitXmit4_eq (h : BareDatagram src) : siitXmit4 k csumTcpudpMagic tosIgnoreFlag src alloc buff =
    if field16 src 6 &&& ipDf = 0 ∧ fragBuffSize < dataLen src then
      ip4Fragment k csumTcpudpMagic tosIgnoreFlag src (hdrLen src 0) alloc buff
    else
      match alloc 0 (src.length + skbDelta src) with
      | none => ([], .error .dropped)
      | some skb =>
        match ip4Ip6 k tosIgnoreFlag src src.length skb with
        | .error e => ([], .error e)
        | .ok out => ([out], .ok ()) := by
  have hheader := h.header
  have hhdr : 4 * (byte src 0 &&& 0x0f).toNat = hdrLen src 0 := rfl
  have hlong : (fragBuffSize : ℤ) < src.length - hdrLen src 0 ↔ fragBuffSize < dataLen src := by
    rw [dataLen]
    omega
  rw [siitXmit4, if_neg (not_not.mpr h.valid.totLen.symm)]
  simp only [hhdr, hlong]

theorem whole_checked_iff (hk : k.Lawful6) (h : BareDatagram src)
    (hwhole : ¬ (field16 src 6 &&& ipDf = 0 ∧ fragBuffSize < dataLen src))
    (halloc : ∀ i n skb, alloc i n = some skb → skb.length = n) :
    AlwaysChecked src (siitXmit4 k csumTcpudpMagic tosIgnoreFlag src alloc buff) ↔
      alloc 0 (src.length + skbDelta src) = none ∨
        src.length + fr6 src < 65536 ∧ onesSum (covered src (dataLen src)) ≠ 65535 := by
  have hheader := h.header
  have hshort := h.valid.lt
  have hdataLen : dataLen src = src.length - hdrLen src 0 := rfl
  rw [siitXmit4_eq csumTcpudpMagic tosIgnoreFlag h, if_neg hwhole]
  cases hskb : alloc 0 (src.length + skbDelta src) with
  | none => exact iff_of_true (alwaysChecked_dropped src) (.inl rfl)
  | some skb =>
    dsimp only
    have hlen := halloc _ _ _ hskb
    by_cases hfits : src.length + fr6 src < 65536
    · obtain ⟨out, hrun, hbears⟩ := direct_bears tosIgnoreFlag hk h hfits hlen
      have hchecks := hbears.checks_iff h (by omega) (by omega)
      rw [hrun]
      dsimp only
      rw [alwaysChecked_cons (.inl rfl), hchecks]
      constructor
      · exact fun hsum => .inr ⟨hfits, hsum.1⟩
      · rintro (hnone | ⟨-, hsum⟩)
        · cases hnone
        · exact ⟨hsum, rfl⟩
    · rw [direct_wraps tosIgnoreFlag h (not_lt.mp hfits) hlen]
      refine iff_of_false (not_alwaysChecked (by decide) []) ?_
      rintro (hnone | hcond)
      · cases hnone
      · exact hfits hcond.1

end Sent

/-- A datagram without a checksum gets one that is not zero and verifies, or is dropped, exactly if these hold: where it
is cut, the sum over the length in the UDP header is the one over the whole datagram (or has all bits set, and the
datagram is dropped); where it is not, the sum has not all bits set, and the length with the fragment header fits. -/
theorem siit_udp_checksum_iff (k : Checksums) (hk : k.Lawful6) (csumTcpudpMagic : TcpudpMagic)
    (hmagic : LawfulMagic k csumTcpudpMagic) (tosIgnoreFlag : Bool) (src : List UInt8) (h : BareDatagram src)
    (alloc : ℕ → ℕ → Option (List UInt8)) (halloc : ∀ i n skb, alloc i n = some skb → skb.length = n) (buff : List UInt8)
    (hbuff : buff.length = fragBuffSize + hdrLen src 0) :
    AlwaysChecked src (siitXmit4 k csumTcpudpMagic tosIgnoreFlag src alloc buff) ↔
      if field16 src 6 &&& ipDf = 0 ∧ fragBuffSize < dataLen src then
        udpLen src ≤ dataLen src ∧ (alloc 0 (fragBuffSize + hdrLen src 0 + 28) = none ∨
          onesSum (covered src (udpLen src)) = 65535 ∨
          onesSum (covered src (udpLen src)) = onesSum (covered src (dataLen src)))
      else
        alloc 0 (src.length + skbDelta src) = none ∨
          src.length + fr6 src < 65536 ∧ onesSum (covered src (dataLen src)) ≠ 65535 := by
  by_cases hcut : field16 src 6 &&& ipDf = 0 ∧ fragBuffSize < dataLen src
  · rw [siitXmit4_eq csumTcpudpMagic tosIgnoreFlag h, if_pos hcut, if_pos hcut]
    exact cut_checked_iff hmagic tosIgnoreFlag h hcut.1 hcut.2 halloc hbuff
  · rw [if_neg hcut]
    exact whole_checked_iff csumTcpudpMagic tosIgnoreFlag hk h hcut halloc

/-- Eight bytes of UDP without a checksum, with `DF` set. -/
def shortDatagram (port : ℕ) : List UInt8 :=
  [0x45, 0, 0, 28, 0, 0, 0x40, 0, 64, 17, 0, 0, 10, 0, 0, 1, 10, 0, 0, 2] ++ half port ++ [0, 53, 0, 8, 0, 0]

theorem siit_udp_checksum_iff_short :
    AlwaysChecked (shortDatagram 1024) (siitXmit4 kernelChecksums kernelMagic false (shortDatagram 1024)
      zeroAlloc (List.replicate 1252 0)) := by
  refine (siit_udp_checksum_iff kernelChecksums kernelChecksums_lawful6 kernelMagic kernelMagic_lawful false
    (shortDatagram 1024) ⟨⟨by decide, by decide, by decide⟩, by decide, by decide, by decide, by decide⟩
    zeroAlloc zeroAlloc_length (List.replicate 1252 0) List.length_replicate).mpr ?_
  rw [if_neg (by decide)]
  exact .inr ⟨by decide, by decide⟩

/-- From this port the checksum is computed as zero, and goes out as it is. -/
theorem siit_udp_checksum_zero :
    BareDatagram (shortDatagram 0xeba6) ∧
      ¬ AlwaysChecked (shortDatagram 0xeba6) (siitXmit4 kernelChecksums kernelMagic false (shortDatagram 0xeba6)
        zeroAlloc (List.replicate 1252 0)) := by
  have hbare : BareDatagram (shortDatagram 0xeba6) :=
    ⟨⟨by decide, by decide, by decide⟩, by decide, by decide, by decide, by decide⟩
  refine ⟨hbare, fun hchecked => ?_⟩
  have hcond := (whole_checked_iff kernelMagic false kernelChecksums_lawful6 hbare (by decide)
    zeroAlloc_length).mp hchecked
  rcases hcond with hnone | ⟨-, hsum⟩
  · cases hnone
  · exact hsum (by decide)

end Datagram

end Neufbox.Siit
