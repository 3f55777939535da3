import Neufbox.Siit.Fragment

/-! # The packet in its fragments

What `ip4_fragment` sends has the data of the packet, with the checksum of a datagram filled in, exactly if there is
memory and this checksum could be computed and is not zero. -/
namespace Neufbox.Siit
open Blocks Guarded ByteStore OnesComplement
set_option autoImplicit false
set_option maxHeartbeats 250000
set_option maxRecDepth 120000

/-! ## The checksum of a datagram -/

/-- The length in the UDP header. -/
def udpLen (src : List UInt8) : ℕ := field16 src (hdrLen src 0 + 4)

/-- What a checksum over `n` bytes covers. -/
def covered (src : List UInt8) (n : ℕ) : List UInt8 :=
  pseudo4 (bytes4 src 12) (bytes4 src 16) n protoUdp ++ (src.drop (hdrLen src 0)).take n

/-- The kernel's function computes the checksum of a datagram behind an IPv4 header. -/
def LawfulMagic (k : Checksums) (csumTcpudpMagic : TcpudpMagic) : Prop :=
  ∀ saddr daddr bs : List UInt8, saddr.length = 4 → daddr.length = 4 → ∀ len < 65536, ∀ proto : UInt8,
    csumTcpudpMagic saddr daddr len proto (k.csumPartial bs 0) = checksum (pseudo4 saddr daddr len proto ++ bs)

/-- The packet with the checksum that was missing. -/
def filled (src : List UInt8) : List UInt8 :=
  if ZeroChecksum src then overlay src (hdrLen src 0 + 6) (half (checksum (covered src (udpLen src)))) else src

section Fill
variable {k : Checksums} {csumTcpudpMagic : TcpudpMagic} {src : List UInt8}

theorem fillChecksum_eq (hmagic : LawfulMagic k csumTcpudpMagic) (hlong : hdrLen src 0 + 8 ≤ src.length) :
    fillChecksum k csumTcpudpMagic src (hdrLen src 0) =
      if ZeroChecksum src ∧ More src 0 then .error .dropped
      else if ZeroChecksum src ∧ src.length - hdrLen src 0 < udpLen src then .error .outOfBounds
      else .ok (filled src) := by
  have hzero : ZeroChecksum src ↔
      (byte src 9 = protoUdp ∧ field16 src 6 &&& ipOffset = 0) ∧ field16 src (hdrLen src 0 + 6) = 0 := by
    rw [ZeroChecksum, Unchecked, First, Nat.zero_add, Nat.zero_add, and_assoc]
  have hmore : More src 0 ↔ field16 src 6 &&& ipMf ≠ 0 := by rw [More, Nat.zero_add]
  rw [fillChecksum, inside_ok (by omega)]
  by_cases hudp : byte src 9 = protoUdp ∧ field16 src 6 &&& ipOffset = 0
  · rw [if_pos hudp, ok_bind]
    by_cases hcheck : field16 src (hdrLen src 0 + 6) = 0
    · have hz : ZeroChecksum src := hzero.mpr ⟨hudp, hcheck⟩
      rw [if_pos hcheck, if_pos hcheck]
      by_cases hmf : field16 src 6 &&& ipMf ≠ 0
      · rw [if_pos hmf, if_pos ⟨hz, hmore.mpr hmf⟩]
        rfl
      · rw [if_neg hmf, if_neg fun h => hmf (hmore.mp h.2)]
        by_cases hlen : src.length - hdrLen src 0 < udpLen src
        · have hregion : region src (hdrLen src 0) (field16 src (hdrLen src 0 + 4) : ℕ) = .error .outOfBounds := by
            have hudpLen : udpLen src = field16 src (hdrLen src 0 + 4) := rfl
            rw [region, if_neg (by omega), if_neg (by omega)]
          dsimp only
          rw [if_pos ⟨hz, hlen⟩, hregion]
          rfl
        · have hudpLen : udpLen src = field16 src (hdrLen src 0 + 4) := rfl
          have hregion : region src (hdrLen src 0) (field16 src (hdrLen src 0 + 4) : ℕ) =
              .ok ((src.drop (hdrLen src 0)).take (udpLen src)) := by
            rw [region_ok (by omega) (by omega), Int.toNat_natCast, hudpLen]
          dsimp only
          rw [if_neg fun h => hlen h.2, hregion, ok_bind, hmagic _ _ _ rfl rfl _ (field16_lt src _),
            write_ok (by rw [half_length]; omega), filled, if_pos hz]
          rfl
    · have hz : ¬ ZeroChecksum src := fun h => hcheck (hzero.mp h).2
      rw [if_neg hcheck, if_neg hcheck, ite_self, if_neg fun h => hz h.1, if_neg fun h => hz h.1, filled, if_neg hz]
      rfl
  · have hz : ¬ ZeroChecksum src := fun h => hudp (hzero.mp h).1
    rw [if_neg hudp, if_neg fun h => hz h.1, if_neg fun h => hz h.1, filled, if_neg hz]
    rfl

theorem filled_length (hlong : hdrLen src 0 + 8 ≤ src.length) : (filled src).length = src.length := by
  rw [filled]
  split
  · exact overlay_length (by rw [half_length]; omega)
  · rfl

theorem filled_byte (hihl : 20 ≤ hdrLen src 0) (hlong : hdrLen src 0 + 8 ≤ src.length) {i : ℕ} (hi : i < 20) :
    byte (filled src) i = byte src i := by
  rw [filled]
  split
  · exact byte_overlay (by rw [half_length]; omega) (.inl (by omega))
  · rfl

theorem filled_field16 (hihl : 20 ≤ hdrLen src 0) (hlong : hdrLen src 0 + 8 ≤ src.length) {i : ℕ} (hi : i < 19) :
    field16 (filled src) i = field16 src i := by
  rw [field16, field16, filled_byte hihl hlong (by omega), filled_byte hihl hlong (by omega)]

/-- A packet of TCP or UDP that is cut. -/
structure Long (src : List UInt8) : Prop where
  valid : ValidHeader src
  protocol : byte src 9 = protoTcp ∨ byte src 9 = protoUdp
  long : fragBuffSize < src.length - hdrLen src 0
  fits : (field16 src 6 &&& ipOffset) * 8 + (src.length - hdrLen src 0) ≤ 65535

/-- The state before the loop. -/
def firstState (src buff : List UInt8) : FragState :=
  ⟨hdrLen src 0, src.length - hdrLen src 0, field16 src 6 &&& ipOffset, buff⟩

theorem Long.eight (h : Long src) : hdrLen src 0 + 8 ≤ src.length := by
  have hlong := h.long
  have hsize : fragBuffSize = 1232 := rfl
  omega

theorem Long.cut (h : Long src) : Cut (filled src) (hdrLen src 0) where
  ihl := h.valid.ihl
  header := by rw [hdrLen, hdrLen, filled_byte h.valid.ihl h.eight (by norm_num)]
  protocol := by
    rw [filled_byte h.valid.ihl h.eight (by norm_num)]
    exact h.protocol

theorem Long.ready (h : Long src) {buff : List UInt8} (hbuff : buff.length = fragBuffSize + hdrLen src 0) :
    Ready (filled src) (hdrLen src 0) (firstState src buff) := by
  have hlong := h.long
  constructor
  · exact le_rfl
  · rw [filled_length h.eight]
    exact Nat.add_sub_cancel' h.valid.fits
  · exact (Nat.zero_le _).trans_lt hlong
  · exact hbuff
  · exact h.fits
  · exact fun _ => hlong

/-- The checksum that is computed may be zero. -/
theorem lacks_iff (h : Long src) (buff : List UInt8) :
    Lacks (filled src) (firstState src buff) ↔ ZeroChecksum src ∧ onesSum (covered src (udpLen src)) = 65535 := by
  have hlong := h.eight
  have hproto : byte (filled src) 9 = byte src 9 := filled_byte h.valid.ihl hlong (by norm_num)
  have hzero : ZeroChecksum src ↔
      field16 src 6 &&& ipOffset = 0 ∧ byte src 9 = protoUdp ∧ field16 src (hdrLen src 0 + 6) = 0 := by
    rw [ZeroChecksum, Unchecked, First, Nat.zero_add, Nat.zero_add]
    exact and_left_comm
  rw [Lacks, hproto]
  dsimp only [firstState]
  by_cases hz : ZeroChecksum src
  · have hcheck : field16 (filled src) (hdrLen src 0 + 6) = checksum (covered src (udpLen src)) := by
      rw [filled, if_pos hz]
      exact field16_overlay (by omega) (by rw [checksum]; omega)
    rw [hcheck, checksum_eq_zero]
    have hparts := hzero.mp hz
    exact ⟨fun hl => ⟨hz, hl.2.2⟩, fun hl => ⟨hparts.1, hparts.2.1, hl.2⟩⟩
  · rw [filled, if_neg hz, ← hzero]
    exact ⟨fun hl => absurd hl hz, fun hl => hl.1⟩

theorem ip4Fragment_filled (hmagic : LawfulMagic k csumTcpudpMagic) (h : Long src) (tosIgnoreFlag : Bool)
    (hchecked : ¬ (ZeroChecksum src ∧ More src 0)) (hudp : ZeroChecksum src → udpLen src ≤ src.length - hdrLen src 0)
    (alloc : ℕ → ℕ → Option (List UInt8)) (buff : List UInt8) :
    ip4Fragment k csumTcpudpMagic tosIgnoreFlag src (hdrLen src 0) alloc buff =
      fragLoop k tosIgnoreFlag (filled src) (hdrLen src 0) alloc (field16 src 6 &&& ipMf = 0) (src.length + 1) 0
        (firstState src buff) := by
  have hfill := fillChecksum_eq hmagic h.eight
  rw [if_neg hchecked, if_neg fun hz => absurd (hudp hz.1) (by omega)] at hfill
  rw [ip4Fragment, hfill]
  dsimp only
  rw [filled_length h.eight, filled_field16 h.valid.ihl h.eight (by norm_num)]
  rfl

end Fill

/-! ## Fragments of a packet -/

/-- A packet without options that `siit_xmit` has cut: the first fragment of a datagram has a checksum. -/
structure Fragmentable (src : List UInt8) : Prop extends Long src where
  optionless : hdrLen src 0 = 20
  df : field16 src 6 &&& ipDf = 0
  checked : ZeroChecksum src → ¬ More src 0

/-- The packets are fragments of the packet, in a row from its offset on, and with its data, each at its offset. -/
structure Reassembles (src : List UInt8) (outs : List (List UInt8)) : Prop where
  size : ∀ out ∈ outs, out.length = 40 + field16 out 4 ∧ out.length ≤ 1280
  train : Train (byte src 9) (field16 src 4) (More src 0) ((field16 src 6 &&& ipOffset) * 8) outs
  data : outs.flatMap fragmentData = (filled src).drop 20
  slices : ∀ out ∈ outs, (((filled src).drop 20).drop (field16 out 42 / 8 * 8 - (field16 src 6 &&& ipOffset) * 8)).take
    (fragmentData out).length = fragmentData out

section Result
variable {k : Checksums} {csumTcpudpMagic : TcpudpMagic} {src buff : List UInt8} {alloc : ℕ → ℕ → Option (List UInt8)}

theorem Fragmentable.fragmented (h : Fragmentable src) (hmagic : LawfulMagic k csumTcpudpMagic) (tosIgnoreFlag : Bool)
    (halloc : ∀ i n skb, alloc i n = some skb → skb.length = n) (hbuff : buff.length = fragBuffSize + 20)
    (hgranted : Granted alloc 20 0 (src.length - 20)) (hudp : ZeroChecksum src → udpLen src ≤ src.length - 20)
    (hsum : ¬ (ZeroChecksum src ∧ onesSum (covered src (udpLen src)) = 65535)) :
    ∃ outs, ip4Fragment k csumTcpudpMagic tosIgnoreFlag src 20 alloc buff = (outs, .ok ()) ∧ Reassembles src outs := by
  have hlong := h.toLong
  have hihl := h.optionless
  have hrun := ip4Fragment_filled hmagic hlong tosIgnoreFlag (fun hz => h.checked hz.1 hz.2) (by rwa [hihl]) alloc buff
  have hlacks := (lacks_iff hlong buff).not.mpr hsum
  have hcut := hlong.cut
  have hready := hlong.ready (show buff.length = fragBuffSize + hdrLen src 0 by rwa [hihl])
  rw [hihl] at hrun hcut hready
  have hstate : firstState src buff = ⟨20, src.length - 20, field16 src 6 &&& ipOffset, buff⟩ := by rw [firstState, hihl]
  have hfuel : (firstState src buff).restLen ≤ (src.length + 1) * fragBuffSize := by
    have hsize : fragBuffSize = 1232 := rfl
    rw [hstate, hsize]
    dsimp only
    omega
  obtain ⟨outs, hloop, htrain, hdata, hall⟩ := fragLoop_train k tosIgnoreFlag halloc hcut
    (field16 src 6 &&& ipMf = 0) hready hlacks hfuel (by rwa [hstate])
  have hmore : (decide (field16 src 6 &&& ipMf = 0) = false) = More src 0 := by
    rw [More, Nat.zero_add]
    exact propext decide_eq_false_iff_not
  rw [hmore, filled_byte hlong.valid.ihl hlong.eight (by norm_num),
    filled_field16 hlong.valid.ihl hlong.eight (by norm_num), hstate] at htrain
  rw [hstate] at hdata
  refine ⟨outs, hrun.trans hloop, ?_, htrain, hdata, ?_⟩
  · intro out ho
    obtain ⟨hsize, hbound⟩ := hall out ho
    exact ⟨hsize, by omega⟩
  · intro out ho
    rw [← hdata]
    exact (htrain.slice out ho).2

theorem Fragmentable.needs (h : Fragmentable src) (hmagic : LawfulMagic k csumTcpudpMagic) {tosIgnoreFlag : Bool}
    (halloc : ∀ i n skb, alloc i n = some skb → skb.length = n) (hbuff : buff.length = fragBuffSize + 20)
    {outs : List (List UInt8)}
    (hrun : ip4Fragment k csumTcpudpMagic tosIgnoreFlag src 20 alloc buff = (outs, .ok ())) :
    Granted alloc 20 0 (src.length - 20) ∧
      (ZeroChecksum src → udpLen src ≤ src.length - 20 ∧ onesSum (covered src (udpLen src)) ≠ 65535) := by
  have hlong := h.toLong
  have hihl := h.optionless
  have hudp : ZeroChecksum src → udpLen src ≤ src.length - 20 := by
    intro hz
    by_contra hlt
    have hfill := fillChecksum_eq hmagic hlong.eight
    rw [if_neg fun hm => h.checked hz hm.2, if_pos ⟨hz, by omega⟩, hihl] at hfill
    rw [ip4Fragment, hfill] at hrun
    cases hrun
  have heq := ip4Fragment_filled hmagic hlong tosIgnoreFlag (fun hz => h.checked hz.1 hz.2) (by rwa [hihl]) alloc buff
  rw [hihl] at heq
  have hloop := heq.symm.trans hrun
  have hstate : (firstState src buff).restLen = src.length - 20 := by rw [firstState, hihl]
  refine ⟨?_, fun hz => ⟨hudp hz, fun hsum => ?_⟩⟩
  · rw [← hstate]
    exact granted_of_ok k tosIgnoreFlag hloop
  · have hcut := hlong.cut
    have hready := hlong.ready (show buff.length = fragBuffSize + hdrLen src 0 by rwa [hihl])
    rw [hihl] at hcut hready
    have hdropped := fragLoop_dropped k tosIgnoreFlag halloc hcut (field16 src 6 &&& ipMf = 0) src.length 0
      hready ((lacks_iff hlong buff).mpr ⟨hz, hsum⟩)
    cases hdropped.symm.trans hloop

/-- The packets are sent as they should be exactly if there is memory for them and, where a checksum is missing, the UDP
length is one of bytes that are there and the sum over these does not have all bits set. -/
theorem ip4_fragment_iff (k : Checksums) (csumTcpudpMagic : TcpudpMagic) (hmagic : LawfulMagic k csumTcpudpMagic)
    (tosIgnoreFlag : Bool) (src : List UInt8) (h : Fragmentable src) (alloc : ℕ → ℕ → Option (List UInt8))
    (halloc : ∀ i n skb, alloc i n = some skb → skb.length = n) (buff : List UInt8)
    (hbuff : buff.length = fragBuffSize + 20) :
    (∃ outs, ip4Fragment k csumTcpudpMagic tosIgnoreFlag src 20 alloc buff = (outs, .ok ()) ∧ Reassembles src outs) ↔
      Granted alloc 20 0 (src.length - 20) ∧
        (ZeroChecksum src → udpLen src ≤ src.length - 20 ∧ onesSum (covered src (udpLen src)) ≠ 65535) := by
  constructor
  · rintro ⟨outs, hrun, -⟩
    exact h.needs hmagic halloc hbuff hrun
  · rintro ⟨hgranted, hudp⟩
    exact h.fragmented hmagic tosIgnoreFlag halloc hbuff hgranted (fun hz => (hudp hz).1) fun hz => (hudp hz.1).2 hz.2

end Result

/-- `csum_tcpudp_magic` as the kernel has it. -/
def kernelMagic : TcpudpMagic := fun saddr daddr len proto sum =>
  65535 - onesAdd (onesSum (pseudo4 saddr daddr len proto)) sum

theorem kernelMagic_lawful : LawfulMagic kernelChecksums kernelMagic := by
  intro saddr daddr bs hs hd len _ proto
  have hpseudo : 2 ∣ (pseudo4 saddr daddr len proto).length := by
    rw [pseudo4_length hs hd]
    exact Dvd.intro 6 rfl
  rw [checksum, onesSum_append hpseudo]
  show 65535 - onesAdd (onesSum (pseudo4 saddr daddr len proto)) (onesAdd 0 (onesSum bs)) = _
  rw [onesAdd_zero]

/-- Memory without an end. -/
def zeroAlloc : ℕ → ℕ → Option (List UInt8) := fun _ n => some (List.replicate n 0)

theorem zeroAlloc_length (i n : ℕ) (skb : List UInt8) (h : zeroAlloc i n = some skb) : skb.length = n := by
  cases h
  exact List.length_replicate

def datagramHeader (port : ℕ) : List UInt8 :=
  [0x45, 0] ++ half 1254 ++ [0, 7, 0, 0, 64, 17, 0, 0, 10, 0, 0, 1, 10, 0, 0, 2] ++ half port ++ [0, 53] ++ half 1234 ++
    [0, 0]

/-- A datagram of 1234 bytes without a checksum. -/
def longDatagram (port : ℕ) : List UInt8 := datagramHeader port ++ List.replicate 1226 0

theorem longDatagram_length (port : ℕ) : (longDatagram port).length = 1254 := by
  rw [longDatagram, List.length_append, List.length_replicate]
  rfl

theorem longDatagram_byte (port : ℕ) {i : ℕ} (hi : i < 28) : byte (longDatagram port) i = byte (datagramHeader port) i := by
  have hlen : (datagramHeader port).length = 28 := rfl
  rw [byte, byte, List.getD_eq_getElem?_getD, List.getD_eq_getElem?_getD, longDatagram, List.getElem?_append_left (by omega)]

theorem longDatagram_field16 (port : ℕ) {i : ℕ} (hi : i < 27) :
    field16 (longDatagram port) i = field16 (datagramHeader port) i := by
  rw [field16, field16, longDatagram_byte port (by omega), longDatagram_byte port (by omega)]

theorem longDatagram_hdrLen (port : ℕ) : hdrLen (longDatagram port) 0 = 20 := by
  have hbyte : byte (datagramHeader port) 0 = 0x45 := rfl
  rw [hdrLen, longDatagram_byte port (by norm_num), hbyte]
  decide

theorem longDatagram_fragOff (port : ℕ) : field16 (longDatagram port) 6 = 0 := longDatagram_field16 port (by norm_num)

theorem longDatagram_zeroChecksum (port : ℕ) : ZeroChecksum (longDatagram port) := by
  refine ⟨longDatagram_byte port (by norm_num), ?_, ?_⟩
  · rw [First, longDatagram_fragOff]
    rfl
  · rw [longDatagram_hdrLen]
    exact longDatagram_field16 port (by norm_num)

theorem longDatagram_long (port : ℕ) : Long (longDatagram port) where
  valid := ⟨(longDatagram_hdrLen port).ge, by rw [longDatagram_hdrLen, longDatagram_length]; norm_num, by
    rw [longDatagram_length]
    exact longDatagram_field16 port (by norm_num)⟩
  protocol := .inr (longDatagram_byte port (by norm_num))
  long := by
    rw [longDatagram_hdrLen, longDatagram_length]
    decide
  fits := by
    rw [longDatagram_fragOff, longDatagram_hdrLen, longDatagram_length]
    decide

theorem longDatagram_fragmentable (port : ℕ) : Fragmentable (longDatagram port) where
  toLong := longDatagram_long port
  optionless := longDatagram_hdrLen port
  df := by
    rw [longDatagram_fragOff]
    rfl
  checked := by
    intro _ hmore
    rw [More, longDatagram_fragOff] at hmore
    exact hmore rfl

theorem ip4_fragment_iff_datagram :
    ∃ outs, ip4Fragment kernelChecksums kernelMagic false (longDatagram 1024) 20 zeroAlloc
      (List.replicate 1252 0) = (outs, .ok ()) ∧ Reassembles (longDatagram 1024) outs := by
  refine (ip4_fragment_iff kernelChecksums kernelMagic kernelMagic_lawful false (longDatagram 1024)
    (longDatagram_fragmentable 1024) zeroAlloc zeroAlloc_length (List.replicate 1252 0)
    List.length_replicate).mpr ⟨fun _ _ => ⟨_, rfl⟩, fun _ => ⟨?_, by decide +kernel⟩⟩
  rw [longDatagram_length]
  decide

/-- From this port the sum has all bits set. -/
theorem ip4_fragment_zero_checksum :
    Fragmentable (longDatagram 0xe212) ∧
      ¬ ∃ outs, ip4Fragment kernelChecksums kernelMagic false (longDatagram 0xe212) 20
        zeroAlloc (List.replicate 1252 0) = (outs, .ok ()) ∧
        Reassembles (longDatagram 0xe212) outs := by
  refine ⟨longDatagram_fragmentable 0xe212, ?_⟩
  rintro ⟨outs, hrun, -⟩
  have hneeds := (longDatagram_fragmentable 0xe212).needs kernelMagic_lawful zeroAlloc_length List.length_replicate hrun
  exact (hneeds.2 (longDatagram_zeroChecksum _)).2 (by decide +kernel)

end Neufbox.Siit
