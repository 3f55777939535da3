import Neufbox.Siit.Transport

/-! # Fragments

`ip4_fragment` cuts a packet that is too long for IPv6 into pieces of `FRAG_BUFF_SIZE` bytes, each with a header of
IPv4 of its own, which `ip4_ip6` translates. The checksum that a UDP datagram does not have is computed before, over
the length that its header gives. -/
namespace Neufbox.Siit
open Blocks Guarded ByteStore OnesComplement
set_option autoImplicit false
set_option maxHeartbeats 250000
set_option maxRecDepth 120000

/-! ## Model -/

def fragBuffSize : ℕ := 1232

/-- `csum_tcpudp_magic` of the kernel, with sums in network byte order. -/
abbrev TcpudpMagic := List UInt8 → List UInt8 → ℕ → UInt8 → ℕ → ℕ

section Model
variable (k : Checksums) (csumTcpudpMagic : TcpudpMagic) (tosIgnoreFlag : Bool) (src : List UInt8) (hdr : ℕ)

/-- The checksum of a UDP datagram is set in the packet itself; a first fragment without one is dropped. -/
def fillChecksum : Run (List UInt8) :=
  if byte src 9 = protoUdp ∧ field16 src 6 &&& ipOffset = 0 then do
    inside src (hdr + 6) 2
    if field16 src 6 &&& ipMf ≠ 0 then
      if field16 src (hdr + 6) = 0 then throw .dropped else return src
    else if field16 src (hdr + 6) = 0 then do
      let udpLen := field16 src (hdr + 4)
      let body ← region src hdr udpLen
      write src (hdr + 6)
        (half (csumTcpudpMagic (bytes4 src 12) (bytes4 src 16) udpLen protoUdp (k.csumPartial body 0)))
    else return src
  else return src

/-- `cur_ptr`, `rest_len`, `frag_offset` and `buff`. -/
structure FragState where
  curPtr : ℕ
  restLen : ℕ
  fragOffset : ℕ
  buff : List UInt8

/-- A piece in the form of IPv4. -/
def pieceRun (st : FragState) (fragLen fragOff : ℕ) : Run (List UInt8) := do
  let buff ← memcpy st.buff 0 src 0 hdr
  let buff ← memcpy buff hdr src st.curPtr fragLen
  let buff ← write buff 4 [byte src 4, byte src 5]
  let buff ← write buff 6 (half fragOff)
  let buff ← write buff 2 (htons (fragLen + hdr))
  let buff ← write buff 10 (half 0)
  let head ← region buff 0 hdr
  write buff 10 (half (k.ipFastCsum head))

/-- The loop: what is sent, and how it ends. `alloc` is `dev_alloc_skb`, for the packets that were sent before and a
length. -/
def fragLoop (alloc : ℕ → ℕ → Option (List UInt8)) (flagLastMf : Bool) :
    ℕ → ℕ → FragState → List (List UInt8) × Run Unit
  | 0, _, _ => ([], .error .endless)
  | fuel + 1, sent, st =>
      let lastFrag := decide (st.restLen ≤ fragBuffSize)
      let fragLen := if lastFrag then st.restLen else fragBuffSize
      let fragOff := if lastFrag ∧ flagLastMf then st.fragOffset &&& 0xdfff else st.fragOffset ||| ipMf
      match pieceRun k src hdr st fragLen fragOff with
      | .error e => ([], .error e)
      | .ok buff =>
        match alloc sent (fragLen + hdr + 28) with
        | none => ([], .error .dropped)
        | some skb =>
          match ip4Ip6 k tosIgnoreFlag buff (fragLen + hdr : ℕ) skb with
          | .error e => ([], .error e)
          | .ok out =>
            if lastFrag then ([out], .ok ())
            else
              let r := fragLoop alloc flagLastMf fuel (sent + 1) ⟨st.curPtr + fragLen, st.restLen - fragLen,
                (st.fragOffset * 8 + fragLen) / 8 % 65536, buff⟩
              (out :: r.1, r.2)

/-- `ip4_fragment`, with what its buffer has in it before. -/
def ip4Fragment (alloc : ℕ → ℕ → Option (List UInt8)) (buff : List UInt8) : List (List UInt8) × Run Unit :=
  match fillChecksum k csumTcpudpMagic src hdr with
  | .error e => ([], .error e)
  | .ok src => fragLoop k tosIgnoreFlag src hdr alloc (field16 src 6 &&& ipMf = 0) (src.length + 1) 0
      ⟨hdr, src.length - hdr, field16 src 6 &&& ipOffset, buff⟩

end Model

/-! ## A piece -/

theorem write_front {front bs : List UInt8} {i : ℕ} (h : i + bs.length ≤ front.length) (tail : List UInt8) :
    write (front ++ tail) i bs = .ok (overlay front i bs ++ tail) := by
  rw [write_ok (by rw [List.length_append]; omega), overlay, overlay, List.take_append_of_le_length (by omega),
    List.drop_append_of_le_length (by omega), List.append_assoc, List.append_assoc]

/-- The header of the packet with other words for the length, the offset and the checksum. -/
def pieceHeader (src totLen fragOff check : List UInt8) : List UInt8 :=
  [byte src 0, byte src 1] ++ totLen ++ [byte src 4, byte src 5] ++ fragOff ++ [byte src 8, byte src 9] ++ check ++
    bytes4 src 12 ++ bytes4 src 16

theorem take_header {src : List UInt8} (h20 : 20 ≤ src.length) (n : ℕ) : src.take (20 + n) =
    pieceHeader src [byte src 2, byte src 3] [byte src 6, byte src 7] [byte src 10, byte src 11] ++
      (src.drop 20).take n := by
  have hsplit : 20 + n = 4 + (4 + (4 + (4 + (4 + n)))) := by omega
  have hfirst := take_four (m := src) (i := 0) (by omega) (4 + (4 + (4 + (4 + n))))
  rw [List.drop_zero] at hfirst
  rw [hsplit, hfirst, take_four (by omega), take_four (by omega), take_four (by omega), take_four (by omega)]
  rfl

section Piece
variable (k : Checksums) {src : List UInt8} {hdr : ℕ}

theorem pieceRun_eq {st : FragState} {n : ℕ} (h20 : 20 ≤ hdr) (hhdr : hdr ≤ src.length) (hn : n ≤ fragBuffSize)
    (hcur : st.curPtr + n ≤ src.length) (hbuff : st.buff.length = fragBuffSize + hdr) (fragOff : ℕ) :
    ∃ check, pieceRun k src hdr st n fragOff =
      .ok (pieceHeader src (htons (n + hdr)) (half fragOff) (half check) ++
        ((src.drop 20).take (hdr - 20) ++ ((src.drop st.curPtr).take n ++ st.buff.drop (hdr + n)))) := by
  have hregion : region src 0 hdr = .ok (src.take hdr) := by
    rw [region_ok (by omega) (by omega), List.drop_zero, Int.toNat_natCast]
  have hpiece : region src st.curPtr n = .ok ((src.drop st.curPtr).take n) := by
    rw [region_ok (by omega) (by omega), Int.toNat_natCast]
  have htake : (src.take hdr).length = hdr := List.length_take_of_le hhdr
  have hold : ((src.drop st.curPtr).take n).length = ((st.buff.drop hdr).take n).length := by
    rw [List.length_take, List.length_take, List.length_drop, List.length_drop]
    omega
  have hhead : memcpy st.buff 0 src 0 hdr = .ok (src.take hdr ++ st.buff.drop hdr) := by
    have h := memcpy_piece [] (st.buff.take hdr) (st.buff.drop hdr) (i := 0) rfl hregion
      (by rw [htake, List.length_take_of_le (by omega)])
    rwa [List.nil_append, List.nil_append, List.take_append_drop] at h
  have hdata : memcpy (src.take hdr ++ st.buff.drop hdr) hdr src st.curPtr n =
      .ok (src.take hdr ++ ((src.drop st.curPtr).take n ++ st.buff.drop (hdr + n))) := by
    have h := memcpy_piece (src.take hdr) ((st.buff.drop hdr).take n) (st.buff.drop (hdr + n)) htake.symm hpiece hold
    rwa [← List.drop_drop, List.take_append_drop, List.drop_drop] at h
  obtain ⟨options, rfl⟩ := Nat.exists_eq_add_of_le h20
  rw [Nat.add_sub_cancel_left]
  have hsrc := take_header (show 20 ≤ src.length by omega) options
  set tail := (src.drop 20).take options ++ ((src.drop st.curPtr).take n ++ st.buff.drop (20 + options + n)) with htail
  have hid : write (pieceHeader src [byte src 2, byte src 3] [byte src 6, byte src 7] [byte src 10, byte src 11] ++ tail) 4
      [byte src 4, byte src 5] =
      .ok (pieceHeader src [byte src 2, byte src 3] [byte src 6, byte src 7] [byte src 10, byte src 11] ++ tail) :=
    write_front (show 6 ≤ 20 by norm_num) tail
  have hoff : write (pieceHeader src [byte src 2, byte src 3] [byte src 6, byte src 7] [byte src 10, byte src 11] ++ tail) 6
      (half fragOff) = .ok (pieceHeader src [byte src 2, byte src 3] (half fragOff) [byte src 10, byte src 11] ++ tail) :=
    write_front (show 8 ≤ 20 by norm_num) tail
  have htot : write (pieceHeader src [byte src 2, byte src 3] (half fragOff) [byte src 10, byte src 11] ++ tail) 2
      (htons (n + (20 + options : ℕ))) =
      .ok (pieceHeader src (htons (n + (20 + options : ℕ))) (half fragOff) [byte src 10, byte src 11] ++ tail) :=
    write_front (show 4 ≤ 20 by norm_num) tail
  have hcheck : ∀ (old : List UInt8) (check : ℕ), old.length = 2 →
      write (pieceHeader src (htons (n + (20 + options : ℕ))) (half fragOff) old ++ tail) 10 (half check) =
        .ok (pieceHeader src (htons (n + (20 + options : ℕ))) (half fragOff) (half check) ++ tail) := by
    intro old check hold
    obtain ⟨a, b, rfl⟩ := List.length_eq_two.mp hold
    exact write_front (show 12 ≤ 20 by norm_num) tail
  obtain ⟨head, hsum⟩ : ∃ head, region (pieceHeader src (htons (n + (20 + options : ℕ))) (half fragOff) (half 0) ++ tail) 0
      (20 + options : ℕ) = .ok head := by
    refine ⟨_, region_ok (by omega) ?_⟩
    have hlen : (pieceHeader src (htons (n + (20 + options : ℕ))) (half fragOff) (half 0)).length = 20 := rfl
    rw [List.length_append, hlen, htail, List.length_append, List.length_take, List.length_drop]
    omega
  refine ⟨k.ipFastCsum head, ?_⟩
  rw [pieceRun, hhead, ok_bind, hdata, ok_bind, hsrc, List.append_assoc, hid, ok_bind, hoff, ok_bind, htot, ok_bind,
    hcheck _ _ rfl, ok_bind, hsum, ok_bind, hcheck _ _ rfl]

/-- The buffer has `n` bytes of the packet from `cur` on, behind a header of their own. -/
structure Piece (src : List UInt8) (hdr cur n fragOff : ℕ) (buff : List UInt8) : Prop where
  length : buff.length = fragBuffSize + hdr
  ihl : hdrLen buff 0 = hdrLen src 0
  totLen : field16 buff 2 = n + hdr
  id : field16 buff 4 = field16 src 4
  fragOff : field16 buff 6 = fragOff
  protocol : byte buff 9 = byte src 9
  saddr : bytes4 buff 12 = bytes4 src 12
  daddr : bytes4 buff 16 = bytes4 src 16
  data : (buff.drop hdr).take n = (src.drop cur).take n

theorem pieceRun_piece {st : FragState} {n fragOff : ℕ} (h20 : 20 ≤ hdr) (hhdr : hdr ≤ src.length) (hshort : hdr ≤ 60)
    (hn : n ≤ fragBuffSize) (hcur : st.curPtr + n ≤ src.length) (hbuff : st.buff.length = fragBuffSize + hdr)
    (hoff : fragOff < 65536) :
    ∃ buff, pieceRun k src hdr st n fragOff = .ok buff ∧ Piece src hdr st.curPtr n fragOff buff := by
  have hsize : fragBuffSize = 1232 := rfl
  obtain ⟨check, hrun⟩ := pieceRun_eq k h20 hhdr hn hcur hbuff fragOff
  refine ⟨_, hrun, ?_⟩
  have hdata : ((src.drop st.curPtr).take n).length = n := by
    rw [List.length_take, List.length_drop]
    omega
  have hhead : (pieceHeader src (htons (n + hdr)) (half fragOff) (half check) ++ (src.drop 20).take (hdr - 20)).length =
      hdr := by
    have hlen : (pieceHeader src (htons (n + hdr)) (half fragOff) (half check)).length = 20 := rfl
    rw [List.length_append, hlen, List.length_take, List.length_drop]
    omega
  have htot : ((n + hdr : ℤ) % 65536).toNat = n + hdr := by omega
  constructor
  · rw [← List.append_assoc, List.length_append, hhead, List.length_append, hdata, List.length_drop]
    omega
  · rfl
  · rw [← htot]
    exact half_toNat (by omega)
  · rfl
  · exact half_toNat hoff
  · rfl
  · rfl
  · rfl
  · rw [← List.append_assoc, List.drop_left' hhead, List.take_append_of_le_length hdata.ge,
      List.take_of_length_le hdata.le]

end Piece

/-! ## A fragment -/

/-- The packet that a piece becomes, behind which the buffer may go on. -/
structure Fragment (src : List UInt8) (cur n fragOff : ℕ) (out : List UInt8) : Prop where
  payloadLen : field16 out 4 = n + 8
  nexthdr : byte out 6 = nexthdrFragment
  saddr : (out.drop 8).take 16 = prefixed mappedPrefix (bytes4 src 12)
  daddr : (out.drop 24).take 16 = prefixed translatedPrefix (bytes4 src 16)
  protocol : byte out 40 = byte src 9
  fragOff : field16 out 42 = fragOff6 fragOff
  id : bytes4 out 44 = beBytes (field16 src 4)
  data : (out.drop 48).take n = (src.drop cur).take n

section Fragment
variable (tosIgnoreFlag : Bool) {src buff skb : List UInt8} {hdr cur n fragOff : ℕ}

theorem field16_append {front : List UInt8} {i : ℕ} (hi : front.length ≤ i) (m : List UInt8) :
    field16 (front ++ m) i = field16 m (i - front.length) := by
  rw [field16, field16, byte_append hi, byte_append (by omega), Nat.sub_add_comm hi]

theorem bytes4_append {front : List UInt8} {i : ℕ} (hi : front.length ≤ i) (m : List UInt8) :
    bytes4 (front ++ m) i = bytes4 m (i - front.length) := by
  rw [bytes4, bytes4, byte_append hi, byte_append (by omega), byte_append (by omega), byte_append (by omega),
    Nat.sub_add_comm hi, Nat.sub_add_comm hi, Nat.sub_add_comm hi]

theorem Piece.fr6 (h : Piece src hdr cur n fragOff buff) (hoff : fragOff < ipDf) : fr6 buff = 8 := by
  rw [fr6_eq, if_neg]
  rw [h.fragOff]
  exact hoff.ne

theorem Piece.fragment (skb : List UInt8) (h : Piece src hdr cur n fragOff buff) (h20 : 20 ≤ hdr) (hhdr : hdrLen src 0 = hdr)
    (hoff : fragOff < ipDf) (hproto : byte src 9 = protoTcp ∨ byte src 9 = protoUdp) (hcur : cur + n ≤ src.length) :
    Fragment src cur n fragOff (transport6 tosIgnoreFlag buff (n + hdr) skb) := by
  have hfr := h.fr6 hoff
  have hdf : field16 buff 6 ≠ ipDf := by
    rw [h.fragOff]
    exact hoff.ne
  have hihl : hdrLen buff 0 = hdr := h.ihl.trans hhdr
  have hheader : (transportHeader tosIgnoreFlag buff).length = 40 := transportHeader_length tosIgnoreFlag
  have hsome : fragments buff = fragHeader buff 0 := if_neg hdf
  have hprotocol : protocolNexthdr (byte buff 9) = byte src 9 := by
    rw [h.protocol]
    exact protocolNexthdr_eq hproto
  have hfield : fragOff6 fragOff < 65536 := by
    rw [fragOff6_eq]
    omega
  have hdata : data4 buff (n + hdr) = (src.drop cur).take n := by
    rw [data4, hihl, Nat.add_sub_cancel, h.data]
  constructor
  · rw [transport6, header_payloadLen tosIgnoreFlag h.totLen (by omega) (by omega), hfr, hihl]
    omega
  · rw [transport6, header_nexthdr, if_neg hdf]
  · rw [transport6, header_saddr, h.saddr]
  · rw [transport6, header_daddr, h.daddr]
  · rw [transport6, byte_append hheader.le, hheader, hsome, fragHeader_append, hprotocol]
    rfl
  · rw [transport6, field16_append (by omega), hheader, hsome, fragHeader_append, h.fragOff]
    exact half_toNat hfield
  · rw [transport6, bytes4_append (by omega), hheader, hsome, fragHeader_append, h.id]
    rfl
  · have hbehind : 48 = 40 + Siit.fr6 buff := by rw [hfr]
    have hlen : ((src.drop cur).take n).length = n := by
      rw [List.length_take, List.length_drop]
      omega
    rw [hbehind, transport6, transport6_data, hdata, List.take_append_of_le_length hlen.ge,
      List.take_of_length_le hlen.le]

/-- A piece is dropped if it is the first one of a datagram without a checksum; the last piece may have no UDP header,
but then it is not the first. -/
theorem Piece.translated (k : Checksums) (h : Piece src hdr cur n fragOff buff) (h20 : 20 ≤ hdr)
    (hhdr : hdrLen src 0 = hdr) (hoff : fragOff < ipDf) (hproto : byte src 9 = protoTcp ∨ byte src 9 = protoUdp)
    (hn : n ≤ fragBuffSize) (hskb : skb.length = n + hdr + 28) :
    ip4Ip6 k tosIgnoreFlag buff (n + hdr : ℕ) skb =
      if ZeroChecksum buff ∧ More buff 0 then .error .dropped
      else if ZeroChecksum buff then
        checksum6 k (transport6 tosIgnoreFlag buff (n + hdr) skb) 0 (40 + Siit.fr6 buff) 6 (plen6 buff - Siit.fr6 buff) protoUdp
      else .ok (transport6 tosIgnoreFlag buff (n + hdr) skb) := by
  have hsize : fragBuffSize = 1232 := rfl
  have hlen := h.length
  have hfr := h.fr6 hoff
  have hihl : hdrLen buff 0 = hdr := h.ihl.trans hhdr
  apply ip4Ip6_segment
  · exact ⟨by omega, by omega, by omega, by omega⟩
  · exact ⟨by rwa [h.protocol], fun _ _ => by omega⟩

theorem Piece.zeroChecksum (h : Piece src hdr cur n fragOff buff) (hhdr : hdrLen src 0 = hdr) :
    ZeroChecksum buff ↔ byte src 9 = protoUdp ∧ fragOff &&& ipOffset = 0 ∧ field16 buff (hdr + 6) = 0 := by
  rw [ZeroChecksum, Unchecked, First, h.protocol, Nat.zero_add, Nat.zero_add, h.fragOff, h.ihl, hhdr]

/-- The checksum is in a piece with eight bytes of the datagram. -/
theorem Piece.check (h : Piece src hdr cur n fragOff buff) (hn : 8 ≤ n) : field16 buff (hdr + 6) = field16 src (cur + 6) := by
  have hbyte : ∀ i < n, byte buff (hdr + i) = byte src (cur + i) := by
    intro i hi
    rw [← byte_drop, ← byte_drop, ← byte_take hi, h.data, byte_take hi]
  rw [field16, field16, Nat.add_assoc, Nat.add_assoc, hbyte 6 (by omega), hbyte 7 (by omega)]

theorem transport6_length (h : Piece src hdr cur n fragOff buff) (h20 : 20 ≤ hdr) (hhdr : hdrLen src 0 = hdr)
    (hoff : fragOff < ipDf) (hn : n ≤ fragBuffSize) (hskb : skb.length = n + hdr + 28) :
    (transport6 tosIgnoreFlag buff (n + hdr) skb).length = n + hdr + 28 := by
  have hfr := h.fr6 hoff
  have hfragments : (fragments buff).length = 8 := hfr
  have hihl : hdrLen buff 0 = hdr := h.ihl.trans hhdr
  have hdata : (data4 buff (n + hdr)).length = n := by
    rw [data4_length (by rw [h.length]; omega), hihl, Nat.add_sub_cancel]
  rw [transport6, List.length_append, transportHeader_length, List.length_append, hfragments, List.length_append, hdata,
    hfr, List.length_drop]
  omega

end Fragment

/-! ## The train of fragments -/

/-- The data behind the fragment header. -/
def fragmentData (out : List UInt8) : List UInt8 := (out.drop 48).take (field16 out 4 - 8)

/-- A fragment of IPv6, and if more follow. -/
structure IsFragment (protocol : UInt8) (id offset : ℕ) (more : Prop) (out : List UInt8) : Prop where
  nexthdr : byte out 6 = nexthdrFragment
  protocol : byte out 40 = protocol
  id : bytes4 out 44 = beBytes id
  offset : field16 out 42 / 8 * 8 = offset
  more : field16 out 42 % 2 = 1 ↔ more

/-- Fragments one behind the other; `more` is for the last one. -/
inductive Train (protocol : UInt8) (id : ℕ) (more : Prop) : ℕ → List (List UInt8) → Prop
  | last {offset : ℕ} {out : List UInt8} (h : IsFragment protocol id offset more out) : Train protocol id more offset [out]
  | cons {offset : ℕ} {out : List UInt8} {outs : List (List UInt8)} (h : IsFragment protocol id offset True out)
      (hrest : Train protocol id more (offset + (fragmentData out).length) outs) :
      Train protocol id more offset (out :: outs)

/-- The data of each fragment is at its offset, so it does not matter in which order they arrive. -/
theorem Train.slice {protocol : UInt8} {id : ℕ} {more : Prop} {offset : ℕ} {outs : List (List UInt8)}
    (h : Train protocol id more offset outs) : ∀ out ∈ outs, offset ≤ field16 out 42 / 8 * 8 ∧
      ((outs.flatMap fragmentData).drop (field16 out 42 / 8 * 8 - offset)).take (fragmentData out).length =
        fragmentData out := by
  induction h with
  | last hout =>
    intro o ho
    rw [List.mem_singleton.mp ho, hout.offset, Nat.sub_self, List.drop_zero, List.flatMap_singleton]
    exact ⟨le_rfl, List.take_length⟩
  | cons hout hrest ih =>
    intro o ho
    rw [List.flatMap_cons]
    rcases List.mem_cons.mp ho with rfl | ho
    · rw [hout.offset, Nat.sub_self, List.drop_zero]
      exact ⟨le_rfl, List.take_left⟩
    · obtain ⟨hle, hslice⟩ := ih o ho
      refine ⟨(Nat.le_add_right _ _).trans hle, ?_⟩
      obtain ⟨d, hd⟩ := Nat.exists_eq_add_of_le hle
      rw [hd, Nat.add_sub_cancel_left] at hslice
      rw [hd, Nat.add_assoc, Nat.add_sub_cancel_left, List.drop_length_add_append]
      exact hslice

section Loop
variable (k : Checksums) (tosIgnoreFlag : Bool) {src : List UInt8} {hdr : ℕ} {alloc : ℕ → ℕ → Option (List UInt8)}

theorem Fragment.data_eq {cur n fragOff : ℕ} {out : List UInt8} (h : Fragment src cur n fragOff out) :
    fragmentData out = (src.drop cur).take n := by
  rw [fragmentData, h.payloadLen, Nat.add_sub_cancel, h.data]

theorem Fragment.isFragment {cur n fragOff : ℕ} {out : List UInt8} (h : Fragment src cur n fragOff out) :
    IsFragment (byte src 9) (field16 src 4) (fragOff % 8192 * 8) (fragOff / 8192 % 2 = 1) out := by
  have hfield : field16 out 42 = fragOff % 8192 * 8 + fragOff / 8192 % 2 := h.fragOff.trans (fragOff6_eq fragOff)
  have hoffset : field16 out 42 / 8 * 8 = fragOff % 8192 * 8 := by omega
  have hmore : field16 out 42 % 2 = fragOff / 8192 % 2 := by omega
  exact ⟨h.nexthdr, h.protocol, h.id, hoffset, by rw [hmore]⟩

theorem fragLoop_last {fuel sent : ℕ} {st : FragState} {flagLastMf : Bool} {buff skb out : List UInt8}
    (hlast : st.restLen ≤ fragBuffSize) (hpiece : pieceRun k src hdr st st.restLen
      (if flagLastMf then st.fragOffset &&& 0xdfff else st.fragOffset ||| ipMf) = .ok buff)
    (halloc : alloc sent (st.restLen + hdr + 28) = some skb)
    (hrun : ip4Ip6 k tosIgnoreFlag buff (st.restLen + hdr : ℕ) skb = .ok out) :
    fragLoop k tosIgnoreFlag src hdr alloc flagLastMf (fuel + 1) sent st = ([out], .ok ()) := by
  rw [fragLoop]
  simp only [hlast, decide_true, if_true, true_and, hpiece, halloc, hrun]

theorem fragLoop_more {fuel sent : ℕ} {st : FragState} {flagLastMf : Bool} {buff skb out : List UInt8}
    (hmore : ¬ st.restLen ≤ fragBuffSize)
    (hpiece : pieceRun k src hdr st fragBuffSize (st.fragOffset ||| ipMf) = .ok buff)
    (halloc : alloc sent (fragBuffSize + hdr + 28) = some skb)
    (hrun : ip4Ip6 k tosIgnoreFlag buff (fragBuffSize + hdr : ℕ) skb = .ok out) :
    fragLoop k tosIgnoreFlag src hdr alloc flagLastMf (fuel + 1) sent st =
      let r := fragLoop k tosIgnoreFlag src hdr alloc flagLastMf fuel (sent + 1) ⟨st.curPtr + fragBuffSize,
        st.restLen - fragBuffSize, (st.fragOffset * 8 + fragBuffSize) / 8 % 65536, buff⟩
      (out :: r.1, r.2) := by
  rw [fragLoop]
  simp only [hmore, decide_false, Bool.false_eq_true, if_false, false_and, hpiece, halloc, hrun]

theorem fragLoop_unsent {fuel sent : ℕ} {st : FragState} {flagLastMf : Bool} {buff : List UInt8}
    (hmore : ¬ st.restLen ≤ fragBuffSize)
    (hpiece : pieceRun k src hdr st fragBuffSize (st.fragOffset ||| ipMf) = .ok buff)
    (halloc : alloc sent (fragBuffSize + hdr + 28) = none) :
    fragLoop k tosIgnoreFlag src hdr alloc flagLastMf (fuel + 1) sent st = ([], .error .dropped) := by
  rw [fragLoop]
  simp only [hmore, decide_false, Bool.false_eq_true, if_false, false_and, hpiece, halloc]

/-- A packet whose data is cut. -/
structure Cut (src : List UInt8) (hdr : ℕ) : Prop where
  ihl : 20 ≤ hdr
  header : hdrLen src 0 = hdr
  protocol : byte src 9 = protoTcp ∨ byte src 9 = protoUdp

/-- The state at the head of the loop. The first piece is not the last. -/
structure Ready (src : List UInt8) (hdr : ℕ) (st : FragState) : Prop where
  cur : hdr ≤ st.curPtr
  rest : st.curPtr + st.restLen = src.length
  pos : 0 < st.restLen
  buff : st.buff.length = fragBuffSize + hdr
  offset : st.fragOffset * 8 + st.restLen ≤ 65535
  first : st.fragOffset = 0 → fragBuffSize < st.restLen

/-- What the loop sends. -/
structure Sized (hdr : ℕ) (out : List UInt8) : Prop where
  length : out.length = 40 + field16 out 4 + (hdr - 20)
  bound : 40 + field16 out 4 ≤ 1280

variable {tosIgnoreFlag}

theorem Ready.piece {st : FragState} (hcut : Cut src hdr) (h : Ready src hdr st) {n fragOff : ℕ} (hn : n ≤ fragBuffSize)
    (hrest : n ≤ st.restLen) (hoff : fragOff < ipDf) :
    ∃ buff, pieceRun k src hdr st n fragOff = .ok buff ∧ Piece src hdr st.curPtr n fragOff buff := by
  have hdf : ipDf = 16384 := rfl
  have hcur := h.cur
  have htotal := h.rest
  have hmax : hdr ≤ 60 := hcut.header ▸ hdrLen_le src 0
  have hfits : hdr ≤ src.length := by omega
  exact pieceRun_piece k hcut.ihl hfits hmax hn (by omega) h.buff (by omega)

/-- A datagram whose first piece has no checksum. -/
def Lacks (src : List UInt8) (st : FragState) : Prop :=
  st.fragOffset = 0 ∧ byte src 9 = protoUdp ∧ field16 src (st.curPtr + 6) = 0

/-- The pieces that a packet is cut into go out as fragments with their data. -/
theorem Ready.sent {st : FragState} (hcut : Cut src hdr) (h : Ready src hdr st) (hchecked : ¬ Lacks src st) {n fragOff : ℕ}
    (hn : n ≤ fragBuffSize) (hrest : n ≤ st.restLen) (height : st.fragOffset = 0 → 8 ≤ n) (hoff : fragOff < ipDf)
    (hat : fragOff % 8192 = st.fragOffset) :
    ∃ buff, pieceRun k src hdr st n fragOff = .ok buff ∧ buff.length = fragBuffSize + hdr ∧
      ∀ skb, skb.length = n + hdr + 28 → ∃ out, ip4Ip6 k tosIgnoreFlag buff (n + hdr : ℕ) skb = .ok out ∧
        Fragment src st.curPtr n fragOff out ∧ Sized hdr out := by
  have hsize : fragBuffSize = 1232 := rfl
  have hihl := hcut.ihl
  have htotal := h.rest
  obtain ⟨buff, hrun, hpiece⟩ := h.piece k hcut hn hrest hoff
  refine ⟨buff, hrun, hpiece.length, fun skb hskb => ?_⟩
  have hzero : ¬ ZeroChecksum buff := by
    rw [hpiece.zeroChecksum hcut.header]
    rintro ⟨hudp, hfirst, hcheck⟩
    have hand : fragOff &&& ipOffset = fragOff % 8192 := Nat.and_two_pow_sub_one_eq_mod fragOff 13
    have hoffset : st.fragOffset = 0 := by rw [← hat, ← hand, hfirst]
    rw [hpiece.check (height hoffset)] at hcheck
    exact hchecked ⟨hoffset, hudp, hcheck⟩
  have hout := hpiece.translated tosIgnoreFlag k hihl hcut.header hoff hcut.protocol hn hskb
  rw [if_neg fun hz => hzero hz.1, if_neg hzero] at hout
  have hfragment := hpiece.fragment tosIgnoreFlag skb hihl hcut.header hoff hcut.protocol (by omega)
  refine ⟨_, hout, hfragment, ?_, ?_⟩
  · rw [transport6_length tosIgnoreFlag hpiece hihl hcut.header hoff hn hskb, hfragment.payloadLen]
    omega
  · rw [hfragment.payloadLen]
    omega

/-- There is memory for the packets that are left. -/
def Granted (alloc : ℕ → ℕ → Option (List UInt8)) (hdr sent rest : ℕ) : Prop :=
  ∀ i, i * fragBuffSize < rest →
    ∃ skb, alloc (sent + i) (min fragBuffSize (rest - i * fragBuffSize) + hdr + 28) = some skb

theorem Granted.first {sent rest : ℕ} (h : Granted alloc hdr sent rest) (hrest : 0 < rest) :
    ∃ skb, alloc sent (min fragBuffSize rest + hdr + 28) = some skb := by
  have h := h 0 (by omega)
  rwa [Nat.zero_mul, Nat.sub_zero, Nat.add_zero] at h

theorem Granted.next {sent rest : ℕ} (h : Granted alloc hdr sent rest) :
    Granted alloc hdr (sent + 1) (rest - fragBuffSize) := by
  intro i hi
  have hmul : (i + 1) * fragBuffSize = i * fragBuffSize + fragBuffSize := Nat.succ_mul i fragBuffSize
  have h := h (i + 1) (by omega)
  have hsub : rest - (i + 1) * fragBuffSize = rest - fragBuffSize - i * fragBuffSize := by omega
  rwa [hsub, Nat.add_comm i 1, ← Nat.add_assoc] at h

theorem granted_cons {sent rest : ℕ} (h : ∃ skb, alloc sent (fragBuffSize + hdr + 28) = some skb)
    (hrest : fragBuffSize < rest) (hnext : Granted alloc hdr (sent + 1) (rest - fragBuffSize)) :
    Granted alloc hdr sent rest := by
  intro i hi
  cases i with
  | zero =>
    rwa [Nat.zero_mul, Nat.sub_zero, Nat.add_zero, Nat.min_eq_left (by omega)]
  | succ i =>
    have hmul : (i + 1) * fragBuffSize = i * fragBuffSize + fragBuffSize := Nat.succ_mul i fragBuffSize
    have hsub : rest - (i + 1) * fragBuffSize = rest - fragBuffSize - i * fragBuffSize := by omega
    rw [hsub, ← Nat.add_assoc, Nat.add_right_comm]
    exact hnext i (by omega)

theorem Ready.next {st : FragState} (h : Ready src hdr st) (hmore : ¬ st.restLen ≤ fragBuffSize) {buff : List UInt8}
    (hbuff : buff.length = fragBuffSize + hdr) :
    Ready src hdr ⟨st.curPtr + fragBuffSize, st.restLen - fragBuffSize, (st.fragOffset * 8 + fragBuffSize) / 8 % 65536,
      buff⟩ := by
  have hsize : fragBuffSize = 1232 := rfl
  have hcur := h.cur
  have hrest := h.rest
  have hoffset := h.offset
  have hnext : (st.fragOffset * 8 + fragBuffSize) / 8 % 65536 = st.fragOffset + 154 := by omega
  rw [hnext]
  constructor
  all_goals dsimp only
  · omega
  · omega
  · omega
  · exact hbuff
  · omega
  · omega

theorem Ready.next_checked {st : FragState} (h : Ready src hdr st) (cur rest : ℕ) (buff : List UInt8) :
    ¬ Lacks src ⟨cur, rest, (st.fragOffset * 8 + fragBuffSize) / 8 % 65536, buff⟩ := by
  have hsize : fragBuffSize = 1232 := rfl
  have hoffset := h.offset
  rintro ⟨h0, -⟩
  dsimp only at h0
  omega

theorem or_mf {n : ℕ} (h : n < 8192) : n ||| ipMf = 8192 + n := by
  have hor : 2 ^ 13 * 1 + n = 2 ^ 13 * 1 ||| n := Nat.two_pow_add_eq_or_of_lt h 1
  rw [Nat.or_comm]
  exact hor.symm

theorem and_not_mf {n : ℕ} (h : n < 8192) : n &&& 0xdfff = n := by
  have hlow : n &&& 0x1fff = n := (Nat.and_two_pow_sub_one_eq_mod n 13).trans (Nat.mod_eq_of_lt h)
  have hand : n &&& 0x1fff &&& 0xdfff = n &&& 0x1fff := Nat.and_assoc n 0x1fff 0xdfff
  rwa [hlow] at hand

variable (tosIgnoreFlag)

theorem Ready.last {st : FragState} (hcut : Cut src hdr) (h : Ready src hdr st) (hchecked : ¬ Lacks src st)
    (flagLastMf : Bool) (hlast : st.restLen ≤ fragBuffSize) :
    ∃ buff, pieceRun k src hdr st st.restLen
        (if flagLastMf then st.fragOffset &&& 0xdfff else st.fragOffset ||| ipMf) = .ok buff ∧
      ∀ skb, skb.length = st.restLen + hdr + 28 →
        ∃ out, ip4Ip6 k tosIgnoreFlag buff (st.restLen + hdr : ℕ) skb = .ok out ∧ Sized hdr out ∧
          IsFragment (byte src 9) (field16 src 4) (st.fragOffset * 8) (flagLastMf = false) out ∧
          fragmentData out = src.drop st.curPtr := by
  have hsize : fragBuffSize = 1232 := rfl
  have hdf : ipDf = 16384 := rfl
  have hpos := h.pos
  have hoffset := h.offset
  have hrest := h.rest
  have hlater : st.fragOffset ≠ 0 := fun h0 => absurd (h.first h0) (not_lt.mpr hlast)
  have hflag : (if flagLastMf then st.fragOffset &&& 0xdfff else st.fragOffset ||| ipMf) =
      st.fragOffset + if flagLastMf then 0 else 8192 := by
    rw [and_not_mf (by omega), or_mf (by omega)]
    split <;> omega
  have hpart : (st.fragOffset + if flagLastMf then 0 else 8192) % 8192 = st.fragOffset := by
    split <;> omega
  obtain ⟨buff, hpiece, -, hsend⟩ := h.sent k hcut hchecked hlast le_rfl (fun h0 => absurd h0 hlater)
    (by split <;> omega) hpart
  rw [hflag]
  refine ⟨buff, hpiece, fun skb hskb => ?_⟩
  obtain ⟨out, hrun, hfragment, hsized⟩ := hsend skb hskb
  have hout := hfragment.isFragment
  rw [hpart] at hout
  refine ⟨out, hrun, hsized, ⟨hout.nexthdr, hout.protocol, hout.id, hout.offset, hout.more.trans ?_⟩, ?_⟩
  · cases flagLastMf
    · exact iff_of_true (by rw [if_neg Bool.false_ne_true]; omega) rfl
    · exact iff_of_false (by rw [if_pos rfl]; omega) (by decide)
  · rw [hfragment.data_eq]
    exact List.take_of_length_le (by rw [List.length_drop]; omega)

theorem Ready.more {st : FragState} (hcut : Cut src hdr) (h : Ready src hdr st) (hchecked : ¬ Lacks src st)
    (hmore : ¬ st.restLen ≤ fragBuffSize) :
    ∃ buff, pieceRun k src hdr st fragBuffSize (st.fragOffset ||| ipMf) = .ok buff ∧
      buff.length = fragBuffSize + hdr ∧
      ∀ skb, skb.length = fragBuffSize + hdr + 28 →
        ∃ out, ip4Ip6 k tosIgnoreFlag buff (fragBuffSize + hdr : ℕ) skb = .ok out ∧ Sized hdr out ∧
          IsFragment (byte src 9) (field16 src 4) (st.fragOffset * 8) True out ∧
          Fragment src st.curPtr fragBuffSize (st.fragOffset ||| ipMf) out := by
  have hsize : fragBuffSize = 1232 := rfl
  have hdf : ipDf = 16384 := rfl
  have hoffset := h.offset
  rw [or_mf (by omega)]
  obtain ⟨buff, hpiece, hbuff, hsend⟩ := h.sent k hcut hchecked (le_refl fragBuffSize) (by omega) (fun _ => by omega)
    (show 8192 + st.fragOffset < ipDf by omega) (by omega)
  refine ⟨buff, hpiece, hbuff, fun skb hskb => ?_⟩
  obtain ⟨out, hrun, hfragment, hsized⟩ := hsend skb hskb
  have hout := hfragment.isFragment
  have hpart : (8192 + st.fragOffset) % 8192 = st.fragOffset := by omega
  rw [hpart] at hout
  refine ⟨out, hrun, hsized, ⟨hout.nexthdr, hout.protocol, hout.id, hout.offset, hout.more.trans ?_⟩, hfragment⟩
  exact iff_of_true (by omega) trivial

theorem fragLoop_train (halloc : ∀ i n skb, alloc i n = some skb → skb.length = n) (hcut : Cut src hdr)
    (flagLastMf : Bool) {fuel sent : ℕ} {st : FragState} (h : Ready src hdr st)
    (hchecked : ¬ Lacks src st) (hfuel : st.restLen ≤ fuel * fragBuffSize) (hgranted : Granted alloc hdr sent st.restLen) :
    ∃ outs, fragLoop k tosIgnoreFlag src hdr alloc flagLastMf fuel sent st = (outs, .ok ()) ∧
      Train (byte src 9) (field16 src 4) (flagLastMf = false) (st.fragOffset * 8) outs ∧
      outs.flatMap fragmentData = src.drop st.curPtr ∧ ∀ out ∈ outs, Sized hdr out := by
  have hsize : fragBuffSize = 1232 := rfl
  induction fuel generalizing sent st with
  | zero =>
    have hpos := h.pos
    omega
  | succ fuel ih =>
    have hoffset := h.offset
    have hrest := h.rest
    obtain ⟨skb, hskb⟩ := hgranted.first h.pos
    by_cases hlast : st.restLen ≤ fragBuffSize
    · obtain ⟨buff, hpiece, hsend⟩ := h.last k tosIgnoreFlag hcut hchecked flagLastMf hlast
      rw [Nat.min_eq_right hlast] at hskb
      obtain ⟨out, hrun, hsized, hfragment, hdata⟩ := hsend skb (halloc _ _ _ hskb)
      refine ⟨[out], fragLoop_last k tosIgnoreFlag hlast hpiece hskb hrun, .last hfragment, ?_, ?_⟩
      · rw [List.flatMap_singleton, hdata]
      · intro o ho
        rwa [List.mem_singleton.mp ho]
    · obtain ⟨buff, hpiece, hbuff, hsend⟩ := h.more k tosIgnoreFlag hcut hchecked hlast
      rw [Nat.min_eq_left (by omega)] at hskb
      obtain ⟨out, hrun, hsized, hisFragment, hfragment⟩ := hsend skb (halloc _ _ _ hskb)
      obtain ⟨outs, hloop, htrain, hdata, hall⟩ := ih (h.next hlast hbuff) (h.next_checked _ _ _) (by
        rw [Nat.succ_mul] at hfuel
        exact Nat.sub_le_iff_le_add.mpr hfuel) hgranted.next
      have hlength : (fragmentData out).length = fragBuffSize := by
        rw [hfragment.data_eq, List.length_take, List.length_drop]
        omega
      refine ⟨out :: outs, ?_, .cons hisFragment ?_, ?_, ?_⟩
      · rw [fragLoop_more k tosIgnoreFlag hlast hpiece hskb hrun, hloop]
      · have height : (st.fragOffset * 8 + fragBuffSize) / 8 % 65536 * 8 = st.fragOffset * 8 + fragBuffSize := by omega
        dsimp only at htrain
        rwa [height, ← hlength] at htrain
      · rw [List.flatMap_cons, hdata, hfragment.data_eq]
        dsimp only
        rw [← List.drop_drop, List.take_append_drop]
      · intro o ho
        rcases List.mem_cons.mp ho with rfl | ho
        · exact hsized
        · exact hall o ho

/-- The loop ends, and if not all packets are sent, then for want of memory. -/
theorem fragLoop_ends (halloc : ∀ i n skb, alloc i n = some skb → skb.length = n) (hcut : Cut src hdr)
    (flagLastMf : Bool) {fuel : ℕ} (sent : ℕ) {st : FragState} (h : Ready src hdr st)
    (hchecked : ¬ Lacks src st) (hfuel : st.restLen ≤ fuel * fragBuffSize) :
    (fragLoop k tosIgnoreFlag src hdr alloc flagLastMf fuel sent st).2 = .ok () ∨
      (fragLoop k tosIgnoreFlag src hdr alloc flagLastMf fuel sent st).2 = .error .dropped := by
  induction fuel generalizing sent st with
  | zero =>
    have hpos := h.pos
    omega
  | succ fuel ih =>
    by_cases hlast : st.restLen ≤ fragBuffSize
    · obtain ⟨buff, hpiece, hsend⟩ := h.last k tosIgnoreFlag hcut hchecked flagLastMf hlast
      cases hskb : alloc sent (st.restLen + hdr + 28) with
      | none =>
        right
        rw [fragLoop]
        simp only [hlast, decide_true, if_true, true_and, hpiece, hskb]
      | some skb =>
        left
        obtain ⟨out, hrun, -⟩ := hsend skb (halloc _ _ _ hskb)
        rw [fragLoop_last k tosIgnoreFlag hlast hpiece hskb hrun]
    · obtain ⟨buff, hpiece, hbuff, hsend⟩ := h.more k tosIgnoreFlag hcut hchecked hlast
      cases hskb : alloc sent (fragBuffSize + hdr + 28) with
      | none => exact .inr (congrArg Prod.snd (fragLoop_unsent k tosIgnoreFlag hlast hpiece hskb))
      | some skb =>
        obtain ⟨out, hrun, -⟩ := hsend skb (halloc _ _ _ hskb)
        rw [fragLoop_more k tosIgnoreFlag hlast hpiece hskb hrun]
        exact ih _ (h.next hlast hbuff) (h.next_checked _ _ _) (by
          rw [Nat.succ_mul] at hfuel
          exact Nat.sub_le_iff_le_add.mpr hfuel)

/-- All packets were sent, so there was memory for them. -/
theorem granted_of_ok {flagLastMf : Bool} {fuel sent : ℕ} {st : FragState} {outs : List (List UInt8)}
    (h : fragLoop k tosIgnoreFlag src hdr alloc flagLastMf fuel sent st = (outs, .ok ())) :
    Granted alloc hdr sent st.restLen := by
  induction fuel generalizing sent st outs with
  | zero =>
    rw [fragLoop] at h
    cases h
  | succ fuel ih =>
    rw [fragLoop] at h
    dsimp only at h
    split at h
    · cases h
    · split at h
      · cases h
      · next skb hskb =>
        split at h
        · cases h
        · by_cases hlast : st.restLen ≤ fragBuffSize
          · intro i hi
            obtain rfl : i = 0 := by
              by_contra hne
              have := Nat.le_mul_of_pos_left fragBuffSize (Nat.pos_of_ne_zero hne)
              omega
            rw [if_pos (decide_eq_true hlast)] at hskb
            rw [Nat.zero_mul, Nat.sub_zero, Nat.add_zero, Nat.min_eq_right hlast]
            exact ⟨skb, hskb⟩
          · rw [if_neg (by rwa [decide_eq_true_eq])] at h hskb
            obtain ⟨-, hrest⟩ := Prod.mk.inj h
            have hloop := ih (Prod.ext rfl hrest)
            rw [if_neg (by rwa [decide_eq_true_eq])] at hloop
            exact granted_cons ⟨skb, hskb⟩ (by omega) hloop

/-- A first piece without a checksum is dropped, as more pieces follow. -/
theorem fragLoop_dropped (halloc : ∀ i n skb, alloc i n = some skb → skb.length = n) (hcut : Cut src hdr)
    (flagLastMf : Bool) (fuel sent : ℕ) {st : FragState} (h : Ready src hdr st) (hlacks : Lacks src st) :
    fragLoop k tosIgnoreFlag src hdr alloc flagLastMf (fuel + 1) sent st = ([], .error .dropped) := by
  have hsize : fragBuffSize = 1232 := rfl
  obtain ⟨hoffset, hudp, hcheck⟩ := hlacks
  have hmore : ¬ st.restLen ≤ fragBuffSize := not_le.mpr (h.first hoffset)
  obtain ⟨buff, hrun, hpiece⟩ := h.piece k hcut (le_refl fragBuffSize) (by omega) (show ipMf < ipDf by decide)
  rw [fragLoop]
  simp only [hmore, decide_false, Bool.false_eq_true, if_false, false_and, hoffset, Nat.zero_or, hrun]
  cases hskb : alloc sent (fragBuffSize + hdr + 28) with
  | none => rfl
  | some skb =>
    have hout := hpiece.translated tosIgnoreFlag k hcut.ihl hcut.header (by decide) hcut.protocol le_rfl
      (halloc _ _ _ hskb)
    have hzero : ZeroChecksum buff := by
      rw [hpiece.zeroChecksum hcut.header, hpiece.check (by omega)]
      exact ⟨hudp, rfl, hcheck⟩
    have hmf : More buff 0 := by
      rw [More, Nat.zero_add, hpiece.fragOff]
      decide
    rw [if_pos ⟨hzero, hmf⟩] at hout
    dsimp only
    rw [hout]

end Loop

end Neufbox.Siit
