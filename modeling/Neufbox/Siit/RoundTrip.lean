import Neufbox.Siit.Translate

/-! # A packet there and back

A packet without options that `ip4_ip6` translates comes back from `ip6_ip4` as it was, but for what the translation
computes anew. -/
namespace Neufbox.Siit
open Blocks ByteStore OnesComplement
set_option autoImplicit false
set_option maxHeartbeats 250000
set_option maxRecDepth 120000

/-! ## Buffers in pieces -/

theorem inside_ok {m : List UInt8} {i n : ℕ} (h : i + n ≤ m.length) : inside m i n = .ok () := if_pos h

/-- A piece of the buffer is replaced. -/
theorem write_piece (front old back bs : List UInt8) (h : bs.length = old.length) {i : ℕ} (hi : i = front.length) :
    write (front ++ (old ++ back)) i bs = .ok (front ++ (bs ++ back)) := by
  have hfits : i + bs.length ≤ (front ++ (old ++ back)).length := by
    rw [List.length_append, List.length_append]
    omega
  rw [write, if_pos hfits, overlay, hi, List.take_left, List.drop_length_add_append, h, List.drop_left]

theorem region_piece (front bs back : List UInt8) {i : ℕ} (hi : i = front.length) {n : ℤ} (hn : n = bs.length) :
    region (front ++ (bs ++ back)) i n = .ok bs := by
  have hnot : ¬n < 0 := by omega
  have hnat : n.toNat = bs.length := by omega
  have hfits : i + n.toNat ≤ (front ++ (bs ++ back)).length := by
    rw [List.length_append, List.length_append]
    omega
  rw [region, if_neg hnot, if_pos hfits, hnat, hi, List.drop_left, List.take_left]

theorem memcpy_piece (front old back : List UInt8) {i : ℕ} (hi : i = front.length) {src bs : List UInt8} {s : ℕ} {n : ℤ}
    (hbs : region src s n = .ok bs) (h : bs.length = old.length) :
    memcpy (front ++ (old ++ back)) i src s n = .ok (front ++ (bs ++ back)) := by
  rw [memcpy, hbs]
  exact write_piece front old back bs h hi

/-- The rest of a buffer. -/
theorem region_drop {m : List UInt8} {i : ℕ} {n : ℤ} (hi : i ≤ m.length) (hn : n = (m.length : ℤ) - i) :
    region m i n = .ok (m.drop i) := by
  have h := region_piece (m.take i) (m.drop i) [] (List.length_take_of_le hi).symm (n := n)
    (by rw [List.length_drop]; omega)
  rwa [List.append_nil, List.take_append_drop] at h

/-! ## Fields -/

theorem half_field16 (m : List UInt8) (i : ℕ) : half (field16 m i) = [byte m i, byte m (i + 1)] := by
  have h := (byte m (i + 1)).toNat_lt
  have hhigh : field16 m i / 256 = (byte m i).toNat := by rw [field16]; omega
  have hlow : field16 m i % 256 = (byte m (i + 1)).toNat := by rw [field16]; omega
  rw [half, hhigh, UInt8.ofNat_toNat, ← UInt8.ofNat_mod_size, hlow, UInt8.ofNat_toNat]

theorem field16_lt (m : List UInt8) (i : ℕ) : field16 m i < 65536 := by
  have h := (byte m i).toNat_lt
  have h' := (byte m (i + 1)).toNat_lt
  rw [field16]
  omega

/-- The field that `half` wrote. -/
theorem half_toNat {n : ℕ} (hn : n < 65536) :
    256 * (UInt8.ofNat (n / 256)).toNat + (UInt8.ofNat n).toNat = n := by
  rw [UInt8.toNat_ofNat', UInt8.toNat_ofNat']
  omega

/-- The offset times eight, and the flag below it. -/
theorem fragOff6_eq (f : ℕ) : fragOff6 f = f % 8192 * 8 + f / 8192 % 2 := by
  have hoffset : f &&& ipOffset = f % 8192 := Nat.and_two_pow_sub_one_eq_mod f 13
  have hflag : (f &&& ipMf) >>> 13 = f / 8192 % 2 := by
    rw [Nat.shiftRight_and_distrib, Nat.shiftRight_eq_div_pow]
    exact Nat.and_one_is_mod _
  have hlt : f / 8192 % 2 < 2 ^ 3 := lt_of_lt_of_le (Nat.mod_lt _ two_pos) (by norm_num)
  rw [fragOff6, hoffset, hflag, Nat.shiftLeft_eq, Nat.mul_comm, ← Nat.two_pow_add_eq_or_of_lt hlt]

theorem fragOff4_eq (g : ℕ) : fragOff4 g = g / 8 % 8192 + g % 2 * 8192 := by
  have hoffset : (g &&& 0xfff8) >>> 3 = g / 8 % 8192 := by
    rw [Nat.shiftRight_and_distrib, Nat.shiftRight_eq_div_pow]
    exact Nat.and_two_pow_sub_one_eq_mod _ 13
  have hflag : g &&& 0x0001 = g % 2 := Nat.and_one_is_mod g
  have hlt : g / 8 % 8192 < 2 ^ 13 := Nat.mod_lt _ (by norm_num)
  rw [fragOff4, hoffset, hflag, Nat.shiftLeft_eq, Nat.or_comm, Nat.mul_comm, ← Nat.two_pow_add_eq_or_of_lt hlt]
  omega

theorem fragOff_back {f : ℕ} (hf : f < 0x4000) : fragOff4 (fragOff6 f) = f := by
  have hflag : f / 8192 % 2 = f / 8192 := by omega
  have hoffset : (f % 8192 * 8 + f / 8192) / 8 = f % 8192 := by omega
  have hbit : (f % 8192 * 8 + f / 8192) % 2 = f / 8192 := by omega
  rw [fragOff4_eq, fragOff6_eq, hflag, hoffset, hbit]
  omega

theorem tos_back (tos : UInt8) :
    (((0x60 : UInt8) ||| (tos &&& 0xf0) >>> 4) &&& 0x0f) <<< 4 ||| ((tos &&& 0x0f) <<< 4) >>> 4 = tos := by
  obtain ⟨b⟩ := tos
  apply UInt8.eq_of_toBitVec_eq
  revert b
  decide

/-! ## Packets -/

/-- What the packet carries: some of TCP; some of UDP, with a checksum where there is one; or an ICMP echo. -/
inductive Carries (src : List UInt8) : Prop
  | tcp : byte src 9 = protoTcp → 20 < src.length → Carries src
  | udp : byte src 9 = protoUdp → 20 < src.length →
      (field16 src 6 &&& ipOffset = 0 → 28 ≤ src.length ∧ field16 src 26 ≠ 0) → Carries src
  | icmp : byte src 9 = protoIcmp → field16 src 6 &&& ipOffset = 0 → field16 src 6 &&& ipMf = 0 → 28 ≤ src.length →
      byte src 20 = 8 ∨ byte src 20 = 0 → byte src 21 = 0 → Verifies (src.drop 20) → Carries src

/-- An IPv4 packet without options, and with no flag next to `DF`. -/
structure Translatable (src : List UInt8) : Prop where
  ihl : byte src 0 &&& 0x0f = 5
  totLen : field16 src 2 = src.length
  short : src.length < 65528
  fragOff : field16 src 6 = ipDf ∨ field16 src 6 < ipDf
  carries : Carries src

/-- The fragment header, if there is one. -/
def fragments (src : List UInt8) : List UInt8 := if field16 src 6 = ipDf then [] else fragHeader src 0

def header6 (src : List UInt8) : List UInt8 :=
  ip6Header false src 0 mappedPrefix translatedPrefix (src.length + (fragments src).length - 20)
    (if field16 src 6 = ipDf then protocolNexthdr (byte src 9) else nexthdrFragment)

theorem Translatable.pos {src : List UInt8} (h : Translatable src) : 20 < src.length := by
  cases h.carries with
  | tcp _ hlen => exact hlen
  | udp _ hlen _ => exact hlen
  | icmp _ _ _ hlen => omega

theorem fragments_length (src : List UInt8) : (fragments src).length = if field16 src 6 = ipDf then 0 else 8 := by
  rw [fragments]
  split <;> rfl

/-- The fields of the header in a row, which reads faster. -/
theorem header6_append (src m : List UInt8) : header6 src ++ m =
    versionBytes false (byte src 1) ++ (htons (src.length + (fragments src).length - 20) ++
      ((if field16 src 6 = ipDf then protocolNexthdr (byte src 9) else nexthdrFragment) :: byte src 8 ::
      (beBytes 0 ++ (beBytes 0 ++ (beBytes mappedPrefix ++ (bytes4 src 12 ++
      (beBytes 0 ++ (beBytes 0 ++ (beBytes translatedPrefix ++ (bytes4 src 16 ++ m)))))))))) := by
  simp only [header6, ip6Header, List.append_assoc, List.cons_append, List.nil_append, Nat.zero_add]

theorem fragHeader_append (src m : List UInt8) : fragHeader src 0 ++ m =
    protocolNexthdr (byte src 9) :: 0 :: (half (fragOff6 (field16 src 6)) ++ (beBytes (field16 src 4) ++ m)) := by
  simp only [fragHeader, List.append_assoc, List.cons_append, List.nil_append, Nat.zero_add]

theorem header6_length (src : List UInt8) : (header6 src).length = 40 := by
  rw [← List.append_nil (header6 src), header6_append]
  rfl

/-! ## There -/

/-- The headers are written, and the rest is left to the protocol. -/
theorem ip4Ip6_headers (k : Checksums) {src : List UInt8} (h : Translatable src) {dst : List UInt8}
    (hdst : dst.length = src.length + 20 + (fragments src).length) :
    ∃ old : List UInt8, old.length = src.length - 20 ∧ ip4Ip6 k false src src.length dst =
      let dst := header6 src ++ (fragments src ++ old)
      let fr := (fragments src).length
      let plen : ℤ := src.length + fr - 20
      if byte src 9 = protoIcmp then icmp4Icmp6 k (ip4Ip6Included k false src) src 0 src.length dst 0 false 20 fr plen
      else if byte src 9 = protoTcp then memcpy dst (40 + fr) src 20 (src.length - 20)
      else if byte src 9 = protoUdp then udp4Udp6 k src 0 src.length dst 0 false 20 fr plen
      else .error .dropped := by
  have hpos := h.pos
  have hshort := h.short
  obtain ⟨a, b, c, rfl, ha, hb, hc⟩ : ∃ a b c : List UInt8, dst = a ++ (b ++ c) ∧ a.length = 40 ∧
      b.length = (fragments src).length ∧ c.length = src.length - 20 := by
    refine ⟨dst.take 40, (dst.drop 40).take (fragments src).length, (dst.drop 40).drop (fragments src).length, ?_⟩
    simp only [List.take_append_drop, List.length_take, List.length_drop]
    refine ⟨trivial, ?_, ?_, ?_⟩ <;> omega
  refine ⟨c, hc, ?_⟩
  have hihl : 4 * (byte src 0 &&& 0x0f).toNat = 20 := by rw [h.ihl]; rfl
  rw [ip4Ip6, ip4Ip6Body, inside_ok (by omega)]
  simp only [Nat.zero_add, hihl, h.totLen, bind, Except.bind]
  have hwrite : ∀ b, write (a ++ (b ++ c)) 0 (header6 src) = .ok (header6 src ++ (b ++ c)) :=
    fun b => write_piece [] a (b ++ c) _ ((header6_length src).trans ha.symm) rfl
  by_cases hdf : field16 src 6 = ipDf
  · have hnone : fragments src = [] := if_pos hdf
    have hplen : ((src.length % 65536 : ℕ) : ℤ) - (20 : ℕ) = src.length + (0 : ℕ) - 20 := by omega
    rw [hnone, List.length_nil, List.length_eq_zero_iff] at hb
    rw [header6, hnone] at hwrite ⊢
    simp only [hdf, true_or, not_true_eq_false, decide_false, Bool.false_eq_true, if_false, if_true, Nat.add_zero,
      hplen, List.length_nil, pure, Except.pure] at hwrite ⊢
    rw [hwrite, hb]
    rfl
  · have hsome : fragments src = fragHeader src 0 := if_neg hdf
    have hlen : (fragHeader src 0).length = 8 := rfl
    have hplen : (((src.length + 8) % 65536 : ℕ) : ℤ) - (20 : ℕ) = src.length + (8 : ℕ) - 20 := by omega
    have hfrag : write (a ++ (b ++ c)) 40 (fragHeader src 0) = .ok (a ++ (fragHeader src 0 ++ c)) :=
      write_piece a b c _ (by rw [hb, hsome]) ha.symm
    rw [header6, hsome] at hwrite ⊢
    simp only [hdf, false_or, Bool.false_eq_true, not_false_eq_true, decide_true, if_false, if_true, hplen,
      hlen] at hwrite ⊢
    rw [hfrag]
    dsimp only
    rw [hwrite]
    rfl

/-- The echo type of ICMPv6. -/
def echo6 (type : UInt8) : UInt8 := if type = 8 then 128 else 129

/-- Behind the headers: the payload, or an ICMPv6 message with the same data. -/
def Body6 (src body : List UInt8) : Prop :=
  byte src 9 ≠ protoIcmp ∧ body = src.drop 20 ∨
    byte src 9 = protoIcmp ∧ ∃ check, body = [echo6 (byte src 20), 0] ++ (half check ++ src.drop 24)

/-- A checksum goes into its field. -/
theorem checksum6_field (k : Checksums) (headers first old rest : List UInt8) (d at6 field : ℕ) (len : ℤ)
    (proto : UInt8) (hat : at6 = headers.length) (hfield : field = first.length) (hold : old.length = 2)
    (hlen : len = first.length + 2 + rest.length) :
    ∃ check, checksum6 k (headers ++ (first ++ (old ++ rest))) d at6 field len proto =
      .ok (headers ++ (first ++ (half check ++ rest))) := by
  have hwrite : ∀ old : List UInt8, old.length = 2 → ∀ n, write (headers ++ (first ++ (old ++ rest))) (at6 + field) (half n) =
      .ok (headers ++ (first ++ (half n ++ rest))) := by
    intro old hold n
    have h := write_piece (headers ++ first) old rest (half n) (i := at6 + field) hold.symm
      (by rw [List.length_append]; omega)
    simpa only [List.append_assoc] using h
  have hbody : region (headers ++ (first ++ (half 0 ++ rest))) at6 len = .ok (first ++ (half 0 ++ rest)) := by
    have h := region_piece headers (first ++ (half 0 ++ rest)) [] hat (n := len)
      (by rw [hlen, List.length_append, List.length_append, half_length]; push_cast; ring)
    rwa [List.append_nil] at h
  simp only [checksum6, hwrite old hold, bind, Except.bind, hbody]
  exact ⟨_, hwrite (half 0) rfl _⟩

theorem icmp4Icmp6_echo (k : Checksums) (inner : Inner (List UInt8)) {src : List UInt8} (htot : field16 src 2 = src.length)
    (hoffset : field16 src 6 &&& ipOffset = 0) (hflag : field16 src 6 &&& ipMf = 0) (hlen : 28 ≤ src.length)
    (htype : byte src 20 = 8 ∨ byte src 20 = 0) (headers old : List UInt8) {fr : ℕ} (hheaders : headers.length = 40 + fr)
    (hold : old.length = src.length - 20) (plen : ℤ) :
    ∃ check, icmp4Icmp6 k inner src 0 src.length (headers ++ old) 0 false 20 fr plen =
      .ok (headers ++ ([echo6 (byte src 20), 0] ++ (half check ++ src.drop 24))) := by
  obtain ⟨o1, o2, o3, rfl, h1, h2, h3⟩ : ∃ o1 o2 o3 : List UInt8, old = o1 ++ (o2 ++ o3) ∧ o1.length = 2 ∧
      o2.length = 2 ∧ o3.length = src.length - 24 := by
    refine ⟨old.take 2, (old.drop 2).take 2, (old.drop 2).drop 2, ?_⟩
    simp only [List.take_append_drop, List.length_take, List.length_drop]
    refine ⟨trivial, ?_, ?_, ?_⟩ <;> omega
  have hkept : ¬(field16 src (0 + 6) &&& ipOffset ≠ 0 ∨ field16 src (0 + 6) &&& ipMf ≠ 0 ∨ (false : Bool) = true) := by
    simp [hoffset, hflag]
  change ∃ check, _ = Except.ok (headers ++ ([if byte src 20 = 8 then (128 : UInt8) else 129, 0] ++ _))
  generalize htype6 : [if byte src 20 = 8 then (128 : UInt8) else 129, 0] = echo
  have hecho : echo.length = 2 := by rw [← htype6]; rfl
  rw [icmp4Icmp6, if_neg hkept, inside_ok (by omega)]
  simp only [bind, Except.bind, if_pos htype, htype6]
  rw [write_piece headers o1 (o2 ++ o3) echo (hecho.trans h1.symm) (by omega)]
  dsimp only
  have hdata : region src (0 + 20 + 4) ((src.length : ℤ) - (20 : ℕ) - 4) = .ok (src.drop 24) :=
    region_drop (by omega) (by omega)
  have hcopy := memcpy_piece (headers ++ echo ++ o2) o3 [] (i := 0 + 40 + fr + 4)
    (by simp only [List.length_append]; omega) hdata (by rw [List.length_drop, h3])
  simp only [List.append_assoc, List.append_nil] at hcopy
  rw [hcopy]
  exact checksum6_field k headers echo o2 (src.drop 24) 0 (0 + 40 + fr) 2 ((field16 src (0 + 2) : ℤ) - (20 : ℕ))
    nexthdrIcmp (by omega) hecho.symm h2 (by rw [Nat.zero_add, htot, hecho, List.length_drop]; omega)

theorem udp4Udp6_checked (k : Checksums) {src : List UInt8}
    (hcheck : field16 src 6 &&& ipOffset = 0 → 28 ≤ src.length ∧ field16 src 26 ≠ 0) (dst : List UInt8) (fr : ℕ)
    (plen : ℤ) :
    udp4Udp6 k src 0 src.length dst 0 false 20 fr plen = memcpy dst (40 + fr) src 20 ((src.length : ℤ) - 20) := by
  have hend : ∀ r : Run (List UInt8), (r >>= fun dst => if (false : Bool) = true ∧ ¬(false : Bool) = true then
      checksum6 k dst 0 (0 + 40 + fr) 6 (plen - fr) protoUdp else pure dst) = r := by
    intro r
    cases r <;> rfl
  rw [udp4Udp6]
  by_cases hoffset : field16 src 6 &&& ipOffset = 0
  · obtain ⟨hlong, hset⟩ := hcheck hoffset
    have hinside : inside src 26 2 = .ok () := inside_ok hlong
    have hset' : field16 src (0 + 20 + 6) ≠ 0 := hset
    simp only [Nat.zero_add, hoffset, if_true, hinside, if_pos hset']
    exact hend _
  · simp only [Nat.zero_add, if_neg hoffset]
    exact hend _

/-- The packet that `ip4_ip6` makes. -/
theorem ip4Ip6_eq (k : Checksums) {src : List UInt8} (h : Translatable src) {dst : List UInt8}
    (hdst : dst.length = src.length + 20 + (fragments src).length) :
    ∃ body, Body6 src body ∧ ip4Ip6 k false src src.length dst = .ok (header6 src ++ (fragments src ++ body)) := by
  obtain ⟨old, hold, heq⟩ := ip4Ip6_headers k h hdst
  have hheaders : (header6 src ++ fragments src).length = 40 + (fragments src).length := by
    rw [List.length_append, header6_length]
  have hcopy : memcpy (header6 src ++ (fragments src ++ old)) (40 + (fragments src).length) src 20
      ((src.length : ℤ) - 20) = .ok (header6 src ++ (fragments src ++ src.drop 20)) := by
    have hpos := h.pos
    have hc := memcpy_piece (header6 src ++ fragments src) old [] hheaders.symm
      (region_drop (m := src) (i := 20) (n := (src.length : ℤ) - 20) hpos.le rfl) (by rw [List.length_drop, hold])
    simpa only [List.append_assoc, List.append_nil] using hc
  rw [heq]
  dsimp only
  cases h.carries with
  | tcp hproto hlen =>
    refine ⟨src.drop 20, Or.inl ⟨?_, rfl⟩, ?_⟩
    · rw [hproto]
      decide
    · rw [if_neg (by rw [hproto]; decide), if_pos hproto, hcopy]
  | udp hproto hlen hcheck =>
    refine ⟨src.drop 20, Or.inl ⟨?_, rfl⟩, ?_⟩
    · rw [hproto]
      decide
    · rw [if_neg (by rw [hproto]; decide), if_neg (by rw [hproto]; decide), if_pos hproto,
        udp4Udp6_checked k hcheck, hcopy]
  | icmp hproto hoffset hflag hlen htype hcode hverifies =>
    obtain ⟨check, hecho⟩ := icmp4Icmp6_echo k (ip4Ip6Included k false src) h.totLen hoffset hflag hlen htype
      (header6 src ++ fragments src) old hheaders hold (src.length + (fragments src).length - 20)
    refine ⟨_, Or.inr ⟨hproto, check, rfl⟩, ?_⟩
    rw [if_pos hproto]
    simpa only [List.append_assoc] using hecho

/-! ## Back -/

theorem byte_append {front : List UInt8} {i : ℕ} (hi : front.length ≤ i) (m : List UInt8) :
    byte (front ++ m) i = byte m (i - front.length) := by
  rw [byte, byte, List.getD_eq_getElem?_getD, List.getD_eq_getElem?_getD, List.getElem?_append_right hi]

theorem byte_drop (m : List UInt8) (d i : ℕ) : byte (m.drop d) i = byte m (d + i) := by
  rw [byte, byte, List.getD_eq_getElem?_getD, List.getD_eq_getElem?_getD, List.getElem?_drop]

theorem bytes4_congr {m m' : List UInt8} {i i' : ℕ} (h : ∀ j < 4, byte m (i + j) = byte m' (i' + j)) :
    bytes4 m i = bytes4 m' i' := by
  have hfirst := h 0 (by norm_num)
  rw [Nat.add_zero, Nat.add_zero] at hfirst
  rw [bytes4, bytes4, hfirst, h 1 (by norm_num), h 2 (by norm_num), h 3 (by norm_num)]

theorem drop_eq_cons {m : List UInt8} {i : ℕ} (h : i < m.length) : m.drop i = byte m i :: m.drop (i + 1) := by
  rw [List.drop_eq_getElem_cons h, byte, List.getD_eq_getElem?_getD, List.getElem?_eq_getElem h, Option.getD_some]

theorem Body6.length {src body : List UInt8} (h : Translatable src) (hbody : Body6 src body) :
    body.length = src.length - 20 := by
  rcases hbody with ⟨-, rfl⟩ | ⟨hproto, check, rfl⟩
  · exact List.length_drop
  · have hlen : 28 ≤ src.length := by
      cases h.carries with
      | tcp hp _ => rw [hp] at hproto; exact absurd hproto (by decide)
      | udp hp _ _ => rw [hp] at hproto; exact absurd hproto (by decide)
      | icmp _ _ _ hlen => exact hlen
    show (src.drop 24).length + 1 + 1 + 1 + 1 = _
    rw [List.length_drop]
    omega

/-- What is known behind the extension headers. -/
def backExt (src : List UInt8) : Ext where
  lenDelta := src.length - 20
  optsLen := (fragments src).length
  nextHdr := protocolNexthdr (byte src 9)
  id := if field16 src 6 = ipDf then 0 else field16 src 4
  fragOff := if field16 src 6 = ipDf then 0 else field16 src 6

theorem backExt_ends {src : List UInt8} (h : Translatable src) : (backExt src).ends := by
  show protocolNexthdr (byte src 9) ∈ [nexthdrIcmp, protoTcp, protoUdp, nexthdrNone]
  cases h.carries with
  | tcp hproto _ => rw [hproto]; decide
  | udp hproto _ _ => rw [hproto]; decide
  | icmp hproto _ _ _ _ _ _ => rw [hproto]; decide

theorem extLoop_ends (src : List UInt8) (s n : ℕ) {st : Ext} (h : st.ends) : extLoop src s (n + 1) st = .ok st := by
  rw [extLoop, if_pos h]

theorem hopByHop_none (src : List UInt8) (s : ℕ) {st : Ext} (h : st.nextHdr ≠ nexthdrHop) :
    hopByHop src s st = .ok st := if_neg h

theorem header6_nexthdr (src m : List UInt8) : byte (header6 src ++ m) 6 =
    if field16 src 6 = ipDf then protocolNexthdr (byte src 9) else nexthdrFragment := by
  rw [header6_append]
  rfl

/-- The fragment header that was added is passed. -/
theorem extStep_fragment {src : List UInt8} (hfrag : field16 src 6 < ipDf) (body : List UInt8) {len : ℤ}
    (hlen : 8 ≤ len) :
    extStep (header6 src ++ (fragHeader src 0 ++ body)) 0 ⟨len, 0, nexthdrFragment, 0, 0⟩ =
      .ok ⟨len - 8, 8, protocolNexthdr (byte src 9), field16 src 4, field16 src 6⟩ := by
  have hfit : (0 : ℤ) ≤ len - 8 := by omega
  have hinside : inside (header6 src ++ (fragHeader src 0 ++ body)) 40 8 = .ok () := by
    apply inside_ok
    rw [List.length_append, List.length_append, header6_length]
    show 48 ≤ 40 + (8 + _)
    omega
  have hid : field16 (header6 src ++ (fragHeader src 0 ++ body)) 46 = field16 src 4 := by
    rw [header6_append, fragHeader_append]
    exact half_toNat (field16_lt src 4)
  have hoff : field16 (header6 src ++ (fragHeader src 0 ++ body)) 42 = fragOff6 (field16 src 6) := by
    have hlt : fragOff6 (field16 src 6) < 65536 := by
      rw [fragOff6_eq]
      omega
    rw [header6_append, fragHeader_append]
    exact half_toNat hlt
  have hnext : byte (header6 src ++ (fragHeader src 0 ++ body)) 40 = protocolNexthdr (byte src 9) := by
    rw [header6_append, fragHeader_append]
    rfl
  have hdest : nexthdrFragment ≠ nexthdrDest := by decide
  have hrouting : nexthdrFragment ≠ nexthdrRouting := by decide
  rw [extStep, if_neg hdest, if_neg hrouting, if_pos rfl, if_pos hfit]
  simp only [Nat.zero_add, Nat.add_zero, hinside, hid, hoff, hnext, fragOff_back hfrag]
  rfl

/-- The extension headers of the packet are passed. -/
theorem extensions_passed {src body : List UInt8} (h : Translatable src) (hbody : body.length = src.length - 20) :
    let p6 := header6 src ++ (fragments src ++ body)
    ∃ st, hopByHop p6 0 ⟨(p6.length : ℤ) - 40, 0, byte p6 6, 0, 0⟩ = .ok st ∧ 0 < st.lenDelta ∧
      extLoop p6 0 ((p6.length : ℤ).toNat + 1) st = .ok (backExt src) := by
  intro p6
  have hpos := h.pos
  have hends := backExt_ends h
  by_cases hdf : field16 src 6 = ipDf
  · have hst : (⟨((header6 src ++ (fragments src ++ body)).length : ℤ) - 40, 0,
        byte (header6 src ++ (fragments src ++ body)) 6, 0, 0⟩ : Ext) = backExt src := by
      rw [header6_nexthdr, backExt, fragments, List.length_append, List.length_append, header6_length, hbody]
      simp only [hdf, if_true, List.length_nil]
      congr 1
      push_cast
      omega
    have hhop : (backExt src).nextHdr ≠ nexthdrHop := by
      intro hzero
      rw [Ext.ends, hzero] at hends
      exact absurd hends (by decide)
    have hdelta : 0 < (backExt src).lenDelta := by
      show (0 : ℤ) < src.length - 20
      omega
    refine ⟨backExt src, ?_, hdelta, extLoop_ends _ _ _ hends⟩
    rw [hst, hopByHop_none _ _ hhop]
  · have hsome : fragments src = fragHeader src 0 := if_neg hdf
    have hp6 : p6 = header6 src ++ (fragHeader src 0 ++ body) := by rw [← hsome]
    have hlen : ((header6 src ++ (fragHeader src 0 ++ body)).length : ℤ) - 40 = src.length - 20 + 8 := by
      rw [List.length_append, List.length_append, header6_length, hbody]
      show ((40 + (8 + (src.length - 20)) : ℕ) : ℤ) - 40 = _
      omega
    have hfuel : (((header6 src ++ (fragHeader src 0 ++ body)).length : ℤ).toNat + 1) =
        src.length + 27 + 1 + 1 := by omega
    have hback : backExt src = ⟨src.length - 20 + 8 - 8, 8, protocolNexthdr (byte src 9), field16 src 4, field16 src 6⟩ := by
      rw [backExt, hsome, if_neg hdf, if_neg hdf, Int.add_sub_cancel]
      rfl
    have hdelta : (0 : ℤ) < src.length - 20 + 8 := by omega
    have hnot : ¬(⟨src.length - 20 + 8, 0, nexthdrFragment, 0, 0⟩ : Ext).ends := by
      show nexthdrFragment ∉ [nexthdrIcmp, protoTcp, protoUdp, nexthdrNone]
      decide
    have hhop : nexthdrFragment ≠ nexthdrHop := by decide
    refine ⟨⟨src.length - 20 + 8, 0, nexthdrFragment, 0, 0⟩, ?_, hdelta, ?_⟩
    · rw [header6_nexthdr, if_neg hdf, hp6, hlen, hopByHop_none _ _ hhop]
    · rw [hp6, hfuel, extLoop, if_neg hnot, extStep_fragment (h.fragOff.resolve_left hdf) body (by omega)]
      show extLoop _ 0 _ _ = _
      rw [← hback, extLoop_ends _ _ _ hends]

/-- The IPv4 header that comes back. -/
def header4 (k : Checksums) (src body : List UInt8) (protocol : UInt8) : List UInt8 :=
  ip4HeaderChecked k false (header6 src ++ (fragments src ++ body)) 0 (backExt src) src.length protocol

/-- The fields of this header before the checksum. -/
def front4 (src : List UInt8) (protocol : UInt8) : List UInt8 :=
  0x45 :: byte src 1 :: (htons src.length ++ (half (backExt src).id ++ (half (backExt src).fragOff ++
    [byte src 8, protocol])))

/-- The fields behind the checksum. -/
def back4 (src : List UInt8) : List UInt8 := bytes4 src 12 ++ bytes4 src 16

theorem ip4Header_eq (src m : List UInt8) (protocol : UInt8) (check : ℕ) :
    ip4Header false (header6 src ++ m) 0 (backExt src) src.length protocol check =
      front4 src protocol ++ (half check ++ back4 src) := by
  have htos : (byte (header6 src ++ m) 0 &&& 0x0f) <<< 4 ||| byte (header6 src ++ m) 1 >>> 4 = byte src 1 := by
    rw [header6_append]
    exact tos_back (byte src 1)
  have httl : byte (header6 src ++ m) 7 = byte src 8 := by
    rw [header6_append]
    rfl
  have hsaddr : bytes4 (header6 src ++ m) 20 = bytes4 src 12 := by
    rw [header6_append]
    rfl
  have hdaddr : bytes4 (header6 src ++ m) 36 = bytes4 src 16 := by
    rw [header6_append]
    rfl
  rw [ip4Header, front4, back4]
  simp only [Nat.zero_add, htos, httl, hsaddr, hdaddr, Bool.false_eq_true, if_false, List.append_assoc,
    List.cons_append, List.nil_append]

theorem header4_eq (k : Checksums) (src body : List UInt8) (protocol : UInt8) :
    header4 k src body protocol = front4 src protocol ++
      (half (k.ipFastCsum (front4 src protocol ++ (half 0 ++ back4 src))) ++ back4 src) := by
  rw [header4, ip4HeaderChecked, ip4Header_eq, ip4Header_eq]

theorem header4_length (k : Checksums) (src body : List UInt8) (protocol : UInt8) :
    (header4 k src body protocol).length = 20 := by
  rw [header4_eq]
  rfl

theorem header6_payloadLen {src : List UInt8} (h : Translatable src) (m : List UInt8) :
    field16 (header6 src ++ m) 4 = src.length + (fragments src).length - 20 := by
  have hpos := h.pos
  have hshort := h.short
  have hfr : (fragments src).length ≤ 8 := by
    rw [fragments_length]
    split <;> omega
  have hplen : (((src.length : ℤ) + (fragments src).length - 20) % 65536).toNat =
      src.length + (fragments src).length - 20 := by omega
  have hread : field16 (header6 src ++ m) 4 =
      (((src.length : ℤ) + (fragments src).length - 20) % 65536).toNat := by
    rw [header6_append]
    exact half_toNat (by omega)
  rw [hread, hplen]

/-- The header is written, and the rest is left to the protocol. -/
theorem ip6Ip4_headers (k : Checksums) (host : ByteOrder) {src body : List UInt8} (h : Translatable src)
    (hbody : body.length = src.length - 20) (old rest : List UInt8) {gap : List UInt8} (hgap : gap.length = 20) :
    ip6Ip4 k host false (header6 src ++ (fragments src ++ body)) (header6 src ++ (fragments src ++ body)).length
        (gap ++ (old ++ rest)) =
      let p6 := header6 src ++ (fragments src ++ body)
      let dst := header4 k src body (protocolNexthdr (byte src 9)) ++ (old ++ rest)
      if protocolNexthdr (byte src 9) = nexthdrIcmp then
        icmp6Icmp4 k host false (ip6Ip4Included k host false p6) p6 0 dst 0 false (backExt src) src.length
      else (memcpy dst 20 p6 (40 + (fragments src).length) (src.length - 20)).map fun dst => (dst, src.length) := by
  have hpos := h.pos
  have hshort := h.short
  have hlen : (header6 src ++ (fragments src ++ body)).length = 40 + ((fragments src).length + (src.length - 20)) := by
    rw [List.length_append, List.length_append, header6_length, hbody]
  have hlong : ¬((header6 src ++ (fragments src ++ body)).length : ℤ) - 40 < 0 := by omega
  have hinside : inside (header6 src ++ (fragments src ++ body)) 0 40 = .ok () := inside_ok (by omega)
  have hsource : bytes4 (header6 src ++ (fragments src ++ body)) 16 = beBytes translatedPrefix := by
    rw [header6_append]
    rfl
  have hdest : bytes4 (header6 src ++ (fragments src ++ body)) 32 = beBytes mappedPrefix := by
    rw [header6_append]
    rfl
  have hplen := header6_payloadLen h (fragments src ++ body)
  have hnonzero : ¬src.length + (fragments src).length - 20 = 0 := by omega
  have htot : ((src.length + (fragments src).length - 20 : ℕ) : ℤ) + 20 - (fragments src).length = src.length := by omega
  have hdelta4 : (0 : ℤ) < (backExt src).lenDelta := by
    show (0 : ℤ) < src.length - 20
    omega
  have hwrite : write (gap ++ (old ++ rest)) 0 (header4 k src body (protocolNexthdr (byte src 9))) =
      .ok (header4 k src body (protocolNexthdr (byte src 9)) ++ (old ++ rest)) :=
    write_piece [] gap (old ++ rest) _ ((header4_length k src body _).trans hgap.symm) rfl
  obtain ⟨st, hhop, hdelta, hloop⟩ := extensions_passed h hbody
  rw [ip6Ip4, ip6Ip4Body, if_neg hlong]
  simp only [Nat.zero_add, bind, Except.bind, hinside, hsource, hdest, Bool.false_eq_true, if_false, ne_eq,
    not_true_eq_false, hhop, if_pos hdelta, hloop, hplen, hnonzero]
  have hopts : (backExt src).optsLen = (fragments src).length := rfl
  have hnext : (backExt src).nextHdr = protocolNexthdr (byte src 9) := rfl
  rw [hopts, hnext, htot]
  rw [header4] at hwrite
  rw [hwrite, header4]
  dsimp only
  rw [if_pos hdelta4]
  split
  · generalize icmp6Icmp4 _ _ _ _ _ _ _ _ _ _ _ = r
    cases r <;> rfl
  · have hrest : (backExt src).lenDelta = (src.length : ℤ) - 20 := rfl
    have hreal : (20 : ℤ) + (src.length - 20) = src.length := by omega
    rw [hrest, hreal]
    generalize memcpy _ _ _ _ _ = r
    cases r <;> rfl

/-- The header and the checksum of an ICMP message are computed behind the message. -/
theorem icmp4Finish_message (k : Checksums) {src : List UInt8} (hshort : src.length < 65528)
    (body gap first old data rest : List UInt8) (hgap : gap.length = 20) (hfirst : first.length = 2)
    (hold : old.length = 2) (hdata : data.length = src.length - 24) (hlen : 24 ≤ src.length) :
    icmp4Finish k false (header6 src ++ (fragments src ++ body)) 0 0 (backExt src) src.length src.length
        (gap ++ (first ++ (old ++ (data ++ rest)))) =
      .ok (header4 k src body protoIcmp ++
        (first ++ (half (k.ipComputeCsum (first ++ (half 0 ++ data))) ++ (data ++ rest)))) := by
  have hheader : write (gap ++ (first ++ (old ++ (data ++ rest)))) 0 (header4 k src body protoIcmp) =
      .ok (header4 k src body protoIcmp ++ (first ++ (old ++ (data ++ rest)))) :=
    write_piece [] gap _ _ ((header4_length k src body _).trans hgap.symm) rfl
  have hfield : ∀ old : List UInt8, old.length = 2 → ∀ n,
      write (header4 k src body protoIcmp ++ (first ++ (old ++ (data ++ rest)))) 22 (half n) =
        .ok (header4 k src body protoIcmp ++ (first ++ (half n ++ (data ++ rest)))) := by
    intro old hold n
    have h := write_piece (header4 k src body protoIcmp ++ first) old (data ++ rest) (half n) (i := 22) hold.symm
      (by rw [List.length_append, header4_length, hfirst])
    simpa only [List.append_assoc] using h
  have hbody : region (header4 k src body protoIcmp ++ (first ++ (half 0 ++ (data ++ rest)))) 20
      ((src.length : ℤ) % 65536 - 20) = .ok (first ++ (half 0 ++ data)) := by
    have h := region_piece (header4 k src body protoIcmp) (first ++ (half 0 ++ data)) rest (i := 20) rfl
      (n := (src.length : ℤ) % 65536 - 20)
      (by rw [List.length_append, List.length_append, half_length, hfirst, hdata]; omega)
    simpa only [List.append_assoc] using h
  have hnonzero : ¬(src.length : ℤ) = 0 := by omega
  rw [header4] at hheader
  rw [icmp4Finish, hheader]
  simp only [bind, Except.bind, if_neg hnonzero, Nat.zero_add]
  rw [← header4, hfield old hold]
  dsimp only
  rw [hbody]
  dsimp only
  rw [hfield (half 0) rfl]

theorem echo_back {type : UInt8} (htype : type = 8 ∨ type = 0) :
    (echo6 type = 128 ∨ echo6 type = 129) ∧ (if echo6 type = 128 then (8 : UInt8) else 0) = type := by
  rcases htype with rfl | rfl
  · decide
  · decide

theorem icmp6Icmp4_echo (k : Checksums) (host : ByteOrder) (inner : Inner (List UInt8 × ℤ)) {src : List UInt8}
    (hlen : 28 ≤ src.length) (hshort : src.length < 65528) (htype : byte src 20 = 8 ∨ byte src 20 = 0) (check : ℕ)
    {body : List UInt8} (hbody : body = [echo6 (byte src 20), 0] ++ (half check ++ src.drop 24))
    (gap old rest : List UInt8) (hgap : gap.length = 20) (hold : old.length = src.length - 20) :
    icmp6Icmp4 k host false inner (header6 src ++ (fragments src ++ body)) 0 (gap ++ (old ++ rest)) 0 false (backExt src)
        src.length =
      .ok (header4 k src body protoIcmp ++ ([byte src 20, 0] ++
        (half (k.ipComputeCsum ([byte src 20, 0] ++ (half 0 ++ src.drop 24))) ++ (src.drop 24 ++ rest))), src.length) := by
  obtain ⟨o1, o2, o3, o4, rfl, h1, h2, h3, h4⟩ : ∃ o1 o2 o3 o4 : List UInt8, old = o1 ++ (o2 ++ (o3 ++ o4)) ∧
      o1.length = 2 ∧ o2.length = 2 ∧ o3.length = 4 ∧ o4.length = src.length - 28 := by
    refine ⟨old.take 2, (old.drop 2).take 2, ((old.drop 2).drop 2).take 4, ((old.drop 2).drop 2).drop 4, ?_⟩
    simp only [List.take_append_drop, List.length_take, List.length_drop]
    refine ⟨trivial, ?_, ?_, ?_, ?_⟩ <;> omega
  have hheaders : (header6 src ++ fragments src).length = 40 + (fragments src).length := by
    rw [List.length_append, header6_length]
  -- What `ip6_ip4` reads behind the headers.
  have hread : ∀ i, byte (header6 src ++ (fragments src ++ body)) (40 + (fragments src).length + i) = byte body i := by
    intro i
    rw [← List.append_assoc, byte_append (by omega), hheaders, Nat.add_sub_cancel_left]
  have hdata : bytes4 (header6 src ++ (fragments src ++ body)) (40 + (fragments src).length + 4) ++ src.drop 28 =
      src.drop 24 := by
    have hbyte : ∀ i, byte (header6 src ++ (fragments src ++ body)) (40 + (fragments src).length + 4 + i) =
        byte src (24 + i) := by
      intro i
      rw [Nat.add_assoc, hread, hbody, ← byte_drop]
      exact byte_drop src 24 i
    rw [drop_eq_cons (m := src) (i := 24) (by omega), drop_eq_cons (m := src) (i := 25) (by omega),
      drop_eq_cons (m := src) (i := 26) (by omega), drop_eq_cons (m := src) (i := 27) (by omega), ← hbyte 0,
      ← hbyte 1, ← hbyte 2, ← hbyte 3]
    rfl
  have hlen6 : (header6 src ++ (fragments src ++ body)).length = 40 + (fragments src).length + (src.length - 20) := by
    have hbodyLen : body.length = 4 + (src.length - 24) := by
      rw [hbody, List.length_append, List.length_append, List.length_drop, half_length]
      show 2 + (2 + _) = _
      omega
    rw [← List.append_assoc, List.length_append, hheaders, hbodyLen]
    omega
  have hrest : region (header6 src ++ (fragments src ++ body)) (40 + (fragments src).length + 8)
      ((src.length : ℤ) - 20 - 8) = .ok (src.drop 28) := by
    have hdrop : (header6 src ++ (fragments src ++ body)).drop (40 + (fragments src).length + 8) = src.drop 28 := by
      rw [← List.append_assoc, ← hheaders, List.drop_length_add_append, hbody]
      show (src.drop 24).drop 4 = _
      rw [List.drop_drop]
    rw [region_drop (by omega) (by omega), hdrop]
  have hdelta : ¬(backExt src).lenDelta - 8 < 0 := by
    show ¬(src.length : ℤ) - 20 - 8 < 0
    omega
  have hinside : inside (header6 src ++ (fragments src ++ body)) (40 + (fragments src).length) 8 = .ok () :=
    inside_ok (by omega)
  have htype6 : byte (header6 src ++ (fragments src ++ body)) (40 + (fragments src).length) = echo6 (byte src 20) := by
    rw [← Nat.add_zero (40 + (fragments src).length), hread, hbody]
    rfl
  obtain ⟨hecho, hback⟩ := echo_back htype
  rw [icmp6Icmp4, if_neg hdelta]
  have hopts : (backExt src).optsLen = (fragments src).length := rfl
  have hbackDelta : (backExt src).lenDelta = (src.length : ℤ) - 20 := rfl
  simp only [Nat.zero_add, hopts, hbackDelta, hinside, htype6, bind, Except.bind, Bool.false_eq_true, false_and, if_false,
    if_pos hecho, hback]
  -- The message is written in three pieces; the last one may be empty.
  generalize hmid : bytes4 (header6 src ++ (fragments src ++ body)) (40 + (fragments src).length + 4) = mid at hdata ⊢
  have hmidLen : mid.length = 4 := by rw [← hmid]; rfl
  have hfirst : write (gap ++ (o1 ++ (o2 ++ (o3 ++ o4)) ++ rest)) 20 [byte src 20, 0] =
      .ok (gap ++ ([byte src 20, 0] ++ (o2 ++ (o3 ++ (o4 ++ rest))))) := by
    simp only [List.append_assoc]
    exact write_piece gap o1 _ [byte src 20, 0] h1.symm hgap.symm
  have hsecond : write (gap ++ ([byte src 20, 0] ++ (o2 ++ (o3 ++ (o4 ++ rest))))) (20 + 4) mid =
      .ok (gap ++ ([byte src 20, 0] ++ (o2 ++ (mid ++ (o4 ++ rest))))) := by
    have h := write_piece (gap ++ [byte src 20, 0] ++ o2) o3 (o4 ++ rest) mid (i := 20 + 4) (hmidLen.trans h3.symm)
      (by rw [List.length_append, List.length_append, hgap, h2]; rfl)
    simpa only [List.append_assoc] using h
  have hthird : memcpy (gap ++ ([byte src 20, 0] ++ (o2 ++ (mid ++ (o4 ++ rest))))) (20 + 8)
      (header6 src ++ (fragments src ++ body)) (40 + (fragments src).length + 8) ((src.length : ℤ) - 20 - 8) =
      .ok (gap ++ ([byte src 20, 0] ++ (o2 ++ (mid ++ (src.drop 28 ++ rest))))) := by
    have h := memcpy_piece (gap ++ [byte src 20, 0] ++ o2 ++ mid) o4 rest (i := 20 + 8)
      (by simp only [List.length_append, hgap, h2, hmidLen]; rfl) hrest (by rw [List.length_drop, h4])
    simpa only [List.append_assoc] using h
  have hempty : ¬(0 : ℤ) < (src.length : ℤ) - 20 - 8 → o4 = src.drop 28 := by
    intro hnot
    rw [List.length_eq_zero_iff.mp (by omega : o4.length = 0), List.drop_eq_nil_of_le (by omega)]
  have hfinish := icmp4Finish_message k hshort body gap [byte src 20, 0] o2 (src.drop 24) rest hgap rfl h2
    List.length_drop (by omega)
  have hreal : (20 : ℤ) + ((src.length : ℤ) - 20 - 8 + 8) = src.length := by omega
  rw [← hdata, List.append_assoc] at hfinish
  rw [hfirst]
  dsimp only
  rw [hsecond, hreal, ← hdata]
  dsimp only
  split
  · rw [hthird]
    dsimp only
    rw [hfinish, List.append_assoc]
    rfl
  · rename_i hnot
    rw [hempty hnot]
    dsimp only [pure, Except.pure]
    rw [hfinish, List.append_assoc]

/-! ## There and back -/

/-- The kernel's functions compute the internet checksum. -/
structure Checksums.Lawful (k : Checksums) : Prop where
  fast : ∀ bs, k.ipFastCsum bs = checksum bs
  compute : ∀ bs, k.ipComputeCsum bs = checksum bs

/-- An ICMP message whose checksum has all bits set, and whose other words are not all zero. -/
def AllOnes (src : List UInt8) : Prop :=
  byte src 9 = protoIcmp ∧ field16 src 22 = 65535 ∧ others [byte src 20, byte src 21] (src.drop 24) ≠ 0

instance AllOnes.decidable (src : List UInt8) : Decidable (AllOnes src) := inferInstanceAs (Decidable (_ ∧ _))

/-- The payload that comes back: zero has two checksums, and the computed one is zero. -/
def payloadBack (src : List UInt8) : List UInt8 :=
  if AllOnes src then [byte src 20, byte src 21] ++ (half 0 ++ src.drop 24) else src.drop 20

theorem payloadBack_icmp {src : List UInt8} (hproto : byte src 9 = protoIcmp) (hlen : 28 ≤ src.length)
    (hverifies : Verifies (src.drop 20)) :
    [byte src 20, byte src 21] ++ (half (checksum ([byte src 20, byte src 21] ++ (half 0 ++ src.drop 24))) ++ src.drop 24) =
      payloadBack src := by
  have hsplit : src.drop 20 = [byte src 20, byte src 21] ++ (half (field16 src 22) ++ src.drop 24) := by
    rw [half_field16, drop_eq_cons (m := src) (i := 20) (by omega), drop_eq_cons (m := src) (i := 21) (by omega),
      drop_eq_cons (m := src) (i := 22) (by omega), drop_eq_cons (m := src) (i := 23) (by omega)]
    rfl
  have hfront : 2 ∣ [byte src 20, byte src 21].length := dvd_refl 2
  rw [hsplit] at hverifies
  rw [checksum_of_verifies hfront _ (field16_lt src 22) hverifies, payloadBack, hsplit]
  by_cases hones : field16 src 22 = 65535 ∧ others [byte src 20, byte src 21] (src.drop 24) ≠ 0
  · rw [if_pos hones, if_pos ⟨hproto, hones⟩]
  · rw [if_neg hones, if_neg fun h => hones h.2]

/-- The packet that comes back. -/
theorem ip6Ip4_eq {k : Checksums} (hk : k.Lawful) (host : ByteOrder) {src body : List UInt8} (h : Translatable src)
    (hbody : Body6 src body) {dst : List UInt8} (hdst : src.length ≤ dst.length) :
    ∃ rest, ip6Ip4 k host false (header6 src ++ (fragments src ++ body)) (header6 src ++ (fragments src ++ body)).length
      dst = .ok (header4 k src body (byte src 9) ++ (payloadBack src ++ rest), src.length) := by
  have hpos := h.pos
  have hlen := hbody.length h
  obtain ⟨gap, old, rest, rfl, hgap, hold⟩ : ∃ gap old rest : List UInt8, dst = gap ++ (old ++ rest) ∧
      gap.length = 20 ∧ old.length = src.length - 20 := by
    refine ⟨dst.take 20, (dst.drop 20).take (src.length - 20), (dst.drop 20).drop (src.length - 20), ?_⟩
    simp only [List.take_append_drop, List.length_take, List.length_drop]
    refine ⟨trivial, ?_, ?_⟩ <;> omega
  refine ⟨rest, ?_⟩
  rw [ip6Ip4_headers k host h hlen old rest hgap]
  dsimp only
  rcases hbody with ⟨hproto, hsame⟩ | ⟨hproto, check, hecho⟩
  · have hnext : protocolNexthdr (byte src 9) = byte src 9 := if_neg hproto
    have hnot : byte src 9 ≠ nexthdrIcmp := by
      cases h.carries with
      | tcp hp _ => rw [hp]; decide
      | udp hp _ _ => rw [hp]; decide
      | icmp hp _ _ _ _ _ _ => exact absurd hp hproto
    have hkeep : payloadBack src = body := by rw [payloadBack, if_neg fun hones => hproto hones.1, hsame]
    have hheaders : (header6 src ++ fragments src).length = 40 + (fragments src).length := by
      rw [List.length_append, header6_length]
    have hread : region (header6 src ++ (fragments src ++ body)) (40 + (fragments src).length) ((src.length : ℤ) - 20) =
        .ok body := by
      have hr := region_piece (header6 src ++ fragments src) body [] hheaders.symm (n := (src.length : ℤ) - 20)
        (by omega)
      simpa only [List.append_assoc, List.append_nil] using hr
    have hcopy := memcpy_piece (header4 k src body (byte src 9)) old rest (i := 20) rfl hread (hlen.trans hold.symm)
    rw [hnext, if_neg hnot, hcopy, hkeep]
    rfl
  · have hnext : protocolNexthdr (byte src 9) = nexthdrIcmp := if_pos hproto
    cases h.carries with
    | tcp hp _ => rw [hp] at hproto; exact absurd hproto (by decide)
    | udp hp _ _ => rw [hp] at hproto; exact absurd hproto (by decide)
    | icmp _ _ _ hlong htype hcode hverifies =>
      rw [if_pos hnext, icmp6Icmp4_echo k host _ hlong h.short htype check hecho _ old rest (header4_length k src body _)
        hold, hk.compute, hproto, ← payloadBack_icmp hproto hlong hverifies, hcode]
      simp only [List.append_assoc]

/-- What comes back is the same packet; `DF` and its identification are lost. -/
structure Returned (src p : List UInt8) : Prop where
  length : p.length = src.length
  version : byte p 0 = 0x45
  tos : byte p 1 = byte src 1
  totLen : field16 p 2 = src.length
  id : field16 p 4 = if field16 src 6 = ipDf then 0 else field16 src 4
  fragOff : field16 p 6 = if field16 src 6 = ipDf then 0 else field16 src 6
  ttl : byte p 8 = byte src 8
  protocol : byte p 9 = byte src 9
  saddr : bytes4 p 12 = bytes4 src 12
  daddr : bytes4 p 16 = bytes4 src 16
  check : Verifies (p.take 20)
  payload : p.drop 20 = payloadBack src

theorem payloadBack_length {src : List UInt8} (h : Translatable src) : (payloadBack src).length = src.length - 20 := by
  rw [payloadBack]
  split
  · rename_i hones
    cases h.carries with
    | tcp hp _ => exact absurd (hp.symm.trans hones.1) (by decide)
    | udp hp _ _ => exact absurd (hp.symm.trans hones.1) (by decide)
    | icmp _ _ _ hlen _ _ _ =>
      rw [List.length_append, List.length_append, List.length_drop, half_length]
      show 2 + (2 + _) = _
      omega
  · exact List.length_drop

theorem returned_header4 {k : Checksums} (hk : k.Lawful) {src : List UInt8} (h : Translatable src) (body : List UInt8) :
    Returned src (header4 k src body (byte src 9) ++ payloadBack src) := by
  have hshort := h.short
  have hpos := h.pos
  have hid : (backExt src).id < 65536 := by
    show (if _ then _ else _) < _
    split
    · norm_num
    · exact field16_lt src 4
  have hoff : (backExt src).fragOff < 65536 := by
    show (if _ then _ else _) < _
    split
    · norm_num
    · exact field16_lt src 6
  have hlen : ((src.length : ℤ) % 65536).toNat = src.length := by omega
  have hlt : ((src.length : ℤ) % 65536).toNat < 65536 := by omega
  have htotal : (header4 k src body (byte src 9) ++ payloadBack src).length = src.length := by
    rw [List.length_append, header4_length, payloadBack_length h]
    omega
  have hheader : (header4 k src body (byte src 9) ++ payloadBack src).take 20 = header4 k src body (byte src 9) :=
    List.take_left' (header4_length k src body (byte src 9))
  have hpayload : (header4 k src body (byte src 9) ++ payloadBack src).drop 20 = payloadBack src :=
    List.drop_left' (header4_length k src body (byte src 9))
  have hverifies : Verifies (header4 k src body (byte src 9)) := by
    rw [header4_eq, hk.fast]
    exact checksum_verifies (Dvd.intro 5 rfl) (back4 src)
  refine ⟨htotal, ?_, ?_, ?_, ?_, ?_, ?_, ?_, ?_, ?_, by rwa [hheader], hpayload⟩
  all_goals rw [header4_eq]
  · rfl
  · rfl
  · exact (half_toNat hlt).trans hlen
  · exact half_toNat hid
  · exact half_toNat hoff
  · rfl
  · rfl
  · rfl
  · rfl

theorem skbDelta_eq {src : List UInt8} (h : Translatable src) : skbDelta src = 20 + (fragments src).length := by
  have hihl : 4 * (byte src 0 &&& 0x0f).toNat = 20 := by rw [h.ihl]; rfl
  have hnot : ¬(byte src 9 = protoIcmp ∧ byte src 20 ≠ 8 ∧ byte src 20 ≠ 0) := by
    rintro ⟨hproto, h8, h0⟩
    cases h.carries with
    | tcp hp _ => exact absurd (hp.symm.trans hproto) (by decide)
    | udp hp _ _ => exact absurd (hp.symm.trans hproto) (by decide)
    | icmp _ _ _ _ htype _ _ => exact htype.elim h8 h0
  rw [skbDelta, hihl, fragments_length]
  simp only [if_neg hnot]
  split <;> rfl

theorem siit_round_trip (k : Checksums) (hk : k.Lawful) (host : ByteOrder) (src : List UInt8) (h : Translatable src)
    (dst6 dst4 : List UInt8) (hdst6 : dst6.length = src.length + skbDelta src) (hdst4 : src.length ≤ dst4.length) :
    ∃ p6 out, ip4Ip6 k false src src.length dst6 = .ok p6 ∧ p6.length = dst6.length ∧
      ip6Ip4 k host false p6 p6.length dst4 = .ok (out, src.length) ∧ Returned src (out.take src.length) := by
  rw [skbDelta_eq h, ← Nat.add_assoc] at hdst6
  obtain ⟨body, hbody, hthere⟩ := ip4Ip6_eq k h hdst6
  obtain ⟨rest, hback⟩ := ip6Ip4_eq hk host h hbody hdst4
  have hreturned := returned_header4 hk h body
  have hlen := hbody.length h
  have hpos := h.pos
  refine ⟨_, _, hthere, ?_, hback, ?_⟩
  · rw [List.length_append, List.length_append, header6_length, hlen]
    omega
  · rw [← List.append_assoc, List.take_left' hreturned.length]
    exact hreturned

/-- The checksum functions as the kernel has them. -/
def kernelChecksums : Checksums where
  csumPartial bs sum := onesAdd sum (onesSum bs)
  csumIpv6Magic saddr daddr len proto sum :=
    65535 - onesAdd (onesSum (saddr ++ daddr ++ beBytes len.toNat ++ [0, 0, 0, proto])) sum
  ipFastCsum := checksum
  ipComputeCsum := checksum

/-- An echo request with a given checksum and identifier, and `DF` set. -/
def echoRequest (check id : ℕ) : List UInt8 :=
  [0x45, 0, 0, 28, 0, 0, 0x40, 0, 64, 1, 0, 0, 10, 0, 0, 1, 10, 0, 0, 2, 8, 0] ++ half check ++ half id ++ half 1

theorem siit_round_trip_echo :
    ∃ p6 out, ip4Ip6 kernelChecksums false (echoRequest 0xf7fe 0) 28 (List.replicate 48 0) = .ok p6 ∧
      p6.length = 48 ∧ ip6Ip4 kernelChecksums .big false p6 p6.length (List.replicate 2048 0) = .ok (out, 28) ∧
      Returned (echoRequest 0xf7fe 0) (out.take 28) :=
  siit_round_trip kernelChecksums ⟨fun _ => rfl, fun _ => rfl⟩ .big (echoRequest 0xf7fe 0)
    ⟨by decide, by decide, by decide, by decide, .icmp (by decide) (by decide) (by decide) (by decide) (by decide)
      (by decide) (by decide)⟩ (List.replicate 48 0) (List.replicate 2048 0) (by decide) (by decide +kernel)

/-- With the identifier `f7fe` the checksum may be `ffff`; the packet comes back with the checksum `0000`. -/
theorem siit_checksum_changes :
    Translatable (echoRequest 0xffff 0xf7fe) ∧
      ∃ p6 out, ip4Ip6 kernelChecksums false (echoRequest 0xffff 0xf7fe) 28 (List.replicate 48 0) = .ok p6 ∧
        ip6Ip4 kernelChecksums .big false p6 p6.length (List.replicate 28 0) = .ok (out, 28) ∧
        out.drop 20 ≠ (echoRequest 0xffff 0xf7fe).drop 20 := by
  have h : Translatable (echoRequest 0xffff 0xf7fe) :=
    ⟨by decide, by decide, by decide, by decide, .icmp (by decide) (by decide) (by decide) (by decide) (by decide)
      (by decide) (by decide)⟩
  have hlawful : kernelChecksums.Lawful := ⟨fun _ => rfl, fun _ => rfl⟩
  have hdst6 : (List.replicate 48 (0 : UInt8)).length =
      (echoRequest 0xffff 0xf7fe).length + 20 + (fragments (echoRequest 0xffff 0xf7fe)).length := by decide
  have hdst4 : (echoRequest 0xffff 0xf7fe).length ≤ (List.replicate 28 (0 : UInt8)).length := by decide
  obtain ⟨body, hbody, hthere⟩ := ip4Ip6_eq kernelChecksums h hdst6
  obtain ⟨rest, hback⟩ := ip6Ip4_eq hlawful .big h hbody hdst4
  refine ⟨h, _, _, hthere, hback, ?_⟩
  have hpayload : payloadBack (echoRequest 0xffff 0xf7fe) = [8, 0, 0, 0, 0xf7, 0xfe, 0, 1] := by decide
  rw [List.drop_left' (header4_length _ _ _ _), hpayload]
  intro heq
  have hbyte : (0 : UInt8) = 0xff := congrArg (fun m => byte m 2) heq
  exact absurd hbyte (by decide)

end Neufbox.Siit
