import Neufbox.Siit.BoundsBack
import Neufbox.Siit.ErrorLength

/-! # What `ip6_ip4` writes

The lengths that a translated packet has in its header, in its checksums and as the result of the call: they are one
number, along any chain of extension headers, and with a quoted packet in it. -/
namespace Neufbox.Siit
open Blocks Guarded ByteStore OnesComplement
set_option autoImplicit false
set_option maxHeartbeats 250000
set_option maxRecDepth 120000

/-! ## Cells that are kept -/

theorem write_eq {m m' bs : List UInt8} {i : ℕ} (h : write m i bs = .ok m') :
    i + bs.length ≤ m.length ∧ m' = overlay m i bs := by
  rw [write] at h
  split at h
  · next hfit => exact ⟨hfit, (Except.ok.inj h).symm⟩
  · cases h

theorem region_eq {m bs : List UInt8} {i : ℕ} {n : ℤ} (h : region m i n = .ok bs) :
    0 ≤ n ∧ i + n.toNat ≤ m.length ∧ bs = (m.drop i).take n.toNat := by
  rw [region] at h
  split at h
  · cases h
  · next hpos =>
    split at h
    · next hfit => exact ⟨by omega, hfit, (Except.ok.inj h).symm⟩
    · cases h

/-- Everything in front of a cell is as it was. -/
def KeptBelow (d : ℕ) (m m' : List UInt8) : Prop := ∀ j < d, byte m' j = byte m j

section Kept
variable {d : ℕ} {m m' m'' : List UInt8}

theorem KeptBelow.refl (d : ℕ) (m : List UInt8) : KeptBelow d m m := fun _ _ => rfl

theorem KeptBelow.trans (h : KeptBelow d m m') (h' : KeptBelow d m' m'') : KeptBelow d m m'' :=
  fun j hj => (h' j hj).trans (h j hj)

theorem write_keeps {i : ℕ} (bs : List UInt8) (hi : d ≤ i) : Gives (write m i bs) (KeptBelow d m) := by
  intro m' h j hj
  obtain ⟨hfit, rfl⟩ := write_eq h
  exact byte_overlay hfit (.inl (hj.trans_le hi))

theorem memcpy_keeps {src : List UInt8} {i s : ℕ} {n : ℤ} (hi : d ≤ i) :
    Gives (memcpy m i src s n) (KeptBelow d m) := by
  intro m' h
  obtain ⟨bs, -, h⟩ := ok_of_bind h
  exact write_keeps bs hi m' h

end Kept

/-! ## The end of an ICMP message -/

theorem header_slice (k : Checksums) (tosIgnoreFlag : Bool) (src : List UInt8) (s : ℕ) (st : Ext) (tot : ℤ)
    (protocol : UInt8) {m : List UInt8} {d : ℕ} (h : d ≤ m.length) :
    ((overlay m d (ip4HeaderChecked k tosIgnoreFlag src s st tot protocol)).drop d).take 20 =
      ip4HeaderChecked k tosIgnoreFlag src s st tot protocol :=
  overlay_slice (ip4HeaderChecked k tosIgnoreFlag src s st tot protocol) h

section Finish
variable {k : Checksums} {tosIgnoreFlag : Bool} {src : List UInt8} {s d : ℕ} {st : Ext} {ntot tot : ℤ}
  {m m' : List UInt8}

/-- The header stands in front of the message, and the checksum goes over the message. -/
structure Finished (k : Checksums) (tosIgnoreFlag : Bool) (src : List UInt8) (s d : ℕ) (st : Ext) (ntot tot : ℤ)
    (m m' : List UInt8) : Prop where
  length : m'.length = m.length
  header : (m'.drop d).take 20 = ip4HeaderChecked k tosIgnoreFlag src s st tot protoIcmp
  same : ∀ j, j < d ∨ d + 24 ≤ j → byte m' j = byte m j
  sum : k.Lawful → ntot ≠ 0 → 24 ≤ tot % 65536 → Verifies ((m'.drop (d + 20)).take (tot % 65536 - 20).toNat)

theorem icmp4Finish_finished (h : icmp4Finish k tosIgnoreFlag src s d st ntot tot m = .ok m') :
    Finished k tosIgnoreFlag src s d st ntot tot m m' := by
  obtain ⟨m₁, h₁, h⟩ := ok_of_bind h
  obtain ⟨hfit, rfl⟩ := write_eq h₁
  have hhead : d ≤ m.length := by omega
  have hlen : (overlay m d (ip4HeaderChecked k tosIgnoreFlag src s st tot protoIcmp)).length = m.length := overlay_length hfit
  have hslice := header_slice k tosIgnoreFlag src s st tot protoIcmp hhead
  have hkeep : ∀ j, j < d ∨ d + 20 ≤ j →
      byte (overlay m d (ip4HeaderChecked k tosIgnoreFlag src s st tot protoIcmp)) j = byte m j := by
    intro j hj
    exact byte_overlay hfit hj
  generalize overlay m d (ip4HeaderChecked k tosIgnoreFlag src s st tot protoIcmp) = m₁ at *
  by_cases hzero : ntot = 0
  · rw [if_pos hzero] at h
    cases h
    exact ⟨hlen, hslice, fun j hj => hkeep j (by omega), fun _ hne => absurd hzero hne⟩
  · rw [if_neg hzero] at h
    obtain ⟨m₂, h₂, h⟩ := ok_of_bind h
    obtain ⟨body, hbody, h⟩ := ok_of_bind h
    obtain ⟨hroom, rfl⟩ := write_eq h₂
    obtain ⟨hpos, hin, rfl⟩ := region_eq hbody
    obtain ⟨-, rfl⟩ := write_eq h
    have hlen₂ : ∀ n, (overlay m₁ (d + 22) (half n)).length = m₁.length := fun n => overlay_length hroom
    have hagain : ∀ n, overlay (overlay m₁ (d + 22) (half 0)) (d + 22) (half n) = overlay m₁ (d + 22) (half n) :=
      fun n => overlay_again hroom rfl
    rw [hlen₂] at hin
    rw [half_length] at hroom
    rw [hagain]
    refine ⟨(hlen₂ _).trans hlen, ?_, fun j hj => ?_, fun hk _ hlong => ?_⟩
    · rw [overlay_before (by omega) (by omega), hslice]
    · rw [byte_overlay hroom (by rw [half_length]; omega), hkeep j (by omega)]
    · have hpart : ∀ n, ((overlay m₁ (d + 20 + 2) (half n)).drop (d + 20)).take (tot % 65536 - 20).toNat =
          (m₁.drop (d + 20)).take 2 ++ (half n ++ (m₁.drop (d + 20 + 2 + 2)).take ((tot % 65536 - 20).toNat - 2 - 2)) :=
        fun n => overlay_part hroom (by rw [half_length]; omega)
      have hfront : 2 ∣ ((m₁.drop (d + 20)).take 2).length := by
        rw [List.length_take, List.length_drop, Nat.min_eq_left (by omega)]
      rw [hk.compute, hpart, hpart]
      exact checksum_verifies hfront _

end Finish

/-! ## A message -/

section Message
variable (k : Checksums) (host : ByteOrder) (tosIgnoreFlag : Bool) (inner : Inner (List UInt8 × ℤ)) (src : List UInt8)
  (s d : ℕ) (st : Ext) (ntot : ℤ)

/-- The data behind the header of a message. -/
def dataRun (m : List UInt8) : Run (List UInt8) :=
  if 0 < st.lenDelta - 8 then memcpy m (d + 20 + 8) src (s + 40 + st.optsLen + 8) (st.lenDelta - 8) else pure m

/-- What is done for an error behind the fields of its header. -/
def quotedRun (m : List UInt8) : Run (List UInt8 × ℤ) :=
  let icmp6 := s + 40 + st.optsLen
  let lenDelta := st.lenDelta - 8
  let realLen := 20 + (lenDelta + 8)
  if 40 ≤ lenDelta then do
    let (m, incOptsLen) ← inner (icmp6 + 8) lenDelta m (d + 20 + 8)
    let totLen := if ntot ≠ 0 then ntot - incOptsLen - 20 else ntot
    return (← icmp4Finish k tosIgnoreFlag src s d st ntot totLen m, realLen - incOptsLen - 20)
  else do
    let m ← dataRun src s d st m
    return (← icmp4Finish k tosIgnoreFlag src s d st ntot ntot m, realLen)

/-- What is done for an echo. -/
def echoRun (m : List UInt8) : Run (List UInt8 × ℤ) := do
  let icmp6 := s + 40 + st.optsLen
  let icmp := d + 20
  let m ← write m icmp [if byte src icmp6 = 128 then 8 else 0, 0]
  let m ← write m (icmp + 4) (bytes4 src (icmp6 + 4))
  let m ← dataRun src s d st m
  return (← icmp4Finish k tosIgnoreFlag src s d st ntot ntot m, 20 + (st.lenDelta - 8 + 8))

variable {k tosIgnoreFlag inner src s d st ntot} {includeFlag : Bool} {dst : List UInt8}

/-- A message that is translated has its eight bytes, and is an echo or an error. -/
theorem icmp6Icmp4_cases {r : List UInt8 × ℤ}
    (h : icmp6Icmp4 k host tosIgnoreFlag inner src s dst d includeFlag st ntot = .ok r) :
    8 ≤ st.lenDelta ∧ (includeFlag = true → byte src (s + 40 + st.optsLen) = 128) ∧
      (Echo6 src (s + 40 + st.optsLen) ∧ echoRun k tosIgnoreFlag src s d st ntot dst = .ok r ∨
        ¬ Echo6 src (s + 40 + st.optsLen) ∧ ∃ fields m, icmp4Error host src (s + 40 + st.optsLen) = .ok fields ∧
          writeFields dst (d + 20) fields = .ok m ∧ quotedRun k tosIgnoreFlag inner src s d st ntot m = .ok r) := by
  unfold icmp6Icmp4 at h
  dsimp only at h
  split at h
  · cases h
  next hlong =>
  obtain ⟨_, -, h⟩ := ok_of_bind h
  split at h
  · cases h
  next hkept =>
  refine ⟨by omega, fun hinc => not_not.mp fun hne => hkept ⟨hinc, hne⟩, ?_⟩
  split at h
  · next hecho =>
    refine .inl ⟨hecho, ?_⟩
    simp only [echoRun, dataRun, ite_bind]
    exact h
  · next hecho =>
    obtain ⟨fields, hfields, h⟩ := ok_of_bind h
    obtain ⟨m, hm, h⟩ := ok_of_bind h
    refine .inr ⟨hecho, fields, m, hfields, hm, ?_⟩
    simp only [quotedRun, dataRun, ite_bind]
    exact h

/-- The length of the result and the one in the header change alike. -/
def Ends (k : Checksums) (tosIgnoreFlag : Bool) (src : List UInt8) (s d : ℕ) (st : Ext) (ntot : ℤ) (b : ℕ)
    (m : List UInt8) (r : List UInt8 × ℤ) : Prop :=
  ∃ m' tot, icmp4Finish k tosIgnoreFlag src s d st ntot tot m' = .ok r.1 ∧ KeptBelow b m m' ∧
    (ntot ≠ 0 → r.2 - tot = 20 + st.lenDelta - ntot)

theorem dataRun_keeps (m : List UInt8) : Gives (dataRun src s d st m) (KeptBelow (d + 28) m) := by
  unfold dataRun
  split
  · exact memcpy_keeps (by omega)
  · exact gives_ok (KeptBelow.refl _ m)

theorem echoRun_ends (m : List UInt8) : Gives (echoRun k tosIgnoreFlag src s d st ntot m) fun r =>
    Ends k tosIgnoreFlag src s d st ntot (d + 20) m r ∧ r.2 = 20 + st.lenDelta := by
  intro r h
  obtain ⟨m₁, h₁, h⟩ := ok_of_bind h
  obtain ⟨m₂, h₂, h⟩ := ok_of_bind h
  obtain ⟨m₃, h₃, h⟩ := ok_of_bind h
  obtain ⟨m₄, h₄, h⟩ := ok_of_bind h
  cases h
  have hkeep : KeptBelow (d + 20) m m₃ := ((write_keeps _ le_rfl m₁ h₁).trans (write_keeps _ (by omega) m₂ h₂)).trans
    fun j hj => dataRun_keeps m₂ m₃ h₃ j (by omega)
  exact ⟨⟨m₃, ntot, h₄, hkeep, fun _ => by dsimp only; omega⟩, by dsimp only; omega⟩

/-- What a call for a quoted packet leaves alone, and the options that it finds. -/
abbrev InnerKeeps (inner : Inner (List UInt8 × ℤ)) (src : List UInt8) (i d : ℕ) : Prop :=
  i + 40 ≤ src.length → ∀ m, Gives (inner i (src.length - i) m d) fun r =>
    KeptBelow d m r.1 ∧ i + 40 + r.2 ≤ src.length

theorem quotedRun_ends (hst : st.Sound src s) (h8 : 8 ≤ st.lenDelta)
    (hinner : InnerKeeps inner src (s + 40 + st.optsLen + 8) (d + 20 + 8)) (m : List UInt8) :
    Gives (quotedRun k tosIgnoreFlag inner src s d st ntot m) fun r =>
      Ends k tosIgnoreFlag src s d st ntot (d + 28) m r ∧ 28 ≤ r.2 := by
  intro r h
  have hleft := hst.left
  unfold quotedRun at h
  dsimp only at h
  split at h
  · next hquote =>
    have hrest : st.lenDelta - 8 = src.length - (s + 40 + st.optsLen + 8 : ℕ) := by omega
    rw [hrest] at h
    obtain ⟨⟨m₁, incOptsLen⟩, h₁, h⟩ := ok_of_bind h
    obtain ⟨m₂, h₂, h⟩ := ok_of_bind h
    obtain ⟨hkeep, hopts⟩ := hinner (by omega) m _ h₁
    cases h
    dsimp only at hopts
    refine ⟨⟨m₁, _, h₂, hkeep, fun hne => ?_⟩, by dsimp only; omega⟩
    rw [if_pos hne]
    dsimp only
    omega
  · obtain ⟨m₁, h₁, h⟩ := ok_of_bind h
    obtain ⟨m₂, h₂, h⟩ := ok_of_bind h
    cases h
    exact ⟨⟨m₁, ntot, h₂, dataRun_keeps m m₁ h₁, fun _ => by dsimp only; omega⟩, by dsimp only; omega⟩

end Message

/-! ## The packet -/

section Packet
variable {k : Checksums} {host : ByteOrder} {tosIgnoreFlag : Bool} {inner : Inner (List UInt8 × ℤ)} {src : List UInt8}
  {s d : ℕ} {includeFlag : Bool} {dst : List UInt8}

/-- A packet that is translated: its headers are passed, the header of IPv4 is written, and what follows is done. -/
theorem ip6Ip4Body_cases (hlong : s + 40 ≤ src.length) {r : List UInt8 × ℤ}
    (h : ip6Ip4Body k host tosIgnoreFlag inner src s (src.length - s) dst d includeFlag = .ok r) :
    Addressed src s includeFlag ∧ ∃ st m q, st.Sound src s ∧ Behind src s (st.place s) ∧
      write dst d (ip4HeaderChecked k tosIgnoreFlag src s st (ntotLen src s (s + 40 + st.optsLen)) st.nextHdr) = .ok m ∧
      payloadRun inner k host tosIgnoreFlag src s m d includeFlag st = .ok q ∧
      r = (q.1, if includeFlag then (st.optsLen : ℤ) else q.2) := by
  by_cases haddr : Addressed src s includeFlag
  · refine ⟨haddr, ?_⟩
    rw [ip6Ip4Body_eq k host tosIgnoreFlag inner rfl hlong haddr] at h
    obtain ⟨hheaders, hstuck⟩ := headers_spec (rfl : ((src.length : ℤ) - s) = src.length - s) hlong
    obtain ⟨st, hst, h⟩ := ok_of_bind h
    obtain ⟨m, hm, h⟩ := ok_of_bind h
    obtain ⟨q, hq, h⟩ := ok_of_bind h
    have hfit : HeadersFit src s := by
      by_contra hnot
      have hbad := hstuck hnot
      rw [hst] at hbad
      exact hbad (safe_ok st)
    rcases hheaders hfit with ⟨st', hst', hsound, hbehind⟩ | ⟨hdrop, -⟩
    · obtain rfl : st = st' := Except.ok.inj (hst.symm.trans hst')
      exact ⟨st, m, q, hsound, hbehind, hm, hq, (Except.ok.inj h).symm⟩
    · rw [hst] at hdrop
      cases hdrop
  · rw [ip6Ip4Body_dropped k host tosIgnoreFlag inner haddr rfl hlong] at h
    cases h

/-- The packet in an error does not touch what is in front of it. -/
theorem ip6Ip4Included_keeps (k : Checksums) (host : ByteOrder) (tosIgnoreFlag : Bool) (src : List UInt8) (i d : ℕ) :
    InnerKeeps (ip6Ip4Included k host tosIgnoreFlag src) src i d := by
  intro hlong m r h
  obtain ⟨-, st, m₁, q, hst, -, h₁, hq, rfl⟩ := ip6Ip4Body_cases hlong h
  have hin := hst.inside
  refine ⟨(write_keeps _ le_rfl m₁ h₁).trans ?_, by simp only [if_true]; omega⟩
  unfold payloadRun at hq
  split at hq
  · split at hq
    · obtain ⟨-, htype, ⟨-, hecho⟩ | ⟨hecho, -⟩⟩ := icmp6Icmp4_cases host hq
      · obtain ⟨⟨m₂, tot, hfinish, hkeep, -⟩, -⟩ := echoRun_ends m₁ q hecho
        intro j hj
        exact ((icmp4Finish_finished hfinish).same j (.inl hj)).trans (hkeep j (by omega))
      · exact absurd (.inl (htype rfl)) hecho
    · obtain ⟨m₂, h₂, hq⟩ := ok_of_bind hq
      cases hq
      exact memcpy_keeps (by omega) m₂ h₂
  · cases hq
    exact KeptBelow.refl d m₁

end Packet

/-! ## The lengths of a packet -/

section Lengths
variable {k : Checksums} {tosIgnoreFlag : Bool} {src : List UInt8} {s : ℕ} {st : Ext}

theorem header_verifies (hk : k.Lawful) (tot : ℤ) (protocol : UInt8) :
    Verifies (ip4HeaderChecked k tosIgnoreFlag src s st tot protocol) := by
  have hsplit : ∀ check, ip4Header tosIgnoreFlag src s st tot protocol check =
      ([(0x45 : UInt8), if tosIgnoreFlag then 0 else (byte src s &&& 0x0f) <<< 4 ||| byte src (s + 1) >>> 4] ++
        htons tot ++ half st.id ++ half st.fragOff ++ [byte src (s + 7), protocol]) ++
        (half check ++ (bytes4 src (s + 20) ++ bytes4 src (s + 36))) := by
    intro check
    rw [ip4Header, List.append_assoc, List.append_assoc]
  rw [ip4HeaderChecked, hk.fast, hsplit, hsplit]
  exact checksum_verifies (Dvd.intro 5 rfl) _

theorem header_total {tot : ℤ} (protocol : UInt8) (h0 : 0 ≤ tot) (h : tot < 65536) :
    (field16 (ip4HeaderChecked k tosIgnoreFlag src s st tot protocol) 2 : ℤ) = tot := by
  have hfield : field16 (ip4HeaderChecked k tosIgnoreFlag src s st tot protocol) 2 = (tot % 65536).toNat :=
    half_toNat (by omega)
  rw [hfield]
  omega

theorem byte_take {m : List UInt8} {i n : ℕ} (h : i < n) : byte (m.take n) i = byte m i := by
  rw [byte, byte, List.getD_eq_getElem?_getD, List.getD_eq_getElem?_getD, List.getElem?_take_of_lt h]

/-- The packet carries TCP, UDP, an ICMPv6 echo or an ICMPv6 error, and this begins at the place. -/
structure Payload6 (src : List UInt8) (p : Place) : Prop where
  behind : Behind src 0 p
  payload : p.2 = protoTcp ∨ p.2 = protoUdp ∨
    p.2 = nexthdrIcmp ∧ p.1 + 8 ≤ src.length ∧ (Echo6 src p.1 ∨ Error6 src p.1)

/-- The lengths in a translated packet agree, its checksums verify, and the data is what was there. -/
structure Agrees (src : List UInt8) (p : Place) (m : List UInt8) (n : ℤ) : Prop where
  total : (field16 m 2 : ℤ) = n
  header : Verifies (m.take 20)
  icmp : p.2 = nexthdrIcmp → Verifies ((m.drop 20).take (field16 m 2 - 20))
  data : p.2 ≠ nexthdrIcmp → (m.take n.toNat).drop 20 = src.drop p.1

/-- Behind a header with the length of the result. -/
theorem agrees_of_header (hk : k.Lawful) {p : Place} {m : List UInt8} {n : ℤ} {protocol : UInt8}
    (hheader : (m.drop 0).take 20 = ip4HeaderChecked k tosIgnoreFlag src s st n protocol) (h0 : 0 ≤ n) (hn : n < 65536)
    (hicmp : p.2 = nexthdrIcmp → Verifies ((m.drop 20).take (n - 20).toNat))
    (hdata : p.2 ≠ nexthdrIcmp → (m.drop 20).take (n - 20).toNat = src.drop p.1) : Agrees src p m n := by
  rw [List.drop_zero] at hheader
  have htotal : (field16 m 2 : ℤ) = n := by
    have hread : (field16 (ip4HeaderChecked k tosIgnoreFlag src s st n protocol) 2 : ℤ) = n := header_total protocol h0 hn
    rw [← hheader, field16, byte_take (by norm_num), byte_take (by norm_num)] at hread
    exact hread
  have hlen : field16 m 2 - 20 = (n - 20).toNat := by omega
  refine ⟨htotal, ?_, fun hp => ?_, fun hp => ?_⟩
  · rw [hheader]
    exact header_verifies hk n protocol
  · rw [hlen]
    exact hicmp hp
  · have hsub : n.toNat - 20 = (n - 20).toNat := by omega
    rw [List.drop_take, hsub]
    exact hdata hp

/-- Behind a header of IPv4 there is the data of a packet. -/
structure Copied (k : Checksums) (tosIgnoreFlag : Bool) (src : List UInt8) (st : Ext) (m : List UInt8) (n : ℤ) : Prop where
  header : (m.drop 0).take 20 =
    ip4HeaderChecked k tosIgnoreFlag src 0 st (ntotLen src 0 (0 + 40 + st.optsLen)) st.nextHdr
  data : (m.drop 20).take (src.length - (0 + 40 + st.optsLen)) = src.drop (0 + 40 + st.optsLen)
  len : n = 20 + (src.length - (0 + 40 + st.optsLen) : ℕ)

/-- What follows another header than that of ICMP is copied. -/
theorem payloadRun_copied {host : ByteOrder} {inner : Inner (List UInt8 × ℤ)} {dst m : List UInt8} {q : List UInt8 × ℤ}
    (hst : st.Sound src 0) (hkind : 0 + 40 + st.optsLen < src.length → st.nextHdr ≠ nexthdrIcmp)
    (hm : write dst 0 (ip4HeaderChecked k tosIgnoreFlag src 0 st (ntotLen src 0 (0 + 40 + st.optsLen)) st.nextHdr) = .ok m)
    (hq : payloadRun inner k host tosIgnoreFlag src 0 m 0 false st = .ok q) :
    Copied k tosIgnoreFlag src st q.1 q.2 := by
  have hleft := hst.left
  have hin := hst.inside
  obtain ⟨hfit, rfl⟩ := write_eq hm
  have hslice := header_slice k tosIgnoreFlag src 0 st (ntotLen src 0 (0 + 40 + st.optsLen)) st.nextHdr
    (Nat.zero_le dst.length)
  have hlen := overlay_length hfit
  generalize overlay dst 0 (ip4HeaderChecked k tosIgnoreFlag src 0 st (ntotLen src 0 (0 + 40 + st.optsLen))
    st.nextHdr) = m at hq hslice hlen
  rw [ip4HeaderChecked_length] at hfit
  unfold payloadRun at hq
  by_cases hdata : 0 < st.lenDelta
  · rw [if_pos hdata, if_neg (hkind (by omega))] at hq
    obtain ⟨m₂, h₂, hq⟩ := ok_of_bind hq
    obtain ⟨bs, hbs, h₂⟩ := ok_of_bind h₂
    obtain ⟨-, -, rfl⟩ := region_eq hbs
    obtain ⟨-, rfl⟩ := write_eq h₂
    cases hq
    have hall : (src.drop (0 + 40 + st.optsLen)).take st.lenDelta.toNat = src.drop (0 + 40 + st.optsLen) := by
      rw [List.take_of_length_le]
      rw [List.length_drop]
      omega
    have hcopied := overlay_slice (src.drop (0 + 40 + st.optsLen)) (show 0 + 20 ≤ m.length by omega)
    rw [List.length_drop] at hcopied
    rw [hall]
    refine ⟨?_, hcopied, by dsimp only; omega⟩
    rw [overlay_before (by omega) le_rfl]
    exact hslice
  · rw [if_neg hdata] at hq
    cases hq
    have hnone : src.length - (0 + 40 + st.optsLen) = 0 := by omega
    refine ⟨hslice, ?_, by dsimp only; omega⟩
    rw [hnone, List.take_zero, List.drop_eq_nil_of_le (by omega)]

theorem ip6Ip4_copied {host : ByteOrder} {dst m : List UInt8} {n : ℤ} {p : Place} (hlong : 40 ≤ src.length)
    (h : ip6Ip4 k host tosIgnoreFlag src src.length dst = .ok (m, n)) (hp : Behind src 0 p)
    (hkind : p.2 ≠ nexthdrIcmp) :
    ∃ st : Ext, Addressed src 0 false ∧ st.place 0 = p ∧ Copied k tosIgnoreFlag src st m n := by
  have hzero : (src.length : ℤ) = src.length - (0 : ℕ) := by simp
  rw [ip6Ip4, hzero] at h
  obtain ⟨haddr, st, m₁, q, hst, hbehind, h₁, hq, hout⟩ := ip6Ip4Body_cases (by omega) h
  obtain rfl := hp.unique hbehind
  obtain ⟨rfl, rfl⟩ := Prod.mk.inj hout
  exact ⟨st, haddr, rfl, payloadRun_copied hst (fun _ => hkind) h₁ hq⟩

/-- A message changes its length with the header of a quoted packet. -/
theorem payloadRun_message (hk : k.Lawful) {host : ByteOrder} {dst : List UInt8} {q : List UInt8 × ℤ}
    (hst : st.Sound src 0) (hdata : 0 < st.lenDelta) (hicmp : st.nextHdr = nexthdrIcmp)
    (hntot : ntotLen src 0 (0 + 40 + st.optsLen) = 20 + st.lenDelta) (hlt : q.2 < 65536)
    (hq : payloadRun (ip6Ip4Included k host tosIgnoreFlag src) k host tosIgnoreFlag src 0 dst 0 false st = .ok q) :
    (q.1.drop 0).take 20 = ip4HeaderChecked k tosIgnoreFlag src 0 st q.2 protoIcmp ∧
      Verifies ((q.1.drop 20).take (q.2 - 20).toNat) := by
  have hne : (20 : ℤ) + st.lenDelta ≠ 0 := by omega
  rw [payloadRun, if_pos hdata, if_pos hicmp, hntot] at hq
  obtain ⟨h8, -, hkinds⟩ := icmp6Icmp4_cases host hq
  have hends : ∃ b m', Ends k tosIgnoreFlag src 0 0 st (20 + st.lenDelta) b m' q ∧ 28 ≤ q.2 := by
    rcases hkinds with ⟨-, hecho⟩ | ⟨-, fields, m', -, -, hquoted⟩
    · obtain ⟨hends, hreal⟩ := echoRun_ends _ q hecho
      exact ⟨_, _, hends, by omega⟩
    · exact ⟨_, _, quotedRun_ends hst h8 (ip6Ip4Included_keeps k host tosIgnoreFlag src _ _) m' q hquoted⟩
  obtain ⟨b, m', ⟨m₂, tot, hfinish, -, hsame⟩, hlong⟩ := hends
  have hdiff := hsame hne
  obtain rfl : tot = q.2 := by omega
  have hmod : q.2 % 65536 = q.2 := by omega
  have hdone := icmp4Finish_finished hfinish
  have hsum := hdone.sum hk hne (by omega)
  rw [hmod] at hsum
  exact ⟨hdone.header, hsum⟩

/-- The three lengths of a translated packet are one. -/
theorem ip6_ip4_lengths (k : Checksums) (hk : k.Lawful) (host : ByteOrder) (tosIgnoreFlag : Bool) (src dst : List UInt8)
    (hdst : dst.length = 2048) (hlen : 40 < src.length) (hpayload : field16 src 4 = src.length - 40) (p : Place)
    (hp : Payload6 src p) (m : List UInt8) (n : ℤ) (h : ip6Ip4 k host tosIgnoreFlag src src.length dst = .ok (m, n)) :
    Agrees src p m n := by
  have hzero : (src.length : ℤ) = src.length - (0 : ℕ) := by simp
  obtain ⟨-, hgives, -⟩ := ip6Ip4Body_spec k host tosIgnoreFlag (ip6Ip4Included k host tosIgnoreFlag src) hzero
    (by omega) (by omega) hdst fun _ : false = false => ip6Ip4Included_spec k host tosIgnoreFlag
  obtain ⟨-, hreal, -⟩ := hgives (m, n) h
  obtain ⟨hlow, hhigh⟩ := hreal rfl
  rw [buffSize] at hhigh
  rw [ip6Ip4, hzero] at h
  obtain ⟨-, st, m₁, q, hst, hbehind, h₁, hq, hout⟩ := ip6Ip4Body_cases (by omega) h
  obtain rfl := hp.behind.unique hbehind
  obtain ⟨rfl, rfl⟩ := Prod.mk.inj hout
  have hleft := hst.left
  have hin := hst.inside
  have hplace : (st.place 0).1 = 0 + 40 + st.optsLen := rfl
  simp only [Bool.false_eq_true, if_false] at hlow hhigh ⊢
  have hntot : ntotLen src 0 (0 + 40 + st.optsLen) = 20 + st.lenDelta := by
    rw [ntotLen, if_neg (by rw [Nat.zero_add]; omega), Nat.zero_add]
    omega
  by_cases hicmp : st.nextHdr = nexthdrIcmp
  · have hdata : 0 < st.lenDelta := by
      rcases hp.payload with htcp | hudp | ⟨-, h8, -⟩
      · exact absurd (htcp.symm.trans hicmp) (by decide)
      · exact absurd (hudp.symm.trans hicmp) (by decide)
      · omega
    obtain ⟨hheader, hsum⟩ := payloadRun_message hk hst hdata hicmp hntot (by omega) hq
    exact agrees_of_header hk hheader (by omega) (by omega) (fun _ => hsum) fun hno => absurd hicmp hno
  · have hcopied := payloadRun_copied hst (fun _ => hicmp) h₁ hq
    have hlength := hcopied.len
    have hheader := hcopied.header
    have htot : 20 + st.lenDelta = q.2 := by omega
    have hdata : (q.2 - 20).toNat = src.length - (0 + 40 + st.optsLen) := by omega
    rw [hntot, htot] at hheader
    refine agrees_of_header hk hheader (by omega) (by omega) (fun hyes => absurd hyes hicmp) fun _ => ?_
    rw [hdata]
    exact hcopied.data

/-- UDP behind destination options. -/
def optionsUdp : List UInt8 := packet6 nexthdrDest ([protoUdp, 0, 1, 4, 0, 0, 0, 0] ++ [0, 80, 0, 80, 0, 8, 0, 0])

theorem optionsUdp_behind : Behind optionsUdp 0 (48, protoUdp) :=
  ⟨(40, nexthdrDest), by decide, by
    rw [if_pos (by decide)]
    exact ⟨.single rfl, by decide⟩⟩

theorem optionsUdp_ok : ∃ r,
    ip6Ip4 kernelChecksums .big false optionsUdp optionsUdp.length (List.replicate 2048 0) = .ok r := by
  have hok : (ip6Ip4 kernelChecksums .big false optionsUdp optionsUdp.length (List.replicate 2048 0)).toOption.isSome =
      true := by decide +kernel
  generalize ip6Ip4 kernelChecksums .big false optionsUdp optionsUdp.length (List.replicate 2048 0) = r at hok
  cases r with
  | error e => cases hok
  | ok r => exact ⟨r, rfl⟩

theorem ip6_ip4_lengths_udp : ∃ m n,
    ip6Ip4 kernelChecksums .big false optionsUdp optionsUdp.length (List.replicate 2048 0) = .ok (m, n) ∧
      Agrees optionsUdp (48, protoUdp) m n := by
  obtain ⟨r, hr⟩ := optionsUdp_ok
  exact ⟨r.1, r.2, hr, ip6_ip4_lengths kernelChecksums ⟨fun _ => rfl, fun _ => rfl⟩ .big false optionsUdp
    (List.replicate 2048 0) List.length_replicate (by decide) (by decide) (48, protoUdp)
    ⟨optionsUdp_behind, .inr (.inl rfl)⟩ r.1 r.2 hr⟩

end Lengths

end Neufbox.Siit
