import Neufbox.Siit.Written

/-! # Byte orders

`ip6_ip4` stores most fields with `htons`, or copies them. The MTU of a Packet Too Big is cast to 16 bits as it is, and
the pointer of a Parameter Problem goes to a field of 16 bits as a literal, so these depend on the host. -/
namespace Neufbox.Siit
open Blocks Guarded ByteStore OnesComplement
set_option autoImplicit false
set_option maxHeartbeats 250000
set_option maxRecDepth 120000

/-! ## Runs that do not look at the host -/

section Hosts
variable (k : Checksums) (host host' : ByteOrder) (tosIgnoreFlag : Bool) (inner : Inner (List UInt8 × ℤ))
  (src : List UInt8) (s : ℕ) (dst : List UInt8) (d : ℕ)

theorem icmp6Icmp4_host (includeFlag : Bool) {st : Ext} (ntot : ℤ)
    (herror : 8 ≤ st.lenDelta → icmp4Error host src (s + 40 + st.optsLen) = icmp4Error host' src (s + 40 + st.optsLen)) :
    icmp6Icmp4 k host tosIgnoreFlag inner src s dst d includeFlag st ntot =
      icmp6Icmp4 k host' tosIgnoreFlag inner src s dst d includeFlag st ntot := by
  unfold icmp6Icmp4
  dsimp only
  split
  · rfl
  · rw [herror (by omega)]

/-- In a quoted packet only an echo request is translated. -/
theorem icmp6Icmp4_included_host (st : Ext) (ntot : ℤ) :
    icmp6Icmp4 k host tosIgnoreFlag inner src s dst d true st ntot =
      icmp6Icmp4 k host' tosIgnoreFlag inner src s dst d true st ntot := by
  unfold icmp6Icmp4
  dsimp only
  by_cases htype : byte src (s + 40 + st.optsLen) = 128
  · simp only [htype, ne_eq, not_true_eq_false, and_false, if_false, true_or, if_true]
  · simp only [htype, ne_eq, not_false_eq_true, and_self, if_true]

theorem ip6Ip4Included_host : ip6Ip4Included k host tosIgnoreFlag src = ip6Ip4Included k host' tosIgnoreFlag src := by
  funext i n m b
  unfold ip6Ip4Included ip6Ip4Body
  simp only [icmp6Icmp4_included_host k host host']

/-- Where the fields of an error are the same on two hosts, the whole run is. -/
theorem ip6Ip4_host (herror : ∀ p, Behind src 0 p → p.2 = nexthdrIcmp → p.1 + 8 ≤ src.length →
    icmp4Error host src p.1 = icmp4Error host' src p.1) :
    ip6Ip4 k host tosIgnoreFlag src src.length dst = ip6Ip4 k host' tosIgnoreFlag src src.length dst := by
  rw [ip6Ip4, ip6Ip4, ip6Ip4Included_host k host host']
  have hzero : (src.length : ℤ) = src.length - (0 : ℕ) := by simp
  by_cases hlong : 0 + 40 ≤ src.length
  · by_cases haddr : Addressed src 0 false
    · rw [ip6Ip4Body_eq k host tosIgnoreFlag _ hzero hlong haddr, ip6Ip4Body_eq k host' tosIgnoreFlag _ hzero hlong haddr]
      obtain ⟨hheaders, hstuck⟩ := headers_spec hzero hlong
      generalize hopByHop src 0 ⟨src.length - 40, 0, byte src (0 + 6), 0, 0⟩ >>= (fun st =>
        if 0 < st.lenDelta then extLoop src 0 ((src.length : ℤ).toNat + 1) st else pure st) = r at hheaders hstuck ⊢
      cases r with
      | error e => rfl
      | ok st =>
        have hfit : HeadersFit src 0 := by
          by_contra hnot
          exact hstuck hnot (safe_ok st)
        rcases hheaders hfit with ⟨st', hst', hsound, hbehind⟩ | ⟨hdrop, -⟩
        · obtain rfl : st = st' := Except.ok.inj hst'
          have hleft := hsound.left
          have hpayload : ∀ m, payloadRun (ip6Ip4Included k host' tosIgnoreFlag src) k host tosIgnoreFlag src 0 m 0 false st =
              payloadRun (ip6Ip4Included k host' tosIgnoreFlag src) k host' tosIgnoreFlag src 0 m 0 false st := by
            intro m
            unfold payloadRun
            by_cases hnext : st.nextHdr = nexthdrIcmp
            · rw [icmp6Icmp4_host k host host' tosIgnoreFlag _ src 0 m 0 false _
                fun h8 => herror _ hbehind hnext (by simp only [Ext.place]; omega)]
            · rw [if_neg hnext, if_neg hnext]
          simp only [ok_bind, hpayload]
        · cases hdrop
    · rw [ip6Ip4Body_dropped k host tosIgnoreFlag _ haddr hzero hlong,
        ip6Ip4Body_dropped k host' tosIgnoreFlag _ haddr hzero hlong]
  · have hshort : (src.length : ℤ) - 40 < 0 := by omega
    unfold ip6Ip4Body
    rw [if_pos hshort, if_pos hshort]

end Hosts

/-! ## Errors that are translated -/

/-- An ICMPv6 error stands at the place, in a packet that is translated in its bounds. -/
structure TranslatedError (src : List UInt8) (p : Place) : Prop where
  long : 40 ≤ src.length
  fits : PacketFits src
  addressed : Addressed src 0 false
  behind : Behind src 0 p
  kind : p.2 = nexthdrIcmp
  header : p.1 + 8 ≤ src.length
  error : Error6 src p.1
  quoted : p.1 + 48 ≤ src.length → ∃ o, QuotedOpts src (p.1 + 8) o

section Errors
variable {k : Checksums} {host : ByteOrder} {tosIgnoreFlag : Bool} {src : List UInt8} {st : Ext} {p : Place}
  {dst m : List UInt8} {ntot : ℤ}

theorem quotedRun_ok {innerFits : ℕ → Prop} {innerOpts : ℕ → ℤ → Prop} {inner : Inner (List UInt8 × ℤ)}
    (hinner : InnerSpec src 0 inner innerFits innerOpts) (hst : st.Sound src 0)
    (h8 : 0 + 40 + st.optsLen + 8 ≤ src.length)
    (hfits : if 0 + 40 + st.optsLen + 48 ≤ src.length then innerFits (0 + 40 + st.optsLen + 8) ∧
        ∀ o, innerOpts (0 + 40 + st.optsLen + 8) o → SumFits 0 ntot (ntot - o - 20)
      else SumFits 0 ntot ntot)
    (hquoted : 0 + 40 + st.optsLen + 48 ≤ src.length → ∃ o, innerOpts (0 + 40 + st.optsLen + 8) o)
    (hm : m.length = buffSize) :
    ∃ r, quotedRun k tosIgnoreFlag inner src 0 0 st ntot m = .ok r := by
  have hleft := hst.left
  have hfinish : ∀ (m' : List UInt8) (tot : ℤ), m'.length = buffSize → SumFits 0 ntot tot →
      ∃ out, icmp4Finish k tosIgnoreFlag src 0 0 st ntot tot m' = .ok out := by
    intro m' tot hm' hsum
    obtain ⟨out, hout, -⟩ := (icmp4Finish_needs k tosIgnoreFlag src 0 0 st (by omega) hm' ntot tot).result hsum
    exact ⟨out, hout⟩
  unfold quotedRun
  dsimp only
  by_cases hquote : 0 + 40 + st.optsLen + 48 ≤ src.length
  · rw [if_pos hquote] at hfits
    obtain ⟨o, ho⟩ := hquoted hquote
    have hrest : st.lenDelta - 8 = src.length - (0 + 40 + st.optsLen + 8 : ℕ) := by omega
    obtain ⟨m', hrun⟩ := hinner.ok (by omega) hm hfits.1 o ho
    have hlen := (hinner.gives (by omega) hm _ hrun).1
    have htot : SumFits 0 ntot (if ntot ≠ 0 then ntot - o - 20 else ntot) := by
      intro hne
      rw [if_pos hne]
      exact hfits.2 o ho hne
    obtain ⟨out, hout⟩ := hfinish m' _ hlen htot
    rw [if_pos (by omega), hrest, hrun, ok_bind, hout]
    exact ⟨_, rfl⟩
  · rw [if_neg hquote] at hfits
    have hroom : 0 + 20 + (src.length - (0 + 40 + st.optsLen)) ≤ buffSize := by
      rw [buffSize]
      omega
    obtain ⟨m', hdata, hlen⟩ := (data_needs hst (by omega : 0 ≤ 28) h8 hm).result hroom
    obtain ⟨out, hout⟩ := hfinish m' ntot hlen hfits
    rw [if_neg (by omega), dataRun, hdata, ok_bind, hout]
    exact ⟨_, rfl⟩

theorem icmp6Icmp4_quoted {inner : Inner (List UInt8 × ℤ)} (hst : st.Sound src 0)
    (h8 : 0 + 40 + st.optsLen + 8 ≤ src.length) (hecho : ¬ Echo6 src (0 + 40 + st.optsLen)) :
    icmp6Icmp4 k host tosIgnoreFlag inner src 0 m 0 false st ntot =
      icmp4Error host src (0 + 40 + st.optsLen) >>= fun fields =>
        writeFields m 20 fields >>= quotedRun k tosIgnoreFlag inner src 0 0 st ntot := by
  have hleft := hst.left
  unfold icmp6Icmp4 quotedRun dataRun
  dsimp only
  rw [if_neg (by omega), inside_ok h8, ok_bind, if_neg (by simp), if_neg hecho]
  simp only [ite_bind]

theorem not_echo6_of_error6 {i : ℕ} (h : Error6 src i) : ¬ Echo6 src i := fun hecho => not_error6_of_echo6 hecho h

theorem payloadRun_icmp {inner : Inner (List UInt8 × ℤ)} (hst : st.Sound src 0)
    (h8 : 0 + 40 + st.optsLen + 8 ≤ src.length) (hicmp : st.nextHdr = nexthdrIcmp) :
    payloadRun inner k host tosIgnoreFlag src 0 m 0 false st = icmp6Icmp4 k host tosIgnoreFlag inner src 0 m 0 false st
      (ntotLen src 0 (0 + 40 + st.optsLen)) := by
  have hleft := hst.left
  rw [payloadRun, if_pos (by omega), if_pos hicmp]

theorem error_fields_ok (host : ByteOrder) {i : ℕ} (herror : Error6 src i) (hm : m.length = buffSize) :
    ∃ fields m', icmp4Error host src i = .ok fields ∧ writeFields m 20 fields = .ok m' ∧ m'.length = buffSize := by
  obtain ⟨fields, hfields, hin⟩ := icmp4Error_fields host src herror
  have hfit : ∀ w ∈ fields, 20 + w.1 + w.2.length ≤ m.length := by
    intro w hw
    have hend := hin w hw
    rw [hm, buffSize]
    omega
  obtain ⟨m', hm', hlen⟩ := (writeFields_needs m 20 hfit).result trivial
  exact ⟨fields, m', hfields, hm', hlen.trans hm⟩

theorem TranslatedError.ok (h : TranslatedError src p) (hdst : dst.length = buffSize) :
    ∃ r, ip6Ip4 k host tosIgnoreFlag src src.length dst = .ok r := by
  have hheader := h.header
  have hlong := h.long
  have hzero : (src.length : ℤ) = src.length - (0 : ℕ) := by simp
  obtain ⟨hfit, hplaces⟩ := h.fits hlong h.addressed
  obtain ⟨hheaders, -⟩ := headers_spec hzero (by omega)
  rcases hheaders hfit with ⟨st, hst, hsound, hbehind⟩ | ⟨-, hnone⟩
  · obtain rfl := h.behind.unique hbehind
    have hicmp : st.nextHdr = nexthdrIcmp := h.kind
    have herror : Error6 src (0 + 40 + st.optsLen) := h.error
    have h8 : 0 + 40 + st.optsLen + 8 ≤ src.length := hheader
    have hpayload := hplaces _ h.behind (by omega)
    rw [if_pos h.kind] at hpayload
    have hwrite : StepNeeds (write dst 0 (ip4HeaderChecked k tosIgnoreFlag src 0 st
        (ntotLen src 0 (0 + 40 + st.optsLen)) st.nextHdr)) (fun m => m.length = buffSize) True :=
      write_room hdst (by rw [ip4HeaderChecked_length]; omega)
    obtain ⟨m, hm, hlen⟩ := hwrite.result trivial
    obtain ⟨fields, m', hfields, hm', hlen'⟩ := error_fields_ok host herror hlen
    have hquoted : ∃ r, quotedRun k tosIgnoreFlag (ip6Ip4Included k host tosIgnoreFlag src) src 0 0 st
        (ntotLen src 0 (0 + 40 + st.optsLen)) m' = .ok r :=
      quotedRun_ok (ip6Ip4Included_spec k host tosIgnoreFlag) hsound h8
        ((hpayload hheader fun hfalse => Bool.noConfusion hfalse).2 h.error) h.quoted hlen'
    obtain ⟨r, hr⟩ := hquoted
    rw [ip6Ip4, ip6Ip4Body_eq k host tosIgnoreFlag _ hzero (by omega) h.addressed, hst, ok_bind, hm, ok_bind,
      payloadRun_icmp hsound h8 hicmp, icmp6Icmp4_quoted hsound h8 (not_echo6_of_error6 herror), hfields, ok_bind, hm',
      ok_bind, hr]
    exact ⟨_, rfl⟩
  · exact absurd h.behind (hnone p)

theorem quotedRun_inner {inner : Inner (List UInt8 × ℤ)} {r : List UInt8 × ℤ}
    (h : quotedRun k tosIgnoreFlag inner src 0 0 st ntot m = .ok r) (hquote : 40 ≤ st.lenDelta - 8) :
    ∃ q, inner (0 + 40 + st.optsLen + 8) (st.lenDelta - 8) m (0 + 20 + 8) = .ok q := by
  unfold quotedRun at h
  dsimp only at h
  rw [if_pos hquote] at h
  obtain ⟨q, hq, -⟩ := ok_of_bind h
  exact ⟨q, hq⟩

/-- The fields of a translated error are found in the packet that comes out. -/
structure ErrorOut (host : ByteOrder) (src : List UInt8) (i : ℕ) (r : List UInt8 × ℤ) : Prop where
  long : 28 ≤ r.2
  fields : ∃ fields m m', icmp4Error host src i = .ok fields ∧ writeFields m 20 fields = .ok m' ∧
    ∀ j, 24 ≤ j → j < 28 → byte r.1 j = byte m' j

theorem ip6Ip4_error_cases {r : List UInt8 × ℤ} (hdst : dst.length = buffSize)
    (h : ip6Ip4 k host tosIgnoreFlag src src.length dst = .ok r) (hp : Behind src 0 p) (hkind : p.2 = nexthdrIcmp)
    (hdata : p.1 < src.length) (hecho : ¬ Echo6 src p.1) : TranslatedError src p ∧ ErrorOut host src p.1 r := by
  have hzero : (src.length : ℤ) = src.length - (0 : ℕ) := by simp
  have hlong : 0 + 40 ≤ src.length := by
    by_contra hnot
    have hshort : (src.length : ℤ) - 40 < 0 := by omega
    have hdrop : ip6Ip4 k host tosIgnoreFlag src src.length dst = .error .dropped := if_pos hshort
    rw [hdrop] at h
    cases h
  have hspec := ip6Ip4Body_spec k host tosIgnoreFlag (ip6Ip4Included k host tosIgnoreFlag src) hzero hlong
    (by omega) hdst fun _ : false = false => ip6Ip4Included_spec k host tosIgnoreFlag
  have hfits : BodyFits src 0 0 false (QuotedFits src) (QuotedOpts src) := by
    refine hspec.1.mp ?_
    rw [ip6Ip4] at h
    rw [h]
    exact safe_ok r
  rw [ip6Ip4, hzero] at h
  obtain ⟨haddr, st, m, q, hsound, hbehind, hm, hq, rfl⟩ := ip6Ip4Body_cases hlong h
  obtain rfl := hp.unique hbehind
  have hleft := hsound.left
  have hkind' : st.nextHdr = nexthdrIcmp := hkind
  have hdata' : 0 + 40 + st.optsLen < src.length := hdata
  rw [payloadRun, if_pos (by omega), if_pos hkind'] at hq
  obtain ⟨h8, -, ⟨hyes, -⟩ | ⟨-, fields, m', hfields, hm', hquoted⟩⟩ := icmp6Icmp4_cases host hq
  · exact absurd hyes hecho
  have herror : Error6 src (0 + 40 + st.optsLen) := by
    by_contra hnot
    rw [icmp4Error_dropped host src hnot] at hfields
    cases hfields
  obtain ⟨⟨m₂, tot, hfinish, hkeep, -⟩, hreal⟩ :=
    quotedRun_ends hsound h8 (ip6Ip4Included_keeps k host tosIgnoreFlag src _ _) m' q hquoted
  refine ⟨⟨by omega, fun _ => hfits, haddr, hp, hkind, ?_, herror, fun hquote => ?_⟩, hreal, fields, m, m', hfields, hm',
    fun j hlow hhigh => ?_⟩
  · simp only [Ext.place]
    omega
  · have hquote' : 0 + 40 + st.optsLen + 48 ≤ src.length := hquote
    obtain ⟨q', hq'⟩ := quotedRun_inner hquoted (by omega)
    have hrest : st.lenDelta - 8 = src.length - (0 + 40 + st.optsLen + 8 : ℕ) := by omega
    rw [hrest] at hq'
    have hmlen : m.length = buffSize := by
      obtain ⟨hfit, rfl⟩ := write_eq hm
      exact (overlay_length hfit).trans hdst
    have hlen : m'.length = buffSize := by
      obtain ⟨fields', m'', hfields', hm'', hlen⟩ := error_fields_ok host herror hmlen
      obtain rfl := Except.ok.inj (hfields.symm.trans hfields')
      obtain rfl := Except.ok.inj (hm'.symm.trans hm'')
      exact hlen
    exact ⟨q'.2, ((ip6Ip4Included_spec k host tosIgnoreFlag).gives (by omega) hlen q' hq').2.1⟩
  · exact ((icmp4Finish_finished hfinish).same j (.inr (by omega))).trans (hkeep j (by omega))

theorem byte_overlay_inside {m bs : List UInt8} {i j : ℕ} (h : i + bs.length ≤ m.length) (hj : j < bs.length) :
    byte (overlay m i bs) (i + j) = byte bs j := by
  rw [byte, byte, List.getD_eq_getElem?_getD, List.getD_eq_getElem?_getD, overlay_get_inside h hj]

theorem writeFields_last {fields : List (ℕ × List UInt8)} {w : ℕ × List UInt8} {m m' : List UInt8}
    (h : writeFields m 20 (fields ++ [w]) = .ok m') {j : ℕ} (hj : j < w.2.length) : byte m' (20 + w.1 + j) = byte w.2 j := by
  rw [writeFields, List.foldlM_append] at h
  obtain ⟨m₁, -, h⟩ := ok_of_bind h
  rw [List.foldlM_cons] at h
  obtain ⟨m₂, h₂, h⟩ := ok_of_bind h
  cases h
  obtain ⟨hfit, rfl⟩ := write_eq h₂
  exact byte_overlay_inside hfit hj

theorem icmp4Error_tooBig {i : ℕ} (h : byte src i = 2) :
    icmp4Error host src i = .ok ([(0, [3]), (1, [4])] ++ [(6, truncated host src (i + 4))]) := by
  rw [icmp4Error, h]
  rfl

theorem icmp4Error_pointer {i : ℕ} (h : byte src i = 4) (hcode : byte src (i + 1) ≠ 1) :
    icmp4Error host src i = .ok ([(0, [12]), (1, [0])] ++ [(4, hostHalf host (pointer4 (beWord (bytes4 src (i + 4)))))]) := by
  rw [icmp4Error, h, if_neg (by decide), if_neg (by decide), if_neg (by decide), if_pos rfl, if_neg hcode]
  rfl

/-- Other errors do not depend on the host. -/
theorem icmp4Error_host (host host' : ByteOrder) {i : ℕ} (hbig : byte src i ≠ 2)
    (hpointer : byte src i = 4 → byte src (i + 1) = 1) : icmp4Error host src i = icmp4Error host' src i := by
  rw [icmp4Error, icmp4Error, if_neg hbig, if_neg hbig]
  by_cases h4 : byte src i = 4
  · rw [h4, hpointer h4]
    rfl
  · rw [if_neg h4, if_neg h4]

end Errors

/-! ## The bytes of the two hosts -/

section Bytes
variable (k : Checksums) (tosIgnoreFlag : Bool) (src dst : List UInt8)

/-- The bytes that are handed on, if any. -/
def produced (r : Run (List UInt8 × ℤ)) : Option (List UInt8) := r.toOption.map fun r => r.1.take r.2.toNat

/-- A big-endian and a little-endian host produce the same bytes, and on both the fields of an error are the translated
values. -/
structure HostIndependent : Prop where
  same : produced (ip6Ip4 k .big tosIgnoreFlag src src.length dst) =
    produced (ip6Ip4 k .little tosIgnoreFlag src src.length dst)
  mtu : ∀ host p out, Behind src 0 p → p.2 = nexthdrIcmp → p.1 < src.length → byte src p.1 = 2 →
    produced (ip6Ip4 k host tosIgnoreFlag src src.length dst) = some out →
      field16 out 26 = beWord (bytes4 src (p.1 + 4)) % 65536
  pointer : ∀ host p out, Behind src 0 p → p.2 = nexthdrIcmp → p.1 < src.length → byte src p.1 = 4 →
    byte src (p.1 + 1) ≠ 1 → produced (ip6Ip4 k host tosIgnoreFlag src src.length dst) = some out →
      (byte out 24).toNat = pointer4 (beWord (bytes4 src (p.1 + 4)))

/-- In the errors that are translated, the halves of an MTU are the same, and a pointer is zero. -/
def OrderFree : Prop :=
  ∀ p, TranslatedError src p →
    (byte src p.1 = 2 → byte src (p.1 + 4) = byte src (p.1 + 6) ∧ byte src (p.1 + 5) = byte src (p.1 + 7)) ∧
      (byte src p.1 = 4 → byte src (p.1 + 1) ≠ 1 → beWord (bytes4 src (p.1 + 4)) = 0)

variable {k tosIgnoreFlag src dst} {host : ByteOrder} {p : Place}

theorem produced_eq_some {r : Run (List UInt8 × ℤ)} {out : List UInt8} :
    produced r = some out ↔ ∃ q, r = .ok q ∧ q.1.take q.2.toNat = out := by
  cases r with
  | ok q => simp [produced, Except.toOption]
  | error e => simp [produced, Except.toOption]

theorem pointer4_lt (n : ℕ) : pointer4 n < 256 := by
  unfold pointer4
  split_ifs <;> norm_num

theorem pointer4_eq_zero {n : ℕ} : pointer4 n = 0 ↔ n = 0 := by
  unfold pointer4
  by_cases hn : n = 0
  · simp [hn]
  · rw [if_neg hn]
    split_ifs <;> simp [hn]

/-- The cells of an error behind its checksum, in the bytes that are produced. -/
theorem error_produced (hdst : dst.length = buffSize) {out : List UInt8} (hp : Behind src 0 p)
    (hkind : p.2 = nexthdrIcmp) (hdata : p.1 < src.length) (hecho : ¬ Echo6 src p.1)
    (h : produced (ip6Ip4 k host tosIgnoreFlag src src.length dst) = some out) :
    TranslatedError src p ∧ ∃ fields m m', icmp4Error host src p.1 = .ok fields ∧ writeFields m 20 fields = .ok m' ∧
      ∀ j, 24 ≤ j → j < 28 → byte out j = byte m' j := by
  obtain ⟨q, hq, rfl⟩ := produced_eq_some.mp h
  obtain ⟨htrans, hlong, fields, m, m', hfields, hm', hsame⟩ := ip6Ip4_error_cases hdst hq hp hkind hdata hecho
  refine ⟨htrans, fields, m, m', hfields, hm', fun j hlow hhigh => ?_⟩
  rw [byte_take (by omega)]
  exact hsame j hlow hhigh

theorem not_echo6_of_type {i : ℕ} (h : byte src i = 2 ∨ byte src i = 4) : ¬ Echo6 src i := by
  rcases h with h | h <;> simp [h]

/-- The MTU field of a translated error has the half of the MTU that the host's cast leaves. -/
theorem mtu_produced (hdst : dst.length = buffSize) {out : List UInt8} (hp : Behind src 0 p)
    (hkind : p.2 = nexthdrIcmp) (hdata : p.1 < src.length) (htype : byte src p.1 = 2)
    (h : produced (ip6Ip4 k host tosIgnoreFlag src src.length dst) = some out) :
    byte out 26 = byte (truncated host src (p.1 + 4)) 0 ∧ byte out 27 = byte (truncated host src (p.1 + 4)) 1 := by
  obtain ⟨-, fields, m, m', hfields, hm', hsame⟩ :=
    error_produced hdst hp hkind hdata (not_echo6_of_type (.inl htype)) h
  rw [icmp4Error_tooBig htype] at hfields
  obtain rfl := Except.ok.inj hfields
  have hlen : (truncated host src (p.1 + 4)).length = 2 := by cases host <;> rfl
  have hlast := fun j (hj : j < 2) => writeFields_last hm' (hlen ▸ hj : j < (truncated host src (p.1 + 4)).length)
  exact ⟨(hsame 26 (by norm_num) (by norm_num)).trans (hlast 0 (by norm_num)),
    (hsame 27 (by norm_num) (by norm_num)).trans (hlast 1 (by norm_num))⟩

theorem pointer_produced (hdst : dst.length = buffSize) {out : List UInt8} (hp : Behind src 0 p)
    (hkind : p.2 = nexthdrIcmp) (hdata : p.1 < src.length) (htype : byte src p.1 = 4) (hcode : byte src (p.1 + 1) ≠ 1)
    (h : produced (ip6Ip4 k host tosIgnoreFlag src src.length dst) = some out) :
    byte out 24 = byte (hostHalf host (pointer4 (beWord (bytes4 src (p.1 + 4))))) 0 := by
  obtain ⟨-, fields, m, m', hfields, hm', hsame⟩ :=
    error_produced hdst hp hkind hdata (not_echo6_of_type (.inr htype)) h
  rw [icmp4Error_pointer htype hcode] at hfields
  obtain rfl := Except.ok.inj hfields
  have hlen : (hostHalf host (pointer4 (beWord (bytes4 src (p.1 + 4))))).length = 2 := by cases host <;> rfl
  have hlast := writeFields_last hm' (hlen ▸ Nat.zero_lt_two :
    0 < (hostHalf host (pointer4 (beWord (bytes4 src (p.1 + 4))))).length)
  exact (hsame 24 (by norm_num) (by norm_num)).trans hlast

theorem beWord_low (m : List UInt8) (i : ℕ) :
    beWord (bytes4 m i) % 65536 = 256 * (byte m (i + 2)).toNat + (byte m (i + 3)).toNat := by
  have h2 := (byte m (i + 2)).toNat_lt
  have h3 := (byte m (i + 3)).toNat_lt
  simp only [beWord, bytes4, List.foldl_cons, List.foldl_nil]
  omega

/-- In an error whose fields differ between the hosts there is an MTU or a pointer. -/
theorem kinds_of_host_ne {i : ℕ} (h : icmp4Error .big src i ≠ icmp4Error .little src i) :
    byte src i = 2 ∨ byte src i = 4 ∧ byte src (i + 1) ≠ 1 := by
  by_contra hnot
  obtain ⟨h2, h4⟩ := not_or.mp hnot
  refine h (icmp4Error_host .big .little h2 fun htype => ?_)
  by_contra hcode
  exact h4 ⟨htype, hcode⟩

/-- In a translated error with equal halves or a zero pointer, the fields are the same. -/
theorem OrderFree.fields (h : OrderFree src) (hp : TranslatedError src p) :
    icmp4Error .big src p.1 = icmp4Error .little src p.1 := by
  by_contra hne
  obtain ⟨hmtu, hpointer⟩ := h p hp
  rcases kinds_of_host_ne hne with h2 | ⟨h4, hcode⟩
  · obtain ⟨hhigh, hlow⟩ := hmtu h2
    apply hne
    rw [icmp4Error_tooBig h2, icmp4Error_tooBig h2, truncated, truncated, hhigh, hlow]
  · apply hne
    rw [icmp4Error_pointer h4 hcode, icmp4Error_pointer h4 hcode, hpointer h4 hcode]
    rfl

theorem OrderFree.same (h : OrderFree src) (hdst : dst.length = buffSize) :
    produced (ip6Ip4 k .big tosIgnoreFlag src src.length dst) =
      produced (ip6Ip4 k .little tosIgnoreFlag src src.length dst) := by
  by_cases hfree : ∀ p, Behind src 0 p → p.2 = nexthdrIcmp → p.1 + 8 ≤ src.length →
      icmp4Error .big src p.1 = icmp4Error .little src p.1
  · rw [ip6Ip4_host k .big .little tosIgnoreFlag src dst hfree]
  · push Not at hfree
    obtain ⟨p, hp, hkind, h8, hne⟩ := hfree
    have hecho : ¬ Echo6 src p.1 := not_echo6_of_type ((kinds_of_host_ne hne).imp id And.left)
    -- neither host produces anything
    have hnone : ∀ host, produced (ip6Ip4 k host tosIgnoreFlag src src.length dst) = none := by
      intro host
      rw [Option.eq_none_iff_forall_ne_some]
      intro out hout
      exact hne (h.fields (error_produced hdst hp hkind (by omega) hecho hout).1)
    rw [hnone, hnone]

/-- The two byte orders give the same bytes, and the right ones, exactly if the errors that are translated have nothing
that depends on the order. -/
theorem ip6_ip4_host_iff (k : Checksums) (tosIgnoreFlag : Bool) (src dst : List UInt8) (hdst : dst.length = 2048) :
    HostIndependent k tosIgnoreFlag src dst ↔ OrderFree src := by
  constructor
  · intro h p hp
    have h8 := hp.header
    have hout : ∀ host, ∃ out, produced (ip6Ip4 k host tosIgnoreFlag src src.length dst) = some out := by
      intro host
      obtain ⟨r, hr⟩ := hp.ok hdst
      exact ⟨_, produced_eq_some.mpr ⟨r, hr, rfl⟩⟩
    constructor
    · intro h2
      obtain ⟨out, hlittle⟩ := hout .little
      have hfield := h.mtu .little p out hp.behind hp.kind (by omega) h2 hlittle
      obtain ⟨hhigh, hlow⟩ := mtu_produced hdst hp.behind hp.kind (by omega) h2 hlittle
      have hb0 : byte out 26 = byte src (p.1 + 4) := hhigh
      have hb1 : byte out 27 = byte src (p.1 + 5) := hlow
      have he2 : p.1 + 4 + 2 = p.1 + 6 := rfl
      have he3 : p.1 + 4 + 3 = p.1 + 7 := rfl
      rw [field16, hb0, hb1, beWord_low, he2, he3] at hfield
      have h0 := (byte src (p.1 + 4)).toNat_lt
      have h1 := (byte src (p.1 + 5)).toNat_lt
      have h2 := (byte src (p.1 + 6)).toNat_lt
      have h3 := (byte src (p.1 + 7)).toNat_lt
      rw [← UInt8.toNat_inj, ← UInt8.toNat_inj]
      omega
    · intro h4 hcode
      obtain ⟨out, hbig⟩ := hout .big
      have hvalue := h.pointer .big p out hp.behind hp.kind (by omega) h4 hcode hbig
      rw [pointer_produced hdst hp.behind hp.kind (by omega) h4 hcode hbig] at hvalue
      have hlt := pointer4_lt (beWord (bytes4 src (p.1 + 4)))
      have hhigh : (byte (hostHalf .big (pointer4 (beWord (bytes4 src (p.1 + 4))))) 0).toNat =
          pointer4 (beWord (bytes4 src (p.1 + 4))) / 256 % 256 := UInt8.toNat_ofNat'
      rw [hhigh, Nat.div_eq_of_lt hlt] at hvalue
      exact pointer4_eq_zero.mp hvalue.symm
  · intro h
    refine ⟨h.same hdst, ?_, ?_⟩
    · intro host p out hp hkind hdata h2 hout
      obtain ⟨htrans, -⟩ := error_produced hdst hp hkind hdata (not_echo6_of_type (.inl h2)) hout
      obtain ⟨hhigh, hlow⟩ := (h p htrans).1 h2
      obtain ⟨h26, h27⟩ := mtu_produced hdst hp hkind hdata h2 hout
      rw [field16, h26, h27, beWord_low, ← hhigh, ← hlow]
      cases host with
      | big => rw [hhigh, hlow]; rfl
      | little => rfl
    · intro host p out hp hkind hdata h4 hcode hout
      obtain ⟨htrans, -⟩ := error_produced hdst hp hkind hdata (not_echo6_of_type (.inr h4)) hout
      rw [pointer_produced hdst hp hkind hdata h4 hcode hout, (h p htrans).2 h4 hcode]
      cases host <;> rfl

theorem ip6_ip4_host_iff_udp : HostIndependent kernelChecksums false optionsUdp (List.replicate 2048 0) := by
  refine (ip6_ip4_host_iff kernelChecksums false optionsUdp (List.replicate 2048 0) List.length_replicate).mpr ?_
  intro p hp
  obtain rfl := hp.behind.unique optionsUdp_behind
  exact absurd hp.kind (by decide)

/-- A Packet Too Big with an MTU of 1280, and a Parameter Problem that points to the payload length. -/
theorem ip6_ip4_host_differs :
    ¬ HostIndependent kernelChecksums false (packet6 nexthdrIcmp [2, 0, 0, 0, 0, 0, 5, 0]) (List.replicate 2048 0) ∧
      ¬ HostIndependent kernelChecksums false (packet6 nexthdrIcmp [4, 0, 0, 0, 0, 0, 0, 4]) (List.replicate 2048 0) :=
  ⟨fun h => absurd h.same (by decide +kernel), fun h => absurd h.same (by decide +kernel)⟩

end Bytes

end Neufbox.Siit
