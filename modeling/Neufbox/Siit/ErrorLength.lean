import Neufbox.Siit.Bounds

/-! # The length of a translated ICMP error

An ICMP error that quotes a packet of TCP or UDP grows by the growth of two headers. `ip4_ip6` adds 20 bytes for the
quoted one; what it writes is described by a list of copies, the checksum last. -/
namespace Neufbox.Siit
open Blocks Guarded ByteStore OnesComplement
set_option autoImplicit false
set_option maxHeartbeats 250000
set_option maxRecDepth 120000

/-! ## The copies -/

theorem write_ok {m : List UInt8} {i : ℕ} {bs : List UInt8} (h : i + bs.length ≤ m.length) :
    write m i bs = .ok (overlay m i bs) := if_pos h

theorem writeFields_ok (dst : List UInt8) (d : ℕ) {fields : List (ℕ × List UInt8)}
    (h : ∀ w ∈ fields, d + w.1 + w.2.length ≤ dst.length) :
    writeFields dst d fields = .ok (overlays dst (fields.map fun w => (d + w.1, w.2))) := by
  induction fields generalizing dst with
  | nil => rfl
  | cons w fields ih =>
    have hw := h w List.mem_cons_self
    rw [writeFields, List.foldlM_cons, write_ok hw]
    apply ih
    intro v hv
    rw [overlay_length hw]
    exact h v (List.mem_cons_of_mem w hv)

theorem region_ok {m : List UInt8} {i : ℕ} {n : ℤ} (hn : 0 ≤ n) (h : i + n.toNat ≤ m.length) :
    region m i n = .ok ((m.drop i).take n.toNat) := by
  rw [region, if_neg (by omega), if_pos h]

/-- The sum over a message in a buffer, with the addresses in front of it. -/
def sum6 (k : Checksums) (m : List UInt8) (d at6 : ℕ) (len : ℤ) (proto : UInt8) : ℕ :=
  k.csumIpv6Magic ((m.drop (d + 8)).take 16) ((m.drop (d + 24)).take 16) len proto
    (k.csumPartial ((m.drop at6).take len.toNat) 0)

theorem checksum6_ok (k : Checksums) (dst : List UInt8) (d at6 field : ℕ) {len : ℤ} (proto : UInt8)
    (hfield : at6 + field + 2 ≤ dst.length) (hlen : 0 ≤ len) (hat : at6 + len.toNat ≤ dst.length) :
    checksum6 k dst d at6 field len proto =
      .ok (overlay (overlay dst (at6 + field) (half 0)) (at6 + field)
        (half (sum6 k (overlay dst (at6 + field) (half 0)) d at6 len proto))) := by
  have hzero : (overlay dst (at6 + field) (half 0)).length = dst.length := overlay_length hfield
  rw [checksum6, write_ok hfield, ok_bind, region_ok hlen (by rw [hzero]; exact hat), ok_bind]
  apply write_ok
  rw [hzero]
  exact hfield

section Copies
variable (tosIgnoreFlag : Bool) (src : List UInt8)

/-- The header of the quoted packet. -/
def quotedHeader (s : ℕ) : List UInt8 :=
  ip6Header tosIgnoreFlag src s translatedPrefix mappedPrefix
    (((field16 src (s + 2) : ℕ) % 65536 : ℕ) - hdrLen src s) (protocolNexthdr (byte src (s + 9)))

/-- TCP, or UDP that is not dropped. -/
def Kept (s : ℕ) : Prop :=
  byte src (s + 9) = protoTcp ∨ byte src (s + 9) = protoUdp ∧ ¬ (Unchecked src s ∧ More src s)

theorem udp4Udp6_quoted (k : Checksums) {s : ℕ} (hkept : ¬ (Unchecked src s ∧ More src s))
    (hlong : s + hdrLen src s + 8 ≤ src.length) (len : ℤ) (dst : List UInt8) (d fr : ℕ) (plen : ℤ) :
    udp4Udp6 k src s len dst d true (hdrLen src s) fr plen =
      memcpy dst (d + 40 + fr) src (s + hdrLen src s) (len - hdrLen src s) := by
  have hend : ∀ (fl : Bool) (r : Run (List UInt8)), (r >>= fun dst => if fl = true ∧ ¬(true : Bool) = true then
      checksum6 k dst d (d + 40 + fr) 6 (plen - fr) protoUdp else pure dst) = r := by
    intro fl r
    cases r <;> simp [pure, Except.pure]
  unfold udp4Udp6
  by_cases hfirst : First src s
  · have hinside : inside src (s + hdrLen src s + 6) 2 = .ok () := inside_ok (by omega)
    simp only [if_pos hfirst, hinside, ok_bind]
    split
    · exact hend false _
    · next hcheck =>
      have hmore : ¬ More src s := fun hmore => hkept ⟨⟨hfirst, not_not.mp hcheck⟩, hmore⟩
      rw [if_neg hmore]
      exact hend true _
  · simp only [if_neg hfirst]
    exact hend false _

theorem included_run (k : Checksums) {s : ℕ} (hkept : Kept src s) (hq : 20 ≤ hdrLen src s)
    (hlong : s + hdrLen src s + 8 ≤ src.length) (dst : List UInt8) (d : ℕ)
    (hd : d + 40 + (src.length - s - hdrLen src s) ≤ dst.length) :
    ip4Ip6Included k tosIgnoreFlag src s ((src.length : ℤ) - s) dst d =
      .ok (overlays dst [(d, quotedHeader tosIgnoreFlag src s), (d + 40, src.drop (s + hdrLen src s))]) := by
  have hhdr : 4 * (byte src s &&& 0x0f).toNat = hdrLen src s := rfl
  have hheader : d + (quotedHeader tosIgnoreFlag src s).length ≤ dst.length := by
    rw [quotedHeader, ip6Header_length]
    omega
  have hdata : region src (s + hdrLen src s) ((src.length : ℤ) - s - hdrLen src s) = .ok (src.drop (s + hdrLen src s)) :=
    region_drop (by omega) (by push_cast; ring)
  have hcopy : memcpy (overlay dst d (quotedHeader tosIgnoreFlag src s)) (d + 40) src (s + hdrLen src s)
      ((src.length : ℤ) - s - hdrLen src s) =
      .ok (overlay (overlay dst d (quotedHeader tosIgnoreFlag src s)) (d + 40) (src.drop (s + hdrLen src s))) := by
    rw [memcpy, hdata]
    apply write_ok
    rw [overlay_length hheader, List.length_drop]
    omega
  unfold ip4Ip6Included ip4Ip6Body
  rw [inside_ok (by omega)]
  simp only [hhdr, or_true, not_true_eq_false, decide_false, Bool.false_eq_true, if_false, if_true, pure_bind,
    Nat.add_zero, ok_bind]
  rw [← quotedHeader, write_ok hheader, ok_bind, icmp4Icmp6_included]
  rcases hkept with htcp | ⟨hudp, hkept⟩
  · rw [htcp, if_neg (by decide), if_pos rfl]
    exact hcopy
  · rw [hudp, if_neg (by decide), if_neg (by decide), if_pos rfl, udp4Udp6_quoted src k hkept hlong]
    exact hcopy

/-- The length of the fragment header that is added. -/
abbrev fr6 : ℕ := (fragments src).length

def errorPlen : ℤ := ((src.length + fr6 src) % 65536 : ℕ) - hdrLen src 0

def errorHeader : List UInt8 :=
  ip6Header tosIgnoreFlag src 0 mappedPrefix translatedPrefix (errorPlen src)
    (if field16 src 6 = ipDf then protocolNexthdr (byte src 9) else nexthdrFragment)

/-- What is written before the message is translated. -/
def headerWrites : List (ℕ × List UInt8) := [(40, fragments src), (0, errorHeader tosIgnoreFlag src)]

/-- What is written for an error, with the fields that its type has. -/
def errorWrites (fields : List (ℕ × List UInt8)) : List (ℕ × List UInt8) :=
  headerWrites tosIgnoreFlag src ++ (fields.map (fun w => (40 + fr6 src + w.1, w.2)) ++
    [(48 + fr6 src, quotedHeader tosIgnoreFlag src (hdrLen src 0 + 8)),
      (88 + fr6 src, src.drop (hdrLen src 0 + 8 + hdrLen src (hdrLen src 0 + 8))),
      (4, htons (errorPlen src + 20)), (42 + fr6 src, half 0)])

theorem ip4Ip6_icmp (k : Checksums) (h : ValidHeader src) (hproto : byte src 9 = protoIcmp) (dst : List UInt8)
    (hroom : 40 + fr6 src ≤ dst.length) :
    ip4Ip6 k tosIgnoreFlag src src.length dst =
      icmp4Icmp6 k (ip4Ip6Included k tosIgnoreFlag src) src 0 src.length (overlays dst (headerWrites tosIgnoreFlag src)) 0
        false (hdrLen src 0) (fr6 src) (errorPlen src) := by
  have hhdr : 4 * (byte src 0 &&& 0x0f).toNat = hdrLen src 0 := rfl
  have hihl := h.ihl
  have hfits := h.fits
  unfold ip4Ip6 ip4Ip6Body
  rw [inside_ok (by omega)]
  simp only [hhdr, Nat.zero_add, h.totLen, ok_bind, hproto, if_true]
  have hfrag : write dst 40 (fragments src) = .ok (overlay dst 40 (fragments src)) := write_ok hroom
  have hlen : (overlay dst 40 (fragments src)).length = dst.length := overlay_length hroom
  have hheader : write (overlay dst 40 (fragments src)) 0 (errorHeader tosIgnoreFlag src) =
      .ok (overlays dst (headerWrites tosIgnoreFlag src)) := by
    apply write_ok
    rw [errorHeader, ip6Header_length]
    omega
  have hfr : fr6 src = if field16 src 6 = ipDf then 0 else 8 := fragments_length src
  by_cases hdf : field16 src 6 = ipDf
  · have hnone : fragments src = [] := if_pos hdf
    rw [if_pos hdf] at hfr
    rw [errorHeader, errorPlen, hfr, if_pos hdf, hnone, overlay_nil, hproto] at hheader
    simp only [hdf, true_or, not_true_eq_false, decide_false, Bool.false_eq_true, if_false, pure_bind]
    rw [hheader, ok_bind, errorPlen, hfr]
  · have hsome : fragments src = fragHeader src 0 := if_neg hdf
    rw [if_neg hdf] at hfr
    rw [errorHeader, errorPlen, hfr, if_neg hdf] at hheader
    rw [hsome] at hfrag hheader
    simp only [hdf, false_or, Bool.false_eq_true, not_false_eq_true, decide_true, if_true, if_false]
    rw [hfrag, ok_bind, hheader, ok_bind, errorPlen, hfr]

/-- An ICMP error with a translation that quotes a packet of TCP or UDP, of which eight bytes of data are there. -/
structure QuotesTransport : Prop where
  protocol : byte src 9 = protoIcmp
  translated : Translated src (hdrLen src 0)
  quoted : byte src (hdrLen src 0 + 8 + 9) = protoTcp ∨ byte src (hdrLen src 0 + 8 + 9) = protoUdp
  ihl : 20 ≤ hdrLen src (hdrLen src 0 + 8)
  eight : hdrLen src 0 + 8 + hdrLen src (hdrLen src 0 + 8) + 8 ≤ src.length

theorem QuotesTransport.not_echo {src : List UInt8} (hq : QuotesTransport src) : ¬ Echo src (hdrLen src 0) := by
  have ht := hq.translated
  rintro (h8 | h0)
  · simp [Translated, h8] at ht
  · simp [Translated, h0] at ht

theorem errorWrites_fit {src : List UInt8} (hq : QuotesTransport src) (h : ValidHeader src)
    {fields : List (ℕ × List UInt8)} (hfields : ∀ w ∈ fields, w.1 + w.2.length ≤ 8) :
    ∀ w ∈ errorWrites tosIgnoreFlag src fields, w.1 + w.2.length ≤ src.length + 40 + fr6 src := by
  have hihl := h.ihl
  have hih := hq.ihl
  have height := hq.eight
  intro w hw
  simp only [errorWrites, headerWrites, List.mem_append, List.mem_cons, List.not_mem_nil, or_false, List.mem_map] at hw
  rcases hw with (rfl | rfl) | ⟨v, hv, rfl⟩ | rfl | rfl | rfl | rfl
  · show 40 + fr6 src ≤ _
    omega
  · show 0 + (errorHeader tosIgnoreFlag src).length ≤ _
    rw [errorHeader, ip6Header_length]
    omega
  · have hend := hfields v hv
    show 40 + fr6 src + v.1 + v.2.length ≤ _
    omega
  · show 48 + fr6 src + (quotedHeader tosIgnoreFlag src (hdrLen src 0 + 8)).length ≤ _
    rw [quotedHeader, ip6Header_length]
    omega
  · show 88 + fr6 src + (src.drop _).length ≤ _
    rw [List.length_drop]
    omega
  · show 4 + 2 ≤ _
    omega
  · show 42 + fr6 src + 2 ≤ _
    omega

/-- The whole run: the copies, and the checksum over what is there then. -/
theorem error_run (k : Checksums) (h : ValidHeader src) (hq : QuotesTransport src) (hfrag : First src 0 ∧ ¬ More src 0)
    (hkept : Kept src (hdrLen src 0 + 8)) {fields : List (ℕ × List UInt8)}
    (herror : icmp6Error src (hdrLen src 0) = .ok fields) (hfields : ∀ w ∈ fields, w.1 + w.2.length ≤ 8)
    (dst : List UInt8) (hdst : dst.length = src.length + 40 + fr6 src) :
    ip4Ip6 k tosIgnoreFlag src src.length dst =
      .ok (overlay (overlays dst (errorWrites tosIgnoreFlag src fields)) (42 + fr6 src)
        (half (sum6 k (overlays dst (errorWrites tosIgnoreFlag src fields)) 0 (40 + fr6 src)
          (src.length - hdrLen src 0 + 20) nexthdrIcmp))) := by
  have hihl := h.ihl
  have hfits := h.fits
  have hih := hq.ihl
  have height := hq.eight
  have hfit := errorWrites_fit tosIgnoreFlag hq h hfields
  simp only [errorWrites, List.mem_append] at hfit
  -- the buffer after the headers, the fields, the quoted packet and the length
  have h₁ : (overlays dst (headerWrites tosIgnoreFlag src)).length = src.length + 40 + fr6 src :=
    (overlays_length fun w hw => by rw [hdst]; exact hfit w (Or.inl hw)).trans hdst
  have hparts : overlays dst (errorWrites tosIgnoreFlag src fields) =
      overlay (overlay (overlays (overlays (overlays dst (headerWrites tosIgnoreFlag src))
        (fields.map fun w => (40 + fr6 src + w.1, w.2)))
        [(48 + fr6 src, quotedHeader tosIgnoreFlag src (hdrLen src 0 + 8)),
          (48 + fr6 src + 40, src.drop (hdrLen src 0 + 8 + hdrLen src (hdrLen src 0 + 8)))])
        4 (htons (errorPlen src + 20))) (42 + fr6 src) (half 0) := by
    have h88 : 48 + fr6 src + 40 = 88 + fr6 src := by omega
    rw [errorWrites, overlays_append, overlays_append, h88]
    rfl
  have hstart := ip4Ip6_icmp tosIgnoreFlag src k h hq.protocol dst (by omega)
  generalize overlays dst (headerWrites tosIgnoreFlag src) = m₁ at *
  have h₂ : (overlays m₁ (fields.map fun w => (40 + fr6 src + w.1, w.2))).length = src.length + 40 + fr6 src :=
    (overlays_length fun w hw => by rw [h₁]; exact hfit w (Or.inr (Or.inl hw))).trans h₁
  have hwrites := writeFields_ok m₁ (40 + fr6 src) fun w (hw : w ∈ fields) => by
    have hend := hfields w hw
    omega
  generalize overlays m₁ (fields.map fun w => (40 + fr6 src + w.1, w.2)) = m₂ at *
  have hinner := included_run tosIgnoreFlag src k hkept hih height m₂ (48 + fr6 src) (by omega)
  have h₃ : (overlays m₂ [(48 + fr6 src, quotedHeader tosIgnoreFlag src (hdrLen src 0 + 8)),
      (48 + fr6 src + 40, src.drop (hdrLen src 0 + 8 + hdrLen src (hdrLen src 0 + 8)))]).length =
      src.length + 40 + fr6 src := by
    refine Eq.trans (overlays_length ?_) h₂
    simp only [List.forall_mem_cons, List.not_mem_nil, false_implies, implies_true, and_true]
    rw [quotedHeader, ip6Header_length, List.length_drop]
    omega
  generalize overlays m₂ _ = m₃ at *
  have hlength : (htons (errorPlen src + 20)).length = 2 := half_length _
  have hplen : write m₃ 4 (htons (errorPlen src + 20)) = .ok (overlay m₃ 4 (htons (errorPlen src + 20))) :=
    write_ok (by omega)
  have h₄ : (overlay m₃ 4 (htons (errorPlen src + 20))).length = src.length + 40 + fr6 src :=
    (overlay_length (by omega)).trans h₃
  generalize overlay m₃ 4 (htons (errorPlen src + 20)) = m₄ at *
  have hsum := checksum6_ok k m₄ 0 (40 + fr6 src) 2 nexthdrIcmp (by omega)
    (show (0 : ℤ) ≤ src.length - hdrLen src 0 + 20 by omega) (by omega)
  have hdata : (src.length : ℤ) - hdrLen src 0 - 8 = src.length - (hdrLen src 0 + 8 : ℕ) := by push_cast; ring
  have hlen : (src.length : ℤ) - hdrLen src 0 + 20 = (field16 src (0 + 2) : ℤ) - hdrLen src 0 + 20 := by
    rw [Nat.zero_add, h.totLen]
  have hto : 40 + fr6 src + 8 = 48 + fr6 src := by omega
  have hcheck : 40 + fr6 src + 2 = 42 + fr6 src := by omega
  have hgo : ¬(field16 src (0 + 6) &&& ipOffset ≠ 0 ∨ field16 src (0 + 6) &&& ipMf ≠ 0 ∨ (false : Bool) = true) := by
    rintro (hoffset | hmore | hfalse)
    · exact hoffset hfrag.1
    · exact hfrag.2 hmore
    · cases hfalse
  rw [hcheck] at hsum
  rw [hparts, hstart]
  unfold icmp4Icmp6
  rw [if_neg hgo, inside_ok (by omega)]
  simp only [Nat.zero_add, ok_bind, if_neg hq.not_echo, herror, hwrites, hto, hdata, hinner, hplen]
  rw [Nat.zero_add] at hlen
  rw [← hlen]
  exact hsum

end Copies

/-! ## A run that succeeds -/

section Success
variable (tosIgnoreFlag : Bool) (src : List UInt8)

/-- An error that exceeded its time has no value behind its checksum, and the bytes there are left alone. -/
theorem icmp6Error_fields {i : ℕ} (ht : Translated src i) {fields : List (ℕ × List UInt8)}
    (hok : icmp6Error src i = .ok fields) (j : ℕ) :
    Covered fields j ↔ j < 2 ∨ 4 ≤ j ∧ j < 8 ∧ byte src i ≠ 11 := by
  have hbind : ∀ (n : ℕ) (r : Run (List (ℕ × List UInt8))), (inside src (i + 1) n >>= fun _ => r) = .ok fields →
      r = .ok fields := by
    intro n r h
    obtain ⟨_, -, h⟩ := ok_of_bind h
    exact h
  rw [icmp6Error] at hok
  rcases ht with ⟨h3, hcode⟩ | h11 | h12
  · rw [h3]
    rw [if_pos h3] at hok
    have hok := hbind 1 _ hok
    rcases codes_le _ hcode with hno | h2 | h3' | h4 | h910
    · rw [if_pos hno] at hok
      obtain rfl := Except.ok.inj hok
      simp
      omega
    · simp only [h2, if_true] at hok
      obtain rfl := Except.ok.inj hok
      simp
      omega
    · simp only [h3', if_true] at hok
      obtain rfl := Except.ok.inj hok
      simp
      omega
    · simp only [h4, if_true] at hok
      obtain ⟨_, -, hok⟩ := ok_of_bind hok
      obtain rfl := Except.ok.inj hok
      simp
      omega
    · rcases h910 with h9 | h10
      · simp only [h9, true_or, if_true] at hok
        obtain rfl := Except.ok.inj hok
        simp
        omega
      · simp only [h10, or_true, if_true] at hok
        obtain rfl := Except.ok.inj hok
        simp
        omega
  · rw [h11] at hok ⊢
    have hok := hbind 1 _ hok
    obtain rfl := Except.ok.inj hok
    simp
    omega
  · rw [h12] at hok ⊢
    have hok := hbind 5 _ hok
    obtain rfl := Except.ok.inj hok
    simp
    omega

/-- The first fragment of UDP without a checksum is dropped. -/
theorem included_dropped (k : Checksums) {s : ℕ} (hudp : byte src (s + 9) = protoUdp) (hcheck : Unchecked src s)
    (hmore : More src s) (len : ℤ) (dst : List UInt8) (d : ℕ) :
    Gives (ip4Ip6Included k tosIgnoreFlag src s len dst d) fun _ => False := by
  have hdrop : ∀ dst plen, Gives (udp4Udp6 k src s len dst d true (hdrLen src s) 0 plen) fun _ => False := by
    intro dst plen
    have hzero : ¬ field16 src (s + hdrLen src s + 6) ≠ 0 := not_not.mpr hcheck.2
    unfold udp4Udp6
    simp only [if_pos hcheck.1, if_neg hzero, if_pos hmore]
    refine (inside_needs src (s + hdrLen src s + 6) 2).gives.bind fun _ _ => ?_
    exact gives_error Fault.dropped
  have hhdr : 4 * (byte src s &&& 0x0f).toNat = hdrLen src s := rfl
  have hicmp : protoUdp ≠ protoIcmp := by decide
  have htcp : protoUdp ≠ protoTcp := by decide
  unfold ip4Ip6Included ip4Ip6Body
  refine (inside_needs src s 20).gives.bind fun _ _ => ?_
  simp only [hhdr, hudp, or_true, not_true_eq_false, decide_false, Bool.false_eq_true, if_false, pure_bind,
    if_neg hicmp, if_neg htcp, if_true]
  exact (write_needs dst d _).gives.bind fun m _ => hdrop m _

theorem error_success (k : Checksums) (h : ValidHeader src) (hq : QuotesTransport src) {dst out : List UInt8}
    (hroom : 40 + fr6 src ≤ dst.length) (hok : ip4Ip6 k tosIgnoreFlag src src.length dst = .ok out) :
    (First src 0 ∧ ¬ More src 0) ∧ Kept src (hdrLen src 0 + 8) ∧
      ∃ fields, icmp6Error src (hdrLen src 0) = .ok fields := by
  rw [ip4Ip6_icmp tosIgnoreFlag src k h hq.protocol _ hroom] at hok
  unfold icmp4Icmp6 at hok
  simp only [Nat.zero_add] at hok
  split at hok
  · cases hok
  · next hgo =>
    simp only [not_or] at hgo
    obtain ⟨_, -, hok⟩ := ok_of_bind hok
    rw [if_neg hq.not_echo] at hok
    obtain ⟨fields, hfields, hok⟩ := ok_of_bind hok
    obtain ⟨m₁, -, hok⟩ := ok_of_bind hok
    obtain ⟨m₂, hinner, -⟩ := ok_of_bind hok
    refine ⟨⟨not_not.mp hgo.1, hgo.2.1⟩, ?_, fields, hfields⟩
    rcases hq.quoted with htcp | hudp
    · exact Or.inl htcp
    · refine Or.inr ⟨hudp, ?_⟩
      rintro ⟨hcheck, hmore⟩
      exact included_dropped tosIgnoreFlag src k hudp hcheck hmore _ _ _ m₂ hinner

end Success

/-! ## What is written -/

section Written
variable (k : Checksums) (tosIgnoreFlag : Bool) (src : List UInt8)

/-- A byte of the buffer that is not left as it was, with some contents of the buffer. -/
def Wrote (p : ℕ) : Prop :=
  ∃ dst out, dst.length = src.length + skbDelta src ∧ ip4Ip6 k tosIgnoreFlag src src.length dst = .ok out ∧
    byte out p ≠ byte dst p

/-- Behind the data. -/
def errorEnd : ℕ := 88 + fr6 src + (src.length - (hdrLen src 0 + 8) - hdrLen src (hdrLen src 0 + 8))

theorem errorWrites_covered (hq : QuotesTransport src) {fields : List (ℕ × List UInt8)}
    (hfields : icmp6Error src (hdrLen src 0) = .ok fields) {p : ℕ} (hp : 40 ≤ p) :
    Covered (errorWrites tosIgnoreFlag src fields) p ↔
      p < errorEnd src ∧ ¬ (byte src (hdrLen src 0) = 11 ∧ 44 + fr6 src ≤ p ∧ p < 48 + fr6 src) := by
  have hmap : Covered (fields.map fun w => (40 + fr6 src + w.1, w.2)) p ↔
      40 + fr6 src ≤ p ∧ Covered fields (p - (40 + fr6 src)) := by
    simp only [Covered, List.mem_map]
    constructor
    · rintro ⟨_, ⟨w, hw, rfl⟩, hlow, hhigh⟩
      simp only at hlow hhigh
      exact ⟨by omega, w, hw, by omega, by omega⟩
    · rintro ⟨hp, w, hw, hlow, hhigh⟩
      refine ⟨_, ⟨w, hw, rfl⟩, ?_, ?_⟩
      · simp only
        omega
      · simp only
        omega
  have hlen : (htons (errorPlen src + 20)).length = 2 := half_length _
  have hfr : (fragments src).length = fr6 src := rfl
  simp only [errorWrites, headerWrites, covered_append, covered_cons, covered_nil, hmap,
    icmp6Error_fields src hq.translated hfields, errorHeader, quotedHeader, ip6Header_length, List.length_drop, hlen,
    hfr, half_length, or_false, errorEnd]
  by_cases h11 : byte src (hdrLen src 0) = 11
  · simp only [h11, ne_eq, not_true_eq_false, and_false, or_false, true_and]
    omega
  · simp only [h11, ne_eq, not_false_eq_true, and_true, false_and]
    omega

theorem skbDelta_error (h : QuotesTransport src) : skbDelta src = 40 + fr6 src := by
  have hnot := h.not_echo
  have hdf : field16 src (0 + 6) = ipDf ∨ (false : Bool) = true ↔ field16 src 6 = ipDf := by simp
  rw [skbDelta_fragLen, if_pos ⟨h.protocol, hnot⟩, fragLen, fr6, fragments_length]
  simp only [hdf]
  omega

theorem byte_none {m : List UInt8} {i : ℕ} (h : m.length ≤ i) : byte m i = 0 := by
  rw [byte, List.getD_eq_getElem?_getD, List.getElem?_eq_none h, Option.getD_none]

theorem eq_of_byte_eq {m m' : List UInt8} {i : ℕ} (h : i < m.length) (h' : i < m'.length) (heq : byte m i = byte m' i) :
    m[i]? = m'[i]? := by
  rw [byte, byte, List.getD_eq_getElem?_getD, List.getD_eq_getElem?_getD, List.getElem?_eq_getElem h,
    List.getElem?_eq_getElem h', Option.getD_some, Option.getD_some] at heq
  rw [List.getElem?_eq_getElem h, List.getElem?_eq_getElem h', heq]

/-- The bytes behind the IPv6 header that are written: all up to the end of the data, but for the four without a
value in a message that the time was exceeded. -/
theorem wrote_iff (h : ValidHeader src) (hq : QuotesTransport src) (hfrag : First src 0 ∧ ¬ More src 0)
    (hkept : Kept src (hdrLen src 0 + 8)) {fields : List (ℕ × List UInt8)}
    (herror : icmp6Error src (hdrLen src 0) = .ok fields) {p : ℕ} (hp : 40 ≤ p) :
    Wrote k tosIgnoreFlag src p ↔
      p < errorEnd src ∧ ¬ (byte src (hdrLen src 0) = 11 ∧ 44 + fr6 src ≤ p ∧ p < 48 + fr6 src) := by
  have hihl := h.ihl
  have hih := hq.ihl
  have height := hq.eight
  obtain ⟨_, hneeds, -⟩ := icmp6Error_needs src hq.translated
  have hfields := hneeds.of_ok herror
  have hrun := error_run tosIgnoreFlag src k h hq hfrag hkept herror hfields
  have hfit := errorWrites_fit tosIgnoreFlag hq h hfields
  have hcovered := fun p hp => errorWrites_covered tosIgnoreFlag src hq herror (p := p) hp
  generalize errorWrites tosIgnoreFlag src fields = ws at *
  rw [← hcovered p hp]
  -- the checksum goes to bytes that were written before
  have hchange : ∀ m x, m.length = src.length + 40 + fr6 src → ¬ Covered ws x →
      (overlay m (42 + fr6 src) (half (sum6 k m 0 (40 + fr6 src) (src.length - hdrLen src 0 + 20) nexthdrIcmp)))[x]? =
        m[x]? := by
    intro m x hm hfree
    apply overlay_get_outside
    · rw [half_length]
      omega
    · rw [half_length]
      by_contra hin
      apply hfree
      rw [hcovered x (by omega), errorEnd]
      omega
  have : Nontrivial UInt8 := ⟨0, 1, by decide⟩
  by_cases hin : p < src.length + 40 + fr6 src
  · rw [← changes_iff hfit hchange hin]
    constructor
    · rintro ⟨dst, out, hdst, hok, hne⟩
      rw [skbDelta_error src hq, ← Nat.add_assoc] at hdst
      obtain rfl := Except.ok.inj ((hrun dst hdst).symm.trans hok)
      refine ⟨dst, hdst, fun heq => hne ?_⟩
      rw [byte, byte, List.getD_eq_getElem?_getD, heq, List.getD_eq_getElem?_getD]
    · rintro ⟨dst, hdst, hne⟩
      have hout : (overlays dst ws).length = src.length + 40 + fr6 src :=
        (overlays_length fun w hw => by rw [hdst]; exact hfit w hw).trans hdst
      refine ⟨dst, _, ?_, hrun dst hdst, fun heq => hne ?_⟩
      · rw [skbDelta_error src hq, ← Nat.add_assoc, hdst]
      · apply eq_of_byte_eq _ _ heq
        · rw [overlay_length, hout]
          · exact hin
          · rw [half_length]
            omega
        · rw [hdst]
          exact hin
  · refine iff_of_false ?_ ?_
    · rintro ⟨dst, out, hdst, hok, hne⟩
      rw [skbDelta_error src hq, ← Nat.add_assoc] at hdst
      obtain rfl := Except.ok.inj ((hrun dst hdst).symm.trans hok)
      have hout : (overlays dst ws).length = src.length + 40 + fr6 src :=
        (overlays_length fun w hw => by rw [hdst]; exact hfit w hw).trans hdst
      apply hne
      have hsize : ∀ c, (overlay (overlays dst ws) (42 + fr6 src) (half c)).length = src.length + 40 + fr6 src := by
        intro c
        rw [overlay_length, hout]
        rw [half_length]
        omega
      exact (byte_none (by rw [hsize]; omega)).trans (byte_none (by omega)).symm
    · rintro ⟨w, hw, hlow, hhigh⟩
      have hend := hfit w hw
      omega

end Written

/-! ## The length and the checksum -/

/-- What a checksum of ICMPv6 covers in front of the message. -/
def pseudo6 (saddr daddr : List UInt8) (len : ℕ) (proto : UInt8) : List UInt8 :=
  saddr ++ daddr ++ beBytes len ++ [0, 0, 0, proto]

theorem pseudo6_length {saddr daddr : List UInt8} (hs : saddr.length = 16) (hd : daddr.length = 16) (len : ℕ)
    (proto : UInt8) : (pseudo6 saddr daddr len proto).length = 40 := by
  rw [pseudo6, List.length_append, List.length_append, List.length_append, hs, hd, beBytes_length]
  rfl

/-- The kernel's functions compute the checksum of a message behind an IPv6 header. -/
def Checksums.Lawful6 (k : Checksums) : Prop :=
  ∀ saddr daddr bs : List UInt8, saddr.length = 16 → daddr.length = 16 → ∀ (len : ℕ) (proto : UInt8),
    k.csumIpv6Magic saddr daddr len proto (k.csumPartial bs 0) = checksum (pseudo6 saddr daddr len proto ++ bs)

/-- With `w` bytes behind the IPv6 header: the length is theirs, and the checksum of the message in them verifies. The
message stands behind the fragment header, if there is one. -/
def Consistent (src out : List UInt8) (w : ℕ) : Prop :=
  field16 out 4 = w ∧
    Verifies (pseudo6 ((out.drop 8).take 16) ((out.drop 24).take 16) (w - fr6 src) nexthdrIcmp ++
      (out.drop (40 + fr6 src)).take (w - fr6 src))

section Consistent
variable (tosIgnoreFlag : Bool) (src : List UInt8)

theorem byte_overlay {m : List UInt8} {off i : ℕ} {bs : List UInt8} (h : off + bs.length ≤ m.length)
    (hi : i < off ∨ off + bs.length ≤ i) : byte (overlay m off bs) i = byte m i := by
  rw [byte, byte, List.getD_eq_getElem?_getD, List.getD_eq_getElem?_getD, overlay_get_outside h hi]

theorem field16_overlay {m : List UInt8} {i n : ℕ} (h : i + 2 ≤ m.length) (hn : n < 65536) :
    field16 (overlay m i (half n)) i = n := by
  have hget : ∀ j < 2, byte (overlay m i (half n)) (i + j) = byte (half n) j := by
    intro j hj
    rw [byte, byte, List.getD_eq_getElem?_getD, List.getD_eq_getElem?_getD, overlay_get_inside h hj]
  have hfirst := hget 0 (by omega)
  rw [Nat.add_zero] at hfirst
  rw [field16, hfirst, hget 1 (by omega)]
  exact half_toNat hn

/-- The sum goes into its field, which counted as zero. -/
theorem sum6_verifies {k : Checksums} (hk : k.Lawful6) {m : List UInt8} {fr len : ℕ} (hlen : 4 ≤ len)
    (hfit : 40 + fr + len ≤ m.length) :
    let out := overlay m (42 + fr) (half (sum6 k (overlay m (42 + fr) (half 0)) 0 (40 + fr) len nexthdrIcmp))
    Verifies (pseudo6 ((out.drop 8).take 16) ((out.drop 24).take 16) len nexthdrIcmp ++
      (out.drop (40 + fr)).take len) := by
  have hsaddr : ∀ n, ((overlay m (42 + fr) (half n)).drop 8).take 16 = (m.drop 8).take 16 :=
    fun n => overlay_before (by omega) (by omega)
  have hdaddr : ∀ n, ((overlay m (42 + fr) (half n)).drop 24).take 16 = (m.drop 24).take 16 :=
    fun n => overlay_before (by omega) (by omega)
  have hbody : ∀ n, ((overlay m (42 + fr) (half n)).drop (40 + fr)).take len =
      (m.drop (40 + fr)).take 2 ++ (half n ++ (m.drop (44 + fr)).take (len - 4)) := by
    intro n
    have hat : 42 + fr = 40 + fr + 2 := by omega
    have hbehind : 40 + fr + 2 + 2 = 44 + fr := by omega
    have hrest : len - 2 - 2 = len - 4 := by omega
    rw [hat, overlay_part (by rw [half_length]; omega) (by rw [half_length]; omega), half_length, hbehind, hrest]
  have hslen : ((m.drop 8).take 16).length = 16 := by rw [List.length_take, List.length_drop]; omega
  have hdlen : ((m.drop 24).take 16).length = 16 := by rw [List.length_take, List.length_drop]; omega
  have hfront : 2 ∣ (pseudo6 ((m.drop 8).take 16) ((m.drop 24).take 16) len nexthdrIcmp ++ (m.drop (40 + fr)).take 2).length := by
    have htwo : ((m.drop (40 + fr)).take 2).length = 2 := by rw [List.length_take, List.length_drop]; omega
    rw [List.length_append, htwo, pseudo6_length hslen hdlen]
    exact Dvd.intro 21 rfl
  intro out
  have hsum : sum6 k (overlay m (42 + fr) (half 0)) 0 (40 + fr) len nexthdrIcmp =
      checksum (pseudo6 ((m.drop 8).take 16) ((m.drop 24).take 16) len nexthdrIcmp ++ (m.drop (40 + fr)).take 2 ++
        (half 0 ++ (m.drop (44 + fr)).take (len - 4))) := by
    rw [sum6, Nat.zero_add, Nat.zero_add, Int.toNat_natCast, hsaddr, hdaddr, hbody, hk _ _ _ hslen hdlen,
      List.append_assoc]
  show Verifies (pseudo6 ((out.drop 8).take 16) ((out.drop 24).take 16) len nexthdrIcmp ++ (out.drop (40 + fr)).take len)
  rw [hsaddr, hdaddr, hbody, hsum, ← List.append_assoc]
  exact checksum_verifies hfront _

/-- What comes out, as far as its length and its checksum are concerned. -/
theorem error_out {k : Checksums} (h : ValidHeader src) (hq : QuotesTransport src) {dst out : List UInt8}
    (hdst : dst.length = src.length + 40 + fr6 src) (hok : ip4Ip6 k tosIgnoreFlag src src.length dst = .ok out) :
    ∃ m, m.length = src.length + 40 + fr6 src ∧ field16 m 4 = ((errorPlen src + 20) % 65536).toNat ∧
      out = overlay m (42 + fr6 src) (half (sum6 k (overlay m (42 + fr6 src) (half 0)) 0 (40 + fr6 src)
        (src.length - hdrLen src 0 + 20 : ℕ) nexthdrIcmp)) := by
  have hihl := h.ihl
  have hfits := h.fits
  have hih := hq.ihl
  have height := hq.eight
  obtain ⟨hfrag, hkept, fields, herror⟩ := error_success tosIgnoreFlag src k h hq (by omega) hok
  obtain ⟨_, hneeds, -⟩ := icmp6Error_needs src hq.translated
  have hfields := hneeds.of_ok herror
  have hrun := error_run tosIgnoreFlag src k h hq hfrag hkept herror hfields dst hdst
  have hfit := errorWrites_fit tosIgnoreFlag hq h hfields
  -- the last two copies are the length and the cleared checksum
  obtain ⟨ws, hws⟩ : ∃ ws, errorWrites tosIgnoreFlag src fields =
      ws ++ [(4, htons (errorPlen src + 20)), (42 + fr6 src, half 0)] := by
    refine ⟨headerWrites tosIgnoreFlag src ++ (fields.map (fun w => (40 + fr6 src + w.1, w.2)) ++
      [(48 + fr6 src, quotedHeader tosIgnoreFlag src (hdrLen src 0 + 8)),
        (88 + fr6 src, src.drop (hdrLen src 0 + 8 + hdrLen src (hdrLen src 0 + 8)))]), ?_⟩
    simp only [errorWrites, List.append_assoc, List.cons_append, List.nil_append]
  have hlen : (overlays dst ws).length = src.length + 40 + fr6 src := by
    refine (overlays_length fun w hw => ?_).trans hdst
    rw [hdst]
    apply hfit
    rw [hws]
    exact List.mem_append_left _ hw
  have hlength : (htons (errorPlen src + 20)).length = 2 := half_length _
  have hm : (overlay (overlays dst ws) 4 (htons (errorPlen src + 20))).length = src.length + 40 + fr6 src :=
    (overlay_length (by omega)).trans hlen
  refine ⟨overlay (overlays dst ws) 4 (htons (errorPlen src + 20)), hm, ?_, ?_⟩
  · exact field16_overlay (by omega) (by omega)
  · have hcast : (src.length : ℤ) - hdrLen src 0 + 20 = (src.length - hdrLen src 0 + 20 : ℕ) := by omega
    have hall : overlays dst (errorWrites tosIgnoreFlag src fields) =
        overlay (overlay (overlays dst ws) 4 (htons (errorPlen src + 20))) (42 + fr6 src) (half 0) := by
      rw [hws, overlays_append]
      rfl
    rw [hrun, hall, hcast] at hok
    have hout := Except.ok.inj hok
    have hagain : ∀ c, overlay (overlay (overlay (overlays dst ws) 4 (htons (errorPlen src + 20))) (42 + fr6 src) (half 0))
        (42 + fr6 src) (half c) =
        overlay (overlay (overlays dst ws) 4 (htons (errorPlen src + 20))) (42 + fr6 src) (half c) :=
      fun c => overlay_again (by rw [half_length]; omega) rfl
    rw [hagain] at hout
    exact hout.symm

theorem hdrLen_le (s : ℕ) : hdrLen src s ≤ 60 := by
  have hmask : (byte src s &&& 0x0f).toNat ≤ 15 := by
    rw [UInt8.toNat_and]
    exact Nat.and_le_right
  rw [hdrLen]
  omega

/-- The length is right exactly for a quoted header without options, as long as it has its 16 bits. -/
theorem consistent_iff {k : Checksums} (hk : k.Lawful6) (h : ValidHeader src) (hq : QuotesTransport src)
    {dst out : List UInt8} (hdst : dst.length = src.length + 40 + fr6 src)
    (hok : ip4Ip6 k tosIgnoreFlag src src.length dst = .ok out) (w missing : ℕ) (hmissing : missing ≤ 4)
    (hw : w + missing + 40 = errorEnd src) :
    Consistent src out w ↔ missing = 0 ∧ hdrLen src (hdrLen src 0 + 8) = 20 ∧
      src.length + fr6 src + 20 < 65536 + hdrLen src 0 := by
  have hihl := h.ihl
  have hfits := h.fits
  have hih := hq.ihl
  have height := hq.eight
  have hmax := hdrLen_le src (hdrLen src 0 + 8)
  have hshort : src.length < 65536 := by
    rw [← h.totLen]
    exact field16_lt src 2
  have hfr : fr6 src ≤ 8 := by
    rw [fr6, fragments_length]
    split <;> omega
  obtain ⟨m, hm, hfield, rfl⟩ := error_out tosIgnoreFlag src h hq hdst hok
  have hlength : ∀ c, field16 (overlay m (42 + fr6 src) (half c)) 4 = field16 m 4 := by
    intro c
    rw [field16, field16, byte_overlay (by rw [half_length]; omega) (Or.inl (by omega)),
      byte_overlay (by rw [half_length]; omega) (Or.inl (by omega))]
  rw [errorEnd] at hw
  rw [errorPlen] at hfield
  rw [Consistent, hlength, hfield]
  constructor
  · rintro ⟨hlen, -⟩
    omega
  · rintro ⟨rfl, hquoted, hfit⟩
    have hmessage : w - fr6 src = src.length - hdrLen src 0 + 20 := by omega
    refine ⟨by omega, ?_⟩
    rw [hmessage]
    exact sum6_verifies hk (by omega) (by omega)

end Consistent

/-! ## The count of the bytes -/

/-- The number of bytes written behind the IPv6 header. -/
noncomputable def wroteCount (k : Checksums) (tosIgnoreFlag : Bool) (src : List UInt8) : ℕ :=
  {p | 40 ≤ p ∧ Wrote k tosIgnoreFlag src p}.ncard

theorem wroteCount_eq {k : Checksums} {tosIgnoreFlag : Bool} {src : List UInt8} (h : ValidHeader src)
    (hq : QuotesTransport src) {dst out : List UInt8} (hdst : dst.length = src.length + 40 + fr6 src)
    (hok : ip4Ip6 k tosIgnoreFlag src src.length dst = .ok out) :
    wroteCount k tosIgnoreFlag src + (if byte src (hdrLen src 0) = 11 then 4 else 0) + 40 = errorEnd src := by
  have hih := hq.ihl
  have height := hq.eight
  obtain ⟨hfrag, hkept, fields, herror⟩ := error_success tosIgnoreFlag src k h hq (by omega) hok
  have hwrote := fun p hp => wrote_iff k tosIgnoreFlag src h hq hfrag hkept herror (p := p) hp
  have hend : 88 + fr6 src < errorEnd src := by
    rw [errorEnd]
    omega
  by_cases h11 : byte src (hdrLen src 0) = 11
  · have hset : {p | 40 ≤ p ∧ Wrote k tosIgnoreFlag src p} =
        ↑(Finset.Ico 40 (errorEnd src) \ Finset.Ico (44 + fr6 src) (48 + fr6 src)) := by
      ext p
      simp only [Set.mem_ofPred_eq, Finset.coe_sdiff, Finset.coe_Ico, Set.mem_sdiff, Set.mem_Ico]
      constructor
      · rintro ⟨hp, hw⟩
        have hin := (hwrote p hp).mp hw
        exact ⟨⟨hp, hin.1⟩, fun hgap => hin.2 ⟨h11, hgap⟩⟩
      · rintro ⟨⟨hp, hlt⟩, hgap⟩
        exact ⟨hp, (hwrote p hp).mpr ⟨hlt, fun h => hgap h.2⟩⟩
    have hsub : Finset.Ico (44 + fr6 src) (48 + fr6 src) ⊆ Finset.Ico 40 (errorEnd src) :=
      Finset.Ico_subset_Ico (by omega) (by omega)
    rw [wroteCount, hset, Set.ncard_coe_finset, Finset.card_sdiff_of_subset hsub, Nat.card_Ico, Nat.card_Ico, if_pos h11]
    omega
  · have hset : {p | 40 ≤ p ∧ Wrote k tosIgnoreFlag src p} = ↑(Finset.Ico 40 (errorEnd src)) := by
      ext p
      simp only [Set.mem_ofPred_eq, Finset.coe_Ico, Set.mem_Ico]
      constructor
      · rintro ⟨hp, hw⟩
        exact ⟨hp, ((hwrote p hp).mp hw).1⟩
      · rintro ⟨hp, hlt⟩
        exact ⟨hp, (hwrote p hp).mpr ⟨hlt, fun h => h11 h.1⟩⟩
    rw [wroteCount, hset, Set.ncard_coe_finset, Nat.card_Ico, if_neg h11]
    omega

/-- The length of a translated error is the number of the bytes written, with a checksum that verifies, exactly for a
quoted header without options; of a message that the time was exceeded four bytes are not written at all. As far as the
last byte that was written, the length is right for this message too. -/
theorem siit_error_length_iff (k : Checksums) (hk : k.Lawful6) (tosIgnoreFlag : Bool) (src : List UInt8)
    (h : ValidHeader src) (hq : QuotesTransport src) (dst : List UInt8) (hdst : dst.length = src.length + skbDelta src)
    (out : List UInt8) (hok : ip4Ip6 k tosIgnoreFlag src src.length dst = .ok out) :
    (Consistent src out (wroteCount k tosIgnoreFlag src) ↔ byte src (hdrLen src 0) ≠ 11 ∧
      hdrLen src (hdrLen src 0 + 8) = 20 ∧ src.length + fr6 src + 20 < 65536 + hdrLen src 0) ∧
    ∃ last, IsGreatest {p | Wrote k tosIgnoreFlag src p} last ∧
      (Consistent src out (last + 1 - 40) ↔
        hdrLen src (hdrLen src 0 + 8) = 20 ∧ src.length + fr6 src + 20 < 65536 + hdrLen src 0) := by
  have hihl := h.ihl
  have hih := hq.ihl
  have height := hq.eight
  rw [skbDelta_error src hq, ← Nat.add_assoc] at hdst
  obtain ⟨hfrag, hkept, fields, herror⟩ := error_success tosIgnoreFlag src k h hq (by omega) hok
  have hwrote := fun p hp => wrote_iff k tosIgnoreFlag src h hq hfrag hkept herror (p := p) hp
  have hall := consistent_iff tosIgnoreFlag src hk h hq hdst hok
  have hend : 88 + fr6 src < errorEnd src := by
    rw [errorEnd]
    omega
  constructor
  · have hcount := wroteCount_eq h hq hdst hok
    by_cases h11 : byte src (hdrLen src 0) = 11
    · rw [if_pos h11] at hcount
      refine (hall _ 4 (by omega) hcount).trans ?_
      simp [h11]
    · rw [if_neg h11] at hcount
      refine (hall _ 0 (by omega) hcount).trans ?_
      simp [h11]
  · refine ⟨errorEnd src - 1, ⟨?_, ?_⟩, ?_⟩
    · exact (hwrote _ (by omega)).mpr ⟨by omega, by omega⟩
    · intro p hp
      by_contra hlast
      have hbefore := ((hwrote p (by omega)).mp hp).1
      omega
    · refine (hall _ 0 (by omega) (by omega)).trans ?_
      simp

/-! ## The kernel's functions -/

theorem kernelChecksums_lawful6 : kernelChecksums.Lawful6 := by
  intro saddr daddr bs hs hd len proto
  have hpseudo : 2 ∣ (pseudo6 saddr daddr len proto).length := by
    rw [pseudo6_length hs hd]
    exact Dvd.intro 20 rfl
  rw [checksum, onesSum_append hpseudo]
  show 65535 - onesAdd (onesSum (saddr ++ daddr ++ beBytes (len : ℤ).toNat ++ [0, 0, 0, proto])) (onesAdd 0 (onesSum bs)) = _
  rw [onesAdd_zero, Int.toNat_natCast]
  rfl

/-- A port is not reachable; of the packet that caused the error the header, with some words of options, and eight
bytes are quoted. -/
def portUnreachable (words : ℕ) : List UInt8 :=
  [0x45, 0] ++ half (56 + 4 * words) ++ [0, 0, 0x40, 0, 64, 1, 0, 0, 10, 0, 0, 1, 10, 0, 0, 2, 3, 3, 0, 0, 0, 0, 0, 0,
    0x45 + UInt8.ofNat words, 0] ++ half (40 + 4 * words) ++
    [0, 0, 0x40, 0, 64, 6, 0, 0, 10, 0, 0, 2, 10, 0, 0, 1] ++ List.replicate (4 * words) 1 ++ [0, 80, 0, 80, 0, 0, 0, 0]

theorem portUnreachable_valid : ValidHeader (portUnreachable 0) := ⟨by decide, by decide, by decide⟩

theorem portUnreachable_quotes : QuotesTransport (portUnreachable 0) :=
  ⟨by decide, by decide, by decide, by decide, by decide⟩

theorem siit_error_length_port :
    ∃ out, ip4Ip6 kernelChecksums false (portUnreachable 0) (portUnreachable 0).length (List.replicate 96 0) = .ok out ∧
      ((Consistent (portUnreachable 0) out (wroteCount kernelChecksums false (portUnreachable 0)) ↔
        byte (portUnreachable 0) (hdrLen (portUnreachable 0) 0) ≠ 11 ∧
          hdrLen (portUnreachable 0) (hdrLen (portUnreachable 0) 0 + 8) = 20 ∧
          (portUnreachable 0).length + fr6 (portUnreachable 0) + 20 < 65536 + hdrLen (portUnreachable 0) 0) ∧
      ∃ last, IsGreatest {p | Wrote kernelChecksums false (portUnreachable 0) p} last ∧
        (Consistent (portUnreachable 0) out (last + 1 - 40) ↔
          hdrLen (portUnreachable 0) (hdrLen (portUnreachable 0) 0 + 8) = 20 ∧
          (portUnreachable 0).length + fr6 (portUnreachable 0) + 20 < 65536 + hdrLen (portUnreachable 0) 0)) := by
  have hsome : (ip4Ip6 kernelChecksums false (portUnreachable 0) (portUnreachable 0).length
      (List.replicate 96 0)).toOption.isSome = true := by decide +kernel
  cases hok : ip4Ip6 kernelChecksums false (portUnreachable 0) (portUnreachable 0).length (List.replicate 96 0) with
  | error e =>
    rw [hok] at hsome
    cases hsome
  | ok out =>
    exact ⟨out, rfl, siit_error_length_iff kernelChecksums kernelChecksums_lawful6 false (portUnreachable 0)
      portUnreachable_valid portUnreachable_quotes (List.replicate 96 0) (by decide) out hok⟩

/-- With one word of options in the quoted header the length is 60, and 56 bytes are written. -/
theorem siit_error_length_options :
    ValidHeader (portUnreachable 1) ∧ QuotesTransport (portUnreachable 1) ∧
      ∃ out, ip4Ip6 kernelChecksums false (portUnreachable 1) (portUnreachable 1).length (List.replicate 100 0) = .ok out ∧
        field16 out 4 = 60 ∧ wroteCount kernelChecksums false (portUnreachable 1) = 56 := by
  have hvalid : ValidHeader (portUnreachable 1) := ⟨by decide, by decide, by decide⟩
  have hquotes : QuotesTransport (portUnreachable 1) := ⟨by decide, by decide, by decide, by decide, by decide⟩
  have hlength : (ip4Ip6 kernelChecksums false (portUnreachable 1) (portUnreachable 1).length
      (List.replicate 100 0)).map (field16 · 4) = .ok 60 := by decide +kernel
  refine ⟨hvalid, hquotes, ?_⟩
  cases hok : ip4Ip6 kernelChecksums false (portUnreachable 1) (portUnreachable 1).length (List.replicate 100 0) with
  | error e =>
    rw [hok] at hlength
    cases hlength
  | ok out =>
    rw [hok] at hlength
    have hcount := wroteCount_eq hvalid hquotes (by decide) hok
    have hend : errorEnd (portUnreachable 1) = 96 := by decide
    have h11 : byte (portUnreachable 1) (hdrLen (portUnreachable 1) 0) ≠ 11 := by decide
    rw [hend, if_neg h11] at hcount
    exact ⟨out, rfl, Except.ok.inj hlength, by omega⟩

end Neufbox.Siit
