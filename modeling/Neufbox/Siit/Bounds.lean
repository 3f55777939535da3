import Neufbox.Library.Guarded
import Neufbox.Siit.RoundTrip

/-! # What `ip4_ip6` touches

A packet with a valid header goes into the buffer that `siit_xmit` has for it. What lies behind the header is any
bytes: a message that is too short is read past its end, and so is the packet inside an ICMP error. -/
namespace Neufbox.Siit
open Blocks Guarded ByteStore OnesComplement
set_option autoImplicit false
set_option maxHeartbeats 250000
set_option maxRecDepth 120000

/-! ## Steps -/

/-- The packet is translated or dropped, and nothing else happens. -/
abbrev SafeRun {α : Type} (r : Run α) : Prop := Safe (· ≠ Fault.dropped) r

/-- A step that has its result under a condition, and is not safe without it. -/
abbrev StepNeeds {α : Type} (r : Run α) (S : α → Prop) (p : Prop) : Prop := Needs (· ≠ Fault.dropped) r S p

theorem safe_dropped {α : Type} : SafeRun (.error .dropped : Run α) := by
  simp

section Steps
variable (k : Checksums) (m src dst : List UInt8) (i s d : ℕ)

theorem inside_needs (n : ℕ) : StepNeeds (inside m i n) (fun _ => True) (i + n ≤ m.length) :=
  Needs.ite (fun _ => trivial) (by simp)

theorem region_needs (n : ℤ) : StepNeeds (region m i n) (fun bs => (bs.length : ℤ) = n) (0 ≤ n ∧ i + n ≤ m.length) := by
  by_cases hn : n < 0
  · rw [region, if_pos hn]
    refine ⟨fun h => absurd h.1 (by omega), fun _ => ?_⟩
    simp
  · have hguard : StepNeeds (region m i n) (fun bs => (bs.length : ℤ) = n) (i + n.toNat ≤ m.length) := by
      rw [region, if_neg hn]
      apply Needs.ite
      · intro h
        rw [List.length_take, List.length_drop]
        omega
      · simp
    exact hguard.mono (fun _ h => h) (by omega)

theorem write_needs (bs : List UInt8) :
    StepNeeds (write m i bs) (fun m' => m'.length = m.length) (i + bs.length ≤ m.length) :=
  Needs.ite (fun h => overlay_length h) (by simp)

theorem memcpy_needs (n : ℤ) :
    StepNeeds (memcpy dst d src s n) (fun m => m.length = dst.length)
      (0 ≤ n ∧ s + n ≤ src.length ∧ d + n ≤ dst.length) := by
  have h : StepNeeds (memcpy dst d src s n) (fun m => m.length = dst.length)
      ((0 ≤ n ∧ s + n ≤ src.length) ∧ d + n ≤ dst.length) := by
    apply (region_needs src s n).bind
    intro _ bs hbs
    apply (write_needs dst d bs).mono (fun _ h => h)
    omega
  exact h.mono (fun _ h => h) and_assoc

theorem checksum6_needs (field : ℕ) (len : ℤ) (proto : UInt8) :
    StepNeeds (checksum6 k dst d i field len proto) (fun m => m.length = dst.length)
      (i + field + 2 ≤ dst.length ∧ 0 ≤ len ∧ i + len ≤ dst.length) := by
  apply (write_needs dst (i + field) (half 0)).bind
  intro hfits dst₁ h₁
  have hbody := region_needs dst₁ i len
  rw [h₁] at hbody
  have hrest : StepNeeds (region dst₁ i len >>= fun body => write dst₁ (i + field)
      (half (k.csumIpv6Magic ((dst₁.drop (d + 8)).take 16) ((dst₁.drop (d + 24)).take 16) len proto
        (k.csumPartial body 0)))) (fun m => m.length = dst.length) ((0 ≤ len ∧ i + len ≤ dst.length) ∧ True) := by
    apply hbody.bind
    intro _ body _
    apply (write_needs dst₁ (i + field) _).mono
    · intro m hm
      exact hm.trans h₁
    · rw [half_length] at hfits ⊢
      exact iff_true_intro (by omega)
  exact hrest.mono (fun _ h => h) (iff_of_eq (and_true _))

theorem writeFields_needs {fields : List (ℕ × List UInt8)}
    (h : ∀ w ∈ fields, d + w.1 + w.2.length ≤ dst.length) :
    StepNeeds (writeFields dst d fields) (fun m => m.length = dst.length) True := by
  induction fields generalizing dst with
  | nil => exact Needs.ok rfl
  | cons w fields ih =>
    have hfirst := h w List.mem_cons_self
    have hall := (write_needs dst (d + w.1) w.2).bind (q := True) (f := fun m => writeFields m d fields)
      (T := fun m => m.length = dst.length) fun _ m hm => (ih m (by
        intro v hv
        rw [hm]
        exact h v (List.mem_cons_of_mem _ hv))).mono (fun _ h => h.trans hm) Iff.rfl
    exact hall.mono (fun _ h => h) (iff_true_intro ⟨hfirst, trivial⟩)

end Steps

/-! ## The conditions -/

def hdrLen (src : List UInt8) (s : ℕ) : ℕ := 4 * (byte src s &&& 0x0f).toNat

/-- The fragment offset is zero. -/
abbrev First (src : List UInt8) (s : ℕ) : Prop := field16 src (s + 6) &&& ipOffset = 0

/-- More fragments follow. -/
abbrev More (src : List UInt8) (s : ℕ) : Prop := field16 src (s + 6) &&& ipMf ≠ 0

/-- A UDP header without a checksum, in a fragment that may have one. -/
abbrev Unchecked (src : List UInt8) (s : ℕ) : Prop := First src s ∧ field16 src (s + hdrLen src s + 6) = 0

/-- A copy stays in its buffers. -/
abbrev CopyFits (src : List UInt8) (s : ℕ) (dst : List UInt8) (d : ℕ) (n : ℤ) : Prop :=
  0 ≤ n ∧ s + n ≤ src.length ∧ d + n ≤ dst.length

/-- The fragment header that is added. -/
def fragLen (src : List UInt8) (s : ℕ) (includeFlag : Bool) : ℕ :=
  if field16 src (s + 6) = ipDf ∨ includeFlag then 0 else 8

/-- An IPv4 packet as `siit_xmit` hands it on. -/
structure ValidHeader (src : List UInt8) : Prop where
  ihl : 20 ≤ hdrLen src 0
  fits : hdrLen src 0 ≤ src.length
  totLen : field16 src 2 = src.length

theorem ip6Header_length (tosIgnoreFlag : Bool) (src : List UInt8) (s sourcePrefix destPrefix : ℕ) (plen : ℤ)
    (nexthdr : UInt8) : (ip6Header tosIgnoreFlag src s sourcePrefix destPrefix plen nexthdr).length = 40 := by
  cases tosIgnoreFlag <;> rfl

section Body
variable (k : Checksums) (inner : Inner (List UInt8)) (src : List UInt8) (s : ℕ) (len : ℤ) (dst : List UInt8) (d : ℕ)

theorem udp4Udp6_safe (includeFlag : Bool) (fr : ℕ) (plen : ℤ) :
    SafeRun (udp4Udp6 k src s len dst d includeFlag (hdrLen src s) fr plen) ↔
      (First src s → s + hdrLen src s + 8 ≤ src.length) ∧
        (¬ (Unchecked src s ∧ More src s) →
          CopyFits src (s + hdrLen src s) dst (d + 40 + fr) (len - hdrLen src s) ∧
            (Unchecked src s ∧ includeFlag = false → d + 40 + fr + 6 + 2 ≤ dst.length ∧ 0 ≤ plen - fr ∧
              ((d + 40 + fr : ℕ) : ℤ) + (plen - fr) ≤ dst.length)) := by
  have hcopy := memcpy_needs src dst (s + hdrLen src s) (d + 40 + fr) (len - hdrLen src s)
  have hend : ∀ fl : Bool, SafeRun (memcpy dst (d + 40 + fr) src (s + hdrLen src s) (len - hdrLen src s) >>= fun dst =>
      if fl = true ∧ ¬includeFlag = true then checksum6 k dst d (d + 40 + fr) 6 (plen - fr) protoUdp
      else pure dst) ↔
      CopyFits src (s + hdrLen src s) dst (d + 40 + fr) (len - hdrLen src s) ∧
        (fl = true ∧ includeFlag = false → d + 40 + fr + 6 + 2 ≤ dst.length ∧ 0 ≤ plen - fr ∧
          ((d + 40 + fr : ℕ) : ℤ) + (plen - fr) ≤ dst.length) := by
    intro fl
    apply hcopy.safe_bind
    intro _ m hm
    have hcheck := (checksum6_needs k m (d + 40 + fr) d 6 (plen - fr) protoUdp).safe
    rw [hm] at hcheck
    by_cases hfl : fl = true ∧ ¬includeFlag = true
    · rw [if_pos hfl, hcheck]
      simp [hfl]
    · rw [if_neg hfl]
      simp only [safe_pure, true_iff]
      intro h
      simp [h] at hfl
  unfold udp4Udp6
  by_cases hfirst : First src s
  · simp only [if_pos hfirst]
    apply ((inside_needs src (s + hdrLen src s + 6) 2).safe_bind _).trans
    · apply and_congr_left
      intro _
      exact ⟨fun h _ => h, fun h => h hfirst⟩
    · intro _ _ _
      by_cases hcheck : field16 src (s + hdrLen src s + 6) ≠ 0
      · rw [if_pos hcheck]
        have hnot : ¬ Unchecked src s := fun h => hcheck h.2
        exact (hend false).trans (by simp [hnot])
      · have hzero : Unchecked src s := ⟨hfirst, not_not.mp hcheck⟩
        rw [if_neg hcheck]
        by_cases hmore : More src s
        · rw [if_pos hmore]
          exact iff_of_true safe_dropped fun h => absurd ⟨hzero, hmore⟩ h
        · rw [if_neg hmore]
          apply (hend true).trans
          constructor
          · rintro ⟨hfits, hsum⟩ _
            exact ⟨hfits, fun h => hsum ⟨rfl, h.2⟩⟩
          · intro h
            obtain ⟨hfits, hsum⟩ := h fun h => hmore h.2
            exact ⟨hfits, fun h => hsum ⟨hzero, h.2⟩⟩
  · have hnot : ¬ Unchecked src s := fun h => hfirst h.1
    simp only [if_neg hfirst]
    exact (hend false).trans (by simp [hfirst, hnot])

/-- The headers are written, and the rest is left to the protocol. -/
theorem ip4Ip6Body_safe (tosIgnoreFlag includeFlag : Bool) {q : Prop}
    (hroom : s + 20 ≤ src.length → d + 40 + fragLen src s includeFlag ≤ dst.length)
    (hq : ∀ dst', dst'.length = dst.length →
      (SafeRun (if byte src (s + 9) = protoIcmp then
          icmp4Icmp6 k inner src s len dst' d includeFlag (hdrLen src s) (fragLen src s includeFlag)
            (((field16 src (s + 2) + fragLen src s includeFlag) % 65536 : ℕ) - hdrLen src s)
        else if byte src (s + 9) = protoTcp then
          memcpy dst' (d + 40 + fragLen src s includeFlag) src (s + hdrLen src s) (len - hdrLen src s)
        else if byte src (s + 9) = protoUdp then
          udp4Udp6 k src s len dst' d includeFlag (hdrLen src s) (fragLen src s includeFlag)
            (((field16 src (s + 2) + fragLen src s includeFlag) % 65536 : ℕ) - hdrLen src s)
        else .error .dropped) ↔ q)) :
    SafeRun (ip4Ip6Body k inner src s len dst d tosIgnoreFlag includeFlag) ↔ s + 20 ≤ src.length ∧ q := by
  apply (inside_needs src s 20).safe_bind
  intro hlong _ _
  have hroom := hroom hlong
  have hhdr : 4 * (byte src s &&& 0x0f).toNat = hdrLen src s := rfl
  simp only [hhdr]
  by_cases hdf : field16 src (s + 6) = ipDf ∨ includeFlag = true
  · simp only [fragLen, if_pos hdf, Nat.add_zero] at hroom hq ⊢
    simp only [hdf, not_true_eq_false, decide_false, Bool.false_eq_true, if_false, pure_bind, Nat.add_zero]
    have hwrite := fun bs : List UInt8 => (write_needs dst d bs).safe_bind (q := q) (fun _ => hq)
    refine (hwrite (ip6Header _ _ _ _ _ _ _)).trans (and_iff_right ?_)
    rwa [ip6Header_length]
  · simp only [fragLen, if_neg hdf] at hroom hq ⊢
    simp only [hdf, not_false_eq_true, decide_true, if_true]
    have hfrag : StepNeeds (write dst (d + 40) (fragHeader src s)) (fun m => m.length = dst.length) True :=
      (write_needs dst (d + 40) (fragHeader src s)).mono (fun _ h => h) (iff_true_intro hroom)
    refine (hfrag.safe_bind fun _ dst₁ h₁ => ?_).trans (iff_of_eq (true_and q))
    have hwrite := fun bs : List UInt8 => (write_needs dst₁ d bs).safe_bind (q := q)
      (fun _ m hm => hq m (hm.trans h₁))
    refine (hwrite (ip6Header _ _ _ _ _ _ _)).trans (and_iff_right ?_)
    rw [ip6Header_length]
    omega

theorem udp4Udp6_keeps (includeFlag : Bool) (hdrLen fr : ℕ) (plen : ℤ) :
    Gives (udp4Udp6 k src s len dst d includeFlag hdrLen fr plen) (fun m => m.length = dst.length) := by
  have hend : ∀ fl : Bool, Gives (memcpy dst (d + 40 + fr) src (s + hdrLen) (len - hdrLen) >>= fun dst =>
      if fl = true ∧ ¬includeFlag = true then checksum6 k dst d (d + 40 + fr) 6 (plen - fr) protoUdp
      else pure dst) (fun m => m.length = dst.length) := by
    intro fl
    refine (memcpy_needs src dst (s + hdrLen) (d + 40 + fr) (len - hdrLen)).gives.bind fun m hm => ?_
    split
    · intro m' hm'
      exact ((checksum6_needs k m (d + 40 + fr) d 6 (plen - fr) protoUdp).of_ok hm').trans hm
    · exact gives_ok hm
  unfold udp4Udp6
  by_cases hfirst : First src s
  · simp only [if_pos hfirst]
    refine (inside_needs src (s + hdrLen + 6) 2).gives.bind fun _ _ => ?_
    split
    · exact hend false
    · split
      · exact gives_error Fault.dropped
      · exact hend true
  · simp only [if_neg hfirst]
    exact hend false

theorem icmp4Icmp6_included (hdrLen fr : ℕ) (plen : ℤ) :
    icmp4Icmp6 k inner src s len dst d true hdrLen fr plen = .error .dropped := if_pos (Or.inr (Or.inr rfl))

end Body

/-! ## The packet inside an ICMP error -/

/-- A header in an ICMP error, behind an outer header of the length `h`: what is read of it is there, and it is not so
short that the data goes behind the end of the buffer. -/
def QuoteFits (src : List UInt8) (h : ℕ) : Prop :=
  let s := h + 8
  let q := hdrLen src s
  s + 20 ≤ src.length ∧
    (byte src (s + 9) = protoTcp → s + q ≤ src.length ∧ 40 ≤ h + q) ∧
    (byte src (s + 9) = protoUdp → (First src s → s + q + 8 ≤ src.length) ∧
      (¬ (Unchecked src s ∧ More src s) → s + q ≤ src.length ∧ 40 ≤ h + q))

section Included
variable (k : Checksums) (tosIgnoreFlag : Bool) (src : List UInt8)

theorem fragLen_included (s : ℕ) : fragLen src s true = 0 := if_pos (Or.inr rfl)

theorem included_safe {h fr : ℕ} {dst : List UInt8} (hdst : dst.length = src.length + 40 + fr)
    (hh : 20 ≤ h) :
    SafeRun (ip4Ip6Included k tosIgnoreFlag src (h + 8) (src.length - h - 8) dst (48 + fr)) ↔ QuoteFits src h := by
  apply ip4Ip6Body_safe
  · rw [fragLen_included]
    omega
  · intro dst' hdst'
    have hfits : CopyFits src (h + 8 + hdrLen src (h + 8)) dst' (48 + fr + 40 + 0)
        (((src.length : ℤ) - h - 8) - hdrLen src (h + 8)) ↔
        h + 8 + hdrLen src (h + 8) ≤ src.length ∧ 40 ≤ h + hdrLen src (h + 8) := by
      rw [CopyFits, hdst', hdst]
      omega
    have hudp : protoUdp ≠ protoTcp := by decide
    rw [icmp4Icmp6_included, fragLen_included]
    by_cases hicmp : byte src (h + 8 + 9) = protoIcmp
    · have hneT : protoIcmp ≠ protoTcp := by decide
      have hneU : protoIcmp ≠ protoUdp := by decide
      rw [if_pos hicmp, hicmp]
      exact iff_of_true safe_dropped ⟨fun h => absurd h hneT, fun h => absurd h hneU⟩
    · rw [if_neg hicmp]
      by_cases htcp : byte src (h + 8 + 9) = protoTcp
      · rw [if_pos htcp, htcp]
        exact ((memcpy_needs _ _ _ _ _).safe.trans hfits).trans (by simp [hudp.symm])
      · rw [if_neg htcp]
        by_cases hu : byte src (h + 8 + 9) = protoUdp
        · rw [if_pos hu, hu, udp4Udp6_safe, hfits]
          simp [hudp]
        · rw [if_neg hu]
          exact iff_of_true safe_dropped ⟨fun h => absurd h htcp, fun h => absurd h hu⟩

theorem included_keeps (s : ℕ) (len : ℤ) (dst : List UInt8) (d : ℕ) :
    Gives (ip4Ip6Included k tosIgnoreFlag src s len dst d) (fun m => m.length = dst.length) := by
  unfold ip4Ip6Included ip4Ip6Body
  refine (inside_needs src s 20).gives.bind fun _ _ => ?_
  simp only [or_true, not_true_eq_false, decide_false, Bool.false_eq_true, if_false, pure_bind]
  refine (write_needs dst d _).gives.bind fun m hm => ?_
  rw [← hm, icmp4Icmp6_included]
  split
  · exact gives_error Fault.dropped
  · split
    · exact (memcpy_needs _ _ _ _ _).gives
    · split
      · exact udp4Udp6_keeps _ _ _ _ _ _ _ _ _ _
      · exact gives_error Fault.dropped

end Included

/-! ## An ICMP message -/

/-- An ICMP error with a type and a code that have a translation. -/
abbrev Translated (src : List UInt8) (i : ℕ) : Prop :=
  byte src i = 3 ∧ byte src (i + 1) ≤ 12 ∨ byte src i = 11 ∨ byte src i = 12

abbrev Echo (src : List UInt8) (i : ℕ) : Prop := byte src i = 8 ∨ byte src i = 0

/-- A message behind a header of the length `h`. -/
def IcmpFits (src : List UInt8) (h : ℕ) : Prop :=
  h + 1 ≤ src.length ∧ (Echo src h → h + 4 ≤ src.length) ∧ (byte src h = 3 → h + 2 ≤ src.length) ∧
    (Translated src h → QuoteFits src h)

section Icmp
variable (k : Checksums) (tosIgnoreFlag : Bool) (src : List UInt8)

theorem codes_le (code : UInt8) (h : code ≤ 12) :
    code ∈ ([0, 1, 5, 6, 7, 8, 11, 12] : List UInt8) ∨ code = 2 ∨ code = 3 ∨ code = 4 ∨ code = 9 ∨ code = 10 := by
  simp only [List.mem_cons, List.not_mem_nil, or_false]
  grind

theorem codes_gt (code : UInt8) (h : ¬ code ≤ 12) :
    code ∉ ([0, 1, 5, 6, 7, 8, 11, 12] : List UInt8) ∧ code ≠ 2 ∧ code ≠ 3 ∧ code ≠ 4 ∧ ¬(code = 9 ∨ code = 10) := by
  have hne : ∀ c : UInt8, c ≤ 12 → code ≠ c := fun c hc heq => h (heq ▸ hc)
  simp [hne]

/-- The fields of a translated error are in its header. -/
theorem icmp6Error_needs {i : ℕ} (h : Translated src i) :
    ∃ p, StepNeeds (icmp6Error src i) (fun fields => ∀ w ∈ fields, w.1 + w.2.length ≤ 8) p ∧
      (i + 8 ≤ src.length → p) := by
  let S : List (ℕ × List UInt8) → Prop := fun fields => ∀ w ∈ fields, w.1 + w.2.length ≤ 8
  have hbind : ∀ (n : ℕ) (r : Run (List (ℕ × List UInt8))), n ≤ 5 →
      (∃ p, StepNeeds r S p ∧ (i + 8 ≤ src.length → p)) →
      ∃ p, StepNeeds (inside src (i + 1) n >>= fun _ => r) S p ∧ (i + 8 ≤ src.length → p) := by
    rintro n r hn ⟨p, hr, hp⟩
    refine ⟨_, (inside_needs src (i + 1) n).bind fun _ _ _ => hr, fun hlong => ⟨by omega, hp hlong⟩⟩
  have hfields : ∀ fields : List (ℕ × List UInt8), fields.Forall (fun w => w.1 + w.2.length ≤ 8) →
      ∃ p, StepNeeds (pure fields : Run _) S p ∧ (i + 8 ≤ src.length → p) :=
    fun _ h => ⟨True, Needs.ok (List.forall_iff_forall_mem.mp h), fun _ => trivial⟩
  rw [icmp6Error]
  rcases h with ⟨h3, hcode⟩ | h11 | h12
  · rw [if_pos h3]
    apply hbind 1 _ (by omega)
    rcases codes_le _ hcode with hno | h2 | h3' | h4 | h910
    · rw [if_pos hno]
      exact hfields _ (by simp)
    · simp only [h2, if_true]
      exact hfields _ (by simp)
    · simp only [h3', if_true]
      exact hfields _ (by simp)
    · simp only [h4, if_true]
      have hset : ∀ mtu : ℕ, S [(0, [1]), (4, beBytes 0), (0, [2]), (1, [0]), (4, beBytes (if mtu = 0 then 576 else mtu + 20))] :=
        fun _ => List.forall_iff_forall_mem.mp (by simp)
      exact ⟨_, (inside_needs src (i + 6) 2).bind fun _ _ _ => Needs.ok (hset _), fun hlong => ⟨hlong, trivial⟩⟩
    · rcases h910 with h9 | h10
      · simp only [h9, true_or, if_true]
        exact hfields _ (by simp)
      · simp only [h10, or_true, if_true]
        exact hfields _ (by simp)
  · rw [h11]
    exact hbind 1 _ (by omega) (hfields _ (by simp))
  · rw [h12]
    exact hbind 5 _ (by omega) (hfields _ (by simp))

theorem icmp6Error_dropped {i : ℕ} (h : ¬ Translated src i) :
    (SafeRun (icmp6Error src i) ↔ (byte src i = 3 → i + 2 ≤ src.length)) ∧ Gives (icmp6Error src i) fun _ => False := by
  rw [icmp6Error]
  by_cases h3 : byte src i = 3
  · have hcode : ¬ byte src (i + 1) ≤ 12 := fun hle => h (Or.inl ⟨h3, hle⟩)
    obtain ⟨hno, h2, h3', h4, h910⟩ := codes_gt _ hcode
    simp only [if_pos h3, if_neg hno, if_neg h2, if_neg h3', if_neg h4, if_neg h910]
    constructor
    · refine ((inside_needs src (i + 1) 1).safe_bind (q := True) ?_).trans ?_
      · intro _ _ _
        simp
      · simp only [h3, true_implies, and_true]
    · refine (inside_needs src (i + 1) 1).gives.bind fun _ _ => ?_
      exact gives_error Fault.dropped
  · have h11 : byte src i ≠ 11 := fun h11 => h (Or.inr (Or.inl h11))
    have h12 : byte src i ≠ 12 := fun h12 => h (Or.inr (Or.inr h12))
    rw [if_neg h3, if_neg h11, if_neg h12]
    exact ⟨iff_of_true safe_dropped fun h => absurd h h3, gives_error Fault.dropped⟩

/-- An ICMP message that is not in a fragment, in the buffer that has room for the growth of the headers. -/
theorem icmp4Icmp6_safe (h : ValidHeader src) {fr : ℕ} (plen : ℤ) {dst : List UInt8}
    (hdst : dst.length = src.length + 20 + fr + if Echo src (hdrLen src 0) then 0 else 20) :
    SafeRun (icmp4Icmp6 k (ip4Ip6Included k tosIgnoreFlag src) src 0 src.length dst 0 false (hdrLen src 0) fr plen) ↔
      (First src 0 ∧ ¬ More src 0 → IcmpFits src (hdrLen src 0)) := by
  have hihl := h.ihl
  have hfits := h.fits
  have htot := h.totLen
  unfold icmp4Icmp6
  by_cases hfrag : First src 0 ∧ ¬ More src 0
  · have hkept : ¬(field16 src (0 + 6) &&& ipOffset ≠ 0 ∨ field16 src (0 + 6) &&& ipMf ≠ 0 ∨ (false : Bool) = true) := by
      rintro (hoffset | hmore | hfalse)
      · exact hoffset hfrag.1
      · exact hfrag.2 hmore
      · cases hfalse
    simp only [if_neg hkept, Nat.zero_add, htot]
    refine Iff.trans ?_ (forall_prop_of_true hfrag).symm
    generalize hh : hdrLen src 0 = hl at *
    refine (inside_needs src hl 1).safe_bind ?_
    intro hlong _ _
    by_cases hecho : Echo src hl
    · have h3 : byte src hl ≠ 3 := by rcases hecho with h8 | h0 <;> simp [*]
      have ht : ¬ Translated src hl := by rcases hecho with h8 | h0 <;> simp [*]
      have hroom : dst.length = src.length + 20 + fr := by rw [hdst, if_pos hecho, Nat.add_zero]
      rw [if_pos hecho]
      refine ((write_needs dst (40 + fr) _).safe_bind (q := hl + 4 ≤ src.length) ?_).trans ?_
      · intro _ dst₁ h₁
        refine ((memcpy_needs src dst₁ (hl + 4) (40 + fr + 4) _).safe_bind (q := True) ?_).trans ?_
        · intro hcopy dst₂ h₂
          refine (checksum6_needs k dst₂ (40 + fr) 0 2 _ nexthdrIcmp).safe.trans (iff_true_intro ?_)
          omega
        · rw [h₁, hroom, and_true]
          omega
      · simp only [hecho, h3, ht, List.length_cons, List.length_nil, true_implies, false_implies, and_true]
        omega
    · rw [if_neg hecho]
      by_cases ht : Translated src hl
      · have hroom : dst.length = src.length + 40 + fr := by rw [hdst, if_neg hecho]; omega
        obtain ⟨p, hneeds, hp⟩ := icmp6Error_needs src ht
        refine (hneeds.safe_bind (q := QuoteFits src hl) ?_).trans ?_
        · intro _ fields hfields
          have hwrites : StepNeeds (writeFields dst (40 + fr) fields) (fun m => m.length = dst.length) True := by
            apply writeFields_needs
            intro w hw
            have hend := hfields w hw
            omega
          refine (hwrites.safe_bind fun _ dst₁ h₁ => ?_).trans (iff_of_eq (true_and _))
          have hto : 40 + fr + 8 = 48 + fr := by omega
          have hquote := included_safe k tosIgnoreFlag src (h₁.trans hroom) hihl
          rw [hto]
          refine (safe_bind_of_ok fun dst₂ hok => ?_).trans hquote
          have h₂ := (included_keeps k tosIgnoreFlag src _ _ dst₁ _ dst₂ hok).trans h₁
          -- the length and the checksum of the message are in the buffer
          have hlength : (htons (plen + 20)).length = 2 := half_length _
          refine ((write_needs dst₂ 4 (htons (plen + 20))).safe_bind fun _ dst₃ h₃ => ?_).mpr ⟨?_, trivial⟩
          · refine (checksum6_needs k dst₃ (40 + fr) 0 2 _ nexthdrIcmp).safe.trans (iff_true_intro ?_)
            omega
          · omega
        · simp only [hecho, ht, false_implies, true_implies, true_and]
          constructor
          · rintro ⟨-, hquote⟩
            have hfar := hquote.1
            exact ⟨by omega, hquote⟩
          · rintro ⟨-, hquote⟩
            have hfar := hquote.1
            exact ⟨hp (by omega), hquote⟩
      · obtain ⟨hsafe, hnone⟩ := icmp6Error_dropped src ht
        refine (safe_bind_of_ok fun fields hok => (hnone fields hok).elim).trans (hsafe.trans ?_)
        simp only [hecho, ht, false_implies, true_and, and_true]
  · have hdropped : field16 src (0 + 6) &&& ipOffset ≠ 0 ∨ field16 src (0 + 6) &&& ipMf ≠ 0 ∨ (false : Bool) = true := by
      by_cases hfirst : First src 0
      · exact Or.inr (Or.inl (not_not.mp fun hmore => hfrag ⟨hfirst, hmore⟩))
      · exact Or.inl hfirst
    rw [if_pos hdropped]
    exact iff_of_true safe_dropped fun h => absurd h hfrag

end Icmp

/-! ## The whole packet -/

/-- What is read of a packet is there. A missing UDP checksum is computed over the length in the new header, which
has 16 bits. -/
def Fits4 (src : List UInt8) : Prop :=
  (byte src 9 = protoIcmp → First src 0 ∧ ¬ More src 0 → IcmpFits src (hdrLen src 0)) ∧
    (byte src 9 = protoUdp → (First src 0 → hdrLen src 0 + 8 ≤ src.length) ∧
      (Unchecked src 0 ∧ ¬ More src 0 → src.length + fragLen src 0 false < 65536))

theorem skbDelta_fragLen (src : List UInt8) : skbDelta src = 20 + fragLen src 0 false +
    if byte src 9 = protoIcmp ∧ ¬ Echo src (hdrLen src 0) then 20 else 0 := by
  have hdf : field16 src (0 + 6) = ipDf ∨ (false : Bool) = true ↔ field16 src 6 = ipDf := by simp
  simp only [skbDelta, fragLen, hdf, hdrLen, not_or]
  split_ifs <;> rfl

theorem udp_fits {src dst : List UInt8} (h : ValidHeader src) (hdst : dst.length = src.length + 20 + fragLen src 0 false) :
    ((First src 0 → 0 + hdrLen src 0 + 8 ≤ src.length) ∧
      (¬ (Unchecked src 0 ∧ More src 0) →
        CopyFits src (0 + hdrLen src 0) dst (0 + 40 + fragLen src 0 false) ((src.length : ℤ) - hdrLen src 0) ∧
          (Unchecked src 0 ∧ (false : Bool) = false → 0 + 40 + fragLen src 0 false + 6 + 2 ≤ dst.length ∧
            0 ≤ (((field16 src (0 + 2) + fragLen src 0 false) % 65536 : ℕ) : ℤ) - hdrLen src 0 - fragLen src 0 false ∧
            ((0 + 40 + fragLen src 0 false : ℕ) : ℤ) + ((((field16 src (0 + 2) + fragLen src 0 false) % 65536 : ℕ) : ℤ) -
              hdrLen src 0 - fragLen src 0 false) ≤ dst.length))) ↔
      (First src 0 → hdrLen src 0 + 8 ≤ src.length) ∧
        (Unchecked src 0 ∧ ¬ More src 0 → src.length + fragLen src 0 false < 65536) := by
  have hihl := h.ihl
  have hfits := h.fits
  have hshort : src.length < 65536 := by
    rw [← h.totLen]
    exact field16_lt src 2
  rw [Nat.zero_add, Nat.zero_add, Nat.zero_add, h.totLen]
  generalize hdrLen src 0 = hl at *
  generalize fragLen src 0 false = fr at *
  apply and_congr_right
  intro hfirst
  constructor
  · rintro hall ⟨hcheck, hmore⟩
    obtain ⟨-, hsum⟩ := hall fun h => hmore h.2
    have hplen := (hsum ⟨hcheck, rfl⟩).2.1
    omega
  · intro hlen hkept
    refine ⟨by omega, ?_⟩
    rintro ⟨hcheck, -⟩
    have hlong := hfirst hcheck.1
    have hsum := hlen ⟨hcheck, fun hmore => hkept ⟨hcheck, hmore⟩⟩
    have hmod : (src.length + fr) % 65536 = src.length + fr := Nat.mod_eq_of_lt hsum
    rw [hmod]
    omega

/-- With the buffer of `siit_xmit`, `ip4_ip6` stays in its buffers exactly for these packets. -/
theorem ip4_ip6_inside_iff (k : Checksums) (tosIgnoreFlag : Bool) (src : List UInt8) (h : ValidHeader src)
    (dst : List UInt8) (hdst : dst.length = src.length + skbDelta src) :
    SafeRun (ip4Ip6 k tosIgnoreFlag src src.length dst) ↔ Fits4 src := by
  have hihl := h.ihl
  have hfits := h.fits
  have hlong : 0 + 20 ≤ src.length := by omega
  rw [skbDelta_fragLen] at hdst
  refine (ip4Ip6Body_safe (q := Fits4 src) k _ src 0 src.length dst 0 tosIgnoreFlag false ?_ ?_).trans
    (and_iff_right hlong)
  · intro _
    omega
  · intro dst' hdst'
    rw [Fits4]
    have hneT : protoTcp ≠ protoIcmp := by decide
    have hneU : protoUdp ≠ protoIcmp := by decide
    have hneTU : protoTcp ≠ protoUdp := by decide
    by_cases hicmp : byte src 9 = protoIcmp
    · have hroom : dst'.length = src.length + 20 + fragLen src 0 false + if Echo src (hdrLen src 0) then 0 else 20 := by
        rw [hdst', hdst]
        simp only [hicmp, true_and, ite_not]
        omega
      rw [if_pos hicmp, hicmp]
      refine (icmp4Icmp6_safe k tosIgnoreFlag src h _ hroom).trans ?_
      simp [hneU.symm]
    · have hroom : dst'.length = src.length + 20 + fragLen src 0 false := by
        rw [hdst', hdst]
        simp only [hicmp, false_and, if_false]
        omega
      rw [if_neg hicmp]
      by_cases htcp : byte src 9 = protoTcp
      · rw [if_pos htcp, htcp]
        refine (memcpy_needs _ _ _ _ _).safe.trans (iff_of_true ?_ ⟨fun h => absurd h hneT, fun h => absurd h hneTU⟩)
        omega
      · rw [if_neg htcp]
        by_cases hudp : byte src 9 = protoUdp
        · rw [if_pos hudp, hudp]
          refine (udp4Udp6_safe _ _ _ _ _ _ _ _ _).trans ((udp_fits h hroom).trans ?_)
          simp [hneU]
        · rw [if_neg hudp]
          exact iff_of_true safe_dropped ⟨fun h => absurd h hicmp, fun h => absurd h hudp⟩

theorem echoRequest_valid : ValidHeader (echoRequest 0xf7fe 0) := ⟨by decide, by decide, by decide⟩

theorem ip4_ip6_inside_echo :
    SafeRun (ip4Ip6 kernelChecksums false (echoRequest 0xf7fe 0) (echoRequest 0xf7fe 0).length (List.replicate 48 0)) ↔
      Fits4 (echoRequest 0xf7fe 0) :=
  ip4_ip6_inside_iff kernelChecksums false (echoRequest 0xf7fe 0) echoRequest_valid (List.replicate 48 0) (by decide)

/-- An echo request of two bytes. -/
def shortEcho : List UInt8 :=
  [0x45, 0, 0, 22, 0, 0, 0x40, 0, 64, 1, 0, 0, 10, 0, 0, 1, 10, 0, 0, 2, 8, 0]

/-- The rest behind its type, code and checksum has the length -2. -/
theorem ip4_ip6_short_echo : ValidHeader shortEcho ∧
    ip4Ip6 kernelChecksums false shortEcho shortEcho.length (List.replicate (shortEcho.length + skbDelta shortEcho) 0) =
      .error .negativeLength :=
  ⟨⟨by decide, by decide, by decide⟩, by decide +kernel⟩

end Neufbox.Siit
