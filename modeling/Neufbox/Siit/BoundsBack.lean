import Neufbox.Siit.Extensions

/-! # What `ip6_ip4` touches

`siit_xmit` hands on a packet of any length, and has 2048 bytes for the translation. The headers are checked against
the length, most of them; that the rest fits the buffer is not checked, nor is the length field that the checksum of an
ICMP message goes by. -/
namespace Neufbox.Siit
open Blocks Guarded ByteStore OnesComplement
set_option autoImplicit false
set_option maxHeartbeats 250000
set_option maxRecDepth 120000

/-! ## Conditions -/

def buffSize : ℕ := 2048

section Conditions
variable (src : List UInt8) (s d : ℕ) (includeFlag : Bool)

/-- The total length for the IPv4 header, where the headers of IPv6 end at `i`. -/
def ntotLen (i : ℕ) : ℤ := if field16 src (s + 4) = 0 then 0 else field16 src (s + 4) + 20 - (i - (s + 40) : ℕ)

/-- The checksum of an ICMP message goes over the length in the header, where there is one. -/
def SumFits (ntot tot : ℤ) : Prop := ntot ≠ 0 → 20 ≤ tot % 65536 ∧ d + tot % 65536 ≤ buffSize

abbrev Echo6 (i : ℕ) : Prop := byte src i = 128 ∨ byte src i = 129

/-- An ICMPv6 error with a translation. -/
abbrev Error6 (i : ℕ) : Prop :=
  byte src i = 1 ∧ byte src (i + 1) ≤ 4 ∨ byte src i = 2 ∨ byte src i = 3 ∨ byte src i = 4

/-- The addresses have the prefix of the translator. -/
def Addressed : Prop :=
  bytes4 src (s + 16) = beBytes (if includeFlag then mappedPrefix else translatedPrefix) ∧
    bytes4 src (s + 32) = beBytes (if includeFlag then translatedPrefix else mappedPrefix)

/-- A message at `i`: an echo fits the buffer, and the packet that an error quotes meets its own condition; with the
options of that packet, too, the length that is left is one that can be summed. -/
def IcmpFits6 (innerFits : ℕ → Prop) (innerOpts : ℕ → ℤ → Prop) (i : ℕ) : Prop :=
  (Echo6 src i → d + 20 + (src.length - i) ≤ buffSize ∧ SumFits d (ntotLen src s i) (ntotLen src s i)) ∧
    (Error6 src i → if i + 48 ≤ src.length then
        innerFits (i + 8) ∧ ∀ o, innerOpts (i + 8) o → SumFits d (ntotLen src s i) (ntotLen src s i - o - 20)
      else SumFits d (ntotLen src s i) (ntotLen src s i))

/-- What is behind the headers. -/
def PayloadFits (innerFits : ℕ → Prop) (innerOpts : ℕ → ℤ → Prop) (p : Place) : Prop :=
  p.1 < src.length → if p.2 = nexthdrIcmp then
      p.1 + 8 ≤ src.length → (includeFlag = true → byte src p.1 = 128) → IcmpFits6 src s d innerFits innerOpts p.1
    else d + 20 + (src.length - p.1) ≤ buffSize

def BodyFits (innerFits : ℕ → Prop) (innerOpts : ℕ → ℤ → Prop) : Prop :=
  Addressed src s includeFlag → HeadersFit src s ∧
    ∀ p, Behind src s p → PayloadFits src s d includeFlag innerFits innerOpts p

/-- ICMP in a quoted packet is dropped, but for an echo request. -/
def QuoteKept (p : Place) : Prop :=
  p.2 = nexthdrIcmp → p.1 < src.length → p.1 + 8 ≤ src.length ∧ byte src p.1 = 128

/-- The packet in an ICMP error, which goes behind the headers of the error. -/
def QuotedFits : Prop := BodyFits src s 28 true (fun _ => True) (fun _ _ => False)

/-- The length of the options of the quoted packet, if that is translated. -/
def QuotedOpts (o : ℤ) : Prop :=
  Addressed src s true ∧ ∃ p, Behind src s p ∧ QuoteKept src p ∧ o = (p.1 - (s + 40) : ℕ)

end Conditions

/-- The packets that are translated or dropped in their bounds. -/
def PacketFits (src : List UInt8) : Prop :=
  40 ≤ src.length → BodyFits src 0 0 false (QuotedFits src) (QuotedOpts src)

/-! ## The steps behind the headers -/

section Payload
variable (k : Checksums) (host : ByteOrder) (tosIgnoreFlag : Bool) (src : List UInt8) (s d : ℕ) (st : Ext)

theorem ip4HeaderChecked_length (totLen : ℤ) (protocol : UInt8) :
    (ip4HeaderChecked k tosIgnoreFlag src s st totLen protocol).length = 20 := rfl

/-- The headers have room in the buffer. -/
theorem write_room {m bs : List UInt8} {i : ℕ} (hm : m.length = buffSize) (hi : i + bs.length ≤ 56) :
    StepNeeds (write m i bs) (fun m' => m'.length = buffSize) True := by
  refine (write_needs m i bs).mono (fun m' hm' => hm'.trans hm) (iff_true_intro ?_)
  rw [hm, buffSize]
  omega

theorem icmp4Finish_needs {dst : List UInt8} (hd : d ≤ 28) (hdst : dst.length = buffSize) (ntot tot : ℤ) :
    StepNeeds (icmp4Finish k tosIgnoreFlag src s d st ntot tot dst) (fun m => m.length = buffSize)
      (SumFits d ntot tot) := by
  have hheader : StepNeeds (write dst d (ip4HeaderChecked k tosIgnoreFlag src s st tot protoIcmp))
      (fun m => m.length = buffSize) True := write_room hdst (by rw [ip4HeaderChecked_length]; omega)
  unfold icmp4Finish
  by_cases hzero : ntot = 0
  · have hall := hheader.bind (q := True) (f := fun dst => pure dst) (T := fun m => m.length = buffSize)
      fun _ m hm => Needs.ok hm
    simp only [if_pos hzero]
    exact hall.mono (fun _ h => h) (iff_of_true ⟨trivial, trivial⟩ fun h => absurd hzero h)
  · simp only [if_neg hzero]
    have hset : ∀ (m : List UInt8) (n : ℕ), m.length = buffSize →
        StepNeeds (write m (d + 22) (half n)) (fun m => m.length = buffSize) True :=
      fun m n hm => write_room hm (by rw [half_length]; omega)
    have hbody : ∀ m : List UInt8, m.length = buffSize → StepNeeds (region m (d + 20) (tot % 65536 - 20)) (fun _ => True)
        (0 ≤ tot % 65536 - 20 ∧ (d + 20 : ℕ) + (tot % 65536 - 20) ≤ buffSize) := by
      intro m hm
      rw [← hm]
      exact (region_needs m (d + 20) (tot % 65536 - 20)).mono (fun _ _ => trivial) Iff.rfl
    have hall := hheader.bind fun _ m hm => (hset m 0 hm).bind fun _ m' hm' => (hbody m' hm').bind fun _ body _ =>
      hset m' (k.ipComputeCsum body) hm'
    refine hall.mono (fun _ h => h) ?_
    simp only [SumFits, ne_eq, hzero, not_false_eq_true, true_implies, true_and, and_true]
    omega

theorem codes6_le (code : UInt8) (h : code ≤ 4) : (code = 0 ∨ code = 2 ∨ code = 3) ∨ code = 1 ∨ code = 4 := by
  grind

theorem codes6_gt (code : UInt8) (h : ¬ code ≤ 4) : ¬ (code = 0 ∨ code = 2 ∨ code = 3) ∧ code ≠ 1 ∧ code ≠ 4 := by
  have hne : ∀ c : UInt8, c ≤ 4 → code ≠ c := fun c hc heq => h (heq ▸ hc)
  simp [hne]

theorem not_error6_of_echo6 {src : List UInt8} {i : ℕ} (h : Echo6 src i) : ¬ Error6 src i := by
  rcases h with h | h
  · simp [h]
  · simp [h]

/-- The fields of a translated error are in its header. -/
theorem icmp4Error_fields {i : ℕ} (h : Error6 src i) :
    ∃ fields, icmp4Error host src i = .ok fields ∧ ∀ w ∈ fields, w.1 + w.2.length ≤ 8 := by
  have hhalf : ∀ n, (hostHalf host n).length = 2 := by
    intro n
    cases host <;> rfl
  have htruncated : (truncated host src (i + 4)).length = 2 := by
    cases host <;> rfl
  have hfields : ∀ fields : List (ℕ × List UInt8), fields.Forall (fun w => w.1 + w.2.length ≤ 8) →
      ∃ fs, (.ok fields : Run _) = .ok fs ∧ ∀ w ∈ fs, w.1 + w.2.length ≤ 8 :=
    fun fields h => ⟨fields, rfl, List.forall_iff_forall_mem.mp h⟩
  rw [icmp4Error]
  rcases h with ⟨h1, hcode⟩ | h2 | h3 | h4
  · rw [if_pos h1]
    rcases codes6_le _ hcode with hno | hadm | hport
    · rw [if_pos hno]
      exact hfields _ (by simp)
    · rw [hadm]
      exact hfields _ (by simp)
    · rw [hport]
      exact hfields _ (by simp)
  · rw [h2]
    exact hfields _ (by simp [htruncated])
  · rw [h3]
    exact hfields _ (by simp)
  · rw [h4]
    by_cases hnext : byte src (i + 1) = 1
    · rw [hnext]
      exact hfields _ (by simp)
    · rw [if_neg (by decide), if_neg (by decide), if_neg (by decide), if_pos rfl, if_neg hnext]
      exact hfields _ (by simp [hhalf])

theorem icmp4Error_dropped {i : ℕ} (h : ¬ Error6 src i) : icmp4Error host src i = .error .dropped := by
  rw [icmp4Error]
  simp only [Error6, not_or, not_and] at h
  obtain ⟨hone, h2, h3, h4⟩ := h
  by_cases h1 : byte src i = 1
  · obtain ⟨hno, hadm, hport⟩ := codes6_gt _ (hone h1)
    rw [if_pos h1, if_neg hno, if_neg hadm, if_neg hport]
  · rw [if_neg h1, if_neg h2, if_neg h3, if_neg h4]

variable {src s d st}

section Message
variable {dst : List UInt8} {includeFlag : Bool} (ntot : ℤ) (inner : Inner (List UInt8 × ℤ)) (hst : st.Sound src s)
  (hd : d ≤ 28) (hdst : dst.length = buffSize)

include hst in
/-- A message that is shorter than its header is dropped, and so is one in a quoted packet, but for an echo request. -/
theorem icmp6Icmp4_dropped
    (h : ¬ (s + 40 + st.optsLen + 8 ≤ src.length ∧ (includeFlag = true → byte src (s + 40 + st.optsLen) = 128))) :
    icmp6Icmp4 k host tosIgnoreFlag inner src s dst d includeFlag st ntot = .error .dropped := by
  have hleft := hst.left
  unfold icmp6Icmp4
  dsimp only
  by_cases h8 : s + 40 + st.optsLen + 8 ≤ src.length
  · have hquoted : includeFlag = true ∧ byte src (s + 40 + st.optsLen) ≠ 128 := by
      by_contra hnot
      exact h ⟨h8, fun hinc => not_not.mp fun htype => hnot ⟨hinc, htype⟩⟩
    rw [if_neg (by omega), inside_ok h8, ok_bind, if_pos hquoted]
    rfl
  · rw [if_pos (by omega)]

include hst hd in
/-- The data behind the header of a message is copied where there is some. -/
theorem data_needs (h8 : s + 40 + st.optsLen + 8 ≤ src.length) {m : List UInt8} (hm : m.length = buffSize) :
    StepNeeds (if 0 < st.lenDelta - 8 then memcpy m (d + 20 + 8) src (s + 40 + st.optsLen + 8) (st.lenDelta - 8)
      else pure m) (fun m => m.length = buffSize) (d + 20 + (src.length - (s + 40 + st.optsLen)) ≤ buffSize) := by
  have hleft := hst.left
  by_cases hdata : 0 < st.lenDelta - 8
  · rw [if_pos hdata]
    refine (memcpy_needs src m (s + 40 + st.optsLen + 8) (d + 20 + 8) _).mono (fun m' hm' => hm'.trans hm) ?_
    rw [hm]
    omega
  · rw [if_neg hdata]
    refine (Needs.ok (S := fun m : List UInt8 => m.length = buffSize) hm).mono (fun _ h => h) ?_
    rw [buffSize]
    exact iff_of_true trivial (by omega)

include hst hd hdst in
theorem icmp6Icmp4_echo_needs (h8 : s + 40 + st.optsLen + 8 ≤ src.length)
    (hkept : includeFlag = true → byte src (s + 40 + st.optsLen) = 128) (hecho : Echo6 src (s + 40 + st.optsLen)) :
    StepNeeds (icmp6Icmp4 k host tosIgnoreFlag inner src s dst d includeFlag st ntot)
      (fun r => r.1.length = buffSize ∧ r.2 = 20 + (src.length - (s + 40 + st.optsLen : ℕ)))
      (d + 20 + (src.length - (s + 40 + st.optsLen)) ≤ buffSize ∧ SumFits d ntot ntot) := by
  have hleft := hst.left
  have hnot : ¬ (includeFlag = true ∧ byte src (s + 40 + st.optsLen) ≠ 128) := fun h => h.2 (hkept h.1)
  have hfinish : ∀ m : List UInt8, m.length = buffSize →
      StepNeeds (icmp4Finish k tosIgnoreFlag src s d st ntot ntot m >>= fun dst => pure (dst, 20 + (st.lenDelta - 8 + 8)))
        (fun r => r.1.length = buffSize ∧ r.2 = 20 + (src.length - (s + 40 + st.optsLen : ℕ))) (SumFits d ntot ntot ∧ True) := by
    intro m hm
    refine (icmp4Finish_needs k tosIgnoreFlag src s d st hd hm ntot ntot).bind fun _ m' hm' => Needs.ok ⟨hm', ?_⟩
    dsimp only
    omega
  have htype : StepNeeds (write dst (d + 20) [if byte src (s + 40 + st.optsLen) = 128 then 8 else 0, 0])
      (fun m => m.length = buffSize) True := write_room hdst (by simp only [List.length_cons, List.length_nil]; omega)
  have hid : ∀ m : List UInt8, m.length = buffSize →
      StepNeeds (write m (d + 20 + 4) (bytes4 src (s + 40 + st.optsLen + 4))) (fun m => m.length = buffSize) True :=
    fun m hm => write_room hm (by simp only [bytes4, List.length_cons, List.length_nil]; omega)
  have hall := htype.bind fun _ m₁ h₁ => (hid m₁ h₁).bind fun _ m₂ h₂ =>
    (data_needs hst hd h8 h₂).bind fun _ m₃ h₃ => hfinish m₃ h₃
  unfold icmp6Icmp4
  dsimp only
  rw [if_neg (by omega), inside_ok h8, ok_bind, if_neg hnot, if_pos hecho]
  simp only [ite_bind] at hall
  exact hall.mono (fun _ h => h) (by simp only [true_and, and_true])

/-- What the call for the quoted packet does. -/
structure InnerSpec (src : List UInt8) (d : ℕ) (inner : Inner (List UInt8 × ℤ)) (innerFits : ℕ → Prop)
    (innerOpts : ℕ → ℤ → Prop) : Prop where
  safe : ∀ {s dst}, s + 40 ≤ src.length → dst.length = buffSize →
    (SafeRun (inner s (src.length - s) dst (d + 28)) ↔ innerFits s)
  gives : ∀ {s dst}, s + 40 ≤ src.length → dst.length = buffSize → Gives (inner s (src.length - s) dst (d + 28)) fun r =>
    r.1.length = buffSize ∧ innerOpts s r.2 ∧ 0 ≤ r.2 ∧ s + 40 + r.2 ≤ src.length ∧ src.length - s - r.2 + 8 ≤ buffSize
  ok : ∀ {s dst}, s + 40 ≤ src.length → dst.length = buffSize → innerFits s → ∀ o, innerOpts s o →
    ∃ m, inner s (src.length - s) dst (d + 28) = .ok (m, o)

include hst hd hdst in
theorem icmp6Icmp4_error {innerFits : ℕ → Prop} {innerOpts : ℕ → ℤ → Prop}
    (hinner : InnerSpec src d inner innerFits innerOpts) (h8 : s + 40 + st.optsLen + 8 ≤ src.length)
    (hecho : ¬ Echo6 src (s + 40 + st.optsLen)) :
    (SafeRun (icmp6Icmp4 k host tosIgnoreFlag inner src s dst d false st ntot) ↔
      (Error6 src (s + 40 + st.optsLen) → if s + 40 + st.optsLen + 48 ≤ src.length then
        innerFits (s + 40 + st.optsLen + 8) ∧
          ∀ o, innerOpts (s + 40 + st.optsLen + 8) o → SumFits d ntot (ntot - o - 20)
        else SumFits d ntot ntot)) ∧
    Gives (icmp6Icmp4 k host tosIgnoreFlag inner src s dst d false st ntot) fun r =>
      r.1.length = buffSize ∧ 20 ≤ r.2 ∧ r.2 ≤ buffSize := by
  have hleft := hst.left
  have hfinish : ∀ (m : List UInt8) (tot real : ℤ), m.length = buffSize →
      StepNeeds (icmp4Finish k tosIgnoreFlag src s d st ntot tot m >>= fun dst => pure (dst, real))
        (fun r => r.1.length = buffSize ∧ r.2 = real) (SumFits d ntot tot) := by
    intro m tot real hm
    exact ((icmp4Finish_needs k tosIgnoreFlag src s d st hd hm ntot tot).bind fun _ m' hm' =>
      Needs.ok ⟨hm', rfl⟩).mono (fun _ h => h) (iff_of_eq (and_true _))
  unfold icmp6Icmp4
  dsimp only
  rw [if_neg (by omega), inside_ok h8, ok_bind, if_neg (by simp), if_neg hecho]
  by_cases herror : Error6 src (s + 40 + st.optsLen)
  · obtain ⟨fields, hfields, hin⟩ := icmp4Error_fields host src herror
    have hwrites : StepNeeds (writeFields dst (d + 20) fields) (fun m => m.length = buffSize) True := by
      refine (writeFields_needs dst (d + 20) fun w hw => ?_).mono (fun _ h => h.trans hdst) Iff.rfl
      have hend := hin w hw
      rw [hdst, buffSize]
      omega
    obtain ⟨m, hm, hlen⟩ := hwrites.result trivial
    rw [hfields, ok_bind, hm, ok_bind]
    by_cases hquote : s + 40 + st.optsLen + 48 ≤ src.length
    · have hto : d + 20 + 8 = d + 28 := by omega
      have hrest : st.lenDelta - 8 = src.length - (s + 40 + st.optsLen + 8 : ℕ) := by omega
      have hsafe := hinner.safe (s := s + 40 + st.optsLen + 8) (by omega) hlen
      have hgives := hinner.gives (s := s + 40 + st.optsLen + 8) (by omega) hlen
      have hok := hinner.ok (s := s + 40 + st.optsLen + 8) (by omega) hlen
      rw [if_pos (by omega), hto, hrest]
      simp only [herror, true_implies, if_pos hquote]
      constructor
      · refine (safe_bind_iff.trans (and_congr_left' hsafe)).trans ?_
        apply and_congr_right
        intro hfits
        constructor
        · intro hall o ho
          obtain ⟨m', hrun⟩ := hok hfits o ho
          have hsum := (hfinish m' (if ntot ≠ 0 then ntot - o - 20 else ntot) _ (hgives (m', o) hrun).1).safe.mp
            (hall (m', o) hrun)
          intro hne
          have hin := hsum hne
          rwa [if_pos hne] at hin
        · rintro hall ⟨m', o⟩ hrun
          obtain ⟨hlen', ho, -⟩ := hgives _ hrun
          refine (hfinish m' _ _ hlen').safe.mpr fun hne => ?_
          rw [if_pos hne]
          exact hall o ho hne
      · refine hgives.bind ?_
        rintro ⟨m', o⟩ ⟨hlen', -, hpos, hin', hroom⟩
        refine (hfinish m' _ _ hlen').gives.mono ?_
        rintro r ⟨hlen'', hreal⟩
        dsimp only at hin' hroom hpos
        exact ⟨hlen'', by omega, by omega⟩
    · have hroom : d + 20 + (src.length - (s + 40 + st.optsLen)) ≤ buffSize := by
        rw [buffSize]
        omega
      have hall := ((data_needs hst hd h8 hlen).mono (fun _ h => h) (iff_true_intro hroom)).bind fun _ m' hm' => hfinish m' ntot (20 + (st.lenDelta - 8 + 8)) hm'
      simp only [ite_bind] at hall
      rw [if_neg (by omega)]
      simp only [herror, true_implies, if_neg hquote]
      constructor
      · exact hall.safe.trans (iff_of_eq (true_and _))
      · refine hall.gives.mono ?_
        rintro r ⟨hlen', hreal⟩
        rw [buffSize]
        exact ⟨hlen', by omega, by omega⟩
  · rw [icmp4Error_dropped host src herror, error_bind]
    exact ⟨iff_of_true safe_dropped fun h => absurd h herror, gives_error Fault.dropped⟩

/-- What is done for the place behind the headers. -/
def payloadRun (k : Checksums) (host : ByteOrder) (tosIgnoreFlag : Bool) (src : List UInt8) (s : ℕ) (dst : List UInt8)
    (d : ℕ) (includeFlag : Bool) (st : Ext) : Run (List UInt8 × ℤ) :=
  if 0 < st.lenDelta then
    if st.nextHdr = nexthdrIcmp then
      icmp6Icmp4 k host tosIgnoreFlag inner src s dst d includeFlag st (ntotLen src s (s + 40 + st.optsLen))
    else memcpy dst (d + 20) src (s + 40 + st.optsLen) st.lenDelta >>= fun m => pure (m, 20 + st.lenDelta)
  else pure (dst, 20)

variable (includeFlag) in
include hst hd hdst in
theorem payloadRun_copy (hnext : st.nextHdr ≠ nexthdrIcmp) :
    StepNeeds (payloadRun inner k host tosIgnoreFlag src s dst d includeFlag st)
      (fun r => r.1.length = buffSize ∧ r.2 = 20 + (src.length - (s + 40 + st.optsLen : ℕ)))
      (d + 20 + (src.length - (s + 40 + st.optsLen)) ≤ buffSize) := by
  have hleft := hst.left
  have hin := hst.inside
  unfold payloadRun
  by_cases hdata : 0 < st.lenDelta
  · rw [if_pos hdata, if_neg hnext]
    have hcopy := (memcpy_needs src dst (s + 40 + st.optsLen) (d + 20) st.lenDelta).bind (q := True)
      (T := fun r : List UInt8 × ℤ => r.1.length = buffSize ∧ r.2 = 20 + (src.length - (s + 40 + st.optsLen : ℕ)))
      (f := fun m => pure (m, 20 + st.lenDelta)) fun _ m hm => Needs.ok ⟨hm.trans hdst, by dsimp only; omega⟩
    refine hcopy.mono (fun _ h => h) ?_
    rw [hdst, and_true]
    omega
  · rw [if_neg hdata]
    refine (Needs.ok (S := fun r : List UInt8 × ℤ => r.1.length = buffSize ∧
      r.2 = 20 + (src.length - (s + 40 + st.optsLen : ℕ))) ⟨hdst, ?_⟩).mono (fun _ h => h) ?_
    · dsimp only
      omega
    · rw [buffSize]
      exact iff_of_true trivial (by omega)

variable (includeFlag) in
include hst hd hdst in
theorem payloadRun_spec {innerFits : ℕ → Prop} {innerOpts : ℕ → ℤ → Prop}
    (hinner : includeFlag = false → InnerSpec src d inner innerFits innerOpts) :
    (SafeRun (payloadRun inner k host tosIgnoreFlag src s dst d includeFlag st) ↔
      PayloadFits src s d includeFlag innerFits innerOpts (st.place s)) ∧
    (Gives (payloadRun inner k host tosIgnoreFlag src s dst d includeFlag st) fun r => r.1.length = buffSize ∧
      20 ≤ r.2 ∧ r.2 ≤ buffSize ∧ (includeFlag = true → QuoteKept src (st.place s) ∧
        d + 20 + (src.length - (s + 40 + st.optsLen)) ≤ buffSize)) ∧
    (includeFlag = true → PayloadFits src s d includeFlag innerFits innerOpts (st.place s) → QuoteKept src (st.place s) →
      ∃ r, payloadRun inner k host tosIgnoreFlag src s dst d includeFlag st = .ok r) := by
  have hleft := hst.left
  have hin := hst.inside
  have hbuff : buffSize = 2048 := rfl
  have hplace : (st.place s).1 = s + 40 + st.optsLen := rfl
  have hkind : (st.place s).2 = st.nextHdr := rfl
  rw [PayloadFits, QuoteKept, hplace, hkind]
  by_cases hnext : st.nextHdr = nexthdrIcmp
  · simp only [hnext, if_true, true_implies]
    by_cases hdata : s + 40 + st.optsLen < src.length
    · simp only [hdata, true_implies]
      have hrun : payloadRun inner k host tosIgnoreFlag src s dst d includeFlag st = icmp6Icmp4 k host tosIgnoreFlag inner
          src s dst d includeFlag st (ntotLen src s (s + 40 + st.optsLen)) := by
        rw [payloadRun, if_pos (by omega), if_pos hnext]
      rw [hrun]
      by_cases hkept : s + 40 + st.optsLen + 8 ≤ src.length ∧ (includeFlag = true → byte src (s + 40 + st.optsLen) = 128)
      · have h8 := hkept.1
        have hfits : (s + 40 + st.optsLen + 8 ≤ src.length → (includeFlag = true → byte src (s + 40 + st.optsLen) = 128) →
            IcmpFits6 src s d innerFits innerOpts (s + 40 + st.optsLen)) ↔
              IcmpFits6 src s d innerFits innerOpts (s + 40 + st.optsLen) :=
          ⟨fun h => h hkept.1 hkept.2, fun h _ _ => h⟩
        rw [hfits, IcmpFits6]
        by_cases hecho : Echo6 src (s + 40 + st.optsLen)
        · have hstep := icmp6Icmp4_echo_needs k host tosIgnoreFlag (ntotLen src s (s + 40 + st.optsLen))
            inner hst hd hdst hkept.1 hkept.2 hecho
          have herror := not_error6_of_echo6 hecho
          simp only [hecho, herror, true_implies, false_implies, and_true]
          refine ⟨hstep.safe, hstep.gives_and.mono ?_, ?_⟩
          · rintro r ⟨⟨hlen, hreal⟩, hroom, -⟩
            exact ⟨hlen, by omega, by omega, fun hinc => ⟨⟨hkept.1, hkept.2 hinc⟩, hroom⟩⟩
          · intro _ hall _
            obtain ⟨r, hr, -⟩ := hstep.result hall
            exact ⟨r, hr⟩
        · -- in a quoted packet the message would be an echo request
          cases includeFlag with
          | true => exact absurd (Or.inl (hkept.2 rfl)) hecho
          | false =>
            obtain ⟨hsafe, hgives⟩ := icmp6Icmp4_error k host tosIgnoreFlag
              (ntotLen src s (s + 40 + st.optsLen)) inner hst hd hdst (hinner rfl) hkept.1 hecho
            simp only [hecho, false_implies, true_and, Bool.false_eq_true, and_true]
            exact ⟨hsafe, hgives⟩
      · rw [icmp6Icmp4_dropped k host tosIgnoreFlag _ inner hst hkept]
        refine ⟨iff_of_true safe_dropped fun h8 hinc => absurd ⟨h8, hinc⟩ hkept, gives_error Fault.dropped, ?_⟩
        intro hinc _ hquoted
        exact absurd ⟨hquoted.1, fun _ => hquoted.2⟩ hkept
    · have hrun : payloadRun inner k host tosIgnoreFlag src s dst d includeFlag st = .ok (dst, 20) := by
        rw [payloadRun, if_neg (by omega)]
        rfl
      rw [hrun]
      refine ⟨iff_of_true (safe_ok _) fun h => absurd h hdata, gives_ok ⟨hdst, by omega, by omega, ?_⟩, fun _ _ _ => ⟨_, rfl⟩⟩
      exact fun _ => ⟨fun h => absurd h hdata, by omega⟩
  · have hcopy := payloadRun_copy k host tosIgnoreFlag includeFlag inner hst hd hdst hnext
    simp only [hnext, if_false, false_implies, true_and]
    refine ⟨hcopy.safe.trans ?_, hcopy.gives_and.mono ?_, ?_⟩
    · rw [hbuff]
      omega
    · rintro r ⟨⟨hlen, hreal⟩, hroom⟩
      exact ⟨hlen, by omega, by omega, fun _ => hroom⟩
    · intro _ hfits _
      obtain ⟨r, hr, -⟩ := hcopy.result (by
        by_cases hdata : s + 40 + st.optsLen < src.length
        · exact hfits hdata
        · omega)
      exact ⟨r, hr⟩

end Message

end Payload

/-! ## The packet -/

section Packet
variable (k : Checksums) (host : ByteOrder) (tosIgnoreFlag : Bool) {src : List UInt8} {s d : ℕ} {includeFlag : Bool}
  {dst : List UInt8} {len : ℤ} (inner : Inner (List UInt8 × ℤ))

/-- Behind the checks of the addresses there are the headers, the header of IPv4 and what follows. -/
theorem ip6Ip4Body_eq (hlen : len = src.length - s) (hlong : s + 40 ≤ src.length) (haddr : Addressed src s includeFlag) :
    ip6Ip4Body k host tosIgnoreFlag inner src s len dst d includeFlag =
      (hopByHop src s ⟨len - 40, 0, byte src (s + 6), 0, 0⟩ >>= fun st =>
        if 0 < st.lenDelta then extLoop src s (len.toNat + 1) st else pure st) >>= fun st =>
      write dst d (ip4HeaderChecked k tosIgnoreFlag src s st (ntotLen src s (s + 40 + st.optsLen)) st.nextHdr) >>= fun m =>
      payloadRun inner k host tosIgnoreFlag src s m d includeFlag st >>= fun r =>
      pure (r.1, if includeFlag then (st.optsLen : ℤ) else r.2) := by
  have hshort : ¬ len - 40 < 0 := by omega
  unfold ip6Ip4Body
  rw [if_neg hshort, inside_ok hlong, ok_bind, if_neg (not_not.mpr haddr.1), if_neg (not_not.mpr haddr.2)]
  simp only [bind_assoc, ite_bind, pure_bind, payloadRun, ntotLen, Nat.add_sub_cancel_left]

theorem ip6Ip4Body_dropped (haddr : ¬ Addressed src s includeFlag) (hlen : len = src.length - s) (hlong : s + 40 ≤ src.length) :
    ip6Ip4Body k host tosIgnoreFlag inner src s len dst d includeFlag = .error .dropped := by
  have hshort : ¬ len - 40 < 0 := by omega
  unfold ip6Ip4Body
  rw [if_neg hshort, inside_ok hlong, ok_bind]
  by_cases hsrc : bytes4 src (s + 16) = beBytes (if includeFlag then mappedPrefix else translatedPrefix)
  · have hdaddr : bytes4 src (s + 32) ≠ beBytes (if includeFlag then translatedPrefix else mappedPrefix) :=
      fun heq => haddr ⟨hsrc, heq⟩
    rw [if_neg (not_not.mpr hsrc), if_pos hdaddr]
    rfl
  · rw [if_pos hsrc]
    rfl

/-- A packet is translated in its bounds exactly if it fits. -/
theorem ip6Ip4Body_spec {innerFits : ℕ → Prop} {innerOpts : ℕ → ℤ → Prop} (hlen : len = src.length - s)
    (hlong : s + 40 ≤ src.length) (hd : d ≤ 28) (hdst : dst.length = buffSize)
    (hinner : includeFlag = false → InnerSpec src d inner innerFits innerOpts) :
    (SafeRun (ip6Ip4Body k host tosIgnoreFlag inner src s len dst d includeFlag) ↔
      BodyFits src s d includeFlag innerFits innerOpts) ∧
    (Gives (ip6Ip4Body k host tosIgnoreFlag inner src s len dst d includeFlag) fun r => r.1.length = buffSize ∧
      (includeFlag = false → 20 ≤ r.2 ∧ r.2 ≤ buffSize) ∧
      (includeFlag = true → QuotedOpts src s r.2 ∧ 0 ≤ r.2 ∧ s + 40 + r.2 ≤ src.length ∧
        d + 20 + (src.length - (s + 40 + r.2)) ≤ buffSize)) ∧
    (includeFlag = true → BodyFits src s d includeFlag innerFits innerOpts → ∀ o, QuotedOpts src s o →
      ∃ m, ip6Ip4Body k host tosIgnoreFlag inner src s len dst d includeFlag = .ok (m, o)) := by
  by_cases haddr : Addressed src s includeFlag
  · rw [BodyFits, ip6Ip4Body_eq k host tosIgnoreFlag inner hlen hlong haddr]
    simp only [haddr, true_implies]
    obtain ⟨hheaders, hstuck⟩ := headers_spec hlen hlong
    by_cases hfit : HeadersFit src s
    · rcases hheaders hfit with ⟨st, hst, hsound, hbehind⟩ | ⟨hdrop, hnone⟩
      · have hin := hsound.inside
        have hbehinds : ∀ q, Behind src s q ↔ q = st.place s :=
          fun q => ⟨fun hq => hq.unique hbehind, fun hq => hq ▸ hbehind⟩
        have hwrite : StepNeeds (write dst d (ip4HeaderChecked k tosIgnoreFlag src s st
            (ntotLen src s (s + 40 + st.optsLen)) st.nextHdr)) (fun m => m.length = buffSize) True :=
          write_room hdst (by rw [ip4HeaderChecked_length]; omega)
        obtain ⟨m, hm, hmlen⟩ := hwrite.result trivial
        obtain ⟨hsafe, hgives, hok⟩ := payloadRun_spec k host tosIgnoreFlag includeFlag inner hsound hd hmlen hinner
        have hopts : ∀ o, QuotedOpts src s o ↔
            Addressed src s true ∧ QuoteKept src (st.place s) ∧ o = st.optsLen := by
          intro o
          simp only [QuotedOpts, hbehinds, exists_eq_left, Ext.place, Nat.add_sub_cancel_left]
        rw [hst, ok_bind, hm, ok_bind]
        simp only [hfit, hbehinds, true_and, forall_eq, hopts]
        refine ⟨?_, hgives.bind ?_, ?_⟩
        · exact (safe_bind_of_ok fun _ _ => safe_pure _).trans hsafe
        · rintro r ⟨hrlen, hlow, hhigh, hquoted⟩
          refine gives_ok ⟨hrlen, ?_, ?_⟩
          · rintro rfl
            exact ⟨hlow, hhigh⟩
          · rintro rfl
            obtain ⟨hkept, hroom⟩ := hquoted rfl
            refine ⟨⟨haddr, hkept, rfl⟩, ?_, ?_, ?_⟩
            all_goals
              simp only [if_true]
              omega
        · rintro rfl hpayload o ⟨-, hkept, rfl⟩
          obtain ⟨r, hr⟩ := hok rfl hpayload hkept
          exact ⟨r.1, by rw [hr]; rfl⟩
      · rw [hdrop, error_bind]
        refine ⟨iff_of_true safe_dropped ⟨hfit, fun p hp => absurd hp (hnone p)⟩, gives_error Fault.dropped, ?_⟩
        rintro rfl - o ⟨-, p, hp, -⟩
        exact absurd hp (hnone p)
    · have hnot := hstuck hfit
      refine ⟨iff_of_false (not_safe_bind hnot _) fun h => hfit h.1, ?_, fun _ h => absurd h.1 hfit⟩
      refine Gives.bind (S := fun _ => False) ?_ fun _ h => h.elim
      intro st hst
      rw [hst] at hnot
      exact hnot (safe_ok st)
  · rw [BodyFits, ip6Ip4Body_dropped k host tosIgnoreFlag inner haddr hlen hlong]
    refine ⟨iff_of_true safe_dropped fun h => absurd h haddr, gives_error Fault.dropped, ?_⟩
    rintro rfl - o ho
    exact absurd ho.1 haddr

/-- The packet in an error is translated behind the headers of the error. -/
theorem ip6Ip4Included_spec : InnerSpec src 0 (ip6Ip4Included k host tosIgnoreFlag src) (QuotedFits src) (QuotedOpts src) := by
  have hspec := fun (s : ℕ) (dst : List UInt8) (hlong : s + 40 ≤ src.length) (hdst : dst.length = buffSize) =>
    ip6Ip4Body_spec k host tosIgnoreFlag (fun _ _ _ _ => .error .dropped) rfl hlong (le_refl 28) hdst
      fun h : true = false => (Bool.noConfusion h : InnerSpec src 28 _ (fun _ => True) fun _ _ => False)
  constructor
  · intro s dst hlong hdst
    exact (hspec s dst hlong hdst).1
  · intro s dst hlong hdst
    refine (hspec s dst hlong hdst).2.1.mono ?_
    rintro r ⟨hlen, -, hquoted⟩
    obtain ⟨hopts, hpos, hin, hroom⟩ := hquoted rfl
    exact ⟨hlen, hopts, hpos, hin, by push_cast at hroom; omega⟩
  · intro s dst hlong hdst
    exact (hspec s dst hlong hdst).2.2 rfl

/-- With a buffer of 2048 bytes, the translation ends, stays in its bounds and gives a length in the buffer, or drops
the packet, exactly for the packets that fit. -/
theorem ip6_ip4_total_iff (src dst : List UInt8)
    (hdst : dst.length = 2048) :
    ((∃ m n, ip6Ip4 k host tosIgnoreFlag src src.length dst = .ok (m, n) ∧ m.length = 2048 ∧ 20 ≤ n ∧ n ≤ 2048) ∨
      ip6Ip4 k host tosIgnoreFlag src src.length dst = .error .dropped) ↔ PacketFits src := by
  by_cases hlong : 40 ≤ src.length
  · have hlen : (src.length : ℤ) = src.length - (0 : ℕ) := by simp
    obtain ⟨hsafe, hgives, -⟩ := ip6Ip4Body_spec k host tosIgnoreFlag (ip6Ip4Included k host tosIgnoreFlag src) hlen
      (by omega) (by omega) hdst fun _ : false = false => ip6Ip4Included_spec k host tosIgnoreFlag
    rw [PacketFits, forall_prop_of_true hlong, ← hsafe, ip6Ip4]
    constructor
    · rintro (⟨m, n, hrun, -⟩ | hdrop)
      · rw [hrun]
        exact safe_ok _
      · rw [hdrop]
        exact safe_dropped
    · intro hrun
      generalize hr : ip6Ip4Body k host tosIgnoreFlag (ip6Ip4Included k host tosIgnoreFlag src) src 0 src.length dst 0
        false = r at hrun hgives
      cases r with
      | ok r =>
        obtain ⟨hlen, hreal, -⟩ := hgives r rfl
        exact Or.inl ⟨r.1, r.2, rfl, hlen, hreal rfl⟩
      | error e =>
        right
        obtain rfl : e = .dropped := not_not.mp ((safe_error e).mp hrun)
        rfl
  · have hshort : (src.length : ℤ) - 40 < 0 := by omega
    have hdrop : ip6Ip4 k host tosIgnoreFlag src src.length dst = .error .dropped := if_pos hshort
    exact iff_of_true (Or.inr hdrop) fun h => absurd h hlong

/-- A packet between two translated addresses. -/
def packet6 (nexthdr : UInt8) (rest : List UInt8) : List UInt8 :=
  [0x60, 0, 0, 0] ++ half rest.length ++ [nexthdr, 64] ++ beBytes 0 ++ beBytes 0 ++ beBytes translatedPrefix ++
    [10, 0, 0, 1] ++ beBytes 0 ++ beBytes 0 ++ beBytes mappedPrefix ++ [10, 0, 0, 2] ++ rest

theorem ip6_ip4_total_udp :
    let src := packet6 protoUdp [0, 80, 0, 80, 0, 8, 0, 0]
    ((∃ m n, ip6Ip4 kernelChecksums .little false src src.length (List.replicate 2048 0) = .ok (m, n) ∧
        m.length = 2048 ∧ 20 ≤ n ∧ n ≤ 2048) ∨
      ip6Ip4 kernelChecksums .little false src src.length (List.replicate 2048 0) = .error .dropped) ↔ PacketFits src :=
  ip6_ip4_total_iff kernelChecksums .little false (packet6 protoUdp [0, 80, 0, 80, 0, 8, 0, 0])
    (List.replicate 2048 0) List.length_replicate

/-- Destination options that are longer than the packet, and hop-by-hop options that are not there. -/
theorem ip6_ip4_not_total :
    ip6Ip4 kernelChecksums .little false (packet6 nexthdrDest [nexthdrNone, 255])
        (packet6 nexthdrDest [nexthdrNone, 255]).length (List.replicate 2048 0) = .error .endless ∧
      ip6Ip4 kernelChecksums .little false (packet6 nexthdrHop []) (packet6 nexthdrHop []).length
        (List.replicate 2048 0) = .error .outOfBounds :=
  ⟨by decide +kernel, by decide +kernel⟩

end Packet

end Neufbox.Siit
