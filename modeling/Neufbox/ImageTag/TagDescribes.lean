import Neufbox.ImageTag.Tag

/-! # Does the tag describe the image?

`imagelen` is the sum of the kernel length and the aligned length of the root file system, while the
file has the alignment gap between the two and no padding at its end; `imagecrc` runs over the bytes
that were written, while the gap consists of zeros that were not. -/
namespace Neufbox.ImageTag
open ByteStore Blocks CString Decimal WrapArith
set_option autoImplicit false
set_option maxHeartbeats 250000
set_option maxRecDepth 120000

/-! ## The two fields -/

def imagelenField (file : List UInt8) : ℕ := numberAt 10 (file.drop 62)

def imagecrcField (file : List UInt8) : ℕ := beWord ((file.drop 216).take 4)

/-- The fields tell the number of bytes behind the tag and their checksum. -/
def TagDescribes (file : List UInt8) : Prop :=
  imagelenField file = (file.drop 256).length ∧ imagecrcField file = crc32 imagetagCrcStart (file.drop 256)

section Fields
variable {a : TagArgs} (ha : Accepted a)
include ha

theorem imagecrcField_eq :
    imagecrcField (buildTag a a.writeParts.1 ++ a.imageData) =
      crc32 imagetagCrcStart (a.kernelPart ++ a.rootfs) := by
  have hcrc : a.writeParts.1 = crc32 imagetagCrcStart (a.kernelPart ++ a.rootfs) := by
    rw [TagArgs.writeParts_eq]
  have hlt : crc32 imagetagCrcStart (a.kernelPart ++ a.rootfs) < 2 ^ 32 :=
    Crc32.update_lt crcTable (by rw [imagetagCrcStart]; norm_num) _
  rw [imagecrcField, image_slice a.writeParts.1 ha a.imageData (by norm_num), imagecrc_slice _ ha, hcrc,
    beWord_beBytes hlt]

theorem imagelen_field_slot {n : ℕ} (hn : n ≤ 10) (hlen : n ≤ (sprintfLu (a.kernellen + a.rootfslen)).length)
    (data : List UInt8) :
    ((buildTag a a.writeParts.1 ++ data).drop 62).take n = (sprintfLu (a.kernellen + a.rootfslen)).take n := by
  rw [image_slice _ ha data (by omega), imagelen_slice _ ha hn hlen]

theorem imagelenField_eq (hfits : a.kernellen + a.rootfslen < 10 ^ 10) (data : List UInt8) :
    imagelenField (buildTag a a.writeParts.1 ++ data) = a.kernellen + a.rootfslen := by
  have hdigits : (decimal (a.kernellen + a.rootfslen)).length ≤ 10 := decimal_length_le (by norm_num) hfits
  have hlen : (sprintfLu (a.kernellen + a.rootfslen)).length =
      (decimal (a.kernellen + a.rootfslen)).length + 1 := List.length_append
  by_cases hten : (decimal (a.kernellen + a.rootfslen)).length = 10
  · -- ten digits fill the slot, and the NUL behind them is overwritten
    have hslot := imagelen_field_slot ha (le_refl 10) (by omega) data
    have hall : (decimal (a.kernellen + a.rootfslen)).take 10 = decimal (a.kernellen + a.rootfslen) :=
      List.take_of_length_le (by omega)
    rw [sprintfLu, List.take_append_of_le_length (by omega), hall,
      ← List.append_nil (decimal (a.kernellen + a.rootfslen))] at hslot
    exact numberAt_decimal hslot rfl
  · have hslot := imagelen_field_slot ha (by omega) (le_refl _) data
    rw [List.take_length] at hslot
    have hsplit := List.take_append_drop (sprintfLu (a.kernellen + a.rootfslen)).length
      (((buildTag a a.writeParts.1 ++ data).drop 62).take 10)
    rw [List.take_take, min_eq_left (by omega), hslot, sprintfLu, List.append_assoc,
      List.singleton_append] at hsplit
    exact numberAt_decimal hsplit.symm rfl

theorem imagelenField_narrow (hwide : 10 ^ 10 ≤ a.kernellen + a.rootfslen) (data : List UInt8) :
    10 * imagelenField (buildTag a a.writeParts.1 ++ data) ≤ a.kernellen + a.rootfslen := by
  have hdigits : 10 < (decimal (a.kernellen + a.rootfslen)).length := lt_decimal_length hwide
  have hslot := imagelen_field_slot ha (le_refl 10) (by rw [sprintfLu, List.length_append]; omega) data
  rw [sprintfLu, List.take_append_of_le_length (by omega)] at hslot
  exact numberAt_narrow hslot hdigits

end Fields

/-! ## When the tag is right -/

/-- The zeros between the kernel and the root file system. -/
def TagArgs.gap (a : TagArgs) : ℕ := a.rootfsPos - (256 + a.kernellen)

/-- The alignment gap and the root file system together have the recorded length, and the checksum
does not notice the gap. -/
structure GapFits (a : TagArgs) : Prop where
  behind : 256 + a.kernellen ≤ a.rootfsPos
  length : a.gap + a.rootfs.length = a.rootfslen
  crc : crc32 (crc32 imagetagCrcStart a.kernelPart) (List.replicate a.gap 0) =
    crc32 imagetagCrcStart a.kernelPart

/-- The root file system does not go over the tag or the kernel, as it does when the addresses wrap at `2 ^ 32`. -/
def Unwrapped (a : TagArgs) : Prop := a.rootfs = [] ∨ 256 + a.kernellen ≤ a.rootfsPos

/-- A block size that is not zero and addresses of 32 bits are enough for that. -/
theorem unwrapped_of_addresses {a : TagArgs} (hbs : 0 < a.flashBs)
    (hfits : a.kerneloff + a.kernellen + a.flashBs ≤ 2 ^ 32) : Unwrapped a := by
  have hsum := align_add (show a.kerneloff + a.kernellen + a.flashBs < 2 ^ 64 by omega) hbs a.flashBsBits
  have hmask : (a.kerneloff + a.kernellen + a.flashBs - 1) % 2 ^ 32 &&& (a.flashBs - 1) ≤ a.flashBs - 1 :=
    Nat.and_le_right
  rw [Nat.mod_eq_of_lt (by omega)] at hsum hmask
  have hoff : a.kerneloff + a.kernellen ≤ a.rootfsoff := by
    rw [TagArgs.rootfsoff]
    omega
  have hlt : a.rootfsoff < 2 ^ 32 := align_lt _ _
  rw [TagArgs.kerneloff] at hoff
  have hpos : wrapSub 64 a.rootfsoff a.fwaddr = a.rootfsoff - a.fwaddr := wrapSub_of_le (by omega) (by omega)
  right
  rw [TagArgs.rootfsPos, hpos]
  split <;> omega

/-- The checksum over the gap is the one over the parts exactly when the gap leaves the register as
it was: the bytes behind the gap cannot make up for it. -/
theorem crc_gap_iff (x y : List UInt8) (n : ℕ) :
    crc32 imagetagCrcStart (x ++ y) = crc32 imagetagCrcStart (x ++ List.replicate n 0 ++ y) ↔
      crc32 (crc32 imagetagCrcStart x) (List.replicate n 0) = crc32 imagetagCrcStart x := by
  have hx : Crc32.update crcTable imagetagCrcStart x < 2 ^ 32 :=
    Crc32.update_lt crcTable (by rw [imagetagCrcStart]; norm_num) x
  have hgap := Crc32.update_lt crcTable hx (List.replicate n 0)
  simp only [crc32, Crc32.update_append]
  constructor
  · intro h
    exact (Crc32.update_injective crcTable hx hgap h).symm
  · intro h
    rw [h]

/-- What makes the fields right: the total fits the slot, and there is no root file system or the gap before it makes
up for its padding and passes the checksum unnoticed. -/
def TagFits (a : TagArgs) : Prop := a.kernellen + a.rootfslen < 10 ^ 10 ∧ (a.rootfs = [] ∨ GapFits a)

section Behind
variable {a : TagArgs} (ha : Accepted a)
include ha

theorem tag_describes_no_rootfs (hroot : a.rootfs = []) :
    TagDescribes (buildTag a a.writeParts.1 ++ a.imageData) ↔ a.kernellen + a.rootfslen < 10 ^ 10 := by
  have hdata : (buildTag a a.writeParts.1 ++ a.imageData).drop 256 = a.imageData :=
    List.drop_left' (buildTag_length _ ha)
  have hzero : a.rootfslen = 0 := by
    rw [TagArgs.rootfslen, hroot]
    exact align_zero _ a.flashBsBits
  rw [TagDescribes, hdata, imagecrcField_eq ha]
  by_cases hfits : a.kernellen + a.rootfslen < 10 ^ 10
  · rw [imagelenField_eq ha hfits, TagArgs.imageData_nil _ hroot, TagArgs.kernelPart_length, hzero, hroot,
      List.append_nil]
    rw [hzero] at hfits
    simpa using hfits
  · have hnarrow := imagelenField_narrow ha (by omega) a.imageData
    have hge := a.imageData_length_ge
    exact iff_of_false (fun h => by have hlen := h.1; omega) hfits

theorem tag_describes_behind (hroot : a.rootfs ≠ []) (hpos : 256 + a.kernellen ≤ a.rootfsPos) :
    TagDescribes (buildTag a a.writeParts.1 ++ a.imageData) ↔
      a.kernellen + a.rootfslen < 10 ^ 10 ∧ GapFits a := by
  have hdata : (buildTag a a.writeParts.1 ++ a.imageData).drop 256 = a.imageData :=
    List.drop_left' (buildTag_length _ ha)
  rw [TagDescribes, hdata, imagecrcField_eq ha]
  by_cases hfits : a.kernellen + a.rootfslen < 10 ^ 10
  · rw [imagelenField_eq ha hfits, TagArgs.imageData_length, if_neg hroot, TagArgs.imageData_eq _ hpos hroot,
      crc_gap_iff]
    constructor
    · rintro ⟨hlen, hcrc⟩
      exact ⟨hfits, hpos, by rw [TagArgs.gap]; omega, hcrc⟩
    · rintro ⟨-, hgap⟩
      have hlen := hgap.length
      rw [TagArgs.gap] at hlen
      exact ⟨by omega, hgap.crc⟩
  · have hrootlen : a.rootfslen < 2 ^ 32 := align_lt _ _
    have hnarrow := imagelenField_narrow ha (by omega) a.imageData
    have hge := a.imageData_length_ge
    exact iff_of_false (fun h => by have hlen := h.1; omega) fun h => hfits h.1

end Behind

/-- Under that condition the fields are right, and without it they are wrong wherever the root file system stands
behind the kernel. -/
theorem tag_describes_iff (a : TagArgs) (file : List UInt8) (h : tagfile a = .ok file) :
    (TagFits a → TagDescribes file) ∧ (Unwrapped a → TagDescribes file → TagFits a) := by
  obtain ⟨ha, rfl⟩ := tagfile_cases h
  by_cases hroot : a.rootfs = []
  · have hiff := tag_describes_no_rootfs ha hroot
    exact ⟨fun hfits => hiff.mpr hfits.1, fun _ hdescribes => ⟨hiff.mp hdescribes, Or.inl hroot⟩⟩
  · refine ⟨fun hfits => ?_, fun hunwrapped hdescribes => ?_⟩
    · have hgap := hfits.2.resolve_left hroot
      exact (tag_describes_behind ha hroot hgap.behind).mpr ⟨hfits.1, hgap⟩
    · obtain ⟨hlen, hgap⟩ := (tag_describes_behind ha hroot (hunwrapped.resolve_left hroot)).mp hdescribes
      exact ⟨hlen, Or.inr hgap⟩

/-- The header ends on a block boundary and the root file system fills its block. -/
def fullBlock : TagArgs := plainImage [] [1, 2, 3, 4] 4 no_byte_size (by decide) (by decide)

theorem tag_describes_full_block :
    TagDescribes (buildTag fullBlock fullBlock.writeParts.1 ++ fullBlock.imageData) ∧ TagFits fullBlock := by
  have hacc : Accepted fullBlock := plainImage_accepted ..
  have hgap : fullBlock.gap = 0 := by decide +kernel
  have hfits : TagFits fullBlock := ⟨by decide +kernel, Or.inr ⟨by decide +kernel, by decide +kernel, by rw [hgap]; rfl⟩⟩
  obtain ⟨hright, hneeded⟩ := tag_describes_iff _ _ (tagfile_accepted hacc)
  exact ⟨hright hfits, hneeded (unwrapped_of_addresses (by decide) (by decide +kernel)) (hright hfits)⟩

/-- With an empty kernel, a root file system of one byte and blocks of 64 KiB the tag tells 65548
bytes; 65281 follow it. -/
theorem tag_describes_wrong_length :
    ¬ ∀ (a : TagArgs) (file : List UInt8), tagfile a = .ok file → TagDescribes file := by
  intro h
  have hacc := plainImage_accepted [] [7] 65536 (by norm_num) (by norm_num) (by norm_num)
  have hlen := (h _ _ (tagfile_accepted hacc)).1
  rw [imagelenField_eq hacc (by decide +kernel), List.drop_left' (buildTag_length _ hacc),
    TagArgs.imageData_length] at hlen
  revert hlen
  decide +kernel

end Neufbox.ImageTag
