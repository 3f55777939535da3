import Neufbox.ImageTag.Tag

/-! # The tag as the neufbox4 flash driver reads it

The driver takes the address and the length of the root file system from the ASCII fields of the tag
(`struct _FILE_TAG`: the address at byte 94, the length at byte 106) and subtracts the start of the
flash window from the address. `imagetag` rounds the absolute address up to a block; the offset in the
flash is then on a block boundary only if the start of the window is. -/
namespace Neufbox.ImageTag
open ByteStore Blocks CString Decimal WrapArith
set_option autoImplicit false
set_option maxHeartbeats 250000
set_option maxRecDepth 120000

/-! ## The driver -/

@[irreducible] def extendedSize : ℕ := 0xBFC00000

/-- `sscanf(field, "%u", &var)`: the variable keeps its value when no number is found. -/
def sscanfU (tag : List UInt8) (off var : ℕ) : ℕ := (scanUnsigned (tag.drop off)).getD var

structure Partition where
  offset : ℕ
  size : ℕ
  deriving DecidableEq, Repr

/-- `parse_cfe_partitions` of `neufbox4-flash.c` with the tag at `tagOffset` of the flash: the
`rootfs` partition, or `none` for a short read. The two variables are not initialised. -/
def neufbox4ParseCfePartitions (flash : List UInt8) (tagOffset : ℕ) (rootfsaddr rootfslen : ℕ) :
    Option Partition :=
  let tag := (flash.drop tagOffset).take 256
  if tag.length ≠ 256 then none
  else some ⟨wrapSub 32 (sscanfU tag 94 rootfsaddr) extendedSize, sscanfU tag 106 rootfslen⟩

/-! ## Reading the numbers back -/

/-- The number stands in the slot with its NUL. -/
def FieldHolds (file : List UInt8) (off width n : ℕ) : Prop :=
  ∃ rest, (file.drop off).take width = sprintfLu n ++ rest

theorem FieldHolds.sscanfU {file : List UInt8} {off width n : ℕ} (h : FieldHolds file off width n)
    (hn : n < 2 ^ 32) (var : ℕ) : sscanfU file off var = n := by
  obtain ⟨rest, hrest⟩ := h
  have htext : file.drop off = decimal n ++ 0 :: (rest ++ (file.drop off).drop width) := by
    have hsplit := List.take_append_drop width (file.drop off)
    rw [hrest] at hsplit
    exact hsplit.symm.trans (by simp [sprintfLu])
  rw [ImageTag.sscanfU, htext, scanUnsigned_decimal hn, Option.getD_some]

theorem fieldHolds_of_slice {file : List UInt8} {off width n : ℕ} (hlen : (sprintfLu n).length ≤ width)
    (h : (file.drop off).take (sprintfLu n).length = sprintfLu n) : FieldHolds file off width n := by
  refine ⟨((file.drop off).take width).drop (sprintfLu n).length, ?_⟩
  have hsplit := List.take_append_drop (sprintfLu n).length ((file.drop off).take width)
  rw [List.take_take, min_eq_left hlen, h] at hsplit
  exact hsplit.symm

/-- The decimal fields of the tag, each in its slot. -/
structure FieldsHold (a : TagArgs) (file : List UInt8) : Prop where
  imagelen : FieldHolds file 62 10 (a.kernellen + a.rootfslen)
  rootfsAddress : FieldHolds file 94 12 a.rootfsoff
  rootfsLen : FieldHolds file 106 10 a.rootfslen
  kernelAddress : FieldHolds file 116 12 a.kerneloff
  kernelLen : FieldHolds file 128 10 a.kernellen

theorem fields_hold {a : TagArgs} (ha : Accepted a) (htotal : a.kernellen + a.rootfslen < 10 ^ 9)
    (crc : ℕ) : FieldsHold a (buildTag a crc) := by
  have hfw := a.fwaddrBits
  have hoff : a.rootfsoff < 2 ^ 32 := align_lt _ _
  have himage : (sprintfLu (a.kernellen + a.rootfslen)).length ≤ 10 :=
    sprintfLu_length (by norm_num) htotal
  have hroff : (sprintfLu a.rootfsoff).length ≤ 12 := sprintfLu_length (by norm_num) (by omega)
  have hrlen : (sprintfLu a.rootfslen).length ≤ 10 := sprintfLu_length (by norm_num) (by omega)
  have hkoff : (sprintfLu a.kerneloff).length ≤ 12 :=
    sprintfLu_length (by norm_num) (by rw [TagArgs.kerneloff]; omega)
  have hklen : (sprintfLu a.kernellen).length ≤ 10 := sprintfLu_length (by norm_num) (by omega)
  constructor
  · exact fieldHolds_of_slice himage (by rw [imagelen_slice _ ha himage (le_refl _), List.take_length])
  · exact fieldHolds_of_slice hroff (rootfsAddress_slice _ ha hroff)
  · exact fieldHolds_of_slice hrlen (rootfsLen_slice _ ha (by omega))
  · exact fieldHolds_of_slice hkoff (kernelAddress_slice _ ha hrlen hroff hkoff)
  · exact fieldHolds_of_slice hklen (kernelLen_slice _ ha (by omega) hroff (by omega))

theorem FieldsHold.append {a : TagArgs} (ha : Accepted a) {crc : ℕ} (h : FieldsHold a (buildTag a crc))
    (data : List UInt8) : FieldsHold a (buildTag a crc ++ data) := by
  have happ : ∀ {off width n : ℕ}, off + width ≤ 256 → FieldHolds (buildTag a crc) off width n →
      FieldHolds (buildTag a crc ++ data) off width n := by
    rintro off width n hle ⟨rest, hrest⟩
    exact ⟨rest, by rw [image_slice crc ha data hle, hrest]⟩
  exact ⟨happ (by norm_num) h.imagelen, happ (by norm_num) h.rootfsAddress, happ (by norm_num) h.rootfsLen,
    happ (by norm_num) h.kernelAddress, happ (by norm_num) h.kernelLen⟩

/-! ## The layout -/

/-- The unrounded end of the kernel, and what the two parts take in the flash window. -/
def TagArgs.rootfsStart (a : TagArgs) : ℕ := roundUp (a.kerneloff + a.kernellen) a.flashBs

def TagArgs.rootfsSpan (a : TagArgs) : ℕ := roundUp a.rootfs.length a.flashBs

/-- The image ends inside the 32-bit address space and has less than a thousand million bytes from
its tag to the end of the last block. -/
structure InWindow (a : TagArgs) : Prop where
  window : a.rootfsStart + a.rootfsSpan ≤ 2 ^ 32
  total : a.rootfsStart + a.rootfsSpan < a.fwaddr + 10 ^ 9

/-- What the driver computes from the tag of an image at `fwoffset`, whatever its variables held
before, fits the image. -/
structure LayoutAgrees (a : TagArgs) (fwoffset : ℕ) (file : List UInt8) : Prop where
  fields : FieldsHold a file
  region : ∀ (flash : List UInt8) (rootfsaddr rootfslen : ℕ),
    (flash.drop fwoffset).take file.length = file →
    ∃ part, neufbox4ParseCfePartitions flash fwoffset rootfsaddr rootfslen = some part ∧
      (flash.drop part.offset).take a.rootfs.length = a.rootfs ∧ a.rootfs.length ≤ part.size ∧
      a.flashBs ∣ part.offset ∧ fwoffset + 256 + a.kernellen ≤ part.offset

section Layout
variable {a : TagArgs} {k fwoffset : ℕ}

theorem rootfsoff_eq (hbs : a.flashBs = 2 ^ k) : a.rootfsoff = a.rootfsStart % 2 ^ 32 := by
  have hlt := a.flashBsBits
  have hfw := a.fwaddrBits
  have hkernel := a.kernelSize
  have hk : k < 32 := (Nat.pow_lt_pow_iff_right (by norm_num)).mp (hbs ▸ hlt)
  rw [TagArgs.rootfsoff, TagArgs.rootfsStart, hbs, align_pow _ hk]
  rw [← hbs, TagArgs.kerneloff, TagArgs.kernellen]
  omega

theorem rootfslen_eq (hbs : a.flashBs = 2 ^ k) : a.rootfslen = a.rootfsSpan % 2 ^ 32 := by
  have hlt := a.flashBsBits
  have hroot := a.rootfsSize
  have hk : k < 32 := (Nat.pow_lt_pow_iff_right (by norm_num)).mp (hbs ▸ hlt)
  rw [TagArgs.rootfslen, TagArgs.rootfsSpan, hbs, align_pow _ hk]
  rw [← hbs]
  omega

theorem le_rootfsStart (hbs : a.flashBs = 2 ^ k) : a.fwaddr + 256 + a.kernellen ≤ a.rootfsStart :=
  le_roundUp (by rw [hbs]; positivity)

theorem le_rootfsSpan (hbs : a.flashBs = 2 ^ k) : a.rootfs.length ≤ a.rootfsSpan :=
  le_roundUp (by rw [hbs]; positivity)

theorem rootfsSpan_lt (hbs : a.flashBs = 2 ^ k) (hwin : InWindow a) : a.rootfsSpan < 2 ^ 32 := by
  have hstart := le_rootfsStart hbs
  have hend := hwin.window
  rw [TagArgs.kernellen] at hstart
  omega

theorem rootfsPos_eq (hbs : a.flashBs = 2 ^ k) (hlt : a.rootfsStart < 2 ^ 32) :
    a.rootfsPos = a.rootfsStart - a.fwaddr := by
  have hstart := le_rootfsStart hbs
  have hsub : wrapSub 64 a.rootfsoff a.fwaddr = a.rootfsStart - a.fwaddr := by
    rw [rootfsoff_eq hbs, Nat.mod_eq_of_lt hlt, wrapSub_of_le (by omega) (by omega)]
  rw [TagArgs.rootfsPos, hsub, if_pos (by omega)]

/-- The root file system of an image inside the window stands at its aligned address. -/
theorem image_rootfs (ha : Accepted a) (hbs : a.flashBs = 2 ^ k) (hwin : InWindow a) :
    ((buildTag a a.writeParts.1 ++ a.imageData).drop (a.rootfsStart - a.fwaddr)).take a.rootfs.length =
      a.rootfs := by
  by_cases hroot : a.rootfs = []
  · rw [hroot]
    simp
  · have hstart := le_rootfsStart hbs
    have hlt : a.rootfsStart < 2 ^ 32 := by
      have hspan := le_rootfsSpan hbs
      have hne : 0 < a.rootfs.length := List.length_pos_of_ne_nil hroot
      have hend := hwin.window
      omega
    have hpos := rootfsPos_eq hbs hlt
    have hbehind : 256 + a.kernellen ≤ a.rootfsPos := by omega
    have hlen : (buildTag a a.writeParts.1 ++ (a.kernelPart ++
        List.replicate (a.rootfsPos - (256 + a.kernellen)) 0)).length = a.rootfsStart - a.fwaddr := by
      rw [List.length_append, List.length_append, buildTag_length _ ha, TagArgs.kernelPart_length,
        List.length_replicate]
      omega
    rw [TagArgs.imageData_eq _ hbehind hroot, ← List.append_assoc, List.drop_left' hlen, List.take_length]

/-- What the driver finds: the rounded address relative to the window, and the rounded length. -/
theorem driver_partition (ha : Accepted a) (hbs : a.flashBs = 2 ^ k) (hwin : InWindow a)
    (hfw : a.fwaddr = extendedSize + fwoffset) {flash : List UInt8}
    (hflash : (flash.drop fwoffset).take (buildTag a a.writeParts.1 ++ a.imageData).length =
      buildTag a a.writeParts.1 ++ a.imageData) (rootfsaddr rootfslen : ℕ) :
    neufbox4ParseCfePartitions flash fwoffset rootfsaddr rootfslen =
      some ⟨a.rootfsStart - extendedSize, a.rootfsSpan⟩ := by
  have htag : (flash.drop fwoffset).take 256 = buildTag a a.writeParts.1 := by
    have h256 := congrArg (List.take 256) hflash
    have hlen := buildTag_length a.writeParts.1 ha
    rw [List.take_take, List.length_append, min_eq_left (by omega), List.take_left' hlen] at h256
    exact h256
  have hstart := le_rootfsStart hbs
  have hspan := rootfsSpan_lt hbs hwin
  have hrlen : a.rootfslen = a.rootfsSpan := by rw [rootfslen_eq hbs, Nat.mod_eq_of_lt hspan]
  have htotal : a.kernellen + a.rootfslen < 10 ^ 9 := by
    have := hwin.total
    omega
  have hfields := fields_hold ha htotal a.writeParts.1
  have haddr := hfields.rootfsAddress.sscanfU (align_lt _ _) rootfsaddr
  have hsize := hfields.rootfsLen.sscanfU (align_lt _ _) rootfslen
  have hoffset : wrapSub 32 a.rootfsoff extendedSize = a.rootfsStart - extendedSize := by
    have hend := hwin.window
    have hle : extendedSize ≤ a.rootfsStart := by omega
    rw [rootfsoff_eq hbs, wrapSub_mod hle, Nat.mod_eq_of_lt]
    rw [extendedSize]
    omega
  simp only [neufbox4ParseCfePartitions, htag, buildTag_length _ ha, ne_eq, not_true_eq_false, if_false,
    haddr, hsize, hoffset, hrlen]

theorem extendedSize_dvd_iff : 2 ^ k ∣ extendedSize ↔ k ≤ 22 := by
  have hsize : extendedSize = 2 ^ 22 * 767 := by norm_num [extendedSize]
  constructor
  · intro h
    by_contra hk
    have h23 : 2 ^ 23 ∣ extendedSize := (pow_dvd_pow 2 (by omega)).trans h
    rw [hsize] at h23
    omega
  · intro hk
    rw [hsize]
    exact (pow_dvd_pow 2 hk).mul_right 767

end Layout

/-- The driver's view of the root file system agrees with the image in every respect, provided that
the blocks are no larger than the alignment of the flash window, 4 MiB; with larger blocks the
partition does not start on a block boundary. -/
theorem flash_layout_iff (a : TagArgs) (file : List UInt8) (k fwoffset : ℕ) (hfile : tagfile a = .ok file)
    (hbs : a.flashBs = 2 ^ k) (hfw : a.fwaddr = extendedSize + fwoffset) (hwin : InWindow a) :
    LayoutAgrees a fwoffset file ↔ a.flashBs ≤ 2 ^ 22 := by
  obtain ⟨ha, rfl⟩ := tagfile_cases hfile
  have hstart := le_rootfsStart hbs
  have hoffset : a.flashBs ∣ a.rootfsStart - extendedSize ↔ a.flashBs ≤ 2 ^ 22 := by
    have hdvd : a.flashBs ∣ a.rootfsStart := dvd_roundUp _ _
    have hsub : a.flashBs ∣ a.rootfsStart - extendedSize ↔ a.flashBs ∣ extendedSize :=
      Nat.dvd_sub_iff_right (by omega) hdvd
    rw [hsub, hbs, extendedSize_dvd_iff, Nat.pow_le_pow_iff_right (by norm_num)]
  constructor
  · intro h
    obtain ⟨part, hpart, -, -, hdvd, -⟩ := h.region
      (List.replicate fwoffset 0 ++ (buildTag a a.writeParts.1 ++ a.imageData)) 0 0
      (by rw [List.drop_left' (List.length_replicate ..), List.take_length])
    rw [driver_partition ha hbs hwin hfw
      (by rw [List.drop_left' (List.length_replicate ..), List.take_length])] at hpart
    rw [← Option.some.inj hpart] at hdvd
    exact hoffset.mp hdvd
  · intro hle
    have hrlen : a.rootfslen = a.rootfsSpan := by
      rw [rootfslen_eq hbs, Nat.mod_eq_of_lt (rootfsSpan_lt hbs hwin)]
    have htotal : a.kernellen + a.rootfslen < 10 ^ 9 := by
      have := hwin.total
      omega
    refine ⟨(fields_hold ha htotal _).append ha _, fun flash rootfsaddr rootfslen hflash => ?_⟩
    refine ⟨_, driver_partition ha hbs hwin hfw hflash rootfsaddr rootfslen, ?_, le_rootfsSpan hbs,
      hoffset.mpr hle, ?_⟩
    · have hshift : a.rootfsStart - extendedSize = fwoffset + (a.rootfsStart - a.fwaddr) := by omega
      show (flash.drop (a.rootfsStart - extendedSize)).take a.rootfs.length = a.rootfs
      rw [hshift, ← List.drop_drop]
      exact slice_of_take a.rootfs hflash (image_rootfs ha hbs hwin)
    · show fwoffset + 256 + a.kernellen ≤ a.rootfsStart - extendedSize
      omega

/-- A root file system of one byte with erase blocks of the given size, at offset 64 KiB. -/
def oneByteRootfs (flashBs : ℕ) (hbs : flashBs < 2 ^ 32) : TagArgs :=
  plainImage [] [7] flashBs no_byte_size one_byte_size hbs

theorem flash_layout_64k :
    LayoutAgrees (oneByteRootfs (2 ^ 16) block_64k_size) 0x10000
      (buildTag (oneByteRootfs (2 ^ 16) block_64k_size) (oneByteRootfs (2 ^ 16) block_64k_size).writeParts.1 ++
        (oneByteRootfs (2 ^ 16) block_64k_size).imageData) := by
  have hacc : Accepted (oneByteRootfs (2 ^ 16) block_64k_size) := plainImage_accepted ..
  apply (flash_layout_iff _ _ 16 0x10000 (tagfile_accepted hacc) rfl (by decide +kernel)
    ⟨by decide +kernel, by decide +kernel⟩).mpr
  exact Nat.pow_le_pow_right (by norm_num) (by norm_num)

/-- With blocks of 8 MiB the root file system goes to `0xC0000000`, which is 4 MiB behind the start of
the flash. -/
theorem flash_layout_off_boundary :
    ¬ ∀ (a : TagArgs) (file : List UInt8) (k fwoffset : ℕ), tagfile a = .ok file → a.flashBs = 2 ^ k →
      a.fwaddr = extendedSize + fwoffset → InWindow a → LayoutAgrees a fwoffset file := by
  intro h
  have hacc : Accepted (oneByteRootfs (2 ^ 23) (by norm_num)) := plainImage_accepted ..
  have hwin : InWindow (oneByteRootfs (2 ^ 23) (by norm_num)) := ⟨by decide +kernel, by decide +kernel⟩
  have hlayout := h _ _ 23 0x10000 (tagfile_accepted hacc) rfl (by decide +kernel) hwin
  have hplaced : ∀ file : List UInt8,
      ((List.replicate 0x10000 0 ++ file).drop 0x10000).take file.length = file := by
    intro file
    rw [List.drop_left' (List.length_replicate ..), List.take_length]
  obtain ⟨part, hpart, -, -, hdvd, -⟩ := hlayout.region _ 0 0 (hplaced _)
  rw [driver_partition hacc rfl hwin (by decide +kernel) (hplaced _)] at hpart
  rw [← Option.some.inj hpart] at hdvd
  revert hdvd
  decide +kernel

end Neufbox.ImageTag
