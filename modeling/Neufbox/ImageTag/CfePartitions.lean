import Neufbox.ImageTag.FlashLayout

/-! # The partition table of the bcm963xx flash driver

The driver gives the root file system the spare blocks behind it. It derives the first spare block
from the total length in the tag, which does not count the 256 bytes of the tag itself; when these
push the kernel over a block boundary, the extended partition reaches one block too far, into the
nvram block at the end of the flash. -/
namespace Neufbox.ImageTag
open ByteStore Blocks CString Decimal WrapArith
set_option autoImplicit false
set_option maxHeartbeats 250000
set_option maxRecDepth 120000

/-! ## The driver -/

inductive PartName
  | cfe
  | kernel
  | rootfs
  | nvram
  deriving DecidableEq, Repr

/-- The variables that `parse_cfe_partitions` reads with `sscanf`, as they are before. -/
structure Scanned where
  rootfsaddr : ℕ
  rootfslen : ℕ
  kerneladdr : ℕ
  kernellen : ℕ
  totallen : ℕ

def Scanned.read (tag : List UInt8) (vars : Scanned) : Scanned where
  rootfsaddr := wrapSub 32 (sscanfU tag 94 vars.rootfsaddr) extendedSize
  rootfslen := sscanfU tag 106 vars.rootfslen
  kerneladdr := wrapSub 32 (sscanfU tag 116 vars.kerneladdr) extendedSize
  kernellen := sscanfU tag 128 vars.kernellen
  totallen := sscanfU tag 62 vars.totallen

/-- `roundup` of the kernel, in an `unsigned int`. -/
def roundup32 (x b : ℕ) : ℕ := ((x + (b - 1)) % 2 ^ 32 / b * b) % 2 ^ 32

def spareaddr (erasesize : ℕ) (s : Scanned) : ℕ := (roundup32 s.totallen erasesize + erasesize) % 2 ^ 32

def sparelen (erasesize size : ℕ) (s : Scanned) : ℕ :=
  wrapSub 32 (wrapSub 32 size (spareaddr erasesize s)) erasesize

/-- The table that `parse_cfe_partitions` of `bcm963xx-flash.c` builds. -/
def cfePartitions (erasesize size : ℕ) (s : Scanned) : List (PartName × Partition) :=
  [(.cfe, ⟨0, erasesize⟩)] ++
  (if 0 < s.kernellen then [(.kernel, ⟨s.kerneladdr, s.kernellen⟩)] else []) ++
  (if 0 < s.rootfslen then
    [(.rootfs, ⟨s.rootfsaddr, if 0 < sparelen erasesize size s then
      (s.rootfslen + sparelen erasesize size s) % 2 ^ 32 else s.rootfslen⟩)] else []) ++
  [(.nvram, ⟨wrapSub 32 size erasesize, erasesize⟩)]

/-- `parse_cfe_partitions`: the tag is read from the second erase block; `none` for a short read. -/
def bcm963xxParseCfePartitions (flash : List UInt8) (erasesize : ℕ) (vars : Scanned) :
    Option (List (PartName × Partition)) :=
  let tag := (flash.drop erasesize).take 256
  if tag.length ≠ 256 then none
  else some (cfePartitions erasesize flash.length (vars.read tag))

/-! ## Safety -/

def Partition.Disjoint (p q : Partition) : Prop :=
  p.offset + p.size ≤ q.offset ∨ q.offset + q.size ≤ p.offset

/-- Every partition lies inside the flash, and the root file system overlaps no other. -/
structure TableSafe (size : ℕ) (parts : List (PartName × Partition)) : Prop where
  inside : ∀ p ∈ parts, p.2.offset + p.2.size ≤ size
  apart : ∀ p ∈ parts, ∀ q ∈ parts, p.1 = .rootfs → q.1 ≠ .rootfs → p.2.Disjoint q.2

/-- What the driver makes of the flash is safe, and the spare space it computes does not wrap. -/
structure CfeSafe (flash : List UInt8) (vars : Scanned) : Prop where
  table : ∃ parts, bcm963xxParseCfePartitions flash 65536 vars = some parts ∧ TableSafe flash.length parts
  spare : spareaddr 65536 (vars.read ((flash.drop 65536).take 256)) + 65536 ≤ flash.length

/-- The numbers in the tag of an image at the second block of a flash with blocks of 64 KiB. -/
def imageNumbers (a : TagArgs) : Scanned where
  rootfsaddr := 65536 + roundUp (a.kernel.length + 268) 65536
  rootfslen := roundUp a.rootfs.length 65536
  kerneladdr := 65536 + 256
  kernellen := a.kernel.length + 12
  totallen := a.kernel.length + 12 + roundUp a.rootfs.length 65536

/-- An image with the default options, in a flash of whole erase blocks that has a block left behind
the image. The boards map the flash up to the physical address `0x1FFFFFFF`. -/
structure DefaultImage (a : TagArgs) (flash file : List UInt8) : Prop where
  built : tagfile a = .ok file
  flashBs : a.flashBs = 2 ^ 16
  fwaddr : a.fwaddr = extendedSize + 65536
  placed : (flash.drop 65536).take file.length = file
  blocks : 65536 ∣ flash.length
  size : flash.length ≤ 2 ^ 29
  fits : 65536 + file.length + 65536 ≤ flash.length

namespace DefaultImage
variable {a : TagArgs} {flash file : List UInt8} (h : DefaultImage a flash file)
include h

theorem start_eq : a.rootfsStart = extendedSize + (65536 + roundUp (a.kernel.length + 268) 65536) := by
  have hsum : a.kerneloff + a.kernellen = extendedSize + 65536 + (a.kernel.length + 268) := by
    rw [TagArgs.kerneloff, TagArgs.kernellen, h.fwaddr]
    omega
  have hdvd : 65536 ∣ extendedSize + 65536 := by decide +kernel
  have hbs : a.flashBs = 65536 := h.flashBs
  rw [TagArgs.rootfsStart, hsum, hbs, roundUp_add_of_dvd (by norm_num) hdvd, Nat.add_assoc]

theorem span_eq : a.rootfsSpan = roundUp a.rootfs.length 65536 := by
  rw [TagArgs.rootfsSpan, h.flashBs]
  norm_num

theorem kernel_fits : 65536 + (a.kernel.length + 268) + 65536 ≤ flash.length := by
  obtain ⟨ha, rfl⟩ := tagfile_cases h.built
  have hfits := h.fits
  have hkernel : a.kernel.length + 12 ≤ a.imageData.length := a.imageData_length_ge
  rw [List.length_append, buildTag_length _ ha] at hfits
  omega

theorem rootfsStart_lt : a.rootfsStart < 2 ^ 32 := by
  have hkernel := h.kernel_fits
  have hsize := h.size
  have hlt := roundUp_lt (x := a.kernel.length + 268) (b := 65536) (by norm_num)
  rw [h.start_eq, extendedSize]
  omega

theorem rootfsPos_block : a.rootfsPos = roundUp (a.kernel.length + 268) 65536 := by
  rw [rootfsPos_eq (k := 16) h.flashBs h.rootfsStart_lt, h.start_eq, h.fwaddr, ← Nat.add_assoc,
    Nat.add_sub_cancel_left]

theorem rootfs_fits (hroot : a.rootfs ≠ []) :
    65536 + (roundUp (a.kernel.length + 268) 65536 + a.rootfs.length) + 65536 ≤ flash.length := by
  obtain ⟨ha, rfl⟩ := tagfile_cases h.built
  have hfits := h.fits
  rw [List.length_append, buildTag_length _ ha, TagArgs.imageData_length, if_neg hroot,
    h.rootfsPos_block] at hfits
  omega

/-- Rounded up to whole blocks, the image still leaves the last block free. -/
theorem end_le : 65536 + roundUp (a.kernel.length + 268) 65536 + roundUp a.rootfs.length 65536 + 65536 ≤
    flash.length := by
  have hkernel := h.kernel_fits
  have hspare : 65536 ∣ flash.length - 131072 := Nat.dvd_sub h.blocks (by norm_num)
  have hstart : roundUp (a.kernel.length + 268) 65536 ≤ flash.length - 131072 :=
    roundUp_le (by norm_num) hspare (by omega)
  by_cases hroot : a.rootfs = []
  · have hzero : roundUp a.rootfs.length 65536 = 0 := by rw [hroot]; rfl
    omega
  · have hfits := h.rootfs_fits hroot
    have hspan : roundUp a.rootfs.length 65536 ≤
        flash.length - 131072 - roundUp (a.kernel.length + 268) 65536 :=
      roundUp_le (by norm_num) (Nat.dvd_sub hspare (dvd_roundUp _ _)) (by omega)
    omega

theorem tag_read : (flash.drop 65536).take 256 = buildTag a a.writeParts.1 := by
  obtain ⟨ha, rfl⟩ := tagfile_cases h.built
  have h256 := congrArg (List.take 256) h.placed
  have hlen := buildTag_length a.writeParts.1 ha
  rw [List.take_take, List.length_append, min_eq_left (by omega), List.take_left' hlen] at h256
  exact h256

theorem numbers (vars : Scanned) : vars.read (buildTag a a.writeParts.1) = imageNumbers a := by
  obtain ⟨ha, -⟩ := tagfile_cases h.built
  have hend := h.end_le
  have hsize := h.size
  have hspan : a.rootfslen = roundUp a.rootfs.length 65536 := by
    rw [rootfslen_eq (k := 16) h.flashBs, h.span_eq, Nat.mod_eq_of_lt (by omega)]
  have hstart : a.rootfsoff = extendedSize + (65536 + roundUp (a.kernel.length + 268) 65536) := by
    rw [rootfsoff_eq (k := 16) h.flashBs, h.start_eq, Nat.mod_eq_of_lt (by rw [extendedSize]; omega)]
  have hle : a.kernel.length + 268 ≤ roundUp (a.kernel.length + 268) 65536 := le_roundUp (by norm_num)
  have hfields := fields_hold ha (by rw [hspan, TagArgs.kernellen]; omega) a.writeParts.1
  have hsub : ∀ x, extendedSize + x < 2 ^ 32 → wrapSub 32 (extendedSize + x) extendedSize = x := by
    intro x hx
    rw [wrapSub_of_le (by omega) hx, Nat.add_sub_cancel_left]
  have hoff : extendedSize + (65536 + roundUp (a.kernel.length + 268) 65536) < 2 ^ 32 := by
    rw [extendedSize]
    omega
  have hkoff : a.kerneloff = extendedSize + (65536 + 256) := by
    rw [TagArgs.kerneloff, h.fwaddr]
  rw [Scanned.read, hfields.rootfsAddress.sscanfU (by omega), hfields.rootfsLen.sscanfU (by omega),
    hfields.kernelAddress.sscanfU (by rw [hkoff, extendedSize]; norm_num),
    hfields.kernelLen.sscanfU (by rw [TagArgs.kernellen]; omega),
    hfields.imagelen.sscanfU (by rw [hspan, TagArgs.kernellen]; omega), hstart, hsub _ hoff, hkoff,
    hsub _ (by norm_num [extendedSize]), hspan]
  rfl

theorem parse (vars : Scanned) : bcm963xxParseCfePartitions flash 65536 vars =
    some (cfePartitions 65536 flash.length (imageNumbers a)) := by
  obtain ⟨ha, -⟩ := tagfile_cases h.built
  simp only [bcm963xxParseCfePartitions, h.tag_read, buildTag_length _ ha, h.numbers, ne_eq,
    not_true_eq_false, if_false]

theorem spareaddr_eq : spareaddr 65536 (imageNumbers a) =
    roundUp a.rootfs.length 65536 + roundUp (a.kernel.length + 12) 65536 + 65536 := by
  have hend := h.end_le
  have hsize := h.size
  have hmono : roundUp (a.kernel.length + 12) 65536 ≤ roundUp (a.kernel.length + 268) 65536 :=
    roundUp_mono (by omega)
  have hround : roundUp (a.kernel.length + 12 + roundUp a.rootfs.length 65536) 65536 =
      roundUp a.rootfs.length 65536 + roundUp (a.kernel.length + 12) 65536 := by
    rw [Nat.add_comm, roundUp_add_of_dvd (by norm_num) (dvd_roundUp _ _)]
  have hle := le_roundUp (x := a.kernel.length + 12) (b := 65536) (by norm_num)
  have hsame : roundup32 (imageNumbers a).totallen 65536 =
      roundUp (a.kernel.length + 12 + roundUp a.rootfs.length 65536) 65536 := by
    have hsum : (imageNumbers a).totallen = a.kernel.length + 12 + roundUp a.rootfs.length 65536 := rfl
    have hlt : roundUp (a.kernel.length + 12 + roundUp a.rootfs.length 65536) 65536 < 2 ^ 32 := by omega
    rw [roundup32, hsum, Nat.mod_eq_of_lt (by omega : _ + (65536 - 1) < 2 ^ 32),
      ← Nat.add_sub_assoc (by norm_num)]
    exact Nat.mod_eq_of_lt hlt
  rw [spareaddr, hsame, hround, Nat.mod_eq_of_lt (by omega)]

/-- The spare space starts as many blocks behind the image as the kernel has without the tag. -/
theorem sparelen_eq : sparelen 65536 flash.length (imageNumbers a) =
    flash.length - (roundUp a.rootfs.length 65536 + roundUp (a.kernel.length + 12) 65536 + 131072) := by
  have hend := h.end_le
  have hsize := h.size
  have hmono : roundUp (a.kernel.length + 12) 65536 ≤ roundUp (a.kernel.length + 268) 65536 :=
    roundUp_mono (by omega)
  have hinner : wrapSub 32 flash.length (spareaddr 65536 (imageNumbers a)) =
      flash.length - (roundUp a.rootfs.length 65536 + roundUp (a.kernel.length + 12) 65536 + 65536) := by
    rw [h.spareaddr_eq, wrapSub_of_le (by omega) (by omega)]
  rw [sparelen, hinner, wrapSub_of_le (by omega) (by omega)]
  omega

/-- The table that the driver builds; the root file system takes what lies between its start and the
last block, and beyond it the difference of the two roundings. -/
theorem table_eq : cfePartitions 65536 flash.length (imageNumbers a) =
    [(.cfe, ⟨0, 65536⟩), (.kernel, ⟨65536 + 256, a.kernel.length + 12⟩)] ++
    (if a.rootfs = [] then [] else [(.rootfs, ⟨65536 + roundUp (a.kernel.length + 268) 65536,
      flash.length - 131072 - roundUp (a.kernel.length + 12) 65536⟩)]) ++
    [(.nvram, ⟨flash.length - 65536, 65536⟩)] := by
  have hend := h.end_le
  have hsize := h.size
  have hmono : roundUp (a.kernel.length + 12) 65536 ≤ roundUp (a.kernel.length + 268) 65536 :=
    roundUp_mono (by omega)
  have hrootlen : (imageNumbers a).rootfslen = roundUp a.rootfs.length 65536 := rfl
  have hkernel : 0 < (imageNumbers a).kernellen := Nat.succ_pos _
  have hnvram : wrapSub 32 flash.length 65536 = flash.length - 65536 :=
    wrapSub_of_le (by omega) (by omega)
  have hsize' : (if 0 < sparelen 65536 flash.length (imageNumbers a) then
      ((imageNumbers a).rootfslen + sparelen 65536 flash.length (imageNumbers a)) % 2 ^ 32
      else (imageNumbers a).rootfslen) = flash.length - 131072 - roundUp (a.kernel.length + 12) 65536 := by
    rw [h.sparelen_eq, hrootlen]
    split
    · rw [Nat.mod_eq_of_lt (by omega)]
      omega
    · omega
  rw [cfePartitions, if_pos hkernel, hsize', hnvram, hrootlen]
  by_cases hroot : a.rootfs = []
  · rw [if_pos hroot, hroot]
    rfl
  · have hpos : 0 < roundUp a.rootfs.length 65536 :=
      lt_of_lt_of_le (List.length_pos_of_ne_nil hroot) (le_roundUp (by norm_num))
    rw [if_neg hroot, if_pos hpos]
    rfl

/-- A root file system partition that spares the nvram block needs equal roundings. -/
theorem eq_of_safe (hroot : a.rootfs ≠ []) {vars : Scanned} (hsafe : CfeSafe flash vars) :
    roundUp (a.kernel.length + 268) 65536 = roundUp (a.kernel.length + 12) 65536 := by
  have hend := h.end_le
  have hmono : roundUp (a.kernel.length + 12) 65536 ≤ roundUp (a.kernel.length + 268) 65536 :=
    roundUp_mono (by omega)
  obtain ⟨⟨parts, hparts, htable⟩, -⟩ := hsafe
  rw [h.parse, h.table_eq, if_neg hroot] at hparts
  have hdisjoint := htable.apart
    (.rootfs, ⟨65536 + roundUp (a.kernel.length + 268) 65536,
      flash.length - 131072 - roundUp (a.kernel.length + 12) 65536⟩)
    (by rw [← Option.some.inj hparts]; simp) (.nvram, ⟨flash.length - 65536, 65536⟩)
    (by rw [← Option.some.inj hparts]; simp) rfl (by simp)
  simp only [Partition.Disjoint] at hdisjoint
  omega

end DefaultImage

/-- The table is safe exactly when there is no root file system or the tag does not push the end of
the kernel over a block boundary. -/
theorem cfe_partitions_safe_iff (a : TagArgs) (flash file : List UInt8) (vars : Scanned)
    (h : DefaultImage a flash file) :
    CfeSafe flash vars ↔
      a.rootfs = [] ∨ roundUp (a.kernel.length + 268) 65536 = roundUp (a.kernel.length + 12) 65536 := by
  have hend := h.end_le
  have hmono : roundUp (a.kernel.length + 12) 65536 ≤ roundUp (a.kernel.length + 268) 65536 :=
    roundUp_mono (by omega)
  have hle : a.kernel.length + 268 ≤ roundUp (a.kernel.length + 268) 65536 := le_roundUp (by norm_num)
  constructor
  · intro hsafe
    by_cases hroot : a.rootfs = []
    · exact Or.inl hroot
    · exact Or.inr (h.eq_of_safe hroot hsafe)
  · intro hcond
    refine ⟨⟨_, h.parse vars, ?_⟩, ?_⟩
    · rw [h.table_eq]
      by_cases hroot : a.rootfs = []
      · rw [if_pos hroot]
        constructor
        · simp
          omega
        · simp
      · have hsame := hcond.resolve_left hroot
        rw [if_neg hroot]
        constructor
        · simp
          omega
        · simp [Partition.Disjoint]
          omega
    · rw [h.tag_read, h.numbers, h.spareaddr_eq]
      omega

/-! ## Two flashes -/

/-- A flash of the given number of blocks with a file at its second block. -/
def flashWith (file : List UInt8) (blocks : ℕ) : List UInt8 :=
  List.replicate 65536 0 ++ (file ++ List.replicate (65536 * blocks - 65536 - file.length) 0)

theorem flashWith_defaultImage {a : TagArgs} {file : List UInt8} (blocks : ℕ) (hbuilt : tagfile a = .ok file)
    (hbs : a.flashBs = 2 ^ 16) (hfw : a.fwaddr = extendedSize + 65536) (hblocks : blocks ≤ 2 ^ 13)
    (hfits : 65536 + file.length + 65536 ≤ 65536 * blocks) : DefaultImage a (flashWith file blocks) file := by
  have hlen : (flashWith file blocks).length = 65536 * blocks := by
    simp only [flashWith, List.length_append, List.length_replicate]
    omega
  refine ⟨hbuilt, hbs, hfw, ?_, ?_, ?_, ?_⟩
  · rw [flashWith, List.drop_left' (List.length_replicate ..), List.take_left]
  · rw [hlen]
    exact dvd_mul_right 65536 blocks
  · rw [hlen]
    omega
  · rw [hlen]
    exact hfits

/-- A kernel of the given length and a root file system of one byte. -/
def kernelOfLength (n : ℕ) (hn : n < 2 ^ 63) : TagArgs :=
  plainImage (List.replicate n 0) [7] (2 ^ 16) (by rw [List.length_replicate]; exact hn) one_byte_size block_64k_size

def kernelOfLengthFile (n : ℕ) (hn : n < 2 ^ 63) : List UInt8 :=
  buildTag (kernelOfLength n hn) (kernelOfLength n hn).writeParts.1 ++ (kernelOfLength n hn).imageData

theorem kernelOfLengthFile_length (n : ℕ) (hn : n < 2 ^ 63) {pos : ℕ}
    (hpos : (kernelOfLength n hn).rootfsPos = pos) (hle : n + 268 ≤ pos) :
    (kernelOfLengthFile n hn).length = pos + 1 := by
  have hacc : Accepted (kernelOfLength n hn) := plainImage_accepted ..
  have hkernel : (kernelOfLength n hn).kernellen = n + 12 := congrArg (· + 12) List.length_replicate
  have hroot : (kernelOfLength n hn).rootfs = [7] := rfl
  rw [kernelOfLengthFile, List.length_append, buildTag_length _ hacc, TagArgs.imageData_length, hroot,
    if_neg (by simp), hpos, hkernel, List.length_singleton]
  omega

theorem kernelOfLength_image (n blocks : ℕ) (hn : n < 2 ^ 63) {pos : ℕ}
    (hpos : (kernelOfLength n hn).rootfsPos = pos) (hle : n + 268 ≤ pos) (hblocks : blocks ≤ 2 ^ 13)
    (hfits : 65536 + (pos + 1) + 65536 ≤ 65536 * blocks) :
    DefaultImage (kernelOfLength n hn) (flashWith (kernelOfLengthFile n hn) blocks)
      (kernelOfLengthFile n hn) := by
  have hacc : Accepted (kernelOfLength n hn) := plainImage_accepted ..
  apply flashWith_defaultImage blocks (tagfile_accepted hacc) rfl _ hblocks
  · show 65536 + (kernelOfLengthFile n hn).length + 65536 ≤ 65536 * blocks
    rw [kernelOfLengthFile_length n hn hpos hle]
    exact hfits
  · rw [extendedSize]
    rfl

theorem kernelOfLength_rootfsPos (n : ℕ) (hn : n < 2 ^ 63) :
    (kernelOfLength n hn).rootfsPos =
      let off := wrapSub 64 (align (0xBFC10000 + 256 + (n + 12)) (2 ^ 16)) 0xBFC10000
      if off < 2 ^ 63 then off else 256 + (n + 12) := by
  have hkernel : (kernelOfLength n hn).kernellen = n + 12 := congrArg (· + 12) List.length_replicate
  rw [TagArgs.rootfsPos, TagArgs.rootfsoff, TagArgs.kerneloff, hkernel]
  rfl

theorem cfe_partitions_safe_small_kernel :
    CfeSafe (flashWith (kernelOfLengthFile 0 (Nat.two_pow_pos 63)) 4) ⟨0, 0, 0, 0, 0⟩ := by
  have hpos : (kernelOfLength 0 (by norm_num)).rootfsPos = 65536 := by
    rw [kernelOfLength_rootfsPos]
    decide +kernel
  have himage := kernelOfLength_image 0 4 (by norm_num) hpos (by norm_num) (by norm_num) (by norm_num)
  exact (cfe_partitions_safe_iff _ _ _ _ himage).mpr (Or.inr (by decide +kernel))

/-- With a kernel of 65269 bytes the tag moves the root file system to the third block behind it,
but the spare space is computed from the second: the partition ends with the nvram block. -/
theorem cfe_partitions_overlap :
    ¬ ∀ (a : TagArgs) (flash file : List UInt8) (vars : Scanned), DefaultImage a flash file →
      CfeSafe flash vars := by
  intro h
  have hpos : (kernelOfLength 65269 (by norm_num)).rootfsPos = 131072 := by
    rw [kernelOfLength_rootfsPos]
    decide +kernel
  have himage := kernelOfLength_image 65269 6 (by norm_num) hpos (by norm_num) (by norm_num) (by norm_num)
  have hroot : (kernelOfLength 65269 (by norm_num)).rootfs ≠ [] := by
    show ([7] : List UInt8) ≠ []
    simp
  have heq := himage.eq_of_safe hroot (h _ _ _ ⟨0, 0, 0, 0, 0⟩ himage)
  have hlen : (kernelOfLength 65269 (by norm_num)).kernel.length = 65269 := List.length_replicate
  rw [hlen] at heq
  revert heq
  decide +kernel

end Neufbox.ImageTag
