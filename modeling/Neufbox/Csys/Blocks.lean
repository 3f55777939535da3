import Neufbox.Csys.Write
import Neufbox.Library.WrapArith

/-! # Sizes of blocks

The size of a block is made from an offset that is kept in 32 bits, and the size in its header from its alignment.
`unitBlocks_of_exact` and `exact_of_unitBlocks` say when both are right, for blocks one behind the other. -/
namespace Neufbox.Csys
open Neufbox.Memory
set_option autoImplicit false
set_option maxHeartbeats 250000
set_option maxRecDepth 120000

/-! ## Rounding up -/

/-- `align` without a bound on the numbers. -/
def alignUp (base alignment : ℕ) : ℕ :=
  if alignment = 0 then base else base + (alignment - 1) - ((base + (alignment - 1)) &&& (alignment - 1))

theorem le_alignUp (base alignment : ℕ) : base ≤ alignUp base alignment := by
  unfold alignUp
  split
  · exact le_rfl
  · have hle := @Nat.and_le_right (base + (alignment - 1)) (alignment - 1)
    omega

section Align
variable {base a : BitVec 32} (ha : a ≠ 0)
include ha

theorem mask_toNat : (a - 1).toNat = a.toNat - 1 ∧ (~~~(a - 1)).toNat = 2 ^ 32 - 1 - (a.toNat - 1) := by
  have hpos : 1 ≤ a.toNat := Nat.one_le_iff_ne_zero.mpr fun h => ha (BitVec.eq_of_toNat_eq h)
  have hone : (a - 1).toNat = a.toNat - 1 := by
    rw [BitVec.toNat_sub_of_le (by rw [BitVec.le_def]; exact hpos)]
    rfl
  rw [BitVec.toNat_not, hone]
  exact ⟨rfl, rfl⟩

theorem align_eq_and : align base a = (base + (a - 1)) &&& ~~~(a - 1) := by
  rw [align, if_neg ha, BitVec.sub_eq_add_neg, BitVec.sub_eq_add_neg, BitVec.add_assoc]

theorem align_toNat_of_ne (h : base.toNat + (a.toNat - 1) < 2 ^ 32) : (align base a).toNat = alignUp base.toNat a.toNat := by
  have hne : a.toNat ≠ 0 := fun h => ha (BitVec.eq_of_toNat_eq h)
  obtain ⟨hmask, hnot⟩ := mask_toNat ha
  have hsum : (base + (a - 1)).toNat = base.toNat + (a.toNat - 1) := by
    rw [BitVec.toNat_add, hmask, Nat.mod_eq_of_lt h]
  have hclear := WrapArith.and_not_mask_add (by omega : a.toNat - 1 < 2 ^ 32) (base.toNat + (a.toNat - 1))
  rw [Nat.mod_eq_of_lt h] at hclear
  rw [align_eq_and ha, BitVec.toNat_and, hsum, hnot, alignUp, if_neg hne]
  omega

/-- A sum that wraps is rounded to something below what was to be rounded up. -/
theorem align_lt_of_wrap (h : 2 ^ 32 ≤ base.toNat + (a.toNat - 1)) : (align base a).toNat < base.toNat := by
  have hlt := a.isLt
  have hle : (align base a).toNat ≤ 2 ^ 32 - 1 - (a.toNat - 1) := by
    rw [align_eq_and ha, BitVec.toNat_and, ← (mask_toNat ha).2]
    exact Nat.and_le_right
  omega

end Align

theorem align_zero (base : BitVec 32) : align base 0 = base := if_pos rfl

theorem align_toNat {base a : BitVec 32} (h : base.toNat + (a.toNat - 1) < 2 ^ 32) :
    (align base a).toNat = alignUp base.toNat a.toNat := by
  by_cases ha : a = 0
  · rw [ha, align_zero]
    rfl
  · exact align_toNat_of_ne ha h

theorem sum_lt_of_le_align {base a : BitVec 32} (h : base.toNat ≤ (align base a).toNat) :
    base.toNat + (a.toNat - 1) < 2 ^ 32 := by
  have hbase := base.isLt
  by_cases ha : a = 0
  · rw [ha]
    exact hbase
  · by_contra hwrap
    have hlt := align_lt_of_wrap ha (not_lt.mp hwrap)
    omega

/-! ## Blocks -/

/-- What a block needs in the flash. -/
def CsysBlock.need (b : CsysBlock) : ℕ := b.fileSize.toNat + b.sizeHdr.toNat + b.sizeCsum.toNat

/-- A block with the sizes of one of the types. -/
structure CsysBlock.Ready (files : Files) (b : CsysBlock) : Prop where
  file : ∀ name, b.fileName = some name → ∃ content, files name = some content ∧ b.fileSize = BitVec.ofNat 32 content.length
  noFile : b.fileName = none → b.fileSize = 0
  hdr : b.sizeHdr = 0 ∨ b.sizeHdr = csysHeaderSize ∧ b.sig.length = 4
  csum : b.sizeCsum.toNat ≤ 2
  avail : b.sizeAvail = b.size - b.sizeHdr - b.sizeCsum

/-- Blocks of the sizes that they get one behind the other. -/
def Chained : BitVec 32 → List CsysBlock → Prop
  | _, [] => True
  | offs, b :: bs =>
    b.size = align (offs + b.fileSize + b.sizeHdr + b.sizeCsum) b.align - offs ∧ Chained (offs + b.size) bs

/-- Blocks whose sums do not wrap and, where they have a header, that end one alignment behind their start. -/
def UnitBlocks : ℕ → List CsysBlock → Prop
  | _, [] => True
  | offs, b :: bs =>
    offs + b.need + (b.align.toNat - 1) < 2 ^ 32 ∧
      (b.sizeHdr ≠ 0 → alignUp (offs + b.need) b.align.toNat = offs + b.align.toNat) ∧
      UnitBlocks (alignUp (offs + b.need) b.align.toNat) bs

/-- A block that is as long as its size says, with a header that says what follows it. -/
structure CsysBlock.Exact (files : Files) (b : CsysBlock) : Prop where
  size : (b.bytes files).length = b.size.toNat
  header : b.sizeHdr ≠ 0 → leWord (((b.bytes files).drop 8).take 4) = (b.bytes files).length - 12

section Block
variable {files : Files} {b : CsysBlock} (hb : b.Ready files)
include hb

theorem CsysBlock.Ready.content_length : (b.content files).length = b.fileSize.toNat := by
  unfold CsysBlock.content
  cases hname : b.fileName with
  | none =>
    rw [hb.noFile hname]
    rfl
  | some name =>
    obtain ⟨content, hfile, hsize⟩ := hb.file name hname
    have hle : b.fileSize.toNat ≤ content.length := by
      rw [hsize, BitVec.toNat_ofNat]
      exact Nat.mod_le _ _
    dsimp only
    rw [hfile, Option.getD_some, List.length_take, Nat.min_eq_left hle]

theorem CsysBlock.Ready.header_length (hhdr : b.sizeHdr ≠ 0) : b.header.length = 12 := by
  rcases hb.hdr with hzero | ⟨-, hsig⟩
  · exact absurd hzero hhdr
  · rw [CsysBlock.header, List.length_append, List.length_append, hsig]
    rfl

theorem CsysBlock.Ready.csum_length : (b.csum files).length = b.sizeCsum.toNat := by
  unfold CsysBlock.csum
  split
  next hzero =>
    rw [hzero]
    rfl
  · rw [List.length_take]
    exact Nat.min_eq_left hb.csum

/-- The length of a block whose file has room. -/
theorem CsysBlock.Ready.bytes_length (havail : b.fileSize.toNat ≤ b.sizeAvail.toNat) :
    (b.bytes files).length = b.sizeHdr.toNat + b.sizeAvail.toNat + b.sizeCsum.toNat := by
  have hpad : (b.sizeAvail - b.fileSize).toNat = b.sizeAvail.toNat - b.fileSize.toNat :=
    BitVec.toNat_sub_of_le (by rw [BitVec.le_def]; exact havail)
  have hhdr : (if b.sizeHdr = 0 then [] else b.header).length = b.sizeHdr.toNat := by
    split
    next hzero =>
      rw [hzero]
      rfl
    next hne =>
      rw [hb.header_length hne]
      rcases hb.hdr with hzero | ⟨htwelve, -⟩
      · exact absurd hzero hne
      · rw [htwelve]
        rfl
  rw [CsysBlock.bytes, List.length_append, List.length_append, List.length_append, List.length_replicate, hhdr, hpad,
    hb.content_length, hb.csum_length]
  omega

/-- The size in the header, as it is read back. -/
theorem CsysBlock.Ready.header_size (hhdr : b.sizeHdr ≠ 0) :
    leWord (((b.bytes files).drop 8).take 4) = (b.align - csysHeaderSize).toNat := by
  rcases hb.hdr with hzero | ⟨htwelve, hsig⟩
  · exact absurd hzero hhdr
  · have hdrop : b.bytes files = (b.sig ++ le32 b.addr) ++ (le32 (b.align - csysHeaderSize) ++
        (b.content files ++ (List.replicate (b.sizeAvail - b.fileSize).toNat b.padc ++ b.csum files))) := by
      rw [CsysBlock.bytes, if_neg hhdr, CsysBlock.header, htwelve]
      simp only [List.append_assoc]
    have hlen : (b.sig ++ le32 b.addr).length = 8 := by
      rw [List.length_append, hsig]
      rfl
    have hfour : (le32 (b.align - csysHeaderSize)).length = 4 := rfl
    rw [hdrop, List.drop_left' hlen, List.take_left' hfour, le32, leWord_leBytes (BitVec.isLt _)]

end Block

/-! ## One block -/

section Step
variable {files : Files} {b : CsysBlock} {offs : BitVec 32} (hb : b.Ready files)
  (hsize : b.size = align (offs + b.fileSize + b.sizeHdr + b.sizeCsum) b.align - offs)

theorem base_toNat (h : offs.toNat + b.need < 2 ^ 32) :
    (offs + b.fileSize + b.sizeHdr + b.sizeCsum).toNat = offs.toNat + b.need := by
  unfold CsysBlock.need at h ⊢
  rw [BitVec.toNat_add, BitVec.toNat_add, BitVec.toNat_add]
  omega

include hsize

theorem offs_add_size : offs + b.size = align (offs + b.fileSize + b.sizeHdr + b.sizeCsum) b.align := by
  rw [hsize, BitVec.add_comm, BitVec.sub_add_cancel]

/-- Without a wrap a block ends where it should. -/
theorem end_of_sum (hsum : offs.toNat + b.need + (b.align.toNat - 1) < 2 ^ 32) :
    (offs + b.size).toNat = alignUp (offs.toNat + b.need) b.align.toNat ∧
      offs.toNat + b.size.toNat = alignUp (offs.toNat + b.need) b.align.toNat := by
  have hbase := base_toNat (by omega : offs.toNat + b.need < 2 ^ 32)
  have halign := @align_toNat (offs + b.fileSize + b.sizeHdr + b.sizeCsum) b.align (by omega)
  have hend : (offs + b.size).toNat = alignUp (offs.toNat + b.need) b.align.toNat := by
    rw [offs_add_size hsize, halign, hbase]
  have hle := le_alignUp (offs.toNat + b.need) b.align.toNat
  have hdiff : b.size = offs + b.size - offs := by rw [BitVec.add_comm, BitVec.add_sub_cancel]
  have hnat : b.size.toNat = (offs + b.size).toNat - offs.toNat := by
    rw [hdiff, BitVec.toNat_sub_of_le (by rw [BitVec.le_def]; omega), ← hdiff]
  exact ⟨hend, by omega⟩

include hb

/-- A block that is as long as its size says, inside the 32 bits, was rounded up without a wrap. -/
theorem sum_of_length (havail : b.fileSize.toNat ≤ b.sizeAvail.toNat) (hlen : (b.bytes files).length = b.size.toNat)
    (hroom : offs.toNat + b.size.toNat < 2 ^ 32) : offs.toNat + b.need + (b.align.toNat - 1) < 2 ^ 32 := by
  have hneed : b.need ≤ b.size.toNat := by
    rw [hb.bytes_length havail] at hlen
    unfold CsysBlock.need
    omega
  have hbase := base_toNat (by omega : offs.toNat + b.need < 2 ^ 32)
  have hend : (offs + b.size).toNat = offs.toNat + b.size.toNat := by
    rw [BitVec.toNat_add, Nat.mod_eq_of_lt hroom]
  rw [offs_add_size hsize] at hend
  rw [← hbase]
  exact sum_lt_of_le_align (by omega)

omit hsize in
/-- The header is right where the size is the alignment. -/
theorem header_iff (hhdr : b.sizeHdr ≠ 0) (hlen : (b.bytes files).length = b.size.toNat) (hneed : b.need ≤ b.size.toNat) :
    leWord (((b.bytes files).drop 8).take 4) = (b.bytes files).length - 12 ↔ b.size.toNat = b.align.toNat := by
  have htwelve : b.sizeHdr.toNat = 12 := by
    rcases hb.hdr with hzero | ⟨htwelve, -⟩
    · exact absurd hzero hhdr
    · rw [htwelve]
      rfl
  have hhdrSize : csysHeaderSize.toNat = 12 := rfl
  have hsizeLt := b.size.isLt
  have halignLt := b.align.isLt
  unfold CsysBlock.need at hneed
  rw [hb.header_size hhdr, hlen, BitVec.toNat_sub, hhdrSize]
  omega

theorem exact_of_sum (hsum : offs.toNat + b.need + (b.align.toNat - 1) < 2 ^ 32)
    (hunit : b.sizeHdr ≠ 0 → alignUp (offs.toNat + b.need) b.align.toNat = offs.toNat + b.align.toNat) : b.Exact files := by
  have hend := (end_of_sum hsize hsum).2
  have hle := le_alignUp (offs.toNat + b.need) b.align.toNat
  have hneed : b.need ≤ b.size.toNat := by omega
  have havail : b.sizeAvail.toNat = b.size.toNat - b.sizeHdr.toNat - b.sizeCsum.toNat := by
    have hsizeLt := b.size.isLt
    unfold CsysBlock.need at hneed
    rw [hb.avail, BitVec.toNat_sub, BitVec.toNat_sub]
    omega
  have hlen : (b.bytes files).length = b.size.toNat := by
    unfold CsysBlock.need at hneed
    rw [hb.bytes_length (by omega)]
    omega
  refine ⟨hlen, fun hhdr => (header_iff hb hhdr hlen hneed).mpr ?_⟩
  have heq := hunit hhdr
  omega

end Step

/-! ## Blocks one behind the other -/

section Chain
variable {files : Files} {bs : List CsysBlock} {offs : BitVec 32} (hready : ∀ b ∈ bs, b.Ready files)
  (hchain : Chained offs bs)
include hready hchain

theorem unitBlocks_of_exact (havail : ∀ b ∈ bs, b.fileSize.toNat ≤ b.sizeAvail.toNat)
    (hexact : ∀ b ∈ bs, b.Exact files) (hroom : offs.toNat + (bs.map fun b => b.size.toNat).sum < 2 ^ 32) :
    UnitBlocks offs.toNat bs := by
  induction bs generalizing offs with
  | nil => trivial
  | cons b bs ih =>
    obtain ⟨hsize, hrest⟩ := hchain
    rw [List.map_cons, List.sum_cons] at hroom
    have hb := hready b List.mem_cons_self
    have hlen := (hexact b List.mem_cons_self).size
    have hsum := sum_of_length hb hsize (havail b List.mem_cons_self) hlen (by omega)
    obtain ⟨hend, hend'⟩ := end_of_sum hsize hsum
    have hle := le_alignUp (offs.toNat + b.need) b.align.toNat
    refine ⟨hsum, fun hhdr => ?_, ?_⟩
    · have heq := (header_iff hb hhdr hlen (by omega)).mp ((hexact b List.mem_cons_self).header hhdr)
      omega
    · rw [← hend]
      exact ih (fun c hc => hready c (List.mem_cons_of_mem _ hc)) hrest
        (fun c hc => havail c (List.mem_cons_of_mem _ hc)) (fun c hc => hexact c (List.mem_cons_of_mem _ hc)) (by omega)

theorem exact_of_unitBlocks (hunit : UnitBlocks offs.toNat bs) : ∀ b ∈ bs, b.Exact files := by
  induction bs generalizing offs with
  | nil => simp
  | cons b bs ih =>
    obtain ⟨hsize, hrest⟩ := hchain
    obtain ⟨hsum, hone, hunit⟩ := hunit
    rw [← (end_of_sum hsize hsum).1] at hunit
    intro c hc
    rcases List.mem_cons.mp hc with rfl | hc
    · exact exact_of_sum (hready c List.mem_cons_self) hsize hsum hone
    · exact ih (fun c hc => hready c (List.mem_cons_of_mem _ hc)) hrest hunit c hc

omit hready in
/-- The check of the ends is one of the sizes. -/
theorem sum_of_unitBlocks (hunit : UnitBlocks offs.toNat bs) {flashSize : BitVec 32} (hstart : offs.toNat ≤ flashSize.toNat)
    (hends : endsFit flashSize offs bs = true) :
    offs.toNat + (bs.map fun b => b.size.toNat).sum ≤ flashSize.toNat := by
  induction bs generalizing offs with
  | nil => exact hstart
  | cons b bs ih =>
    obtain ⟨hsize, hrest⟩ := hchain
    obtain ⟨hsum, -, hunit⟩ := hunit
    obtain ⟨hend, hend'⟩ := end_of_sum hsize hsum
    rw [endsFit, Bool.and_eq_true, decide_eq_true_eq] at hends
    rw [← hend] at hunit
    have hrestSum := ih hrest hunit hends.1 hends.2
    rw [List.map_cons, List.sum_cons]
    omega

end Chain

end Neufbox.Csys
