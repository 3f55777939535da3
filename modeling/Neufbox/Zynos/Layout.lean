import Neufbox.Library.Packing
import Neufbox.Library.WrapArith
import Neufbox.Zynos.Write

/-! # Where the parts of an image lie

Raw blocks have to start at the first multiple of their alignment behind the part before them, the boot extension
with its memory map has room for so many bytes, and the image ends inside the flash. The tool counts its offsets
twice, in 32 bits; what it checks is neither where the parts lie nor how long the image gets. -/
namespace Neufbox.Zynos
open Neufbox.Library.Pieces Neufbox.Packing Neufbox.WrapArith
set_option autoImplicit false
set_option maxHeartbeats 250000
set_option maxRecDepth 120000

/-! ## Layout -/

/-- The address in flash of the next byte that is written. -/
def flashAddress (board : BoardInfo) (p : Pos) : ℕ := board.romioOffs.toNat + p.out.bytes.length

/-- The raw blocks, with the addresses at which their files start. -/
def rawStarts (files : Files) (board : BoardInfo) : List FwBlock → Pos → List (FwBlock × ℕ)
  | [], _ => []
  | b :: bs, p =>
    if b.type = .bootext then rawStarts files board bs p
    else (b, flashAddress board (padTo p b.align)) :: rawStarts files board bs (writeRaw files p b)

/-- A raw block that lies at an address; without an alignment it may lie anywhere. -/
def FwBlock.itemAt (b : FwBlock) (start : ℕ) : Item where
  unit := if b.align = 0 then 1 else b.align.toNat
  start := start
  size := b.fileSize.toNat

/-- The bytes that are written for a block. -/
def FwBlock.content (files : Files) (b : FwBlock) : List UInt8 := ((files b.fileName).getD []).take b.fileSize.toNat

/-- A layout that the flash has room for; `mmap` is the place of the memory map. -/
structure LaidOut (files : Files) (job : Job) (mmap : Pos) (image : List UInt8) : Prop where
  bootext : (writeOutMmap job.board mmap).out.bytes.length ≤ job.board.bootextSize.toNat
  raw : Packed (flashAddress job.board (fillBootext job.board (writeOutMmap job.board mmap)))
    ((rawStarts files job.board job.blocks (fillBootext job.board (writeOutMmap job.board mmap))).map
      fun q => q.1.itemAt q.2)
  holds : ∀ q ∈ rawStarts files job.board job.blocks (fillBootext job.board (writeOutMmap job.board mmap)),
    (image.drop (q.2 - job.board.romioOffs.toNat)).take q.1.fileSize.toNat = q.1.content files
  flash : job.board.romioOffs.toNat + image.length ≤ job.board.flashSize.toNat

/-! ## Addresses -/

/-- An alignment as `ALIGN` takes it: what was not given is a power of two as well. -/
def alignUnit (y : BitVec 32) : ℕ := if y = 0 then 2 ^ 32 else y.toNat

/-- An alignment that is a power of two, or was not given. -/
def Alignment (y : BitVec 32) : Prop := y = 0 ∨ ∃ k, y.toNat = 2 ^ k

theorem Alignment.exists_unit {y : BitVec 32} (h : Alignment y) :
    ∃ k ≤ 32, alignUnit y = 2 ^ k ∧ y = BitVec.ofNat 32 (2 ^ k) := by
  rcases h with rfl | ⟨k, hk⟩
  · exact ⟨32, le_rfl, if_pos rfl, rfl⟩
  · have hlt : 2 ^ k < 2 ^ 32 := hk ▸ y.isLt
    have hne : y ≠ 0 := by
      intro h
      rw [h] at hk
      exact absurd hk.symm (Nat.two_pow_pos k).ne'
    refine ⟨k, ((Nat.pow_lt_pow_iff_right (by decide)).mp hlt).le, by rw [alignUnit, if_neg hne, hk], ?_⟩
    rw [← hk, BitVec.ofNat_toNat, BitVec.setWidth_eq]

theorem Alignment.unit_pos {y : BitVec 32} (h : Alignment y) : 0 < alignUnit y := by
  obtain ⟨k, -, hunit, -⟩ := h.exists_unit
  rw [hunit]
  exact Nat.two_pow_pos k

/-- The padding up to a multiple, counted in 32 bits. -/
theorem align_padding {y : BitVec 32} (h : Alignment y) (n : ℕ) :
    (align (BitVec.ofNat 32 n) y - BitVec.ofNat 32 n).toNat = roundUp n (alignUnit y) - n := by
  obtain ⟨k, hk, hunit, hy⟩ := h.exists_unit
  have hpos : 0 < 2 ^ k := Nat.two_pow_pos k
  have hle : 2 ^ k ≤ 2 ^ 32 := Nat.pow_le_pow_right (by decide) hk
  have hge : n ≤ roundUp n (2 ^ k) := le_roundUp hpos
  have hlt : roundUp n (2 ^ k) < n + 2 ^ k := roundUp_lt hpos
  obtain ⟨d, hd⟩ := Nat.exists_eq_add_of_le hge
  have hsub : BitVec.ofNat 32 (roundUp n (2 ^ k)) - BitVec.ofNat 32 n = BitVec.ofNat 32 d := by
    rw [hd, BitVec.ofNat_add, BitVec.add_comm, BitVec.add_sub_cancel]
  rw [hunit, align, hy, mask_roundUp hk n, hsub, BitVec.toNat_ofNat, hd, Nat.add_sub_cancel_left,
    Nat.mod_eq_of_lt (by omega)]

/-- `p` has reached the address `n`, and its count is right in 32 bits. -/
structure Pos.At (board : BoardInfo) (p : Pos) (n : ℕ) : Prop where
  address : flashAddress board p = n
  offset : p.offset = BitVec.ofNat 32 n

section Steps
variable {files : Files} {board : BoardInfo} {p : Pos} {n : ℕ}

theorem Pos.At.padTo (h : p.At board n) {y : BitVec 32} (hy : Alignment y) :
    (padTo p y).At board (roundUp n (alignUnit y)) := by
  have hle : n ≤ roundUp n (alignUnit y) := le_roundUp hy.unit_pos
  have hpad := align_padding hy n
  obtain ⟨d, hd⟩ := Nat.exists_eq_add_of_le hle
  rw [hd, Nat.add_sub_cancel_left, ← h.offset] at hpad
  have hpad' : align p.offset y - p.offset = BitVec.ofNat 32 d := by
    rw [← hpad, BitVec.ofNat_toNat, BitVec.setWidth_eq]
  constructor
  · have haddress := h.address
    rw [flashAddress] at haddress
    rw [Zynos.padTo, flashAddress, writeOutPadding_bytes, List.length_append, List.length_replicate, hpad, hd]
    omega
  · rw [Zynos.padTo, hpad', h.offset, hd, BitVec.ofNat_add]

theorem FwBlock.Ready.content_length {b : FwBlock} (hb : b.Ready files) : (b.content files).length = b.fileSize.toNat := by
  obtain ⟨content, hfile, hsize⟩ := hb
  have hle : b.fileSize.toNat ≤ content.length := by
    rw [hsize, BitVec.toNat_ofNat]
    exact Nat.mod_le _ _
  rw [FwBlock.content, hfile, Option.getD_some, List.length_take, Nat.min_eq_left hle]

theorem Pos.At.placeBlock (h : p.At board n) {b : FwBlock} (hb : b.Ready files) :
    (placeBlock files p b).At board (n + b.fileSize.toNat) := by
  constructor
  · have haddress := h.address
    have hlen := hb.content_length
    rw [FwBlock.content] at hlen
    rw [flashAddress] at haddress
    rw [Zynos.placeBlock, flashAddress, writeOutBlock_bytes, List.length_append, hlen]
    omega
  · rw [Zynos.placeBlock, h.offset, BitVec.ofNat_add, BitVec.ofNat_toNat, BitVec.setWidth_eq]

theorem startPos_at (board : BoardInfo) : (startPos board).At board (board.romioOffs.toNat + rombinHdrSize) := by
  constructor
  · rw [startPos, flashAddress, writeOutHeader, ByteStore.overlay]
    simp
  · rw [startPos, BitVec.ofNat_add, BitVec.ofNat_toNat, BitVec.setWidth_eq]

theorem Pos.At.writeOutMmap (h : p.At board n) : (writeOutMmap board p).At board (n + mmapDataSize) := by
  constructor
  · have haddress := h.address
    rw [flashAddress] at haddress
    rw [Zynos.writeOutMmap, flashAddress, writeOutData, List.length_append, mmapData_length]
    omega
  · rw [Zynos.writeOutMmap, h.offset, BitVec.ofNat_add]

/-- Where the memory map ends inside the boot extension, that is filled up to its end. -/
theorem Pos.At.fillBootext (h : p.At board n) (hstart : board.romioOffs.toNat ≤ n)
    (hend : n ≤ board.romioOffs.toNat + board.bootextSize.toNat)
    (hwrap : board.romioOffs.toNat + board.bootextSize.toNat < 2 ^ 32) :
    (fillBootext board p).At board (board.romioOffs.toNat + board.bootextSize.toNat) := by
  have hn : p.offset.toNat = n := by
    rw [h.offset, BitVec.toNat_ofNat, Nat.mod_eq_of_lt (by omega)]
  have hsum : (board.romioOffs + board.bootextSize).toNat = board.romioOffs.toNat + board.bootextSize.toNat := by
    rw [BitVec.toNat_add, Nat.mod_eq_of_lt hwrap]
  have hused : (p.offset - board.romioOffs).toNat = n - board.romioOffs.toNat := by
    rw [BitVec.toNat_sub_of_le (by rw [BitVec.le_def, hn]; exact hstart), hn]
  have hpad : (board.romioOffs + board.bootextSize - p.offset).toNat =
      board.romioOffs.toNat + board.bootextSize.toNat - n := by
    rw [BitVec.toNat_sub_of_le (by rw [BitVec.le_def, hn, hsum]; exact hend), hsum, hn]
  have haddress := h.address
  rw [flashAddress] at haddress
  unfold Zynos.fillBootext
  rw [hused]
  split
  · constructor
    · dsimp only
      rw [hpad, flashAddress, writeOutPadding_bytes, List.length_append, List.length_replicate]
      omega
    · dsimp only
      rw [BitVec.add_comm, BitVec.sub_add_cancel, BitVec.ofNat_add, BitVec.ofNat_toNat, BitVec.ofNat_toNat,
        BitVec.setWidth_eq, BitVec.setWidth_eq]
  · have hfull : n = board.romioOffs.toNat + board.bootextSize.toNat := by omega
    rw [← hfull]
    exact h

end Steps

/-! ## The loop over the blocks -/

/-- The alignments and sizes of the raw blocks. -/
def rawItems (bs : List FwBlock) : List (ℕ × ℕ) :=
  (bs.filter fun b => b.type = .raw).map fun b => (alignUnit b.align, b.fileSize.toNat)

theorem rawItems_bootext {b : FwBlock} (h : b.type = .bootext) (bs : List FwBlock) : rawItems (b :: bs) = rawItems bs := by
  simp [rawItems, h]

theorem rawItems_raw {b : FwBlock} (h : b.type ≠ .bootext) (bs : List FwBlock) :
    rawItems (b :: bs) = (alignUnit b.align, b.fileSize.toNat) :: rawItems bs := by
  have hraw : b.type = .raw := by
    cases htype : b.type with
    | bootext => exact absurd htype h
    | raw => rfl
  simp [rawItems, hraw]

/-- Blocks as the checks leave them, with the alignments that are taken here. -/
structure BlocksOk (files : Files) (bs : List FwBlock) : Prop where
  ready : ∀ b ∈ bs, b.Ready files
  alignment : ∀ b ∈ bs, b.type = .raw → Alignment b.align

section Loop
variable {files : Files} {board : BoardInfo}

theorem BlocksOk.tail {b : FwBlock} {bs : List FwBlock} (h : BlocksOk files (b :: bs)) : BlocksOk files bs :=
  ⟨fun c hc => h.ready c (List.mem_cons_of_mem _ hc), fun c hc => h.alignment c (List.mem_cons_of_mem _ hc)⟩

theorem BlocksOk.units_pos {bs : List FwBlock} (h : BlocksOk files bs) : ∀ i ∈ rawItems bs, 0 < i.1 := by
  intro i hi
  obtain ⟨b, hb, rfl⟩ := List.mem_map.mp hi
  obtain ⟨hb, hraw⟩ := List.mem_filter.mp hb
  exact (h.alignment b hb (of_decide_eq_true hraw)).unit_pos

/-- The place of a raw block. -/
theorem Pos.At.padRaw {p : Pos} {n : ℕ} (h : p.At board n) {b : FwBlock} {bs : List FwBlock}
    (hbs : BlocksOk files (b :: bs)) (hraw : b.type ≠ .bootext) :
    (Zynos.padTo p b.align).At board (roundUp n (alignUnit b.align)) := by
  refine h.padTo (hbs.alignment b List.mem_cons_self ?_)
  cases htype : b.type with
  | bootext => exact absurd htype hraw
  | raw => rfl

theorem Pos.At.writeRaw {p : Pos} {n : ℕ} (h : p.At board n) {b : FwBlock} {bs : List FwBlock}
    (hbs : BlocksOk files (b :: bs)) (hraw : b.type ≠ .bootext) :
    (writeRaw files p b).At board (roundUp n (alignUnit b.align) + b.fileSize.toNat) := by
  rw [Zynos.writeRaw, if_neg hraw]
  exact (h.padRaw hbs hraw).placeBlock (hbs.ready b List.mem_cons_self)

theorem Pos.At.writeBlocks {bs : List FwBlock} (hbs : BlocksOk files bs) {p : Pos} {n : ℕ} (h : p.At board n) :
    (bs.foldl (Zynos.writeRaw files) p).At board (packEnd n (rawItems bs)) := by
  induction bs generalizing p n with
  | nil => exact h
  | cons b bs ih =>
    rw [List.foldl_cons]
    by_cases htype : b.type = .bootext
    · rw [rawItems_bootext htype, Zynos.writeRaw, if_pos htype]
      exact ih hbs.tail h
    · rw [rawItems_raw htype, packEnd, List.foldl_cons]
      exact ih hbs.tail (h.writeRaw hbs htype)

/-- Blocks that all have an alignment start at the first places that they may have. -/
theorem rawStarts_packed {bs : List FwBlock} (hbs : BlocksOk files bs) {p : Pos} {n : ℕ} (h : p.At board n)
    (haligned : ∀ b ∈ bs, b.type = .raw → b.align ≠ 0) :
    Packed n ((rawStarts files board bs p).map fun q => q.1.itemAt q.2) := by
  induction bs generalizing p n with
  | nil => trivial
  | cons b bs ih =>
    have hrest : ∀ b ∈ bs, b.type = .raw → b.align ≠ 0 := fun c hc => haligned c (List.mem_cons_of_mem _ hc)
    by_cases htype : b.type = .bootext
    · rw [rawStarts, if_pos htype]
      exact ih hbs.tail h hrest
    · have hraw : b.type = .raw := by
        cases hcase : b.type with
        | bootext => exact absurd hcase htype
        | raw => rfl
      have hne := haligned b List.mem_cons_self hraw
      have hunit : (b.itemAt (roundUp n (alignUnit b.align))).unit = alignUnit b.align := by
        rw [FwBlock.itemAt, alignUnit, if_neg hne, if_neg hne]
      rw [rawStarts, if_neg htype, List.map_cons, (h.padRaw hbs htype).address]
      refine ⟨?_, ih hbs.tail (h.writeRaw hbs htype) hrest⟩
      rw [hunit]
      exact roundUp_isLeast n (hbs.alignment b List.mem_cons_self hraw).unit_pos

/-! ## What is found at an address -/

theorem padTo_extends (p : Pos) (y : BitVec 32) : p.out.bytes <+: (padTo p y).out.bytes := by
  rw [padTo, writeOutPadding_bytes]
  exact List.prefix_append _ _

theorem placeBlock_bytes (files : Files) (p : Pos) (b : FwBlock) :
    (placeBlock files p b).out.bytes = p.out.bytes ++ b.content files :=
  writeOutBlock_bytes files p.out b

theorem writeRaw_extends (files : Files) (p : Pos) (b : FwBlock) : p.out.bytes <+: (writeRaw files p b).out.bytes := by
  unfold writeRaw
  split
  · exact List.prefix_rfl
  · rw [placeBlock_bytes]
    exact (padTo_extends p b.align).trans (List.prefix_append _ _)

theorem writeBlocks_extends (files : Files) (bs : List FwBlock) (p : Pos) :
    p.out.bytes <+: (bs.foldl (writeRaw files) p).out.bytes := by
  induction bs generalizing p with
  | nil => exact List.prefix_rfl
  | cons b bs ih => exact (writeRaw_extends files p b).trans (ih _)

/-- A raw block starts behind everything written before it, and its bytes follow. -/
theorem rawStarts_bytes {bs : List FwBlock} {p : Pos} {q : FwBlock × ℕ} (hq : q ∈ rawStarts files board bs p) :
    q.1 ∈ bs ∧ ∃ before, q.2 = board.romioOffs.toNat + before.length ∧ p.out.bytes <+: before ∧
      before ++ q.1.content files <+: (bs.foldl (writeRaw files) p).out.bytes := by
  induction bs generalizing p with
  | nil => simp [rawStarts] at hq
  | cons b bs ih =>
    rw [rawStarts] at hq
    split at hq
    next htype =>
      obtain ⟨hmem, before, hstart, hprefix, hbytes⟩ := ih hq
      have hsame : writeRaw files p b = p := if_pos htype
      refine ⟨List.mem_cons_of_mem _ hmem, before, hstart, hprefix, ?_⟩
      rw [List.foldl_cons, hsame]
      exact hbytes
    next htype =>
      rcases List.mem_cons.mp hq with rfl | hq
      · have hwritten : (writeRaw files p b).out.bytes = (padTo p b.align).out.bytes ++ b.content files := by
          rw [writeRaw, if_neg htype, placeBlock_bytes]
        refine ⟨List.mem_cons_self, (padTo p b.align).out.bytes, rfl, padTo_extends p b.align, ?_⟩
        rw [List.foldl_cons, ← hwritten]
        exact writeBlocks_extends files bs _
      · obtain ⟨hmem, before, hstart, hprefix, hbytes⟩ := ih hq
        exact ⟨List.mem_cons_of_mem _ hmem, before, hstart, (writeRaw_extends files p b).trans hprefix, hbytes⟩

end Loop

/-! ## The whole image -/

theorem boards_offsets {board : BoardInfo} (h : board ∈ boards) :
    0 < board.romioOffs.toNat ∧ board.romioOffs.toNat % 16 = 0 ∧ board.bootextSize.toNat % 16 = 0 ∧
      board.romioOffs.toNat + board.bootextSize.toNat < 2 ^ 32 := by
  have hall : ∀ board ∈ boards, 0 < board.romioOffs.toNat ∧ board.romioOffs.toNat % 16 = 0 ∧
      board.bootextSize.toNat % 16 = 0 ∧ board.romioOffs.toNat + board.bootextSize.toNat < 2 ^ 32 := by
    decide
  exact hall board h

theorem writeOutHeader_length (h : RombinHdr) {bytes : List UInt8} (hlen : rombinHdrSize ≤ bytes.length) :
    (writeOutHeader h bytes).length = bytes.length :=
  ByteStore.overlay_length (by rw [RombinHdr.bytes_length]; omega)

/-- Behind its own bytes the header changes nothing. -/
theorem writeOutHeader_drop (h : RombinHdr) (bytes : List UInt8) {k : ℕ} (hk : rombinHdrSize ≤ k) :
    (writeOutHeader h bytes).drop k = bytes.drop k := by
  obtain ⟨d, rfl⟩ := Nat.exists_eq_add_of_le hk
  rw [writeOutHeader, ByteStore.overlay, List.take_zero, List.nil_append, Nat.zero_add, ← List.drop_drop,
    List.drop_left' h.bytes_length, RombinHdr.bytes_length, List.drop_drop]

theorem writeOutImage_eq_some {files : Files} {job : Job} {image : List UInt8}
    (h : writeOutImage files job = some image) :
    ∃ mmap hdr t, writeBootext files job = some mmap ∧
      image = writeOutHeader hdr ((padTo (job.blocks.foldl (writeRaw files)
        (fillBootext job.board (writeOutMmap job.board mmap))) 4).out.bytes ++ be16 t) := by
  unfold writeOutImage at h
  simp only [Option.bind_eq_bind, Option.bind_eq_some_iff] at h
  obtain ⟨mmap, hmmap, h⟩ := h
  cases h
  exact ⟨mmap, _, _, hmmap, rfl⟩

section Image
variable {files : Files} {job : Job} (hjob : job.Ready files)
include hjob

theorem writeBootext_at {mmap : Pos} (h : writeBootext files job = some mmap) :
    mmap.At job.board (roundUp (job.board.romioOffs.toNat + rombinHdrSize + job.bootext.fileSize.toNat) 16) := by
  unfold writeBootext at h
  dsimp only at h
  split at h
  · cases h
  · cases h
    exact ((startPos_at job.board).placeBlock hjob.bootext).padTo (.inr ⟨4, rfl⟩)

/-- The alignment of the memory map takes nothing from the room for the boot extension. -/
theorem bootext_fits_iff {mmap : Pos} (h : writeBootext files job = some mmap) :
    (writeOutMmap job.board mmap).out.bytes.length ≤ job.board.bootextSize.toNat ↔
      rombinHdrSize + job.bootext.fileSize.toNat + mmapDataSize ≤ job.board.bootextSize.toNat := by
  obtain ⟨-, hromio, hsize, -⟩ := boards_offsets hjob.board
  have haddress := (writeBootext_at hjob h).writeOutMmap.address
  rw [flashAddress, roundUp] at haddress
  unfold rombinHdrSize mmapDataSize at *
  omega

end Image

/-- The images that `mkzynfw` can lay out as it should. -/
structure Fits (job : Job) : Prop where
  aligned : ∀ b ∈ job.blocks, b.type = .raw → b.align ≠ 0
  bootext : rombinHdrSize + job.bootext.fileSize.toNat + mmapDataSize ≤ job.board.bootextSize.toNat
  flash : roundUp (packEnd (job.board.romioOffs.toNat + job.board.bootextSize.toNat) (rawItems job.blocks)) 4 + 2 ≤
    job.board.flashSize.toNat

section Image
variable {files : Files} {job : Job} {mmap : Pos} (hjob : job.Ready files) (hmmap : writeBootext files job = some mmap)
include hjob hmmap

/-- A boot extension that fits is filled up, and the raw blocks begin behind it. -/
theorem fillBootext_at
    (hfits : rombinHdrSize + job.bootext.fileSize.toNat + mmapDataSize ≤ job.board.bootextSize.toNat) :
    (fillBootext job.board (writeOutMmap job.board mmap)).At job.board
      (job.board.romioOffs.toNat + job.board.bootextSize.toNat) := by
  obtain ⟨-, hromio, hsize, hwrap⟩ := boards_offsets hjob.board
  have hmap := (writeBootext_at hjob hmmap).writeOutMmap
  have hstart := le_roundUp (x := job.board.romioOffs.toNat + rombinHdrSize + job.bootext.fileSize.toNat)
    (by decide : 0 < 16)
  refine hmap.fillBootext (by omega) ?_ hwrap
  have hend := (bootext_fits_iff hjob hmmap).mpr hfits
  have haddress := hmap.address
  rw [flashAddress] at haddress
  omega

variable (halign : ∀ b ∈ job.blocks, b.type = .raw → Alignment b.align)
include halign

theorem image_length {image : List UInt8} (himage : writeOutImage files job = some image)
    (hfits : rombinHdrSize + job.bootext.fileSize.toNat + mmapDataSize ≤ job.board.bootextSize.toNat) :
    job.board.romioOffs.toNat + image.length =
      roundUp (packEnd (job.board.romioOffs.toNat + job.board.bootextSize.toNat) (rawItems job.blocks)) 4 + 2 := by
  obtain ⟨mmap', hdr, t, hmmap', rfl⟩ := writeOutImage_eq_some himage
  cases hmmap.symm.trans hmmap'
  have hblocks : BlocksOk files job.blocks := ⟨hjob.blocks, halign⟩
  have hend := ((fillBootext_at hjob hmmap hfits).writeBlocks hblocks).padTo (.inr ⟨2, rfl⟩ : Alignment 4)
  have hle := @le_packEnd (job.board.romioOffs.toNat + job.board.bootextSize.toNat) _ hblocks.units_pos
  have hround := le_roundUp
    (x := packEnd (job.board.romioOffs.toNat + job.board.bootextSize.toNat) (rawItems job.blocks)) (by decide : 0 < 4)
  have haddress := hend.address
  have hunit : alignUnit 4 = 4 := rfl
  have ht : (be16 t).length = 2 := rfl
  rw [flashAddress, hunit] at haddress
  rw [writeOutHeader_length _ (by rw [List.length_append, ht]; omega), List.length_append, ht]
  omega

omit halign in
/-- The files are found at the addresses where the raw blocks start. -/
theorem image_holds {image : List UInt8} (himage : writeOutImage files job = some image) :
    ∀ q ∈ rawStarts files job.board job.blocks (fillBootext job.board (writeOutMmap job.board mmap)),
      (image.drop (q.2 - job.board.romioOffs.toNat)).take q.1.fileSize.toNat = q.1.content files := by
  obtain ⟨mmap', hdr, t, hmmap', rfl⟩ := writeOutImage_eq_some himage
  cases hmmap.symm.trans hmmap'
  intro q hq
  obtain ⟨hmem, before, hstart, hbefore, hbytes⟩ := rawStarts_bytes hq
  obtain ⟨rest, hrest⟩ := (hbytes.trans (padTo_extends _ 4)).trans (List.prefix_append _ (be16 t))
  have hheader : rombinHdrSize ≤ before.length := by
    have haddress := (writeBootext_at hjob hmmap).writeOutMmap.address
    have hround := le_roundUp (x := job.board.romioOffs.toNat + rombinHdrSize + job.bootext.fileSize.toNat)
      (by decide : 0 < 16)
    have hfill : (writeOutMmap job.board mmap).out.bytes.length ≤
        (fillBootext job.board (writeOutMmap job.board mmap)).out.bytes.length := by
      unfold fillBootext
      split
      · rw [writeOutPadding_bytes, List.length_append]
        omega
      · exact le_rfl
    have hlen := hbefore.length_le
    rw [flashAddress] at haddress
    omega
  have hoffset : q.2 - job.board.romioOffs.toNat = before.length := by omega
  rw [hoffset, writeOutHeader_drop _ _ hheader, ← hrest, List.append_assoc, List.drop_left,
    List.take_left' (hjob.blocks _ hmem).content_length]

/-- The layout is right for these sizes and alignments and no others. -/
theorem laidOut_iff {image : List UInt8} (himage : writeOutImage files job = some image) :
    LaidOut files job mmap image ↔ Fits job := by
  have hblocks : BlocksOk files job.blocks := ⟨hjob.blocks, halign⟩
  constructor
  · intro h
    have hfits := (bootext_fits_iff hjob hmmap).mp h.bootext
    have hlen := image_length hjob hmmap halign himage hfits
    have hflash := h.flash
    refine ⟨?_, hfits, by omega⟩
    -- an alignment that was not given stands for 2 ^ 32, and no flash is that large
    intro b hb hraw habsent
    have hitem : (2 ^ 32, b.fileSize.toNat) ∈ rawItems job.blocks := by
      refine List.mem_map.mpr ⟨b, List.mem_filter.mpr ⟨hb, decide_eq_true hraw⟩, ?_⟩
      rw [habsent]
      rfl
    have hpos := (boards_offsets hjob.board).1
    have hunit := @unit_le_packEnd (job.board.romioOffs.toNat + job.board.bootextSize.toNat) _ hblocks.units_pos
      (by omega) _ hitem
    have hround := le_roundUp
      (x := packEnd (job.board.romioOffs.toNat + job.board.bootextSize.toNat) (rawItems job.blocks)) (by decide : 0 < 4)
    have hsize := job.board.flashSize.isLt
    omega
  · intro h
    have hfill := fillBootext_at hjob hmmap h.bootext
    refine ⟨(bootext_fits_iff hjob hmmap).mpr h.bootext, ?_, image_holds hjob hmmap himage, ?_⟩
    · rw [hfill.address]
      exact rawStarts_packed hblocks hfill h.aligned
    · rw [image_length hjob hmmap halign himage h.bootext]
      exact h.flash

end Image

/-- An image of an accepted list of options, whose alignments are powers of two or not given, is laid out as it
should be if and only if every raw block has an alignment, the boot extension is at most 97232 bytes long, and the
flash has room for the raw blocks behind the boot extension. -/
theorem mkzynfw_layout_iff (files : Files) (options : List Opt) (job : Job) (image : List UInt8)
    (hprepare : prepare files options = some job) (hrun : mkzynfw files options = some image)
    (halign : ∀ b ∈ job.blocks, b.type = .raw → Alignment b.align) :
    ∃ mmap, writeBootext files job = some mmap ∧ (LaidOut files job mmap image ↔ Fits job) := by
  have himage : writeOutImage files job = some image := by
    rwa [mkzynfw, hprepare] at hrun
  obtain ⟨mmap, -, -, hmmap, -⟩ := writeOutImage_eq_some himage
  exact ⟨mmap, hmmap, laidOut_iff (prepare_ready hprepare) hmmap halign himage⟩

/-- A boot extension of a size that the check lets through is written, and the image with it. -/
theorem writeOutImage_total (files : Files) (job : Job)
    (hsize : (job.board.romioOffs + BitVec.ofNat 32 rombinHdrSize + job.bootext.fileSize).toNat ≤
      (job.board.romioOffs + job.board.bootextSize).toNat) :
    ∃ mmap image, writeBootext files job = some mmap ∧ writeOutImage files job = some image := by
  have hmmap : ∃ mmap, writeBootext files job = some mmap := ⟨_, if_neg (not_lt.mpr hsize)⟩
  obtain ⟨mmap, hmmap⟩ := hmmap
  exact ⟨mmap, _, hmmap, by rw [writeOutImage, hmmap]; rfl⟩

/-- One file of three bytes, named `k`. -/
def shortFile : Files := fun name => if name = [107] then some [1, 2, 3] else none

/-- The file as boot extension and as raw block. -/
def shortOptions (raw : String) : List Opt :=
  [.board (.lit "es-2108"), .ofname (.lit "o"), .bootext (.lit "k"), .raw (.lit raw)]

theorem short_prepared (raw : String) (y : BitVec 32)
    (h : (prepare shortFile (shortOptions raw)).any (fun job => job.board.romioOffs = 0x10000 ∧
      job.board.bootextSize = 0x18000 ∧ job.board.flashSize = 0x400000 ∧ job.bootext.fileSize = 3 ∧
      job.blocks.map (fun b => (b.type, b.align, b.fileSize)) = [(.bootext, 0, 3), (.raw, y, 3)]) = true) :
    ∃ job mmap image, prepare shortFile (shortOptions raw) = some job ∧ writeBootext shortFile job = some mmap ∧
      writeOutImage shortFile job = some image ∧ job.board.romioOffs = 0x10000 ∧ job.board.bootextSize = 0x18000 ∧
      job.board.flashSize = 0x400000 ∧ job.bootext.fileSize = 3 ∧
      (∀ b ∈ job.blocks, b.type = .raw → b.align = y) ∧ rawItems job.blocks = [(alignUnit y, 3)] := by
  obtain ⟨job, hjob, hall⟩ := (Option.any_eq_true _ _).mp h
  simp only [decide_eq_true_eq] at hall
  obtain ⟨hromio, hbootext, hflash, hsize, hblocks⟩ := hall
  obtain ⟨mmap, image, hmmap, himage⟩ := writeOutImage_total shortFile job (by
    rw [hromio, hbootext, hsize]
    decide)
  refine ⟨job, mmap, image, hjob, hmmap, himage, hromio, hbootext, hflash, hsize, ?_, ?_⟩
  · intro b hb hraw
    have hmem := List.mem_map_of_mem (f := fun b : FwBlock => (b.type, b.align, b.fileSize)) hb
    rw [hblocks] at hmem
    simp only [hraw, List.mem_cons, List.not_mem_nil, Prod.mk.injEq, reduceCtorEq, false_and, true_and, false_or,
      or_false] at hmem
    exact hmem.1
  · have hmap : rawItems job.blocks = ((job.blocks.map fun b => (b.type, b.align, b.fileSize)).filter
        fun q => q.1 = .raw).map fun q => (alignUnit q.2.1, q.2.2.toNat) := by
      rw [List.filter_map, List.map_map]
      rfl
    rw [hmap, hblocks]
    rfl

theorem mkzynfw_layout_short :
    ∃ job mmap image, prepare shortFile (shortOptions "k:0x10000") = some job ∧
      mkzynfw shortFile (shortOptions "k:0x10000") = some image ∧ LaidOut shortFile job mmap image := by
  obtain ⟨job, -, image, hjob, -, himage, hromio, hbootext, hflash, hsize, halign, hitems⟩ :=
    short_prepared "k:0x10000" 0x10000 (by decide +kernel)
  have hrun : mkzynfw shortFile (shortOptions "k:0x10000") = some image := by
    rw [mkzynfw, hjob]
    exact himage
  obtain ⟨mmap, -, hiff⟩ := mkzynfw_layout_iff _ _ job image hjob hrun fun b hb hraw =>
    .inr ⟨16, by rw [halign b hb hraw]; rfl⟩
  refine ⟨job, mmap, image, hjob, hrun, hiff.mpr ⟨fun b hb hraw => ?_, ?_, ?_⟩⟩
  · rw [halign b hb hraw]
    decide
  · rw [hsize, hbootext]
    decide
  · rw [hitems, hromio, hbootext, hflash]
    decide

/-- Without its alignment the raw block comes behind four gigabytes of padding. -/
theorem mkzynfw_pads_without_alignment :
    ∃ job mmap image, prepare shortFile (shortOptions "k") = some job ∧ writeBootext shortFile job = some mmap ∧
      mkzynfw shortFile (shortOptions "k") = some image ∧ (∀ b ∈ job.blocks, b.type = .raw → Alignment b.align) ∧
      ¬ LaidOut shortFile job mmap image := by
  obtain ⟨job, mmap, image, hjob, hmmap, himage, -, -, -, -, habsent, hitems⟩ := short_prepared "k" 0 (by decide +kernel)
  have halign : ∀ b ∈ job.blocks, b.type = .raw → Alignment b.align := fun b hb hraw => .inl (habsent b hb hraw)
  refine ⟨job, mmap, image, hjob, hmmap, by rw [mkzynfw, hjob]; exact himage, halign, fun hlaid => ?_⟩
  have hfits := (laidOut_iff (prepare_ready hjob) hmmap halign himage).mp hlaid
  have hmem : (alignUnit 0, 3) ∈ rawItems job.blocks := by
    rw [hitems]
    simp
  obtain ⟨b, hb, -⟩ := List.mem_map.mp hmem
  obtain ⟨hb, hraw⟩ := List.mem_filter.mp hb
  exact hfits.aligned b hb (of_decide_eq_true hraw) (habsent b hb (of_decide_eq_true hraw))

end Neufbox.Zynos
