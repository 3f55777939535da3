import Neufbox.Library.WrapArith
import Neufbox.Mylofw.Write

/-! # Firmware files can be taken apart

A reader of the format finds descriptors up to one of zeroes and cuts the rest into regions of the lengths they
give. `mkmylofw` writes such a file as long as no block with its header and padding reaches four gigabytes: the
length in its descriptor has 32 bits. -/
namespace Neufbox.Mylofw
open Neufbox.CString Neufbox.FirmwareUtils Neufbox.Memory Neufbox.WrapArith
set_option autoImplicit false
set_option maxHeartbeats 250000
set_option maxRecDepth 120000

/-! ## The format -/

def wordAt (bs : List UInt8) (off : ℕ) : BitVec 32 := BitVec.ofNat 32 (leWord ((bs.drop off).take 4))

def readDesc (bs : List UInt8) : Desc := ⟨wordAt bs 0, wordAt bs 4, wordAt bs 8, wordAt bs 12⟩

/-- The descriptors before the first one of zeroes, and what lies behind that one; the number bounds their count. -/
def readDescs : ℕ → List UInt8 → Option (List Desc × List UInt8)
  | 0, _ => none
  | n + 1, bs =>
    if bs.length < 16 then none
    else if bs.take 16 = List.replicate 16 0 then some ([], bs.drop 16)
    else (readDescs n (bs.drop 16)).map fun r => (readDesc bs :: r.1, r.2)

/-- Consecutive regions of given lengths, up to the end of the data. -/
def cutRegions : List ℕ → List UInt8 → Option (List (List UInt8))
  | [], data => if data = [] then some [] else none
  | n :: lens, data => if data.length < n then none else (cutRegions lens (data.drop n)).map (data.take n :: ·)

/-- A file as it has to be in its region: with a header if it was asked for, and filled up to a multiple of 4. -/
def fileRegion (haveHdr : Prop) [Decidable haveHdr] (content : List UInt8) : List UInt8 :=
  (if haveHdr then leBytes content.length ++ leBytes (getCrc content) else []) ++
    (content ++ List.replicate (roundUp content.length 4 - content.length) 0xFF)

/-- The region of a block that has a file. -/
def HoldsFile (files : Files) (b : FwBlock) (region : List UInt8) : Prop :=
  ∀ name content, b.name = some name → files name = some content → region = fileRegion b.haveHdr content

/-- A firmware file with these blocks, by the format of `myloader.h`. -/
structure Decodable (files : Files) (g : Globals) (image : List UInt8) : Prop where
  header : 40 ≤ image.length ∧ wordAt image 0 = myloMagicFirmware
  regions : ∃ ds data regions, readDescs image.length (image.drop 40) = some (ds, data) ∧
    cutRegions (ds.map fun d => d.dlen.toNat) data = some regions ∧
    List.Forall₂ (HoldsFile files) g.blocks (regions.drop (if g.parts = [] then 0 else 1))
  crc : leWord ((image.drop 4).take 4) = getCrc (ByteStore.overlay image 4 (List.replicate 4 0))

/-! ## Descriptors and regions -/

theorem le32_length (x : BitVec 32) : (le32 x).length = 4 := rfl

theorem wordAt_le32 (x : BitVec 32) (rest : List UInt8) : wordAt (le32 x ++ rest) 0 = x := by
  rw [wordAt, List.drop_zero, List.take_left' (le32_length x), le32, leWord_leBytes x.isLt, BitVec.ofNat_toNat,
    BitVec.setWidth_eq]

theorem wordAt_append (pre rest : List UInt8) (off : ℕ) : wordAt (pre ++ rest) (pre.length + off) = wordAt rest off := by
  rw [wordAt, wordAt, ← List.drop_drop, List.drop_left]

theorem Desc.bytes_length (d : Desc) : d.bytes.length = 16 := rfl

theorem readDesc_bytes (d : Desc) (rest : List UInt8) : readDesc (d.bytes ++ rest) = d := by
  have hadd : ∀ (x : BitVec 32) (rest : List UInt8) (off : ℕ), wordAt (le32 x ++ rest) (4 + off) = wordAt rest off :=
    fun x rest off => wordAt_append (le32 x) rest off
  have hbytes : d.bytes ++ rest = le32 d.type ++ (le32 d.addr ++ (le32 d.dlen ++ (le32 d.blen ++ rest))) := by
    simp only [Desc.bytes, List.append_assoc]
  have haddr : wordAt (d.bytes ++ rest) (4 + 0) = d.addr := by
    rw [hbytes, hadd, wordAt_le32]
  have hdlen : wordAt (d.bytes ++ rest) (4 + (4 + 0)) = d.dlen := by
    rw [hbytes, hadd, hadd, wordAt_le32]
  have hblen : wordAt (d.bytes ++ rest) (4 + (4 + (4 + 0))) = d.blen := by
    rw [hbytes, hadd, hadd, hadd, wordAt_le32]
  have htype : wordAt (d.bytes ++ rest) 0 = d.type := by
    rw [hbytes, wordAt_le32]
  unfold readDesc
  rw [htype, haddr, hdlen, hblen]

/-- Descriptors in use are read back, up to the one of zeroes. -/
theorem readDescs_bytes (ds : List Desc) (hused : ∀ d ∈ ds, d.type = fwDescTypeUsed) (rest : List UInt8) (n : ℕ)
    (hn : ds.length < n) : readDescs n (ds.flatMap Desc.bytes ++ (nullDesc.bytes ++ rest)) = some (ds, rest) := by
  induction ds generalizing n with
  | nil =>
    obtain ⟨n, rfl⟩ := Nat.exists_eq_succ_of_ne_zero (by omega : n ≠ 0)
    have hlen : ¬ (nullDesc.bytes ++ rest).length < 16 := by
      rw [List.length_append, Desc.bytes_length]
      omega
    rw [List.flatMap_nil, List.nil_append, readDescs, if_neg hlen, List.take_left' (Desc.bytes_length _),
      List.drop_left' (Desc.bytes_length _), if_pos (by decide)]
  | cons d ds ih =>
    obtain ⟨n, rfl⟩ := Nat.exists_eq_succ_of_ne_zero (by omega : n ≠ 0)
    have hlast := ih (fun d hd => hused d (List.mem_cons_of_mem _ hd)) n (by rw [List.length_cons] at hn; omega)
    have hlen : ¬ (d.bytes ++ (ds.flatMap Desc.bytes ++ (nullDesc.bytes ++ rest))).length < 16 := by
      rw [List.length_append, Desc.bytes_length]
      omega
    have hzero : d.bytes ≠ List.replicate 16 0 := by
      intro h
      have hread := congrArg (fun bs => (readDesc bs).type) h
      have hd := readDesc_bytes d []
      rw [List.append_nil] at hd
      simp only [hd, hused d List.mem_cons_self] at hread
      exact absurd hread (by decide)
    rw [List.flatMap_cons, List.append_assoc, readDescs, if_neg hlen, List.take_left' (Desc.bytes_length _),
      List.drop_left' (Desc.bytes_length _), if_neg hzero, hlast, readDesc_bytes]
    rfl

theorem cutRegions_eq_some_iff (lens : List ℕ) (data : List UInt8) (regions : List (List UInt8)) :
    cutRegions lens data = some regions ↔ regions.map List.length = lens ∧ regions.flatten = data := by
  induction lens generalizing data regions with
  | nil =>
    rw [cutRegions, List.map_eq_nil_iff]
    by_cases hdata : data = []
    · rw [if_pos hdata, hdata, Option.some.injEq]
      constructor
      · rintro rfl
        exact ⟨rfl, rfl⟩
      · exact fun h => h.1.symm
    · rw [if_neg hdata]
      constructor
      · intro h
        cases h
      · rintro ⟨rfl, hflat⟩
        exact absurd hflat.symm hdata
  | cons n lens ih =>
    rw [cutRegions]
    by_cases hlen : data.length < n
    · rw [if_pos hlen]
      constructor
      · intro h
        cases h
      · rintro ⟨hlens, rfl⟩
        cases regions with
        | nil => cases hlens
        | cons r regions =>
          rw [List.map_cons, List.cons.injEq] at hlens
          rw [List.flatten_cons, List.length_append] at hlen
          omega
    · rw [if_neg hlen, Option.map_eq_some_iff]
      constructor
      · rintro ⟨rest, hrest, rfl⟩
        obtain ⟨hlens, hflat⟩ := (ih _ _).mp hrest
        refine ⟨?_, ?_⟩
        · rw [List.map_cons, hlens, List.length_take, Nat.min_eq_left (not_lt.mp hlen)]
        · rw [List.flatten_cons, hflat, List.take_append_drop]
      · rintro ⟨hlens, rfl⟩
        cases regions with
        | nil => cases hlens
        | cons r regions =>
          rw [List.map_cons, List.cons.injEq] at hlens
          refine ⟨regions, (ih _ _).mpr ⟨hlens.2, ?_⟩, ?_⟩
          · rw [List.flatten_cons, List.drop_left' hlens.1]
          · rw [List.flatten_cons, List.take_left' hlens.1]

/-! ## Lengths -/

/-- The length of a block's region, without a bound. -/
def FwBlock.regionLen (b : FwBlock) : ℕ := (if b.haveHdr then 8 else 0) + roundUp b.size.toNat 4

theorem paddingLen_eq (size : BitVec 32) : paddingLen size = roundUp size.toNat 4 - size.toNat := by
  have hsize := size.isLt
  have hsub : (~~~(3 : BitVec 32) - size).toNat = (2 ^ 32 - size.toNat + (2 ^ 32 - 4)) % 2 ^ 32 := by
    rw [BitVec.toNat_sub]
    rfl
  have hand : ∀ x : ℕ, 3 &&& x = x % 2 ^ 2 := fun x => by
    rw [Nat.and_comm]
    exact Nat.and_two_pow_sub_one_eq_mod x 2
  rw [paddingLen, hsub, hand, roundUp]
  omega

theorem dlen_eq (b : FwBlock) : b.dlen.toNat = b.regionLen % 2 ^ 32 := by
  have hsize := b.size.isLt
  have hround : ∀ x : BitVec 32, ((x + 3) &&& ~~~3).toNat = (x.toNat + 3) % 2 ^ 32 / 4 * 4 := by
    intro x
    have hmask := and_not_mask_add (by decide : 3 < 2 ^ 32) (x + 3).toNat
    have hmod : (x + 3).toNat % 2 ^ 32 &&& 3 = (x + 3).toNat % 2 ^ 32 % 2 ^ 2 := Nat.and_two_pow_sub_one_eq_mod _ 2
    have hnot : (~~~(3 : BitVec 32)).toNat = 2 ^ 32 - 1 - 3 := rfl
    have hadd : (x + 3).toNat = (x.toNat + 3) % 2 ^ 32 := BitVec.toNat_add x 3
    rw [BitVec.toNat_and, hnot]
    omega
  rw [FwBlock.dlen, hround, FwBlock.regionLen, roundUp]
  by_cases hhdr : b.haveHdr
  · have hadd : (b.size + 8).toNat = (b.size.toNat + 8) % 2 ^ 32 := BitVec.toNat_add b.size 8
    rw [if_pos hhdr, if_pos hhdr, hadd]
    omega
  · rw [if_neg hhdr, if_neg hhdr]
    omega

theorem fileRegion_length (haveHdr : Prop) [Decidable haveHdr] (content : List UInt8) :
    (fileRegion haveHdr content).length = (if haveHdr then 8 else 0) + roundUp content.length 4 := by
  have hle : content.length ≤ roundUp content.length 4 := le_roundUp (by decide)
  unfold fileRegion
  rw [List.length_append, List.length_append, List.length_replicate]
  split
  · rw [List.length_append, leBytes_length, leBytes_length]
    omega
  · rw [List.length_nil]
    omega

/-- What is written for a block with a file is the region it has to have. -/
theorem FwBlock.Ready.data_eq {files : Files} {b : FwBlock} (h : b.Ready files) {name content : List UInt8}
    (hname : b.name = some name) (hfile : files name = some content) : b.data files = fileRegion b.haveHdr content := by
  obtain ⟨content', hfile', hsize⟩ := h.file name hname
  cases hfile.symm.trans hfile'
  unfold FwBlock.data fileRegion
  rw [hname]
  dsimp only
  rw [hfile, Option.getD_some, List.take_of_length_le (le_of_eq hsize.symm), paddingLen_eq, le32, hsize]

theorem FwBlock.Ready.data_length {files : Files} {b : FwBlock} (h : b.Ready files) : (b.data files).length = b.regionLen := by
  cases hname : b.name with
  | none =>
    obtain ⟨hsize, hflags⟩ := h.empty hname
    have hhdr : ¬ b.haveHdr := by
      unfold FwBlock.haveHdr
      rw [hflags]
      decide
    unfold FwBlock.data FwBlock.regionLen
    rw [hname, hsize, if_neg hhdr]
    rfl
  | some name =>
    obtain ⟨content, hfile, hsize⟩ := h.file name hname
    rw [h.data_eq hname hfile, fileRegion_length, FwBlock.regionLen, hsize]

theorem flatMap_length {α : Type} (f : α → List UInt8) {n : ℕ} (l : List α) (hf : ∀ a ∈ l, (f a).length = n) :
    (l.flatMap f).length = n * l.length := by
  rw [List.length_flatMap, List.map_congr_left hf, List.map_const', List.sum_replicate, smul_eq_mul, Nat.mul_comm]

theorem tableData_length {parts : List FwPart} (hparts : parts ≠ []) (hcount : parts.length ≤ myloMaxPartitions) :
    (tableData parts).length = partTableLen := by
  have hentries := flatMap_length FwPart.bytes parts fun _ _ => (rfl : _ = 16)
  have hnames := flatMap_length FwPart.name parts fun part _ => part.name_length
  unfold tableData
  rw [if_neg hparts]
  simp only [List.length_append, List.length_replicate, le32_length, hentries, hnames, partTableLen, partNameLen]
  unfold myloMaxPartitions at hcount ⊢
  omega

/-! ## Writer and reader -/

section Image
variable {files : Files} {options : List Opt} {board : CpxBoard} {g : Globals}

theorem descs_used (board : CpxBoard) (g : Globals) : ∀ d ∈ descs board g, d.type = fwDescTypeUsed := by
  intro d hd
  rcases List.mem_append.mp hd with hd | hd
  · split at hd
    · simp at hd
    · rw [List.mem_singleton.mp hd]
      rfl
  · obtain ⟨b, -, rfl⟩ := List.mem_map.mp hd
    rfl

theorem readDescs_body (files : Files) (board : CpxBoard) (g : Globals) (h : FwHeader) :
    readDescs (h.bytes ++ body files board g).length ((h.bytes ++ body files board g).drop 40) =
      some (descs board g, tableData g.parts ++ g.blocks.flatMap (FwBlock.data files)) := by
  rw [List.drop_left' h.bytes_length]
  refine readDescs_bytes _ (descs_used board g) _ _ ?_
  have hlen := flatMap_length Desc.bytes (descs board g) fun d _ => d.bytes_length
  simp only [body, List.length_append, hlen, FwHeader.bytes_length]
  omega

/-- The regions that the data are made of. -/
def writtenRegions (files : Files) (g : Globals) : List (List UInt8) :=
  (if g.parts = [] then [] else [tableData g.parts]) ++ g.blocks.map (FwBlock.data files)

theorem writtenRegions_flatten (files : Files) (g : Globals) :
    (writtenRegions files g).flatten = tableData g.parts ++ g.blocks.flatMap (FwBlock.data files) := by
  rw [writtenRegions, List.flatten_append, List.flatMap_def]
  by_cases hparts : g.parts = []
  · rw [if_pos hparts, hparts]
    rfl
  · rw [if_neg hparts, List.flatten_singleton]

theorem header_bytes_crc (h : FwHeader) (crc : ℕ) (rest : List UInt8) :
    ((((h.withCrc crc).bytes ++ rest).drop 4).take 4) = leBytes (crc % 2 ^ 32) := by
  rfl

theorem header_bytes_zeroed (h : FwHeader) (hcrc : h.crc = 0) (crc : ℕ) (rest : List UInt8) :
    ByteStore.overlay ((h.withCrc crc).bytes ++ rest) 4 (List.replicate 4 0) = h.bytes ++ rest := by
  have hzero : le32 (0 : BitVec 32) = List.replicate 4 0 := rfl
  have hbytes : h.bytes = le32 myloMagicFirmware ++ (List.replicate 4 0 ++ h.bytes.drop 8) := by
    unfold FwHeader.bytes
    rw [hcrc, hzero]
    rfl
  have hrest : ((h.withCrc crc).bytes ++ rest).drop (4 + (List.replicate 4 (0 : UInt8)).length) = h.bytes.drop 8 ++ rest := rfl
  have hfront : ((h.withCrc crc).bytes ++ rest).take 4 = le32 myloMagicFirmware := rfl
  rw [ByteStore.overlay, hfront, hrest, hbytes]
  simp only [List.append_assoc]
  rfl

theorem regionLen_lt_of_holds {bs : List FwBlock} {rs : List (List UInt8)} (hholds : List.Forall₂ (HoldsFile files) bs rs)
    (hlens : rs.map List.length = bs.map fun b => b.dlen.toNat) (hready : ∀ b ∈ bs, b.Ready files) :
    ∀ b ∈ bs, b.name ≠ none → b.regionLen < 2 ^ 32 := by
  induction hholds with
  | nil => simp
  | @cons b r bs rs hr _ ih =>
    rw [List.map_cons, List.map_cons, List.cons.injEq] at hlens
    intro c hc hname
    rcases List.mem_cons.mp hc with rfl | hc
    · obtain ⟨name, hsome⟩ := Option.ne_none_iff_exists'.mp hname
      have hb := hready c List.mem_cons_self
      obtain ⟨content, hfile, -⟩ := hb.file name hsome
      have hlen := hlens.1
      rw [hr name content hsome hfile, ← hb.data_eq hsome hfile, hb.data_length, dlen_eq] at hlen
      rw [hlen]
      exact Nat.mod_lt _ (by decide)
    · exact ih hlens.2 (fun b hb => hready b (List.mem_cons_of_mem _ hb)) c hc hname

theorem FwBlock.Ready.regionLen_lt {b : FwBlock} (h : b.Ready files) (hfile : b.name ≠ none → b.regionLen < 2 ^ 32) :
    b.regionLen < 2 ^ 32 := by
  by_cases hname : b.name = none
  · rw [← h.data_length, FwBlock.data, hname]
    exact Nat.two_pow_pos 32
  · exact hfile hname

theorem descs_dlen (board : CpxBoard) (g : Globals) :
    (descs board g).map (fun d => d.dlen.toNat) =
      (if g.parts = [] then [] else [partTableLen]) ++ g.blocks.map fun b => b.dlen.toNat := by
  rw [descs, List.map_append, List.map_map]
  congr 1
  split <;> rfl

theorem writtenRegions_lengths (h : Prepared files options g)
    (hsmall : ∀ b ∈ g.blocks, b.name ≠ none → b.regionLen < 2 ^ 32) :
    (writtenRegions files g).map List.length = (descs board g).map fun d => d.dlen.toNat := by
  rw [descs_dlen, writtenRegions, List.map_append, List.map_map]
  congr 1
  · by_cases hparts : g.parts = []
    · rw [if_pos hparts, if_pos hparts]
      rfl
    · rw [if_neg hparts, if_neg hparts, List.map_singleton, tableData_length hparts h.count]
  · refine List.map_congr_left fun b hb => ?_
    have hready := h.blocks b hb
    rw [Function.comp_apply, hready.data_length, dlen_eq, Nat.mod_eq_of_lt (hready.regionLen_lt (hsmall b hb))]

theorem forall₂_holds_data {bs : List FwBlock} (hready : ∀ b ∈ bs, b.Ready files) :
    List.Forall₂ (HoldsFile files) bs (bs.map (FwBlock.data files)) := by
  induction bs with
  | nil => exact List.Forall₂.nil
  | cons b bs ih =>
    refine List.Forall₂.cons ?_ (ih fun b hb => hready b (List.mem_cons_of_mem _ hb))
    intro name content hname hfile
    exact (hready b List.mem_cons_self).data_eq hname hfile

/-- The file can be taken apart exactly if the length of each region fits into its descriptor. -/
theorem writeOut_decodable_iff (h : Prepared files options g) :
    Decodable files g (writeOut files board g) ↔ ∀ b ∈ g.blocks, b.name ≠ none → b.regionLen < 2 ^ 32 := by
  rw [writeOut_eq]
  constructor
  · intro hdec
    obtain ⟨ds, data, regions, hread, hcut, hholds⟩ := hdec.regions
    rw [readDescs_body] at hread
    cases hread
    have hlens := ((cutRegions_eq_some_iff _ _ _).mp hcut).1
    refine regionLen_lt_of_holds hholds ?_ h.blocks
    rw [List.map_drop, hlens, descs_dlen]
    split <;> rfl
  · intro hsmall
    refine ⟨⟨?_, wordAt_le32 _ _⟩, ?_, ?_⟩
    · rw [List.length_append, FwHeader.bytes_length]
      omega
    · refine ⟨_, _, writtenRegions files g, readDescs_body _ _ _ _, ?_, ?_⟩
      · exact (cutRegions_eq_some_iff _ _ _).mpr ⟨writtenRegions_lengths h hsmall, writtenRegions_flatten files g⟩
      · have hdrop : (writtenRegions files g).drop (if g.parts = [] then 0 else 1) = g.blocks.map (FwBlock.data files) := by
          unfold writtenRegions
          split <;> rfl
        rw [hdrop]
        exact forall₂_holds_data h.blocks
    · have hlt : getCrc (g.header.bytes ++ body files board g) < 2 ^ 32 := updateCrc_lt _ (by decide)
      rw [header_bytes_crc, header_bytes_zeroed _ h.crc, Nat.mod_eq_of_lt hlt, leWord_leBytes hlt]

end Image

/-- The firmware file of every accepted list of blocks and partitions can be taken apart by the format if and only
if each file, with its header and its padding, is shorter than four gigabytes. -/
theorem mkmylofw_decodable_iff (files : Files) (options : List Opt) (board : CpxBoard) (g : Globals)
    (h : prepare files options = some (board, g)) :
    ∃ image, mkmylofw files options = some image ∧ (Decodable files g image ↔
      ∀ b ∈ g.blocks, ∀ name content, b.name = some name → files name = some content →
        (if b.haveHdr then 8 else 0) + roundUp content.length 4 < 2 ^ 32) := by
  have hprepared := prepared_of_prepare h
  refine ⟨writeOut files board g, by rw [mkmylofw, h]; rfl, ?_⟩
  rw [writeOut_decodable_iff hprepared]
  constructor
  · intro hsmall b hb name content hname hfile
    obtain ⟨content', hfile', hsize⟩ := (hprepared.blocks b hb).file name hname
    cases hfile.symm.trans hfile'
    have hlt := hsmall b hb (by rw [hname]; simp)
    rwa [FwBlock.regionLen, hsize] at hlt
  · intro hsmall b hb hname
    obtain ⟨name, hsome⟩ := Option.ne_none_iff_exists'.mp hname
    obtain ⟨content, hfile, hsize⟩ := (hprepared.blocks b hb).file name hsome
    rw [FwBlock.regionLen, hsize]
    exact hsmall b hb name content hsome hfile

/-- One file, named `k`. -/
def oneFile (content : List UInt8) : Files := fun name => if name = [107] then some content else none

theorem mkmylofw_decodable_small :
    ∃ board g image, prepare (oneFile [1, 2, 3, 4, 5])
        [.board (.lit "wp54g"), .block (.lit "0x20000:0x10000:h:k"), .partition (.lit "0x30000:0x10000:a::kernel:k")] =
          some (board, g) ∧ Decodable (oneFile [1, 2, 3, 4, 5]) g image := by
  have hsome : (prepare (oneFile [1, 2, 3, 4, 5]) [.board (.lit "wp54g"), .block (.lit "0x20000:0x10000:h:k"),
      .partition (.lit "0x30000:0x10000:a::kernel:k")]).isSome = true := by
    decide +kernel
  obtain ⟨⟨board, g⟩, hprepare⟩ := Option.isSome_iff_exists.mp hsome
  obtain ⟨image, -, hiff⟩ := mkmylofw_decodable_iff _ _ board g hprepare
  refine ⟨board, g, image, hprepare, hiff.mpr ?_⟩
  intro b _ name content _ hfile
  unfold oneFile at hfile
  split at hfile
  · cases hfile
    split <;> decide
  · cases hfile

/-- Options for a block that takes a file of almost four gigabytes. -/
def bigOptions : List Opt := [.board (.lit "WP54G"), .size (.lit "0xffffffff"), .block (.lit "0:0xffffffff::k")]

theorem bigOptions_taken : ∃ g board, bigOptions.foldlM applyOpt initialGlobals = some g ∧ g.board = some board ∧
    g.flashSize = 0xffffffff ∧ g.blocks = [⟨0, 0xffffffff, 0, some [107], 0⟩] ∧ g.parts = [] := by
  have heval : (bigOptions.foldlM applyOpt initialGlobals).any (fun g => g.board.isSome ∧ g.flashSize = 0xffffffff ∧
      g.blocks = [⟨0, 0xffffffff, 0, some [107], 0⟩] ∧ g.parts.isEmpty) = true := by
    decide +kernel
  obtain ⟨g, hg, hall⟩ := (Option.any_eq_true _ _).mp heval
  simp only [decide_eq_true_eq, List.isEmpty_iff] at hall
  obtain ⟨hboard, hflash, hblocks, hparts⟩ := hall
  obtain ⟨board, hboard⟩ := Option.isSome_iff_exists.mp hboard
  exact ⟨g, board, hg, hboard, hflash, hblocks, hparts⟩

section BigFile
variable {content : List UInt8} (hlen : content.length = 2 ^ 32 - 3)
include hlen

theorem bigFile_processed : processFile (oneFile content) 0xffffffff ⟨0, 0xffffffff, 0, some [107], 0⟩ =
    some ⟨0, 0xffffffff, 0, some [107], BitVec.ofNat 32 (2 ^ 32 - 3)⟩ := by
  have hone : oneFile content [107] = some content := if_pos rfl
  have hbound : ¬ content.length > (blockLength 0xffffffff ⟨0, 0xffffffff, 0, some [107], 0⟩).toNat := by
    rw [hlen]
    decide
  unfold processFile
  rw [if_neg (by decide)]
  simp only [hone, Option.bind_eq_bind, Option.bind_some, if_neg hbound]
  rw [hlen]
  rfl

theorem bigFile_prepared : ∃ board g, prepare (oneFile content) bigOptions = some (board, g) ∧
    g.blocks = [⟨0, 0xffffffff, 0, some [107], BitVec.ofNat 32 (2 ^ 32 - 3)⟩] := by
  obtain ⟨g, board, hg, hboard, hflash, hblocks, hparts⟩ := bigOptions_taken
  have hfiles : processFiles (oneFile content) g =
      some { g with blocks := [⟨0, 0xffffffff, 0, some [107], BitVec.ofNat 32 (2 ^ 32 - 3)⟩] } := by
    rw [processFiles, hblocks, hflash, List.mapM_cons, bigFile_processed hlen]
    rfl
  refine ⟨board, { g with blocks := [⟨0, 0xffffffff, 0, some [107], BitVec.ofNat 32 (2 ^ 32 - 3)⟩] }, ?_, rfl⟩
  have hflash0 : ¬ g.flashSize = 0 := by
    rw [hflash]
    decide
  unfold prepare
  rw [hg]
  simp only [Option.bind_eq_bind, Option.bind_some, hboard, if_neg hflash0, hfiles, processPartitions, hparts]
  rfl

theorem bigFile_not_decodable :
    ∃ board g image, prepare (oneFile content) bigOptions = some (board, g) ∧
      mkmylofw (oneFile content) bigOptions = some image ∧ ¬ Decodable (oneFile content) g image := by
  obtain ⟨board, g, hprepare, hblocks⟩ := bigFile_prepared hlen
  refine ⟨board, g, writeOut (oneFile content) board g, hprepare, by rw [mkmylofw, hprepare]; rfl, fun hdec => ?_⟩
  have hsmall := (writeOut_decodable_iff (prepared_of_prepare hprepare)).mp hdec
  have hlt := hsmall _ (by rw [hblocks]; exact List.mem_singleton_self _) (by simp)
  exact absurd hlt (by decide)

end BigFile

/-- A file of 4294967293 bytes is padded to 2 ^ 32 bytes; its descriptor has the length zero. -/
theorem mkmylofw_big_not_decodable :
    ∃ board g image, prepare (oneFile (List.replicate (2 ^ 32 - 3) 0)) bigOptions = some (board, g) ∧
      mkmylofw (oneFile (List.replicate (2 ^ 32 - 3) 0)) bigOptions = some image ∧
      ¬ Decodable (oneFile (List.replicate (2 ^ 32 - 3) 0)) g image :=
  bigFile_not_decodable List.length_replicate

end Neufbox.Mylofw
