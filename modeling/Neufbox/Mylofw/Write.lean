import Neufbox.Library.Fallible
import Neufbox.Trx.Tool
import Neufbox.Mylofw.Tool

/-! # Writing the firmware file

The output is written front to back with a running checksum, and the header is written once more over the first
one when the checksum is known. `firmware_eq` says what the file holds in the end. -/
namespace Neufbox.Mylofw
open Neufbox.CString Neufbox.FirmwareUtils Neufbox.Library.Fallible Neufbox.Library.Pieces Neufbox.Memory
set_option autoImplicit false
set_option maxHeartbeats 250000
set_option maxRecDepth 120000

/-! ## The checksum -/

/-- The polynomial, from the exponents of its terms. -/
def crcPattern : ℕ := [0, 1, 2, 4, 5, 7, 8, 10, 11, 12, 16, 22, 23, 26].foldl (fun e p => e ||| 2 ^ (31 - p)) 0

/-- The inner loop of `init_crc_table`; the first number bounds its turns. -/
def crcShift : ℕ → ℕ → ℕ → ℕ
  | 0, _, c => c
  | n + 1, k, c =>
    if k = 1 then c
    else
      let c := if c % 2 = 1 then (c >>> 1) ^^^ crcPattern else c >>> 1
      crcShift n (k >>> 1) (if k % 2 = 1 then c ^^^ crcPattern else c)

def initCrcTable : List ℕ := (List.range 256).map fun i => crcShift 9 (i ||| 256) 0

/-- The table of `trx` is the same. -/
theorem initCrcTable_eq : initCrcTable = Trx.crc_32_tab := by
  decide +kernel

theorem initCrcTable_size : initCrcTable.length = 256 := by
  rw [initCrcTable_eq]
  exact Trx.crcTable.size

theorem initCrcTable_bound : ∀ e ∈ initCrcTable, e < 2 ^ 32 := by
  rw [initCrcTable_eq]
  exact Trx.crcTable.bound

theorem initCrcTable_topBytes : (initCrcTable.map (· >>> 24)).Nodup := by
  rw [initCrcTable_eq]
  exact Trx.crcTable.topBytes

def crcTable : Crc32.CrcTable := ⟨initCrcTable, initCrcTable_size, initCrcTable_bound, initCrcTable_topBytes⟩

def updateCrc (bs : List UInt8) (crc : ℕ) : ℕ := Crc32.update crcTable (crc ^^^ 0xFFFFFFFF) bs ^^^ 0xFFFFFFFF

def getCrc (bs : List UInt8) : ℕ := updateCrc bs 0

theorem updateCrc_nil (crc : ℕ) : updateCrc [] crc = crc := by
  rw [updateCrc, Crc32.update_nil, Nat.xor_assoc, Nat.xor_self, Nat.xor_zero]

theorem updateCrc_append (xs ys : List UInt8) (crc : ℕ) : updateCrc (xs ++ ys) crc = updateCrc ys (updateCrc xs crc) := by
  simp only [updateCrc]
  rw [Nat.xor_assoc, Nat.xor_self, Nat.xor_zero, Crc32.update_append]

theorem updateCrc_lt (bs : List UInt8) {crc : ℕ} (hcrc : crc < 2 ^ 32) : updateCrc bs crc < 2 ^ 32 :=
  Nat.xor_lt_two_pow (Crc32.update_lt _ (Nat.xor_lt_two_pow hcrc (by decide)) bs) (by decide)

/-! ## Records of the format -/

def le16 (x : BitVec 16) : List UInt8 := [UInt8.ofNat x.toNat, UInt8.ofNat (x.toNat / 256)]

def le32 (x : BitVec 32) : List UInt8 := leBytes x.toNat

def myloMagicFirmware : BitVec 32 := 0x4C594D00

def myloMagicPartitions : BitVec 32 := 0x20021103

/-- `struct mylo_fw_header` -/
def FwHeader.bytes (h : FwHeader) : List UInt8 :=
  le32 myloMagicFirmware ++ (le32 h.crc ++ (le32 0 ++ (le32 0 ++ (le16 h.vid ++ (le16 h.did ++ (le16 h.svid ++
    (le16 h.sdid ++ (le32 h.rev ++ (le32 h.fwhi ++ (le32 h.fwlo ++ le32 h.flags))))))))))

/-- `struct mylo_fw_blockdesc` -/
structure Desc where
  type : BitVec 32
  addr : BitVec 32
  dlen : BitVec 32
  blen : BitVec 32
  deriving DecidableEq

def Desc.bytes (d : Desc) : List UInt8 := le32 d.type ++ (le32 d.addr ++ (le32 d.dlen ++ le32 d.blen))

def fwDescTypeUsed : BitVec 32 := 1

def partitionTypeUsed : BitVec 16 := 1

/-- `struct mylo_partition` of a partition in use. -/
def FwPart.bytes (part : FwPart) : List UInt8 :=
  le16 part.flags ++ (le16 partitionTypeUsed ++ (le32 part.addr ++ (le32 part.size ++ le32 part.param)))

/-! ## The output file -/

structure Out where
  bytes : List UInt8
  crc : ℕ

def writeOutData (out : Out) (data : List UInt8) : Out := ⟨out.bytes ++ data, updateCrc data out.crc⟩

def writeOutDesc (out : Out) (desc : Desc) : Out := writeOutData out desc.bytes

/-- The padding goes out in pieces of 512 bytes. -/
def writeOutPadding (out : Out) (len : ℕ) (padc : UInt8) : Out :=
  inPieces 512 writeOutData len (List.replicate len padc) out

def fileBufLen : ℕ := 16 * 1024

def FwBlock.haveHdr (b : FwBlock) : Prop := b.flags &&& blockFlagHavehdr ≠ 0

instance (b : FwBlock) : Decidable b.haveHdr := by
  unfold FwBlock.haveHdr
  infer_instance

/-- `get_file_crc` -/
def getFileCrc (content : List UInt8) : ℕ := inPieces fileBufLen (fun crc bs => updateCrc bs crc) content.length content 0

/-- The length of the padding, with the precedence that `ALIGN` gives it: `(len + 3) & (~3 - size)` for a `len`
that the loop has counted down to zero. -/
def paddingLen (size : BitVec 32) : ℕ := 3 &&& (~~~(3 : BitVec 32) - size).toNat

def writeOutFile (files : Files) (out : Out) (b : FwBlock) : Out :=
  match b.name with
  | none => out
  | some name =>
    -- `size` bytes are read, for the checksum and for the copy
    let content := ((files name).getD []).take b.size.toNat
    let out := if b.haveHdr then writeOutData out (le32 b.size ++ leBytes (getFileCrc content)) else out
    let out := inPieces fileBufLen writeOutData content.length content out
    writeOutPadding out (paddingLen b.size) 0xFF

def writeOutPartitions (out : Out) (parts : List FwPart) : Out :=
  if parts = [] then out
  else
    let table := le32 myloMagicPartitions ++ (List.replicate 12 0 ++ parts.flatMap FwPart.bytes)
    let out := writeOutData out (table ++ List.replicate (16 * (myloMaxPartitions - parts.length)) 0)
    writeOutData out (parts.flatMap FwPart.name ++ List.replicate (partNameLen * (myloMaxPartitions - parts.length)) 0)

/-- The length that is written for a block, in 32 bits. -/
def FwBlock.dlen (b : FwBlock) : BitVec 32 := ((if b.haveHdr then b.size + 8 else b.size) + 3) &&& ~~~3

def FwBlock.desc (b : FwBlock) : Desc := ⟨fwDescTypeUsed, b.addr, b.dlen, b.blocklen⟩

def partTableLen : ℕ := 16 + 16 * myloMaxPartitions + partNameLen * myloMaxPartitions

def tableDesc (board : CpxBoard) : Desc :=
  ⟨fwDescTypeUsed, board.partOffset, BitVec.ofNat 32 partTableLen, board.partSize⟩

def nullDesc : Desc := ⟨0, 0, 0, 0⟩

def writeOutBlocks (files : Files) (board : CpxBoard) (parts : List FwPart) (blocks : List FwBlock) (out : Out) : Out :=
  let out := if parts = [] then out else writeOutDesc out (tableDesc board)
  let out := blocks.foldl (fun out b => writeOutDesc out b.desc) out
  let out := writeOutDesc out nullDesc
  let out := writeOutPartitions out parts
  blocks.foldl (writeOutFile files) out

/-- The header at the front of the file. -/
def writeOutHeader (h : FwHeader) (bytes : List UInt8) : List UInt8 := ByteStore.overlay bytes 0 h.bytes

def FwHeader.withCrc (h : FwHeader) (crc : ℕ) : FwHeader := { h with crc := BitVec.ofNat 32 crc }

/-- Everything behind the checks of `main`. -/
def writeOut (files : Files) (board : CpxBoard) (g : Globals) : List UInt8 :=
  let out : Out := ⟨writeOutHeader g.header [], updateCrc g.header.bytes 0⟩
  let out := writeOutBlocks files board g.parts g.blocks out
  writeOutHeader (g.header.withCrc out.crc) out.bytes

/-- What the options and the checks leave for the output. -/
def prepare (files : Files) (options : List Opt) : Option (CpxBoard × Globals) := do
  let g ← options.foldlM applyOpt initialGlobals
  let board ← g.board
  if g.flashSize = 0 then none
  else
    let g ← processFiles files g
    let g ← processPartitions g
    pure (board, g)

/-- `main`, with one name of an output file behind the options. -/
def mkmylofw (files : Files) (options : List Opt) : Option (List UInt8) := do
  let (board, g) ← prepare files options
  pure (writeOut files board g)

/-! ## What the checks leave -/

/-- A block behind `process_files`: its size is that of its file. -/
structure FwBlock.Ready (files : Files) (b : FwBlock) : Prop where
  empty : b.name = none → b.size = 0 ∧ b.flags = 0
  file : ∀ name, b.name = some name → ∃ content, files name = some content ∧ b.size.toNat = content.length

theorem processFile_ready {files : Files} {flashSize : BitVec 32} {b b' : FwBlock} (hb : b.Fresh)
    (h : processFile files flashSize b = some b') : b'.Ready files := by
  unfold processFile at h
  split at h
  · cases h
  · split at h
    next hname =>
      cases h
      exact ⟨fun _ => ⟨hb.size, hb.flags hname⟩, fun name hsome => by rw [hname] at hsome; cases hsome⟩
    next name hname =>
      simp only [Option.bind_eq_bind, Option.bind_eq_some_iff] at h
      obtain ⟨content, hcontent, h⟩ := h
      split at h
      · cases h
      next hfits =>
        have hsize : (BitVec.ofNat 32 content.length).toNat = content.length := by
          rw [BitVec.toNat_ofNat]
          exact Nat.mod_eq_of_lt (lt_of_le_of_lt (not_lt.mp hfits) (BitVec.isLt _))
        cases h
        refine ⟨fun hnone => ?_, fun name' hsome => ?_⟩
        · exact absurd hname (by rw [hnone]; simp)
        · cases hname.symm.trans hsome
          exact ⟨content, hcontent, hsize⟩

theorem ready_of_mapM {files : Files} {flashSize : BitVec 32} {bs bs' : List FwBlock} (hbs : ∀ b ∈ bs, b.Fresh)
    (h : bs.mapM (processFile files flashSize) = some bs') : ∀ b ∈ bs', b.Ready files := by
  intro b hb
  obtain ⟨b₀, hmem, hfile⟩ := mem_of_mapM h hb
  exact processFile_ready (hbs b₀ hmem) hfile

/-- What the output is made from. -/
structure Prepared (files : Files) (options : List Opt) (g : Globals) : Prop where
  crc : g.header.crc = 0
  blocks : ∀ b ∈ g.blocks, b.Ready files
  parts : g.parts.map FwPart.name = (partitionArgs options).map fun arg => strncpy partNameLen (givenName arg)
  count : g.parts.length ≤ myloMaxPartitions

theorem prepared_of_prepare {files : Files} {options : List Opt} {board : CpxBoard} {g : Globals}
    (h : prepare files options = some (board, g)) : Prepared files options g := by
  unfold prepare at h
  simp only [Option.bind_eq_bind, Option.bind_eq_some_iff] at h
  obtain ⟨g₀, hrun, board₀, -, h⟩ := h
  have htaken := taken_options hrun
  split at h
  · cases h
  · simp only [Option.bind_eq_some_iff] at h
    obtain ⟨g₁, hfiles, g₂, hparts, h⟩ := h
    cases h
    unfold processPartitions at hparts
    split at hparts
    · cases hparts
      unfold processFiles at hfiles
      simp only [Option.bind_eq_bind, Option.bind_eq_some_iff] at hfiles
      obtain ⟨blocks, hblocks, hfiles⟩ := hfiles
      cases hfiles
      exact ⟨htaken.crc, ready_of_mapM htaken.blocks hblocks, htaken.parts, htaken.count⟩
    · cases hparts

/-! ## What the file holds -/

theorem writeOutData_append (out : Out) (xs ys : List UInt8) :
    writeOutData (writeOutData out xs) ys = writeOutData out (xs ++ ys) := by
  simp only [writeOutData, List.append_assoc, updateCrc_append]

theorem writeOutData_nil (out : Out) : writeOutData out [] = out := by
  simp only [writeOutData, List.append_nil, updateCrc_nil]

theorem writeOutPadding_eq (out : Out) (len : ℕ) (padc : UInt8) :
    writeOutPadding out len padc = writeOutData out (List.replicate len padc) :=
  inPieces_eq (by decide) _ writeOutData_nil writeOutData_append _ _ _ (by simp)

theorem getFileCrc_eq (content : List UInt8) : getFileCrc content = getCrc content :=
  inPieces_eq (by decide) _ updateCrc_nil (fun crc xs ys => (updateCrc_append xs ys crc).symm) _ _ _ le_rfl

/-- The data of a block. -/
def FwBlock.data (files : Files) (b : FwBlock) : List UInt8 :=
  match b.name with
  | none => []
  | some name =>
    let content := ((files name).getD []).take b.size.toNat
    (if b.haveHdr then le32 b.size ++ leBytes (getCrc content) else []) ++
      (content ++ List.replicate (paddingLen b.size) 0xFF)

theorem copyFile_eq (content : List UInt8) (out : Out) :
    inPieces fileBufLen writeOutData content.length content out = writeOutData out content :=
  inPieces_eq (by decide) _ writeOutData_nil writeOutData_append _ _ _ le_rfl

theorem writeOutFile_eq (files : Files) (out : Out) (b : FwBlock) :
    writeOutFile files out b = writeOutData out (b.data files) := by
  unfold writeOutFile FwBlock.data
  cases b.name with
  | none => exact (writeOutData_nil out).symm
  | some name =>
    dsimp only
    rw [copyFile_eq, writeOutPadding_eq, getFileCrc_eq, writeOutData_append]
    by_cases hhdr : b.haveHdr
    · rw [if_pos hhdr, if_pos hhdr, writeOutData_append]
    · rw [if_neg hhdr, if_neg hhdr, List.nil_append]

/-- The partition table and the names behind it. -/
def tableData (parts : List FwPart) : List UInt8 :=
  if parts = [] then []
  else le32 myloMagicPartitions ++ (List.replicate 12 0 ++ (parts.flatMap FwPart.bytes ++
    (List.replicate (16 * (myloMaxPartitions - parts.length)) 0 ++
      (parts.flatMap FwPart.name ++ List.replicate (partNameLen * (myloMaxPartitions - parts.length)) 0))))

theorem writeOutPartitions_eq (out : Out) (parts : List FwPart) :
    writeOutPartitions out parts = writeOutData out (tableData parts) := by
  unfold writeOutPartitions tableData
  split
  · rw [writeOutData_nil]
  · simp only [writeOutData_append, List.append_assoc]

theorem foldl_writeOutData {ι : Type} (data : ι → List UInt8) (step : Out → ι → Out)
    (hstep : ∀ out i, step out i = writeOutData out (data i)) (items : List ι) (out : Out) :
    items.foldl step out = writeOutData out (items.flatMap data) := by
  induction items generalizing out with
  | nil => rw [List.flatMap_nil, writeOutData_nil, List.foldl_nil]
  | cons i items ih => rw [List.foldl_cons, hstep, ih, writeOutData_append, List.flatMap_cons]

/-- All descriptors but the last. -/
def descs (board : CpxBoard) (g : Globals) : List Desc :=
  (if g.parts = [] then [] else [tableDesc board]) ++ g.blocks.map FwBlock.desc

/-- Everything behind the header. -/
def body (files : Files) (board : CpxBoard) (g : Globals) : List UInt8 :=
  (descs board g).flatMap Desc.bytes ++ (nullDesc.bytes ++ (tableData g.parts ++ g.blocks.flatMap (FwBlock.data files)))

theorem writeOutBlocks_eq (files : Files) (board : CpxBoard) (g : Globals) (out : Out) :
    writeOutBlocks files board g.parts g.blocks out = writeOutData out (body files board g) := by
  have htable : (if g.parts = [] then out else writeOutDesc out (tableDesc board)) =
      writeOutData out ((if g.parts = [] then [] else [tableDesc board]).flatMap Desc.bytes) := by
    split
    · rw [List.flatMap_nil, writeOutData_nil]
    · rw [List.flatMap_singleton]
      rfl
  have hdescs : ∀ out, g.blocks.foldl (fun out b => writeOutDesc out b.desc) out =
      writeOutData out ((g.blocks.map FwBlock.desc).flatMap Desc.bytes) := fun out => by
    rw [foldl_writeOutData (fun b : FwBlock => b.desc.bytes) (fun out b => writeOutDesc out b.desc) (fun _ _ => rfl),
      List.flatMap_map]
  have hnull : ∀ out, writeOutDesc out nullDesc = writeOutData out nullDesc.bytes := fun _ => rfl
  unfold writeOutBlocks
  dsimp only
  rw [htable, hdescs, hnull, writeOutPartitions_eq, foldl_writeOutData _ _ (writeOutFile_eq files)]
  simp only [writeOutData_append, body, descs, List.flatMap_append, List.append_assoc]

theorem FwHeader.bytes_length (h : FwHeader) : h.bytes.length = 40 := rfl

theorem writeOutHeader_eq (h h' : FwHeader) (rest : List UInt8) : writeOutHeader h' (h.bytes ++ rest) = h'.bytes ++ rest := by
  rw [writeOutHeader, ByteStore.overlay, List.take_zero, List.nil_append, Nat.zero_add, FwHeader.bytes_length,
    List.drop_left' (FwHeader.bytes_length h)]

/-- The file is the header with the checksum and the data behind it. -/
theorem writeOut_eq (files : Files) (board : CpxBoard) (g : Globals) :
    writeOut files board g =
      (g.header.withCrc (getCrc (g.header.bytes ++ body files board g))).bytes ++ body files board g := by
  have hfirst : writeOutHeader g.header [] = g.header.bytes := by
    rw [writeOutHeader, ByteStore.overlay, List.take_nil, List.drop_nil, List.nil_append, List.append_nil]
  have hout : writeOutBlocks files board g.parts g.blocks ⟨g.header.bytes, updateCrc g.header.bytes 0⟩ =
      ⟨g.header.bytes ++ body files board g, getCrc (g.header.bytes ++ body files board g)⟩ := by
    rw [writeOutBlocks_eq, writeOutData, getCrc, updateCrc_append]
  unfold writeOut
  dsimp only
  rw [hfirst, hout]
  exact writeOutHeader_eq _ _ _

end Neufbox.Mylofw
