import Neufbox.Library.Blocks
import Neufbox.Library.ByteStore
import Neufbox.Library.Pieces
import Neufbox.Zynos.Tool

/-! # Writing the image

The image is written front to back, with a running checksum and a count of the place in flash that it has reached;
at the end the header is written once more over the first one. -/
namespace Neufbox.Zynos
open Neufbox.Blocks Neufbox.CString Neufbox.Decimal Neufbox.Library.Pieces
set_option autoImplicit false
set_option maxHeartbeats 250000
set_option maxRecDepth 120000

/-! ## The checksum -/

structure CsumState where
  odd : Bool
  sum : ℕ
  tmp : UInt8

def csumInit : CsumState := ⟨false, 0, 0⟩

/-- The sum of a byte pair, with the carry brought around. -/
def csumAdd (sum : ℕ) (b b' : UInt8) : ℕ :=
  let sum := sum + (b.toNat <<< 8) + b'.toNat
  if sum > 0xFFFF then (sum + 1) &&& 0xFFFF else sum

/-- The loop of `csum_update`, and the byte that is left over. -/
def csumPairs : List UInt8 → CsumState → CsumState
  | [], css => css
  | [b], css => { css with tmp := b, odd := true }
  | b :: b' :: p, css => csumPairs p { css with sum := csumAdd css.sum b b' }

def csumUpdate (p : List UInt8) (css : CsumState) : CsumState :=
  match p with
  | [] => css
  | b :: p =>
    if css.odd then csumPairs p { css with sum := csumAdd css.sum css.tmp b, odd := false } else csumPairs (b :: p) css

def csumGet (css : CsumState) : BitVec 16 := BitVec.ofNat 16 (csumUpdate [0] css).sum

def csumBuf (p : List UInt8) : BitVec 16 := csumGet (csumUpdate p csumInit)

/-! ## Records of the format -/

def be16 (x : BitVec 16) : List UInt8 := [UInt8.ofNat (x.toNat / 256), UInt8.ofNat x.toNat]

def be32 (x : BitVec 32) : List UInt8 := beBytes x.toNat

def rombinSignature : CStr := .lit "SIG"

def objectTypeBootext : UInt8 := 0x03

def rombinFlagOcsum : UInt8 := 0x40

/-- The fields of `struct zyn_rombin_hdr` that are set. -/
structure RombinHdr where
  addr : BitVec 32
  type : UInt8
  osize : BitVec 32
  csize : BitVec 32
  flags : UInt8
  ocsum : BitVec 16
  ccsum : BitVec 16
  mmapAddr : BitVec 32

def rombinHdrSize : ℕ := 48

def RombinHdr.bytes (h : RombinHdr) : List UInt8 :=
  be32 h.addr ++ ([0, 0] ++ (rombinSignature.bytes ++ (h.type :: (be32 h.osize ++ (be32 h.csize ++ (h.flags :: 0 ::
    (be16 h.ocsum ++ (be16 h.ccsum ++ (List.replicate 15 0 ++ (be32 h.mmapAddr ++ List.replicate 5 0))))))))))

/-- The header that is written first. -/
def firstHdr (board : BoardInfo) : RombinHdr := ⟨board.codeStart, objectTypeBootext, 0, 0, rombinFlagOcsum, 0, 0, 0⟩

def mmapDataSize : ℕ := 1024

def mmapAlign : BitVec 32 := 16

def mmtHdrSize : ℕ := 24

/-- The user data of the memory map: three texts, each with its NUL. -/
def userData (board : BoardInfo) : List UInt8 :=
  -- the model is kept with its bytes the other way around
  let model := board.model.toNat % 256 * 256 + board.model.toNat / 256
  (CStr.lit "Vendor 1 ").bytes ++ (decimal board.vendor.toNat ++ (0 :: ((CStr.lit "Model 1 ").bytes ++ (decimal model ++
    (0 :: ((CStr.lit "HwVerRange 2 0 0").bytes ++ [0]))))))

/-- The array that `write_out_mmap` fills. -/
def mmapData (board : BoardInfo) (addr : BitVec 32) : List UInt8 :=
  let userSize := mmtHdrSize + (userData board).length
  let data := userData board ++ List.replicate (mmapDataSize - userSize) 0
  be16 0 ++ (be32 (addr + BitVec.ofNat 32 mmtHdrSize) ++ (be32 (addr + BitVec.ofNat 32 userSize) ++
    (be16 (csumBuf (data.take userSize)) ++ (List.replicate 12 0 ++ data))))

/-! ## The output file -/

structure Out where
  bytes : List UInt8
  css : CsumState

def writeOutData (out : Out) (data : List UInt8) : Out := ⟨out.bytes ++ data, csumUpdate data out.css⟩

/-- The padding goes out in pieces of 512 bytes. -/
def writeOutPadding (out : Out) (len : ℕ) (padc : UInt8) : Out :=
  inPieces 512 writeOutData len (List.replicate len padc) out

def fileBufLen : ℕ := 16 * 1024

/-- `write_out_block`: so many bytes of the file as its size says. -/
def writeOutBlock (files : Files) (out : Out) (b : FwBlock) : Out :=
  let content := ((files b.fileName).getD []).take b.fileSize.toNat
  if b.fileSize = 0 then out else inPieces fileBufLen writeOutData content.length content out

/-- The header at the front of the file. -/
def writeOutHeader (h : RombinHdr) (bytes : List UInt8) : List UInt8 := ByteStore.overlay bytes 0 h.bytes

/-- `read_magic`, as the big-endian number that it is used as; what a short file does not have stays zero. -/
def readMagic (files : Files) (b : FwBlock) : BitVec 16 :=
  let content := (files b.fileName).getD []
  BitVec.ofNat 16 ((content.getD 0 0).toNat * 256 + (content.getD 1 0).toNat)

/-- The file so far, and `offset`, the place in flash that it has reached. -/
structure Pos where
  out : Out
  offset : BitVec 32

/-- Padding up to a multiple of the alignment. -/
def padTo (p : Pos) (y : BitVec 32) : Pos :=
  let padlen := align p.offset y - p.offset
  ⟨writeOutPadding p.out padlen.toNat 0xFF, p.offset + padlen⟩

def placeBlock (files : Files) (p : Pos) (b : FwBlock) : Pos := ⟨writeOutBlock files p.out b, p.offset + b.fileSize⟩

def startPos (board : BoardInfo) : Pos :=
  ⟨⟨writeOutHeader (firstHdr board) [], csumInit⟩, board.romioOffs + BitVec.ofNat 32 rombinHdrSize⟩

/-- Up to the memory map. -/
def writeBootext (files : Files) (job : Job) : Option Pos :=
  let p := placeBlock files (startPos job.board) job.bootext
  if p.offset.toNat > (job.board.romioOffs + job.board.bootextSize).toNat then none else some (padTo p mmapAlign)

def writeOutMmap (board : BoardInfo) (p : Pos) : Pos :=
  ⟨writeOutData p.out (mmapData board (board.flashBase + p.offset)), p.offset + BitVec.ofNat 32 mmapDataSize⟩

/-- The rest of the boot extension is filled up. -/
def fillBootext (board : BoardInfo) (p : Pos) : Pos :=
  if (p.offset - board.romioOffs).toNat < board.bootextSize.toNat then
    let padlen := board.romioOffs + board.bootextSize - p.offset
    ⟨writeOutPadding p.out padlen.toNat 0xFF, p.offset + padlen⟩
  else p

/-- One turn of the loop over the blocks. -/
def writeRaw (files : Files) (p : Pos) (b : FwBlock) : Pos :=
  if b.type = .bootext then p else placeBlock files (padTo p b.align) b

/-- `write_out_image` -/
def writeOutImage (files : Files) (job : Job) : Option (List UInt8) := do
  let mmap ← writeBootext files job
  let p := job.blocks.foldl (writeRaw files) (fillBootext job.board (writeOutMmap job.board mmap))
  let p := padTo p 4
  let csum := csumGet p.out.css
  let ocsum := readMagic files job.bootext
  let t := if csum.toNat ≤ ocsum.toNat then ocsum - csum else ocsum - csum - 1
  let hdr := { firstHdr job.board with mmapAddr := job.board.flashBase + mmap.offset, osize := 2, ocsum := ocsum }
  pure (writeOutHeader hdr (p.out.bytes ++ be16 t))

/-- `main` -/
def mkzynfw (files : Files) (options : List Opt) : Option (List UInt8) := do
  let job ← prepare files options
  writeOutImage files job

/-! ## What is appended -/

theorem writeOutPadding_bytes (out : Out) (len : ℕ) (padc : UInt8) :
    (writeOutPadding out len padc).bytes = out.bytes ++ List.replicate len padc :=
  inPieces_appends (by decide) (fun _ _ => rfl) (by simp) out

theorem writeOutBlock_bytes (files : Files) (out : Out) (b : FwBlock) :
    (writeOutBlock files out b).bytes = out.bytes ++ ((files b.fileName).getD []).take b.fileSize.toNat := by
  unfold writeOutBlock
  dsimp only
  split
  next hzero =>
    rw [hzero]
    simp
  · exact inPieces_appends (by decide) (fun _ _ => rfl) le_rfl out

@[simp] theorem RombinHdr.bytes_length (h : RombinHdr) : h.bytes.length = rombinHdrSize := rfl

theorem mmapData_length (board : BoardInfo) (addr : BitVec 32) : (mmapData board addr).length = mmapDataSize := by
  have hvendor : (decimal board.vendor.toNat).length ≤ 5 :=
    decimal_length_le (by decide) (by have := board.vendor.isLt; omega)
  have hmodel : (decimal (board.model.toNat % 256 * 256 + board.model.toNat / 256)).length ≤ 5 :=
    decimal_length_le (by decide) (by have := board.model.isLt; omega)
  have huser : (userData board).length ≤ 46 := by
    have hlens : (CStr.lit "Vendor 1 ").bytes.length = 9 ∧ (CStr.lit "Model 1 ").bytes.length = 8 ∧
        (CStr.lit "HwVerRange 2 0 0").bytes.length = 16 := by decide
    obtain ⟨h₁, h₂, h₃⟩ := hlens
    simp only [userData, List.length_append, List.length_cons, List.length_nil, h₁, h₂, h₃]
    omega
  have hbe32 : ∀ x, (be32 x).length = 4 := fun _ => rfl
  have hbe16 : ∀ x, (be16 x).length = 2 := fun _ => rfl
  simp only [mmapData, List.length_append, List.length_replicate, hbe32, hbe16, mmapDataSize, mmtHdrSize]
  omega

end Neufbox.Zynos
