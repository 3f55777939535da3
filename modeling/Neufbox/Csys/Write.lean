import Neufbox.Csys.Tool
import Neufbox.Library.Memory
import Neufbox.Library.Pieces

/-! # Writing the blocks

A block is written as a header, the bytes of its file, padding and a checksum over file and padding.
`blockWriteout_eq` says what that gives. -/
namespace Neufbox.Csys
open Neufbox.CString Neufbox.Library.Pieces Neufbox.Memory
set_option autoImplicit false
set_option maxHeartbeats 250000
set_option maxRecDepth 120000

/-! ## Checksums -/

structure CsumState where
  size : BitVec 32
  val : BitVec 16
  tmp : BitVec 16
  odd : Bool

def csumInit (size : BitVec 32) : CsumState := ⟨size, 0, 0, false⟩

def byte16 (b : UInt8) : BitVec 16 := b.toBitVec.setWidth 16

def csum8Update (p : List UInt8) (css : CsumState) : CsumState :=
  { css with val := p.foldl (fun val b => val + byte16 b) css.val }

def csum8Get (css : CsumState) : BitVec 16 := ~~~(css.val &&& 0xFF) + 1

/-- The loop of `csum16_update`, and the byte that is left over. -/
def csum16Pairs : List UInt8 → CsumState → CsumState
  | [], css => css
  | [b], css => { css with tmp := byte16 b, odd := true }
  | b :: b' :: p, css => csum16Pairs p { css with val := css.val + (byte16 b + byte16 b' <<< 8) }

/-- It is not called without data. -/
def csum16Update (p : List UInt8) (css : CsumState) : CsumState :=
  match p with
  | [] => css
  | b :: p =>
    if css.odd then csum16Pairs p { css with val := css.val + (css.tmp + byte16 b <<< 8), odd := false }
    else csum16Pairs (b :: p) css

def csum16Get (css : CsumState) : BitVec 16 := ~~~(csum16Update [0] css).val + 1

def csumUpdate (p : List UInt8) (css : CsumState) : CsumState :=
  if css.size = csumSize8 then csum8Update p css else if css.size = csumSize16 then csum16Update p css else css

/-- There are no other sizes of a checksum. -/
def csumGet (css : CsumState) : BitVec 16 :=
  if css.size = csumSize8 then csum8Get css else if css.size = csumSize16 then csum16Get css else 0

/-! ## The output file -/

def le16 (x : BitVec 16) : List UInt8 := [UInt8.ofNat x.toNat, UInt8.ofNat (x.toNat / 256)]

def le32 (x : BitVec 32) : List UInt8 := leBytes x.toNat

/-- The file so far, and the checksum that a block may have. -/
structure Out where
  bytes : List UInt8
  css : Option CsumState

def writeOutData (out : Out) (data : List UInt8) : Out := ⟨out.bytes ++ data, out.css.map (csumUpdate data)⟩

/-- The padding goes out in pieces of 512 bytes. -/
def writeOutPadding (out : Out) (len : ℕ) (padc : UInt8) : Out :=
  inPieces 512 writeOutData len (List.replicate len padc) out

def fileBufLen : ℕ := 16 * 1024

/-- `struct csys_header`; its size is made from the alignment. -/
def CsysBlock.header (b : CsysBlock) : List UInt8 := b.sig ++ (le32 b.addr ++ le32 (b.align - b.sizeHdr))

def blockWriteoutHdr (out : Out) (b : CsysBlock) : Out :=
  if b.sizeHdr = 0 then out else ⟨out.bytes ++ b.header, none⟩

def blockWriteoutFile (files : Files) (out : Out) (b : CsysBlock) : Out :=
  match b.fileName with
  | none => out
  | some name =>
    let content := ((files name).getD []).take b.fileSize.toNat
    if b.fileSize = 0 then out else inPieces fileBufLen writeOutData content.length content out

def blockWriteoutData (files : Files) (out : Out) (b : CsysBlock) : Out :=
  writeOutPadding (blockWriteoutFile files out b) (b.sizeAvail - b.fileSize).toNat b.padc

def blockWriteoutCsum (out : Out) (b : CsysBlock) : Out :=
  if b.sizeCsum = 0 then out
  else ⟨out.bytes ++ (le16 (out.css.elim 0 csumGet)).take b.sizeCsum.toNat, out.css⟩

def blockWriteout (files : Files) (bytes : List UInt8) (b : CsysBlock) : List UInt8 :=
  let out := blockWriteoutHdr ⟨bytes, none⟩ b
  let out : Out := ⟨out.bytes, if b.sizeCsum = 0 then none else some (csumInit b.sizeCsum)⟩
  let out := blockWriteoutData files out b
  (blockWriteoutCsum out b).bytes

/-- The blocks that are written, in this order. -/
def Globals.written (g : Globals) : List CsysBlock := g.boot.toList ++ (g.conf.toList ++ g.placed)

def writeOutBlocks (files : Files) (g : Globals) : List UInt8 := g.written.foldl (blockWriteout files) []

/-- `main`: where the exit status is that of success, the file that is left behind, if there is one. -/
def mkcsysimg (files : Files) (options : List Opt) : Option (Option (List UInt8)) := do
  let (board, g) ← prepare files options
  if valid board g then pure (some (writeOutBlocks files g))
  -- without `-d` an invalid image that was kept is taken away again
  else if g.invalidCausesError then none
  else pure (if g.keepInvalidImages then some (writeOutBlocks files g) else none)

/-! ## What a block gives -/

/-- The bytes of a file that are written. -/
def CsysBlock.content (files : Files) (b : CsysBlock) : List UInt8 :=
  match b.fileName with
  | none => []
  | some name => ((files name).getD []).take b.fileSize.toNat

theorem writeOutPieces_css {n : ℕ} (out : Out) (k : ℕ) (data : List UInt8) :
    (inPieces n writeOutData k data out).css =
      inPieces n (fun css data => css.map (csumUpdate data)) k data out.css :=
  inPieces_map Out.css _ (fun _ _ => rfl) k data out

theorem blockWriteoutFile_bytes (files : Files) (out : Out) (b : CsysBlock) :
    (blockWriteoutFile files out b).bytes = out.bytes ++ b.content files := by
  unfold blockWriteoutFile CsysBlock.content
  cases b.fileName with
  | none => exact (List.append_nil _).symm
  | some name =>
    dsimp only
    split
    next hzero => simp [hzero]
    · exact inPieces_appends (by decide) (fun _ _ => rfl) le_rfl out

theorem blockWriteoutData_bytes (files : Files) (out : Out) (b : CsysBlock) :
    (blockWriteoutData files out b).bytes =
      out.bytes ++ (b.content files ++ List.replicate (b.sizeAvail - b.fileSize).toNat b.padc) := by
  have hpad := @inPieces_appends _ _ Out.bytes 512 (by decide) writeOutData (fun _ _ => rfl)
    (b.sizeAvail - b.fileSize).toNat (List.replicate (b.sizeAvail - b.fileSize).toNat b.padc) (by simp)
    (blockWriteoutFile files out b)
  rw [blockWriteoutData, writeOutPadding, hpad, blockWriteoutFile_bytes, List.append_assoc]

/-- The checksum does not depend on what was written before the block. -/
theorem blockWriteoutData_css (files : Files) (out : Out) (b : CsysBlock) :
    (blockWriteoutData files out b).css = (blockWriteoutData files ⟨[], out.css⟩ b).css := by
  have hfile : (blockWriteoutFile files out b).css = (blockWriteoutFile files ⟨[], out.css⟩ b).css := by
    unfold blockWriteoutFile
    cases b.fileName with
    | none => rfl
    | some name =>
      dsimp only
      split
      · rfl
      · rw [writeOutPieces_css, writeOutPieces_css]
  rw [blockWriteoutData, blockWriteoutData, writeOutPadding, writeOutPadding, writeOutPieces_css, writeOutPieces_css,
    hfile]

/-- The checksum of a block, as it is written. -/
def CsysBlock.csum (files : Files) (b : CsysBlock) : List UInt8 :=
  if b.sizeCsum = 0 then []
  else (le16 ((blockWriteoutData files ⟨[], some (csumInit b.sizeCsum)⟩ b).css.elim 0 csumGet)).take b.sizeCsum.toNat

/-- What is written for a block. -/
def CsysBlock.bytes (files : Files) (b : CsysBlock) : List UInt8 :=
  (if b.sizeHdr = 0 then [] else b.header) ++
    (b.content files ++ (List.replicate (b.sizeAvail - b.fileSize).toNat b.padc ++ b.csum files))

theorem blockWriteout_eq (files : Files) (bytes : List UInt8) (b : CsysBlock) :
    blockWriteout files bytes b = bytes ++ b.bytes files := by
  have hhdr : (blockWriteoutHdr ⟨bytes, none⟩ b).bytes = bytes ++ (if b.sizeHdr = 0 then [] else b.header) := by
    unfold blockWriteoutHdr
    split
    · exact (List.append_nil _).symm
    · rfl
  unfold blockWriteout blockWriteoutCsum CsysBlock.bytes CsysBlock.csum
  dsimp only
  by_cases hcsum : b.sizeCsum = 0
  · simp only [if_pos hcsum, blockWriteoutData_bytes, hhdr, List.append_assoc, List.append_nil]
  · simp only [if_neg hcsum, blockWriteoutData_bytes, hhdr, List.append_assoc]
    rw [blockWriteoutData_css]

/-- The image is its blocks, one behind the other. -/
theorem writeOutBlocks_eq (files : Files) (g : Globals) :
    writeOutBlocks files g = g.written.flatMap (CsysBlock.bytes files) := by
  have hfold : ∀ (bs : List CsysBlock) (bytes : List UInt8),
      bs.foldl (blockWriteout files) bytes = bytes ++ bs.flatMap (CsysBlock.bytes files) := by
    intro bs
    induction bs with
    | nil => exact fun bytes => (List.append_nil bytes).symm
    | cons b bs ih =>
      intro bytes
      rw [List.foldl_cons, ih, blockWriteout_eq, List.flatMap_cons, List.append_assoc]
  exact hfold g.written []

end Neufbox.Csys
