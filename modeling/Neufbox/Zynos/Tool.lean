import Neufbox.FirmwareUtils.Args
import Neufbox.Library.Fallible

/-! # mkzynfw

`mkzynfw` makes a ZyNOS image from a boot extension and raw blocks. Options are taken one after the other, with
nothing behind them; `none` stands for a message and `EXIT_FAILURE`, or for the usage that `-h` writes in place of
an image. Files are read as they are, and output does not fail. -/
namespace Neufbox.Zynos
open Neufbox.CString Neufbox.FirmwareUtils Neufbox.Library.Fallible
set_option autoImplicit false
set_option maxHeartbeats 250000
set_option maxRecDepth 120000

/-! ## Boards -/

structure BoardInfo where
  name : CStr
  vendor : BitVec 16
  model : BitVec 16
  flashBase : BitVec 32
  flashSize : BitVec 32
  codeStart : BitVec 32
  romioOffs : BitVec 32
  bootextSize : BitVec 32

def zynosVendorIdZyxel : BitVec 16 := 0

def zynosVendorIdO2 : BitVec 16 := 10

def bootextDefSize : BitVec 32 := 0x18000

def adm5120FlashBase : BitVec 32 := 0xBFC00000

def adm5120CodeStart : BitVec 32 := 0x80008000

def ar7FlashBase : BitVec 32 := 0xB0000000

def atherosFlashBase : BitVec 32 := 0xBFC00000

def atherosCodeStart : BitVec 32 := 0x80e00000

/-- `MID`: the number of a model, with its bytes the other way around. -/
def mid (x : ℕ) : BitVec 16 := BitVec.ofNat 16 (((x &&& 0xFF) <<< 8) ||| ((x &&& 0xFF00) >>> 8))

/-- `BOARD`; the size of the flash is in megabytes. -/
def boardInfo (n : String) (v m : BitVec 16) (fb : BitVec 32) (fs : ℕ) (cs fo : BitVec 32) : BoardInfo where
  name := .lit n
  vendor := v
  model := m
  flashBase := fb
  flashSize := BitVec.ofNat 32 (fs * 2 ^ 20)
  codeStart := cs
  romioOffs := fo
  bootextSize := bootextDefSize

def admBoard1 (n : String) (m : BitVec 16) (fs : ℕ) : BoardInfo :=
  boardInfo n zynosVendorIdZyxel m adm5120FlashBase fs adm5120CodeStart 0x8000

def admBoard2 (n : String) (m : BitVec 16) (fs : ℕ) : BoardInfo :=
  boardInfo n zynosVendorIdZyxel m adm5120FlashBase fs adm5120CodeStart 0x10000

def atherosBoard1 (n : String) (m : BitVec 16) (fs : ℕ) : BoardInfo :=
  boardInfo n zynosVendorIdZyxel m atherosFlashBase fs atherosCodeStart 0x30000

def boards : List BoardInfo :=
  [admBoard2 "ES-2024A" (mid 221) 4, admBoard2 "ES-2024PWR" (mid 4097) 4, admBoard2 "ES-2108" (mid 61952) 4,
   admBoard2 "ES-2108-F" (mid 44801) 4, admBoard2 "ES-2108-G" (mid 62208) 4, admBoard2 "ES-2108-LC" (mid 64512) 4,
   admBoard2 "ES-2108PWR" (mid 62464) 4, admBoard1 "HS-100" (mid 61855) 2, admBoard1 "HS-100W" (mid 61855) 2,
   admBoard1 "P-334" (mid 62879) 2, admBoard1 "P-334U" (mid 56735) 4, admBoard1 "P-334W" (mid 62367) 2,
   admBoard1 "P-334WH" (mid 57344) 4, admBoard1 "P-334WHD" (mid 57600) 4, admBoard1 "P-334WT" (mid 61343) 4,
   admBoard1 "P-335" (mid 60831) 4, admBoard1 "P-335Plus" (mid 9472) 4, admBoard1 "P-335U" (mid 56479) 4,
   admBoard1 "P-335WT" (mid 60831) 4,
   boardInfo "P-2602HW-D1A" zynosVendorIdZyxel (mid 6301) ar7FlashBase 4 0x94008000 0x20000,
   boardInfo "O2SURF" zynosVendorIdO2 (mid 30464) ar7FlashBase 8 0x94014000 0x40000,
   atherosBoard1 "NBG-318S" (mid 59392) 4]

def findBoard (name : CStr) : Option BoardInfo := boards.find? fun board => strcasecmp name board.name

/-! ## What the options set -/

inductive BlockType
  | bootext
  | raw
  deriving DecidableEq

/-- A block; an `align` of zero is one that was not given. -/
structure FwBlock where
  type : BlockType
  align : BitVec 32
  fileName : List UInt8
  fileSize : BitVec 32

structure Globals where
  board : Option BoardInfo
  ofname : Option CStr
  blocks : List FwBlock
  bootextBlock : Option ℕ

def maxNumBlocks : ℕ := 8

def initialGlobals : Globals := ⟨none, none, [], none⟩

/-! ## Options -/

def parseOptBoard (g : Globals) (arg : CStr) : Option Globals :=
  if g.board.isSome then none
  else do
    requiredArg arg
    let board ← findBoard arg
    pure { g with board := some board }

def parseOptOfname (g : Globals) (arg : CStr) : Option Globals :=
  if g.ofname.isSome then none
  else do
    requiredArg arg
    pure { g with ofname := some arg }

def parseOptBlock (g : Globals) (type : BlockType) (arg : CStr) : Option Globals :=
  if maxNumBlocks ≤ g.blocks.length then none
  else
    let argv := parseArg arg
    if isEmptyArg argv 0 then none
    else match type with
      | .bootext =>
        -- a second boot extension gets a message, and a block that is of the same type and not written
        some { g with
          blocks := g.blocks ++ [⟨.bootext, 0, argAt argv 0, 0⟩]
          bootextBlock := g.bootextBlock.or (some g.blocks.length) }
      | .raw => do
        let align ← numberArgOr argv 1 0
        pure { g with blocks := g.blocks ++ [⟨.raw, align, argAt argv 0, 0⟩] }

/-- The options that `getopt` can give. -/
inductive Opt
  | bootext (arg : CStr)
  | board (arg : CStr)
  | help
  | ofname (arg : CStr)
  | raw (arg : CStr)
  | verbose
  | invalid

def applyOpt (g : Globals) : Opt → Option Globals
  | .bootext arg => parseOptBlock g .bootext arg
  | .board arg => parseOptBoard g arg
  | .help => none
  | .ofname arg => parseOptOfname g arg
  | .raw arg => parseOptBlock g .raw arg
  | .verbose => some g
  | .invalid => none

/-! ## Checks -/

/-- The files of the host, by name. -/
abbrev Files := List UInt8 → Option (List UInt8)

/-- `ALIGN` -/
def align (x y : BitVec 32) : BitVec 32 := (x + (y - 1)) &&& ~~~(y - 1)

/-- The size of a file is cut to 32 bits. -/
def blockStatFile (files : Files) (b : FwBlock) : Option FwBlock :=
  (files b.fileName).map fun content => { b with fileSize := BitVec.ofNat 32 content.length }

/-- The check of the sizes; the offset that it counts leaves the alignment out. -/
def calcBlockOffsets (board : BoardInfo) (type : BlockType) : List FwBlock → BitVec 32 → Option Unit
  | [], _ => some ()
  | b :: bs, offset =>
    if b.type ≠ type then calcBlockOffsets board type bs offset
    else
      let nextOffs := align offset b.align
      let avail := board.flashSize - board.romioOffs - nextOffs
      if (nextOffs + b.fileSize).toNat > avail.toNat then none
      else calcBlockOffsets board type bs (offset + b.fileSize)

/-- What the options and the checks leave for the output. -/
structure Job where
  board : BoardInfo
  blocks : List FwBlock
  bootext : FwBlock

/-- `process_blocks`; without a boot extension there is no block to look at. -/
def processBlocks (files : Files) (board : BoardInfo) (g : Globals) : Option Job := do
  let blocks ← g.blocks.mapM (blockStatFile files)
  let bootext ← g.bootextBlock.bind (blocks[·]?)
  calcBlockOffsets board .raw blocks (board.romioOffs + bootext.fileSize)
  pure ⟨board, blocks, bootext⟩

def prepare (files : Files) (options : List Opt) : Option Job := do
  let g ← options.foldlM applyOpt initialGlobals
  let board ← g.board
  let _ ← g.ofname
  processBlocks files board g

/-! ## What the checks leave -/

/-- A block with a file, of the size that the file has in 32 bits. -/
def FwBlock.Ready (files : Files) (b : FwBlock) : Prop :=
  ∃ content, files b.fileName = some content ∧ b.fileSize = BitVec.ofNat 32 content.length

structure Job.Ready (files : Files) (job : Job) : Prop where
  board : job.board ∈ boards
  bootext : job.bootext.Ready files
  blocks : ∀ b ∈ job.blocks, b.Ready files

theorem parseOptBlock_board {g g' : Globals} {type : BlockType} {arg : CStr}
    (h : parseOptBlock g type arg = some g') : g'.board = g.board := by
  unfold parseOptBlock at h
  split at h
  · cases h
  · dsimp only at h
    split at h
    · cases h
    · cases type with
      | bootext =>
        cases h
        rfl
      | raw =>
        obtain ⟨align, -, h⟩ := Option.bind_eq_some_iff.mp h
        cases h
        rfl

theorem applyOpt_board {g g' : Globals} {o : Opt} (h : applyOpt g o = some g') (hg : ∀ b ∈ g.board, b ∈ boards) :
    ∀ b ∈ g'.board, b ∈ boards := by
  cases o with
  | bootext arg =>
    have hblock : parseOptBlock g .bootext arg = some g' := h
    rw [parseOptBlock_board hblock]
    exact hg
  | raw arg =>
    have hblock : parseOptBlock g .raw arg = some g' := h
    rw [parseOptBlock_board hblock]
    exact hg
  | board arg =>
    simp only [applyOpt, parseOptBoard] at h
    split at h
    · cases h
    · simp only [Option.bind_eq_bind, Option.bind_eq_some_iff] at h
      obtain ⟨-, -, board, hboard, h⟩ := h
      cases h
      intro b hb
      cases hb
      exact List.mem_of_find?_eq_some hboard
  | ofname arg =>
    simp only [applyOpt, parseOptOfname] at h
    split at h
    · cases h
    · simp only [Option.bind_eq_bind, Option.bind_eq_some_iff] at h
      obtain ⟨-, -, h⟩ := h
      cases h
      exact hg
  | verbose =>
    cases h
    exact hg
  | help => cases h
  | invalid => cases h

theorem ready_of_mapM {files : Files} {bs bs' : List FwBlock} (h : bs.mapM (blockStatFile files) = some bs') :
    ∀ b ∈ bs', b.Ready files := by
  intro b hb
  obtain ⟨b₀, -, hstat⟩ := mem_of_mapM h hb
  obtain ⟨content, hcontent, rfl⟩ := Option.map_eq_some_iff.mp hstat
  exact ⟨content, hcontent, rfl⟩

theorem prepare_ready {files : Files} {options : List Opt} {job : Job} (h : prepare files options = some job) :
    job.Ready files := by
  unfold prepare processBlocks at h
  simp only [Option.bind_eq_bind, Option.bind_eq_some_iff] at h
  obtain ⟨g, hrun, board, hboard, -, -, blocks, hblocks, bootext, ⟨i, -, hbootext⟩, -, -, h⟩ := h
  cases h
  have hall : ∀ b ∈ g.board, b ∈ boards :=
    foldlM_preserves (fun _ _ _ _ hg hstep => applyOpt_board hstep hg) (by simp [initialGlobals]) hrun
  refine ⟨hall board hboard, ?_, ready_of_mapM hblocks⟩
  exact ready_of_mapM hblocks bootext (List.mem_of_getElem? hbootext)

end Neufbox.Zynos
