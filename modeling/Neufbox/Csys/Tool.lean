import Neufbox.FirmwareUtils.Args
import Neufbox.Library.Fallible

/-! # mkcsysimg

`mkcsysimg` makes a CSYS image from blocks for boot code, settings, web pages, runtime code and extra data. Options
are taken one after the other, with one name of an output file behind them; `none` stands for a message and
`EXIT_FAILURE`, or for the usage that `-h` writes in place of an image. Files are read as they are, and output does
not fail. -/
namespace Neufbox.Csys
open Neufbox.CString Neufbox.FirmwareUtils Neufbox.Library.Fallible
set_option autoImplicit false
set_option maxHeartbeats 250000
set_option maxRecDepth 120000

/-! ## Boards -/

structure BoardInfo where
  model : CStr
  flashSize : BitVec 32
  sigWebp : List UInt8
  bootSize : BitVec 32
  confSize : BitVec 32
  webpSizeMax : BitVec 32
  addrCode : BitVec 32
  addrWebp : BitVec 32

/-- `BOARD_ADM`; the size of the flash is in megabytes. -/
def boardAdm (m : String) (f : ℕ) (sigw : String) : BoardInfo where
  model := .lit m
  flashSize := BitVec.ofNat 32 (f * 2 ^ 20)
  sigWebp := (CStr.lit sigw).bytes
  bootSize := 0x8000
  confSize := 0x8000
  webpSizeMax := 3 * 0x10000
  addrCode := 0x80500000
  addrWebp := 0x10000

def boards : List BoardInfo :=
  [boardAdm "BR-6104K" 2 "WB4K", boardAdm "BR-6104KP" 2 "WBKP", boardAdm "BR-6104Wg" 2 "WBGW",
   boardAdm "BR-6114WG" 2 "WBIP", boardAdm "BR-6524K" 2 "2-K-", boardAdm "BR-6524KP" 2 "2-KP",
   boardAdm "BR-6524WG" 4 "2-WG", boardAdm "BR-6524WP" 4 "2-WP", boardAdm "BR-6541K" 2 "4--K",
   boardAdm "BR-6541KP" 2 "4-KP", boardAdm "BR-6541WP" 4 "4-WP", boardAdm "EW-7207APg" 2 "EWAS",
   boardAdm "PS-1205UWg" 2 "4000", boardAdm "PS-3205U" 2 "5010", boardAdm "PS-3205UWg" 2 "5011",
   boardAdm "H2BR4" 2 "2-K-", boardAdm "H2WR54G" 4 "2-WG", boardAdm "XRT-401D" 2 "WB4K",
   boardAdm "XRT-402D" 2 "2-K-", boardAdm "C54BSR4" 2 "WBIP"]

def findBoard (model : CStr) : Option BoardInfo := boards.find? fun board => strcasecmp model board.model

/-! ## What the options set -/

inductive BlockType
  | boot
  | conf
  | webp
  | code
  | xtra
  deriving DecidableEq

structure CsysBlock where
  type : BlockType
  fileName : Option (List UInt8)
  fileSize : BitVec 32
  sig : List UInt8
  addr : BitVec 32
  addrSet : Bool
  align : BitVec 32
  alignSet : Bool
  padc : UInt8
  size : BitVec 32
  sizeHdr : BitVec 32
  sizeCsum : BitVec 32
  sizeAvail : BitVec 32

def csysHeaderSize : BitVec 32 := 12

def csumSize8 : BitVec 32 := 1

def csumSize16 : BitVec 32 := 2

/-- An entry of the array of blocks as the type of the option sets it up. -/
def newBlock (type : BlockType) : CsysBlock where
  type := type
  fileName := none
  fileSize := 0
  sig := [0, 0, 0, 0]
  addr := 0
  addrSet := false
  align := 0
  alignSet := false
  padc := 0xFF
  size := 0
  sizeHdr := if type = .webp ∨ type = .code then csysHeaderSize else 0
  sizeCsum := if type = .webp then csumSize8 else if type = .code then csumSize16 else 0
  sizeAvail := 0

def needFile (type : BlockType) : Bool := type ≠ .webp

/-- The array of blocks: the entries that `boot_block`, `conf_block`, `webp_block` and `code_block` are at, and the
other ones in their order. -/
structure Globals where
  invalidCausesError : Bool
  keepInvalidImages : Bool
  board : Option BoardInfo
  boot : Option CsysBlock
  conf : Option CsysBlock
  webp : Option CsysBlock
  code : Option CsysBlock
  others : List CsysBlock

def initialGlobals : Globals := ⟨true, false, none, none, none, none, none, []⟩

def maxNumBlocks : ℕ := 8

def Globals.entries (g : Globals) : List CsysBlock :=
  g.boot.toList ++ g.conf.toList ++ g.webp.toList ++ g.code.toList ++ g.others

def Globals.numBlocks (g : Globals) : ℕ := g.entries.length

/-- Whether an option of a type was there before; extra data may be given again. -/
def Globals.taken (g : Globals) : BlockType → Bool
  | .boot => g.boot.isSome
  | .conf => g.conf.isSome
  | .webp => g.webp.isSome
  | .code => g.code.isSome
  | .xtra => false

def Globals.put (g : Globals) (b : CsysBlock) : BlockType → Globals
  | .boot => { g with boot := some b }
  | .conf => { g with conf := some b }
  | .webp => { g with webp := some b }
  | .code => { g with code := some b }
  | .xtra => { g with others := g.others ++ [b] }

/-! ## Options -/

def parseOptBoard (g : Globals) (arg : CStr) : Option Globals :=
  if g.board.isSome then none
  else do
    requiredArg arg
    let board ← findBoard arg
    pure { g with board := some board }

/-- The address comes before the alignment, for blocks that have a header. -/
def addrArg (b : CsysBlock) (argv : List (List UInt8)) : Option (BitVec 32) :=
  if b.sizeHdr = 0 then some b.addr else numberArgOr argv 1 b.addr

def padcArg (argv : List (List UInt8)) (i : ℕ) (otherwise : UInt8) : Option UInt8 :=
  if isEmptyArg argv i then some otherwise else str2u8 (argAt argv i)

/-- What the fields of an argument say about a block. -/
def parseFields (b : CsysBlock) (needFile : Bool) (argv : List (List UInt8)) : Option CsysBlock :=
  if isEmptyArg argv 0 ∧ needFile then none
  else do
    let i := if b.sizeHdr = 0 then 1 else 2
    let addr ← addrArg b argv
    let align ← numberArgOr argv i b.align
    let padc ← padcArg argv (i + 1) b.padc
    pure { b with
      fileName := if isEmptyArg argv 0 then none else some (argAt argv 0)
      addr := addr
      addrSet := b.sizeHdr ≠ 0 ∧ ¬ isEmptyArg argv 1
      align := align
      alignSet := ¬ isEmptyArg argv i
      padc := padc }

/-- The array has eight entries, and a ninth one is taken behind it. -/
def parseOptBlock (g : Globals) (type : BlockType) (argv : List (List UInt8)) : Option Globals :=
  if maxNumBlocks < g.numBlocks then none
  else if g.taken type then
    -- a second one gets a message, and an entry that is left as it was: its type is that of boot code
    (parseFields (newBlock .boot) true argv).map fun b => { g with others := g.others ++ [b] }
  else (parseFields (newBlock type) (needFile type) argv).map fun b => g.put b type

/-- The options that `getopt` can give. A `-w` before another option has no argument. -/
inductive Opt
  | boot (arg : CStr)
  | conf (arg : CStr)
  | code (arg : CStr)
  | xtra (arg : CStr)
  | webp (arg : Option CStr)
  | board (arg : CStr)
  | ignoreInvalid
  | keepInvalid
  | help
  | verbose
  | invalid

def applyOpt (g : Globals) : Opt → Option Globals
  | .boot arg => parseOptBlock g .boot (parseArg arg)
  | .conf arg => parseOptBlock g .conf (parseArg arg)
  | .code arg => parseOptBlock g .code (parseArg arg)
  | .xtra arg => parseOptBlock g .xtra (parseArg arg)
  | .webp arg => parseOptBlock g .webp (arg.elim [] parseArg)
  | .board arg => parseOptBoard g arg
  | .ignoreInvalid => some { g with invalidCausesError := false }
  | .keepInvalid => some { g with keepInvalidImages := true }
  | .help => none
  | .verbose => some g
  | .invalid => none

/-! ## Sizes -/

/-- The files of the host, by name. -/
abbrev Files := List UInt8 → Option (List UInt8)

def defaultBlockAlign : BitVec 32 := 0x10000

def align (base alignment : BitVec 32) : BitVec 32 :=
  if alignment = 0 then base else (base + alignment - 1) &&& ~~~(alignment - 1)

/-- The size of a file is cut to 32 bits. -/
def blockStatFile (files : Files) (b : CsysBlock) : Option CsysBlock :=
  match b.fileName with
  | none => some b
  | some name => (files name).map fun content => { b with fileSize := BitVec.ofNat 32 content.length }

def statBlocks (files : Files) (g : Globals) : Option Globals := do
  let boot ← g.boot.mapM (blockStatFile files)
  let conf ← g.conf.mapM (blockStatFile files)
  let webp ← g.webp.mapM (blockStatFile files)
  let code ← g.code.mapM (blockStatFile files)
  let others ← g.others.mapM (blockStatFile files)
  pure { g with boot := boot, conf := conf, webp := webp, code := code, others := others }

def withAddr (addr : BitVec 32) (b : CsysBlock) : CsysBlock := if b.addrSet then b else { b with addr := addr }

def withAlign (b : CsysBlock) : CsysBlock := if b.alignSet then b else { b with align := defaultBlockAlign }

/-- The size of a block that starts at `offs`; extra data has no header and no checksum. -/
def sizeBlock (offs : BitVec 32) (b : CsysBlock) : CsysBlock :=
  { b with size := align (offs + b.fileSize + b.sizeHdr + b.sizeCsum) b.align - offs }

def placeWebp (board : BoardInfo) (offs : BitVec 32) (b : CsysBlock) : CsysBlock :=
  sizeBlock offs (withAlign (withAddr board.addrWebp { b with sig := board.sigWebp }))

def sigCsys : List UInt8 := (CStr.lit "CSYS").bytes

def placeCode (board : BoardInfo) (offs : BitVec 32) (b : CsysBlock) : CsysBlock :=
  sizeBlock offs (withAlign (withAddr board.addrCode { b with sig := sigCsys }))

/-- The entries behind the runtime code; only extra data is placed. -/
def placeOthers (offs : BitVec 32) : List CsysBlock → List CsysBlock
  | [] => []
  | b :: bs =>
    if b.type ≠ .xtra then b :: placeOthers offs bs
    else
      let b := sizeBlock offs (withAlign b)
      b :: placeOthers (offs + b.size) bs

def withAvail (b : CsysBlock) : CsysBlock := { b with sizeAvail := b.size - b.sizeHdr - b.sizeCsum }

/-- Where a block that may be missing ends. -/
def endOf (offs : BitVec 32) (b : Option CsysBlock) : BitVec 32 := offs + b.elim 0 CsysBlock.size

/-- `process_blocks`, without its checks. -/
def placeBlocks (board : BoardInfo) (g : Globals) : Globals :=
  let webpOffs := board.bootSize + board.confSize
  let webp := g.webp.map (placeWebp board webpOffs)
  let codeOffs := endOf webpOffs webp
  let code := g.code.map (placeCode board codeOffs)
  { g with
    boot := g.boot.map fun b => withAvail { b with size := board.bootSize }
    conf := g.conf.map fun b => withAvail { b with size := board.confSize }
    webp := webp.map withAvail
    code := code.map withAvail
    others := (placeOthers (endOf codeOffs code) g.others).map withAvail }

/-- The blocks behind the settings, in the order of the flash. -/
def Globals.placed (g : Globals) : List CsysBlock :=
  g.webp.toList ++ (g.code.toList ++ g.others.filter fun b => b.type = .xtra)

/-- The check that is made where a block ends. -/
def endsFit (flashSize : BitVec 32) : BitVec 32 → List CsysBlock → Bool
  | _, [] => true
  | offs, b :: bs => (offs + b.size).toNat ≤ flashSize.toNat && endsFit flashSize (offs + b.size) bs

/-- The checks of `process_blocks`. -/
def valid (board : BoardInfo) (g : Globals) : Bool :=
  g.boot.all (fun b => b.fileSize.toNat ≤ board.bootSize.toNat) &&
    g.conf.all (fun b => b.fileSize.toNat ≤ board.confSize.toNat) &&
    g.webp.all (fun b => b.size.toNat ≤ board.webpSizeMax.toNat) &&
    endsFit board.flashSize (board.bootSize + board.confSize) g.placed &&
    g.entries.all fun b => b.fileSize.toNat ≤ b.sizeAvail.toNat

/-- What the options and the files leave for the output. -/
def prepare (files : Files) (options : List Opt) : Option (BoardInfo × Globals) := do
  let g ← options.foldlM applyOpt initialGlobals
  let board ← g.board
  let g ← statBlocks files g
  pure (board, placeBlocks board g)

/-! ## What the options leave -/

/-- A block with the sizes of a type, and none of its own yet. -/
structure CsysBlock.New (type : BlockType) (b : CsysBlock) : Prop where
  typed : b.type = type
  hdr : b.sizeHdr = (newBlock type).sizeHdr
  csum : b.sizeCsum = (newBlock type).sizeCsum
  size : b.size = 0
  fileSize : b.fileSize = 0

/-- What holds after options were taken. -/
structure Taken (g : Globals) : Prop where
  board : ∀ b ∈ g.board, b ∈ boards
  boot : ∀ b ∈ g.boot, b.New .boot
  conf : ∀ b ∈ g.conf, b.New .conf
  webp : ∀ b ∈ g.webp, b.New .webp
  code : ∀ b ∈ g.code, b.New .code
  others : ∀ b ∈ g.others, b.New .boot ∨ b.New .xtra

theorem parseFields_new {type : BlockType} {b : CsysBlock} {needFile : Bool} {argv : List (List UInt8)}
    (h : parseFields (newBlock type) needFile argv = some b) : b.New type := by
  unfold parseFields at h
  split at h
  · cases h
  · simp only [Option.bind_eq_bind, Option.bind_eq_some_iff] at h
    obtain ⟨addr, -, align, -, padc, -, h⟩ := h
    cases h
    exact ⟨rfl, rfl, rfl, rfl, rfl⟩

theorem Taken.append {g : Globals} (h : Taken g) {b : CsysBlock} (hb : b.New .boot ∨ b.New .xtra) :
    Taken { g with others := g.others ++ [b] } := by
  refine { h with others := fun c hc => ?_ }
  rcases List.mem_append.mp hc with hc | hc
  · exact h.others c hc
  · rw [List.mem_singleton.mp hc]
    exact hb

theorem Taken.put {g : Globals} (h : Taken g) {type : BlockType} {b : CsysBlock} (hb : b.New type) :
    Taken (g.put b type) := by
  cases type with
  | boot => exact { h with boot := fun c hc => by cases hc; exact hb }
  | conf => exact { h with conf := fun c hc => by cases hc; exact hb }
  | webp => exact { h with webp := fun c hc => by cases hc; exact hb }
  | code => exact { h with code := fun c hc => by cases hc; exact hb }
  | xtra => exact h.append (.inr hb)

theorem Taken.parseOptBlock {g g' : Globals} (h : Taken g) {type : BlockType} {argv : List (List UInt8)}
    (hstep : parseOptBlock g type argv = some g') : Taken g' := by
  unfold Csys.parseOptBlock at hstep
  split at hstep
  · cases hstep
  · split at hstep
    · obtain ⟨b, hb, rfl⟩ := Option.map_eq_some_iff.mp hstep
      exact h.append (.inl (parseFields_new hb))
    · obtain ⟨b, hb, rfl⟩ := Option.map_eq_some_iff.mp hstep
      exact h.put (parseFields_new hb)

theorem Taken.applyOpt {g g' : Globals} (h : Taken g) {o : Opt} (hstep : applyOpt g o = some g') : Taken g' := by
  cases o with
  | boot arg => exact @Taken.parseOptBlock g g' h .boot _ hstep
  | conf arg => exact @Taken.parseOptBlock g g' h .conf _ hstep
  | code arg => exact @Taken.parseOptBlock g g' h .code _ hstep
  | xtra arg => exact @Taken.parseOptBlock g g' h .xtra _ hstep
  | webp arg => exact @Taken.parseOptBlock g g' h .webp _ hstep
  | board arg =>
    simp only [Csys.applyOpt, parseOptBoard] at hstep
    split at hstep
    · cases hstep
    · simp only [Option.bind_eq_bind, Option.bind_eq_some_iff] at hstep
      obtain ⟨-, -, board, hboard, hstep⟩ := hstep
      cases hstep
      exact { h with board := fun b hb => by cases hb; exact List.mem_of_find?_eq_some hboard }
  | ignoreInvalid =>
    cases hstep
    exact { h with }
  | keepInvalid =>
    cases hstep
    exact { h with }
  | verbose =>
    cases hstep
    exact h
  | help => cases hstep
  | invalid => cases hstep

theorem taken_options {options : List Opt} {g : Globals} (h : options.foldlM applyOpt initialGlobals = some g) :
    Taken g := by
  refine foldlM_preserves (fun _ _ _ _ hg hstep => Taken.applyOpt hg hstep) ?_ h
  constructor <;> simp [initialGlobals]

theorem parseOptBlock_invalid {g g' : Globals} {type : BlockType} {argv : List (List UInt8)}
    (h : parseOptBlock g type argv = some g') : g'.invalidCausesError = g.invalidCausesError := by
  unfold parseOptBlock at h
  split at h
  · cases h
  · split at h
    · obtain ⟨b, -, rfl⟩ := Option.map_eq_some_iff.mp h
      rfl
    · obtain ⟨b, -, rfl⟩ := Option.map_eq_some_iff.mp h
      cases type <;> rfl

/-- Without `-d` an invalid image is an error. -/
theorem invalid_of_options {options : List Opt} (hoptions : .ignoreInvalid ∉ options) {g : Globals}
    (h : options.foldlM applyOpt initialGlobals = some g) : g.invalidCausesError = true := by
  refine foldlM_preserves (I := fun g => g.invalidCausesError = true) (fun o ho g g' hg hstep => ?_) rfl h
  cases o with
  | boot arg => exact (@parseOptBlock_invalid g g' .boot _ hstep).trans hg
  | conf arg => exact (@parseOptBlock_invalid g g' .conf _ hstep).trans hg
  | code arg => exact (@parseOptBlock_invalid g g' .code _ hstep).trans hg
  | xtra arg => exact (@parseOptBlock_invalid g g' .xtra _ hstep).trans hg
  | webp arg => exact (@parseOptBlock_invalid g g' .webp _ hstep).trans hg
  | board arg =>
    simp only [applyOpt, parseOptBoard] at hstep
    split at hstep
    · cases hstep
    · simp only [Option.bind_eq_bind, Option.bind_eq_some_iff] at hstep
      obtain ⟨-, -, board, -, hstep⟩ := hstep
      cases hstep
      exact hg
  | ignoreInvalid => exact absurd ho hoptions
  | keepInvalid =>
    cases hstep
    exact hg
  | verbose =>
    cases hstep
    exact hg
  | help => cases hstep
  | invalid => cases hstep

end Neufbox.Csys
