import Neufbox.FirmwareUtils.Args
import Neufbox.Library.ByteStore
import Neufbox.Library.Crc32
import Neufbox.Library.Memory
import Neufbox.Library.Pieces

/-! # mkmylofw

`mkmylofw` makes a firmware file for the MyLoader boot loader from files and a table of partitions. Options are
taken one after the other; `none` stands for a message and `EXIT_FAILURE`. Files are read as they are, and output
does not fail. -/
namespace Neufbox.Mylofw
open Neufbox.CString Neufbox.FirmwareUtils Neufbox.Library.Pieces Neufbox.Memory
set_option autoImplicit false
set_option maxHeartbeats 250000
set_option maxRecDepth 120000

/-! ## Boards -/

structure CpxBoard where
  model : CStr
  vid : BitVec 16
  did : BitVec 16
  svid : BitVec 16
  sdid : BitVec 16
  flashSize : BitVec 32
  partOffset : BitVec 32
  partSize : BitVec 32

def venidCompex : BitVec 16 := 0x11F6

def cpxBoard (did : BitVec 16) (flash : ℕ) (model : String) (po ps : BitVec 32) : CpxBoard where
  model := .lit model
  vid := venidCompex
  did := did
  svid := venidCompex
  sdid := did
  flashSize := BitVec.ofNat 32 (flash * 2 ^ 20)
  partOffset := po
  partSize := ps

def cpxBoardAdm (did : BitVec 16) (flash : ℕ) (model : String) : CpxBoard := cpxBoard did flash model 0x10000 0x10000

def cpxBoardAr71xx (did : BitVec 16) (flash : ℕ) (model : String) : CpxBoard := cpxBoard did flash model 0x20000 0x8000

def cpxBoardAr23xx (did : BitVec 16) (flash : ℕ) (model : String) : CpxBoard := cpxBoard did flash model 0x10000 0x10000

def boards : List CpxBoard :=
  [cpxBoardAdm 0x0489 4 "NP18A", cpxBoardAdm 0x03E8 2 "NP26G8M", cpxBoardAdm 0x03E9 4 "NP26G16M",
   cpxBoardAdm 0x0078 4 "NP27G", cpxBoardAdm 0x044C 4 "NP28G", cpxBoardAdm 0x044E 4 "NP28GHS",
   cpxBoardAdm 0x047E 4 "WP18", cpxBoardAdm 0x0515 4 "WP54G", cpxBoardAdm 0x0514 2 "WP54Gv1C",
   cpxBoardAdm 0x0546 4 "WP54AG", cpxBoardAdm 0x0555 4 "WPP54G", cpxBoardAdm 0x0550 4 "WPP54AG",
   cpxBoardAr71xx 0x0640 2 "WP543", cpxBoardAr23xx 0x05e6 4 "NP25G", cpxBoardAr23xx 0x05dc 4 "WPE53G"]

def findBoard (model : CStr) : Option CpxBoard := boards.find? fun board => strcasecmp model board.model

/-! ## What the options set -/

structure FwHeader where
  crc : BitVec 32
  vid : BitVec 16
  did : BitVec 16
  svid : BitVec 16
  sdid : BitVec 16
  rev : BitVec 32
  fwhi : BitVec 32
  fwlo : BitVec 32
  flags : BitVec 32

structure FwBlock where
  addr : BitVec 32
  blocklen : BitVec 32
  flags : BitVec 32
  name : Option (List UInt8)
  size : BitVec 32
  deriving DecidableEq

def partNameLen : ℕ := 32

/-- A partition; its name is an array that need not have a NUL. -/
structure FwPart where
  flags : BitVec 16
  addr : BitVec 32
  size : BitVec 32
  param : BitVec 32
  name : List UInt8
  name_length : name.length = partNameLen

structure Globals where
  header : FwHeader
  flashSize : BitVec 32
  board : Option CpxBoard
  parts : List FwPart
  blocks : List FwBlock

def blockFlagHavehdr : BitVec 32 := 0x0001

def partitionFlagActive : BitVec 16 := 0x8000

def partitionFlagPreload : BitVec 16 := 0x0800

def partitionFlagLzma : BitVec 16 := 0x0100

def partitionFlagHavehdr : BitVec 16 := 0x0002

def maxFwBlocks : ℕ := 32

def myloMaxPartitions : ℕ := 8

def initialGlobals : Globals where
  header := ⟨0, venidCompex, 0x0515, venidCompex, 0x0515, 0, 0x20000, 0x20000, 0⟩
  flashSize := 0
  board := none
  parts := []
  blocks := []

/-! ## Options -/

/-- The fields of an argument; with an empty one, `argv` is not initialised. -/
def parseFields (arg : CStr) : Option (List (List UInt8)) := if arg.bytes = [] then none else some (parseArg arg)

def parseOptFlags (g : Globals) (arg : CStr) : Option Globals := do
  requiredArg arg
  let flags ← str2u32 arg.bytes
  pure { g with header := { g.header with flags := flags } }

def parseOptSize (g : Globals) (arg : CStr) : Option Globals := do
  requiredArg arg
  let size ← str2u32 arg.bytes
  pure { g with flashSize := size }

def idArg (argv : List (List UInt8)) (i : ℕ) : Option (BitVec 16) :=
  if isEmptyArg argv i then none else str2u16 (argAt argv i)

def idArgOr (argv : List (List UInt8)) (i : ℕ) (otherwise : BitVec 16) : Option (BitVec 16) :=
  if isEmptyArg argv i then some otherwise else str2u16 (argAt argv i)

/-- The revision is read from the whole argument. -/
def revisionArg (argv : List (List UInt8)) (arg : CStr) : Option (BitVec 32) :=
  if isEmptyArg argv 4 then some 0 else str2u32 arg.bytes

def parseOptId (g : Globals) (arg : CStr) : Option Globals := do
  requiredArg arg
  let argv ← parseFields arg
  let vid ← idArg argv 0
  let did ← idArg argv 1
  let svid ← idArgOr argv 2 vid
  let sdid ← idArgOr argv 3 did
  let rev ← revisionArg argv arg
  pure { g with header := { g.header with vid := vid, did := did, svid := svid, sdid := sdid, rev := rev } }

def blockFlags (flags : BitVec 32) (c : UInt8) : Option (BitVec 32) :=
  if c = 104 then some (flags ||| blockFlagHavehdr) else none

def parseOptBlock (g : Globals) (arg : CStr) : Option Globals := do
  requiredArg arg
  if maxFwBlocks ≤ g.blocks.length then none
  else
    let argv ← parseFields arg
    let addr ← numberArg argv 0
    let blocklen ← numberArg argv 1
    if argv.length < 3 then pure { g with blocks := g.blocks ++ [⟨addr, blocklen, 0, none, 0⟩] }
    else
      let flags ← (argAt argv 2).foldlM blockFlags 0
      if isEmptyArg argv 3 then none
      else pure { g with blocks := g.blocks ++ [⟨addr, blocklen, flags, some (argAt argv 3), 0⟩] }

def partitionFlags (flags : BitVec 16) (c : UInt8) : Option (BitVec 16) :=
  if c = 97 then some (flags ||| partitionFlagActive)
  else if c = 112 then some (flags ||| partitionFlagPreload)
  else if c = 108 then some (flags ||| partitionFlagLzma)
  else if c = 104 then some (flags ||| partitionFlagHavehdr)
  else none

/-- `strncpy` into an array of `n` bytes: a text that is too long leaves no room for a NUL. -/
def strncpy (n : ℕ) (src : List UInt8) : List UInt8 :=
  let text := (src.takeWhile (· ≠ 0)).take n
  text ++ List.replicate (n - text.length) 0

theorem strncpy_length (n : ℕ) (src : List UInt8) : (strncpy n src).length = n := by
  have hle : ((src.takeWhile (· ≠ 0)).take n).length ≤ n := List.length_take_le _ _
  unfold strncpy
  rw [List.length_append, List.length_replicate]
  omega

def parseOptPartition (g : Globals) (arg : CStr) : Option Globals := do
  requiredArg arg
  if myloMaxPartitions ≤ g.parts.length then none
  else
    let argv ← parseFields arg
    let addr ← numberArg argv 0
    let size ← numberArg argv 1
    let flags ← (argAt argv 2).foldlM partitionFlags 0
    let param ← numberArgOr argv 3 0
    let size := if size = 0 then g.flashSize - addr else size
    -- an empty name is an array of zeroes, as is a copied text of no length
    let part : FwPart := ⟨flags, addr, size, param, strncpy partNameLen (argAt argv 4), strncpy_length _ _⟩
    if isEmptyArg argv 5 then pure { g with parts := g.parts ++ [part] }
    else if g.blocks.length = maxFwBlocks then none
    else pure { g with
      parts := g.parts ++ [part]
      blocks := g.blocks ++ [⟨addr, size, if flags &&& partitionFlagHavehdr ≠ 0 then blockFlagHavehdr else 0,
        some (argAt argv 5), 0⟩] }

def parseOptBoard (g : Globals) (arg : CStr) : Option Globals := do
  requiredArg arg
  let board ← findBoard arg
  pure { g with
    board := some board
    header := { g.header with vid := board.vid, did := board.did, svid := board.svid, sdid := board.sdid }
    flashSize := board.flashSize }

def parseOptRev (g : Globals) (arg : CStr) : Option Globals := do
  requiredArg arg
  let rev ← str2u32 arg.bytes
  pure { g with header := { g.header with rev := rev } }

/-- The options that `getopt` can give; with `-h` the usage is all that is written. -/
inductive Opt
  | block (arg : CStr)
  | board (arg : CStr)
  | flags (arg : CStr)
  | help
  | id (arg : CStr)
  | partition (arg : CStr)
  | rev (arg : CStr)
  | size (arg : CStr)
  | verbose
  | invalid

def applyOpt (g : Globals) : Opt → Option Globals
  | .block arg => parseOptBlock g arg
  | .board arg => parseOptBoard g arg
  | .flags arg => parseOptFlags g arg
  | .help => none
  | .id arg => parseOptId g arg
  | .partition arg => parseOptPartition g arg
  | .rev arg => parseOptRev g arg
  | .size arg => parseOptSize g arg
  | .verbose => some g
  | .invalid => none

/-! ## What an option can change -/

/-- A block before its file is looked at. -/
structure FwBlock.Fresh (b : FwBlock) : Prop where
  size : b.size = 0
  flags : b.name = none → b.flags = 0

/-- The name that a partition is given. -/
def givenName (arg : CStr) : List UInt8 := argAt (parseArg arg) 4

/-- An option leaves the checksum alone and adds blocks and partitions at the end. -/
structure OptStep (g : Globals) (o : Opt) (g' : Globals) : Prop where
  crc : g'.header.crc = g.header.crc
  blocks : g'.blocks = g.blocks ∨ ∃ b, b.Fresh ∧ g'.blocks = g.blocks ++ [b]
  parts : ((∀ arg, o ≠ .partition arg) ∧ g'.parts = g.parts) ∨
    ∃ arg part, o = .partition arg ∧ part.name = strncpy partNameLen (givenName arg) ∧
      g.parts.length < myloMaxPartitions ∧ g'.parts = g.parts ++ [part]

theorem parseFields_eq_some {arg : CStr} {argv : List (List UInt8)} (h : parseFields arg = some argv) :
    argv = parseArg arg := by
  unfold parseFields at h
  split at h
  · cases h
  · cases h
    rfl

theorem parseOptBlock_blocks {g g' : Globals} {arg : CStr} (h : parseOptBlock g arg = some g') :
    ∃ b : FwBlock, b.Fresh ∧ g' = { g with blocks := g.blocks ++ [b] } := by
  unfold parseOptBlock at h
  simp only [Option.bind_eq_bind, Option.bind_eq_some_iff] at h
  obtain ⟨-, -, h⟩ := h
  split at h
  · cases h
  · simp only [Option.bind_eq_some_iff] at h
    obtain ⟨argv, -, addr, -, blocklen, -, h⟩ := h
    split at h
    · cases h
      exact ⟨_, ⟨rfl, fun _ => rfl⟩, rfl⟩
    · simp only [Option.bind_eq_some_iff] at h
      obtain ⟨flags, -, h⟩ := h
      split at h
      · cases h
      · cases h
        exact ⟨_, ⟨rfl, fun hname => by cases hname⟩, rfl⟩

theorem parseOptPartition_step {g g' : Globals} {arg : CStr} (h : parseOptPartition g arg = some g') :
    OptStep g (.partition arg) g' := by
  unfold parseOptPartition at h
  simp only [Option.bind_eq_bind, Option.bind_eq_some_iff] at h
  obtain ⟨-, -, h⟩ := h
  split at h
  · cases h
  next hroom =>
    simp only [Option.bind_eq_some_iff] at h
    obtain ⟨argv, hargv, addr, -, size, -, flags, -, param, -, h⟩ := h
    cases parseFields_eq_some hargv
    split at h
    · cases h
      exact ⟨rfl, .inl rfl, .inr ⟨arg, _, rfl, rfl, not_le.mp hroom, rfl⟩⟩
    · split at h
      · cases h
      · cases h
        exact ⟨rfl, .inr ⟨_, ⟨rfl, fun hname => by cases hname⟩, rfl⟩, .inr ⟨arg, _, rfl, rfl, not_le.mp hroom, rfl⟩⟩

theorem applyOpt_step {g g' : Globals} {o : Opt} (h : applyOpt g o = some g') : OptStep g o g' := by
  cases o with
  | block arg =>
    obtain ⟨b, hfresh, rfl⟩ := parseOptBlock_blocks h
    exact ⟨rfl, .inr ⟨b, hfresh, rfl⟩, .inl ⟨fun _ h => (by cases h), rfl⟩⟩
  | board arg =>
    simp only [applyOpt, parseOptBoard, Option.bind_eq_bind, Option.bind_eq_some_iff] at h
    obtain ⟨-, -, board, -, h⟩ := h
    cases h
    exact ⟨rfl, .inl rfl, .inl ⟨fun _ h => (by cases h), rfl⟩⟩
  | flags arg =>
    simp only [applyOpt, parseOptFlags, Option.bind_eq_bind, Option.bind_eq_some_iff] at h
    obtain ⟨-, -, flags, -, h⟩ := h
    cases h
    exact ⟨rfl, .inl rfl, .inl ⟨fun _ h => (by cases h), rfl⟩⟩
  | help => cases h
  | id arg =>
    simp only [applyOpt, parseOptId, Option.bind_eq_bind, Option.bind_eq_some_iff] at h
    obtain ⟨-, -, argv, -, vid, -, did, -, svid, -, sdid, -, rev, -, h⟩ := h
    cases h
    exact ⟨rfl, .inl rfl, .inl ⟨fun _ h => (by cases h), rfl⟩⟩
  | partition arg => exact parseOptPartition_step h
  | rev arg =>
    simp only [applyOpt, parseOptRev, Option.bind_eq_bind, Option.bind_eq_some_iff] at h
    obtain ⟨-, -, rev, -, h⟩ := h
    cases h
    exact ⟨rfl, .inl rfl, .inl ⟨fun _ h => (by cases h), rfl⟩⟩
  | size arg =>
    simp only [applyOpt, parseOptSize, Option.bind_eq_bind, Option.bind_eq_some_iff] at h
    obtain ⟨-, -, size, -, h⟩ := h
    cases h
    exact ⟨rfl, .inl rfl, .inl ⟨fun _ h => (by cases h), rfl⟩⟩
  | verbose =>
    cases h
    exact ⟨rfl, .inl rfl, .inl ⟨fun _ h => (by cases h), rfl⟩⟩
  | invalid => cases h

/-- The arguments of the options for partitions. -/
def partitionArgs : List Opt → List CStr
  | [] => []
  | .partition arg :: options => arg :: partitionArgs options
  | _ :: options => partitionArgs options

/-- What holds after options were taken: partitions are those that were asked for. -/
structure Taken (options : List Opt) (g : Globals) : Prop where
  crc : g.header.crc = 0
  blocks : ∀ b ∈ g.blocks, b.Fresh
  parts : g.parts.map FwPart.name = (partitionArgs options).map fun arg => strncpy partNameLen (givenName arg)
  count : g.parts.length ≤ myloMaxPartitions

theorem partitionArgs_append (os os' : List Opt) : partitionArgs (os ++ os') = partitionArgs os ++ partitionArgs os' := by
  induction os with
  | nil => rfl
  | cons o os ih => cases o <;> simp only [List.cons_append, partitionArgs, ih]

theorem Taken.step {options : List Opt} {g g' : Globals} {o : Opt} (h : Taken options g) (hstep : OptStep g o g') :
    Taken (options ++ [o]) g' := by
  obtain ⟨hcrc, hblocks, hparts⟩ := hstep
  have hfresh : ∀ b ∈ g'.blocks, b.Fresh := by
    rcases hblocks with hsame | ⟨b, hb, hmore⟩
    · rw [hsame]
      exact h.blocks
    · rw [hmore]
      intro c hc
      rcases List.mem_append.mp hc with hc | hc
      · exact h.blocks c hc
      · rw [List.mem_singleton.mp hc]
        exact hb
  rcases hparts with ⟨hother, hsame⟩ | ⟨arg, part, rfl, hname, hroom, hmore⟩
  · have hargs : partitionArgs [o] = [] := by
      cases o <;> first | rfl | exact absurd rfl (hother _)
    refine ⟨hcrc.trans h.crc, hfresh, ?_, ?_⟩
    · rw [hsame, partitionArgs_append, hargs, List.append_nil]
      exact h.parts
    · rw [hsame]
      exact h.count
  · refine ⟨hcrc.trans h.crc, hfresh, ?_, ?_⟩
    · rw [hmore, partitionArgs_append, List.map_append, List.map_append, h.parts, List.map_singleton, hname]
      rfl
    · rw [hmore, List.length_append, List.length_singleton]
      omega

theorem taken_of_foldlM {os options : List Opt} {g g' : Globals} (h : Taken os g)
    (hrun : options.foldlM applyOpt g = some g') : Taken (os ++ options) g' := by
  induction options generalizing os g with
  | nil =>
    cases hrun
    rw [List.append_nil]
    exact h
  | cons o options ih =>
    rw [List.foldlM_cons, Option.bind_eq_bind, Option.bind_eq_some_iff] at hrun
    obtain ⟨g₁, hstep, hrun⟩ := hrun
    have hall := ih (h.step (applyOpt_step hstep)) hrun
    rwa [List.append_assoc] at hall

theorem taken_options {options : List Opt} {g : Globals} (h : options.foldlM applyOpt initialGlobals = some g) :
    Taken options g := by
  have hstart : Taken [] initialGlobals := ⟨rfl, fun _ hb => by simp [initialGlobals] at hb, rfl, Nat.zero_le _⟩
  exact taken_of_foldlM hstart h

/-! ## Checks -/

/-- The files of the host, by name. -/
abbrev Files := List UInt8 → Option (List UInt8)

/-- A block without a length goes to the end of the flash. -/
def blockLength (flashSize : BitVec 32) (b : FwBlock) : BitVec 32 :=
  if b.blocklen = 0 then flashSize - b.addr else b.blocklen

/-- One turn of the loop of `process_files`. -/
def processFile (files : Files) (flashSize : BitVec 32) (b : FwBlock) : Option FwBlock :=
  if (b.addr + b.blocklen).toNat > flashSize.toNat then none
  else match b.name with
    | none => some b
    | some name => do
      let content ← files name
      if content.length > (blockLength flashSize b).toNat then none
      else pure { b with blocklen := blockLength flashSize b, size := BitVec.ofNat 32 content.length }

def processFiles (files : Files) (g : Globals) : Option Globals := do
  let blocks ← g.blocks.mapM (processFile files g.flashSize)
  pure { g with blocks := blocks }

def partitionFits (flashSize : BitVec 32) (part : FwPart) : Bool :=
  part.addr.toNat ≤ flashSize.toNat && (part.addr + part.size).toNat ≤ flashSize.toNat

def processPartitions (g : Globals) : Option Globals := if g.parts.all (partitionFits g.flashSize) then some g else none

end Neufbox.Mylofw
