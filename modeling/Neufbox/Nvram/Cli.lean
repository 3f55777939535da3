import Neufbox.Library.WrapArith
import Neufbox.Nvram.Image

/-! # The nvram command

`package/nvram/src/cli.c` over the two places an image is kept: the flash partition and the staging
file `/tmp/.nvram`. One invocation scans its arguments for a write, opens the staging file or a
private copy of the image, runs its commands, writes the image back and, after a `commit`, moves the
staging file to flash. `none` is a process killed by a fault: `strcmp` of the `NULL` behind the last
argument, or an access outside the mapping. Devices and allocations are there and file operations
succeed. -/
namespace Neufbox.Nvram
open CString ChainTable WrapArith
set_option autoImplicit false
set_option maxHeartbeats 250000
set_option maxRecDepth 120000

/-! ## Flash and staging file -/

structure Storage where
  flash : NvramMap
  staging : Option NvramMap

def nvramToStaging (st : Storage) : Storage := { st with staging := some st.flash }

/-- `staging_to_nvram`: the staging file is copied to flash and removed. -/
def stagingToNvram (st : Storage) : Storage × ℤ :=
  match st.staging with
  | some file => (⟨file, none⟩, 0)
  | none => (st, -1)

/-- `nvram_open_rdonly`: the mapping is private, so no file changes. -/
def nvramOpenRdonly (st : Storage) : Option (Option NvramHandle) := nvramOpen (st.staging.getD st.flash)

/-- `nvram_open_staging`: the mapping is shared, so the staging file changes with it, also when its
magic number is wrong. -/
def nvramOpenStaging (st : Storage) : Option (Storage × Option NvramHandle) :=
  let st := if st.staging.isNone then nvramToStaging st else st
  let file := st.staging.getD st.flash
  (nvramOpen file).map fun h => ({ st with staging := some (clearLead file) }, h)

def openNvram (st : Storage) (write : Bool) : Option (Storage × Option NvramHandle) :=
  if write then nvramOpenStaging st else (nvramOpenRdonly st).map fun h => (st, h)

/-! ## Commands -/

structure InfoReport where
  header : NvramHeader
  crc : UInt8
  deriving DecidableEq

inductive Event where
  | showAll (tuples : List NvramTuple)
  | info (report : InfoReport)
  | get (var : CStr) (val : Option CStr)
  | unset (var : CStr)
  | set (pair : CStr)
  | commit
  deriving DecidableEq

/-- The variables of the loop of `main`, and the commands executed so far. -/
structure Session where
  nvram : NvramHandle
  commit : Bool
  stat : ℤ
  done : ℕ
  log : List Event

def Session.start (nvram : NvramHandle) : Session := ⟨nvram, false, 1, 0, []⟩

def doShow (s : Session) : Session :=
  let tuples := nvramGetall s.nvram.table
  { s with stat := if tuples = [] then 1 else 0, done := s.done + 1, log := s.log ++ [.showAll tuples] }

/-- The checksum runs over `hdr->len - NVRAM_CRC_START_POSITION` bytes, a 32-bit difference, from
that position of the header on. -/
def doInfo (s : Session) : Option Session :=
  let hdr := s.nvram.mmap.header
  let nbytes := wrapSub 32 hdr.len crcStartPosition
  if crcStartPosition + nbytes ≤ nvramSpace then
    let bytes := NvramHeader.bytes hdr ++ s.nvram.mmap.data.bytes
    let crc := hndcrc8 ((bytes.drop crcStartPosition).take nbytes) 0xff
    some { s with stat := 0, done := s.done + 1, log := s.log ++ [.info ⟨hdr, crc⟩] }
  else none

def doGet (s : Session) (var : CStr) : Session :=
  let val := nvramGet s.nvram.table var
  { s with stat := if val.isSome then 0 else 1, done := s.done + 1, log := s.log ++ [.get var val] }

def Session.update (s : Session) (r : NvramTable × ℤ) (e : Event) : Session :=
  { s with nvram := { s.nvram with table := r.1 }, stat := r.2, done := s.done + 1, log := s.log ++ [e] }

def doUnset (s : Session) (var : CStr) : Session := s.update (nvramUnset s.nvram.table var) (.unset var)

def splitPair (pair : CStr) : Option (CStr × CStr) :=
  match strchr equals (pair.bytes ++ [0]) with
  | .found var val => (stringAt val).map fun r => (var, r.1)
  | _ => none

def doSet (s : Session) (pair : CStr) : Session :=
  match splitPair pair with
  | some (var, val) => s.update (nvramSet s.nvram.table var val) (.set pair)
  | none => s.update (s.nvram.table, 1) (.set pair)

def doCommit (s : Session) : Session :=
  { s with commit := true, done := s.done + 1, log := s.log ++ [.commit] }

/-! ## The two argument loops -/

inductive Word where
  | showAll
  | info
  | get
  | unset
  | set
  | commit
  | unknown
  deriving DecidableEq

def wordOf (arg : CStr) : Word :=
  if arg = .lit "show" then .showAll
  else if arg = .lit "info" then .info
  else if arg = .lit "get" then .get
  else if arg = .lit "unset" then .unset
  else if arg = .lit "set" then .set
  else if arg = .lit "commit" then .commit
  else .unknown

/-- The first loop of `main`: is a write to be expected? -/
def scanWrite : List CStr → Option Bool
  | [] => some false
  | arg :: args =>
      match wordOf arg with
      | .set | .unset => if args = [] then none else some true
      | .commit => some true
      | _ => scanWrite args

inductive Command where
  | showAll
  | info
  | get (var : CStr)
  | unset (var : CStr)
  | set (pair : CStr)
  | commit
  | unknown (arg : CStr)
  | missing
  deriving DecidableEq

/-- The commands the second loop of `main` finds in its arguments. An unknown word ends the loop; a
word that needs an operand and has none is followed by a comparison with `argv[argc]`. -/
def commands : List CStr → List Command
  | [] => []
  | arg :: args =>
      match wordOf arg, args with
      | .showAll, args => .showAll :: commands args
      | .info, args => .info :: commands args
      | .get, var :: args => .get var :: commands args
      | .unset, var :: args => .unset var :: commands args
      | .set, pair :: args => .set pair :: commands args
      | .commit, args => .commit :: commands args
      | .unknown, _ => [.unknown arg]
      | _, [] => [.missing]

def execute (s : Session) : Command → Option Session
  | .showAll => some (doShow s)
  | .info => doInfo s
  | .get var => some (doGet s var)
  | .unset var => some (doUnset s var)
  | .set pair => some (doSet s pair)
  | .commit => some (doCommit s)
  | .unknown _ => some { s with done := 0 }
  | .missing => none

def mainLoop (s : Session) (argv : List CStr) : Option Session := (commands argv).foldlM execute s

/-! ## One invocation -/

structure Report where
  stat : ℤ
  events : List Event

def finish (st : Storage) (write : Bool) (s : Session) : Option (Storage × Report) :=
  let written : Option (Storage × ℤ) :=
    if write then (nvramCommit s.nvram).map fun r => ({ st with staging := some r.1.mmap }, r.2)
    else some (st, s.stat)
  written.map fun r =>
    let r := if s.commit then stagingToNvram r.1 else r
    (r.1, ⟨if s.done = 0 then 1 else r.2, s.log⟩)

def cliMain (st : Storage) (argv : List CStr) : Option (Storage × Report) :=
  (scanWrite argv).bind fun write =>
    (openNvram st write).bind fun r =>
      match r.2 with
      | none => some (r.1, ⟨1, []⟩)
      | some nvram =>
          if argv = [] then some (r.1, ⟨1, []⟩)
          else (mainLoop (.start nvram) argv).bind fun s => finish r.1 write s

end Neufbox.Nvram
