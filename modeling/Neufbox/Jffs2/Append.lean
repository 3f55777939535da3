import Neufbox.Jffs2.Node
import Neufbox.Library.ByteStore

/-! # Appending to a JFFS2 partition

`jffs2.c`: nodes are collected in a buffer of one erase block; `pad` writes the block out when it is
full and thereby sets the offset back. Ahead of that the partition is parsed for the numbers in use.
`written` and `emitted` record what was written to the device and which nodes were put together. -/
namespace Neufbox.Jffs2
open Memory ByteStore WrapArith
set_option autoImplicit false
set_option maxHeartbeats 250000
set_option maxRecDepth 120000

/-- The byte order of the machine and the erase size of the device. -/
structure Config where
  be : Bool
  erasesize : ℕ

/-! ## The buffer -/

/-- One round of `mtd_erase_block` and `write`. -/
structure BlockWrite where
  eraseAt : ℕ
  writeAt : ℕ
  data : List UInt8

structure Appender where
  buf : List UInt8
  ofs : ℕ
  mtdofs : ℕ
  filePos : ℕ
  lastIno : ℕ
  lastVersion : ℕ
  written : List BlockWrite
  emitted : List Node

section Buffer
variable (c : Config)

def flush (s : Appender) : Appender :=
  { s with
    mtdofs := (s.mtdofs + c.erasesize) % 2 ^ 32
    filePos := s.filePos + c.erasesize
    written := s.written ++ [⟨s.mtdofs, s.filePos, s.buf.take c.erasesize⟩] }

def pad (size : ℕ) (s : Appender) : Appender :=
  if s.ofs % size = 0 ∧ s.ofs < c.erasesize then s
  else
    let s := if s.ofs < c.erasesize then
        { s with
          buf := overlay s.buf s.ofs (List.replicate (size - s.ofs % size) 0xff)
          ofs := s.ofs + (size - s.ofs % size) }
      else s
    let s := { s with ofs := s.ofs % c.erasesize }
    if s.ofs = 0 then flush c s else s

def rbytes (s : Appender) : ℕ := c.erasesize - s.ofs % c.erasesize

/-- The `memcpy` to the current offset. -/
def put (bs : List UInt8) (s : Appender) : Appender :=
  { s with buf := overlay s.buf s.ofs bs, ofs := s.ofs + bs.length }

/-- The marker goes through `add_data` in the source; it always fits an empty block. -/
def prepEraseblock (s : Appender) : Appender := if 0 < s.ofs then s else put (cleanMarker c.be) s

def addData (bs : List UInt8) (s : Appender) : Appender :=
  put bs (if c.erasesize < s.ofs + bs.length then prepEraseblock c (pad c c.erasesize s) else s)

def emit (n : Node) (s : Appender) : Appender := { s with emitted := s.emitted ++ [n] }

/-! ## Entries and files -/

/-- The test for free space subtracts the wrong way round: `ofs - erasesize` is taken as unsigned. -/
def addDirent (name : List UInt8) (type : UInt8) (parent : ℕ) (s : Appender) : Appender × ℕ :=
  let s := if wrapSub 32 s.ofs c.erasesize < 40 + name.length then pad c c.erasesize s else s
  let s := prepEraseblock c s
  let ino := (s.lastIno + 1) % 2 ^ 32
  let de : Dirent := ⟨parent, s.lastVersion, ino, type, name⟩
  let s := { s with
    buf := overlay s.buf s.ofs (de.bytes c.be)
    ofs := s.ofs + 40 + name.length % 256
    lastIno := (s.lastIno + 2) % 2 ^ 32
    lastVersion := (s.lastVersion + 1) % 2 ^ 32 }
  (pad c 4 (emit (.dirent de) s), ino)

def addDir (name : List UInt8) (parent : ℕ) (s : Appender) : Appender × ℕ :=
  let r := addDirent c name 4 parent s
  let s := prepEraseblock c (if rbytes c r.1 < 68 then pad c c.erasesize r.1 else r.1)
  let n : Inode := ⟨r.2, 1, 0o40755, 0, 0, 0, 0, 0, []⟩
  (pad c 4 (emit (.inode n) (addData c (n.header c.be) s)), r.2)

/-- The inner loop of `add_file`. A round leaves a fresh block, so when the second fails too the loop
does not end. -/
def makeRoom : ℕ → Appender → Option (Appender × ℕ)
  | 0, _ => none
  | fuel + 1, s =>
      let len := rbytes c s - 68
      if 128 < len then some (s, len) else makeRoom fuel (prepEraseblock c (pad c c.erasesize s))

/-- The inode of a part of the file; the other fields of `ri` stay as they are. -/
def Inode.chunk (ri : Inode) (version offset : ℕ) (data : List UInt8) : Inode :=
  { ri with version := version, offset := offset, data := data }

/-- What one round of `add_file` does with the bytes it has read. -/
def addChunk (n : Inode) (s : Appender) : Appender :=
  let s := addData c n.data (addData c (n.header c.be) { s with lastVersion := n.version })
  prepEraseblock c (pad c 4 (emit (.inode n) s))

/-- The outer loop of `add_file`, with the part of the file that is still to be read. -/
def addChunks (ri : Inode) : ℕ → ℕ → List UInt8 → Appender → Option Appender
  | 0, _, _, _ => none
  | fuel + 1, fOffset, rest, s =>
      (makeRoom c 2 s).bind fun r =>
        let data := rest.take (min r.2 4096)
        if data = [] then some r.1
        else
          addChunks ri fuel ((fOffset + data.length) % 2 ^ 32) (rest.drop data.length)
            (addChunk c (ri.chunk ((r.1.lastVersion + 1) % 2 ^ 32) fOffset data) r.1)

structure FileStat where
  path : List UInt8
  mode : ℕ
  atime : ℕ
  mtime : ℕ
  ctime : ℕ

/-- What `stat` and `open` find under the name of the file. -/
inductive FileSource
  | missing
  | unreadable (st : FileStat)
  | regular (st : FileStat) (content : List UInt8)

/-- The path behind its last slash. -/
def baseName (path : List UInt8) : List UInt8 := (path.reverse.takeWhile (· ≠ 47)).reverse

def addFile (file : FileSource) (parent : ℕ) (s : Appender) : Option Appender :=
  match file with
  | .missing => some s
  | .unreadable st => some (addDirent c (baseName st.path) 8 parent s).1
  | .regular st content =>
      let r := addDirent c (baseName st.path) 8 parent s
      let ri : Inode := ⟨r.2, 0, st.mode, content.length, st.atime, st.mtime, st.ctime, 0, []⟩
      addChunks c ri (content.length + 1) 0 content r.1

/-- The end of both commands: the last block, and a block with the end marker. -/
def finish (s : Appender) : Appender :=
  pad c c.erasesize (addData c jffs2Eof (pad c c.erasesize s))

end Buffer

/-! ## Parsing -/

structure Found where
  lastIno : ℕ
  lastVersion : ℕ
  targetIno : ℕ
  deriving DecidableEq

section Parsing
variable (c : Config)

def u16At (mem : ℕ → UInt8) (off : ℕ) : ℕ := word c.be (load mem off 2)

def u32At (mem : ℕ → UInt8) (off : ℕ) : ℕ := word c.be (load mem off 4)

/-- Whether `strncmp` finds no difference between the memory at an offset and a string. -/
def strncmpEq (mem : ℕ → UInt8) : ℕ → ℕ → List UInt8 → Bool
  | 0, _, _ => true
  | _ + 1, off, [] => mem off == 0
  | n + 1, off, d :: ds => mem off == d && strncmpEq mem n (off + 1) ds

/-- `PAD`, on words of 32 bits. -/
def padWord (n : ℕ) : ℕ := (n + 3) % 2 ^ 32 / 4 * 4

/-- What a directory entry at an offset changes. -/
def noteDirent (mem : ℕ → UInt8) (dir : List UInt8) (ofs : ℕ) (f : Found) : Found where
  targetIno := if dir ≠ [] ∧ u32At c mem (ofs + 12) = 1 ∧
      strncmpEq mem (mem (ofs + 28)).toNat (ofs + 40) dir then u32At c mem (ofs + 20) else f.targetIno
  lastIno := max f.lastIno (u32At c mem (ofs + 20))
  lastVersion := max f.lastVersion (u32At c mem (ofs + 16))

/-- `mtd_parse_jffs2data` from an offset on. `mem` is the buffer and what lies behind it. With a length
of zero the loop does not end, so it has fuel. -/
def mtdParseJffs2data (mem : ℕ → UInt8) (dir : List UInt8) : ℕ → ℕ → Found → Option Found
  | 0, _, _ => none
  | fuel + 1, ofs, f =>
      if ofs < c.erasesize then
        if u16At c mem ofs ≠ magicBitmask then some f
        else
          mtdParseJffs2data mem dir fuel ((ofs + padWord (u32At c mem (ofs + 4))) % 2 ^ 32)
            (if u16At c mem (ofs + 2) = nodetypeDirent then noteDirent c mem dir ofs f else f)
      else some f

/-- The buffer in memory. -/
def blockMem (block : List UInt8) (behind : ℕ → UInt8) : ℕ → UInt8 :=
  fun i => (block[i]?).getD (behind i)

structure Place where
  index : ℕ
  block : List UInt8
  found : Found

/-- The loop that looks for the end of the file system, over the blocks of the device. -/
def scan (dir : List UInt8) (fuel : ℕ) (behind : ℕ → ℕ → UInt8) :
    ℕ → List (List UInt8) → Found → Option (Except String Place)
  | _, [], _ => some (.error "Error: No room for additional data")
  | i, block :: blocks, f =>
      let mem := blockMem block (behind i)
      if u16At c mem 0 = 0x8519 then some (.error "Error: wrong endianness filesystem")
      else if u16At c mem 0 ≠ magicBitmask then some (.ok ⟨i, block, f⟩)
      else
        match mtdParseJffs2data c mem dir fuel 0 f with
        | none => none
        | some f' => scan dir fuel behind (i + 1) blocks f'

end Parsing

/-! ## The commands -/

section Commands
variable (c : Config)

/-- The state when the first node is put together; the buffer holds the last block read. -/
def startAppend (p : Place) : Appender where
  buf := p.block
  ofs := 0
  mtdofs := p.index * c.erasesize % 2 ^ 32
  filePos := p.index * c.erasesize
  lastIno := if p.found.lastIno = 0 then 1 else p.found.lastIno
  lastVersion := p.found.lastVersion
  written := []
  emitted := []

def appendFile (dir : List UInt8) (file : FileSource) (p : Place) : Option Appender :=
  let r := if p.found.targetIno = 0 then addDir c dir 1 (startAppend c p) else (startAppend c p, p.found.targetIno)
  (addFile c file r.2 r.1).map (finish c)

def mtdWriteJffs2 (fuel : ℕ) (behind : ℕ → ℕ → UInt8) (blocks : List (List UInt8)) (dir : List UInt8)
    (file : FileSource) : Option (Except String Appender) :=
  match scan c dir fuel behind 0 blocks ⟨0, 0, if dir = [] then 1 else 0⟩ with
  | none => none
  | some (.error e) => some (.error e)
  | some (.ok p) => (appendFile c dir file p).map .ok

/-- `filePos` is where the next `write` goes. -/
def mtdReplaceJffs2 (buf : List UInt8) (filePos ofs : ℕ) (f : Found) (file : FileSource) : Option Appender :=
  (addFile c file 1 {
    buf := buf
    ofs := 0
    mtdofs := ofs
    filePos := filePos
    lastIno := if f.lastIno = 0 then 1 else f.lastIno
    lastVersion := f.lastVersion
    written := []
    emitted := [] }).map (finish c)

end Commands

end Neufbox.Jffs2
