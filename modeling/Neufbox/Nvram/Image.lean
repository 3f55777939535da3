import Neufbox.Library.ByteStore
import Neufbox.Nvram.Table

/-! # The NVRAM area of the mapped device

`package/nvram/src/nvram.c` maps one erase block; its last `NVRAM_SPACE` bytes are a header of five
32-bit words and the variables as `name=value` strings. `NvramMap` is the mapped block, `DataArea`
the bytes behind the header. The area ends where the mapping ends, so a store or a scan past its
end is a fault: the operations return `none` for it. -/
namespace Neufbox.Nvram
open CString ChainTable ByteStore
set_option autoImplicit false
set_option maxHeartbeats 250000
set_option maxRecDepth 120000

/-! ## The mapping -/

/-- `struct nvram_header`; every field holds a number below `2 ^ 32`. -/
structure NvramHeader where
  magic : ℕ
  len : ℕ
  crcVerInit : ℕ
  configRefresh : ℕ
  configNcdl : ℕ
  deriving Repr, DecidableEq

def headerSize : ℕ := 20

def dataSize : ℕ := nvramSpace - headerSize

structure DataArea where
  bytes : List UInt8
  size : bytes.length = dataSize

/-- A mapped erase block: the bytes before the NVRAM area, whose number is a multiple of four as
erase sizes are, the header and the data. -/
structure NvramMap where
  lead : List UInt8
  aligned : lead.length % 4 = 0
  header : NvramHeader
  data : DataArea

structure NvramHandle where
  table : NvramTable
  mmap : NvramMap

/-- A copy into the data area; `none` when it does not stay inside. -/
def DataArea.store (d : DataArea) (off : ℕ) (bs : List UInt8) : Option DataArea :=
  if h : off + bs.length ≤ dataSize then
    some ⟨overlay d.bytes off bs, (overlay_length (by rw [d.size]; exact h)).trans d.size⟩
  else none

def DataArea.erased : DataArea := ⟨List.replicate dataSize 0xFF, List.length_replicate⟩

/-! ## Checksum -/

def crc8Table : List UInt8 := [
  0x00, 0xF7, 0xB9, 0x4E, 0x25, 0xD2, 0x9C, 0x6B,
  0x4A, 0xBD, 0xF3, 0x04, 0x6F, 0x98, 0xD6, 0x21,
  0x94, 0x63, 0x2D, 0xDA, 0xB1, 0x46, 0x08, 0xFF,
  0xDE, 0x29, 0x67, 0x90, 0xFB, 0x0C, 0x42, 0xB5,
  0x7F, 0x88, 0xC6, 0x31, 0x5A, 0xAD, 0xE3, 0x14,
  0x35, 0xC2, 0x8C, 0x7B, 0x10, 0xE7, 0xA9, 0x5E,
  0xEB, 0x1C, 0x52, 0xA5, 0xCE, 0x39, 0x77, 0x80,
  0xA1, 0x56, 0x18, 0xEF, 0x84, 0x73, 0x3D, 0xCA,
  0xFE, 0x09, 0x47, 0xB0, 0xDB, 0x2C, 0x62, 0x95,
  0xB4, 0x43, 0x0D, 0xFA, 0x91, 0x66, 0x28, 0xDF,
  0x6A, 0x9D, 0xD3, 0x24, 0x4F, 0xB8, 0xF6, 0x01,
  0x20, 0xD7, 0x99, 0x6E, 0x05, 0xF2, 0xBC, 0x4B,
  0x81, 0x76, 0x38, 0xCF, 0xA4, 0x53, 0x1D, 0xEA,
  0xCB, 0x3C, 0x72, 0x85, 0xEE, 0x19, 0x57, 0xA0,
  0x15, 0xE2, 0xAC, 0x5B, 0x30, 0xC7, 0x89, 0x7E,
  0x5F, 0xA8, 0xE6, 0x11, 0x7A, 0x8D, 0xC3, 0x34,
  0xAB, 0x5C, 0x12, 0xE5, 0x8E, 0x79, 0x37, 0xC0,
  0xE1, 0x16, 0x58, 0xAF, 0xC4, 0x33, 0x7D, 0x8A,
  0x3F, 0xC8, 0x86, 0x71, 0x1A, 0xED, 0xA3, 0x54,
  0x75, 0x82, 0xCC, 0x3B, 0x50, 0xA7, 0xE9, 0x1E,
  0xD4, 0x23, 0x6D, 0x9A, 0xF1, 0x06, 0x48, 0xBF,
  0x9E, 0x69, 0x27, 0xD0, 0xBB, 0x4C, 0x02, 0xF5,
  0x40, 0xB7, 0xF9, 0x0E, 0x65, 0x92, 0xDC, 0x2B,
  0x0A, 0xFD, 0xB3, 0x44, 0x2F, 0xD8, 0x96, 0x61,
  0x55, 0xA2, 0xEC, 0x1B, 0x70, 0x87, 0xC9, 0x3E,
  0x1F, 0xE8, 0xA6, 0x51, 0x3A, 0xCD, 0x83, 0x74,
  0xC1, 0x36, 0x78, 0x8F, 0xE4, 0x13, 0x5D, 0xAA,
  0x8B, 0x7C, 0x32, 0xC5, 0xAE, 0x59, 0x17, 0xE0,
  0x2A, 0xDD, 0x93, 0x64, 0x0F, 0xF8, 0xB6, 0x41,
  0x60, 0x97, 0xD9, 0x2E, 0x45, 0xB2, 0xFC, 0x0B,
  0xBE, 0x49, 0x07, 0xF0, 0x9B, 0x6C, 0x22, 0xD5,
  0xF4, 0x03, 0x4D, 0xBA, 0xD1, 0x26, 0x68, 0x9F]

def hndcrc8 (pdata : List UInt8) (crc : UInt8) : UInt8 :=
  pdata.foldl (fun crc b => crc8Table.getD ((crc ^^^ b) &&& 0xff).toNat 0) crc

/-- The bytes of a 32-bit word on the little-endian target. -/
def wordBytes (x : ℕ) : List UInt8 :=
  [UInt8.ofNat (x % 256), UInt8.ofNat (x / 2 ^ 8 % 256), UInt8.ofNat (x / 2 ^ 16 % 256),
    UInt8.ofNat (x / 2 ^ 24 % 256)]

def NvramHeader.bytes (h : NvramHeader) : List UInt8 :=
  wordBytes h.magic ++ wordBytes h.len ++ wordBytes h.crcVerInit ++ wordBytes h.configRefresh ++
    wordBytes h.configNcdl

def crcStartPosition : ℕ := 9

/-! ## Numbers as text -/

def hexDigit (n : ℕ) : UInt8 := if n < 10 then UInt8.ofNat (48 + n) else UInt8.ofNat (55 + n)

theorem hexDigit_ne_zero {n : ℕ} (h : n < 16) : hexDigit n ≠ 0 := by
  interval_cases n <;> decide

/-- `sprintf` with the format `0x%0<width>X`, for a number of at most `width` digits. -/
def sprintfHex (width n : ℕ) : CStr where
  bytes := 48 :: 120 :: (List.range width).reverse.map fun i => hexDigit (n / 16 ^ i % 16)
  nulFree := by
    intro h
    simp only [List.mem_cons, List.mem_map] at h
    rcases h with h | h | ⟨i, -, h⟩
    · exact absurd h (by decide)
    · exact absurd h (by decide)
    · exact hexDigit_ne_zero (Nat.mod_lt _ (by norm_num)) h

def isSpace (b : UInt8) : Bool := b = 32 || (9 ≤ b && b ≤ 13)

def digitValue (b : UInt8) : ℕ :=
  if 48 ≤ b ∧ b ≤ 57 then b.toNat - 48
  else if 97 ≤ b ∧ b ≤ 122 then b.toNat - 87
  else if 65 ≤ b ∧ b ≤ 90 then b.toNat - 55
  else 36

def digits (base : ℕ) : List UInt8 → ℕ → ℕ
  | [], acc => acc
  | b :: bs, acc => if digitValue b < base then digits base bs (acc * base + digitValue b) else acc

/-- The digits after an optional base prefix: `0x` before a hexadecimal digit, `0`, or none. -/
def prefixedDigits : List UInt8 → ℕ
  | 48 :: x :: d :: bs =>
      if (x = 120 ∨ x = 88) ∧ digitValue d < 16 then digits 16 (d :: bs) 0
      else digits 8 (48 :: x :: d :: bs) 0
  | 48 :: bs => digits 8 (48 :: bs) 0
  | bs => digits 10 bs 0

/-- `strtoul(s, NULL, 0)` with a 32-bit `unsigned long`: too large a number gives `ULONG_MAX`, a
minus sign negates modulo `2 ^ 32`. -/
def strtoul (s : CStr) : ℕ :=
  match s.bytes.dropWhile isSpace with
  | 45 :: bs => if prefixedDigits bs < 2 ^ 32 then (2 ^ 32 - prefixedDigits bs) % 2 ^ 32 else 2 ^ 32 - 1
  | 43 :: bs => min (prefixedDigits bs) (2 ^ 32 - 1)
  | bs => min (prefixedDigits bs) (2 ^ 32 - 1)

/-! ## Parsing -/

def equals : UInt8 := 61

theorem parse_shrinks {mem rest rest' : List UInt8} {name value : CStr}
    (hn : strchr equals mem = .found name rest) (hv : stringAt rest = some (value, rest')) :
    rest'.length < mem.length := by
  have h1 := congrArg List.length (strchr_eq_found hn).1
  have h2 := congrArg List.length (stringAt_eq_some hv)
  simp only [List.length_append, List.length_cons] at h1 h2
  omega

/-- The loop of `_nvram_rehash` over the strings of the data area: the tuples it hands to
`nvram_set`, in order. The `=` it overwrites while it does so is put back. -/
def parseTuples (mem : List UInt8) : Option (List NvramTuple) :=
  match mem with
  | [] => none
  | b :: bs =>
      if b = 0 then some []
      else match _hn : strchr equals (b :: bs) with
        | .fault => none
        | .missing => some []
        | .found name rest =>
            match _hv : stringAt rest with
            | none => none
            | some (value, rest') => (parseTuples rest').map (⟨name, value⟩ :: ·)
termination_by mem.length
decreasing_by exact parse_shrinks _hn _hv

def sdramInit : CStr := .lit "sdram_init"
def sdramConfig : CStr := .lit "sdram_config"
def sdramRefresh : CStr := .lit "sdram_refresh"
def sdramNcdl : CStr := .lit "sdram_ncdl"

def setTuple (h : NvramTable) (t : NvramTuple) : NvramTable := (nvramSet h t.name t.value).1

def setMissing (h : NvramTable) (t : NvramTuple) : NvramTable :=
  if (nvramGet h t.name).isNone then setTuple h t else h

def sdramTuples (hdr : NvramHeader) : List NvramTuple :=
  [⟨sdramInit, sprintfHex 4 (hdr.crcVerInit / 2 ^ 16 % 2 ^ 16)⟩,
    ⟨sdramConfig, sprintfHex 4 (hdr.configRefresh % 2 ^ 16)⟩,
    ⟨sdramRefresh, sprintfHex 4 (hdr.configRefresh / 2 ^ 16 % 2 ^ 16)⟩,
    ⟨sdramNcdl, sprintfHex 8 hdr.configNcdl⟩]

def nvramRehash (m : NvramMap) : Option NvramTable :=
  (parseTuples m.data.bytes).map fun ts =>
    (sdramTuples m.header).foldl setMissing (ts.foldl setTuple nvramFree)

/-! ## Commit -/

def record (t : NvramTuple) : List UInt8 := t.name.bytes ++ equals :: (t.value.bytes ++ [0])

/-- The inner loop of `nvram_commit`; a tuple that does not fit ends it. -/
def writeChain (d : DataArea) (ptr : ℕ) : List NvramTuple → Option (DataArea × ℕ)
  | [] => some (d, ptr)
  | t :: ts =>
      if ptr + t.name.strlen + 1 + t.value.strlen + 1 > dataSize - 2 then some (d, ptr)
      else (d.store ptr (record t)).bind fun d => writeChain d (ptr + (record t).length) ts

def writeChains (d : DataArea) (ptr : ℕ) : List (List NvramTuple) → Option (DataArea × ℕ)
  | [] => some (d, ptr)
  | chain :: chains => (writeChain d ptr chain).bind fun r => writeChains r.1 r.2 chains

/-- The final NUL and the padding: the data area and the end of the padded text. The address of a
data byte is a multiple of four when its offset in the mapping is. -/
def terminate (m : NvramMap) (d : DataArea) (ptr : ℕ) : Option (DataArea × ℕ) :=
  (d.store ptr [0]).bind fun d =>
    let ptr := ptr + 1
    let misaligned := (m.lead.length + headerSize + ptr) % 4
    if misaligned ≠ 0 then (d.store ptr (List.replicate (4 - misaligned) 0)).map fun d => (d, ptr + 1)
    else some (d, ptr + 1)

def nvramRoundup (x y : ℕ) : ℕ := (x + (y - 1)) / y * y

def nvramMagic : ℕ := 0x48534C46
def nvramVersion : ℕ := 1
def sdramInitDefault : ℕ := 0x419
def sdramConfigDefault : ℕ := 0x0000
def sdramRefreshDefault : ℕ := 0x8040

/-- The header `nvram_commit` regenerates, before its length and checksum are known. -/
def regenerateHeader (h : NvramTable) : NvramHeader :=
  match nvramGet h sdramInit, nvramGet h sdramConfig, nvramGet h sdramRefresh, nvramGet h sdramNcdl with
  | some init, some config, some refresh, some ncdl =>
      { magic := nvramMagic
        len := 0
        crcVerInit := nvramVersion * 2 ^ 8 + strtoul init % 2 ^ 16 * 2 ^ 16
        configRefresh := strtoul config % 2 ^ 16 + strtoul refresh % 2 ^ 16 * 2 ^ 16
        configNcdl := strtoul ncdl }
  | _, _, _, _ =>
      { magic := nvramMagic
        len := 0
        crcVerInit := nvramVersion * 2 ^ 8 + sdramInitDefault * 2 ^ 16
        configRefresh := sdramConfigDefault + sdramRefreshDefault * 2 ^ 16
        configNcdl := 0 }

def commitCrc (hdr : NvramHeader) (d : DataArea) (len : ℕ) : UInt8 :=
  hndcrc8 (d.bytes.take (len - headerSize))
    (hndcrc8 ((NvramHeader.bytes hdr).drop crcStartPosition) 0xff)

/-- The mapping with its new header and data: `ptr` is the end of the padded text. -/
def finishImage (m : NvramMap) (hdr : NvramHeader) (d : DataArea) (ptr : ℕ) : NvramMap :=
  let len := nvramRoundup (headerSize + ptr) 4
  { m with
    header := { hdr with len := len, crcVerInit := hdr.crcVerInit + (commitCrc hdr d len).toNat }
    data := d }

/-- `nvram_commit` up to its last line: the image it writes. -/
def commitImage (h : NvramHandle) : Option NvramMap :=
  (writeChains .erased 0 ((List.finRange 257).map h.table.nvramHash)).bind fun r =>
    (terminate h.mmap r.1 r.2).map fun r => finishImage h.mmap (regenerateHeader h.table) r.1 r.2

/-- `nvram_commit`; its result is that of the final `_nvram_rehash`. -/
def nvramCommit (h : NvramHandle) : Option (NvramHandle × ℤ) :=
  (commitImage h).bind fun m => (nvramRehash m).map fun table => (⟨table, m⟩, 0)

/-! ## Open -/

def clearLead (m : NvramMap) : NvramMap :=
  { m with lead := List.replicate m.lead.length 0xFF
           aligned := by rw [List.length_replicate]; exact m.aligned }

/-- `nvram_open` of a file with this content; a wrong magic number gives `NULL`. -/
def nvramOpen (file : NvramMap) : Option (Option NvramHandle) :=
  let m := clearLead file
  if m.header.magic = nvramMagic then (nvramRehash m).map fun table => some ⟨table, m⟩
  else some none

end Neufbox.Nvram
