import Neufbox.Library.Crc32
import Neufbox.Library.Memory
import Neufbox.Library.WrapArith

/-! # JFFS2 nodes

The nodes that `mtd` appends to a JFFS2 partition, as they lie in an erase block: directory entries and
inodes, in the byte order of the machine, with the checksums over header, node, name and data. `walkBlock`
reads a block back the way the file system finds its nodes. -/
namespace Neufbox.Jffs2
open Blocks Memory WrapArith
set_option autoImplicit false
set_option maxHeartbeats 250000
set_option maxRecDepth 120000

/-! ## The checksum -/

def crc32_table : List ℕ :=
  [0x00000000, 0x77073096, 0xee0e612c, 0x990951ba, 0x076dc419, 0x706af48f, 0xe963a535, 0x9e6495a3,
   0x0edb8832, 0x79dcb8a4, 0xe0d5e91e, 0x97d2d988, 0x09b64c2b, 0x7eb17cbd, 0xe7b82d07, 0x90bf1d91,
   0x1db71064, 0x6ab020f2, 0xf3b97148, 0x84be41de, 0x1adad47d, 0x6ddde4eb, 0xf4d4b551, 0x83d385c7,
   0x136c9856, 0x646ba8c0, 0xfd62f97a, 0x8a65c9ec, 0x14015c4f, 0x63066cd9, 0xfa0f3d63, 0x8d080df5,
   0x3b6e20c8, 0x4c69105e, 0xd56041e4, 0xa2677172, 0x3c03e4d1, 0x4b04d447, 0xd20d85fd, 0xa50ab56b,
   0x35b5a8fa, 0x42b2986c, 0xdbbbc9d6, 0xacbcf940, 0x32d86ce3, 0x45df5c75, 0xdcd60dcf, 0xabd13d59,
   0x26d930ac, 0x51de003a, 0xc8d75180, 0xbfd06116, 0x21b4f4b5, 0x56b3c423, 0xcfba9599, 0xb8bda50f,
   0x2802b89e, 0x5f058808, 0xc60cd9b2, 0xb10be924, 0x2f6f7c87, 0x58684c11, 0xc1611dab, 0xb6662d3d,
   0x76dc4190, 0x01db7106, 0x98d220bc, 0xefd5102a, 0x71b18589, 0x06b6b51f, 0x9fbfe4a5, 0xe8b8d433,
   0x7807c9a2, 0x0f00f934, 0x9609a88e, 0xe10e9818, 0x7f6a0dbb, 0x086d3d2d, 0x91646c97, 0xe6635c01,
   0x6b6b51f4, 0x1c6c6162, 0x856530d8, 0xf262004e, 0x6c0695ed, 0x1b01a57b, 0x8208f4c1, 0xf50fc457,
   0x65b0d9c6, 0x12b7e950, 0x8bbeb8ea, 0xfcb9887c, 0x62dd1ddf, 0x15da2d49, 0x8cd37cf3, 0xfbd44c65,
   0x4db26158, 0x3ab551ce, 0xa3bc0074, 0xd4bb30e2, 0x4adfa541, 0x3dd895d7, 0xa4d1c46d, 0xd3d6f4fb,
   0x4369e96a, 0x346ed9fc, 0xad678846, 0xda60b8d0, 0x44042d73, 0x33031de5, 0xaa0a4c5f, 0xdd0d7cc9,
   0x5005713c, 0x270241aa, 0xbe0b1010, 0xc90c2086, 0x5768b525, 0x206f85b3, 0xb966d409, 0xce61e49f,
   0x5edef90e, 0x29d9c998, 0xb0d09822, 0xc7d7a8b4, 0x59b33d17, 0x2eb40d81, 0xb7bd5c3b, 0xc0ba6cad,
   0xedb88320, 0x9abfb3b6, 0x03b6e20c, 0x74b1d29a, 0xead54739, 0x9dd277af, 0x04db2615, 0x73dc1683,
   0xe3630b12, 0x94643b84, 0x0d6d6a3e, 0x7a6a5aa8, 0xe40ecf0b, 0x9309ff9d, 0x0a00ae27, 0x7d079eb1,
   0xf00f9344, 0x8708a3d2, 0x1e01f268, 0x6906c2fe, 0xf762575d, 0x806567cb, 0x196c3671, 0x6e6b06e7,
   0xfed41b76, 0x89d32be0, 0x10da7a5a, 0x67dd4acc, 0xf9b9df6f, 0x8ebeeff9, 0x17b7be43, 0x60b08ed5,
   0xd6d6a3e8, 0xa1d1937e, 0x38d8c2c4, 0x4fdff252, 0xd1bb67f1, 0xa6bc5767, 0x3fb506dd, 0x48b2364b,
   0xd80d2bda, 0xaf0a1b4c, 0x36034af6, 0x41047a60, 0xdf60efc3, 0xa867df55, 0x316e8eef, 0x4669be79,
   0xcb61b38c, 0xbc66831a, 0x256fd2a0, 0x5268e236, 0xcc0c7795, 0xbb0b4703, 0x220216b9, 0x5505262f,
   0xc5ba3bbe, 0xb2bd0b28, 0x2bb45a92, 0x5cb36a04, 0xc2d7ffa7, 0xb5d0cf31, 0x2cd99e8b, 0x5bdeae1d,
   0x9b64c2b0, 0xec63f226, 0x756aa39c, 0x026d930a, 0x9c0906a9, 0xeb0e363f, 0x72076785, 0x05005713,
   0x95bf4a82, 0xe2b87a14, 0x7bb12bae, 0x0cb61b38, 0x92d28e9b, 0xe5d5be0d, 0x7cdcefb7, 0x0bdbdf21,
   0x86d3d2d4, 0xf1d4e242, 0x68ddb3f8, 0x1fda836e, 0x81be16cd, 0xf6b9265b, 0x6fb077e1, 0x18b74777,
   0x88085ae6, 0xff0f6a70, 0x66063bca, 0x11010b5c, 0x8f659eff, 0xf862ae69, 0x616bffd3, 0x166ccf45,
   0xa00ae278, 0xd70dd2ee, 0x4e048354, 0x3903b3c2, 0xa7672661, 0xd06016f7, 0x4969474d, 0x3e6e77db,
   0xaed16a4a, 0xd9d65adc, 0x40df0b66, 0x37d83bf0, 0xa9bcae53, 0xdebb9ec5, 0x47b2cf7f, 0x30b5ffe9,
   0xbdbdf21c, 0xcabac28a, 0x53b39330, 0x24b4a3a6, 0xbad03605, 0xcdd70693, 0x54de5729, 0x23d967bf,
   0xb3667a2e, 0xc4614ab8, 0x5d681b02, 0x2a6f2b94, 0xb40bbe37, 0xc30c8ea1, 0x5a05df1b, 0x2d02ef8d]

def crcTable : Crc32.CrcTable where
  entries := crc32_table
  size := rfl
  bound := by decide +kernel
  topBytes := (Crc32.nodup_of_distinctFrom (by decide +kernel : Crc32.distinctFrom 0 _ = true)).1

@[irreducible] def crc32 (bs : List UInt8) : ℕ := Crc32.update crcTable 0 bs

theorem crc32_lt (bs : List UInt8) : crc32 bs < 2 ^ 32 := by
  rw [crc32]
  exact Crc32.update_lt crcTable (by norm_num) bs

@[simp] theorem crc32_nil : crc32 [] = 0 := by
  rw [crc32, Crc32.update_nil]

/-! ## Words in the byte order of the machine -/

def bytes16 (be : Bool) (n : ℕ) : List UInt8 :=
  if be then [UInt8.ofNat (n / 2 ^ 8), UInt8.ofNat n] else [UInt8.ofNat n, UInt8.ofNat (n / 2 ^ 8)]

def bytes32 (be : Bool) (n : ℕ) : List UInt8 := if be then beBytes n else leBytes n

def word (be : Bool) (bs : List UInt8) : ℕ := if be then beWord bs else leWord bs

/-- The word of 32 bits at an offset of a node. -/
def field (be : Bool) (bs : List UInt8) (off : ℕ) : ℕ := word be ((bs.drop off).take 4)

@[simp] theorem bytes32_length (be : Bool) (n : ℕ) : (bytes32 be n).length = 4 := by
  cases be <;> rfl

theorem word_bytes32 (be : Bool) {n : ℕ} (hn : n < 2 ^ 32) : word be (bytes32 be n) = n := by
  cases be with
  | false => simp only [word, bytes32, Bool.false_eq_true, if_false, leWord_leBytes hn]
  | true => simp only [word, bytes32, if_true, beWord_beBytes hn]

/-! ## Nodes -/

def magicBitmask : ℕ := 0x1985

def nodetypeDirent : ℕ := 0xE001

def nodetypeInode : ℕ := 0xE002

def cleanMarker (be : Bool) : List UInt8 :=
  if be then [0x19, 0x85, 0x20, 0x03, 0x00, 0x00, 0x00, 0x0c, 0xf0, 0x60, 0xdc, 0x98]
  else [0x85, 0x19, 0x03, 0x20, 0x0c, 0x00, 0x00, 0x00, 0xb1, 0xb0, 0x1e, 0xe4]

def jffs2Eof : List UInt8 := [0xde, 0xad, 0xc0, 0xde]

/-- What `hdr_crc` is taken over. -/
def nodeHeader (be : Bool) (nodetype totlen : ℕ) : List UInt8 :=
  bytes16 be magicBitmask ++ (bytes16 be nodetype ++ bytes32 be totlen)

/-- The header with `hdr_crc`, and the fields behind it. -/
def headed (be : Bool) (nodetype totlen : ℕ) (fields : List UInt8) : List UInt8 :=
  nodeHeader be nodetype totlen ++ (bytes32 be (crc32 (nodeHeader be nodetype totlen)) ++ fields)

structure Dirent where
  pino : ℕ
  version : ℕ
  ino : ℕ
  type : UInt8
  name : List UInt8

/-- The node up to `unused`, which `node_crc` is taken over; `mctime` is zero. -/
def Dirent.fixed (be : Bool) (d : Dirent) : List UInt8 :=
  headed be nodetypeDirent (40 + d.name.length) (bytes32 be d.pino ++ (bytes32 be d.version ++
    (bytes32 be d.ino ++ (bytes32 be 0 ++ [UInt8.ofNat d.name.length, d.type, 0, 0]))))

def Dirent.bytes (be : Bool) (d : Dirent) : List UInt8 :=
  d.fixed be ++ (bytes32 be (crc32 (d.fixed be)) ++ (bytes32 be (crc32 d.name) ++ d.name))

structure Inode where
  ino : ℕ
  version : ℕ
  mode : ℕ
  isize : ℕ
  atime : ℕ
  mtime : ℕ
  ctime : ℕ
  offset : ℕ
  data : List UInt8

/-- The node up to `flags`; `uid`, `gid` and the compression are zero. -/
def Inode.fixed (be : Bool) (n : Inode) : List UInt8 :=
  headed be nodetypeInode (68 + n.data.length) (bytes32 be n.ino ++ (bytes32 be n.version ++
    (bytes32 be n.mode ++ (bytes16 be 0 ++ (bytes16 be 0 ++ (bytes32 be n.isize ++ (bytes32 be n.atime ++
    (bytes32 be n.mtime ++ (bytes32 be n.ctime ++ (bytes32 be n.offset ++ (bytes32 be n.data.length ++
    (bytes32 be n.data.length ++ ([0, 0] ++ bytes16 be 0)))))))))))))

def Inode.header (be : Bool) (n : Inode) : List UInt8 :=
  n.fixed be ++ (bytes32 be (crc32 n.data) ++ bytes32 be (crc32 (n.fixed be)))

inductive Node
  | dirent (d : Dirent)
  | inode (n : Inode)

def Node.bytes (be : Bool) : Node → List UInt8
  | .dirent d => d.bytes be
  | .inode n => n.header be ++ n.data

/-! ## Reading a block -/

/-- The nodes from an offset on, with their offsets, up to the point where only `0xff` follows. -/
def walk (be : Bool) : ℕ → ℕ → List UInt8 → Option (List (ℕ × List UInt8))
  | 0, _, _ => none
  | fuel + 1, ofs, rest =>
      let totlen := field be rest 4
      if rest.all (· == 0xff) then some []
      else if word be (rest.take 2) ≠ magicBitmask ∨ totlen < 12 ∨ rest.length < totlen then none
      else (walk be fuel (ofs + roundUp totlen 4) (rest.drop (roundUp totlen 4))).map
        ((ofs, rest.take totlen) :: ·)

/-- The nodes behind the clean marker. -/
def walkBlock (be : Bool) (block : List UInt8) : Option (List (ℕ × List UInt8)) :=
  if block.take 12 = cleanMarker be then walk be (block.length + 1) 12 (block.drop 12) else none

/-- The checksums of a node, read from its bytes. -/
structure CrcsRight (be : Bool) (bs : List UInt8) : Prop where
  header : field be bs 8 = crc32 (bs.take 8)
  dirent : word be ((bs.drop 2).take 2) = nodetypeDirent →
    field be bs 32 = crc32 (bs.take 32) ∧ field be bs 36 = crc32 (bs.drop 40)
  inode : word be ((bs.drop 2).take 2) = nodetypeInode →
    field be bs 64 = crc32 (bs.take 60) ∧ field be bs 60 = crc32 (bs.drop 68)

/-! ## Reading nodes back -/

theorem field_parts {be : Bool} {bs pre post : List UInt8} {off v : ℕ} (hbs : bs = pre ++ (bytes32 be v ++ post))
    (hoff : pre.length = off) (hv : v < 2 ^ 32) : field be bs off = v := by
  rw [field, hbs, List.drop_left' hoff, List.take_left' (bytes32_length be v), word_bytes32 be hv]

@[simp] theorem bytes16_length (be : Bool) (n : ℕ) : (bytes16 be n).length = 2 := by
  cases be <;> rfl

theorem nodeHeader_length (be : Bool) (nodetype totlen : ℕ) : (nodeHeader be nodetype totlen).length = 8 := by
  simp [nodeHeader]

theorem headed_length (be : Bool) (nodetype totlen : ℕ) (fields : List UInt8) :
    (headed be nodetype totlen fields).length = 12 + fields.length := by
  rw [headed, List.length_append, List.length_append, nodeHeader_length, bytes32_length]
  omega

theorem Dirent.fixed_length (be : Bool) (d : Dirent) : (d.fixed be).length = 32 := by
  simp [Dirent.fixed, headed_length]

theorem Inode.fixed_length (be : Bool) (n : Inode) : (n.fixed be).length = 60 := by
  simp [Inode.fixed, headed_length]

theorem Dirent.bytes_length (be : Bool) (d : Dirent) : (d.bytes be).length = 40 + d.name.length := by
  simp only [Dirent.bytes, List.length_append, Dirent.fixed_length, bytes32_length]
  omega

theorem Inode.header_length (be : Bool) (n : Inode) : (n.header be).length = 68 := by
  simp only [Inode.header, List.length_append, Inode.fixed_length, bytes32_length]

def Node.nodetype : Node → ℕ
  | .dirent _ => nodetypeDirent
  | .inode _ => nodetypeInode

/-- Every node starts with magic, type, its own length and the checksum over these. -/
theorem Node.bytes_headed (be : Bool) (n : Node) :
    ∃ fields, n.bytes be = headed be n.nodetype (n.bytes be).length fields := by
  cases n with
  | dirent d =>
    have hlen : (Node.bytes be (.dirent d)).length = 40 + d.name.length := d.bytes_length be
    rw [hlen, Node.bytes, Dirent.bytes, Dirent.fixed, headed, List.append_assoc, List.append_assoc]
    exact ⟨_, rfl⟩
  | inode n =>
    have hlen : (Node.bytes be (.inode n)).length = 68 + n.data.length := by
      rw [Node.bytes, List.length_append, n.header_length]
    rw [hlen, Node.bytes, Inode.header, Inode.fixed, headed, List.append_assoc, List.append_assoc,
      List.append_assoc]
    exact ⟨_, rfl⟩

section Headed
variable {be : Bool} {nodetype totlen : ℕ} {fields : List UInt8}

theorem headed_magic : word be ((headed be nodetype totlen fields).take 2) = magicBitmask := by
  rw [headed, nodeHeader, List.append_assoc, List.take_left' (bytes16_length be _)]
  cases be <;> rfl

theorem headed_nodetype (h : nodetype < 2 ^ 16) :
    word be (((headed be nodetype totlen fields).drop 2).take 2) = nodetype := by
  rw [headed, nodeHeader, List.append_assoc, List.drop_left' (bytes16_length be _), List.append_assoc,
    List.take_left' (bytes16_length be _)]
  cases be
  all_goals
    simp [word, bytes16, Blocks.beWord, Memory.leWord]
    omega

theorem headed_totlen (h : totlen < 2 ^ 32) : field be (headed be nodetype totlen fields) 4 = totlen := by
  apply field_parts _ _ h
  · exact bytes16 be magicBitmask ++ bytes16 be nodetype
  · exact bytes32 be (crc32 (nodeHeader be nodetype totlen)) ++ fields
  · simp only [headed, nodeHeader, List.append_assoc]
  · simp

theorem headed_crc : field be (headed be nodetype totlen fields) 8 =
    crc32 ((headed be nodetype totlen fields).take 8) := by
  have htake : (headed be nodetype totlen fields).take 8 = nodeHeader be nodetype totlen :=
    List.take_left' (nodeHeader_length be nodetype totlen)
  rw [htake]
  exact field_parts rfl (nodeHeader_length be nodetype totlen) (crc32_lt _)

end Headed

theorem Node.word_nodetype (be : Bool) (n : Node) : word be (((n.bytes be).drop 2).take 2) = n.nodetype := by
  obtain ⟨fields, hbytes⟩ := n.bytes_headed be
  rw [hbytes]
  apply headed_nodetype
  cases n <;> simp [nodetype, nodetypeDirent, nodetypeInode]

/-- The checksums are those of the bytes they are taken over. -/
theorem Node.crcsRight (be : Bool) (n : Node) : CrcsRight be (n.bytes be) := by
  obtain ⟨fields, hbytes⟩ := n.bytes_headed be
  have htype := n.word_nodetype be
  refine ⟨?_, ?_, ?_⟩
  · rw [hbytes]
    exact headed_crc
  · intro hdirent
    rw [htype] at hdirent
    cases n with
    | dirent d =>
      have htake : (d.bytes be).take 32 = d.fixed be := List.take_left' (d.fixed_length be)
      have hname : (d.bytes be).drop 40 = d.name := by
        rw [Dirent.bytes, ← List.append_assoc, ← List.append_assoc]
        exact List.drop_left' (by simp [Dirent.fixed_length])
      rw [Node.bytes, htake, hname]
      refine ⟨field_parts rfl (d.fixed_length be) (crc32_lt _), ?_⟩
      apply field_parts _ _ (crc32_lt _)
      · exact d.fixed be ++ bytes32 be (crc32 (d.fixed be))
      · exact d.name
      · rw [Dirent.bytes, List.append_assoc]
      · simp [Dirent.fixed_length]
    | inode n => cases hdirent
  · intro hinode
    rw [htype] at hinode
    cases n with
    | dirent d => cases hinode
    | inode n =>
      have hparts : Node.bytes be (.inode n) =
          n.fixed be ++ (bytes32 be (crc32 n.data) ++ (bytes32 be (crc32 (n.fixed be)) ++ n.data)) := by
        rw [Node.bytes, Inode.header, List.append_assoc, List.append_assoc]
      have htake : (Node.bytes be (.inode n)).take 60 = n.fixed be := by
        rw [hparts]
        exact List.take_left' (n.fixed_length be)
      have hdata : (Node.bytes be (.inode n)).drop 68 = n.data := List.drop_left' (n.header_length be)
      rw [htake, hdata]
      refine ⟨?_, field_parts hparts (n.fixed_length be) (crc32_lt _)⟩
      apply field_parts _ _ (crc32_lt _)
      · exact n.fixed be ++ bytes32 be (crc32 n.data)
      · exact n.data
      · rw [hparts, List.append_assoc]
      · simp [Inode.fixed_length]

theorem field_skip (be : Bool) {xs : List UInt8} {k : ℕ} (h : xs.length = k) (ys : List UInt8) (off : ℕ) :
    field be (xs ++ ys) (k + off) = field be ys off := by
  rw [field, field, ← List.drop_drop, List.drop_left' h]

theorem field_here (be : Bool) {v : ℕ} (hv : v < 2 ^ 32) (ys : List UInt8) : field be (bytes32 be v ++ ys) 0 = v :=
  field_parts (List.nil_append _).symm rfl hv

/-! ## The fields of an inode, read from its bytes -/

namespace Inode
variable (be : Bool) (n : Inode)

theorem field_ino (h : n.ino < 2 ^ 32) : field be (Node.bytes be (.inode n)) 12 = n.ino := by
  simp only [Node.bytes, Inode.header, Inode.fixed, headed, List.append_assoc]
  show field be _ (8 + (4 + 0)) = _
  rw [field_skip be (nodeHeader_length be _ _), field_skip be (bytes32_length be _), field_here be h]

theorem field_version (h : n.version < 2 ^ 32) : field be (Node.bytes be (.inode n)) 16 = n.version := by
  simp only [Node.bytes, Inode.header, Inode.fixed, headed, List.append_assoc]
  show field be _ (8 + (4 + (4 + 0))) = _
  rw [field_skip be (nodeHeader_length be _ _), field_skip be (bytes32_length be _),
    field_skip be (bytes32_length be _), field_here be h]

/-- The fields up to `ctime` take 44 bytes. -/
theorem field_from_offset : ∃ tail, ∀ off, field be (Node.bytes be (.inode n)) (44 + off) =
    field be (bytes32 be n.offset ++ (bytes32 be n.data.length ++ (bytes32 be n.data.length ++ tail))) off := by
  refine ⟨[0, 0] ++ (bytes16 be 0 ++ (bytes32 be (crc32 n.data) ++ (bytes32 be (crc32 (n.fixed be)) ++ n.data))), ?_⟩
  intro off
  have hsum : 44 + off = 8 + (4 + (4 + (4 + (4 + (2 + (2 + (4 + (4 + (4 + (4 + off)))))))))) := by omega
  have hbytes : Node.bytes be (.inode n) = nodeHeader be nodetypeInode (68 + n.data.length) ++
      (bytes32 be (crc32 (nodeHeader be nodetypeInode (68 + n.data.length))) ++ (bytes32 be n.ino ++
      (bytes32 be n.version ++ (bytes32 be n.mode ++ (bytes16 be 0 ++ (bytes16 be 0 ++ (bytes32 be n.isize ++
      (bytes32 be n.atime ++ (bytes32 be n.mtime ++ (bytes32 be n.ctime ++ (bytes32 be n.offset ++
      (bytes32 be n.data.length ++ (bytes32 be n.data.length ++ ([0, 0] ++ (bytes16 be 0 ++
      (bytes32 be (crc32 n.data) ++ (bytes32 be (crc32 (n.fixed be)) ++ n.data))))))))))))))))) := by
    rw [Node.bytes, Inode.header]
    nth_rewrite 1 [Inode.fixed]
    simp only [headed, List.append_assoc]
  rw [hbytes, hsum]
  simp only [field_skip be (nodeHeader_length be _ _), field_skip be (bytes32_length be _),
    field_skip be (bytes16_length be _)]

theorem field_offset (h : n.offset < 2 ^ 32) : field be (Node.bytes be (.inode n)) 44 = n.offset := by
  obtain ⟨tail, hskip⟩ := field_from_offset be n
  show field be _ (44 + 0) = _
  rw [hskip, field_here be h]

theorem field_sizes (h : n.data.length < 2 ^ 32) : field be (Node.bytes be (.inode n)) 48 = n.data.length ∧
    field be (Node.bytes be (.inode n)) 52 = n.data.length := by
  obtain ⟨tail, hskip⟩ := field_from_offset be n
  constructor
  · show field be _ (44 + (4 + 0)) = _
    rw [hskip, field_skip be (bytes32_length be _), field_here be h]
  · show field be _ (44 + (4 + (4 + 0))) = _
    rw [hskip, field_skip be (bytes32_length be _), field_skip be (bytes32_length be _), field_here be h]

end Inode

end Neufbox.Jffs2
