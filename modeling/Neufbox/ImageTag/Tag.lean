import Neufbox.Library.ByteStore
import Neufbox.Library.Blocks
import Neufbox.Library.CString
import Neufbox.Library.Crc32
import Neufbox.Library.Decimal
import Neufbox.Library.WrapArith

/-! # The image tagger

`imagetag` puts a kernel and a root file system into one image, behind a tag of 256 bytes with the
lengths and flash addresses of the parts as ASCII numbers. The tool runs on a 64-bit host: `size_t`
has 64 bits, the flash addresses given to it have 32. -/
namespace Neufbox.ImageTag
open ByteStore Blocks CString Decimal WrapArith
set_option autoImplicit false
set_option maxHeartbeats 250000
set_option maxRecDepth 120000

/-! ## The checksum -/

def crc32tab : List ℕ :=
  [0x00000000, 0x77073096, 0xEE0E612C, 0x990951BA, 0x076DC419, 0x706AF48F, 0xE963A535, 0x9E6495A3,
   0x0EDB8832, 0x79DCB8A4, 0xE0D5E91E, 0x97D2D988, 0x09B64C2B, 0x7EB17CBD, 0xE7B82D07, 0x90BF1D91,
   0x1DB71064, 0x6AB020F2, 0xF3B97148, 0x84BE41DE, 0x1ADAD47D, 0x6DDDE4EB, 0xF4D4B551, 0x83D385C7,
   0x136C9856, 0x646BA8C0, 0xFD62F97A, 0x8A65C9EC, 0x14015C4F, 0x63066CD9, 0xFA0F3D63, 0x8D080DF5,
   0x3B6E20C8, 0x4C69105E, 0xD56041E4, 0xA2677172, 0x3C03E4D1, 0x4B04D447, 0xD20D85FD, 0xA50AB56B,
   0x35B5A8FA, 0x42B2986C, 0xDBBBC9D6, 0xACBCF940, 0x32D86CE3, 0x45DF5C75, 0xDCD60DCF, 0xABD13D59,
   0x26D930AC, 0x51DE003A, 0xC8D75180, 0xBFD06116, 0x21B4F4B5, 0x56B3C423, 0xCFBA9599, 0xB8BDA50F,
   0x2802B89E, 0x5F058808, 0xC60CD9B2, 0xB10BE924, 0x2F6F7C87, 0x58684C11, 0xC1611DAB, 0xB6662D3D,
   0x76DC4190, 0x01DB7106, 0x98D220BC, 0xEFD5102A, 0x71B18589, 0x06B6B51F, 0x9FBFE4A5, 0xE8B8D433,
   0x7807C9A2, 0x0F00F934, 0x9609A88E, 0xE10E9818, 0x7F6A0DBB, 0x086D3D2D, 0x91646C97, 0xE6635C01,
   0x6B6B51F4, 0x1C6C6162, 0x856530D8, 0xF262004E, 0x6C0695ED, 0x1B01A57B, 0x8208F4C1, 0xF50FC457,
   0x65B0D9C6, 0x12B7E950, 0x8BBEB8EA, 0xFCB9887C, 0x62DD1DDF, 0x15DA2D49, 0x8CD37CF3, 0xFBD44C65,
   0x4DB26158, 0x3AB551CE, 0xA3BC0074, 0xD4BB30E2, 0x4ADFA541, 0x3DD895D7, 0xA4D1C46D, 0xD3D6F4FB,
   0x4369E96A, 0x346ED9FC, 0xAD678846, 0xDA60B8D0, 0x44042D73, 0x33031DE5, 0xAA0A4C5F, 0xDD0D7CC9,
   0x5005713C, 0x270241AA, 0xBE0B1010, 0xC90C2086, 0x5768B525, 0x206F85B3, 0xB966D409, 0xCE61E49F,
   0x5EDEF90E, 0x29D9C998, 0xB0D09822, 0xC7D7A8B4, 0x59B33D17, 0x2EB40D81, 0xB7BD5C3B, 0xC0BA6CAD,
   0xEDB88320, 0x9ABFB3B6, 0x03B6E20C, 0x74B1D29A, 0xEAD54739, 0x9DD277AF, 0x04DB2615, 0x73DC1683,
   0xE3630B12, 0x94643B84, 0x0D6D6A3E, 0x7A6A5AA8, 0xE40ECF0B, 0x9309FF9D, 0x0A00AE27, 0x7D079EB1,
   0xF00F9344, 0x8708A3D2, 0x1E01F268, 0x6906C2FE, 0xF762575D, 0x806567CB, 0x196C3671, 0x6E6B06E7,
   0xFED41B76, 0x89D32BE0, 0x10DA7A5A, 0x67DD4ACC, 0xF9B9DF6F, 0x8EBEEFF9, 0x17B7BE43, 0x60B08ED5,
   0xD6D6A3E8, 0xA1D1937E, 0x38D8C2C4, 0x4FDFF252, 0xD1BB67F1, 0xA6BC5767, 0x3FB506DD, 0x48B2364B,
   0xD80D2BDA, 0xAF0A1B4C, 0x36034AF6, 0x41047A60, 0xDF60EFC3, 0xA867DF55, 0x316E8EEF, 0x4669BE79,
   0xCB61B38C, 0xBC66831A, 0x256FD2A0, 0x5268E236, 0xCC0C7795, 0xBB0B4703, 0x220216B9, 0x5505262F,
   0xC5BA3BBE, 0xB2BD0B28, 0x2BB45A92, 0x5CB36A04, 0xC2D7FFA7, 0xB5D0CF31, 0x2CD99E8B, 0x5BDEAE1D,
   0x9B64C2B0, 0xEC63F226, 0x756AA39C, 0x026D930A, 0x9C0906A9, 0xEB0E363F, 0x72076785, 0x05005713,
   0x95BF4A82, 0xE2B87A14, 0x7BB12BAE, 0x0CB61B38, 0x92D28E9B, 0xE5D5BE0D, 0x7CDCEFB7, 0x0BDBDF21,
   0x86D3D2D4, 0xF1D4E242, 0x68DDB3F8, 0x1FDA836E, 0x81BE16CD, 0xF6B9265B, 0x6FB077E1, 0x18B74777,
   0x88085AE6, 0xFF0F6A70, 0x66063BCA, 0x11010B5C, 0x8F659EFF, 0xF862AE69, 0x616BFFD3, 0x166CCF45,
   0xA00AE278, 0xD70DD2EE, 0x4E048354, 0x3903B3C2, 0xA7672661, 0xD06016F7, 0x4969474D, 0x3E6E77DB,
   0xAED16A4A, 0xD9D65ADC, 0x40DF0B66, 0x37D83BF0, 0xA9BCAE53, 0xDEBB9EC5, 0x47B2CF7F, 0x30B5FFE9,
   0xBDBDF21C, 0xCABAC28A, 0x53B39330, 0x24B4A3A6, 0xBAD03605, 0xCDD70693, 0x54DE5729, 0x23D967BF,
   0xB3667A2E, 0xC4614AB8, 0x5D681B02, 0x2A6F2B94, 0xB40BBE37, 0xC30C8EA1, 0x5A05DF1B, 0x2D02EF8D]

def crcTable : Crc32.CrcTable where
  entries := crc32tab
  size := rfl
  bound := by decide +kernel
  topBytes := (Crc32.nodup_of_distinctFrom (by decide +kernel : Crc32.distinctFrom 0 _ = true)).1

def crc32 (crc : ℕ) (data : List UInt8) : ℕ := Crc32.update crcTable crc data

def imagetagCrcStart : ℕ := 0xFFFFFFFF

/-! ## Rounding -/

/-- `ALIGN(x, a)` for a `size_t` and a `uint32_t`: the mask is computed in 32 bits, so the result has
no more than 32. -/
def align (x a : ℕ) : ℕ := wrapSub 64 ((x + a) % 2 ^ 64) 1 &&& (2 ^ 32 - 1 - wrapSub 32 a 1)

/-! ## The output file -/

structure OutFile where
  bytes : List UInt8
  pos : ℕ

namespace OutFile

/-- `fseek(.., SEEK_SET)`. The offset is converted to a `long`; a negative one is refused and leaves
the position where it was. -/
def fseek (f : OutFile) (off : ℕ) : OutFile := if off < 2 ^ 63 then { f with pos := off } else f

/-- Writing behind the end of the file fills the gap with zeros. -/
def fwrite (f : OutFile) (bs : List UInt8) : OutFile :=
  if bs = [] then f
  else ⟨overlay (f.bytes ++ List.replicate (f.pos - f.bytes.length) 0) f.pos bs, f.pos + bs.length⟩

end OutFile

/-- The copy loop of `tagfile`: 1024 bytes at a time, until a read comes back short. -/
def copyFile (crc : ℕ) (f : OutFile) (data : List UInt8) : ℕ × OutFile :=
  if data.length < 1024 then (crc32 crc data, f.fwrite data)
  else copyFile (crc32 crc (data.take 1024)) (f.fwrite (data.take 1024)) (data.drop 1024)
termination_by data.length

/-! ## The tag -/

/-- The arguments of `tagfile`, with the contents of the two files. The file sizes are `off_t`;
`ver` is copied into the tag without a check and has to stay inside it. -/
structure TagArgs where
  kernel : List UInt8
  rootfs : List UInt8
  boardid : CStr
  chipid : CStr
  ver : CStr
  magic2 : CStr
  neufbox4 : Option CStr
  fwaddr : ℕ
  loadaddr : ℕ
  entry : ℕ
  flashBs : ℕ
  kernelSize : kernel.length < 2 ^ 63
  rootfsSize : rootfs.length < 2 ^ 63
  verFits : ver.strlen < 256
  fwaddrBits : fwaddr < 2 ^ 32
  flashBsBits : flashBs < 2 ^ 32

namespace TagArgs
variable (a : TagArgs)

def kerneloff : ℕ := a.fwaddr + 256

def kernellen : ℕ := a.kernel.length + 12

def rootfsoff : ℕ := align (a.kerneloff + a.kernellen) a.flashBs

def rootfslen : ℕ := align a.rootfs.length a.flashBs

def khdr : List UInt8 := beBytes a.loadaddr ++ beBytes a.entry ++ beBytes a.kernel.length

/-- The file and the image checksum when both parts are written. -/
def writeParts : ℕ × OutFile :=
  let f : OutFile := (OutFile.mk [] 0).fseek (wrapSub 64 a.kerneloff a.fwaddr)
  let r := copyFile (crc32 imagetagCrcStart a.khdr) (f.fwrite a.khdr) a.kernel
  copyFile r.1 (r.2.fseek (wrapSub 64 a.rootfsoff a.fwaddr)) a.rootfs

end TagArgs

def strcpy (s : CStr) : List UInt8 := s.bytes ++ [0]

def strncpy (n : ℕ) (s : CStr) : List UInt8 := (s.bytes ++ List.replicate n 0).take n

def sprintfLu (n : ℕ) : List UInt8 := decimal n ++ [0]

def magic1 : CStr := .lit "Broadcom Corporatio"

def identWrites (a : TagArgs) : List (ℕ × List UInt8) :=
  [(0, strcpy a.ver), (4, strncpy 19 magic1), (24, strncpy 13 a.magic2), (38, strcpy a.chipid),
    (44, strcpy a.boardid), (60, [49, 0])]

def versionWrites (a : TagArgs) : List (ℕ × List UInt8) :=
  match a.neufbox4 with
  | some version => [(142, strcpy version), (215, [0xE0])]
  | none => []

/-- The stores into the zeroed `struct imagetag`, in the order of the code. -/
def tagWrites (a : TagArgs) (crc : ℕ) : List (ℕ × List UInt8) :=
  identWrites a ++ [(62, sprintfLu (a.kernellen + a.rootfslen))] ++ versionWrites a ++
  [(72, [48, 0]), (84, [48, 0]), (116, sprintfLu a.kerneloff), (128, sprintfLu a.kernellen),
    (94, sprintfLu a.rootfsoff), (106, sprintfLu a.rootfslen), (216, beBytes crc)]

def buildTag (a : TagArgs) (crc : ℕ) : List UInt8 :=
  let tag := overlays (List.replicate 256 0) (tagWrites a crc)
  overlay tag 236 (beBytes (crc32 imagetagCrcStart (tag.take 236)))

inductive TagError
  | boardIdTooLong
  | chipIdTooLong
  | neufbox4TooLong
  deriving DecidableEq, Repr

/-- `tagfile` up to the closing of the output file: its bytes, or the message it ends with. -/
def tagfile (a : TagArgs) : Except TagError (List UInt8) :=
  if 16 ≤ a.boardid.strlen then .error .boardIdTooLong
  else if 6 ≤ a.chipid.strlen then .error .chipIdTooLong
  else if a.neufbox4.any fun version => 73 ≤ version.strlen then .error .neufbox4TooLong
  else .ok ((a.writeParts.2.fseek 0).fwrite (buildTag a a.writeParts.1)).bytes

/-! ## Rounding to a power of two, and to anything -/

theorem align_add {x a : ℕ} (hx : x + a < 2 ^ 64) (hpos : 0 < a) (ha : a < 2 ^ 32) :
    align x a + ((x + a - 1) % 2 ^ 32 &&& (a - 1)) = (x + a - 1) % 2 ^ 32 := by
  rw [align, Nat.mod_eq_of_lt hx, wrapSub_of_le (by omega) hx, wrapSub_of_le hpos ha]
  exact and_not_mask_add (by omega) _

theorem align_pow {x k : ℕ} (hx : x + 2 ^ k < 2 ^ 64) (hk : k < 32) :
    align x (2 ^ k) = roundUp x (2 ^ k) % 2 ^ 32 := by
  have hpos : 0 < 2 ^ k := by positivity
  have hbits : (2 : ℕ) ^ k < 2 ^ 32 := Nat.pow_lt_pow_right (by norm_num) hk
  have hsum := align_add hx hpos hbits
  rw [Nat.and_two_pow_sub_one_eq_mod, Nat.mod_mod_of_dvd _ (pow_dvd_pow 2 hk.le)] at hsum
  have hround : roundUp x (2 ^ k) + (x + 2 ^ k - 1) % 2 ^ k = x + 2 ^ k - 1 :=
    Nat.div_add_mod' (x + 2 ^ k - 1) (2 ^ k)
  have hlow : (x + 2 ^ k - 1) % 2 ^ k ≤ (x + 2 ^ k - 1) % 2 ^ 32 := by
    rw [← Nat.mod_mod_of_dvd (x + 2 ^ k - 1) (pow_dvd_pow 2 hk.le)]
    exact Nat.mod_le _ _
  generalize (x + 2 ^ k - 1) % 2 ^ k = low at *
  omega

theorem align_zero (a : ℕ) (ha : a < 2 ^ 32) : align 0 a = 0 := by
  rcases Nat.eq_zero_or_pos a with rfl | hpos
  · rfl
  · have hsum := align_add (by omega : 0 + a < 2 ^ 64) hpos ha
    rw [Nat.zero_add, Nat.mod_eq_of_lt (by omega), Nat.and_self] at hsum
    omega

theorem align_lt (x a : ℕ) : align x a < 2 ^ 32 :=
  lt_of_le_of_lt Nat.and_le_right (by omega)

/-! ## Writing the parts -/

namespace OutFile

@[simp] theorem fwrite_nil (f : OutFile) : f.fwrite [] = f := if_pos rfl

theorem fwrite_at_end {f : OutFile} {bs : List UInt8} (hbs : bs ≠ []) (hpos : f.bytes.length ≤ f.pos) :
    f.fwrite bs =
      ⟨f.bytes ++ List.replicate (f.pos - f.bytes.length) 0 ++ bs, f.pos + bs.length⟩ := by
  have hlen : (f.bytes ++ List.replicate (f.pos - f.bytes.length) 0).length = f.pos := by
    rw [List.length_append, List.length_replicate]
    omega
  rw [fwrite, if_neg hbs, overlay, List.take_of_length_le hlen.le, List.drop_eq_nil_of_le (by omega),
    List.append_nil]

theorem fwrite_length {f : OutFile} {bs : List UInt8} (hbs : bs ≠ []) :
    (f.fwrite bs).bytes.length = max f.bytes.length (f.pos + bs.length) := by
  rw [fwrite, if_neg hbs]
  simp only [overlay, List.length_append, List.length_take, List.length_drop, List.length_replicate]
  omega

theorem fwrite_append (f : OutFile) (xs ys : List UInt8) :
    (f.fwrite xs).fwrite ys = f.fwrite (xs ++ ys) := by
  by_cases hxs : xs = []
  · rw [hxs, fwrite_nil, List.nil_append]
  by_cases hys : ys = []
  · rw [hys, List.append_nil, fwrite_nil]
  have hlen : (f.fwrite xs).bytes.length = max f.bytes.length (f.pos + xs.length) := fwrite_length hxs
  have hpos : (f.fwrite xs).pos = f.pos + xs.length := by rw [fwrite, if_neg hxs]
  have hgap : (f.fwrite xs).pos - (f.fwrite xs).bytes.length = 0 := by omega
  rw [fwrite, if_neg hys, hgap, List.replicate_zero, List.append_nil, hpos, fwrite, if_neg hxs,
    overlay_append (by rw [List.length_append, List.length_replicate]; omega), fwrite,
    if_neg (by simp [hxs]), List.length_append, Nat.add_assoc]

end OutFile

theorem copyFile_eq (crc : ℕ) (f : OutFile) (data : List UInt8) :
    copyFile crc f data = (crc32 crc data, f.fwrite data) := by
  fun_induction copyFile crc f data with
  | case1 crc f data h => rfl
  | case2 crc f data h ih =>
    rw [ih, OutFile.fwrite_append, List.take_append_drop, crc32, crc32, crc32, ← Crc32.update_append,
      List.take_append_drop]

namespace TagArgs
variable (a : TagArgs)

/-- The header and the kernel, as they stand behind the tag. -/
def kernelPart : List UInt8 := a.khdr ++ a.kernel

theorem khdr_length : a.khdr.length = 12 := rfl

theorem kernelPart_length : a.kernelPart.length = a.kernellen := by
  rw [kernelPart, List.length_append, khdr_length, kernellen, Nat.add_comm]

/-- Where the root file system is written: at its aligned address, or right behind the kernel when
the seek is refused. -/
def rootfsPos : ℕ :=
  if wrapSub 64 a.rootfsoff a.fwaddr < 2 ^ 63 then wrapSub 64 a.rootfsoff a.fwaddr else 256 + a.kernellen

theorem writeParts_eq :
    a.writeParts = (crc32 imagetagCrcStart (a.kernelPart ++ a.rootfs),
      (OutFile.mk (List.replicate 256 0 ++ a.kernelPart) a.rootfsPos).fwrite a.rootfs) := by
  have hfw := a.fwaddrBits
  have hseek : (OutFile.mk [] 0).fseek (wrapSub 64 a.kerneloff a.fwaddr) = ⟨[], 256⟩ := by
    rw [kerneloff, wrapSub_of_le (by omega) (by omega), Nat.add_sub_cancel_left]
    rfl
  have hpart : (OutFile.mk [] 256).fwrite a.kernelPart =
      ⟨List.replicate 256 0 ++ a.kernelPart, 256 + a.kernellen⟩ := by
    have hne : a.kernelPart ≠ [] := by
      apply List.ne_nil_of_length_pos
      rw [kernelPart_length, kernellen]
      omega
    rw [OutFile.fwrite_at_end (f := ⟨[], 256⟩) hne (Nat.zero_le 256), kernelPart_length]
    rfl
  have hpos : ∀ f : OutFile, f.pos = 256 + a.kernellen →
      f.fseek (wrapSub 64 a.rootfsoff a.fwaddr) = { f with pos := a.rootfsPos } := by
    intro f hf
    rw [OutFile.fseek, rootfsPos]
    split
    · rfl
    · rw [← hf]
  rw [writeParts, hseek, copyFile_eq, copyFile_eq, OutFile.fwrite_append]
  show (crc32 (crc32 (crc32 _ a.khdr) a.kernel) a.rootfs,
    (((OutFile.mk [] 256).fwrite a.kernelPart).fseek (wrapSub 64 a.rootfsoff a.fwaddr)).fwrite a.rootfs) = _
  rw [hpart, hpos _ rfl, kernelPart, crc32, crc32, crc32, crc32, Crc32.update_append, Crc32.update_append]

/-- What follows the tag in the image. -/
def imageData : List UInt8 := a.writeParts.2.bytes.drop 256

theorem imageData_length :
    a.imageData.length = if a.rootfs = [] then a.kernellen
      else max a.kernellen (a.rootfsPos + a.rootfs.length - 256) := by
  rw [imageData, List.length_drop, writeParts_eq]
  split
  · next hroot =>
    rw [hroot, OutFile.fwrite_nil, List.length_append, List.length_replicate, kernelPart_length]
    omega
  · next hroot =>
    rw [OutFile.fwrite_length hroot]
    simp only [List.length_append, List.length_replicate, kernelPart_length]
    omega

theorem imageData_length_ge : a.kernellen ≤ a.imageData.length := by
  rw [imageData_length]
  split
  · exact le_refl _
  · exact le_max_left _ _

/-- As long as the root file system does not start inside the kernel, the image holds the parts in
order, with zeros between them. -/
theorem imageData_eq (hpos : 256 + a.kernellen ≤ a.rootfsPos) (hroot : a.rootfs ≠ []) :
    a.imageData = a.kernelPart ++ List.replicate (a.rootfsPos - (256 + a.kernellen)) 0 ++ a.rootfs := by
  have hlen : (List.replicate 256 (0 : UInt8) ++ a.kernelPart).length = 256 + a.kernellen := by
    rw [List.length_append, List.length_replicate, kernelPart_length]
  rw [imageData, writeParts_eq, OutFile.fwrite_at_end hroot (hlen.le.trans hpos), hlen]
  simp only [List.append_assoc]
  rw [List.drop_left' (List.length_replicate ..)]

theorem imageData_nil (hroot : a.rootfs = []) : a.imageData = a.kernelPart := by
  rw [imageData, writeParts_eq, hroot, OutFile.fwrite_nil, List.drop_left' (List.length_replicate ..)]

end TagArgs

/-! ## The bytes of the tag -/

/-- What `tagfile` checks. -/
structure Accepted (a : TagArgs) : Prop where
  board : a.boardid.strlen < 16
  chip : a.chipid.strlen < 6
  version : ∀ v, a.neufbox4 = some v → v.strlen < 73

theorem strncpy_length (n : ℕ) (s : CStr) : (strncpy n s).length = n := by
  simp [strncpy]

theorem strcpy_length (s : CStr) : (strcpy s).length = s.strlen + 1 := by
  simp [strcpy, CStr.strlen]

theorem sprintfLu_length {n k : ℕ} (hk : 0 < k) (hn : n < 10 ^ k) : (sprintfLu n).length ≤ k + 1 := by
  rw [sprintfLu, List.length_append]
  exact Nat.add_le_add_right (decimal_length_le hk hn) 1

section Tag
variable {a : TagArgs} (crc : ℕ)

def headerCrc (a : TagArgs) (crc : ℕ) : List UInt8 :=
  beBytes (crc32 imagetagCrcStart ((overlays (List.replicate 256 0) (tagWrites a crc)).take 236))

/-- All stores into the tag, the checksum of the header last. -/
def allWrites (a : TagArgs) (crc : ℕ) : List (ℕ × List UInt8) := tagWrites a crc ++ [(236, headerCrc a crc)]

theorem buildTag_eq : buildTag a crc = overlays (List.replicate 256 0) (allWrites a crc) := by
  rw [allWrites, overlays_append]
  rfl

theorem allWrites_fit (ha : Accepted a) :
    ∀ w ∈ allWrites a crc, w.1 + w.2.length ≤ (List.replicate 256 (0 : UInt8)).length := by
  have hver := a.verFits
  have hkernel := a.kernelSize
  have hfw := a.fwaddrBits
  have hoff : a.rootfsoff < 2 ^ 32 := align_lt _ _
  have hlen : a.rootfslen < 2 ^ 32 := align_lt _ _
  have htotal : (sprintfLu (a.kernellen + a.rootfslen)).length ≤ 21 :=
    sprintfLu_length (by norm_num) (by rw [TagArgs.kernellen]; omega)
  have hkoff : (sprintfLu a.kerneloff).length ≤ 21 :=
    sprintfLu_length (by norm_num) (by rw [TagArgs.kerneloff]; omega)
  have hklen : (sprintfLu a.kernellen).length ≤ 21 :=
    sprintfLu_length (by norm_num) (by rw [TagArgs.kernellen]; omega)
  have hroff : (sprintfLu a.rootfsoff).length ≤ 21 := sprintfLu_length (by norm_num) (by omega)
  have hrlen : (sprintfLu a.rootfslen).length ≤ 21 := sprintfLu_length (by norm_num) (by omega)
  have hboard := ha.board
  have hchip := ha.chip
  intro w hw
  rw [List.length_replicate]
  simp only [allWrites, tagWrites, identWrites, List.mem_append, List.mem_cons, List.not_mem_nil,
    or_false] at hw
  rcases hw with (((hw | hw) | hw) | hw) | hw
  · rcases hw with rfl | rfl | rfl | rfl | rfl | rfl <;>
      simp only [strcpy_length, strncpy_length, List.length_cons, List.length_nil] <;> omega
  · subst hw
    simp only
    omega
  · unfold versionWrites at hw
    split at hw
    · next v hv =>
      have hlt := ha.version v hv
      simp only [List.mem_cons, List.not_mem_nil, or_false] at hw
      rcases hw with rfl | rfl <;> simp only [strcpy_length, List.length_singleton] <;> omega
    · exact absurd hw List.not_mem_nil
  · rcases hw with rfl | rfl | rfl | rfl | rfl | rfl | rfl <;>
      simp only [List.length_cons, List.length_nil, beBytes_length] <;> omega
  · subst hw
    simp only [headerCrc, beBytes_length]
    omega

theorem buildTag_length (ha : Accepted a) : (buildTag a crc).length = 256 := by
  rw [buildTag_eq, overlays_length (allWrites_fit crc ha), List.length_replicate]

theorem tagfile_accepted (ha : Accepted a) :
    tagfile a = .ok (buildTag a a.writeParts.1 ++ a.imageData) := by
  have hboard := ha.board
  have hchip := ha.chip
  have hversion : ¬ (a.neufbox4.any fun version => 73 ≤ version.strlen) = true := by
    cases hv : a.neufbox4 with
    | none => simp
    | some v => simpa using ha.version v hv
  have hlen := buildTag_length a.writeParts.1 ha
  have hne : buildTag a a.writeParts.1 ≠ [] := List.ne_nil_of_length_pos (by omega)
  have hfile : (a.writeParts.2.fseek 0).fwrite (buildTag a a.writeParts.1) =
      ⟨buildTag a a.writeParts.1 ++ a.imageData, 256⟩ := by
    rw [OutFile.fseek, if_pos (by norm_num), OutFile.fwrite, if_neg hne, hlen]
    simp only [Nat.zero_sub, List.replicate_zero, List.append_nil, Nat.zero_add]
    rw [overlay, hlen, List.take_zero, List.nil_append, Nat.zero_add, TagArgs.imageData]
  rw [tagfile, if_neg (by omega), if_neg (by omega), if_neg hversion, hfile]

theorem tagfile_cases {file : List UInt8} (h : tagfile a = .ok file) :
    Accepted a ∧ file = buildTag a a.writeParts.1 ++ a.imageData := by
  unfold tagfile at h
  split at h
  · cases h
  split at h
  · cases h
  split at h
  · cases h
  next hboard hchip hversion =>
    have hacc : Accepted a := by
      refine ⟨by omega, by omega, fun v hv => ?_⟩
      rw [hv] at hversion
      simpa using hversion
    have hok := tagfile_accepted hacc
    rw [tagfile, if_neg hboard, if_neg hchip, if_neg hversion, h] at hok
    exact ⟨hacc, Except.ok.inj hok⟩

/-- A store of `buildTag` that no later store touches is found in the tag. -/
theorem tag_slice (ha : Accepted a) {ws vs : List (ℕ × List UInt8)} {off n : ℕ} {bs : List UInt8}
    (hsplit : allWrites a crc = ws ++ (off, bs) :: vs) (hn : n ≤ bs.length)
    (hvs : ∀ v ∈ vs, v.1 + v.2.length ≤ off ∨ off + n ≤ v.1) :
    ((buildTag a crc).drop off).take n = bs.take n := by
  have hfit := allWrites_fit crc ha
  rw [hsplit] at hfit
  rw [buildTag_eq, hsplit]
  exact overlays_slice hfit hn hvs

theorem versionWrites_behind {v : ℕ × List UInt8} (hv : v ∈ versionWrites a) : 142 ≤ v.1 := by
  unfold versionWrites at hv
  split at hv
  · simp only [List.mem_cons, List.not_mem_nil, or_false] at hv
    rcases hv with rfl | rfl <;> norm_num
  · exact absurd hv List.not_mem_nil

theorem imagecrc_slice (ha : Accepted a) : ((buildTag a crc).drop 216).take 4 = beBytes crc := by
  have hsplit : allWrites a crc =
      (identWrites a ++ [(62, sprintfLu (a.kernellen + a.rootfslen))] ++ versionWrites a ++
        [(72, [48, 0]), (84, [48, 0]), (116, sprintfLu a.kerneloff), (128, sprintfLu a.kernellen),
          (94, sprintfLu a.rootfsoff), (106, sprintfLu a.rootfslen)]) ++
      (216, beBytes crc) :: [(236, headerCrc a crc)] := by
    simp [allWrites, tagWrites]
  have hslice := tag_slice crc ha hsplit (le_refl 4) (by simp)
  rw [hslice]
  rfl

theorem imagelen_slice (ha : Accepted a) {n : ℕ} (hn : n ≤ 10)
    (hlen : n ≤ (sprintfLu (a.kernellen + a.rootfslen)).length) :
    ((buildTag a crc).drop 62).take n = (sprintfLu (a.kernellen + a.rootfslen)).take n := by
  have hsplit : allWrites a crc = identWrites a ++ (62, sprintfLu (a.kernellen + a.rootfslen)) ::
      (versionWrites a ++ [(72, [48, 0]), (84, [48, 0]), (116, sprintfLu a.kerneloff),
        (128, sprintfLu a.kernellen), (94, sprintfLu a.rootfsoff), (106, sprintfLu a.rootfslen),
        (216, beBytes crc), (236, headerCrc a crc)]) := by
    simp [allWrites, tagWrites]
  apply tag_slice crc ha hsplit hlen
  intro v hv
  right
  rcases List.mem_append.mp hv with hv | hv
  · exact le_trans (by omega) (versionWrites_behind hv)
  · simp only [List.mem_cons, List.not_mem_nil, or_false] at hv
    rcases hv with rfl | rfl | rfl | rfl | rfl | rfl | rfl | rfl <;> simp only <;> omega

/-- The stores behind the one of the kernel length. -/
def rootfsWrites (a : TagArgs) (crc : ℕ) : List (ℕ × List UInt8) :=
  [(94, sprintfLu a.rootfsoff), (106, sprintfLu a.rootfslen), (216, beBytes crc), (236, headerCrc a crc)]

def earlyWrites (a : TagArgs) : List (ℕ × List UInt8) :=
  identWrites a ++ [(62, sprintfLu (a.kernellen + a.rootfslen))] ++ versionWrites a ++
    [(72, [48, 0]), (84, [48, 0])]

theorem allWrites_eq : allWrites a crc =
    earlyWrites a ++ [(116, sprintfLu a.kerneloff), (128, sprintfLu a.kernellen)] ++ rootfsWrites a crc := by
  simp [allWrites, tagWrites, earlyWrites, rootfsWrites]

theorem rootfsAddress_slice (ha : Accepted a) (hlen : (sprintfLu a.rootfsoff).length ≤ 12) :
    ((buildTag a crc).drop 94).take (sprintfLu a.rootfsoff).length = sprintfLu a.rootfsoff := by
  have hslice := tag_slice crc ha (by rw [allWrites_eq]; rfl) (le_refl (sprintfLu a.rootfsoff).length)
    (by simp; omega)
  rw [hslice, List.take_length]

theorem rootfsLen_slice (ha : Accepted a) (hlen : (sprintfLu a.rootfslen).length ≤ 12) :
    ((buildTag a crc).drop 106).take (sprintfLu a.rootfslen).length = sprintfLu a.rootfslen := by
  have hsplit : allWrites a crc =
      (earlyWrites a ++ [(116, sprintfLu a.kerneloff), (128, sprintfLu a.kernellen)] ++
        [(94, sprintfLu a.rootfsoff)]) ++
      (106, sprintfLu a.rootfslen) :: [(216, beBytes crc), (236, headerCrc a crc)] := by
    simp [allWrites_eq, rootfsWrites]
  have hslice := tag_slice crc ha hsplit (le_refl (sprintfLu a.rootfslen).length) (by simp; omega)
  rw [hslice, List.take_length]

theorem kernelAddress_slice (ha : Accepted a) (hroot : (sprintfLu a.rootfslen).length ≤ 10)
    (hoff : (sprintfLu a.rootfsoff).length ≤ 12) (hlen : (sprintfLu a.kerneloff).length ≤ 12) :
    ((buildTag a crc).drop 116).take (sprintfLu a.kerneloff).length = sprintfLu a.kerneloff := by
  have hsplit : allWrites a crc = earlyWrites a ++
      (116, sprintfLu a.kerneloff) :: (128, sprintfLu a.kernellen) :: rootfsWrites a crc := by
    simp [allWrites_eq]
  have hslice := tag_slice crc ha hsplit (le_refl (sprintfLu a.kerneloff).length)
    (by simp [rootfsWrites]; omega)
  rw [hslice, List.take_length]

theorem kernelLen_slice (ha : Accepted a) (hroot : (sprintfLu a.rootfslen).length ≤ 12)
    (hoff : (sprintfLu a.rootfsoff).length ≤ 12) (hlen : (sprintfLu a.kernellen).length ≤ 12) :
    ((buildTag a crc).drop 128).take (sprintfLu a.kernellen).length = sprintfLu a.kernellen := by
  have hsplit : allWrites a crc = (earlyWrites a ++ [(116, sprintfLu a.kerneloff)]) ++
      (128, sprintfLu a.kernellen) :: rootfsWrites a crc := by
    simp [allWrites_eq]
  have hslice := tag_slice crc ha hsplit (le_refl (sprintfLu a.kernellen).length)
    (by simp [rootfsWrites]; omega)
  rw [hslice, List.take_length]

/-- The slots of the tag are read from the image alike. -/
theorem image_slice (ha : Accepted a) (data : List UInt8) {off n : ℕ} (hoff : off + n ≤ 256) :
    ((buildTag a crc ++ data).drop off).take n = ((buildTag a crc).drop off).take n := by
  have hlen := buildTag_length crc ha
  rw [List.drop_append_of_le_length (by omega),
    List.take_append_of_le_length (by rw [List.length_drop]; omega)]

end Tag

/-! ## A small image -/

theorem no_byte_size : ([] : List UInt8).length < 2 ^ 63 := Nat.two_pow_pos 63

theorem one_byte_size : ([7] : List UInt8).length < 2 ^ 63 := by norm_num

theorem block_64k_size : 2 ^ 16 < 2 ^ 32 := by norm_num

/-- Two files with the usual firmware address and no texts. -/
def plainImage (kernel rootfs : List UInt8) (flashBs : ℕ) (hkernel : kernel.length < 2 ^ 63)
    (hroot : rootfs.length < 2 ^ 63) (hbs : flashBs < 2 ^ 32) : TagArgs where
  kernel := kernel
  rootfs := rootfs
  boardid := .empty
  chipid := .empty
  ver := .empty
  magic2 := .empty
  neufbox4 := none
  fwaddr := 0xBFC10000
  loadaddr := 0x80010000
  entry := 0x80010000
  flashBs := flashBs
  kernelSize := hkernel
  rootfsSize := hroot
  verFits := by norm_num [CStr.empty, CStr.strlen]
  fwaddrBits := by norm_num
  flashBsBits := hbs

theorem plainImage_accepted (kernel rootfs : List UInt8) (flashBs : ℕ) (hkernel : kernel.length < 2 ^ 63)
    (hroot : rootfs.length < 2 ^ 63) (hbs : flashBs < 2 ^ 32) :
    Accepted (plainImage kernel rootfs flashBs hkernel hroot hbs) :=
  ⟨by norm_num [plainImage, CStr.empty, CStr.strlen], by norm_num [plainImage, CStr.empty, CStr.strlen],
    fun v hv => by simp [plainImage] at hv⟩

end Neufbox.ImageTag
