import Neufbox.ImageTag.TagDescribes
import Mathlib.Data.List.DropRight

/-! # Naming a firmware image

`mkfirmware` puts the name of the output file and the network into the tag of a finished image and computes the
checksum of the header again. Its tag is `FILE_TAG` of `bcmTag.h`, with a table and a checksum routine of its own. -/
namespace Neufbox.ImageTag
open ByteStore Blocks CString
set_option autoImplicit false
set_option maxHeartbeats 250000
set_option maxRecDepth 120000

/-! ## The checksum of the header -/

/-- The entries are of type `unsigned long`. -/
def Crc32_table : List ℕ :=
  [0x00000000, 0x77073096, 0xEE0E612C, 0x990951BA, 0x076DC419, 0x706AF48F, 0xE963A535, 0x9E6495A3,
   0x0EDB8832, 0x79DCB8A4, 0xE0D5E91E, 0x97D2D988, 0x09B64C2B, 0x7EB17CBD, 0xE7B82D07, 0x90BF1D91,
   0x1DB71064, 0x6AB020F2, 0xF3B97148, 0x84BE41DE, 0x1ADAD47D, 0x6DDDE4EB, 0xF4D4B551, 0x83D385C7,
   0x136C9856, 0x646BA8C0, 0xFD62F97A, 0x8A65C9EC, 0x14015C4F, 0x63066CD9, 0xFA0F3D63, 0x8D080DF5,
   0x3B6E20C8, 0x4C69105E, 0xD56041E4, 0xA2677172, 0x3C03E4D1, 0x4B04D447, 0xD20D85FD, 0xA50AB56B,
   0x35B5A8FA, 0x42B2986C, 0xDBBBC9D6, 0xACBCF940, 0x32D86CE3, 0x45DF5C75, 0xDCD60DCF, 0xABD13D59,
   0x26D930AC, 0x51DE003A, 0xC8D75180, 0xBFD06116, 0x21B4F4B5, 0x56B3C423, 0xCFBA9599, 0xB8BDA50F,
   0x2802B89E, 0x5F058808, 0xC60CD9B2, 0xB10BE924, 0x2F6F7C87, 0x58684C11, 0xC1611DAB, 0xB6662D3D,
   0x76DC4190, 0x01DB7106, 0x98D220BC, 0xEFD5102A, 0x71B18589, 0x06B6B51F, 0x9FBFE4A5, 0xE8B8D433,
   0x7807C9A2, 0x0F00F934, 0x9609A88E, 0xE10E9818, 0x7F6A0DBB, 0x086D3D2D, 0x91646C97, 0xE6635C01,
   0x6B6B51F4, 0x1C6C6162, 0x856530D8, 0xF262004E, 0x6C0695ED, 0x1B01A57B, 0x8208F4C1, 0xF50FC457,
   0x65B0D9C6, 0x12B7E950, 0x8BBEB8EA, 0xFCB9887C, 0x62DD1DDF, 0x15DA2D49, 0x8CD37CF3, 0xFBD44C65,
   0x4DB26158, 0x3AB551CE, 0xA3BC0074, 0xD4BB30E2, 0x4ADFA541, 0x3DD895D7, 0xA4D1C46D, 0xD3D6F4FB,
   0x4369E96A, 0x346ED9FC, 0xAD678846, 0xDA60B8D0, 0x44042D73, 0x33031DE5, 0xAA0A4C5F, 0xDD0D7CC9,
   0x5005713C, 0x270241AA, 0xBE0B1010, 0xC90C2086, 0x5768B525, 0x206F85B3, 0xB966D409, 0xCE61E49F,
   0x5EDEF90E, 0x29D9C998, 0xB0D09822, 0xC7D7A8B4, 0x59B33D17, 0x2EB40D81, 0xB7BD5C3B, 0xC0BA6CAD,
   0xEDB88320, 0x9ABFB3B6, 0x03B6E20C, 0x74B1D29A, 0xEAD54739, 0x9DD277AF, 0x04DB2615, 0x73DC1683,
   0xE3630B12, 0x94643B84, 0x0D6D6A3E, 0x7A6A5AA8, 0xE40ECF0B, 0x9309FF9D, 0x0A00AE27, 0x7D079EB1,
   0xF00F9344, 0x8708A3D2, 0x1E01F268, 0x6906C2FE, 0xF762575D, 0x806567CB, 0x196C3671, 0x6E6B06E7,
   0xFED41B76, 0x89D32BE0, 0x10DA7A5A, 0x67DD4ACC, 0xF9B9DF6F, 0x8EBEEFF9, 0x17B7BE43, 0x60B08ED5,
   0xD6D6A3E8, 0xA1D1937E, 0x38D8C2C4, 0x4FDFF252, 0xD1BB67F1, 0xA6BC5767, 0x3FB506DD, 0x48B2364B,
   0xD80D2BDA, 0xAF0A1B4C, 0x36034AF6, 0x41047A60, 0xDF60EFC3, 0xA867DF55, 0x316E8EEF, 0x4669BE79,
   0xCB61B38C, 0xBC66831A, 0x256FD2A0, 0x5268E236, 0xCC0C7795, 0xBB0B4703, 0x220216B9, 0x5505262F,
   0xC5BA3BBE, 0xB2BD0B28, 0x2BB45A92, 0x5CB36A04, 0xC2D7FFA7, 0xB5D0CF31, 0x2CD99E8B, 0x5BDEAE1D,
   0x9B64C2B0, 0xEC63F226, 0x756AA39C, 0x026D930A, 0x9C0906A9, 0xEB0E363F, 0x72076785, 0x05005713,
   0x95BF4A82, 0xE2B87A14, 0x7BB12BAE, 0x0CB61B38, 0x92D28E9B, 0xE5D5BE0D, 0x7CDCEFB7, 0x0BDBDF21,
   0x86D3D2D4, 0xF1D4E242, 0x68DDB3F8, 0x1FDA836E, 0x81BE16CD, 0xF6B9265B, 0x6FB077E1, 0x18B74777,
   0x88085AE6, 0xFF0F6A70, 0x66063BCA, 0x11010B5C, 0x8F659EFF, 0xF862AE69, 0x616BFFD3, 0x166CCF45,
   0xA00AE278, 0xD70DD2EE, 0x4E048354, 0x3903B3C2, 0xA7672661, 0xD06016F7, 0x4969474D, 0x3E6E77DB,
   0xAED16A4A, 0xD9D65ADC, 0x40DF0B66, 0x37D83BF0, 0xA9BCAE53, 0xDEBB9EC5, 0x47B2CF7F, 0x30B5FFE9,
   0xBDBDF21C, 0xCABAC28A, 0x53B39330, 0x24B4A3A6, 0xBAD03605, 0xCDD70693, 0x54DE5729, 0x23D967BF,
   0xB3667A2E, 0xC4614AB8, 0x5D681B02, 0x2A6F2B94, 0xB40BBE37, 0xC30C8EA1, 0x5A05DF1B, 0x2D02EF8D]

def crc32InitValue : ℕ := 0xffffffff

/-- The entry has 64 bits on the host; `crc` keeps 32 of them. -/
def cc32 (p : List UInt8) (crc : ℕ) : ℕ :=
  p.foldl (fun crc b => ((crc >>> 8) ^^^ Crc32_table.getD ((crc ^^^ b.toNat) &&& 0xff) 0) % 2 ^ 32) crc

/-! ## The names -/

def toupper (b : UInt8) : UInt8 := if 97 ≤ b ∧ b ≤ 122 then b - 32 else b

theorem toupper_ne_zero {b : UInt8} (h : b ≠ 0) : toupper b ≠ 0 := by
  rw [toupper]
  split
  · next hlow =>
    intro hzero
    have hle := UInt8.le_iff_toNat_le.mp hlow.1
    have hsub := UInt8.toNat_sub_of_le b 32 (UInt8.le_iff_toNat_le.mpr ((by decide : 32 ≤ 97).trans hle))
    rw [hzero] at hsub
    simp at hsub hle
    omega
  · exact h

def strtoupper (s : CStr) : CStr where
  bytes := s.bytes.map toupper
  nulFree := by
    intro hmem
    obtain ⟨b, hb, hzero⟩ := List.mem_map.mp hmem
    exact toupper_ne_zero (fun h => s.nulFree (h ▸ hb)) hzero

/-- A path without the slashes at its end. -/
def trimmed (path : CStr) : List UInt8 := path.bytes.rdropWhile (· = 47)

/-- `basename` of `libgen.h`. -/
def basename (path : CStr) : CStr where
  bytes := if path.bytes = [] then [46] else if trimmed path = [] then [47] else (trimmed path).rtakeWhile (· ≠ 47)
  nulFree := by
    split
    · simp
    · split
      · simp
      · intro hmem
        exact path.nulFree ((List.rdropWhile_prefix _ _).subset ((List.rtakeWhile_suffix _ _).subset hmem))

/-- The path when `strtoupper` has changed its last part in place. -/
def renamed (path : CStr) : List UInt8 :=
  (trimmed path).rdropWhile (· ≠ 47) ++ (strtoupper (basename path)).bytes ++ path.bytes.rtakeWhile (· = 47)

/-! ## The tool -/

/-- Where `version` and `net_infra` lie: these members of `FILE_TAG` take the place of the fields that `imagetag`
calls `neufbox4` and `net_infra`. -/
structure FileTag where
  version : ℕ
  versionSize : ℕ
  netInfra : ℕ
  version_ge : 142 ≤ version
  version_le : version + versionSize ≤ 216
  netInfra_ge : 142 ≤ netInfra
  netInfra_lt : netInfra < 216

def netInfraMagic : UInt8 := 0xE0

def netInfraAdsl : UInt8 := 0

def netInfraFtth : UInt8 := 1

/-- What `net_infra[0]` is set to. -/
def netInfraByte (arg : CStr) : Option UInt8 :=
  if arg = .lit "adsl" then some (netInfraAdsl ||| netInfraMagic)
  else if arg = .lit "ftth" then some (netInfraFtth ||| netInfraMagic)
  else none

/-- The buffer when it is written, the checksum of the header last. -/
def nameTag (t : FileTag) (out netInfra : CStr) (buffer : List UInt8) : List UInt8 :=
  let buffer := overlay buffer t.version (strncpy t.versionSize (strtoupper (basename out)))
  let buffer := match netInfraByte netInfra with
    | some b => overlay buffer t.netInfra [b]
    | none => buffer
  overlay buffer 236 (beBytes (cc32 (buffer.take 236) crc32InitValue))

/-- What `main` returns after the file is written. -/
inductive Verdict
  | success
  | tooBig
  | unknownKind
  deriving DecidableEq

def mainFirmwareSize : ℕ := 5 * 2 ^ 20 + 320 * 2 ^ 10

def rescueFirmwareSize : ℕ := 2 ^ 20 + 512 * 2 ^ 10

def strstr (haystack needle : List UInt8) : Bool := haystack.tails.any (needle.isPrefixOf ·)

def checkSize (out : List UInt8) (size : ℕ) : Verdict :=
  if strstr out (CStr.lit "MAIN").bytes then if mainFirmwareSize ≤ size then .tooBig else .success
  else if strstr out (CStr.lit "RESCUE").bytes then if rescueFirmwareSize ≤ size then .tooBig else .success
  else .unknownKind

/-- The bytes of the new file and the verdict. `out` is a path that could be opened for writing. -/
def mkfirmware (t : FileTag) (image : List UInt8) (out netInfra : CStr) : List UInt8 × Verdict :=
  (nameTag t out netInfra image, checkSize (renamed out) image.length)

/-! ## Both checksums -/

theorem crc32_table_same : Crc32_table = crc32tab := rfl

/-- The two routines compute the same. -/
theorem cc32_eq {crc : ℕ} (hcrc : crc < 2 ^ 32) (p : List UInt8) : cc32 p crc = crc32 crc p := by
  induction p generalizing crc with
  | nil => rfl
  | cons b p ih =>
    have hstep := Crc32.step_lt crcTable hcrc b
    have hsame : ((crc >>> 8) ^^^ Crc32_table.getD ((crc ^^^ b.toNat) &&& 0xff) 0) % 2 ^ 32 =
        Crc32.step crcTable crc b := by
      rw [crc32_table_same]
      exact Nat.mod_eq_of_lt hstep
    rw [cc32, List.foldl_cons, hsame]
    exact ih hstep

/-! ## What is kept -/

/-- The bytes outside of the version, the network and the checksum. -/
def Kept (i : ℕ) : Prop := i < 142 ∨ 216 ≤ i ∧ i < 236 ∨ 240 ≤ i

/-- An image whose header has its checksum. -/
def HeaderValid (image : List UInt8) : Prop :=
  (image.drop 236).take 4 = beBytes (crc32 imagetagCrcStart (image.take 236))

/-- Putting the checksum in makes a header valid, whatever follows it. -/
theorem headerValid_overlay (named : List UInt8) (hlen : 240 ≤ named.length) (data : List UInt8) :
    HeaderValid (overlay named 236 (beBytes (crc32 imagetagCrcStart (named.take 236))) ++ data) := by
  generalize hcrc : beBytes (crc32 imagetagCrcStart (named.take 236)) = crc
  have hfour : crc.length = 4 := by rw [← hcrc, beBytes_length]
  have htake : (named.take 236).length = 236 := List.length_take_of_le (by omega)
  have hcovered : (overlay named 236 crc ++ data).take 236 = named.take 236 := by
    rw [overlay, List.append_assoc, List.take_left' htake]
  have hfield : ((overlay named 236 crc ++ data).drop 236).take 4 = crc := by
    rw [overlay, List.append_assoc, List.drop_left' htake, List.append_assoc, List.take_left' hfour]
  rw [HeaderValid, hcovered, hfield, hcrc]

section Name
variable (t : FileTag) (out netInfra : CStr) {image : List UInt8}

/-- The buffer before its checksum is put in. -/
theorem nameTag_split (hlen : 256 ≤ image.length) : ∃ named : List UInt8, named.length = image.length ∧
    (∀ i, i < 142 ∨ 216 ≤ i → named[i]? = image[i]?) ∧
    nameTag t out netInfra image = overlay named 236 (beBytes (crc32 imagetagCrcStart (named.take 236))) := by
  have hver := t.version_ge
  have hver' := t.version_le
  have hnet := t.netInfra_ge
  have hnet' := t.netInfra_lt
  have hname : (strncpy t.versionSize (strtoupper (basename out))).length = t.versionSize := strncpy_length _ _
  have hfit : t.version + (strncpy t.versionSize (strtoupper (basename out))).length ≤ image.length := by omega
  have hversion := overlay_length hfit
  have hcrc : crc32InitValue < 2 ^ 32 := by norm_num [crc32InitValue]
  cases hbyte : netInfraByte netInfra with
  | none =>
    refine ⟨_, hversion, fun i hi => overlay_get_outside hfit (by omega), ?_⟩
    rw [nameTag]
    simp only [hbyte, cc32_eq hcrc]
    rfl
  | some b =>
    have hfit' : t.netInfra + [b].length ≤
        (overlay image t.version (strncpy t.versionSize (strtoupper (basename out)))).length := by
      rw [hversion, List.length_singleton]
      omega
    refine ⟨overlay (overlay image t.version (strncpy t.versionSize (strtoupper (basename out)))) t.netInfra [b],
      (overlay_length hfit').trans hversion, fun i hi => ?_, ?_⟩
    · rw [overlay_get_outside hfit' (by rw [List.length_singleton]; omega), overlay_get_outside hfit (by omega)]
    · rw [nameTag]
      simp only [hbyte, cc32_eq hcrc]
      rfl

theorem nameTag_keeps (hlen : 256 ≤ image.length) : (nameTag t out netInfra image).length = image.length ∧
    (∀ i, Kept i → (nameTag t out netInfra image)[i]? = image[i]?) ∧ HeaderValid (nameTag t out netInfra image) := by
  obtain ⟨named, hnamed, hsame, heq⟩ := nameTag_split t out netInfra hlen
  have hfour := beBytes_length (crc32 imagetagCrcStart (named.take 236))
  have hfit : 236 + (beBytes (crc32 imagetagCrcStart (named.take 236))).length ≤ named.length := by omega
  refine ⟨?_, ?_, ?_⟩
  · rw [heq, overlay_length hfit, hnamed]
  · intro i hi
    unfold Kept at hi
    rw [heq, overlay_get_outside hfit (by omega), hsame i (by omega)]
  · have hvalid := headerValid_overlay named (by omega) []
    rwa [List.append_nil, ← heq] at hvalid

end Name

theorem slice_congr {xs ys : List UInt8} {off n : ℕ} (h : ∀ i, off ≤ i → i < off + n → xs[i]? = ys[i]?) :
    (xs.drop off).take n = (ys.drop off).take n := by
  apply List.ext_getElem?
  intro i
  by_cases hi : i < n
  · rw [List.getElem?_take_of_lt hi, List.getElem?_take_of_lt hi, List.getElem?_drop, List.getElem?_drop,
      h _ (by omega) (by omega)]
  · rw [List.getElem?_eq_none (by rw [List.length_take]; omega), List.getElem?_eq_none (by rw [List.length_take]; omega)]

/-- An image of `imagetag` has a valid header before and after it is named; its lengths and addresses (bytes 62 to
137) and its checksum stay, as does everything outside of the version, the network and the header's checksum. -/
theorem mkfirmware_keeps_tagged {a : TagArgs} {file : List UInt8} (h : tagfile a = .ok file) (t : FileTag)
    (out netInfra : CStr) :
    HeaderValid file ∧ HeaderValid (mkfirmware t file out netInfra).1 ∧
      (mkfirmware t file out netInfra).1.length = file.length ∧
      (∀ i, Kept i → (mkfirmware t file out netInfra).1[i]? = file[i]?) ∧
      ((mkfirmware t file out netInfra).1.drop 62).take 76 = (file.drop 62).take 76 ∧
      imagecrcField (mkfirmware t file out netInfra).1 = imagecrcField file := by
  obtain ⟨ha, rfl⟩ := tagfile_cases h
  have htag := buildTag_length a.writeParts.1 ha
  have hlen : 256 ≤ (buildTag a a.writeParts.1 ++ a.imageData).length := by
    rw [List.length_append]
    omega
  obtain ⟨hsize, hkept, hvalid⟩ := nameTag_keeps t out netInfra hlen
  refine ⟨?_, hvalid, hsize, hkept, ?_, ?_⟩
  · have hfits : ∀ w ∈ tagWrites a a.writeParts.1, w.1 + w.2.length ≤ (List.replicate 256 (0 : UInt8)).length :=
      fun w hw => allWrites_fit a.writeParts.1 ha w (List.mem_append_left _ hw)
    have hzeroed := overlays_length hfits
    rw [List.length_replicate] at hzeroed
    exact headerValid_overlay _ (by omega) a.imageData
  · exact slice_congr fun i hi hi' => hkept i (Or.inl (by omega))
  · rw [imagecrcField, imagecrcField]
    exact congrArg beWord (slice_congr fun i hi hi' => hkept i (Or.inr (Or.inl ⟨hi, by omega⟩)))

theorem imagetag_members : 142 + 73 ≤ 216 ∧ 142 ≤ 215 ∧ 215 < 216 := by norm_num

/-- The layout of `struct imagetag`. -/
def imagetagLayout : FileTag where
  version := 142
  versionSize := 73
  netInfra := 215
  version_ge := le_refl 142
  version_le := imagetag_members.1
  netInfra_ge := imagetag_members.2.1
  netInfra_lt := imagetag_members.2.2

theorem mkfirmware_keeps_full_block :
    HeaderValid (buildTag fullBlock fullBlock.writeParts.1 ++ fullBlock.imageData) ∧
      HeaderValid (mkfirmware imagetagLayout (buildTag fullBlock fullBlock.writeParts.1 ++ fullBlock.imageData)
        (.lit "out/NB4-MAIN-R2") (.lit "ftth")).1 := by
  have hkeeps := mkfirmware_keeps_tagged (tagfile_accepted (plainImage_accepted [] [1, 2, 3, 4] 4 no_byte_size (by decide)
    (by decide))) imagetagLayout (.lit "out/NB4-MAIN-R2") (.lit "ftth")
  exact ⟨hkeeps.1, hkeeps.2.1⟩

end Neufbox.ImageTag
