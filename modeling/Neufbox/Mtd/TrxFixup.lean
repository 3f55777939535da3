import Neufbox.ImageTag.MkFirmware
import Neufbox.Library.Fallible
import Neufbox.Trx.Layout

/-! # The checksum of a trx image on the flash

`mtd` makes its table of the checksum when it runs, of type `unsigned long`; `trx_fixup` computes the checksum of the
image at the front of a device again. The table is that of `imagetag`, `mkfirmware` and `trx`, and all four compute
what goes bit by bit. -/
namespace Neufbox.Mtd
open Memory ByteStore Trx WrapArith
set_option autoImplicit false
set_option maxHeartbeats 250000
set_option maxRecDepth 120000

/-! ## The table -/

section Long
-- the bits of an `unsigned long`
variable (w : ℕ)

def poly : BitVec w := 0xEDB88320#w

/-- The inner loop of `init_crc32`. -/
def crcBits : ℕ → BitVec w → BitVec w
  | 0, crc => crc
  | bit + 1, crc => crcBits bit (if crc &&& 1#w ≠ 0#w then poly w ^^^ (crc >>> 1) else crc >>> 1)

def initCrc32 : List (BitVec w) := (List.range 256).map fun n => crcBits w 8 (BitVec.ofNat w n)

/-- A turn of the loop of `crc32buf`; `crc` keeps 32 bits. -/
def crc32Step (signed : Bool) (crc : BitVec 32) (b : UInt8) : BitVec 32 :=
  ((initCrc32 w).getD ((crc ^^^ Crc32.operand signed b) &&& 0xff).toNat 0 ^^^ (crc >>> 8).setWidth w).setWidth 32

/-- The loop of `crc32buf` from any value on. -/
def crc32Loop (signed : Bool) (crc : BitVec 32) (buf : List UInt8) : BitVec 32 := buf.foldl (crc32Step w signed) crc

def crc32buf (signed : Bool) (buf : List UInt8) : BitVec 32 := crc32Loop w signed 0xFFFFFFFF buf

end Long

/-! ## `trx_fixup` -/

/-- How `trx_fixup` ends: with the new contents of the device, with a message, or by a read behind the device. -/
inductive Fixup
  | done (device : List UInt8)
  | failed
  | killed
  deriving DecidableEq

/-- On a little-endian machine; the device is mapped as a whole. -/
def trxFixup (w : ℕ) (signed : Bool) (device : List UInt8) : Fixup :=
  if device.length = 0 then .failed
  else if word device 0 ≠ Trx.trxMagic then .failed
  else
    let size := wrapSub w (word device 4) 12
    if device.length < 12 + size then .killed
    else .done (overlay device 8 (leBytes (crc32buf w signed ((device.drop 12).take size)).toNat))

/-! ## The table bit by bit -/

def crcPoly : ℕ := 0xEDB88320

section Long
variable {w : ℕ} (hw : 32 ≤ w)
include hw

theorem poly_toNat : (poly w).toNat = crcPoly := by
  have hle : 2 ^ 32 ≤ 2 ^ w := Nat.pow_le_pow_right two_pos hw
  rw [poly, BitVec.toNat_ofNat]
  exact Nat.mod_eq_of_lt (lt_of_lt_of_le (by norm_num) hle)

theorem crcBits_toNat (n : ℕ) (crc : BitVec w) : (crcBits w n crc).toNat = Crc32.shiftBits crcPoly n crc.toNat := by
  induction n generalizing crc with
  | zero => rfl
  | succ n ih =>
    have hbit : (if crc &&& 1#w ≠ 0#w then poly w ^^^ (crc >>> 1) else crc >>> 1).toNat =
        Crc32.shiftBit crcPoly crc.toNat := by
      have hlow : crc &&& 1#w ≠ 0#w ↔ crc.toNat.testBit 0 = true := by
        have hone : (1#w).toNat = 1 := by
          rw [BitVec.toNat_ofNat, Nat.mod_eq_of_lt (Nat.one_lt_two_pow (by omega))]
        rw [Ne, ← BitVec.toNat_inj, BitVec.toNat_and, hone, BitVec.toNat_ofNat, Nat.zero_mod, Nat.and_one_is_mod,
          Nat.testBit_zero, decide_eq_true_eq]
        omega
      rw [Crc32.shiftBit]
      by_cases hset : crc.toNat.testBit 0 = true
      · rw [if_pos hset, if_pos (hlow.mpr hset), BitVec.toNat_xor, poly_toNat hw, BitVec.toNat_ushiftRight]
      · rw [if_neg hset, if_neg (mt hlow.mp hset), BitVec.toNat_ushiftRight]
    rw [crcBits, Crc32.shiftBits, ih, hbit]

/-- The table as it is made, entry by entry. -/
theorem initCrc32_entry {i : ℕ} (hi : i < 256) : ((initCrc32 w).getD i 0).toNat = Crc32.shiftBits crcPoly 8 i := by
  have hle : 2 ^ 32 ≤ 2 ^ w := Nat.pow_le_pow_right two_pos hw
  have hentry : (initCrc32 w).getD i 0 = crcBits w 8 (BitVec.ofNat w i) := by
    rw [initCrc32, List.getD_eq_getElem?_getD, List.getElem?_map, List.getElem?_range hi]
    rfl
  rw [hentry, crcBits_toNat hw, BitVec.toNat_ofNat, Nat.mod_eq_of_lt (by omega)]

theorem crc32Step_toNat (signed : Bool) (crc : BitVec 32) (b : UInt8) :
    (crc32Step w signed crc b).toNat = Crc32.byteStep crcPoly crc.toNat b := by
  have hle : 2 ^ 32 ≤ 2 ^ w := Nat.pow_le_pow_right two_pos hw
  have hindex : (crc.toNat ^^^ b.toNat) &&& 255 < 256 := Nat.lt_succ_of_le Nat.and_le_right
  have hentry := initCrc32_entry hw hindex
  have hlt : Crc32.shiftBits crcPoly 8 ((crc.toNat ^^^ b.toNat) &&& 255) < 2 ^ 32 :=
    Crc32.shiftBits_lt (by norm_num [crcPoly]) (by omega) 8
  have hshift : crc.toNat >>> 8 < 2 ^ 32 := by
    rw [Nat.shiftRight_eq_div_pow]
    omega
  rw [crc32Step, Crc32.operand_index, BitVec.toNat_setWidth, BitVec.toNat_xor, hentry, BitVec.toNat_setWidth,
    BitVec.toNat_ushiftRight, Nat.mod_eq_of_lt (lt_of_lt_of_le hshift hle), Crc32.byteStep_eq]
  exact Nat.mod_eq_of_lt (Nat.xor_lt_two_pow hlt hshift)

theorem crc32Loop_toNat (signed : Bool) (crc : BitVec 32) (buf : List UInt8) :
    (crc32Loop w signed crc buf).toNat = Crc32.bitwise crcPoly crc.toNat buf := by
  induction buf generalizing crc with
  | nil => rfl
  | cons b buf ih =>
    show (crc32Loop w signed (crc32Step w signed crc b) buf).toNat =
      Crc32.bitwise crcPoly (Crc32.byteStep crcPoly crc.toNat b) buf
    rw [ih, crc32Step_toNat hw]

end Long

/-! ## The other tables -/

theorem imagetag_generates : ImageTag.crcTable.Generates crcPoly := by
  show ImageTag.crc32tab = _
  decide +kernel

theorem trx_generates : Trx.crcTable.Generates crcPoly := by
  show Trx.crc_32_tab = _
  decide +kernel

theorem trx_crc32buf_eq (buf : List UInt8) : Trx.crc32buf buf = Crc32.bitwise crcPoly 0xFFFFFFFF buf :=
  Crc32.update_eq_bitwise trx_generates _ buf

/-- `f` is the check of 32 bits that goes bit by bit, and can be continued. -/
structure ComputesCrc (f : ℕ → List UInt8 → ℕ) : Prop where
  bits : ∀ crc < 2 ^ 32, ∀ bs, f crc bs = Crc32.bitwise crcPoly crc bs
  parts : ∀ crc < 2 ^ 32, ∀ xs ys, f (f crc xs) ys = f crc (xs ++ ys)

/-- What is right bit by bit and stays a register can be continued. -/
theorem ComputesCrc.of_bits {f : ℕ → List UInt8 → ℕ} (hbits : ∀ crc < 2 ^ 32, ∀ bs, f crc bs = Crc32.bitwise crcPoly crc bs)
    (hlt : ∀ crc < 2 ^ 32, ∀ bs, f crc bs < 2 ^ 32) : ComputesCrc f where
  bits := hbits
  parts := by
    intro crc hcrc xs ys
    rw [hbits _ (hlt crc hcrc xs), hbits crc hcrc, hbits crc hcrc, Crc32.bitwise_append]

/-- A loop on registers of 32 bits. -/
theorem ComputesCrc.of_loop {f : BitVec 32 → List UInt8 → BitVec 32}
    (hbits : ∀ crc bs, (f crc bs).toNat = Crc32.bitwise crcPoly crc.toNat bs) :
    ComputesCrc fun crc bs => (f (BitVec.ofNat 32 crc) bs).toNat := by
  refine ComputesCrc.of_bits (fun crc hcrc bs => ?_) fun crc _ bs => (f (BitVec.ofNat 32 crc) bs).isLt
  rw [hbits, BitVec.toNat_ofNat, Nat.mod_eq_of_lt hcrc]

theorem imagetag_computes : ComputesCrc ImageTag.crc32 :=
  ComputesCrc.of_bits (fun crc _ bs => Crc32.update_eq_bitwise imagetag_generates crc bs)
    fun _ hcrc bs => Crc32.update_lt _ hcrc bs

theorem mkfirmware_computes : ComputesCrc fun crc p => ImageTag.cc32 p crc := by
  refine ComputesCrc.of_bits (fun crc hcrc bs => ?_) fun crc hcrc bs => ?_
  · rw [ImageTag.cc32_eq hcrc]
    exact imagetag_computes.bits crc hcrc bs
  · rw [ImageTag.cc32_eq hcrc]
    exact Crc32.update_lt _ hcrc bs

theorem trx_computes (signed : Bool) :
    ComputesCrc fun crc buf => (Trx.crc32Loop signed (BitVec.ofNat 32 crc) buf).toNat := by
  apply ComputesCrc.of_loop
  intro crc buf
  rw [Trx.crc32Loop_eq]
  exact Crc32.update_eq_bitwise trx_generates _ buf

theorem mtd_computes {w : ℕ} (hw : 32 ≤ w) (signed : Bool) :
    ComputesCrc fun crc buf => (crc32Loop w signed (BitVec.ofNat 32 crc) buf).toNat :=
  ComputesCrc.of_loop (crc32Loop_toNat hw signed)

/-! ## An image of the tool -/

theorem applyOption_curLen {s s' : TrxState} {o : TrxOption} (hcur : s.curLen < 2 ^ 32)
    (h : s.applyOption o = some s') : s'.curLen < 2 ^ 32 := by
  have hmod : ∀ n : ℕ, n % 2 ^ 32 < 2 ^ 32 := fun n => Nat.mod_lt n (Nat.two_pow_pos 32)
  have hread : ∀ appended data, s.readFile appended data = some s' → s'.curLen < 2 ^ 32 := by
    intro appended data h
    obtain ⟨block, happ⟩ := readFile_cases h
    rw [happ.curLen]
    exact hmod _
  cases o with
  | file data => exact hread false data h
  | append data => exact hread true data h
  | align n =>
    simp only [TrxState.applyOption, Option.some.injEq] at h
    rw [← h]
    split
    · exact hcur
    · exact hmod _
  | offset n =>
    simp only [TrxState.applyOption, Option.some.injEq] at h
    rw [← h]
    split
    · exact hcur
    · exact hmod _

/-- An image of the tool has its length and its checksum in the header. -/
structure Sealed (image : List UInt8) : Prop where
  size : 12 ≤ image.length ∧ image.length < 2 ^ 32
  len : word image 4 = image.length
  crc : (image.drop 8).take 4 = leBytes (Trx.crc32buf (image.drop 12))

theorem seal_sealed {s : TrxState} (hlow : 12 ≤ s.curLen) (hcur : s.curLen < 2 ^ 32) :
    Sealed (load s.seal.mem 0 s.curLen) := by
  have hrest : ∀ w, 32 ≤ w → wrapSub w s.curLen 12 = s.curLen - 12 := fun w hw =>
    wrapSub_of_le hlow (lt_of_lt_of_le hcur (Nat.pow_le_pow_right two_pos hw))
  refine ⟨by rw [load_length]; exact ⟨hlow, hcur⟩, ?_, ?_⟩
  · have hsame := load_store_same (s.put 8 (leBytes (Trx.crc32buf (load s.mem 12 (wrapSub 64 s.curLen 12))))).mem 4
      (leBytes s.curLen)
    rw [word, load_slice _ (by omega), load_length]
    exact (congrArg leWord hsame).trans (leWord_leBytes hcur)
  · have hsame : load s.seal.mem 8 4 = leBytes (Trx.crc32buf (load s.mem 12 (wrapSub 64 s.curLen 12))) := by
      show load (store (store s.mem 8 _) 4 _) 8 4 = _
      rw [load_store_disjoint _ (Or.inr (by rw [leBytes_length]))]
      exact load_store_same s.mem 8 _
    rw [load_slice _ (by omega), hsame, hrest 64 (by norm_num), load_drop _ _ hlow, seal_load (le_refl 12)]

theorem trxMain_sealed {garbage : ℕ → UInt8} {options : List TrxOption} {r : TrxResult}
    (h : trxMain garbage options = some r) : Sealed r.output := by
  unfold trxMain at h
  split at h
  · cases h
  · next s hrun =>
    split at h
    · have hcur : s.curLen < 2 ^ 32 := by
        refine Library.Fallible.foldlM_preserves (I := fun s : TrxState => s.curLen < 2 ^ 32)
          (fun o _ s s' hs hstep => applyOption_curLen hs hstep) ?_ hrun
        show 28 < 2 ^ 32
        norm_num
      have hpage : s.fillPage.curLen % 0x1000 = 0 ∧ s.fillPage.curLen < 2 ^ 32 := by
        unfold TrxState.fillPage
        split
        next hfull => exact ⟨hfull, hcur⟩
        · show (s.curLen + (0x1000 - s.curLen % 0x1000)) % 2 ^ 32 % 0x1000 = 0 ∧ _ % 2 ^ 32 < 2 ^ 32
          omega
      have hne : s.fillPage.curLen ≠ 0 := by
        intro hzero
        have hseal : s.fillPage.seal.curLen = 0 := hzero
        unfold finish at h
        simp only [hseal, if_true] at h
        cases h
      rw [finish_cases h]
      exact seal_sealed (by omega) hpage.2
    · cases h

/-- On the image of the tool the checksum stays as it is. -/
theorem trxFixup_sealed {w : ℕ} (hw : 32 ≤ w) (signed : Bool) {image : List UInt8} (h : Sealed image) (rest : List UInt8) :
    trxFixup w signed (image ++ rest) =
      if word image 0 = Trx.trxMagic then .done (image ++ rest) else .failed := by
  obtain ⟨hlow, hhigh⟩ := h.size
  have hword : ∀ off, off + 4 ≤ image.length → word (image ++ rest) off = word image off := by
    intro off hoff
    rw [word, word, List.drop_append_of_le_length (by omega), List.take_append_of_le_length (by rw [List.length_drop]; omega)]
  have hsize : wrapSub w (word (image ++ rest) 4) 12 = image.length - 12 := by
    rw [hword 4 (by omega), h.len]
    exact wrapSub_of_le hlow (lt_of_lt_of_le hhigh (Nat.pow_le_pow_right two_pos hw))
  have hcovered : ((image ++ rest).drop 12).take (image.length - 12) = image.drop 12 := by
    rw [List.drop_append_of_le_length hlow, List.take_left' (by rw [List.length_drop])]
  have hcrc : leBytes (crc32buf w signed (image.drop 12)).toNat = (image.drop 8).take 4 := by
    rw [h.crc, trx_crc32buf_eq, crc32buf, crc32Loop_toNat hw]
    rfl
  have hsame : overlay (image ++ rest) 8 ((image.drop 8).take 4) = image ++ rest := by
    have hfour : ((image.drop 8).take 4).length = 4 := List.length_take_of_le (by rw [List.length_drop]; omega)
    have hslice : (image.drop 8).take 4 = ((image ++ rest).drop 8).take 4 := by
      rw [List.drop_append_of_le_length (by omega), List.take_append_of_le_length (by rw [List.length_drop]; omega)]
    rw [overlay, hfour, hslice, ← List.drop_drop, List.take_append_drop, List.take_append_drop]
  unfold trxFixup
  have hne : (image ++ rest).length ≠ 0 := by
    rw [List.length_append]
    omega
  have hroom : ¬ (image ++ rest).length < 12 + (image.length - 12) := by
    rw [List.length_append]
    omega
  rw [if_neg hne, hword 0 (by omega)]
  by_cases hmagic : word image 0 = Trx.trxMagic
  · rw [if_neg (not_not.mpr hmagic), if_pos hmagic]
    simp only [hsize]
    rw [if_neg hroom, hcovered, hcrc, hsame]
  · rw [if_pos hmagic, if_neg hmagic]

/-- The four checks are the one that goes bit by bit, from any value on and in any parts, and `trx_fixup` leaves a
device alone that starts with an image of the tool. -/
theorem crc32_in_four_places (signed : Bool) :
    ComputesCrc ImageTag.crc32 ∧
    (ComputesCrc fun crc p => ImageTag.cc32 p crc) ∧
    (ComputesCrc fun crc buf => (Trx.crc32Loop signed (BitVec.ofNat 32 crc) buf).toNat) ∧
    (ComputesCrc fun crc buf => (crc32Loop 32 signed (BitVec.ofNat 32 crc) buf).toNat) ∧
    (ComputesCrc fun crc buf => (crc32Loop 64 signed (BitVec.ofNat 32 crc) buf).toNat) ∧
    (∀ buf, Trx.crc32buf buf = (Trx.crc32Loop signed 0xFFFFFFFF buf).toNat) ∧
    ∀ w, w = 32 ∨ w = 64 → ∀ garbage options r, trxMain garbage options = some r → ∀ rest,
      trxFixup w signed (r.output ++ rest) =
        if word r.output 0 = Trx.trxMagic then .done (r.output ++ rest) else .failed := by
  refine ⟨imagetag_computes, mkfirmware_computes, trx_computes signed, mtd_computes (by norm_num) signed,
    mtd_computes (by norm_num) signed, fun buf => (Trx.crc32Loop_eq signed 0xFFFFFFFF buf).symm, ?_⟩
  intro w hw garbage options r h rest
  have hwide : 32 ≤ w := by omega
  exact trxFixup_sealed hwide signed (trxMain_sealed h) rest

/-- A file of one byte, on a device of just the size of the image. -/
theorem crc32_in_four_places_one_file :
    ∃ r, trxMain (fun _ => 0) [.file [1]] = some r ∧ trxFixup 32 true (r.output ++ []) = .done (r.output ++ []) := by
  have hmain := trxMain_some (fun _ => 0) [.file [1]] rfl rfl (by decide)
  refine ⟨_, hmain, ?_⟩
  obtain ⟨-, -, -, -, -, -, hfixup⟩ := crc32_in_four_places true
  rw [hfixup 32 (Or.inl rfl) _ _ _ hmain []]
  apply if_pos
  rw [word, load_slice _ (by decide)]
  decide

end Neufbox.Mtd
