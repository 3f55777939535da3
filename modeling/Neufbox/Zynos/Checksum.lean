import Neufbox.Library.OnesComplement
import Neufbox.Library.Pairs
import Neufbox.Zynos.Layout

/-! # The checksum of an image

The running sum takes bytes in pairs, over calls of any length; what it has seen is the sum of the pairs and the byte
that waits for the next one. At the end of an image a word is written that brings the sum to the first word of the
boot extension. -/
namespace Neufbox.Zynos
open Neufbox.Blocks Neufbox.Library.Pairs Neufbox.Library.Pieces Neufbox.OnesComplement Neufbox.WrapArith
set_option autoImplicit false
set_option maxHeartbeats 250000
set_option maxRecDepth 120000

/-! ## The running sum -/

/-- What the state stands for; an old `tmp` does not count. -/
def CsumState.seen (css : CsumState) : ℕ × List UInt8 := (css.sum, if css.odd then [css.tmp] else [])

theorem csumPairs_seen (p : List UInt8) {css : CsumState} (h : css.odd = false) :
    (csumPairs p css).seen = foldPairs csumAdd css.sum p := by
  induction p, css using csumPairs.induct with
  | case1 css => rw [csumPairs, CsumState.seen, h]; rfl
  | case2 css b => rfl
  | case3 css b b' p ih => exact ih h

theorem csumUpdate_seen (p : List UInt8) (css : CsumState) :
    (csumUpdate p css).seen = foldPairs csumAdd css.seen.1 (css.seen.2 ++ p) := by
  cases p with
  | nil =>
    show css.seen = foldPairs csumAdd css.sum ((if css.odd then [css.tmp] else []) ++ [])
    cases hodd : css.odd <;> rw [CsumState.seen, hodd] <;> rfl
  | cons b p =>
    show (if css.odd then csumPairs p _ else csumPairs (b :: p) css).seen =
      foldPairs csumAdd css.sum ((if css.odd then [css.tmp] else []) ++ b :: p)
    cases hodd : css.odd with
    | true => exact csumPairs_seen p rfl
    | false => exact csumPairs_seen (b :: p) hodd

/-- The result is that of the bytes seen, with a zero behind them. -/
theorem csumGet_eq (css : CsumState) :
    csumGet css = BitVec.ofNat 16 (foldPairs csumAdd css.seen.1 (css.seen.2 ++ [0])).1 := by
  rw [csumGet, ← csumUpdate_seen]
  rfl

theorem csumUpdates_seen (ps : List (List UInt8)) (css : CsumState) :
    (ps.foldl (fun css p => csumUpdate p css) css).seen = foldPairs csumAdd css.seen.1 (css.seen.2 ++ ps.flatten) := by
  have hone : css.seen.2.length ≤ 1 := by
    rw [CsumState.seen]
    split <;> simp
  have hupdate : ∀ css p, (csumUpdate p css).seen = foldPairs csumAdd css.seen.1 (css.seen.2 ++ id p) :=
    fun css p => csumUpdate_seen p css
  rw [seen_foldl hupdate hone, List.flatMap_id]

/-- How a byte stream is split into calls makes no difference. -/
theorem csumUpdates_eq (ps : List (List UInt8)) (css : CsumState) :
    csumGet (ps.foldl (fun css p => csumUpdate p css) css) = csumGet (csumUpdate ps.flatten css) := by
  rw [csumGet_eq, csumUpdates_seen, ← csumUpdate_seen, ← csumGet_eq]

/-! ## The sum of a whole -/

theorem csumAdd_eq {sum : ℕ} (h : sum < 65536) (b b' : UInt8) : csumAdd sum b b' = onesAdd sum (256 * b.toNat + b'.toNat) := by
  have hb := b.toNat_lt
  have hb' := b'.toNat_lt
  have hmask : ∀ n : ℕ, n &&& 0xFFFF = n % 2 ^ 16 := fun n => Nat.and_two_pow_sub_one_eq_mod n 16
  unfold csumAdd onesAdd
  simp only [hmask, Nat.shiftLeft_eq]
  split_ifs <;> omega

theorem onesAdd_lt {a b : ℕ} (ha : a < 65536) (hb : b < 65536) : onesAdd a b < 65536 := by
  unfold onesAdd
  split_ifs <;> omega

theorem foldPairs_zero {sum : ℕ} (h : sum < 65536) (bs : List UInt8) :
    (foldPairs csumAdd sum (bs ++ [0])).1 = (halves bs).foldl onesAdd sum := by
  fun_induction halves bs generalizing sum with
  | case1 a b bs ih =>
    have hab := halves_lt (a :: b :: bs) _ List.mem_cons_self
    show (foldPairs csumAdd (csumAdd sum a b) (bs ++ [0])).1 =
      (halves bs).foldl onesAdd (onesAdd sum (256 * a.toNat + b.toNat))
    rw [csumAdd_eq h, ih (onesAdd_lt h hab)]
  | case2 a => exact csumAdd_eq h a 0
  | case3 => rfl

theorem csumBuf_toNat (bs : List UInt8) : (csumBuf bs).toNat = onesSum bs := by
  have hle := onesSum_le bs
  rw [csumBuf, csumGet_eq, csumUpdate_seen]
  show (BitVec.ofNat 16 (foldPairs csumAdd (foldPairs csumAdd 0 bs).1 ((foldPairs csumAdd 0 bs).2 ++ [0])).1).toNat = _
  rw [← foldPairs_append, foldPairs_zero (by norm_num), ← onesSum, BitVec.toNat_ofNat, Nat.mod_eq_of_lt (by omega)]

/-! ## The word at the end -/

theorem be16_eq_half (x : BitVec 16) : be16 x = half x.toNat := rfl

/-- The word that brings the sum `csum` to `ocsum`. -/
def fixWord (ocsum csum : BitVec 16) : BitVec 16 := if csum.toNat ≤ ocsum.toNat then ocsum - csum else ocsum - csum - 1

theorem onesAdd_fixWord (ocsum csum : BitVec 16) :
    onesAdd csum.toNat (fixWord ocsum csum).toNat = if ocsum.toNat = 0 ∧ csum.toNat ≠ 0 then 65535 else ocsum.toNat := by
  have ho := ocsum.isLt
  have hc := csum.isLt
  unfold fixWord
  by_cases hle : csum.toNat ≤ ocsum.toNat
  · rw [if_pos hle, BitVec.toNat_sub_of_le (by rw [BitVec.le_def]; exact hle)]
    unfold onesAdd
    split_ifs <;> omega
  · have hfix : (ocsum - csum - 1).toNat = ocsum.toNat + 65535 - csum.toNat := by
      have hone : (1 : BitVec 16).toNat = 1 := rfl
      rw [BitVec.toNat_sub, BitVec.toNat_sub, hone]
      omega
    rw [if_neg hle, hfix]
    unfold onesAdd
    split_ifs <;> omega

/-- Behind an even number of bytes the word closes the sum. -/
theorem csumBuf_fixed {data : List UInt8} (heven : 2 ∣ data.length) (ocsum : BitVec 16) :
    (csumBuf (data ++ be16 (fixWord ocsum (csumBuf data)))).toNat =
      if ocsum.toNat = 0 ∧ (csumBuf data).toNat ≠ 0 then 65535 else ocsum.toNat := by
  have hword : onesSum (be16 (fixWord ocsum (csumBuf data))) = (fixWord ocsum (csumBuf data)).toNat := by
    have hhalves := halves_half_append (fixWord ocsum (csumBuf data)).isLt []
    rw [List.append_nil] at hhalves
    have hlt := (fixWord ocsum (csumBuf data)).isLt
    rw [be16_eq_half, onesSum, hhalves]
    show onesAdd 0 _ = _
    rw [onesAdd, Nat.zero_add, if_pos hlt]
  rw [csumBuf_toNat, onesSum_append heven, hword, ← csumBuf_toNat data, onesAdd_fixWord]

/-! ## The output file -/

/-- The sum of `out` is that of its bytes behind the header. -/
structure Out.Summed (out : Out) : Prop where
  header : rombinHdrSize ≤ out.bytes.length
  seen : out.css.seen = foldPairs csumAdd 0 (out.bytes.drop rombinHdrSize)

section Writes
variable {out : Out} (h : out.Summed)
include h

theorem Out.Summed.write (data : List UInt8) : (writeOutData out data).Summed where
  header := by
    rw [writeOutData, List.length_append]
    exact Nat.le_add_right_of_le h.header
  seen := by
    show (csumUpdate data out.css).seen = foldPairs csumAdd 0 ((out.bytes ++ data).drop rombinHdrSize)
    rw [csumUpdate_seen, h.seen, ← foldPairs_append, List.drop_append_of_le_length h.header]

theorem Out.Summed.pieces (n k : ℕ) (data : List UInt8) : (inPieces n writeOutData k data out).Summed := by
  induction k generalizing data out with
  | zero => exact h
  | succ k ih =>
    rw [inPieces]
    split
    · exact h
    · exact ih (h.write _) _

theorem Out.Summed.block (files : Files) (b : FwBlock) : (writeOutBlock files out b).Summed := by
  unfold writeOutBlock
  dsimp only
  split
  · exact h
  · exact h.pieces _ _ _

/-- The sum that is taken of `out`. -/
theorem Out.Summed.csum : csumGet out.css = csumBuf (out.bytes.drop rombinHdrSize) := by
  rw [csumBuf, csumGet_eq, csumGet_eq, csumUpdate_seen, h.seen]
  rfl

end Writes

/-- A place whose sum and whose count are right. -/
structure Pos.Tracked (board : BoardInfo) (p : Pos) : Prop where
  summed : p.out.Summed
  counted : ∃ n, p.At board n

section Tracked
variable {files : Files} {board : BoardInfo} {p : Pos} (h : p.Tracked board)
include h

/-- Padding of any length is counted. -/
theorem Pos.Tracked.pad (padlen : BitVec 32) :
    Pos.Tracked board ⟨writeOutPadding p.out padlen.toNat 0xFF, p.offset + padlen⟩ := by
  obtain ⟨n, haddress, hoffset⟩ := h.counted
  refine ⟨h.summed.pieces _ _ _, n + padlen.toNat, ?_, ?_⟩
  · rw [flashAddress] at haddress
    rw [flashAddress, writeOutPadding_bytes, List.length_append, List.length_replicate]
    omega
  · rw [hoffset, BitVec.ofNat_add, BitVec.ofNat_toNat, BitVec.setWidth_eq]

theorem Pos.Tracked.padTo (y : BitVec 32) : (padTo p y).Tracked board := h.pad _

theorem Pos.Tracked.placeBlock {b : FwBlock} (hb : b.Ready files) : (placeBlock files p b).Tracked board := by
  obtain ⟨n, hn⟩ := h.counted
  exact ⟨h.summed.block files b, _, hn.placeBlock hb⟩

theorem Pos.Tracked.writeOutMmap : (writeOutMmap board p).Tracked board := by
  obtain ⟨n, hn⟩ := h.counted
  exact ⟨h.summed.write _, _, hn.writeOutMmap⟩

theorem Pos.Tracked.fillBootext : (fillBootext board p).Tracked board := by
  unfold Zynos.fillBootext
  split
  · exact h.pad _
  · exact h

theorem Pos.Tracked.writeBlocks {bs : List FwBlock} (hbs : ∀ b ∈ bs, b.Ready files) :
    (bs.foldl (writeRaw files) p).Tracked board := by
  induction bs generalizing p with
  | nil => exact h
  | cons b bs ih =>
    refine ih ?_ fun c hc => hbs c (List.mem_cons_of_mem _ hc)
    unfold writeRaw
    split
    · exact h
    · exact (h.padTo b.align).placeBlock (hbs b List.mem_cons_self)

end Tracked

theorem startPos_tracked (board : BoardInfo) : (startPos board).Tracked board := by
  refine ⟨⟨?_, ?_⟩, _, startPos_at board⟩
  · rw [startPos, writeOutHeader, ByteStore.overlay]
    simp
  · rfl

/-! ## The image -/

/-- An image, with the place up to which it is summed and the first word of its boot extension. -/
theorem writeOutImage_fixed {files : Files} {job : Job} (hjob : job.Ready files) {image : List UInt8}
    (h : writeOutImage files job = some image) :
    ∃ p hdr, p.Tracked job.board ∧ 4 ∣ flashAddress job.board p ∧ hdr.ocsum = readMagic files job.bootext ∧
      image = writeOutHeader hdr (p.out.bytes ++ be16 (fixWord (readMagic files job.bootext) (csumGet p.out.css))) := by
  unfold writeOutImage at h
  simp only [Option.bind_eq_bind, Option.bind_eq_some_iff] at h
  obtain ⟨mmap, hmmap, h⟩ := h
  have hmmap' : mmap.Tracked job.board := by
    unfold writeBootext at hmmap
    dsimp only at hmmap
    split at hmmap
    · cases hmmap
    · cases hmmap
      exact ((startPos_tracked job.board).placeBlock hjob.bootext).padTo _
  have hblocks := hmmap'.writeOutMmap.fillBootext.writeBlocks hjob.blocks
  obtain ⟨n, hn⟩ := hblocks.counted
  refine ⟨_, _, hblocks.padTo 4, ?_, rfl, (Option.some.inj h).symm⟩
  have haligned := hn.padTo (.inr ⟨2, rfl⟩ : Alignment 4)
  rw [haligned.address]
  exact dvd_roundUp n 4

theorem header_ocsum (hdr : RombinHdr) (bytes : List UInt8) :
    ((writeOutHeader hdr bytes).drop 20).take 2 = be16 hdr.ocsum := rfl

theorem be16_readMagic {files : Files} {b : FwBlock} {content : List UInt8} (hfile : files b.fileName = some content)
    (hlen : 2 ≤ content.length) : be16 (readMagic files b) = content.take 2 := by
  obtain ⟨b₀, b₁, rest, rfl⟩ : ∃ b₀ b₁ rest, content = b₀ :: b₁ :: rest := by
    match content, hlen with
    | b₀ :: b₁ :: rest, _ => exact ⟨b₀, b₁, rest, rfl⟩
  have h₀ := b₀.toNat_lt
  have h₁ := b₁.toNat_lt
  have hmagic : (readMagic files b).toNat = b₀.toNat * 256 + b₁.toNat := by
    show (BitVec.ofNat 16 ((((files b.fileName).getD []).getD 0 0).toNat * 256 + _)).toNat = _
    rw [hfile, BitVec.toNat_ofNat]
    exact Nat.mod_eq_of_lt (by show b₀.toNat * 256 + b₁.toNat < 65536; omega)
  have hhigh : (b₀.toNat * 256 + b₁.toNat) / 256 = b₀.toNat := by omega
  have hlow : UInt8.ofNat (b₀.toNat * 256 + b₁.toNat) = b₁ := by
    apply UInt8.toNat_inj.mp
    rw [UInt8.toNat_ofNat']
    omega
  rw [be16, hmagic, hhigh, hlow, UInt8.ofNat_toNat]
  rfl

/-- A boot extension that its part of the flash has room for, with the header. -/
def BootextFits (files : Files) (job : Job) : Prop :=
  ∃ content, files job.bootext.fileName = some content ∧ rombinHdrSize + content.length ≤ job.board.bootextSize.toNat

theorem mkzynfw_total {files : Files} {options : List Opt} {job : Job} (hprepare : prepare files options = some job)
    (hfits : BootextFits files job) : ∃ image, mkzynfw files options = some image := by
  obtain ⟨content, hfile, hroom⟩ := hfits
  have hready := prepare_ready hprepare
  obtain ⟨-, -, -, hwrap⟩ := boards_offsets hready.board
  obtain ⟨content', hfile', hsize⟩ := hready.bootext
  cases hfile.symm.trans hfile'
  have hheader : rombinHdrSize = 48 := rfl
  obtain ⟨-, image, -, himage⟩ := writeOutImage_total files job (by
    rw [hsize, BitVec.toNat_add, BitVec.toNat_add, BitVec.toNat_add, BitVec.toNat_ofNat, BitVec.toNat_ofNat]
    omega)
  exact ⟨image, by rw [mkzynfw, hprepare]; exact himage⟩

/-- The sum of everything behind the header is the checksum in the header, and this the first word of the boot
extension; zero is written as all bits set where not all is zero. The sum is the same for all ways to split the bytes.
Alignments of any kind will do. -/
theorem mkzynfw_checksum (files : Files) (options : List Opt) (job : Job) (content : List UInt8)
    (hprepare : prepare files options = some job) (hfile : files job.bootext.fileName = some content)
    (hlen : 2 ≤ content.length) :
    (rombinHdrSize + content.length ≤ job.board.bootextSize.toNat → ∃ image, mkzynfw files options = some image) ∧
    (∀ image, mkzynfw files options = some image →
      (image.drop 20).take 2 = content.take 2 ∧
      (csumBuf (image.drop rombinHdrSize)).toNat ≡ beWord ((image.drop 20).take 2) [MOD 0xFFFF] ∧
      (beWord ((image.drop 20).take 2) ≠ 0 →
        (csumBuf (image.drop rombinHdrSize)).toNat = beWord ((image.drop 20).take 2))) ∧
    ∀ (ps : List (List UInt8)) (css : CsumState),
      csumGet (ps.foldl (fun css p => csumUpdate p css) css) = csumGet (csumUpdate ps.flatten css) := by
  refine ⟨fun hroom => mkzynfw_total hprepare ⟨content, hfile, hroom⟩, fun image hrun => ?_, csumUpdates_eq⟩
  have himage : writeOutImage files job = some image := by rwa [mkzynfw, hprepare] at hrun
  have hready := prepare_ready hprepare
  obtain ⟨p, hdr, htracked, hfour, hocsum, rfl⟩ := writeOutImage_fixed hready himage
  have hfield := header_ocsum hdr (p.out.bytes ++ be16 (fixWord (readMagic files job.bootext) (csumGet p.out.css)))
  have heven : 2 ∣ (p.out.bytes.drop rombinHdrSize).length := by
    have hheader := htracked.summed.header
    have hromio := (boards_offsets hready.board).2.1
    have hsize : rombinHdrSize = 48 := rfl
    rw [flashAddress] at hfour
    rw [List.length_drop]
    omega
  have hsum := csumBuf_fixed heven (readMagic files job.bootext)
  have hword : beWord (be16 hdr.ocsum) = (readMagic files job.bootext).toNat := by
    have hlt := (readMagic files job.bootext).isLt
    rw [hocsum, be16]
    simp only [beWord, List.foldl_cons, List.foldl_nil, UInt8.toNat_ofNat']
    omega
  rw [writeOutHeader_drop _ _ le_rfl, List.drop_append_of_le_length htracked.summed.header, htracked.summed.csum, hsum]
  rw [htracked.summed.csum] at hfield
  rw [hfield, hword]
  refine ⟨hocsum ▸ be16_readMagic hfile hlen, ?_, fun hne => ?_⟩
  · split
    next hzero =>
      rw [hzero.1]
      rfl
    · rfl
  · exact if_neg fun hzero => hne hzero.1

theorem mkzynfw_checksum_short :
    ∃ job image, prepare shortFile (shortOptions "k:0x10000") = some job ∧
      mkzynfw shortFile (shortOptions "k:0x10000") = some image ∧ (csumBuf (image.drop rombinHdrSize)).toNat = 0x0102 := by
  obtain ⟨job, -, -, hjob, -, -, -, hbootext, -⟩ := short_prepared "k:0x10000" 0x10000 (by decide +kernel)
  have hfile : shortFile job.bootext.fileName = some [1, 2, 3] := by
    obtain ⟨content, hfile, -⟩ := (prepare_ready hjob).bootext
    unfold shortFile at hfile ⊢
    split at hfile
    next hname => exact if_pos hname
    · cases hfile
  obtain ⟨htotal, hsum, -⟩ := mkzynfw_checksum _ _ job _ hjob hfile (by decide)
  obtain ⟨image, himage⟩ := htotal (by rw [hbootext]; decide)
  obtain ⟨hfield, -, heq⟩ := hsum image himage
  have hword : beWord ((image.drop 20).take 2) = 0x0102 := by
    rw [hfield]
    decide
  refine ⟨job, image, hjob, himage, ?_⟩
  rw [heq (by rw [hword]; decide), hword]

end Neufbox.Zynos
