import Neufbox.Csys.Layout
import Neufbox.Library.Pairs

/-! # The checksums of the blocks

The checksum of a block with web pages is a byte, that of runtime code a word, low byte first; each brings the sum of
what follows the header to zero. The file and the padding may go out in pieces of any length. -/
namespace Neufbox.Csys
open Neufbox.Library.Pairs Neufbox.Library.Pieces
set_option autoImplicit false
set_option maxHeartbeats 250000
set_option maxRecDepth 120000

/-! ## Sums -/

def byteSum (bs : List UInt8) : ℕ := (bs.map UInt8.toNat).sum

/-- The words of a byte string, low byte first; a last single byte is a word. -/
def leWords : List UInt8 → List ℕ
  | b :: b' :: p => (b.toNat + 256 * b'.toNat) :: leWords p
  | [b] => [b.toNat]
  | [] => []

theorem leWords_append {bs : List UInt8} (h : 2 ∣ bs.length) (cs : List UInt8) :
    leWords (bs ++ cs) = leWords bs ++ leWords cs := by
  fun_induction leWords bs with
  | case1 b b' p ih =>
    show (b.toNat + 256 * b'.toNat) :: leWords (p ++ cs) = _
    rw [ih ((Nat.dvd_add_left (dvd_refl 2)).mp h)]
    rfl
  | case2 b =>
    rw [List.length_singleton] at h
    omega
  | case3 => rfl

/-! ## Eight bits -/

@[simp] theorem byte16_toNat (b : UInt8) : (byte16 b).toNat = b.toNat := by
  have hb := b.toNat_lt
  show (b.toBitVec.setWidth 16).toNat = b.toNat
  rw [BitVec.toNat_setWidth]
  exact Nat.mod_eq_of_lt (by show b.toNat < 65536; omega)

theorem csum8Update_val (p : List UInt8) (css : CsumState) :
    (csum8Update p css).val.toNat = (css.val.toNat + byteSum p) % 2 ^ 16 := by
  have hall : ∀ (p : List UInt8) (val : BitVec 16),
      (p.foldl (fun val b => val + byte16 b) val).toNat = (val.toNat + byteSum p) % 2 ^ 16 := by
    intro p
    induction p with
    | nil =>
      intro val
      exact (Nat.mod_eq_of_lt val.isLt).symm
    | cons b p ih =>
      intro val
      rw [List.foldl_cons, ih, BitVec.toNat_add, byte16_toNat, byteSum, byteSum, List.map_cons, List.sum_cons]
      omega
  exact hall p css.val

theorem csum8Updates_val (ps : List (List UInt8)) (css : CsumState) :
    ps.foldl (fun css p => csum8Update p css) css = csum8Update ps.flatten css := by
  induction ps generalizing css with
  | nil => rfl
  | cons p ps ih =>
    rw [List.foldl_cons, ih, List.flatten_cons, csum8Update, csum8Update, csum8Update, List.foldl_append]

/-- The low byte of the checksum brings the sum to zero. -/
theorem csum8Get_closes {css : CsumState} {n : ℕ} (h : css.val.toNat = n % 2 ^ 16) :
    (n + (csum8Get css).toNat) % 2 ^ 8 = 0 := by
  have hone : (1 : BitVec 16).toNat = 1 := rfl
  have hmask : (0xFF : BitVec 16).toNat = 2 ^ 8 - 1 := rfl
  rw [csum8Get, BitVec.toNat_add, BitVec.toNat_not, BitVec.toNat_and, hone, hmask, Nat.and_two_pow_sub_one_eq_mod, h]
  omega

/-! ## Sixteen bits -/

def addPair (val t t' : BitVec 16) : BitVec 16 := val + (t + t' <<< 8)

/-- What the state stands for; an old `tmp` does not count. -/
def CsumState.seen (css : CsumState) : BitVec 16 × List (BitVec 16) := (css.val, if css.odd then [css.tmp] else [])

theorem csum16Pairs_seen (p : List UInt8) {css : CsumState} (h : css.odd = false) :
    (csum16Pairs p css).seen = foldPairs addPair css.val (p.map byte16) := by
  induction p, css using csum16Pairs.induct with
  | case1 css => rw [csum16Pairs, CsumState.seen, h]; rfl
  | case2 css b => rfl
  | case3 css b b' p ih => exact ih h

theorem csum16Update_seen (p : List UInt8) (css : CsumState) :
    (csum16Update p css).seen = foldPairs addPair css.seen.1 (css.seen.2 ++ p.map byte16) := by
  cases p with
  | nil =>
    show css.seen = foldPairs addPair css.val ((if css.odd then [css.tmp] else []) ++ [])
    cases hodd : css.odd <;> rw [CsumState.seen, hodd] <;> rfl
  | cons b p =>
    show (if css.odd then csum16Pairs p _ else csum16Pairs (b :: p) css).seen =
      foldPairs addPair css.val ((if css.odd then [css.tmp] else []) ++ byte16 b :: p.map byte16)
    cases hodd : css.odd with
    | true => exact csum16Pairs_seen p rfl
    | false => exact csum16Pairs_seen (b :: p) hodd

theorem csum16Updates_seen (ps : List (List UInt8)) (css : CsumState) :
    (ps.foldl (fun css p => csum16Update p css) css).seen =
      foldPairs addPair css.seen.1 (css.seen.2 ++ ps.flatten.map byte16) := by
  have hone : css.seen.2.length ≤ 1 := by
    rw [CsumState.seen]
    split <;> simp
  rw [seen_foldl (fun css p => csum16Update_seen p css) hone, List.map_flatten, List.flatMap_def]

theorem foldPairs_words (val : BitVec 16) {bs : List UInt8} (h : 2 ∣ bs.length) :
    (foldPairs addPair val (bs.map byte16)).1.toNat = (val.toNat + (leWords bs).sum) % 2 ^ 16 := by
  fun_induction leWords bs generalizing val with
  | case1 b b' p ih =>
    have hb := b.toNat_lt
    have hb' := b'.toNat_lt
    have hpair : (addPair val (byte16 b) (byte16 b')).toNat = (val.toNat + (b.toNat + 256 * b'.toNat)) % 2 ^ 16 := by
      rw [addPair, BitVec.toNat_add, BitVec.toNat_add, BitVec.toNat_shiftLeft, byte16_toNat, byte16_toNat, Nat.shiftLeft_eq]
      omega
    show (foldPairs addPair (addPair val (byte16 b) (byte16 b')) (p.map byte16)).1.toNat = _
    rw [ih _ ((Nat.dvd_add_left (dvd_refl 2)).mp h), hpair, List.sum_cons]
    omega
  | case2 b =>
    rw [List.length_singleton] at h
    omega
  | case3 => exact (Nat.mod_eq_of_lt val.isLt).symm

/-- Where no byte waits, the checksum brings the sum to zero. -/
theorem csum16Get_closes {css : CsumState} {n : ℕ} (heven : css.seen.2 = []) (h : css.val.toNat = n % 2 ^ 16) :
    (n + (csum16Get css).toNat) % 2 ^ 16 = 0 := by
  have hval : (csum16Update [0] css).val = css.val := by
    have hseen := congrArg Prod.fst (csum16Update_seen [0] css)
    rw [heven] at hseen
    exact hseen
  have hone : (1 : BitVec 16).toNat = 1 := rfl
  rw [csum16Get, BitVec.toNat_add, BitVec.toNat_not, hval, hone, h]
  omega

/-! ## The data of a block -/

/-- What lies between the header and the checksum. -/
def CsysBlock.data (files : Files) (b : CsysBlock) : List UInt8 :=
  b.content files ++ List.replicate (b.sizeAvail - b.fileSize).toNat b.padc

/-- The calls of `write_out_data`, none of them empty, in which data may go out. -/
structure IsSplit (ps : List (List UInt8)) (data : List UInt8) : Prop where
  nonempty : ∀ p ∈ ps, p ≠ []
  flatten : ps.flatten = data

theorem IsSplit.append {ps ps' : List (List UInt8)} {data data' : List UInt8} (h : IsSplit ps data)
    (h' : IsSplit ps' data') : IsSplit (ps ++ ps') (data ++ data') where
  nonempty := by
    intro p hp
    exact (List.mem_append.mp hp).elim (h.nonempty p) (h'.nonempty p)
  flatten := by rw [List.flatten_append, h.flatten, h'.flatten]

/-- What `block_writeout` starts with, before the data of a block. -/
def blockStart (bytes : List UInt8) (b : CsysBlock) : Out :=
  ⟨(blockWriteoutHdr ⟨bytes, none⟩ b).bytes, if b.sizeCsum = 0 then none else some (csumInit b.sizeCsum)⟩

/-- A block whose data goes out in the calls `ps`. -/
def blockWriteoutSplit (ps : List (List UInt8)) (bytes : List UInt8) (b : CsysBlock) : List UInt8 :=
  (blockWriteoutCsum (ps.foldl writeOutData (blockStart bytes b)) b).bytes

theorem blockWriteoutFile_split (files : Files) (out : Out) (b : CsysBlock) :
    ∃ ps, IsSplit ps (b.content files) ∧ blockWriteoutFile files out b = ps.foldl writeOutData out := by
  unfold blockWriteoutFile CsysBlock.content
  cases b.fileName with
  | none => exact ⟨[], ⟨by simp, rfl⟩, rfl⟩
  | some name =>
    dsimp only
    split
    next hzero => exact ⟨[], ⟨by simp, by rw [hzero]; rfl⟩, rfl⟩
    · obtain ⟨ps, hne, hflat, hrun⟩ := inPieces_split (by decide : 0 < fileBufLen) writeOutData
        (le_refl (((files name).getD []).take b.fileSize.toNat).length) out
      exact ⟨ps, ⟨hne, hflat⟩, hrun⟩

/-- The tool's calls are one way to split the data. -/
theorem blockWriteout_split (files : Files) (bytes : List UInt8) (b : CsysBlock) :
    ∃ ps, IsSplit ps (b.data files) ∧ blockWriteout files bytes b = blockWriteoutSplit ps bytes b := by
  obtain ⟨ps, hps, hfile⟩ := blockWriteoutFile_split files (blockStart bytes b) b
  obtain ⟨qs, hne, hflat, hpad⟩ := inPieces_split (by decide : 0 < 512) writeOutData
    (List.length_replicate (n := (b.sizeAvail - b.fileSize).toNat) (a := b.padc)).le (ps.foldl writeOutData (blockStart bytes b))
  refine ⟨ps ++ qs, hps.append ⟨hne, hflat⟩, ?_⟩
  rw [blockWriteoutSplit, List.foldl_append, ← hpad, ← hfile]
  rfl

theorem foldl_writeOutData (ps : List (List UInt8)) (out : Out) : ps.foldl writeOutData out =
    ⟨out.bytes ++ ps.flatten, out.css.map fun css => ps.foldl (fun css p => csumUpdate p css) css⟩ := by
  induction ps generalizing out with
  | nil =>
    rw [List.flatten_nil, List.append_nil]
    exact congrArg (Out.mk out.bytes) Option.map_id'.symm
  | cons p ps ih =>
    rw [List.foldl_cons, ih, writeOutData, List.flatten_cons, List.append_assoc, Option.map_map]
    rfl

/-! ## The checksum of a block -/

theorem csumUpdates_eight {css : CsumState} (h : css.size = csumSize8) (ps : List (List UInt8)) :
    ps.foldl (fun css p => csumUpdate p css) css = ps.foldl (fun css p => csum8Update p css) css := by
  induction ps generalizing css with
  | nil => rfl
  | cons p ps ih =>
    have hfirst : csumUpdate p css = csum8Update p css := if_pos h
    rw [List.foldl_cons, List.foldl_cons, hfirst]
    exact ih h

theorem csum16Pairs_size (p : List UInt8) (css : CsumState) : (csum16Pairs p css).size = css.size := by
  induction p, css using csum16Pairs.induct with
  | case1 css => rfl
  | case2 css b => rfl
  | case3 css b b' p ih => exact ih

theorem csum16Update_size (p : List UInt8) (css : CsumState) : (csum16Update p css).size = css.size := by
  cases p with
  | nil => rfl
  | cons b p =>
    unfold csum16Update
    dsimp only
    split <;> exact csum16Pairs_size _ _

theorem csumUpdates_sixteen {css : CsumState} (h : css.size = csumSize16) (ps : List (List UInt8)) :
    ps.foldl (fun css p => csumUpdate p css) css = ps.foldl (fun css p => csum16Update p css) css ∧
      (ps.foldl (fun css p => csumUpdate p css) css).size = csumSize16 := by
  induction ps generalizing css with
  | nil => exact ⟨rfl, h⟩
  | cons p ps ih =>
    have hne : csumSize16 ≠ csumSize8 := by decide
    have hfirst : csumUpdate p css = csum16Update p css := by
      rw [csumUpdate, h, if_neg hne, if_pos rfl]
    rw [List.foldl_cons, List.foldl_cons, hfirst]
    exact ih ((csum16Update_size p css).trans h)

section Block
variable {files : Files} {b : CsysBlock} {ps : List (List UInt8)} (hps : IsSplit ps (b.data files)) (bytes : List UInt8)
include hps

/-- What is written for a block that has a checksum. -/
theorem blockWriteoutSplit_eq (hcsum : b.sizeCsum ≠ 0) : blockWriteoutSplit ps bytes b =
    (blockWriteoutHdr ⟨bytes, none⟩ b).bytes ++ (b.data files ++
      (le16 (csumGet (ps.foldl (fun css p => csumUpdate p css) (csumInit b.sizeCsum)))).take b.sizeCsum.toNat) := by
  rw [blockWriteoutSplit, foldl_writeOutData, hps.flatten, blockStart, if_neg hcsum, blockWriteoutCsum, if_neg hcsum]
  exact List.append_assoc _ _ _

theorem csum_eight (hcsum : b.sizeCsum = csumSize8) :
    csumGet (ps.foldl (fun css p => csumUpdate p css) (csumInit b.sizeCsum)) =
      csum8Get (csum8Update (b.data files) (csumInit csumSize8)) := by
  rw [hcsum, csumUpdates_eight rfl, csum8Updates_val, hps.flatten]
  rfl

/-- The checksum of words hangs on what was seen, not on the calls. -/
theorem csum_sixteen (hcsum : b.sizeCsum = csumSize16) :
    csumGet (ps.foldl (fun css p => csumUpdate p css) (csumInit b.sizeCsum)) =
      csum16Get (csum16Update (b.data files) (csumInit csumSize16)) := by
  have hne : csumSize16 ≠ csumSize8 := by decide
  obtain ⟨hrun, hsize⟩ := @csumUpdates_sixteen (csumInit csumSize16) rfl ps
  have hseen := csum16Updates_seen ps (csumInit csumSize16)
  rw [hps.flatten, ← csum16Update_seen] at hseen
  have hget : ∀ css css' : CsumState, css.seen = css'.seen → csum16Get css = csum16Get css' := by
    intro css css' h
    have hlast := congrArg Prod.fst (csum16Update_seen [0] css)
    rw [h, ← csum16Update_seen] at hlast
    have hval : (csum16Update [0] css).val = (csum16Update [0] css').val := hlast
    rw [csum16Get, csum16Get, hval]
  rw [hcsum, csumGet, hsize, if_neg hne, if_pos rfl, hrun]
  exact hget _ _ hseen

end Block

/-- A block that has a header and a checksum of a size. -/
structure CsysBlock.Summed (size : BitVec 32) (b : CsysBlock) : Prop where
  hdr : b.sizeHdr = csysHeaderSize
  sig : b.sig.length = 4
  csum : b.sizeCsum = size

section Summed
variable {files : Files} {b : CsysBlock} {ps : List (List UInt8)} (hps : IsSplit ps (b.data files)) (bytes : List UInt8)
include hps

/-- What follows the header. -/
theorem CsysBlock.Summed.tail {size : BitVec 32} (hb : b.Summed size) (hsize : size ≠ 0) :
    (blockWriteoutSplit ps bytes b).drop (bytes.length + 12) =
      b.data files ++ (le16 (csumGet (ps.foldl (fun css p => csumUpdate p css) (csumInit b.sizeCsum)))).take size.toNat := by
  have hne : b.sizeHdr ≠ 0 := by
    rw [hb.hdr]
    decide
  have hlen : (bytes ++ b.header).length = bytes.length + 12 := by
    rw [List.length_append, CsysBlock.header, List.length_append, List.length_append, hb.sig]
    rfl
  have hhdr : (blockWriteoutHdr ⟨bytes, none⟩ b).bytes = bytes ++ b.header := by
    rw [blockWriteoutHdr, if_neg hne]
  rw [blockWriteoutSplit_eq hps bytes (by rw [hb.csum]; exact hsize), hhdr, List.drop_left' hlen, hb.csum]

theorem CsysBlock.Summed.bytes_sum (hb : b.Summed csumSize8) :
    byteSum ((blockWriteoutSplit ps bytes b).drop (bytes.length + 12)) % 2 ^ 8 = 0 := by
  have hval : (csum8Update (b.data files) (csumInit csumSize8)).val.toNat = byteSum (b.data files) % 2 ^ 16 := by
    rw [csum8Update_val]
    show (0 + _) % 2 ^ 16 = _
    rw [Nat.zero_add]
  have hcloses := csum8Get_closes hval
  rw [hb.tail hps bytes (by decide), csum_eight hps hb.csum]
  generalize csum8Get (csum8Update (b.data files) (csumInit csumSize8)) = csum at hcloses ⊢
  have hbyte : (le16 csum).take csumSize8.toNat = [UInt8.ofNat csum.toNat] := rfl
  rw [hbyte, byteSum, List.map_append, List.sum_append, ← byteSum, List.map_cons, List.map_nil, List.sum_singleton,
    UInt8.toNat_ofNat']
  omega

theorem CsysBlock.Summed.words_sum (hb : b.Summed csumSize16)
    (heven : 2 ∣ ((blockWriteoutSplit ps bytes b).drop (bytes.length + 12)).length) :
    (leWords ((blockWriteoutSplit ps bytes b).drop (bytes.length + 12))).sum % 2 ^ 16 = 0 := by
  rw [hb.tail hps bytes (by decide)] at heven ⊢
  have hdata : 2 ∣ (b.data files).length := by
    rw [List.length_append] at heven
    exact (Nat.dvd_add_left (dvd_refl 2)).mp heven
  have hmap : 2 ∣ ((b.data files).map byte16).length := by rwa [List.length_map]
  have hseen := csum16Update_seen (b.data files) (csumInit csumSize16)
  have hval : (csum16Update (b.data files) (csumInit csumSize16)).val.toNat = (leWords (b.data files)).sum % 2 ^ 16 := by
    have hwords := foldPairs_words 0 hdata
    have hfirst := congrArg (fun r => r.1.toNat) hseen
    have hzero : (0 : BitVec 16).toNat = 0 := rfl
    rw [hzero, Nat.zero_add] at hwords
    exact hfirst.trans hwords
  have hcloses := csum16Get_closes ((congrArg Prod.snd hseen).trans (foldPairs_even addPair _ hmap)) hval
  rw [csum_sixteen hps hb.csum, leWords_append hdata, List.sum_append]
  generalize csum16Get (csum16Update (b.data files) (csumInit csumSize16)) = csum at hcloses ⊢
  have hlt := csum.isLt
  have hword : leWords ((le16 csum).take csumSize16.toNat) = [csum.toNat] := by
    show [(UInt8.ofNat csum.toNat).toNat + 256 * (UInt8.ofNat (csum.toNat / 256)).toNat] = _
    rw [UInt8.toNat_ofNat', UInt8.toNat_ofNat']
    congr 1
    omega
  rw [hword, List.sum_singleton]
  exact hcloses

/-- Whatever the calls, the same bytes are written. -/
theorem CsysBlock.Summed.split_eq {size : BitVec 32} (hb : b.Summed size) (hsize : size = csumSize8 ∨ size = csumSize16)
    {qs : List (List UInt8)} (hqs : IsSplit qs (b.data files)) :
    blockWriteoutSplit ps bytes b = blockWriteoutSplit qs bytes b := by
  have hne : b.sizeCsum ≠ 0 := by
    rw [hb.csum]
    rcases hsize with rfl | rfl <;> decide
  rw [blockWriteoutSplit_eq hps bytes hne, blockWriteoutSplit_eq hqs bytes hne]
  rcases hsize with rfl | rfl
  · rw [csum_eight hps hb.csum, csum_eight hqs hb.csum]
  · rw [csum_sixteen hps hb.csum, csum_sixteen hqs hb.csum]

end Summed

/-! ## The blocks of the tool -/

theorem prepare_csum {files : Files} {options : List Opt} {board : BoardInfo} {g : Globals}
    (h : prepare files options = some (board, g)) :
    (∀ b ∈ g.webp, b.sizeCsum = csumSize8) ∧ ∀ b ∈ g.code, b.sizeCsum = csumSize16 := by
  unfold prepare at h
  simp only [Option.bind_eq_bind, Option.bind_eq_some_iff] at h
  obtain ⟨g₀, hrun, board₀, -, g₁, hstat, h⟩ := h
  cases h
  have hstated := (taken_options hrun).stated hstat
  constructor
  · intro b hb
    obtain ⟨b₁, hb₁, rfl⟩ := Option.map_eq_some_iff.mp hb
    obtain ⟨b₀, hb₀, rfl⟩ := Option.map_eq_some_iff.mp hb₁
    obtain ⟨addr, haddr⟩ := withAddr_eq board.addrWebp { b₀ with sig := board.sigWebp }
    obtain ⟨a, ha⟩ := withAlign_eq { b₀ with sig := board.sigWebp, addr := addr }
    rw [placeWebp, haddr, ha]
    exact (hstated.webp b₀ hb₀).csum
  · intro b hb
    obtain ⟨b₁, hb₁, rfl⟩ := Option.map_eq_some_iff.mp hb
    obtain ⟨b₀, hb₀, rfl⟩ := Option.map_eq_some_iff.mp hb₁
    obtain ⟨addr, haddr⟩ := withAddr_eq board.addrCode { b₀ with sig := sigCsys }
    obtain ⟨a, ha⟩ := withAlign_eq { b₀ with sig := sigCsys, addr := addr }
    rw [placeCode, haddr, ha]
    exact (hstated.code b₀ hb₀).csum

theorem prepare_summed {files : Files} {options : List Opt} {board : BoardInfo} {g : Globals}
    (h : prepare files options = some (board, g)) :
    (∀ b ∈ g.webp, b.Summed csumSize8) ∧ ∀ b ∈ g.code, b.Summed csumSize16 := by
  have hprepared := prepared_of_prepare h
  obtain ⟨hwebp, hcode⟩ := prepare_csum h
  have hheader : ∀ b ∈ g.webp.toList ++ g.code.toList, b.sizeHdr = csysHeaderSize ∧ b.sig.length = 4 := by
    intro b hb
    have hentry : b ∈ g.entries := by
      simp only [List.mem_append] at hb
      simp only [Globals.entries, List.mem_append]
      tauto
    exact (hprepared.ready b hentry).hdr.resolve_left (hprepared.headed b hb)
  constructor
  · intro b hb
    obtain ⟨hhdr, hsig⟩ := hheader b (List.mem_append_left _ (Option.mem_toList.mpr hb))
    exact ⟨hhdr, hsig, hwebp b hb⟩
  · intro b hb
    obtain ⟨hhdr, hsig⟩ := hheader b (List.mem_append_right _ (Option.mem_toList.mpr hb))
    exact ⟨hhdr, hsig, hcode b hb⟩

/-- The bytes of a block with web pages, and the words of one with code, sum to zero behind the header, whatever was
written before the block; and the block is the same for every way to split its data into calls. -/
theorem csys_blocks_sum (files : Files) (options : List Opt) (board : BoardInfo) (g : Globals)
    (h : prepare files options = some (board, g)) (before : List UInt8) :
    (∀ b ∈ g.webp, byteSum ((blockWriteout files before b).drop (before.length + 12)) % 2 ^ 8 = 0) ∧
    (∀ b ∈ g.code, 2 ∣ ((blockWriteout files before b).drop (before.length + 12)).length →
      (leWords ((blockWriteout files before b).drop (before.length + 12))).sum % 2 ^ 16 = 0) ∧
    ∀ b, b ∈ g.webp ∨ b ∈ g.code → ∀ ps, IsSplit ps (b.data files) →
      blockWriteoutSplit ps before b = blockWriteout files before b := by
  obtain ⟨hwebp, hcode⟩ := prepare_summed h
  refine ⟨fun b hb => ?_, fun b hb => ?_, fun b hb ps hps => ?_⟩
  · obtain ⟨ps, hps, hwritten⟩ := blockWriteout_split files before b
    rw [hwritten]
    exact (hwebp b hb).bytes_sum hps before
  · obtain ⟨ps, hps, hwritten⟩ := blockWriteout_split files before b
    rw [hwritten]
    exact (hcode b hb).words_sum hps before
  · obtain ⟨qs, hqs, hwritten⟩ := blockWriteout_split files before b
    rw [hwritten]
    rcases hb with hb | hb
    · exact (hwebp b hb).split_eq hps before (Or.inl rfl) hqs
    · exact (hcode b hb).split_eq hps before (Or.inr rfl) hqs

theorem csys_blocks_sum_short :
    ∃ board g w c, prepare shortFile shortOptions = some (board, g) ∧ g.webp = some w ∧ g.code = some c ∧
      byteSum ((blockWriteout shortFile [] w).drop 12) % 2 ^ 8 = 0 ∧
      (leWords ((blockWriteout shortFile [] c).drop 12)).sum % 2 ^ 16 = 0 := by
  have heval : (prepare shortFile shortOptions).any (fun r => r.2.webp.isSome ∧
      r.2.code.any (fun c => c.fileSize.toNat ≤ c.sizeAvail.toNat ∧ c.sizeAvail.toNat % 2 = 0)) = true := by
    decide +kernel
  obtain ⟨⟨board, g⟩, hprepare, hall⟩ := (Option.any_eq_true _ _).mp heval
  simp only [decide_eq_true_eq] at hall
  obtain ⟨hwebp, hcode⟩ := hall
  obtain ⟨w, hw⟩ := Option.isSome_iff_exists.mp hwebp
  obtain ⟨c, hc, hroom⟩ := (Option.any_eq_true _ _).mp hcode
  simp only [decide_eq_true_eq] at hroom
  obtain ⟨hbytes, hwords, -⟩ := csys_blocks_sum _ _ board g hprepare []
  have hsummed := (prepare_summed hprepare).2 c hc
  have hready := (prepared_of_prepare hprepare).ready c (by simp [Globals.entries, hc])
  refine ⟨board, g, w, c, hprepare, hw, hc, hbytes w hw, hwords c hc ?_⟩
  have hlen := hready.bytes_length hroom.1
  have hhdr : csysHeaderSize.toNat = 12 := rfl
  have hcsum : csumSize16.toNat = 2 := rfl
  rw [hsummed.hdr, hsummed.csum, hhdr, hcsum] at hlen
  rw [blockWriteout_eq, List.nil_append, List.length_drop, hlen, List.length_nil]
  omega

end Neufbox.Csys
