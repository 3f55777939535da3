import Neufbox.Nvram.Cli
import Neufbox.Nvram.CommitKeeps

/-! # The checksum of a commit

`nvram_commit` runs the checksum over a copy of the new header and then over the data; `do_info` runs it once over
the image. Both start at the same byte of the header, behind the one that holds the checksum. -/
namespace Neufbox.Nvram
open CString ChainTable ByteStore WrapArith
set_option autoImplicit false
set_option maxHeartbeats 250000
set_option maxRecDepth 120000

/-! ## A commit stays inside -/

/-- The text never leaves less than two bytes, whether or not all tuples fit. -/
theorem writeChain_total (ts : List NvramTuple) (d : DataArea) {ptr : ℕ} (hptr : ptr ≤ dataSize - 2) :
    ∃ d' ptr', writeChain d ptr ts = some (d', ptr') ∧ ptr' ≤ dataSize - 2 := by
  induction ts generalizing d ptr with
  | nil => exact ⟨d, ptr, rfl, hptr⟩
  | cons t ts ih =>
    by_cases hroom : ptr + t.name.strlen + 1 + t.value.strlen + 1 > dataSize - 2
    · exact ⟨d, ptr, by rw [writeChain, if_pos hroom], hptr⟩
    · obtain ⟨d₁, hstore, -⟩ := store_some d (by rw [record_length]; omega : ptr + (record t).length ≤ dataSize)
      obtain ⟨d', ptr', hrest, hptr'⟩ := ih d₁ (by rw [record_length]; omega : ptr + (record t).length ≤ dataSize - 2)
      exact ⟨d', ptr', by rw [writeChain, if_neg hroom, hstore, Option.bind_some, hrest], hptr'⟩

theorem writeChains_total (chains : List (List NvramTuple)) (d : DataArea) {ptr : ℕ} (hptr : ptr ≤ dataSize - 2) :
    ∃ d' ptr', writeChains d ptr chains = some (d', ptr') ∧ ptr' ≤ dataSize - 2 := by
  induction chains generalizing d ptr with
  | nil => exact ⟨d, ptr, rfl, hptr⟩
  | cons chain chains ih =>
    obtain ⟨d₁, ptr₁, hchain, hptr₁⟩ := writeChain_total chain d hptr
    obtain ⟨d', ptr', hrest, hptr'⟩ := ih d₁ hptr₁
    exact ⟨d', ptr', by rw [writeChains, hchain, Option.bind_some, hrest], hptr'⟩

theorem commitImage_total (h : NvramHandle) :
    ∃ d ptr, ptr ≤ dataSize ∧ commitImage h = some (finishImage h.mmap (regenerateHeader h.table) d ptr) := by
  obtain ⟨d, ptr, hwrite, hptr⟩ := writeChains_total ((List.finRange 257).map h.table.nvramHash) .erased (Nat.zero_le _)
  obtain ⟨d', hterm, -⟩ := terminate_fits h.mmap d ptr hptr
  have hroom : ptr + 2 ≤ dataSize := by
    have hsize : dataSize = 32748 := rfl
    omega
  exact ⟨d', ptr + 2, hroom, by rw [commitImage, hwrite, Option.bind_some, hterm, Option.map_some]⟩

/-! ## Both runs of the checksum -/

theorem hndcrc8_append (xs ys : List UInt8) (crc : UInt8) : hndcrc8 (xs ++ ys) crc = hndcrc8 ys (hndcrc8 xs crc) :=
  List.foldl_append

/-- The new header leaves the byte of the checksum free. -/
theorem regenerateHeader_crc (h : NvramTable) : (regenerateHeader h).crcVerInit % 256 = 0 := by
  unfold regenerateHeader
  split
  all_goals simp only [nvramVersion, sdramInitDefault]
  all_goals omega

/-- The checksum and the length are not part of what is summed. -/
theorem header_drop (hdr : NvramHeader) (len : ℕ) {crc : ℕ} (hfree : hdr.crcVerInit % 256 = 0) (hcrc : crc < 256) :
    (NvramHeader.bytes { hdr with len := len, crcVerInit := hdr.crcVerInit + crc }).drop crcStartPosition =
      hdr.bytes.drop crcStartPosition := by
  have hsame : ∀ k, (hdr.crcVerInit + crc) / 2 ^ (8 + k) = hdr.crcVerInit / 2 ^ (8 + k) := by
    intro k
    rw [pow_add, ← Nat.div_div_eq_div_mul, ← Nat.div_div_eq_div_mul]
    congr 1
    omega
  have hbytes : (wordBytes (hdr.crcVerInit + crc)).tail = (wordBytes hdr.crcVerInit).tail := by
    have h₀ := hsame 0
    have h₁ := hsame 8
    have h₂ := hsame 16
    simp only [wordBytes, List.tail_cons]
    rw [h₀, h₁, h₂]
  have hdrop : ∀ hdr : NvramHeader, hdr.bytes.drop crcStartPosition =
      (wordBytes hdr.crcVerInit).tail ++ wordBytes hdr.configRefresh ++ wordBytes hdr.configNcdl := fun _ => rfl
  rw [hdrop, hdrop, hbytes]

/-- What `do_info` sums is what the commit has summed. -/
theorem info_crc (hdr : NvramHeader) (d : DataArea) (m : NvramMap) (ptr : ℕ) (hfree : hdr.crcVerInit % 256 = 0) :
    hndcrc8 (((NvramHeader.bytes (finishImage m hdr d ptr).header ++ d.bytes).drop crcStartPosition).take
      ((finishImage m hdr d ptr).header.len - crcStartPosition)) 0xff =
        commitCrc hdr d (finishImage m hdr d ptr).header.len := by
  have hlen : headerSize + ptr ≤ (finishImage m hdr d ptr).header.len := (roundup_four (headerSize + ptr)).2.1
  have hheader : ((NvramHeader.bytes (finishImage m hdr d ptr).header).drop crcStartPosition).length =
      headerSize - crcStartPosition := rfl
  have hsplit : (finishImage m hdr d ptr).header.len - crcStartPosition =
      (headerSize - crcStartPosition) + ((finishImage m hdr d ptr).header.len - headerSize) := by
    unfold headerSize crcStartPosition at *
    omega
  have hlong : crcStartPosition ≤ (NvramHeader.bytes (finishImage m hdr d ptr).header).length := by
    have hbytes : (NvramHeader.bytes (finishImage m hdr d ptr).header).length = headerSize := rfl
    rw [hbytes]
    simp [crcStartPosition, headerSize]
  rw [List.drop_append_of_le_length hlong, hsplit, ← hheader, List.take_length_add_append, hndcrc8_append]
  have hsame := header_drop hdr (finishImage m hdr d ptr).header.len hfree
    (commitCrc hdr d (finishImage m hdr d ptr).header.len).toNat_lt
  exact congrArg (fun bs => hndcrc8 (d.bytes.take _) (hndcrc8 bs 0xff)) hsame

/-- A commit writes an image for every table of variables, and `do_info` computes the checksum that this image
holds in the low byte of `crc_ver_init`. -/
theorem nvram_commit_checksum (h : NvramHandle) :
    ∃ m, commitImage h = some m ∧ (∀ r, nvramCommit h = some r → r.1.mmap = m) ∧
      ∀ s : Session, s.nvram.mmap = m → ∃ s', doInfo s = some s' ∧
        s'.log = s.log ++ [.info ⟨m.header, UInt8.ofNat (m.header.crcVerInit % 256)⟩] := by
  obtain ⟨d, ptr, hptr, himage⟩ := commitImage_total h
  have hfree := regenerateHeader_crc h.table
  refine ⟨_, himage, ?_, ?_⟩
  · intro r hcommit
    rw [nvramCommit, himage, Option.bind_some, Option.map_eq_some_iff] at hcommit
    obtain ⟨table, -, rfl⟩ := hcommit
    rfl
  · intro s hs
    have hlow : UInt8.ofNat ((finishImage h.mmap (regenerateHeader h.table) d ptr).header.crcVerInit % 256) =
        commitCrc (regenerateHeader h.table) d (finishImage h.mmap (regenerateHeader h.table) d ptr).header.len := by
      have hlt := (commitCrc (regenerateHeader h.table) d
        (finishImage h.mmap (regenerateHeader h.table) d ptr).header.len).toNat_lt
      have hsum : (finishImage h.mmap (regenerateHeader h.table) d ptr).header.crcVerInit =
          (regenerateHeader h.table).crcVerInit + (commitCrc (regenerateHeader h.table) d
            (finishImage h.mmap (regenerateHeader h.table) d ptr).header.len).toNat := rfl
      rw [hsum, Nat.add_mod, hfree, Nat.zero_add, Nat.mod_mod, Nat.mod_eq_of_lt hlt, UInt8.ofNat_toNat]
    have hround := roundup_four (headerSize + ptr)
    have hlen : (finishImage h.mmap (regenerateHeader h.table) d ptr).header.len = nvramRoundup (headerSize + ptr) 4 := rfl
    have hspace : nvramRoundup (headerSize + ptr) 4 ≤ nvramSpace := by
      have hsize : dataSize = 32748 := rfl
      have hspace : nvramSpace = 32768 := rfl
      unfold headerSize at *
      omega
    have hbytes : wrapSub 32 (finishImage h.mmap (regenerateHeader h.table) d ptr).header.len crcStartPosition =
        (finishImage h.mmap (regenerateHeader h.table) d ptr).header.len - crcStartPosition := by
      have hspace' : nvramSpace = 32768 := rfl
      refine wrapSub_of_le ?_ ?_
      · unfold headerSize crcStartPosition at *
        omega
      · omega
    have hcrc := info_crc (regenerateHeader h.table) d h.mmap ptr hfree
    have hinside : crcStartPosition + ((finishImage h.mmap (regenerateHeader h.table) d ptr).header.len - crcStartPosition) ≤
        nvramSpace := by
      unfold headerSize crcStartPosition at *
      omega
    refine ⟨_, by rw [doInfo, hs, hbytes, if_pos hinside], ?_⟩
    rw [hlow, ← hcrc]
    rfl

end Neufbox.Nvram
