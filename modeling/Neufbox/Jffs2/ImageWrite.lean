import Neufbox.Jffs2.AppendLayout

/-! # Writing an image with a file for its JFFS2 part

`mtd_write`: the image is copied block by block through one buffer. With `-j` each block is compared with
the end marker, and where it is found the file is put in place of the rest of the image. The comparison
takes in the terminating zero of the marker's string, which the writing side leaves out. -/
namespace Neufbox.Jffs2
open Memory ByteStore
set_option autoImplicit false
set_option maxHeartbeats 250000
set_option maxRecDepth 120000

/-! ## The copy -/

/-- The buffer, how much of it is filled, and the rest of the image. -/
structure Reader where
  buf : List UInt8
  buflen : ℕ
  input : List UInt8

/-- `jffs2file` and `jffs2dir` are the options of the command. `heap` is the buffer that
`mtd_replace_jffs2` allocates, `behind` the memory behind the buffer in each round, and `short` what
the reads of a round deliver at most. -/
structure WriteJob where
  jffs2file : Option FileSource
  jffs2dir : List UInt8
  heap : List UInt8
  behind : ℕ → ℕ → UInt8
  short : ℕ → ℕ → ℕ

structure ImageWriter where
  reader : Reader
  w : ℕ
  e : ℕ
  found : Found
  erased : List ℕ
  copies : List (ℕ × List UInt8)

structure Written where
  erased : List ℕ
  copies : List (ℕ × List UInt8)
  appended : Option Appender

section Copy
variable (c : Config)

/-- A `read` behind the bytes that are there already. -/
def readMore (short : ℕ) (s : Reader) : Reader :=
  let data := s.input.take (min (c.erasesize - s.buflen) (short + 1))
  ⟨overlay s.buf s.buflen data, s.buflen + data.length, s.input.drop data.length⟩

/-- The inner loop. A round that goes on has read something, so there are at most as many as the buffer
has bytes. -/
def fill (short : ℕ → ℕ) : ℕ → Reader → Reader
  | 0, s => s
  | fuel + 1, s =>
      let s' := readMore c (short fuel) s
      if s'.buflen = s.buflen then s
      else if s'.buflen < c.erasesize then fill short fuel s' else s'

/-- The loop that erases ahead of a write which ends at `target`. -/
def eraseAhead (target : ℕ) : ℕ → ℕ × List ℕ → ℕ × List ℕ
  | 0, s => s
  | fuel + 1, (e, erased) => if e < target then eraseAhead target fuel (e + c.erasesize, erased ++ [e]) else (e, erased)

/-- The end of a round: the buffer goes to the device. -/
def copyBlock (r : Reader) (found : Found) (s : ImageWriter) : ImageWriter :=
  let ahead := eraseAhead c (s.w + r.buflen) (s.w + r.buflen) (s.e, s.erased)
  { reader := { r with buflen := 0 }
    w := s.w + r.buflen
    e := ahead.1
    found := found
    erased := ahead.2
    copies := s.copies ++ [(s.w, r.buf.take r.buflen)] }

/-- The loop of `mtd_write`; `mtd_parse_jffs2data` has `fuel` in every round. -/
def writeBlocks (job : WriteJob) (fuel : ℕ) : ℕ → ImageWriter → Option Written
  | 0, _ => none
  | rounds + 1, s =>
      let i := s.copies.length
      let r := fill c (job.short i) c.erasesize s.reader
      if r.buflen = 0 then some ⟨s.erased, s.copies, none⟩
      else
        match job.jffs2file with
        | none => writeBlocks job fuel rounds (copyBlock c r s.found s)
        | some file =>
            if r.buf.take 5 = jffs2Eof ++ [0] then
              (mtdReplaceJffs2 c job.heap s.w (s.e % 2 ^ 32) s.found file).map fun a => ⟨s.erased, s.copies, some a⟩
            else
              (mtdParseJffs2data c (blockMem r.buf (job.behind i)) job.jffs2dir fuel 0 s.found).bind fun found =>
                writeBlocks job fuel rounds (copyBlock c r found s)

/-- The reader may hold the first bytes of the image already, from the check of its header. -/
def mtdWrite (job : WriteJob) (fuel : ℕ) (start : Reader) : Option Written :=
  writeBlocks c job fuel fuel ⟨start, 0, 0, ⟨0, 0, 0⟩, [], []⟩

end Copy

/-! ## The inner loops -/

section Loops
variable {c : Config}

theorem readMore_eq (short : ℕ) (s : Reader) : ∃ n, n ≤ c.erasesize - s.buflen ∧ n ≤ s.input.length ∧
    (n = 0 → c.erasesize - s.buflen = 0 ∨ s.input = []) ∧
    readMore c short s = ⟨overlay s.buf s.buflen (s.input.take n), s.buflen + n, s.input.drop n⟩ := by
  refine ⟨(s.input.take (min (c.erasesize - s.buflen) (short + 1))).length, ?_, ?_, ?_, ?_⟩
  · rw [List.length_take]
    omega
  · rw [List.length_take]
    omega
  · intro hzero
    rw [List.length_take] at hzero
    rw [List.eq_nil_iff_length_eq_zero]
    omega
  · simp only [readMore, List.length_take, Reader.mk.injEq, and_self, and_true]
    rw [← List.take_eq_take_min]

/-- The reader with as much of the image as fits. -/
def filled (c : Config) (s : Reader) : Reader :=
  let data := s.input.take (c.erasesize - s.buflen)
  ⟨overlay s.buf s.buflen data, s.buflen + data.length, s.input.drop (c.erasesize - s.buflen)⟩

theorem filled_self {s : Reader} (h : c.erasesize - s.buflen = 0 ∨ s.input = []) : filled c s = s := by
  rcases s with ⟨buf, buflen, input⟩
  rcases h with hzero | rfl
  · simp only at hzero
    simp [filled, hzero]
  · simp [filled]

theorem filled_read {s : Reader} {n : ℕ} (hlen : s.buflen ≤ s.buf.length) (hn : n ≤ c.erasesize - s.buflen)
    (hin : n ≤ s.input.length) :
    filled c ⟨overlay s.buf s.buflen (s.input.take n), s.buflen + n, s.input.drop n⟩ = filled c s := by
  have htake : (s.input.take n).length = n := List.length_take_of_le hin
  have hspace : c.erasesize - s.buflen = n + (c.erasesize - (s.buflen + n)) := by omega
  have hover := overlay_append hlen (s.input.take n) ((s.input.drop n).take (c.erasesize - (s.buflen + n)))
  rw [htake] at hover
  simp only [filled, hspace, List.take_add, List.length_append, htake, List.drop_drop, Nat.add_assoc, hover]

theorem fill_eq (short : ℕ → ℕ) {fuel : ℕ} {s : Reader} (hbuf : s.buf.length = c.erasesize)
    (hlen : s.buflen ≤ c.erasesize) (hfuel : c.erasesize - s.buflen ≤ fuel) : fill c short fuel s = filled c s := by
  induction fuel generalizing s with
  | zero =>
    have hspace : c.erasesize - s.buflen = 0 := by omega
    exact (filled_self (Or.inl hspace)).symm
  | succ fuel ih =>
    obtain ⟨n, hspace, hinput, hzero, hread⟩ := readMore_eq (c := c) (short fuel) s
    have hread' : (readMore c (short fuel) s).buflen = s.buflen + n := by rw [hread]
    rw [fill]
    simp only [hread']
    by_cases hn : n = 0
    · rw [if_pos (by omega)]
      exact (filled_self (hzero hn)).symm
    · have hgo := filled_read (c := c) (by omega) hspace hinput
      rw [← hread] at hgo
      rw [if_neg (by omega), ← hgo]
      split
      · apply ih
        · rw [hread, overlay_length (by rw [List.length_take]; omega), hbuf]
        · omega
        · omega
      · exact (filled_self (Or.inl (by omega))).symm

theorem eraseAhead_block {e : ℕ} {buflen fuel : ℕ} (hpos : 0 < buflen) (hlen : buflen ≤ c.erasesize)
    (erased : List ℕ) (hfuel : buflen ≤ fuel) :
    eraseAhead c (e + buflen) fuel (e, erased) = (e + c.erasesize, erased ++ [e]) := by
  obtain ⟨fuel, rfl⟩ : ∃ m, fuel = m + 1 := ⟨fuel - 1, by omega⟩
  rw [eraseAhead, if_pos (by omega)]
  cases fuel with
  | zero => rfl
  | succ fuel => rw [eraseAhead, if_neg (by omega)]

end Loops

/-! ## Where parsing ends -/

section Parse
variable (c : Config) (mem : ℕ → UInt8) (dir : List UInt8)

def ParseEnds : Prop := ∃ fuel f f', mtdParseJffs2data c mem dir fuel 0 f = some f'

/-- Whether it ends does not depend on the numbers found, and more fuel does not hurt. -/
theorem parse_more {fuel fuel' ofs : ℕ} {f f' : Found} (h : mtdParseJffs2data c mem dir fuel ofs f = some f')
    (hfuel : fuel ≤ fuel') (g : Found) : ∃ g', mtdParseJffs2data c mem dir fuel' ofs g = some g' := by
  induction fuel generalizing fuel' ofs f g with
  | zero => cases h
  | succ fuel ih =>
    obtain ⟨fuel', rfl⟩ : ∃ m, fuel' = m + 1 := ⟨fuel' - 1, by omega⟩
    rw [mtdParseJffs2data] at h ⊢
    split
    · rename_i hin
      rw [if_pos hin] at h
      split
      · exact ⟨g, rfl⟩
      · rename_i hmagic
        rw [if_neg hmagic] at h
        exact ih h (by omega) _
    · exact ⟨g, rfl⟩

end Parse

/-! ## The file in place of the marker -/

section Replace
variable {c : Config} (hc : c.Valid)

theorem pad_ofs_eq (c : Config) (size : ℕ) (s : Appender) :
    (pad c size s).ofs = if s.ofs % size = 0 ∧ s.ofs < c.erasesize then s.ofs
      else (if s.ofs < c.erasesize then s.ofs + (size - s.ofs % size) else s.ofs) % c.erasesize := by
  have hflush : ∀ t : Appender, (if t.ofs = 0 then flush c t else t).ofs = t.ofs := by
    intro t
    split <;> rfl
  rw [pad]
  split
  · rfl
  · refine (hflush _).trans ?_
    split <;> rfl

include hc in
theorem pad_ofs {s : Appender} (size : ℕ) : (pad c size s).ofs < c.erasesize := by
  have hlarge := hc.large
  rw [pad_ofs_eq]
  split
  · rename_i hskip
    exact hskip.2
  · exact Nat.mod_lt _ (by omega)

theorem pad_block_ofs {s : Appender} (hofs : s.ofs ≤ c.erasesize) : (pad c c.erasesize s).ofs = 0 := by
  rw [pad_ofs_eq]
  rcases hofs.lt_or_eq with hlt | heq
  · have hround : s.ofs + (c.erasesize - s.ofs) = c.erasesize := by omega
    rw [Nat.mod_eq_of_lt hlt, if_pos hlt, hround, Nat.mod_self]
    split
    · rename_i hskip
      exact hskip.1
    · rfl
  · rw [heq, if_neg (by omega), if_neg (by omega), Nat.mod_self]

include hc in
theorem prepEraseblock_ofs {s : Appender} (hofs : s.ofs < c.erasesize) :
    (prepEraseblock c s).ofs < c.erasesize ∧ (s.ofs = 0 → (prepEraseblock c s).ofs = 12) := by
  have hlarge := hc.large
  have hmarker : (cleanMarker c.be).length = 12 := cleanMarker_length c.be
  rw [prepEraseblock]
  split
  · exact ⟨hofs, by omega⟩
  · refine ⟨?_, fun hzero => ?_⟩
    · show s.ofs + (cleanMarker c.be).length < _
      omega
    · show s.ofs + (cleanMarker c.be).length = 12
      omega

include hc in
theorem makeRoom_ends {s : Appender} (hofs : s.ofs < c.erasesize) :
    ∃ s' len, makeRoom c 2 s = some (s', len) := by
  have hlarge := hc.large
  have hrbytes : ∀ t : Appender, t.ofs < c.erasesize → rbytes c t = c.erasesize - t.ofs := by
    intro t ht
    rw [rbytes, Nat.mod_eq_of_lt ht]
  rw [makeRoom]
  by_cases hroom : 128 < rbytes c s - 68
  · exact ⟨s, _, if_pos hroom⟩
  · obtain ⟨hlt, hfresh⟩ := prepEraseblock_ofs hc (s := pad c c.erasesize s) (by rw [pad_block_ofs hofs.le]; omega)
    have hofs' := hfresh (pad_block_ofs hofs.le)
    have heq := hrbytes _ hlt
    have hroom' : 128 < rbytes c (prepEraseblock c (pad c c.erasesize s)) - 68 := by omega
    refine ⟨prepEraseblock c (pad c c.erasesize s), rbytes c (prepEraseblock c (pad c c.erasesize s)) - 68, ?_⟩
    simp only [if_neg hroom]
    rw [makeRoom]
    exact if_pos hroom'

include hc in
theorem addChunk_ofs (s : Appender) (n : Inode) : (addChunk c n s).ofs < c.erasesize :=
  (prepEraseblock_ofs hc (pad_ofs hc 4)).1

include hc in
theorem addChunks_ends (ri : Inode) {fuel fOffset : ℕ} {rest : List UInt8} (hfuel : rest.length < fuel)
    {s : Appender} (hofs : s.ofs < c.erasesize) : ∃ s', addChunks c ri fuel fOffset rest s = some s' := by
  induction fuel generalizing fOffset rest s with
  | zero => omega
  | succ fuel ih =>
    obtain ⟨s₁, len, hroom⟩ := makeRoom_ends hc hofs
    rw [addChunks, hroom, Option.bind_some]
    by_cases hdata : rest.take (min len 4096) = []
    · exact ⟨s₁, if_pos hdata⟩
    · simp only [if_neg hdata]
      have hpos : 0 < (rest.take (min len 4096)).length := List.length_pos_of_ne_nil hdata
      have hrest : (rest.take (min len 4096)).length ≤ rest.length := by
        rw [List.length_take]
        omega
      apply ih
      · rw [List.length_drop]
        omega
      · exact addChunk_ofs hc _ _

include hc in
/-- Whatever the file is, the replacing ends. -/
theorem mtdReplaceJffs2_ends (buf : List UInt8) (filePos ofs : ℕ) (f : Found) (file : FileSource) :
    ∃ a, mtdReplaceJffs2 c buf filePos ofs f file = some a := by
  have hentry : ∀ (name : List UInt8) (s : Appender), (addDirent c name 8 1 s).1.ofs < c.erasesize :=
    fun name s => pad_ofs hc 4
  rw [mtdReplaceJffs2]
  simp only [Option.map_eq_some_iff]
  cases file with
  | missing => exact ⟨_, _, rfl, rfl⟩
  | unreadable st => exact ⟨_, _, rfl, rfl⟩
  | regular st content =>
    rw [addFile]
    obtain ⟨s', hs'⟩ := addChunks_ends hc _ (Nat.lt_succ_self content.length) (hentry (baseName st.path) _)
    exact ⟨_, s', hs', rfl⟩

end Replace

/-! ## Up to the marker -/

section Run
variable (c : Config)

/-- An erase block of the image; the last one may be shorter. -/
def imageBlock (image : List UInt8) (i : ℕ) : List UInt8 := (image.drop (i * c.erasesize)).take c.erasesize

/-- What the buffer holds before a round: at first what was allocated, then the block before. -/
def staleBuffer (heap image : List UInt8) : ℕ → List UInt8
  | 0 => heap
  | i + 1 => imageBlock c image i

/-- The blocks of the image up to one of them, as they are copied. -/
def copied (image : List UInt8) (k : ℕ) : List (ℕ × List UInt8) :=
  (List.range k).map fun i => (i * c.erasesize, imageBlock c image i)

/-- The first block with the marker. -/
structure MarkedAt (image : List UInt8) (k : ℕ) : Prop where
  marker : (imageBlock c image k).take 4 = jffs2Eof
  first : ∀ i < k, (imageBlock c image i).take 4 ≠ jffs2Eof

/-- The state before a round in which all blocks so far were copied. -/
structure BeforeBlock (heap image : List UInt8) (i : ℕ) (s : ImageWriter) : Prop where
  buf : s.reader.buf.length = c.erasesize
  buflen : s.reader.buflen ≤ c.erasesize
  stale : s.reader.buf = staleBuffer c heap image i
  rest : s.reader.buf.take s.reader.buflen ++ s.reader.input = image.drop (i * c.erasesize)
  w : s.w = i * c.erasesize
  e : s.e = i * c.erasesize
  copies : s.copies = copied c image i

variable {c} {heap image : List UInt8} {i k : ℕ} {s : ImageWriter}

theorem BeforeBlock.filled (h : BeforeBlock c heap image i s) :
    filled c s.reader = ⟨overlay (staleBuffer c heap image i) 0 (imageBlock c image i), (imageBlock c image i).length,
      image.drop ((i + 1) * c.erasesize)⟩ := by
  have hbuf := h.buf
  have hbuflen := h.buflen
  have hhave : (s.reader.buf.take s.reader.buflen).length = s.reader.buflen := by
    rw [List.length_take]
    omega
  have hblock : imageBlock c image i =
      s.reader.buf.take s.reader.buflen ++ s.reader.input.take (c.erasesize - s.reader.buflen) := by
    rw [imageBlock, ← h.rest, List.take_append, hhave, List.take_of_length_le (by omega)]
  have hrest : image.drop ((i + 1) * c.erasesize) = s.reader.input.drop (c.erasesize - s.reader.buflen) := by
    rw [Nat.succ_mul, ← List.drop_drop, ← h.rest, List.drop_append, hhave, List.drop_of_length_le (by omega),
      List.nil_append]
  rw [Jffs2.filled, hrest, hblock, List.length_append, hhave, ← h.stale]
  simp only [Reader.mk.injEq, and_true]
  rw [overlay, overlay, List.take_zero, List.nil_append, Nat.zero_add, List.length_append, hhave, List.append_assoc]

/-- The blocks before a marked one are whole. -/
theorem MarkedAt.whole (h : MarkedAt c image k) (hi : i < k) :
    (imageBlock c image i).length = c.erasesize := by
  have hlen := congrArg List.length h.marker
  have hfour : jffs2Eof.length = 4 := rfl
  rw [imageBlock, List.length_take, List.length_take, List.length_drop] at hlen
  rw [imageBlock, List.length_take, List.length_drop]
  have hmul : (i + 1) * c.erasesize ≤ k * c.erasesize := Nat.mul_le_mul_right _ hi
  rw [Nat.succ_mul] at hmul
  omega

theorem overlay_whole {m bs : List UInt8} (h : bs.length = m.length) : overlay m 0 bs = bs := by
  rw [overlay, List.take_zero, List.nil_append, Nat.zero_add, h, List.drop_length, List.append_nil]

theorem copied_succ (image : List UInt8) (i : ℕ) :
    copied c image (i + 1) = copied c image i ++ [(i * c.erasesize, imageBlock c image i)] := by
  rw [copied, List.range_succ, List.map_append, List.map_singleton, copied]

/-- What a round copies when it is not the last. -/
theorem BeforeBlock.copyBlock (h : BeforeBlock c heap image i s) (hwhole : (imageBlock c image i).length = c.erasesize)
    (hE : 0 < c.erasesize) (found : Found) :
    BeforeBlock c heap image (i + 1) (Jffs2.copyBlock c (Jffs2.filled c s.reader) found s) := by
  have hstale : (staleBuffer c heap image i).length = c.erasesize := by rw [← h.stale, h.buf]
  have hover : overlay (staleBuffer c heap image i) 0 (imageBlock c image i) = imageBlock c image i :=
    overlay_whole (by rw [hwhole, hstale])
  have hahead : eraseAhead c (s.w + c.erasesize) (s.w + c.erasesize) (s.e, s.erased) =
      (s.e + c.erasesize, s.erased ++ [s.e]) := by
    have hsame : s.w = s.e := by rw [h.w, h.e]
    rw [hsame]
    exact eraseAhead_block hE (le_refl _) s.erased (Nat.le_add_left _ _)
  have hmul : (i + 1) * c.erasesize = i * c.erasesize + c.erasesize := Nat.succ_mul i c.erasesize
  rw [h.filled, hover, hwhole, Jffs2.copyBlock]
  simp only [hahead]
  refine ⟨hwhole, Nat.zero_le _, rfl, ?_, ?_, ?_, ?_⟩
  · rw [List.take_zero, List.nil_append]
  · rw [hmul, h.w]
  · rw [hmul, h.e]
  · rw [copied_succ, h.copies, h.w, ← hwhole, List.take_length]

variable {job : WriteJob} {file : FileSource} {fuel rounds : ℕ}

/-- A round that reads something. -/
theorem writeBlocks_round (hfile : job.jffs2file = some file) (h : BeforeBlock c heap image i s)
    (hpos : 0 < (imageBlock c image i).length) :
    writeBlocks c job fuel (rounds + 1) s =
      let buf := overlay (staleBuffer c heap image i) 0 (imageBlock c image i)
      if buf.take 5 = jffs2Eof ++ [0] then
        (mtdReplaceJffs2 c job.heap (i * c.erasesize) (i * c.erasesize % 2 ^ 32) s.found file).map
          fun a => ⟨s.erased, copied c image i, some a⟩
      else (mtdParseJffs2data c (blockMem buf (job.behind i)) job.jffs2dir fuel 0 s.found).bind
        fun found => writeBlocks c job fuel rounds (copyBlock c (filled c s.reader) found s) := by
  have hround : (copied c image i).length = i := by rw [copied, List.length_map, List.length_range]
  have hfill : fill c (job.short i) c.erasesize s.reader = filled c s.reader :=
    fill_eq _ h.buf h.buflen (Nat.sub_le _ _)
  have hbuflen : (filled c s.reader).buflen = (imageBlock c image i).length := by rw [h.filled]
  have hbuf : (filled c s.reader).buf = overlay (staleBuffer c heap image i) 0 (imageBlock c image i) := by
    rw [h.filled]
  rw [writeBlocks]
  simp only [h.w, h.e, h.copies, hround, hfill, hbuflen, hbuf, hfile, if_neg hpos.ne']

/-- A round before the marked block. -/
theorem writeBlocks_before (hfile : job.jffs2file = some file) (hE : 0 < c.erasesize) (hmark : MarkedAt c image k)
    (hi : i < k) (h : BeforeBlock c heap image i s) :
    writeBlocks c job fuel (rounds + 1) s =
      (mtdParseJffs2data c (blockMem (imageBlock c image i) (job.behind i)) job.jffs2dir fuel 0 s.found).bind
        fun found => writeBlocks c job fuel rounds (copyBlock c (filled c s.reader) found s) := by
  have hwhole := hmark.whole hi
  have hbuf : overlay (staleBuffer c heap image i) 0 (imageBlock c image i) = imageBlock c image i := by
    apply overlay_whole
    rw [hwhole, ← h.stale, h.buf]
  have hne : ¬ (imageBlock c image i).take 5 = jffs2Eof ++ [0] := by
    intro heq
    apply hmark.first i hi
    have htake := congrArg (List.take 4) heq
    rw [List.take_take] at htake
    exact htake
  rw [writeBlocks_round hfile h (by omega)]
  simp only [hbuf, if_neg hne]

/-- The byte that is compared with the end of the marker's string. Where the image ends behind the
marker, it is what the buffer holds from before. -/
def behindMarker (c : Config) (heap image : List UInt8) (k : ℕ) : Option UInt8 :=
  if k * c.erasesize + 4 < image.length then image[k * c.erasesize + 4]? else (staleBuffer c heap image k)[4]?

theorem marker_compared (hE : 4096 ≤ c.erasesize) (hstale : (staleBuffer c heap image k).length = c.erasesize)
    (hmark : MarkedAt c image k) :
    (overlay (staleBuffer c heap image k) 0 (imageBlock c image k)).take 5 = jffs2Eof ++ [0] ↔
      behindMarker c heap image k = some 0 := by
  have hlen := congrArg List.length hmark.marker
  have hfour : jffs2Eof.length = 4 := rfl
  rw [List.length_take] at hlen
  have hblock : (imageBlock c image k).length ≤ (staleBuffer c heap image k).length := by
    rw [hstale, imageBlock, List.length_take]
    omega
  have hfit : 0 + (imageBlock c image k).length ≤ (staleBuffer c heap image k).length := by omega
  have hover := overlay_length hfit
  have hhead : (overlay (staleBuffer c heap image k) 0 (imageBlock c image k)).take 4 = jffs2Eof := by
    rw [overlay, List.take_zero, List.nil_append, List.take_append_of_le_length (by omega), hmark.marker]
  have hbyte : (overlay (staleBuffer c heap image k) 0 (imageBlock c image k))[4]? = behindMarker c heap image k := by
    rw [behindMarker]
    split
    · rename_i hin
      have hlong : 4 < (imageBlock c image k).length := by
        rw [imageBlock, List.length_take, List.length_drop]
        omega
      have hget := overlay_get_inside hfit hlong
      rw [Nat.zero_add] at hget
      rw [hget, imageBlock, List.getElem?_take_of_lt (by omega), List.getElem?_drop]
    · have hshort : (imageBlock c image k).length ≤ 4 := by
        rw [imageBlock, List.length_take, List.length_drop]
        omega
      exact overlay_get_outside (by omega) (Or.inr (by omega))
  rw [List.take_add_one, hhead, hbyte]
  cases behindMarker c heap image k with
  | none => simp
  | some b => simp

theorem writeBlocks_grows {r : Written} (h : writeBlocks c job fuel rounds s = some r) :
    s.copies.length ≤ r.copies.length := by
  have hcopy : ∀ (r : Reader) found (s : ImageWriter), (copyBlock c r found s).copies.length = s.copies.length + 1 := by
    intro r found s
    show (s.copies ++ [_]).length = _
    rw [List.length_append, List.length_singleton]
  induction rounds generalizing s with
  | zero => cases h
  | succ rounds ih =>
    rw [writeBlocks] at h
    split at h
    · cases h
      exact le_refl _
    · split at h
      · have hle := ih h
        rw [hcopy] at hle
        omega
      · split at h
        · obtain ⟨a, -, rfl⟩ := Option.map_eq_some_iff.mp h
          exact le_refl _
        · obtain ⟨found, -, hrest⟩ := Option.bind_eq_some_iff.mp h
          have hle := ih hrest
          rw [hcopy] at hle
          omega

/-- Every block before the marked one is parsed to its end. -/
def BlocksParse (c : Config) (job : WriteJob) (image : List UInt8) (k : ℕ) : Prop :=
  ∀ i < k, ParseEnds c (blockMem (imageBlock c image i) (job.behind i)) job.jffs2dir

/-- A run that ends has come to the marked block. -/
theorem reaches_marker (hfile : job.jffs2file = some file) (hE : 0 < c.erasesize) (hmark : MarkedAt c image k)
    {r : Written} (h : BeforeBlock c heap image i s) (hi : i ≤ k) (hr : writeBlocks c job fuel rounds s = some r) :
    (∀ j, i ≤ j → j < k → ParseEnds c (blockMem (imageBlock c image j) (job.behind j)) job.jffs2dir) ∧
      ∃ rounds' s', BeforeBlock c heap image k s' ∧ writeBlocks c job fuel rounds' s' = some r := by
  induction rounds generalizing i s with
  | zero => cases hr
  | succ rounds ih =>
    rcases hi.lt_or_eq with hlt | rfl
    · rw [writeBlocks_before hfile hE hmark hlt h] at hr
      obtain ⟨found, hparse, hrest⟩ := Option.bind_eq_some_iff.mp hr
      obtain ⟨hends, hlast⟩ := ih (h.copyBlock (hmark.whole hlt) hE found) hlt hrest
      refine ⟨fun j hij hjk => ?_, hlast⟩
      rcases hij.lt_or_eq with hij | rfl
      · exact hends j hij hjk
      · exact ⟨fuel, s.found, found, hparse⟩
    · exact ⟨fun j hij hjk => absurd hjk (by omega), rounds + 1, s, h, hr⟩

/-- One amount of fuel is enough for all blocks. -/
theorem BlocksParse.enough_fuel (h : BlocksParse c job image k) : ∃ fuel, ∀ i < k, ∀ g, ∃ g',
    mtdParseJffs2data c (blockMem (imageBlock c image i) (job.behind i)) job.jffs2dir fuel 0 g = some g' := by
  induction k with
  | zero => exact ⟨0, fun i hi => absurd hi (by omega)⟩
  | succ k ih =>
    obtain ⟨fuel, hfuel⟩ := ih fun i hi => h i (by omega)
    obtain ⟨fuel', f, f', hlast⟩ := h k (by omega)
    refine ⟨max fuel fuel', fun i hi g => ?_⟩
    rcases (Nat.lt_succ_iff.mp hi).lt_or_eq with hlt | rfl
    · obtain ⟨g', hg'⟩ := hfuel i hlt g
      exact parse_more c _ _ hg' (le_max_left _ _) g
    · exact parse_more c _ _ hlast (le_max_right _ _) g

/-- With enough fuel the run comes to the marked block. -/
theorem comes_to_marker (rounds : ℕ) (hfile : job.jffs2file = some file) (hE : 0 < c.erasesize) (hmark : MarkedAt c image k)
    (hfuel : ∀ i < k, ∀ g, ∃ g', mtdParseJffs2data c (blockMem (imageBlock c image i) (job.behind i)) job.jffs2dir
      fuel 0 g = some g') {d : ℕ} (hd : i + d = k) (h : BeforeBlock c heap image i s) :
    ∃ s', BeforeBlock c heap image k s' ∧
      writeBlocks c job fuel (rounds + d) s = writeBlocks c job fuel rounds s' := by
  induction d generalizing i s with
  | zero =>
    obtain rfl : i = k := by omega
    exact ⟨s, h, rfl⟩
  | succ d ih =>
    have hi : i < k := by omega
    obtain ⟨found, hparse⟩ := hfuel i hi s.found
    obtain ⟨s', hs', hrun⟩ := ih (by omega) (h.copyBlock (hmark.whole hi) hE found)
    refine ⟨s', hs', ?_⟩
    rw [← Nat.add_assoc, writeBlocks_before hfile hE hmark hi h, hparse, Option.bind_some, hrun]

end Run

/-! ## The marker's agreement -/

/-- The image that a reader delivers. -/
def Reader.image (s : Reader) : List UInt8 := s.buf.take s.buflen ++ s.input

/-- The blocks before the marked one are copied, and then the file is put in its place. -/
def AppendsAt (c : Config) (job : WriteJob) (file : FileSource) (start : Reader) (k : ℕ) : Prop :=
  ∃ fuel r found a, mtdWrite c job fuel start = some r ∧ r.copies = copied c start.image k ∧ r.appended = some a ∧
    mtdReplaceJffs2 c job.heap (k * c.erasesize) (k * c.erasesize % 2 ^ 32) found file = some a

section Agreement
variable {c : Config} (hc : c.Valid) {job : WriteJob} {file : FileSource} {start : Reader} {k : ℕ}

theorem beforeBlock_start (hbuf : start.buf.length = c.erasesize) (hbuflen : start.buflen ≤ c.erasesize) :
    BeforeBlock c start.buf start.image 0 ⟨start, 0, 0, ⟨0, 0, 0⟩, [], []⟩ where
  buf := hbuf
  buflen := hbuflen
  stale := rfl
  rest := by rw [Nat.zero_mul, List.drop_zero, Reader.image]
  w := (Nat.zero_mul _).symm
  e := (Nat.zero_mul _).symm
  copies := rfl

theorem MarkedAt.pos (hmark : MarkedAt c start.image k) : 0 < (imageBlock c start.image k).length := by
  have hlen := congrArg List.length hmark.marker
  have hfour : jffs2Eof.length = 4 := rfl
  rw [List.length_take] at hlen
  omega

include hc in
/-- Without a zero behind the marker its block is copied too. -/
theorem not_appendsAt (hfile : job.jffs2file = some file) (hbuf : start.buf.length = c.erasesize)
    (hbuflen : start.buflen ≤ c.erasesize) (hmark : MarkedAt c start.image k)
    (hbyte : behindMarker c start.buf start.image k ≠ some 0) : ¬ AppendsAt c job file start k := by
  have hlarge := hc.large
  rintro ⟨fuel, r, found, a, hrun, hcopies, -⟩
  obtain ⟨-, rounds, s, hs, hrest⟩ := reaches_marker hfile (by omega) hmark (beforeBlock_start hbuf hbuflen)
    (Nat.zero_le k) hrun
  cases rounds with
  | zero => cases hrest
  | succ rounds =>
    have hstale : (staleBuffer c start.buf start.image k).length = c.erasesize := by rw [← hs.stale, hs.buf]
    rw [writeBlocks_round hfile hs (hmark.pos)] at hrest
    simp only [if_neg (mt (marker_compared hlarge hstale hmark).mp hbyte)] at hrest
    obtain ⟨found', -, hgo⟩ := Option.bind_eq_some_iff.mp hrest
    have hgrows := writeBlocks_grows hgo
    have hcopy : (copyBlock c (filled c s.reader) found' s).copies.length = s.copies.length + 1 := by
      show (s.copies ++ [_]).length = _
      rw [List.length_append, List.length_singleton]
    rw [hcopy, hs.copies, hcopies] at hgrows
    omega

include hc in
theorem appendsAt_parses (hfile : job.jffs2file = some file) (hbuf : start.buf.length = c.erasesize)
    (hbuflen : start.buflen ≤ c.erasesize) (hmark : MarkedAt c start.image k) (h : AppendsAt c job file start k) :
    BlocksParse c job start.image k := by
  have hlarge := hc.large
  obtain ⟨fuel, r, found, a, hrun, -⟩ := h
  obtain ⟨hends, -⟩ := reaches_marker hfile (by omega) hmark (beforeBlock_start hbuf hbuflen) (Nat.zero_le k) hrun
  exact fun i hi => hends i (Nat.zero_le i) hi

include hc in
theorem appendsAt_of_zero (hfile : job.jffs2file = some file) (hbuf : start.buf.length = c.erasesize)
    (hbuflen : start.buflen ≤ c.erasesize) (hmark : MarkedAt c start.image k)
    (hbyte : behindMarker c start.buf start.image k = some 0) (hparse : BlocksParse c job start.image k) :
    AppendsAt c job file start k := by
  have hlarge := hc.large
  obtain ⟨fuel, hfuel⟩ := hparse.enough_fuel
  -- the rounds and the parsing have the same fuel
  have hmore : ∀ i < k, ∀ g, ∃ g', mtdParseJffs2data c (blockMem (imageBlock c start.image i) (job.behind i))
      job.jffs2dir (fuel + 1 + k) 0 g = some g' := by
    intro i hi g
    obtain ⟨g', hg'⟩ := hfuel i hi g
    exact parse_more c _ _ hg' (by omega) g
  obtain ⟨s, hs, hrun⟩ := comes_to_marker (fuel + 1) hfile (by omega) hmark hmore (Nat.zero_add k)
    (beforeBlock_start hbuf hbuflen)
  obtain ⟨a, ha⟩ := mtdReplaceJffs2_ends hc job.heap (k * c.erasesize) (k * c.erasesize % 2 ^ 32) s.found file
  have hstale : (staleBuffer c start.buf start.image k).length = c.erasesize := by rw [← hs.stale, hs.buf]
  refine ⟨fuel + 1 + k, ⟨s.erased, copied c start.image k, some a⟩, s.found, a, ?_, rfl, rfl, ha⟩
  rw [mtdWrite, hrun, writeBlocks_round hfile hs (hmark.pos)]
  simp only [if_pos ((marker_compared hlarge hstale hmark).mpr hbyte), ha, Option.map_some]

include hc in
/-- The file goes in place of the marked block exactly when a zero byte follows the marker in the buffer and
parsing ends on the blocks before. -/
theorem mtdWrite_appends_iff (hfile : job.jffs2file = some file) (hbuf : start.buf.length = c.erasesize)
    (hbuflen : start.buflen ≤ c.erasesize) (hmark : MarkedAt c start.image k) :
    AppendsAt c job file start k ↔
      behindMarker c start.buf start.image k = some 0 ∧ BlocksParse c job start.image k := by
  constructor
  · intro h
    refine ⟨?_, appendsAt_parses hc hfile hbuf hbuflen hmark h⟩
    by_contra hbyte
    exact not_appendsAt hc hfile hbuf hbuflen hmark hbyte h
  · rintro ⟨hbyte, hparse⟩
    exact appendsAt_of_zero hc hfile hbuf hbuflen hmark hbyte hparse

end Agreement

/-- A job with a file, on memory of zeros and without short reads. -/
def plainJob (file : FileSource) : WriteJob := ⟨some file, [], erasedBlock, fun _ _ => 0, fun _ _ => 4096⟩

/-- Two blocks with an entry, and the marker behind them. -/
def entriesImage : List UInt8 := entryBlock ++ entryBlock ++ jffs2Eof ++ [0]

theorem entriesImage_blocks : ∀ i < 2, imageBlock smallFlash entriesImage i = entryBlock := by
  decide +kernel

theorem mtdWrite_appends_terminated :
    AppendsAt smallFlash (plainJob oneByteFile) oneByteFile ⟨erasedBlock, 0, entriesImage⟩ 2 := by
  have hmark : MarkedAt smallFlash (Reader.image ⟨erasedBlock, 0, entriesImage⟩) 2 := by
    refine ⟨by decide +kernel, fun i hi => ?_⟩
    show (imageBlock smallFlash entriesImage i).take 4 ≠ _
    rw [entriesImage_blocks i hi]
    decide +kernel
  have hparse : BlocksParse smallFlash (plainJob oneByteFile) (Reader.image ⟨erasedBlock, 0, entriesImage⟩) 2 := by
    intro i hi
    show ParseEnds smallFlash (blockMem (imageBlock smallFlash entriesImage i) fun _ => 0) []
    rw [entriesImage_blocks i hi]
    obtain ⟨found, hparse⟩ := Option.isSome_iff_exists.mp (by decide +kernel : (mtdParseJffs2data smallFlash
      (blockMem entryBlock fun _ => 0) [] 3 0 ⟨0, 0, 0⟩).isSome)
    exact ⟨3, _, found, hparse⟩
  apply (mtdWrite_appends_iff smallFlash_valid rfl erasedBlock_length (Nat.zero_le _) hmark).mpr
  exact ⟨by decide +kernel, hparse⟩

/-- The block that ends an appended file system is not taken for its end. -/
theorem mtdWrite_misses_eofBlock :
    MarkedAt smallFlash (Reader.image ⟨erasedBlock, 0, eofBlock smallFlash⟩) 0 ∧
      ¬ AppendsAt smallFlash (plainJob oneByteFile) oneByteFile ⟨erasedBlock, 0, eofBlock smallFlash⟩ 0 := by
  have hmark : MarkedAt smallFlash (Reader.image ⟨erasedBlock, 0, eofBlock smallFlash⟩) 0 :=
    ⟨by decide +kernel, fun i hi => absurd hi (Nat.not_lt_zero i)⟩
  refine ⟨hmark, not_appendsAt smallFlash_valid rfl erasedBlock_length (Nat.zero_le _) hmark ?_⟩
  decide +kernel

end Neufbox.Jffs2
