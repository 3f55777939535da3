import Neufbox.Jffs2.Consistency
import Neufbox.Jffs2.Layout

/-! # An appended file on the device

The blocks of an append, read back from their bytes: walking each block from its clean marker meets the
nodes in the order they were put together, and the inodes of the file carry its bytes. -/
namespace Neufbox.Jffs2
open Memory ByteStore WrapArith
set_option autoImplicit false
set_option maxHeartbeats 250000
set_option maxRecDepth 120000

/-! ## Walking a block -/

/-- Where a walk meets the nodes of a block. -/
def visits (be : Bool) : ℕ → List Node → List (ℕ × List UInt8)
  | _, [] => []
  | ofs, n :: ns => (ofs, n.bytes be) :: visits be (ofs + roundUp (n.bytes be).length 4) ns

theorem visits_map_snd (be : Bool) (ofs : ℕ) (ns : List Node) :
    (visits be ofs ns).map Prod.snd = ns.map (Node.bytes be) := by
  induction ns generalizing ofs with
  | nil => rfl
  | cons n ns ih => rw [visits, List.map_cons, ih, List.map_cons]

def paddedNodes (be : Bool) (ns : List Node) : List UInt8 := ns.flatMap fun n => padTo 4 (n.bytes be)

theorem paddedNodes_cons_length (be : Bool) (n : Node) (ns : List Node) :
    (paddedNodes be (n :: ns)).length = roundUp (n.bytes be).length 4 + (paddedNodes be ns).length := by
  rw [paddedNodes, List.flatMap_cons, List.length_append, padTo_length (by norm_num), paddedNodes]

theorem Node.bytes_pos (be : Bool) (n : Node) : 12 ≤ (n.bytes be).length := by
  obtain ⟨fields, hbytes⟩ := n.bytes_headed be
  have hlen := congrArg List.length hbytes
  rw [headed_length] at hlen
  omega

theorem length_le_paddedNodes (be : Bool) (ns : List Node) : ns.length ≤ (paddedNodes be ns).length := by
  induction ns with
  | nil => exact le_refl 0
  | cons n ns ih =>
    have hround := le_roundUp (x := (n.bytes be).length) (by norm_num : 0 < 4)
    have hpos := n.bytes_pos be
    rw [paddedNodes_cons_length, List.length_cons]
    omega

theorem mem_paddedNodes_length (be : Bool) {ns : List Node} {n : Node} (hn : n ∈ ns) :
    (n.bytes be).length ≤ (paddedNodes be ns).length := by
  induction ns with
  | nil => cases hn
  | cons m ns ih =>
    have hround := le_roundUp (x := (m.bytes be).length) (by norm_num : 0 < 4)
    rw [paddedNodes_cons_length]
    rcases List.mem_cons.mp hn with rfl | hn
    · omega
    · have hle := ih hn
      omega

theorem visits_inside (be : Bool) {ofs : ℕ} (hofs : ofs % 4 = 0) (ns : List Node) :
    ∀ v ∈ visits be ofs ns, v.1 % 4 = 0 ∧ v.1 + v.2.length ≤ ofs + (paddedNodes be ns).length := by
  induction ns generalizing ofs with
  | nil => simp [visits]
  | cons n ns ih =>
    have hround := le_roundUp (x := (n.bytes be).length) (by norm_num : 0 < 4)
    have hdvd := Nat.mod_eq_zero_of_dvd (dvd_roundUp (n.bytes be).length 4)
    rw [paddedNodes_cons_length]
    intro v hv
    rcases List.mem_cons.mp hv with rfl | hv
    · refine ⟨hofs, ?_⟩
      show ofs + (n.bytes be).length ≤ _
      omega
    · obtain ⟨halign, hin⟩ := ih (by omega) v hv
      exact ⟨halign, by omega⟩

section Walk
variable {be : Bool}

/-- A node is not taken for padding. -/
theorem node_not_padding (n : Node) (rest : List UInt8) :
    (padTo 4 (n.bytes be) ++ rest).all (· == 0xff) = false := by
  obtain ⟨fields, hbytes⟩ := n.bytes_headed be
  obtain ⟨b, tail, hb, hne⟩ : ∃ b tail, n.bytes be = b :: tail ∧ b ≠ 0xff := by
    rw [hbytes, headed, nodeHeader]
    cases be
    · exact ⟨0x85, _, rfl, by decide⟩
    · exact ⟨0x19, _, rfl, by decide⟩
  rw [padTo, hb]
  simp [hne]

theorem walk_padding (fuel ofs k : ℕ) : walk be (fuel + 1) ofs (List.replicate k 0xff) = some [] := by
  rw [walk]
  simp

theorem walk_node (fuel ofs : ℕ) (n : Node) (rest : List UInt8) (hlen : (n.bytes be).length < 2 ^ 32) :
    walk be (fuel + 1) ofs (padTo 4 (n.bytes be) ++ rest) =
      (walk be fuel (ofs + roundUp (n.bytes be).length 4) rest).map ((ofs, n.bytes be) :: ·) := by
  obtain ⟨fields, hbytes⟩ := n.bytes_headed be
  have hpos := n.bytes_pos be
  have hpadlen := padTo_length (by norm_num : 0 < 4) (n.bytes be)
  have hsplit : padTo 4 (n.bytes be) ++ rest = n.bytes be ++
      (List.replicate (roundUp (n.bytes be).length 4 - (n.bytes be).length) 0xff ++ rest) := by
    rw [padTo, List.append_assoc]
  have htake : ∀ k ≤ (n.bytes be).length, (padTo 4 (n.bytes be) ++ rest).take k = (n.bytes be).take k := by
    intro k hk
    rw [hsplit, List.take_append_of_le_length hk]
  have hmagic : word be ((padTo 4 (n.bytes be) ++ rest).take 2) = magicBitmask := by
    rw [htake 2 (by omega), hbytes]
    exact headed_magic
  have htotlen : field be (padTo 4 (n.bytes be) ++ rest) 4 = (n.bytes be).length := by
    have hfield : field be (padTo 4 (n.bytes be) ++ rest) 4 = field be (n.bytes be) 4 := by
      rw [field, field, hsplit, List.drop_append_of_le_length (by omega),
        List.take_append_of_le_length (by rw [List.length_drop]; omega)]
    rw [hfield]
    nth_rewrite 1 [hbytes]
    exact headed_totlen hlen
  have hroom : ¬ (word be ((padTo 4 (n.bytes be) ++ rest).take 2) ≠ magicBitmask ∨ (n.bytes be).length < 12 ∨
      (padTo 4 (n.bytes be) ++ rest).length < (n.bytes be).length) := by
    rw [hmagic, hsplit, List.length_append]
    omega
  rw [walk, htotlen, node_not_padding]
  simp only [Bool.false_eq_true, if_false, if_neg hroom]
  rw [List.drop_left' hpadlen, htake _ (le_refl _), List.take_length]

theorem walk_nodes (fuel ofs k : ℕ) (ns : List Node) (hfuel : ns.length < fuel)
    (hlen : ∀ n ∈ ns, (n.bytes be).length < 2 ^ 32) :
    walk be fuel ofs (paddedNodes be ns ++ List.replicate k 0xff) = some (visits be ofs ns) := by
  induction ns generalizing fuel ofs with
  | nil =>
    obtain ⟨m, rfl⟩ : ∃ m, fuel = m + 1 := ⟨fuel - 1, by omega⟩
    exact walk_padding m ofs k
  | cons n ns ih =>
    obtain ⟨m, rfl⟩ : ∃ m, fuel = m + 1 := ⟨fuel - 1, by omega⟩
    have htail := ih m (ofs + roundUp (n.bytes be).length 4) (by rw [List.length_cons] at hfuel; omega)
      fun n' hn' => hlen n' (List.mem_cons_of_mem _ hn')
    rw [paddedNodes, List.flatMap_cons, List.append_assoc, walk_node m ofs n _ (hlen n List.mem_cons_self)]
    rw [paddedNodes] at htail
    rw [htail]
    rfl

end Walk

/-! ## Whole blocks -/

section Whole
variable {c : Config} (hc : c.Valid) {ns : List Node}

theorem blockPrefix_eq (ns : List Node) : blockPrefix c ns = cleanMarker c.be ++ paddedNodes c.be ns := rfl

include hc in
theorem fullBlock_length (h : (blockPrefix c ns).length ≤ c.erasesize) : (fullBlock c ns).length = c.erasesize := by
  have hlarge := hc.large
  have hpos := blockPrefix_pos c ns
  rw [fullBlock, padTo_length (by omega), roundUp_of_lt (by omega) h]

theorem fullBlock_marker (ns : List Node) : (fullBlock c ns).take 12 = cleanMarker c.be := by
  rw [fullBlock, padTo, blockPrefix_eq, List.append_assoc, List.take_left' (cleanMarker_length c.be)]

include hc in
/-- The walk through a block meets its nodes. -/
theorem walkBlock_fullBlock (h : (blockPrefix c ns).length ≤ c.erasesize) :
    walkBlock c.be (fullBlock c ns) = some (visits c.be 12 ns) := by
  have hint := hc.int
  have hlen := fullBlock_length hc h
  have hprefix : (paddedNodes c.be ns).length + 12 ≤ c.erasesize := by
    rw [blockPrefix_eq, List.length_append, cleanMarker_length] at h
    omega
  have hdrop : (fullBlock c ns).drop 12 = paddedNodes c.be ns ++
      List.replicate (roundUp (blockPrefix c ns).length c.erasesize - (blockPrefix c ns).length) 0xff := by
    rw [fullBlock, padTo]
    nth_rewrite 1 [blockPrefix_eq]
    rw [List.append_assoc, List.drop_left' (cleanMarker_length c.be)]
  rw [walkBlock, if_pos (fullBlock_marker ns), hdrop, hlen]
  apply walk_nodes
  · have hle := length_le_paddedNodes c.be ns
    omega
  · intro n hn
    have hle := mem_paddedNodes_length c.be hn
    omega

end Whole

/-! ## The whole append -/

section Append
variable {c : Config} (hc : c.Valid) {start : ℕ} {s : Appender} {done : List (List Node)} {cur : Option (List Node)}

theorem addData_nil (h : s.ofs ≤ c.erasesize) : addData c [] s = s := by
  rw [addData, List.length_nil, Nat.add_zero, if_neg (by omega), put, overlay_nil]
  rfl

include hc in
/-- The directory's entry and inode stay in the first block. -/
theorem Layout.addDir (h : Layout c start s done none) {name : List UInt8} (hname : name.length ≤ 255)
    (parent : ℕ) : ∃ ns, Layout c start (Jffs2.addDir c name parent s).1 done (some ns) ∧
      (blockPrefix c ns).length ≤ 380 := by
  have hlarge := hc.large
  have hmarker : (blockPrefix c []).length = 12 := by rw [blockPrefix_nil, cleanMarker_length]
  obtain ⟨de, -, hentry, hlen⟩ := h.addDirent hc hname (by
    show (blockPrefix c []).length + 300 < _
    omega) 4 parent
  simp only [Option.getD_none, List.nil_append] at hentry hlen
  have hofs : (Jffs2.addDirent c name 4 parent s).1.ofs = (blockPrefix c [.dirent de]).length := hentry.holds.ofs
  have hrbytes := hentry.rbytes_eq
  have hprep : prepEraseblock c (Jffs2.addDirent c name 4 parent s).1 = (Jffs2.addDirent c name 4 parent s).1 := by
    have hpos := blockPrefix_pos c [.dirent de]
    exact if_pos (by omega)
  generalize hn : (⟨(Jffs2.addDirent c name 4 parent s).2, 1, 0o40755, 0, 0, 0, 0, 0, []⟩ : Inode) = n
  have hdata : n.data = [] := by rw [← hn]
  have hheader := n.header_length c.be
  have hadded : (addData c (n.header c.be) (Jffs2.addDirent c name 4 parent s).1).ofs =
      (blockPrefix c [.dirent de]).length + 68 := by
    rw [addData, if_neg (by omega)]
    show (Jffs2.addDirent c name 4 parent s).1.ofs + (n.header c.be).length = _
    rw [hofs, hheader]
  have hstate : (Jffs2.addDir c name parent s).1 = pad c 4 (emit (.inode n) (addData c n.data
      (addData c (n.header c.be) (Jffs2.addDirent c name 4 parent s).1))) := by
    rw [hdata, addData_nil (by omega), Jffs2.addDir]
    simp only [hn]
    rw [if_neg (by omega), hprep]
  have hfit : (Jffs2.addDirent c name 4 parent s).1.ofs + 68 + n.data.length ≤ c.erasesize := by
    rw [hdata, List.length_nil]
    omega
  obtain ⟨done', cur', hlayout, hsome, hnone⟩ := hentry.addInode hc n hfit rfl
  have hgrow : (blockPrefix c ([.dirent de] ++ [.inode n])).length ≤ 380 := by
    rw [blockPrefix_concat, List.length_append, padTo_length (by norm_num), Node.bytes, hdata, List.append_nil,
      hheader]
    have hround : roundUp 68 4 = 68 := by decide
    omega
  cases cur' with
  | none =>
    have hfull := hnone rfl
    omega
  | some ms =>
    obtain ⟨rfl, rfl⟩ := hsome ms rfl
    rw [hstate]
    exact ⟨_, hlayout, hgrow⟩

include hc in
theorem Layout.addFile (h : Layout c start s done cur) (hroom : (blockPrefix c (cur.getD [])).length ≤ 380)
    {st : FileStat} (hname : (baseName st.path).length ≤ 255) (content : List UInt8) (parent : ℕ) :
    ∃ s' done' ns, Jffs2.addFile c (.regular st content) parent s = some s' ∧
      Layout c start s' done' (some ns) := by
  have hlarge := hc.large
  obtain ⟨de, -, hentry, -⟩ := h.addDirent hc hname (by omega) 8 parent
  rw [Jffs2.addFile]
  exact Layout.addChunks hc _ (Nat.lt_succ_self _) hentry

/-- The end marker's block. -/
def eofBlock (c : Config) : List UInt8 := padTo c.erasesize jffs2Eof

include hc in
theorem Layout.finish {ns : List Node} (h : Layout c start s done (some ns)) :
    (Jffs2.finish c s).written = blocksAt c start (done ++ [ns]) ++
      [⟨(start + (done.length + 1) * c.erasesize) % 2 ^ 32, start + (done.length + 1) * c.erasesize, eofBlock c⟩] := by
  have hlarge := hc.large
  have hblock := h.padBlock hc
  have hdevice := hblock.device
  simp only [Appender.device, Prod.mk.injEq, List.length_append, List.length_singleton] at hdevice
  obtain ⟨hmtdofs, hfilePos, hwritten⟩ := hdevice
  have hofs : (pad c c.erasesize s).ofs = 0 := hblock.holds.ofs
  have hdata : addData c jffs2Eof (pad c c.erasesize s) = put jffs2Eof (pad c c.erasesize s) := by
    have hlen : jffs2Eof.length = 4 := rfl
    rw [addData, if_neg (by omega)]
  have hput := holds_put hblock.holds jffs2Eof (by show 0 + 4 ≤ _; omega)
  have hround : roundUp ([] ++ jffs2Eof).length c.erasesize = c.erasesize :=
    roundUp_of_lt (by decide) (by show 4 ≤ _; omega)
  obtain ⟨-, hfinal⟩ := (holds_pad hput (by omega) (dvd_refl _)).2 hround
  rw [Jffs2.finish, hdata]
  have hlast := congrArg (fun d => d.2.2) hfinal
  simp only [Appender.device] at hlast
  rw [hlast]
  show (pad c c.erasesize s).written ++ [⟨(pad c c.erasesize s).mtdofs, (pad c c.erasesize s).filePos, _⟩] = _
  rw [hwritten, hmtdofs, hfilePos]
  rfl

theorem layout_start {p : Place} (hblock : p.block.length = c.erasesize) (hE : 0 < c.erasesize) :
    Layout c (p.index * c.erasesize) (startAppend c p) [] none where
  holds := ⟨hblock, rfl, rfl⟩
  room := hE
  device := by simp [Appender.device, startAppend, blocksAt]
  fits := by simp
  emitted := rfl

include hc in
/-- The append ends; its blocks are followed by the one with the end marker. -/
theorem appendFile_layout {p : Place} (hblock : p.block.length = c.erasesize) {dir : List UInt8}
    (hdir : dir.length ≤ 255) {st : FileStat} (hname : (baseName st.path).length ≤ 255) (content : List UInt8) :
    ∃ r done, appendFile c dir (.regular st content) p = some r ∧
      r.written = blocksAt c (p.index * c.erasesize) done ++
        [⟨(p.index * c.erasesize + done.length * c.erasesize) % 2 ^ 32,
          p.index * c.erasesize + done.length * c.erasesize, eofBlock c⟩] ∧
      (∀ ns ∈ done, (blockPrefix c ns).length ≤ c.erasesize) ∧ r.emitted = done.flatten := by
  have hlarge := hc.large
  have hstart := layout_start (c := c) hblock (by omega)
  have hbegun : ∃ cur, Layout c (p.index * c.erasesize) (if p.found.targetIno = 0 then
      addDir c dir 1 (startAppend c p) else (startAppend c p, p.found.targetIno)).1 [] cur ∧
      (blockPrefix c (cur.getD [])).length ≤ 380 := by
    split
    · obtain ⟨ns, hlayout, hlen⟩ := hstart.addDir hc hdir 1
      exact ⟨some ns, hlayout, hlen⟩
    · refine ⟨none, hstart, ?_⟩
      show (blockPrefix c []).length ≤ 380
      rw [blockPrefix_nil, cleanMarker_length]
      norm_num
  obtain ⟨cur, hlayout, hlen⟩ := hbegun
  obtain ⟨s, done, ns, hfile, hdone⟩ := hlayout.addFile hc hlen hname content
    (if p.found.targetIno = 0 then addDir c dir 1 (startAppend c p) else (startAppend c p, p.found.targetIno)).2
  have hblocks := hdone.padBlock hc
  refine ⟨Jffs2.finish c s, done ++ [ns], ?_, ?_, hblocks.fits, ?_⟩
  · rw [appendFile, hfile, Option.map_some]
  · rw [hdone.finish hc, List.length_append, List.length_singleton]
  · rw [emitted_of_ledger (ledger_finish c s), hdone.emitted]
    simp

end Append

/-! ## What the device holds -/

/-- Blocks at consecutive positions, each a clean marker, nodes and padding. -/
structure WellLaid (c : Config) (start : ℕ) (blocks : List BlockWrite) (nodes : List (List UInt8)) : Prop where
  positions : ∀ i b, blocks[i]? = some b →
    b.writeAt = start + i * c.erasesize ∧ b.eraseAt = (start + i * c.erasesize) % 2 ^ 32
  sizes : ∀ b ∈ blocks, b.data.length = c.erasesize
  markers : ∀ b ∈ blocks, b.data.take 12 = cleanMarker c.be
  walks : ∃ vs : List (List (ℕ × List UInt8)), blocks.map (fun b => walkBlock c.be b.data) = vs.map some ∧
    vs.flatten.map Prod.snd = nodes ∧ ∀ v ∈ vs.flatten, v.1 % 4 = 0 ∧ v.1 + v.2.length ≤ c.erasesize
  crcs : ∀ n ∈ nodes, CrcsRight c.be n

/-- The inodes with a number, among nodes as bytes. -/
def inodesOf (be : Bool) (ino : ℕ) (nodes : List (List UInt8)) : List (List UInt8) :=
  nodes.filter fun n => word be ((n.drop 2).take 2) == nodetypeInode && field be n 12 == ino

/-- Inodes that carry a file; `version` is the number used last before them. -/
structure FileData (be : Bool) (version : ℕ) (content : List UInt8) (nodes : List (List UInt8)) : Prop where
  versions : ∀ i n, nodes[i]? = some n → field be n 16 = (version + 1 + i) % 2 ^ 32
  offsets : ∀ i n, nodes[i]? = some n →
    field be n 44 = ((nodes.take i).map fun m => (m.drop 68).length).sum % 2 ^ 32
  sizes : ∀ n ∈ nodes, field be n 48 = (n.drop 68).length ∧ field be n 52 = (n.drop 68).length
  content : nodes.flatMap (fun n => n.drop 68) = content

theorem wellLaid_blocksAt {c : Config} (hc : c.Valid) (start : ℕ) {done : List (List Node)}
    (hfits : ∀ ns ∈ done, (blockPrefix c ns).length ≤ c.erasesize) :
    WellLaid c start (blocksAt c start done) (done.flatten.map (Node.bytes c.be)) := by
  have hmem : ∀ b ∈ blocksAt c start done, ∃ ns ∈ done, b.data = fullBlock c ns := by
    intro b hb
    obtain ⟨i, hi, rfl⟩ := List.mem_mapIdx.mp hb
    exact ⟨done[i], List.getElem_mem hi, rfl⟩
  refine ⟨?_, ?_, ?_, ⟨done.map (visits c.be 12), ?_, ?_, ?_⟩, ?_⟩
  · intro i b hb
    rw [blocksAt, List.getElem?_mapIdx, Option.map_eq_some_iff] at hb
    obtain ⟨ns, -, rfl⟩ := hb
    exact ⟨rfl, rfl⟩
  · intro b hb
    obtain ⟨ns, hns, hdata⟩ := hmem b hb
    rw [hdata, fullBlock_length hc (hfits ns hns)]
  · intro b hb
    obtain ⟨ns, -, hdata⟩ := hmem b hb
    rw [hdata, fullBlock_marker]
  · apply List.ext_getElem?
    intro i
    rw [List.getElem?_map, blocksAt, List.getElem?_mapIdx, List.getElem?_map, List.getElem?_map]
    cases hi : done[i]? with
    | none => rfl
    | some ns =>
      have hns := hfits ns (List.mem_of_getElem? hi)
      show some (walkBlock c.be (fullBlock c ns)) = _
      rw [walkBlock_fullBlock hc hns]
      rfl
  · rw [List.map_flatten, List.map_flatten, List.map_map]
    congr 1
    apply List.map_congr_left
    intro ns _
    exact visits_map_snd c.be 12 ns
  · intro v hv
    obtain ⟨vs, hvs, hvmem⟩ := List.mem_flatten.mp hv
    obtain ⟨ns, hns, rfl⟩ := List.mem_map.mp hvs
    obtain ⟨halign, hin⟩ := visits_inside c.be (by norm_num : 12 % 4 = 0) ns v hvmem
    have hfit := hfits ns hns
    rw [blockPrefix_eq, List.length_append, cleanMarker_length] at hfit
    exact ⟨halign, by omega⟩
  · intro bs hbs
    obtain ⟨n, -, rfl⟩ := List.mem_map.mp hbs
    exact n.crcsRight c.be

theorem fileData_chunked {be : Bool} {ri : Inode} {version : ℕ} {content : List UInt8} {ns : List Inode}
    (h : Chunked ri version 0 content ns) :
    FileData be version content (ns.map fun n => Node.bytes be (.inode n)) := by
  have hdata : ∀ n : Inode, (Node.bytes be (.inode n)).drop 68 = n.data :=
    fun n => List.drop_left' (n.header_length be)
  have hget : ∀ (i : ℕ) bs, (ns.map fun n => Node.bytes be (.inode n))[i]? = some bs →
      ∃ n, ns[i]? = some n ∧ bs = Node.bytes be (.inode n) := by
    intro i bs hbs
    rw [List.getElem?_map, Option.map_eq_some_iff] at hbs
    obtain ⟨n, hn, rfl⟩ := hbs
    exact ⟨n, hn, rfl⟩
  refine ⟨?_, ?_, ?_, ?_⟩
  · intro i bs hbs
    obtain ⟨n, hn, rfl⟩ := hget i bs hbs
    rw [n.field_version be (h.version_lt n (List.mem_of_getElem? hn)), h.version_eq hn]
  · intro i bs hbs
    obtain ⟨n, hn, rfl⟩ := hget i bs hbs
    rw [n.field_offset be (h.offset_lt (by norm_num) n (List.mem_of_getElem? hn)), h.offset_eq (by norm_num) hn,
      Nat.zero_add, ← List.map_take, List.map_map]
    simp only [Function.comp_def, hdata]
  · intro bs hbs
    obtain ⟨n, hn, rfl⟩ := List.mem_map.mp hbs
    rw [hdata]
    exact n.field_sizes be ((h.data_length n hn).trans_lt (by norm_num))
  · rw [List.flatMap_map, ← h.content_eq]
    simp only [hdata]

/-- The inodes of the file are told from the directory's by their number. -/
theorem inodesOf_emitted {be : Bool} {dir : List UInt8} {f : Found} {lastIno lastIno' lastVersion' : ℕ}
    {dirNodes : List Node} {content : List UInt8} {de : Dirent} {ns : List Inode}
    (hdir : DirNodes dir f lastIno dirNodes lastIno' lastVersion')
    (hfile : FileNodes lastIno' lastVersion' content de ns) :
    inodesOf be de.ino ((dirNodes ++ .dirent de :: ns.map Node.inode).map (Node.bytes be)) =
      ns.map fun n => Node.bytes be (.inode n) := by
  have hlt : de.ino < 2 ^ 32 := by
    rw [hfile.ino]
    exact Nat.mod_lt _ (by norm_num)
  have hdirent : ∀ (d : Dirent) rest, inodesOf be de.ino (d.bytes be :: rest) = inodesOf be de.ino rest := by
    intro d rest
    have htype : word be (((d.bytes be).drop 2).take 2) = nodetypeDirent := (Node.dirent d).word_nodetype be
    rw [inodesOf, List.filter_cons_of_neg (by rw [htype]; simp [nodetypeDirent, nodetypeInode]), inodesOf]
  have hinode : ∀ n : Inode, n.ino < 2 ^ 32 → (word be (((Node.bytes be (.inode n)).drop 2).take 2) == nodetypeInode &&
      field be (Node.bytes be (.inode n)) 12 == de.ino) = (n.ino == de.ino) := by
    intro n hn
    have htype := (Node.inode n).word_nodetype be
    rw [htype, n.field_ino be hn]
    show (nodetypeInode == nodetypeInode && _) = _
    rw [beq_self_eq_true, Bool.true_and]
  obtain ⟨ri, hri, hchunked⟩ := hfile.chunked
  have hns : inodesOf be de.ino (ns.map fun n => Node.bytes be (.inode n)) =
      ns.map fun n => Node.bytes be (.inode n) := by
    rw [inodesOf, List.filter_eq_self]
    intro bs hbs
    obtain ⟨n, hn, rfl⟩ := List.mem_map.mp hbs
    have hino : n.ino = de.ino := (hchunked.ino n hn).trans hri
    rw [hinode n (by omega), hino, beq_self_eq_true]
  have htail : inodesOf be de.ino ((Node.dirent de :: ns.map Node.inode).map (Node.bytes be)) =
      ns.map fun n => Node.bytes be (.inode n) := by
    rw [List.map_cons, Node.bytes, hdirent, List.map_map]
    exact hns
  cases hdir with
  | found => exact htail
  | made _ dd n hname hversion hdd hn =>
    have hne : ¬ (n.ino == de.ino) = true := by
      rw [beq_iff_eq, hn, hdd, hfile.ino]
      exact ino_apart _
    show inodesOf be de.ino (dd.bytes be :: Node.bytes be (.inode n) :: _) = _
    rw [hdirent, inodesOf, List.filter_cons_of_neg]
    · exact htail
    · rw [hinode n (by rw [hn, hdd]; exact Nat.mod_lt _ (by norm_num))]
      exact hne

/-! ## Appending a file -/

theorem scan_block {c : Config} {dir : List UInt8} {fuel : ℕ} {behind : ℕ → ℕ → UInt8} {i : ℕ}
    {blocks : List (List UInt8)} {f : Found} {p : Place}
    (h : scan c dir fuel behind i blocks f = some (.ok p)) : p.block ∈ blocks := by
  induction blocks generalizing i f with
  | nil => cases h
  | cons block blocks ih =>
    rw [scan] at h
    split at h
    · cases h
    · split at h
      · cases h
        exact List.mem_cons_self
      · split at h
        · cases h
        · exact List.mem_cons_of_mem _ (ih h)

/-- The file's entry and its inodes, among the nodes as they lie on the device. -/
theorem appendFile_inodes {c : Config} {dir : List UInt8} {st : FileStat} {content : List UInt8} {p : Place}
    {r : Appender} (h : appendFile c dir (.regular st content) p = some r) :
    ∃ de ns ri, Node.dirent de ∈ r.emitted ∧ de.name = baseName st.path ∧
      (p.found.targetIno ≠ 0 → de.version = p.found.lastVersion) ∧
      inodesOf c.be de.ino (r.emitted.map (Node.bytes c.be)) = ns.map (fun n => Node.bytes c.be (.inode n)) ∧
      Chunked ri ((de.version + 1) % 2 ^ 32) 0 content ns := by
  obtain ⟨dirNodes, lastIno, lastVersion, de, ns, hemitted, hdir, hname, hfile⟩ := appendFile_emitted c h
  obtain ⟨ri, -, hchunked⟩ := hfile.chunked
  refine ⟨de, ns, ri, by rw [hemitted]; simp, hname, ?_, ?_, ?_⟩
  · intro htarget
    rw [hfile.version]
    cases hdir with
    | found => rfl
    | made hzero => exact absurd hzero htarget
  · rw [hemitted]
    exact inodesOf_emitted hdir hfile
  · rwa [hfile.version]

theorem mtdWriteJffs2_of_scan {c : Config} {fuel : ℕ} {behind : ℕ → ℕ → UInt8} {blocks : List (List UInt8)}
    {dir : List UInt8} {file : FileSource} {p : Place} {r : Appender}
    (hscan : scan c dir fuel behind 0 blocks ⟨0, 0, if dir = [] then 1 else 0⟩ = some (.ok p))
    (hrun : appendFile c dir file p = some r) : mtdWriteJffs2 c fuel behind blocks dir file = some (.ok r) := by
  rw [mtdWriteJffs2, hscan]
  simp only [hrun, Option.map_some]

/-- While the counter does not pass the width of its field, versions go up. -/
theorem FileData.increasing {be : Bool} {version : ℕ} {content : List UInt8} {nodes : List (List UInt8)}
    (h : FileData be version content nodes) (hlt : version + nodes.length < 2 ^ 32) :
    (nodes.map fun n => field be n 16).Pairwise (· < ·) := by
  rw [List.pairwise_iff_getElem]
  intro i j hi hj hij
  rw [List.length_map] at hi hj
  rw [List.getElem_map, List.getElem_map, h.versions i _ (List.getElem?_eq_getElem hi),
    h.versions j _ (List.getElem?_eq_getElem hj), Nat.mod_eq_of_lt (by omega), Nat.mod_eq_of_lt (by omega)]
  omega

/-- When it does, they start again at zero. -/
theorem FileData.not_increasing {be : Bool} {version : ℕ} {content : List UInt8} {nodes : List (List UInt8)}
    (h : FileData be version content nodes) (hlast : version + 2 = 2 ^ 32) (hlen : 2 ≤ nodes.length) :
    ¬ (nodes.map fun n => field be n 16).Pairwise (· < ·) := by
  rw [List.pairwise_iff_getElem]
  intro hlt
  have hfirst := hlt 0 1 (by rw [List.length_map]; omega) (by rw [List.length_map]; omega) (by norm_num)
  rw [List.getElem_map, List.getElem_map, h.versions 0 _ (List.getElem?_eq_getElem (by omega)),
    h.versions 1 _ (List.getElem?_eq_getElem (by omega))] at hfirst
  omega

theorem FileData.exact {be : Bool} {version : ℕ} {content : List UInt8} {nodes : List (List UInt8)}
    (h : FileData be version content nodes) (hlt : content.length < 2 ^ 32) (i : ℕ) (n : List UInt8)
    (hn : nodes[i]? = some n) : field be n 44 = ((nodes.take i).map fun m => (m.drop 68).length).sum := by
  have hle : ((nodes.take i).map fun m => (m.drop 68).length).sum ≤ content.length := by
    have hlen := congrArg List.length h.content
    rw [List.length_flatMap] at hlen
    rw [← hlen]
    exact ((List.take_sublist i nodes).map _).sum_le_sum fun _ _ => Nat.zero_le _
  rw [h.offsets i n hn, Nat.mod_eq_of_lt (by omega)]

/-- The append ends. Its blocks, before the one with the end marker, are well laid, and the inodes of the
file carry it; versions and offsets wrap at the width of their fields and nowhere else. -/
theorem jffs2_append_layout {c : Config} (hc : c.Valid) {fuel : ℕ} {behind : ℕ → ℕ → UInt8}
    {blocks : List (List UInt8)} {dir : List UInt8} (st : FileStat) (content : List UInt8) {p : Place}
    (hblocks : ∀ b ∈ blocks, b.length = c.erasesize) (hdir : dir.length ≤ 254)
    (hname : (baseName st.path).length ≤ 254)
    (hscan : scan c dir fuel behind 0 blocks ⟨0, 0, if dir = [] then 1 else 0⟩ = some (.ok p)) :
    ∃ r data eof de, mtdWriteJffs2 c fuel behind blocks dir (.regular st content) = some (.ok r) ∧
      r.written = data ++ [eof] ∧ eof.data = eofBlock c ∧
      WellLaid c (p.index * c.erasesize) data (r.emitted.map (Node.bytes c.be)) ∧
      Node.dirent de ∈ r.emitted ∧ de.name = baseName st.path ∧
      let nodes := inodesOf c.be de.ino (r.emitted.map (Node.bytes c.be))
      FileData c.be ((de.version + 1) % 2 ^ 32) content nodes ∧
        ((de.version + 1) % 2 ^ 32 + nodes.length < 2 ^ 32 → (nodes.map fun n => field c.be n 16).Pairwise (· < ·)) ∧
        (content.length < 2 ^ 32 → ∀ i n, nodes[i]? = some n →
          field c.be n 44 = ((nodes.take i).map fun m => (m.drop 68).length).sum) := by
  have hblock := hblocks p.block (scan_block hscan)
  obtain ⟨r, done, hrun, hwritten, hfits, hemitted⟩ := appendFile_layout hc hblock (hdir.trans (by norm_num))
    (hname.trans (by norm_num)) content
  obtain ⟨de, ns, ri, hde, hdename, -, hinodes, hchunked⟩ := appendFile_inodes hrun
  have hdata : FileData c.be ((de.version + 1) % 2 ^ 32) content
      (inodesOf c.be de.ino (r.emitted.map (Node.bytes c.be))) := by
    rw [hinodes]
    exact fileData_chunked hchunked
  refine ⟨r, _, _, de, ?_, hwritten, rfl, ?_, hde, hdename, hdata, hdata.increasing, hdata.exact⟩
  · exact mtdWriteJffs2_of_scan hscan hrun
  · rw [hemitted]
    exact wellLaid_blocksAt hc _ hfits

theorem smallFlash_valid : smallFlash.Valid := ⟨by decide, by decide, by decide⟩

theorem erasedBlock_length : erasedBlock.length = smallFlash.erasesize := List.length_replicate

/-- The search ends at an erased block. -/
theorem scan_erased (dir : List UInt8) (fuel i : ℕ) (blocks : List (List UInt8)) (f : Found) :
    scan smallFlash dir fuel (fun _ _ => 0) i (erasedBlock :: blocks) f = some (.ok ⟨i, erasedBlock, f⟩) := by
  rw [scan, if_neg (by decide +kernel), if_pos (by decide +kernel)]

/-- A file of two chunks. -/
def twoChunks : List UInt8 := List.replicate 5000 0

/-- A file that does not fit into one block, in a directory that is not there yet. -/
theorem jffs2_append_layout_fresh :
    ∃ r data eof, mtdWriteJffs2 smallFlash 1 (fun _ _ => 0) [erasedBlock, erasedBlock] [100]
        (.regular ⟨[97], 0o100644, 0, 0, 0⟩ twoChunks) = some (.ok r) ∧
      r.written = data ++ [eof] ∧ WellLaid smallFlash 0 data (r.emitted.map (Node.bytes true)) := by
  have hblocks : ∀ b ∈ [erasedBlock, erasedBlock], b.length = smallFlash.erasesize := by
    intro b hb
    rw [List.eq_of_mem_replicate (n := 2) hb, erasedBlock_length]
  obtain ⟨r, data, eof, _, hrun, hwritten, -, hlaid, -⟩ := jffs2_append_layout smallFlash_valid
    ⟨[97], 0o100644, 0, 0, 0⟩ twoChunks hblocks (by decide) (by decide) (scan_erased [100] 1 0 _ ⟨0, 0, 0⟩)
  exact ⟨r, data, eof, hrun, hwritten, hlaid⟩

/-- A block with an entry whose version is near the end of its range. -/
def lateBlock : List UInt8 :=
  let nodes := cleanMarker true ++ Dirent.bytes true ⟨1, 2 ^ 32 - 3, 2, 8, [98]⟩
  nodes ++ List.replicate (4096 - nodes.length) 0xff

theorem jffs2_versions_wrap :
    ∃ r de, mtdWriteJffs2 smallFlash 10 (fun _ _ => 0) [lateBlock, erasedBlock] []
        (.regular ⟨[97], 0o100644, 0, 0, 0⟩ twoChunks) = some (.ok r) ∧
      Node.dirent de ∈ r.emitted ∧ de.name = [97] ∧
      ¬ ((inodesOf true de.ino (r.emitted.map (Node.bytes true))).map fun n => field true n 16).Pairwise (· < ·) := by
  have hparse : mtdParseJffs2data smallFlash (blockMem lateBlock fun _ => 0) [] 10 0 ⟨0, 0, 1⟩ =
      some ⟨2, 2 ^ 32 - 3, 1⟩ := by
    decide +kernel
  have hscan : scan smallFlash [] 10 (fun _ _ => 0) 0 [lateBlock, erasedBlock] ⟨0, 0, 1⟩ =
      some (.ok ⟨1, erasedBlock, ⟨2, 2 ^ 32 - 3, 1⟩⟩) := by
    rw [scan, if_neg (by decide +kernel), if_neg (by decide +kernel), hparse]
    exact scan_erased [] 10 1 [] _
  obtain ⟨r, done, hrun, -⟩ := appendFile_layout smallFlash_valid
    (p := ⟨1, erasedBlock, ⟨2, 2 ^ 32 - 3, 1⟩⟩) erasedBlock_length (by decide : ([] : List UInt8).length ≤ 255)
    (by decide : (baseName (FileStat.mk [97] 0o100644 0 0 0).path).length ≤ 255) twoChunks
  obtain ⟨de, ns, ri, hde, hname, hversion, hinodes, hchunked⟩ := appendFile_inodes hrun
  have hde' : de.version = 2 ^ 32 - 3 := hversion (by decide)
  have hdata : FileData true ((de.version + 1) % 2 ^ 32) twoChunks
      (ns.map fun n => Node.bytes true (.inode n)) := fileData_chunked hchunked
  have hcount := hchunked.count
  rw [twoChunks, List.length_replicate] at hcount
  refine ⟨r, de, ?_, hde, hname, ?_⟩
  · exact mtdWriteJffs2_of_scan hscan hrun
  · -- the second inode has version zero
    have hinodes' : inodesOf true de.ino (r.emitted.map (Node.bytes true)) =
        ns.map fun n => Node.bytes true (.inode n) := hinodes
    rw [hinodes']
    apply hdata.not_increasing
    · rw [hde']
      norm_num
    · rw [List.length_map]
      omega

end Neufbox.Jffs2
