import Neufbox.Jffs2.Consistency

/-! # Looking up the target directory

The parse loop of `mtd_write_jffs2` compares a directory name with the names of the entries below the root, each
over the length that the entry gives. An entry whose name is only the start of the directory name is taken for it. -/
namespace Neufbox.Jffs2
open Memory
set_option autoImplicit false
set_option maxHeartbeats 250000
set_option maxRecDepth 120000

/-! ## Well-formed blocks -/

/-- The nodes at the start of a block, each wholly inside of it, up to its end or the first place without a magic. -/
def leadingNodes (be : Bool) : ℕ → List UInt8 → Option (List (List UInt8))
  | 0, _ => none
  | fuel + 1, rest =>
      let totlen := field be rest 4
      if rest = [] then some []
      else if rest.length < 2 then none
      else if word be (rest.take 2) ≠ magicBitmask then some []
      else if totlen < 12 ∨ rest.length < totlen then none
      else (leadingNodes be fuel (rest.drop (WrapArith.roundUp totlen 4))).map (rest.take totlen :: ·)

/-- A directory entry read from the bytes of its node. -/
def direntOf (be : Bool) (bs : List UInt8) : Option Dirent :=
  if word be ((bs.drop 2).take 2) = nodetypeDirent then
    some ⟨field be bs 12, field be bs 16, field be bs 20, bs.getD 29 0, (bs.drop 40).take (bs.getD 28 0).toNat⟩
  else none

/-- The name of an entry lies inside of the node and holds no NUL. -/
structure EntryFormed (be : Bool) (bs : List UInt8) : Prop where
  inside : word be ((bs.drop 2).take 2) = nodetypeDirent → 40 + (bs.getD 28 0).toNat ≤ bs.length
  noNul : ∀ d, direntOf be bs = some d → (0 : UInt8) ∉ d.name

def WellFormed (be : Bool) (block : List UInt8) : Prop :=
  ∃ nodes, leadingNodes be (block.length + 1) block = some nodes ∧ ∀ bs ∈ nodes, EntryFormed be bs

/-- The directory entries of a block. -/
def entries (be : Bool) (block : List UInt8) : List Dirent :=
  ((leadingNodes be (block.length + 1) block).getD []).filterMap (direntOf be)

/-- The directory entries of the blocks up to the first that does not start with a node. -/
def parsedEntries (be : Bool) (blocks : List (List UInt8)) : List Dirent :=
  (blocks.takeWhile fun block => word be (block.take 2) = magicBitmask).flatMap (entries be)

/-! ## The parse loop -/

section Loop
variable (c : Config) (dir : List UInt8) (fuel : ℕ) (behind : ℕ → ℕ → UInt8)

/-- The numbers found when the loop is left, in whichever way. -/
def parseLoop : ℕ → List (List UInt8) → Found → Option Found
  | _, [], f => some f
  | i, block :: blocks, f =>
      let mem := blockMem block (behind i)
      if u16At c mem 0 ≠ magicBitmask then some f
      else (mtdParseJffs2data c mem dir fuel 0 f).bind (parseLoop (i + 1) blocks)

/-- Where a place to append is found, its numbers are those of the loop. -/
theorem scan_parseLoop {i : ℕ} {blocks : List (List UInt8)} {f : Found} {p : Place}
    (h : scan c dir fuel behind i blocks f = some (.ok p)) : parseLoop c dir fuel behind i blocks f = some p.found := by
  induction blocks generalizing i f with
  | nil => cases h
  | cons block blocks ih =>
    rw [scan] at h
    rw [parseLoop]
    split at h
    · cases h
    · split at h
      · next hmagic =>
        cases h
        exact if_pos hmagic
      · next hmagic =>
        split at h
        · cases h
        · next f' hparse =>
          simp only [if_neg hmagic, hparse, Option.bind_some]
          exact ih h

end Loop

/-! ## Reading a node through memory -/

section Read
variable {block : List UInt8} {behind : ℕ → UInt8} {o k n : ℕ}

theorem blockMem_load (h : o + n ≤ block.length) : load (blockMem block behind) o n = (block.drop o).take n := by
  apply List.ext_getElem?
  intro i
  by_cases hi : i < n
  · rw [load_getElem? _ _ hi, List.getElem?_take_of_lt hi, List.getElem?_drop, blockMem,
      List.getElem?_eq_getElem (by omega), Option.getD_some]
  · rw [List.getElem?_eq_none (by rw [load_length]; omega),
      List.getElem?_eq_none (by rw [List.length_take]; omega)]

variable (block behind o k) in
theorem u16At_block (c : Config) (h : o + k + 2 ≤ block.length) :
    u16At c (blockMem block behind) (o + k) = word c.be (((block.drop o).drop k).take 2) := by
  rw [u16At, blockMem_load h, List.drop_drop]

theorem u32At_block (c : Config) (h : o + k + 4 ≤ block.length) :
    u32At c (blockMem block behind) (o + k) = field c.be (block.drop o) k := by
  rw [u32At, blockMem_load h, field, List.drop_drop]

/-- A field of the node at the start of some bytes. -/
theorem field_take (be : Bool) {rest : List UInt8} (h : k + 4 ≤ n) : field be (rest.take n) k = field be rest k := by
  rw [field, field, List.drop_take, List.take_take, min_eq_left (by omega)]

theorem strncmpEq_iff {mem : ℕ → UInt8} {dir : List UInt8} (h : (0 : UInt8) ∉ load mem o n) :
    strncmpEq mem n o dir = true ↔ load mem o n <+: dir := by
  induction n generalizing o dir with
  | zero => simp [strncmpEq, load]
  | succ n ih =>
    have hload : load mem o (n + 1) = mem o :: load mem (o + 1) n := by
      rw [Nat.add_comm n 1, load_add]
      rfl
    rw [hload] at h ⊢
    obtain ⟨hne, hrest⟩ := not_or.mp (mt List.mem_cons.mpr h)
    cases dir with
    | nil =>
      rw [strncmpEq]
      simp [Ne.symm hne]
    | cons d ds =>
      rw [strncmpEq, Bool.and_eq_true, beq_iff_eq, ih hrest, List.cons_prefix_cons]

end Read

/-! ## Parsing a well-formed block -/

/-- What an entry changes. -/
def noteEntry (dir : List UInt8) (f : Found) (d : Dirent) : Found where
  targetIno := if dir ≠ [] ∧ d.pino = 1 ∧ d.name <+: dir then d.ino else f.targetIno
  lastIno := max f.lastIno d.ino
  lastVersion := max f.lastVersion d.version

section Block
variable {c : Config} {block : List UInt8} {behind : ℕ → UInt8} {dir : List UInt8}

variable (behind dir) in
/-- A node that lies inside of the block is noted as it is read. -/
theorem noteDirent_formed {o totlen : ℕ} {bs : List UInt8} {d : Dirent} (hbs : bs = (block.drop o).take totlen)
    (hin : o + totlen ≤ block.length) (hlen : bs.length = totlen) (hformed : EntryFormed c.be bs)
    (hd : direntOf c.be bs = some d) (f : Found) :
    noteDirent c (blockMem block behind) dir o f = noteEntry dir f d := by
  have hnul := hformed.noNul d hd
  have hinside := hformed.inside
  rw [direntOf] at hd
  split at hd
  · next htype =>
    have hname := hinside htype
    obtain rfl := Option.some.inj hd
    have hsize : blockMem block behind (o + 28) = bs.getD 28 0 := by
      have hget : bs[28]? = block[o + 28]? := by
        rw [hbs, List.getElem?_take_of_lt (by omega), List.getElem?_drop]
      rw [List.getD_eq_getElem?_getD, hget, blockMem, List.getElem?_eq_getElem (by omega), Option.getD_some,
        Option.getD_some]
    have hword : ∀ k, k + 4 ≤ 40 → u32At c (blockMem block behind) (o + k) = field c.be bs k := by
      intro k hk
      rw [u32At_block c (by omega), hbs, field_take c.be (by omega)]
    have hload : load (blockMem block behind) (o + 40) (bs.getD 28 0).toNat = (bs.drop 40).take (bs.getD 28 0).toNat := by
      rw [blockMem_load (by omega), hbs, List.drop_take, List.take_take, List.drop_drop, ← hbs, min_eq_left (by omega)]
    simp only [noteDirent, noteEntry, hsize, hword 12 (by omega), hword 16 (by omega), hword 20 (by omega)]
    rw [← hload] at hnul ⊢
    simp only [strncmpEq_iff hnul]
  · cases hd

variable (behind dir) in
/-- Parsing notes the entries of the nodes one after the other. -/
theorem parse_formed (hblock : block.length = c.erasesize) (hint : c.erasesize < 2 ^ 31) {fuel o : ℕ}
    {nodes : List (List UInt8)} (hnodes : leadingNodes c.be fuel (block.drop o) = some nodes)
    (hformed : ∀ bs ∈ nodes, EntryFormed c.be bs) (f : Found) :
    mtdParseJffs2data c (blockMem block behind) dir fuel o f =
      some ((nodes.filterMap (direntOf c.be)).foldl (noteEntry dir) f) := by
  induction fuel generalizing o nodes f with
  | zero => cases hnodes
  | succ fuel ih =>
    have hrest : (block.drop o).length = block.length - o := List.length_drop
    rw [leadingNodes] at hnodes
    rw [mtdParseJffs2data]
    split at hnodes
    · next hnil =>
      cases hnodes
      rw [List.drop_eq_nil_iff] at hnil
      exact if_neg (by omega)
    · next hne =>
      have hin : o < block.length := by
        by_contra hout
        exact hne (List.drop_eq_nil_of_le (by omega))
      rw [if_pos (by omega)]
      split at hnodes
      · cases hnodes
      · next htwo =>
        have hmagic : u16At c (blockMem block behind) o = word c.be ((block.drop o).take 2) := by
          have h := u16At_block block behind o 0 c (by omega)
          rwa [Nat.add_zero, List.drop_zero] at h
        rw [hmagic]
        split at hnodes
        · next hno =>
          cases hnodes
          exact if_pos hno
        · next hyes =>
          rw [if_neg hyes]
          split at hnodes
          · cases hnodes
          · next hfit =>
            obtain ⟨rest, hrest', rfl⟩ := Option.map_eq_some_iff.mp hnodes
            rw [not_or, not_lt, not_lt] at hfit
            have htotlen : u32At c (blockMem block behind) (o + 4) = field c.be (block.drop o) 4 :=
              u32At_block c (by omega)
            generalize field c.be (block.drop o) 4 = totlen at *
            have hround := WrapArith.roundUp_lt (x := totlen) (by norm_num : 0 < 4)
            have hpad : padWord totlen = WrapArith.roundUp totlen 4 := by
              rw [padWord, WrapArith.roundUp, Nat.mod_eq_of_lt (by omega)]
              rfl
            have hnext : (o + padWord totlen) % 2 ^ 32 = o + WrapArith.roundUp totlen 4 := by
              rw [hpad, Nat.mod_eq_of_lt (by omega)]
            have hlen : ((block.drop o).take totlen).length = totlen := List.length_take_of_le (by omega)
            have htype : u16At c (blockMem block behind) (o + 2) =
                word c.be ((((block.drop o).take totlen).drop 2).take 2) := by
              rw [u16At_block block behind _ _ c (by omega), List.drop_take, List.take_take, min_eq_left (by omega)]
            rw [List.drop_drop] at hrest'
            have hgo := fun g => ih (o := o + WrapArith.roundUp totlen 4) (f := g) hrest'
              fun bs hbs => hformed bs (List.mem_cons_of_mem _ hbs)
            rw [htotlen, hnext, hgo, htype, List.filterMap_cons]
            cases hd : direntOf c.be ((block.drop o).take totlen) with
            | none =>
              rw [direntOf] at hd
              split at hd
              · cases hd
              · next hother => rw [if_neg hother]
            | some d =>
              have hnote := noteDirent_formed behind dir rfl (by omega) hlen
                (hformed _ List.mem_cons_self) hd f
              rw [direntOf] at hd
              split at hd
              · next hentry => rw [if_pos hentry, hnote, List.foldl_cons]
              · cases hd

theorem entries_formed {nodes : List (List UInt8)} (h : leadingNodes c.be (block.length + 1) block = some nodes) :
    entries c.be block = nodes.filterMap (direntOf c.be) := by
  rw [entries, h, Option.getD_some]

end Block

/-- The loop notes the entries of all blocks up to the first that does not start with a node. -/
theorem parseLoop_formed {c : Config} (hint : c.erasesize < 2 ^ 31) (behind : ℕ → ℕ → UInt8) (dir : List UInt8)
    {blocks : List (List UInt8)} (hlen : ∀ block ∈ blocks, block.length = c.erasesize) (hpos : 2 ≤ c.erasesize)
    (hformed : ∀ block ∈ blocks, WellFormed c.be block) (i : ℕ) (f : Found) :
    parseLoop c dir (c.erasesize + 1) behind i blocks f =
      some ((parsedEntries c.be blocks).foldl (noteEntry dir) f) := by
  induction blocks generalizing i f with
  | nil => rfl
  | cons block blocks ih =>
    have hblock := hlen block List.mem_cons_self
    have hmagic : u16At c (blockMem block (behind i)) 0 = word c.be (block.take 2) :=
      u16At_block block (behind i) 0 0 c (by omega)
    obtain ⟨nodes, hnodes, hnodesFormed⟩ := hformed block List.mem_cons_self
    rw [parseLoop, parsedEntries, List.takeWhile_cons]
    simp only [hmagic]
    by_cases hstart : word c.be (block.take 2) = magicBitmask
    · have hparse := parse_formed (behind i) dir hblock hint
        (by rw [hblock] at hnodes; exact hnodes : leadingNodes c.be (c.erasesize + 1) (block.drop 0) = some nodes)
        hnodesFormed f
      rw [if_neg (not_not_intro hstart), hparse, Option.bind_some, if_pos (by simpa using hstart), List.flatMap_cons,
        List.foldl_append, entries_formed hnodes]
      exact ih (fun b hb => hlen b (List.mem_cons_of_mem _ hb)) (fun b hb => hformed b (List.mem_cons_of_mem _ hb))
        (i + 1) _
    · rw [if_pos hstart, if_neg (by simpa using hstart)]
      rfl

/-! ## The directory that is found -/

/-- The last entry below the root whose name starts the directory name. -/
def lastMatch (es : List Dirent) (dir : List UInt8) : Option Dirent :=
  (es.filter fun d => d.pino = 1 ∧ d.name <+: dir).getLast?

theorem foldl_noteEntry {dir : List UInt8} (hdir : dir ≠ []) (es : List Dirent) (f : Found) :
    (es.foldl (noteEntry dir) f).targetIno = ((lastMatch es dir).map Dirent.ino).getD f.targetIno := by
  induction es using List.reverseRecOn with
  | nil => rfl
  | append_singleton es d ih =>
    rw [List.foldl_append, List.foldl_cons, List.foldl_nil, noteEntry, lastMatch, List.filter_append]
    by_cases hmatch : d.pino = 1 ∧ d.name <+: dir
    · simp [hdir, hmatch]
    · simp only [hdir, ne_eq, not_false_eq_true, true_and, if_neg hmatch, ih, lastMatch]
      simp [hmatch]

/-- The directory is one of the root with exactly the name that is looked for. -/
def TargetRight (es : List Dirent) (dir : List UInt8) (targetIno : ℕ) : Prop :=
  targetIno ≠ 0 → ∃ d ∈ es, d.pino = 1 ∧ d.name = dir ∧ targetIno = d.ino

/-- The last entry below the root whose name starts the directory name has the whole name, or stands for a removed
one, or has the number of an entry with the whole name. -/
def LastMatchNamed (es : List Dirent) (dir : List UInt8) : Prop :=
  ∀ d ∈ lastMatch es dir, d.name = dir ∨ d.ino = 0 ∨ ∃ e ∈ es, e.pino = 1 ∧ e.name = dir ∧ e.ino = d.ino

theorem targetRight_iff (es : List Dirent) (dir : List UInt8) :
    TargetRight es dir (((lastMatch es dir).map Dirent.ino).getD 0) ↔ LastMatchNamed es dir := by
  unfold TargetRight LastMatchNamed
  cases hlast : lastMatch es dir with
  | none => simp
  | some d =>
    obtain ⟨hd, hmatch⟩ := List.mem_filter.mp (List.mem_of_getLast? hlast)
    have hroot : d.pino = 1 ∧ d.name <+: dir := by simpa using hmatch
    simp only [Option.map_some, Option.getD_some, Option.mem_some_iff, forall_eq']
    constructor
    · intro h
      by_cases hzero : d.ino = 0
      · exact Or.inr (Or.inl hzero)
      · obtain ⟨e, he, hpino, hname, hino⟩ := h hzero
        exact Or.inr (Or.inr ⟨e, he, hpino, hname, hino.symm⟩)
    · rintro (hname | hzero | ⟨e, he, hpino, hname, hino⟩) hne
      · exact ⟨d, hd, hroot.1, hname, rfl⟩
      · exact absurd hzero hne
      · exact ⟨e, he, hpino, hname, hino.symm⟩

/-- The loop leaves a right directory exactly when the last match among the parsed entries has the whole name. -/
theorem mtd_target_right_iff {c : Config} (hpos : 2 ≤ c.erasesize) (hint : c.erasesize < 2 ^ 31)
    (behind : ℕ → ℕ → UInt8) {blocks : List (List UInt8)} (hlen : ∀ block ∈ blocks, block.length = c.erasesize)
    (hformed : ∀ block ∈ blocks, WellFormed c.be block) {dir : List UInt8} (hdir : dir ≠ []) :
    ∃ fuel f, parseLoop c dir fuel behind 0 blocks ⟨0, 0, 0⟩ = some f ∧
      (TargetRight (parsedEntries c.be blocks) dir f.targetIno ↔ LastMatchNamed (parsedEntries c.be blocks) dir) := by
  refine ⟨c.erasesize + 1, _, parseLoop_formed hint behind dir hlen hpos hformed 0 ⟨0, 0, 0⟩, ?_⟩
  rw [foldl_noteEntry hdir]
  exact targetRight_iff (parsedEntries c.be blocks) dir

/-! ## An entry that is the start of another name -/

theorem wellFormed_entryBlock : WellFormed true entryBlock := by
  have hnodes : leadingNodes true (entryBlock.length + 1) entryBlock =
      some [cleanMarker true, Dirent.bytes true ⟨1, 5, 2, 8, [98]⟩] := by decide +kernel
  refine ⟨_, hnodes, ?_⟩
  intro bs hbs
  simp only [List.mem_cons, List.not_mem_nil, or_false] at hbs
  rcases hbs with rfl | rfl
  · exact ⟨by decide +kernel, fun d hd => by cases hd⟩
  · refine ⟨by decide +kernel, fun d hd => ?_⟩
    cases hd
    decide +kernel

theorem wellFormed_erasedBlock : WellFormed true erasedBlock :=
  ⟨[], by decide +kernel, fun _ h => absurd h List.not_mem_nil⟩

deriving instance DecidableEq for Dirent

theorem parsedEntries_entryBlock : parsedEntries true [entryBlock, erasedBlock] = [⟨1, 5, 2, 8, [98]⟩] := by
  decide +kernel

theorem mtd_target_right_entry :
    ∃ fuel f, parseLoop smallFlash [98] fuel (fun _ _ => 0) 0 [entryBlock, erasedBlock] ⟨0, 0, 0⟩ = some f ∧
      TargetRight (parsedEntries true [entryBlock, erasedBlock]) [98] f.targetIno := by
  have hlen : ∀ block ∈ [entryBlock, erasedBlock], block.length = smallFlash.erasesize := by
    simp only [List.forall_mem_cons]
    exact ⟨by decide +kernel, by decide +kernel, by simp⟩
  have hformed : ∀ block ∈ [entryBlock, erasedBlock], WellFormed true block := by
    simp only [List.forall_mem_cons]
    exact ⟨wellFormed_entryBlock, wellFormed_erasedBlock, by simp⟩
  obtain ⟨fuel, f, hrun, hright⟩ :=
    mtd_target_right_iff (by decide) (by decide) (fun _ _ => 0) hlen hformed (List.cons_ne_nil 98 [])
  refine ⟨fuel, f, hrun, hright.mpr ?_⟩
  rw [show parsedEntries smallFlash.be [entryBlock, erasedBlock] = [⟨1, 5, 2, 8, [98]⟩] from parsedEntries_entryBlock]
  intro d hd
  have hentry : lastMatch [⟨1, 5, 2, 8, [98]⟩] [98] = some ⟨1, 5, 2, 8, [98]⟩ := by decide
  rw [hentry] at hd
  cases hd
  exact Or.inl rfl

/-- Looking for `bi` finds the directory `b`. -/
theorem mtd_target_other_name :
    WellFormed true entryBlock ∧ WellFormed true erasedBlock ∧
      ∃ f, parseLoop smallFlash [98, 105] 10 (fun _ _ => 0) 0 [entryBlock, erasedBlock] ⟨0, 0, 0⟩ = some f ∧
        ¬ TargetRight (parsedEntries true [entryBlock, erasedBlock]) [98, 105] f.targetIno := by
  refine ⟨wellFormed_entryBlock, wellFormed_erasedBlock, ⟨2, 5, 2⟩, by decide +kernel, ?_⟩
  intro h
  obtain ⟨d, hd, -, hname, -⟩ := h (by decide)
  rw [parsedEntries_entryBlock, List.mem_singleton] at hd
  rw [hd] at hname
  cases hname

end Neufbox.Jffs2
