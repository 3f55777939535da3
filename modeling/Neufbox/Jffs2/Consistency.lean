import Neufbox.Jffs2.Emitted

/-! # Numbers of the appended nodes

`mtd_write_jffs2` takes the highest inode number and the highest version from the directory entries it
parses. New inode numbers lie above the parsed ones, but the first new entry gets the highest parsed
version itself, since `add_dirent` increments behind the use where the inodes increment before; and an
empty file gets an entry without an inode. -/
namespace Neufbox.Jffs2
open Memory ByteStore WrapArith
set_option autoImplicit false
set_option maxHeartbeats 250000
set_option maxRecDepth 120000

/-! ## What is parsed -/

section Parsed
variable (c : Config) (mem : ℕ → UInt8)

/-- The parser comes from an offset to a node. -/
inductive NodeAt : ℕ → ℕ → Prop
  | here {o : ℕ} (hin : o < c.erasesize) (hmagic : u16At c mem o = magicBitmask) : NodeAt o o
  | next {o o' : ℕ} (hin : o < c.erasesize) (hmagic : u16At c mem o = magicBitmask)
      (hnext : NodeAt ((o + padWord (u32At c mem (o + 4))) % 2 ^ 32) o') : NodeAt o o'

/-- The parser comes from an offset to a directory entry with these numbers. -/
def DirentFrom (ofs ino version : ℕ) : Prop :=
  ∃ o, NodeAt c mem ofs o ∧ u16At c mem (o + 2) = nodetypeDirent ∧
    ino = u32At c mem (o + 20) ∧ version = u32At c mem (o + 16)

end Parsed

/-- The directory entries of the blocks up to the first that does not start with a node. -/
def ParsedDirent (c : Config) (behind : ℕ → ℕ → UInt8) (blocks : List (List UInt8)) (ino version : ℕ) : Prop :=
  ∃ i, (∀ j ≤ i, ∃ block, blocks[j]? = some block ∧ u16At c (blockMem block (behind j)) 0 = magicBitmask) ∧
    ∃ block, blocks[i]? = some block ∧ DirentFrom c (blockMem block (behind i)) 0 ino version

/-! ## The highest numbers -/

/-- From `f` to `f'` the entries of `D` were taken in. -/
structure Collected (D : ℕ → ℕ → Prop) (f f' : Found) : Prop where
  inoGrows : f.lastIno ≤ f'.lastIno
  versionGrows : f.lastVersion ≤ f'.lastVersion
  above : ∀ ino version, D ino version → ino ≤ f'.lastIno ∧ version ≤ f'.lastVersion
  attained : f'.lastVersion = f.lastVersion ∨ ∃ ino, D ino f'.lastVersion

section Collected
variable {D D' : ℕ → ℕ → Prop} {f f' f'' : Found}

theorem Collected.none (h : ∀ ino version, ¬ D ino version) (f : Found) : Collected D f f where
  inoGrows := le_refl _
  versionGrows := le_refl _
  above ino version hD := (h ino version hD).elim
  attained := Or.inl rfl

theorem Collected.trans (h : Collected D f f') (h' : Collected D' f' f'') :
    Collected (fun ino version => D ino version ∨ D' ino version) f f'' where
  inoGrows := h.inoGrows.trans h'.inoGrows
  versionGrows := h.versionGrows.trans h'.versionGrows
  above ino version hD := by
    rcases hD with hD | hD
    · obtain ⟨hino, hversion⟩ := h.above ino version hD
      exact ⟨hino.trans h'.inoGrows, hversion.trans h'.versionGrows⟩
    · exact h'.above ino version hD
  attained := by
    rcases h'.attained with heq | ⟨ino, hD⟩
    · rw [heq]
      rcases h.attained with heq' | ⟨ino, hD⟩
      · exact Or.inl heq'
      · exact Or.inr ⟨ino, Or.inl hD⟩
    · exact Or.inr ⟨ino, Or.inr hD⟩

theorem Collected.congr (h : Collected D f f') (hD : ∀ ino version, D' ino version ↔ D ino version) :
    Collected D' f f' where
  inoGrows := h.inoGrows
  versionGrows := h.versionGrows
  above ino version hd := h.above ino version ((hD ino version).mp hd)
  attained := h.attained.imp_right fun ⟨ino, hd⟩ => ⟨ino, (hD ino _).mpr hd⟩

end Collected

theorem noteDirent_collected (c : Config) (mem : ℕ → UInt8) (dir : List UInt8) (ofs : ℕ) (f : Found) :
    Collected (fun ino version => ino = u32At c mem (ofs + 20) ∧ version = u32At c mem (ofs + 16)) f
      (noteDirent c mem dir ofs f) where
  inoGrows := le_max_left _ _
  versionGrows := le_max_left _ _
  above := by
    rintro ino version ⟨rfl, rfl⟩
    exact ⟨le_max_right _ _, le_max_right _ _⟩
  attained := by
    rcases max_choice f.lastVersion (u32At c mem (ofs + 16)) with h | h
    · exact Or.inl h
    · exact Or.inr ⟨_, rfl, h⟩

theorem direntFrom_iff (c : Config) (mem : ℕ → UInt8) {ofs : ℕ} (hin : ofs < c.erasesize)
    (hmagic : u16At c mem ofs = magicBitmask) (ino version : ℕ) :
    DirentFrom c mem ofs ino version ↔
      (u16At c mem (ofs + 2) = nodetypeDirent ∧ ino = u32At c mem (ofs + 20) ∧ version = u32At c mem (ofs + 16)) ∨
        DirentFrom c mem ((ofs + padWord (u32At c mem (ofs + 4))) % 2 ^ 32) ino version := by
  constructor
  · rintro ⟨o, hnode, hdirent⟩
    cases hnode with
    | here _ _ => exact Or.inl hdirent
    | next _ _ hnext => exact Or.inr ⟨o, hnext, hdirent⟩
  · rintro (hdirent | ⟨o, hnode, hdirent⟩)
    · exact ⟨ofs, .here hin hmagic, hdirent⟩
    · exact ⟨o, .next hin hmagic hnode, hdirent⟩

theorem parse_collected (c : Config) (mem : ℕ → UInt8) (dir : List UInt8) {fuel ofs : ℕ} {f f' : Found}
    (h : mtdParseJffs2data c mem dir fuel ofs f = some f') : Collected (DirentFrom c mem ofs) f f' := by
  induction fuel generalizing ofs f with
  | zero => cases h
  | succ fuel ih =>
    rw [mtdParseJffs2data] at h
    by_cases hin : ofs < c.erasesize
    · rw [if_pos hin] at h
      by_cases hmagic : u16At c mem ofs = magicBitmask
      · rw [if_neg (not_not.mpr hmagic)] at h
        apply Collected.congr _ (direntFrom_iff c mem hin hmagic)
        split at h
        · next htype =>
          apply Collected.trans _ (ih h)
          apply (noteDirent_collected c mem dir ofs f).congr
          exact fun ino version => and_iff_right htype
        · next htype =>
          apply Collected.trans _ (ih h)
          apply Collected.none
          exact fun ino version hd => htype hd.1
      · rw [if_pos hmagic] at h
        cases h
        apply Collected.none
        rintro ino version ⟨o, hnode, -⟩
        cases hnode with
        | here _ h => exact hmagic h
        | next _ h _ => exact hmagic h
    · rw [if_neg hin] at h
      cases h
      apply Collected.none
      rintro ino version ⟨o, hnode, -⟩
      cases hnode with
      | here h _ => exact hin h
      | next h _ _ => exact hin h

theorem parsedDirent_cons (c : Config) (behind : ℕ → ℕ → UInt8) {block : List UInt8} {blocks : List (List UInt8)}
    (hmagic : u16At c (blockMem block (behind 0)) 0 = magicBitmask) (ino version : ℕ) :
    ParsedDirent c behind (block :: blocks) ino version ↔
      DirentFrom c (blockMem block (behind 0)) 0 ino version ∨
        ParsedDirent c (fun j => behind (j + 1)) blocks ino version := by
  constructor
  · rintro ⟨k, hblocks, b, hb, hdirent⟩
    cases k with
    | zero =>
      cases hb
      exact Or.inl hdirent
    | succ k =>
      refine Or.inr ⟨k, ?_, b, hb, hdirent⟩
      intro j hj
      exact hblocks (j + 1) (by omega)
  · rintro (hdirent | ⟨k, hblocks, b, hb, hdirent⟩)
    · refine ⟨0, ?_, block, rfl, hdirent⟩
      intro j hj
      obtain rfl : j = 0 := by omega
      exact ⟨block, rfl, hmagic⟩
    · refine ⟨k + 1, ?_, b, hb, hdirent⟩
      intro j hj
      cases j with
      | zero => exact ⟨block, rfl, hmagic⟩
      | succ j => exact hblocks j (by omega)

theorem scan_collected (c : Config) (dir : List UInt8) (fuel : ℕ) (behind : ℕ → ℕ → UInt8) {i : ℕ}
    {blocks : List (List UInt8)} {f : Found} {p : Place}
    (h : scan c dir fuel behind i blocks f = some (.ok p)) :
    Collected (ParsedDirent c (fun j => behind (i + j)) blocks) f p.found := by
  induction blocks generalizing i f with
  | nil => cases h
  | cons block blocks ih =>
    rw [scan] at h
    split at h
    · cases h
    · split at h
      · next hmagic =>
        cases h
        apply Collected.none
        rintro ino version ⟨k, hblocks, -⟩
        obtain ⟨b, hb, hmagic'⟩ := hblocks 0 (Nat.zero_le k)
        cases hb
        exact hmagic hmagic'
      · next hmagic =>
        rw [not_not] at hmagic
        split at h
        · cases h
        · next f' hparse =>
          have hshift : (fun j => behind (i + (j + 1))) = fun j => behind (i + 1 + j) := by
            funext j
            rw [Nat.add_assoc, Nat.add_comm 1]
          apply ((parse_collected c _ dir hparse).trans (ih h)).congr
          intro ino version
          rw [← hshift]
          exact parsedDirent_cons c (fun j => behind (i + j)) hmagic ino version

/-! ## New entries against parsed ones -/

/-- Every new entry has a number and a version above those of the parsed entries, and an inode. -/
def AppendConsistent (parsed : ℕ → ℕ → Prop) (emitted : List Node) : Prop :=
  ∀ de, Node.dirent de ∈ emitted →
    (∀ ino version, parsed ino version → ino < de.ino ∧ version < de.version) ∧
      ∃ n, Node.inode n ∈ emitted ∧ n.ino = de.ino

theorem mtdWriteJffs2_ok (c : Config) {fuel : ℕ} {behind : ℕ → ℕ → UInt8} {blocks : List (List UInt8)}
    {dir : List UInt8} {file : FileSource} {r : Appender}
    (h : mtdWriteJffs2 c fuel behind blocks dir file = some (.ok r)) :
    ∃ p, scan c dir fuel behind 0 blocks ⟨0, 0, if dir = [] then 1 else 0⟩ = some (.ok p) ∧
      appendFile c dir file p = some r := by
  rw [mtdWriteJffs2] at h
  split at h
  · cases h
  · cases h
  · next p hp =>
    rw [Option.map_eq_some_iff] at h
    obtain ⟨r', hr, hok⟩ := h
    cases hok
    exact ⟨p, hp, hr⟩

section Consistent
variable {c : Config} {fuel : ℕ} {behind : ℕ → ℕ → UInt8} {blocks : List (List UInt8)} {dir : List UInt8}
  {st : FileStat} {content : List UInt8} {r : Appender}

/-- The first new entry has the highest parsed version. -/
theorem first_version {parsed : ℕ → ℕ → Prop} {p : Place}
    (hcollected : Collected parsed ⟨0, 0, if dir = [] then 1 else 0⟩ p.found)
    (h : appendFile c dir (.regular st content) p = some r) {ino version : ℕ} (hparsed : parsed ino version) :
    ¬ AppendConsistent parsed r.emitted := by
  intro hcons
  obtain ⟨dirNodes, lastIno, lastVersion, de, ns, hemitted, hdir, -, hfile⟩ := appendFile_emitted c h
  obtain ⟨first, hfirst, hversion⟩ : ∃ first, Node.dirent first ∈ r.emitted ∧
      first.version = p.found.lastVersion := by
    rw [hemitted]
    cases hdir with
    | found => exact ⟨de, by simp, hfile.version⟩
    | made _ dd n hname hv => exact ⟨dd, by simp, hv⟩
  have habove := (hcons first hfirst).1
  have hle := (hcollected.above ino version hparsed).2
  rcases hcollected.attained with hzero | ⟨ino', hattained⟩
  · have hlt := (habove ino version hparsed).2
    rw [hversion, hzero] at hlt
    exact absurd hlt (Nat.not_lt_zero _)
  · have hlt := (habove ino' _ hattained).2
    rw [hversion] at hlt
    exact lt_irrefl _ hlt

theorem empty_file_unmatched {parsed : ℕ → ℕ → Prop} {p : Place}
    (h : appendFile c dir (.regular st []) p = some r) : ¬ AppendConsistent parsed r.emitted := by
  intro hcons
  obtain ⟨dirNodes, lastIno, lastVersion, de, ns, hemitted, hdir, -, hfile⟩ := appendFile_emitted c h
  obtain ⟨ri, -, hchunked⟩ := hfile.chunked
  obtain rfl : ns = [] := hchunked.eq_nil_iff.mpr rfl
  obtain ⟨n, hn, hino⟩ := (hcons de (by rw [hemitted]; simp)).2
  rw [hemitted] at hn
  cases hdir with
  | found => simp at hn
  | made _ dd m hname hversion hdd hm =>
    obtain rfl : n = m := by simpa using hn
    rw [hfile.ino, hm, hdd] at hino
    exact ino_apart _ hino

theorem consistent_without_parsed {parsed : ℕ → ℕ → Prop} {p : Place} (hnone : ∀ ino version, ¬ parsed ino version)
    (hcontent : content ≠ []) (h : appendFile c dir (.regular st content) p = some r) :
    AppendConsistent parsed r.emitted := by
  obtain ⟨dirNodes, lastIno, lastVersion, de, ns, hemitted, hdir, -, hfile⟩ := appendFile_emitted c h
  obtain ⟨ri, hri, hchunked⟩ := hfile.chunked
  obtain ⟨n, ns', rfl⟩ := List.exists_cons_of_ne_nil (mt hchunked.eq_nil_iff.mp hcontent)
  have hn : n.ino = de.ino := (hchunked.ino n List.mem_cons_self).trans hri
  intro d hd
  refine ⟨fun ino version hp => (hnone ino version hp).elim, ?_⟩
  rw [hemitted] at hd ⊢
  cases hdir with
  | found =>
    obtain rfl : d = de := by simpa using hd
    exact ⟨n, by simp, hn⟩
  | made _ dd m hname hversion hdd hm =>
    obtain rfl | rfl : d = dd ∨ d = de := by simpa using hd
    · exact ⟨m, by simp, hm⟩
    · exact ⟨n, by simp, hn⟩

end Consistent

/-- The append keeps the numbers apart exactly when there is no entry to keep them apart from and the
file has at least one byte. -/
theorem jffs2_append_consistent_iff (c : Config) {fuel : ℕ} {behind : ℕ → ℕ → UInt8} {blocks : List (List UInt8)}
    {dir : List UInt8} {st : FileStat} {content : List UInt8} {r : Appender}
    (h : mtdWriteJffs2 c fuel behind blocks dir (.regular st content) = some (.ok r)) :
    AppendConsistent (ParsedDirent c behind blocks) r.emitted ↔
      (∀ ino version, ¬ ParsedDirent c behind blocks ino version) ∧ content ≠ [] := by
  obtain ⟨p, hscan, happend⟩ := mtdWriteJffs2_ok c h
  have hcollected := scan_collected c dir fuel behind hscan
  simp only [Nat.zero_add] at hcollected
  constructor
  · intro hcons
    refine ⟨fun ino version hparsed => first_version hcollected happend hparsed hcons, ?_⟩
    rintro rfl
    exact empty_file_unmatched happend hcons
  · rintro ⟨hnone, hcontent⟩
    exact consistent_without_parsed hnone hcontent happend

/-! ## A fresh partition, and one with an entry -/

def smallFlash : Config := ⟨true, 4096⟩

def oneByteFile : FileSource := .regular ⟨[97], 0o100644, 0, 0, 0⟩ [1]

def erasedBlock : List UInt8 := List.replicate 4096 0xff

/-- A block with the entry of number 2 and version 5 behind the clean marker. -/
def entryBlock : List UInt8 :=
  let nodes := cleanMarker true ++ Dirent.bytes true ⟨1, 5, 2, 8, [98]⟩
  nodes ++ List.replicate (4096 - nodes.length) 0xff

def runs : Option (Except String Appender) → Bool
  | some (.ok _) => true
  | _ => false

theorem runs_ok {o : Option (Except String Appender)} (h : runs o = true) : ∃ r, o = some (.ok r) := by
  match o, h with
  | some (.ok r), _ => exact ⟨r, rfl⟩

theorem jffs2_append_consistent_fresh :
    ∃ r, mtdWriteJffs2 smallFlash 1 (fun _ _ => 0) [erasedBlock] [] oneByteFile = some (.ok r) ∧
      AppendConsistent (ParsedDirent smallFlash (fun _ _ => 0) [erasedBlock]) r.emitted := by
  obtain ⟨r, hr⟩ := runs_ok (by decide +kernel :
    runs (mtdWriteJffs2 smallFlash 1 (fun _ _ => 0) [erasedBlock] [] oneByteFile) = true)
  refine ⟨r, hr, (jffs2_append_consistent_iff smallFlash hr).mpr ⟨?_, by simp⟩⟩
  rintro ino version ⟨i, hblocks, -⟩
  obtain ⟨block, hblock, hmagic⟩ := hblocks 0 (Nat.zero_le i)
  cases hblock
  revert hmagic
  decide +kernel

theorem jffs2_append_inconsistent :
    ∃ r, mtdWriteJffs2 smallFlash 10 (fun _ _ => 0) [entryBlock, erasedBlock] [] oneByteFile = some (.ok r) ∧
      ParsedDirent smallFlash (fun _ _ => 0) [entryBlock, erasedBlock] 2 5 ∧
      ¬ AppendConsistent (ParsedDirent smallFlash (fun _ _ => 0) [entryBlock, erasedBlock]) r.emitted := by
  obtain ⟨r, hr⟩ := runs_ok (by decide +kernel :
    runs (mtdWriteJffs2 smallFlash 10 (fun _ _ => 0) [entryBlock, erasedBlock] [] oneByteFile) = true)
  have hparsed : ParsedDirent smallFlash (fun _ _ => 0) [entryBlock, erasedBlock] 2 5 := by
    have hmarker : u16At smallFlash (blockMem entryBlock fun _ => 0) 0 = magicBitmask := by decide +kernel
    refine ⟨0, ?_, entryBlock, rfl, 12, ?_, by decide +kernel, by decide +kernel, by decide +kernel⟩
    · intro j hj
      obtain rfl : j = 0 := by omega
      exact ⟨entryBlock, rfl, hmarker⟩
    · apply NodeAt.next (by decide) hmarker
      have hnext : (0 + padWord (u32At smallFlash (blockMem entryBlock fun _ => 0) (0 + 4))) % 2 ^ 32 = 12 := by
        decide +kernel
      rw [hnext]
      exact .here (by decide) (by decide +kernel)
  obtain ⟨p, hscan, happend⟩ := mtdWriteJffs2_ok smallFlash hr
  have hcollected := scan_collected smallFlash [] 10 (fun _ _ => 0) hscan
  exact ⟨r, hr, hparsed, first_version hcollected happend hparsed⟩

end Neufbox.Jffs2
