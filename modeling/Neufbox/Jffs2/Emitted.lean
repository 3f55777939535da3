import Neufbox.Jffs2.Append

/-! # The nodes of an appended file

Which nodes the commands put together, and with which numbers. Padding and copying do not matter here:
they leave the counters and the list of nodes alone. A file becomes a directory entry and the inodes it
is `Chunked` into. -/
namespace Neufbox.Jffs2
open Memory ByteStore WrapArith
set_option autoImplicit false
set_option maxHeartbeats 250000
set_option maxRecDepth 120000

/-! ## Counters -/

/-- The counters and the list of nodes, which padding and copying leave alone. -/
def Appender.ledger (s : Appender) : ℕ × ℕ × List Node := (s.lastIno, s.lastVersion, s.emitted)

theorem Appender.ledger_eq {s t : Appender} (h : s.ledger = t.ledger) :
    s.lastIno = t.lastIno ∧ s.lastVersion = t.lastVersion ∧ s.emitted = t.emitted := by
  simpa only [ledger, Prod.mk.injEq] using h

section Ledger
variable (c : Config)

@[simp] theorem ledger_pad (size : ℕ) (s : Appender) : (pad c size s).ledger = s.ledger := by
  unfold pad
  split
  · rfl
  · simp only
    split <;> split <;> rfl

@[simp] theorem ledger_put (bs : List UInt8) (s : Appender) : (put bs s).ledger = s.ledger := rfl

@[simp] theorem ledger_prepEraseblock (s : Appender) : (prepEraseblock c s).ledger = s.ledger := by
  unfold prepEraseblock
  split <;> rfl

@[simp] theorem ledger_addData (bs : List UInt8) (s : Appender) : (addData c bs s).ledger = s.ledger := by
  unfold addData
  split <;> simp

theorem ledger_padIf (b : Prop) [Decidable b] (size : ℕ) (s : Appender) :
    (if b then pad c size s else s).ledger = s.ledger := by
  split
  · exact ledger_pad c size s
  · rfl

@[simp] theorem ledger_emit (n : Node) (s : Appender) :
    (emit n s).ledger = (s.ledger.1, s.ledger.2.1, s.ledger.2.2 ++ [n]) := rfl

/-- The entry, in the state it is put together in. -/
theorem addDirent_ledger (name : List UInt8) (type : UInt8) (parent : ℕ) (s : Appender) :
    (addDirent c name type parent s).2 = (s.lastIno + 1) % 2 ^ 32 ∧
      (addDirent c name type parent s).1.ledger = ((s.lastIno + 2) % 2 ^ 32, (s.lastVersion + 1) % 2 ^ 32,
        s.emitted ++ [.dirent ⟨parent, s.lastVersion, (s.lastIno + 1) % 2 ^ 32, type, name⟩]) := by
  rw [addDirent]
  generalize hready : prepEraseblock c (if wrapSub 32 s.ofs c.erasesize < 40 + name.length then
    pad c c.erasesize s else s) = ready
  have hledger : ready.ledger = s.ledger := by
    rw [← hready, ledger_prepEraseblock, ledger_padIf]
  obtain ⟨hino, hversion, hemitted⟩ := Appender.ledger_eq hledger
  rw [ledger_pad, ledger_emit]
  simp only [Appender.ledger, hino, hversion, hemitted, and_self]

theorem addDir_ledger (name : List UInt8) (parent : ℕ) (s : Appender) :
    (addDir c name parent s).2 = (s.lastIno + 1) % 2 ^ 32 ∧
      ∃ n : Inode, n.ino = (s.lastIno + 1) % 2 ^ 32 ∧ (addDir c name parent s).1.ledger =
        ((s.lastIno + 2) % 2 ^ 32, (s.lastVersion + 1) % 2 ^ 32,
          s.emitted ++ [.dirent ⟨parent, s.lastVersion, (s.lastIno + 1) % 2 ^ 32, 4, name⟩, .inode n]) := by
  obtain ⟨hino, hdirent⟩ := addDirent_ledger c name 4 parent s
  refine ⟨hino, ⟨(addDirent c name 4 parent s).2, 1, 0o40755, 0, 0, 0, 0, 0, []⟩, hino, ?_⟩
  rw [addDir]
  simp only [ledger_pad, ledger_emit, ledger_addData, ledger_prepEraseblock, ledger_padIf, hdirent]
  rw [List.append_assoc]
  rfl

theorem makeRoom_ledger {fuel len : ℕ} {s s' : Appender} (h : makeRoom c fuel s = some (s', len)) :
    s'.ledger = s.ledger ∧ 128 < len := by
  induction fuel generalizing s with
  | zero => cases h
  | succ fuel ih =>
    rw [makeRoom] at h
    split at h
    · next hlen =>
      cases h
      exact ⟨rfl, hlen⟩
    · obtain ⟨hledger, hlen⟩ := ih h
      exact ⟨by rw [hledger]; simp, hlen⟩

end Ledger

/-! ## Files -/

/-- A file cut into inodes: versions count up from the one before, offsets from `offset`, modulo the
width of their fields. -/
inductive Chunked (ri : Inode) : ℕ → ℕ → List UInt8 → List Inode → Prop
  | nil (version offset : ℕ) : Chunked ri version offset [] []
  | cons (version offset : ℕ) (data rest : List UInt8) (ns : List Inode) (hne : data ≠ [])
      (hlen : data.length ≤ 4096)
      (htail : Chunked ri ((version + 1) % 2 ^ 32) ((offset + data.length) % 2 ^ 32) rest ns) :
      Chunked ri version offset (data ++ rest) (ri.chunk ((version + 1) % 2 ^ 32) offset data :: ns)

section Chunked
variable {ri : Inode} {version offset : ℕ} {content : List UInt8} {ns : List Inode}

theorem Chunked.ino (h : Chunked ri version offset content ns) : ∀ n ∈ ns, n.ino = ri.ino := by
  induction h with
  | nil => simp
  | cons version offset data rest ns _ _ _ ih =>
    intro n hn
    rcases List.mem_cons.mp hn with rfl | hn
    · rfl
    · exact ih n hn

/-- Versions go up by one from node to node. -/
theorem Chunked.version_eq (h : Chunked ri version offset content ns) {i : ℕ} {n : Inode} (hn : ns[i]? = some n) :
    n.version = (version + 1 + i) % 2 ^ 32 := by
  induction h generalizing i with
  | nil => simp at hn
  | cons version offset data rest ns _ _ _ ih =>
    cases i with
    | zero =>
      cases hn
      rfl
    | succ i =>
      rw [ih hn, Nat.add_assoc, Nat.mod_add_mod]
      congr 1
      omega

/-- Offsets go up by the bytes of the node before. -/
theorem Chunked.offset_eq (h : Chunked ri version offset content ns) (ho : offset < 2 ^ 32) {i : ℕ} {n : Inode}
    (hn : ns[i]? = some n) : n.offset = (offset + ((ns.take i).map fun m => m.data.length).sum) % 2 ^ 32 := by
  induction h generalizing i with
  | nil => simp at hn
  | cons version offset data rest ns _ _ _ ih =>
    cases i with
    | zero =>
      cases hn
      exact (Nat.mod_eq_of_lt ho).symm
    | succ i =>
      rw [ih (Nat.mod_lt _ (by norm_num)) hn, List.take_succ_cons, List.map_cons, List.sum_cons, Nat.mod_add_mod,
        Nat.add_assoc]
      rfl

theorem Chunked.content_eq (h : Chunked ri version offset content ns) : ns.flatMap (fun n => n.data) = content := by
  induction h with
  | nil => rfl
  | cons version offset data rest ns _ _ _ ih =>
    rw [List.flatMap_cons, ih]
    rfl

theorem Chunked.data_length (h : Chunked ri version offset content ns) : ∀ n ∈ ns, n.data.length ≤ 4096 := by
  induction h with
  | nil => simp
  | cons version offset data rest ns _ hlen _ ih =>
    intro n hn
    rcases List.mem_cons.mp hn with rfl | hn
    · exact hlen
    · exact ih n hn

theorem Chunked.count (h : Chunked ri version offset content ns) : content.length ≤ 4096 * ns.length := by
  induction h with
  | nil => exact Nat.zero_le _
  | cons version offset data rest ns _ hlen _ ih =>
    rw [List.length_append, List.length_cons]
    omega

theorem Chunked.offset_lt (h : Chunked ri version offset content ns) (ho : offset < 2 ^ 32) :
    ∀ n ∈ ns, n.offset < 2 ^ 32 := by
  intro n hn
  obtain ⟨i, hi⟩ := List.mem_iff_getElem?.mp hn
  rw [h.offset_eq ho hi]
  exact Nat.mod_lt _ (by norm_num)

theorem Chunked.version_lt (h : Chunked ri version offset content ns) : ∀ n ∈ ns, n.version < 2 ^ 32 := by
  intro n hn
  obtain ⟨i, hi⟩ := List.mem_iff_getElem?.mp hn
  rw [h.version_eq hi]
  exact Nat.mod_lt _ (by norm_num)

theorem Chunked.eq_nil_iff (h : Chunked ri version offset content ns) : ns = [] ↔ content = [] := by
  cases h with
  | nil => simp
  | cons _ _ data rest ns hne => simp [hne]

end Chunked

theorem addChunk_ledger (c : Config) (n : Inode) (s : Appender) :
    (addChunk c n s).ledger = (s.lastIno, n.version, s.emitted ++ [.inode n]) := by
  rw [addChunk, ledger_prepEraseblock, ledger_pad, ledger_emit, ledger_addData, ledger_addData]
  rfl

theorem addChunks_emitted (c : Config) (ri : Inode) {fuel fOffset : ℕ} {rest : List UInt8} {s s' : Appender}
    (h : addChunks c ri fuel fOffset rest s = some s') :
    ∃ ns : List Inode, s'.emitted = s.emitted ++ ns.map Node.inode ∧ Chunked ri s.lastVersion fOffset rest ns := by
  induction fuel generalizing fOffset rest s with
  | zero => cases h
  | succ fuel ih =>
    rw [addChunks, Option.bind_eq_some_iff] at h
    obtain ⟨⟨s₁, len⟩, hroom, h⟩ := h
    obtain ⟨hledger, hlen⟩ := makeRoom_ledger c hroom
    obtain ⟨-, hversion, hemitted⟩ := Appender.ledger_eq hledger
    simp only at h
    split at h
    · next hdata =>
      cases h
      rw [List.take_eq_nil_iff] at hdata
      obtain rfl : rest = [] := hdata.resolve_left (by omega)
      exact ⟨[], by simp [hemitted], .nil _ _⟩
    · next hdata =>
      obtain ⟨ns, htail, hchunks⟩ := ih h
      have hround := addChunk_ledger c (ri.chunk ((s₁.lastVersion + 1) % 2 ^ 32) fOffset
        (rest.take (min len 4096))) s₁
      rw [Appender.ledger, Prod.mk.injEq, Prod.mk.injEq] at hround
      rw [hround.2.2, hemitted, List.append_assoc] at htail
      rw [hround.2.1, hversion] at hchunks
      rw [hversion, ← List.map_singleton, ← List.map_append] at htail
      refine ⟨_, htail, ?_⟩
      have hsplit : rest.take (min len 4096) ++ rest.drop (rest.take (min len 4096)).length = rest := by
        rw [List.length_take, List.take_eq_take_min, List.take_append_drop]
      have hlen' : (rest.take (min len 4096)).length ≤ 4096 := by
        rw [List.length_take]
        omega
      have hcons := Chunked.cons s.lastVersion fOffset _ _ ns hdata hlen' hchunks
      rwa [hsplit] at hcons

/-- A file's entry and its inodes, from the counters before. -/
structure FileNodes (lastIno lastVersion : ℕ) (content : List UInt8) (de : Dirent) (ns : List Inode) : Prop where
  ino : de.ino = (lastIno + 1) % 2 ^ 32
  version : de.version = lastVersion
  chunked : ∃ ri : Inode, ri.ino = de.ino ∧ Chunked ri ((lastVersion + 1) % 2 ^ 32) 0 content ns

theorem addFile_emitted (c : Config) {st : FileStat} {content : List UInt8} {parent : ℕ} {s s' : Appender}
    (h : addFile c (.regular st content) parent s = some s') :
    ∃ de ns, s'.emitted = s.emitted ++ .dirent de :: ns.map Node.inode ∧ de.name = baseName st.path ∧
      FileNodes s.lastIno s.lastVersion content de ns := by
  obtain ⟨hino, hledger⟩ := addDirent_ledger c (baseName st.path) 8 parent s
  rw [Appender.ledger, Prod.mk.injEq, Prod.mk.injEq] at hledger
  rw [addFile] at h
  obtain ⟨ns, hemitted, hchunked⟩ := addChunks_emitted c _ h
  rw [hledger.2.2, List.append_assoc] at hemitted
  rw [hledger.2.1] at hchunked
  exact ⟨_, ns, hemitted, rfl, rfl, rfl, _, hino, hchunked⟩

/-- The directory's entry and inode, when it had to be made. -/
inductive DirNodes (dir : List UInt8) (f : Found) (lastIno : ℕ) : List Node → ℕ → ℕ → Prop
  | found (htarget : f.targetIno ≠ 0) : DirNodes dir f lastIno [] lastIno f.lastVersion
  | made (htarget : f.targetIno = 0) (de : Dirent) (n : Inode) (hname : de.name = dir)
      (hversion : de.version = f.lastVersion) (hino : de.ino = (lastIno + 1) % 2 ^ 32) (hn : n.ino = de.ino) :
      DirNodes dir f lastIno [.dirent de, .inode n] ((lastIno + 2) % 2 ^ 32) ((f.lastVersion + 1) % 2 ^ 32)

/-- The numbers of the entry for the directory and of the one for the file differ. -/
theorem ino_apart (n : ℕ) : (n + 1) % 2 ^ 32 ≠ ((n + 2) % 2 ^ 32 + 1) % 2 ^ 32 := by
  omega

theorem ledger_finish (c : Config) (s : Appender) : (finish c s).ledger = s.ledger := by
  simp [finish]

theorem appendFile_emitted (c : Config) {dir : List UInt8} {st : FileStat} {content : List UInt8} {p : Place}
    {s' : Appender} (h : appendFile c dir (.regular st content) p = some s') :
    ∃ dirNodes lastIno lastVersion de ns, s'.emitted = dirNodes ++ .dirent de :: ns.map Node.inode ∧
      DirNodes dir p.found (startAppend c p).lastIno dirNodes lastIno lastVersion ∧
      de.name = baseName st.path ∧ FileNodes lastIno lastVersion content de ns := by
  rw [appendFile, Option.map_eq_some_iff] at h
  obtain ⟨s₁, h, rfl⟩ := h
  obtain ⟨de, ns, hemitted, hname, hfile⟩ := addFile_emitted c h
  rw [← (Appender.ledger_eq (ledger_finish c s₁)).2.2] at hemitted
  split at hemitted
  · next htarget =>
    rw [if_pos htarget] at hfile
    obtain ⟨-, n, hn, hledger⟩ := addDir_ledger c dir 1 (startAppend c p)
    rw [Appender.ledger, Prod.mk.injEq, Prod.mk.injEq] at hledger
    rw [hledger.2.2] at hemitted
    rw [hledger.1, hledger.2.1] at hfile
    exact ⟨_, _, _, de, ns, hemitted, .made htarget _ n rfl rfl rfl hn, hname, hfile⟩
  · next htarget =>
    rw [if_neg htarget] at hfile
    exact ⟨[], _, _, de, ns, hemitted, .found htarget, hname, hfile⟩

end Neufbox.Jffs2
