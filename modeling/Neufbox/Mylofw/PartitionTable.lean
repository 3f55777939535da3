import Neufbox.Mylofw.Decodable

/-! # The partition table in the kernel

`myloader_parse_partitions` looks for the table that `mkmylofw` wrote, and makes partitions of its entries. Names
are copied with `strncpy` into slots of the same size on both sides; a name that fills its slot has no end. -/
namespace Neufbox.Mylofw
open Neufbox.CString Neufbox.FirmwareUtils Neufbox.Memory Neufbox.Blocks
set_option autoImplicit false
set_option maxHeartbeats 250000
set_option maxRecDepth 120000

/-! ## The parser -/

def blockLenMin : ℕ := 0x10000

structure MtdInfo where
  erasesize : ℕ
  contents : List UInt8

/-- Reads behind the end of the flash fail or are short. -/
def MtdInfo.read (master : MtdInfo) (offset len : ℕ) : Option (List UInt8) :=
  if offset + len ≤ master.contents.length then some ((master.contents.drop offset).take len) else none

def MtdInfo.blocklen (master : MtdInfo) : ℕ := if master.erasesize < blockLenMin then blockLenMin else master.erasesize

def halfAt (bs : List UInt8) (off : ℕ) : BitVec 16 := BitVec.ofNat 16 (leWord ((bs.drop off).take 2))

/-- The search for the table, with the turns that are left and the offset: `none` after a failed read, `some none`
without a table. -/
def findTable (master : MtdInfo) : ℕ → ℕ → Option (Option (ℕ × List UInt8))
  | 0, _ => some none
  | n + 1, offset =>
    match master.read offset partTableLen with
    | none => none
    | some buf =>
      if wordAt buf 0 = myloMagicPartitions then some (some (offset, buf))
      else findTable master n (offset + master.blocklen)

section Entries
variable (buf : List UInt8) (i : ℕ)

/-- The fields of `tab->partitions[i]`. -/
def entryType : BitVec 16 := halfAt buf (16 + 16 * i + 2)

def entryAddr : BitVec 32 := wordAt buf (16 + 16 * i + 4)

def entrySize : BitVec 32 := wordAt buf (16 + 16 * i + 8)

def entryName : List UInt8 := (buf.drop (16 + 16 * myloMaxPartitions + partNameLen * i)).take partNameLen

end Entries

def usedEntries (buf : List UInt8) : List ℕ := (List.range myloMaxPartitions).filter fun i => entryType buf i ≠ 0

/-- The text of `"partition%d"`. -/
def partitionText (i : ℕ) : List UInt8 := (CStr.lit "partition").bytes ++ Decimal.decimal i

/-- `snprintf` into an array of `n` zeroes. -/
def snprintf (n : ℕ) (text : List UInt8) : List UInt8 := strncpy n (text.take (n - 1))

def nameSlot (buf : List UInt8) (i : ℕ) : List UInt8 :=
  if (entryName buf i).headD 0 ≠ 0 ∧ (entryName buf i).headD 0 ≠ 0xff then strncpy partNameLen (entryName buf i)
  else snprintf partNameLen (partitionText i)

/-- A partition; its name is at an offset in the names, and `readOnly` stands for `MTD_WRITEABLE` in `mask_flags`. -/
structure MtdPartition where
  name : ℕ
  offset : ℕ
  size : ℕ
  readOnly : Bool

def mtdParts (offset blocklen : ℕ) (buf : List UInt8) : List MtdPartition :=
  ⟨0, 0, offset, true⟩ :: ⟨partNameLen, offset, blocklen, true⟩ ::
    (usedEntries buf).mapIdx fun k i => ⟨partNameLen * (k + 2), (entryAddr buf i).toNat, (entrySize buf i).toNat, false⟩

/-- The names, in slots behind each other; nothing may be read behind them. -/
def mtdNames (buf : List UInt8) : List UInt8 :=
  (strncpy partNameLen (CStr.lit "myloader").bytes :: strncpy partNameLen (CStr.lit "partition_table").bytes ::
    (usedEntries buf).map (nameSlot buf)).flatten

inductive ParseResult
  | failed
  | noTable
  | found (parts : List MtdPartition) (names : List UInt8)

def myloaderParsePartitions (master : MtdInfo) : ParseResult :=
  match findTable master 4 master.blocklen with
  | none => .failed
  | some none => .noTable
  | some (some (offset, buf)) => .found (mtdParts offset master.blocklen buf) (mtdNames buf)

/-! ## Agreement -/

/-- The name of a partition as a string, if it ends. -/
def MtdPartition.text (p : MtdPartition) (names : List UInt8) : Option (List UInt8) :=
  (stringAt (names.drop p.name)).map fun r => r.1.bytes

/-- The name that a partition is to have. -/
def expectedName (i : ℕ) (arg : CStr) : List UInt8 :=
  if givenName arg = [] then partitionText i else (givenName arg).take (partNameLen - 1)

/-- A partition of the kernel for the `i`-th one of the tool. -/
structure SamePartition (names : List UInt8) (i : ℕ) (part : FwPart) (arg : CStr) (p : MtdPartition) : Prop where
  offset : p.offset = part.addr.toNat
  size : p.size = part.size.toNat
  name : p.text names = some (expectedName i arg)

/-- The parser finds the two fixed partitions and those of the tool, in order. -/
def Agrees (options : List Opt) (g : Globals) (master : MtdInfo) (offset : ℕ) : Prop :=
  ∃ first second rest names, myloaderParsePartitions master = .found (first :: second :: rest) names ∧
    (first.offset, first.size, first.text names) = (0, offset, some (CStr.lit "myloader").bytes) ∧
    (second.offset, second.size, second.text names) = (offset, master.blocklen, some (CStr.lit "partition_table").bytes) ∧
    rest.length = g.parts.length ∧
    ∀ i part arg, g.parts[i]? = some part → (partitionArgs options)[i]? = some arg →
      ∃ p, rest[i]? = some p ∧ SamePartition names i part arg p

/-- The data of the first descriptor. -/
def emittedTable (image : List UInt8) : Option (List UInt8) :=
  (readDescs image.length (image.drop 40)).map fun r => r.2.take partTableLen

/-- A flash with the table at `k` blocks from its start, and no other table at an earlier block. -/
structure Stored (image : List UInt8) (master : MtdInfo) (k : ℕ) : Prop where
  range : 1 ≤ k ∧ k ≤ 4
  table : emittedTable image = some ((master.contents.drop (k * master.blocklen)).take partTableLen)
  earlier : ∀ j, 1 ≤ j → j < k → wordAt (master.contents.drop (j * master.blocklen)) 0 ≠ myloMagicPartitions

/-! ## The table that is written -/

/-- The entries, with free ones behind those in use. -/
def tableEntries (parts : List FwPart) : List (List UInt8) :=
  parts.map FwPart.bytes ++ List.replicate (myloMaxPartitions - parts.length) (List.replicate 16 0)

def tableSlots (parts : List FwPart) : List (List UInt8) :=
  parts.map FwPart.name ++ List.replicate (myloMaxPartitions - parts.length) (List.replicate partNameLen 0)

theorem flatten_replicate_replicate (n k : ℕ) (x : UInt8) :
    (List.replicate n (List.replicate k x)).flatten = List.replicate (k * n) x := by
  induction n with
  | zero => rfl
  | succ n ih => rw [List.replicate_succ, List.flatten_cons, ih, Nat.mul_succ, Nat.add_comm, List.replicate_add]

section Table
variable {parts : List FwPart}

theorem tableData_eq (hparts : parts ≠ []) : tableData parts =
    (le32 myloMagicPartitions ++ List.replicate 12 0) ++ ((tableEntries parts).flatten ++ (tableSlots parts).flatten) := by
  unfold tableData tableEntries tableSlots
  rw [if_neg hparts]
  simp only [List.flatten_append, flatten_replicate_replicate, List.flatMap_def, List.append_assoc]

theorem mem_tableEntries_length : ∀ e ∈ tableEntries parts, e.length = 16 := by
  intro e he
  rcases List.mem_append.mp he with he | he
  · obtain ⟨part, -, rfl⟩ := List.mem_map.mp he
    rfl
  · rw [List.eq_of_mem_replicate he, List.length_replicate]

theorem mem_tableSlots_length : ∀ s ∈ tableSlots parts, s.length = partNameLen := by
  intro s hs
  rcases List.mem_append.mp hs with hs | hs
  · obtain ⟨part, -, rfl⟩ := List.mem_map.mp hs
    exact part.name_length
  · rw [List.eq_of_mem_replicate hs, List.length_replicate]

theorem tableEntries_length (hcount : parts.length ≤ myloMaxPartitions) : (tableEntries parts).length = myloMaxPartitions := by
  rw [tableEntries, List.length_append, List.length_map, List.length_replicate]
  omega

theorem tableSlots_length (hcount : parts.length ≤ myloMaxPartitions) : (tableSlots parts).length = myloMaxPartitions := by
  rw [tableSlots, List.length_append, List.length_map, List.length_replicate]
  omega

theorem wordAt_slice (bs : List UInt8) (a : ℕ) {b n : ℕ} (hb : b + 4 ≤ n) :
    wordAt ((bs.drop a).take n) b = wordAt bs (a + b) := by
  rw [wordAt, wordAt, List.drop_take, List.take_take, Nat.min_eq_left (by omega), List.drop_drop]

theorem halfAt_slice (bs : List UInt8) (a : ℕ) {b n : ℕ} (hb : b + 2 ≤ n) :
    halfAt ((bs.drop a).take n) b = halfAt bs (a + b) := by
  rw [halfAt, halfAt, List.drop_take, List.take_take, Nat.min_eq_left (by omega), List.drop_drop]

theorem tableFront_length : (le32 myloMagicPartitions ++ List.replicate 12 (0 : UInt8)).length = 16 := rfl

theorem table_entry (hparts : parts ≠ []) {i : ℕ} (hi : i < (tableEntries parts).length) :
    ((tableData parts).drop (16 + 16 * i)).take 16 = (tableEntries parts)[i] := by
  rw [tableData_eq hparts, ← List.drop_drop, List.drop_left' tableFront_length]
  exact block_flatten _ mem_tableEntries_length i hi _

theorem table_slot (hparts : parts ≠ []) (hcount : parts.length ≤ myloMaxPartitions) {i : ℕ}
    (hi : i < (tableSlots parts).length) : entryName (tableData parts) i = (tableSlots parts)[i] := by
  have hlen : (tableEntries parts).flatten.length = 16 * myloMaxPartitions := by
    rw [← tableEntries_length hcount, ← List.flatMap_id]
    exact flatMap_length id _ mem_tableEntries_length
  have hblock := block_flatten (tableSlots parts) mem_tableSlots_length i hi []
  rw [List.append_nil] at hblock
  rw [entryName, tableData_eq hparts, ← List.drop_drop, ← List.drop_drop, List.drop_left' tableFront_length,
    List.drop_left' hlen]
  exact hblock

theorem FwPart.bytes_fields (part : FwPart) : halfAt part.bytes 2 = partitionTypeUsed ∧ wordAt part.bytes 4 = part.addr ∧
    wordAt part.bytes 8 = part.size := by
  have hadd : ∀ (x : BitVec 32) (rest : List UInt8) (off : ℕ), wordAt (le32 x ++ rest) (4 + off) = wordAt rest off :=
    fun x rest off => wordAt_append (le32 x) rest off
  have hfront : part.bytes = (le16 part.flags ++ le16 partitionTypeUsed) ++
      (le32 part.addr ++ (le32 part.size ++ le32 part.param)) := by
    rw [FwPart.bytes, List.append_assoc]
  have haddr : wordAt part.bytes ((le16 part.flags ++ le16 partitionTypeUsed).length + 0) = part.addr := by
    rw [hfront, wordAt_append, wordAt_le32]
  have hsize : wordAt part.bytes ((le16 part.flags ++ le16 partitionTypeUsed).length + (4 + 0)) = part.size := by
    rw [hfront, wordAt_append, hadd, wordAt_le32]
  exact ⟨rfl, haddr, hsize⟩

theorem tableEntries_used {i : ℕ} (hi : i < parts.length) (hi' : i < (tableEntries parts).length) :
    (tableEntries parts)[i] = parts[i].bytes := by
  simp only [tableEntries]
  rw [List.getElem_append_left (by rw [List.length_map]; exact hi), List.getElem_map]

theorem tableEntries_free {i : ℕ} (hi : parts.length ≤ i) (hi' : i < (tableEntries parts).length) :
    (tableEntries parts)[i] = List.replicate 16 0 := by
  simp only [tableEntries]
  rw [List.getElem_append_right (by rw [List.length_map]; exact hi), List.getElem_replicate]

theorem tableSlots_used {i : ℕ} (hi : i < parts.length) (hi' : i < (tableSlots parts).length) :
    (tableSlots parts)[i] = parts[i].name := by
  simp only [tableSlots]
  rw [List.getElem_append_left (by rw [List.length_map]; exact hi), List.getElem_map]

/-- What the parser reads of an entry in use. -/
theorem table_fields (hparts : parts ≠ []) (hcount : parts.length ≤ myloMaxPartitions) {i : ℕ} (hi : i < parts.length) :
    entryType (tableData parts) i = partitionTypeUsed ∧ entryAddr (tableData parts) i = parts[i].addr ∧
      entrySize (tableData parts) i = parts[i].size ∧ entryName (tableData parts) i = parts[i].name := by
  have hentry : i < (tableEntries parts).length := by
    rw [tableEntries_length hcount]
    omega
  have hslot : i < (tableSlots parts).length := by
    rw [tableSlots_length hcount]
    omega
  obtain ⟨htype, haddr, hsize⟩ := parts[i].bytes_fields
  refine ⟨?_, ?_, ?_, ?_⟩
  · rw [entryType, ← halfAt_slice _ _ (by decide : 2 + 2 ≤ 16), table_entry hparts hentry, tableEntries_used hi, htype]
  · rw [entryAddr, ← wordAt_slice _ _ (by decide : 4 + 4 ≤ 16), table_entry hparts hentry, tableEntries_used hi, haddr]
  · rw [entrySize, ← wordAt_slice _ _ (by decide : 8 + 4 ≤ 16), table_entry hparts hentry, tableEntries_used hi, hsize]
  · rw [table_slot hparts hcount hslot, tableSlots_used hi]

theorem table_free (hparts : parts ≠ []) (hcount : parts.length ≤ myloMaxPartitions) {i : ℕ} (hi : parts.length ≤ i)
    (hmax : i < myloMaxPartitions) : entryType (tableData parts) i = 0 := by
  have hentry : i < (tableEntries parts).length := by
    rw [tableEntries_length hcount]
    exact hmax
  rw [entryType, ← halfAt_slice _ _ (by decide : 2 + 2 ≤ 16), table_entry hparts hentry, tableEntries_free hi]
  rfl

theorem filter_range_lt {n m : ℕ} (hn : n ≤ m) : (List.range m).filter (fun i => i < n) = List.range n := by
  induction m with
  | zero =>
    rw [Nat.le_zero.mp hn]
    rfl
  | succ m ih =>
    rw [List.range_succ, List.filter_append]
    by_cases hm : n = m + 1
    · rw [hm, List.range_succ, List.filter_eq_self.mpr]
      · simp
      · intro i hi
        rw [List.mem_range] at hi
        simp only [decide_eq_true_eq]
        omega
    · rw [ih (by omega)]
      simp
      omega

theorem usedEntries_table (hparts : parts ≠ []) (hcount : parts.length ≤ myloMaxPartitions) :
    usedEntries (tableData parts) = List.range parts.length := by
  rw [← filter_range_lt hcount, usedEntries]
  refine List.filter_congr fun i hi => ?_
  rw [decide_eq_decide]
  constructor
  · intro hused
    by_contra hge
    exact hused (table_free hparts hcount (not_lt.mp hge) (List.mem_range.mp hi))
  · intro hlt
    rw [(table_fields hparts hcount hlt).1]
    decide

end Table

/-! ## Names in their slots -/

section Names
variable {n : ℕ} {src : List UInt8}

theorem takeWhile_nulFree (hsrc : (0 : UInt8) ∉ src) : src.takeWhile (· ≠ 0) = src := by
  have hall : ∀ b ∈ src, decide (b ≠ 0) = true := by
    intro b hb
    rw [decide_eq_true_eq]
    rintro rfl
    exact hsrc hb
  simpa using @List.takeWhile_append_of_pos _ _ src [] hall

theorem strncpy_eq (hsrc : (0 : UInt8) ∉ src) : strncpy n src = src.take n ++ List.replicate (n - src.length) 0 := by
  unfold strncpy
  rw [takeWhile_nulFree hsrc]
  dsimp only
  rw [List.length_take]
  congr 2
  omega

theorem strncpy_congr {src' : List UInt8} (h : src.takeWhile (· ≠ 0) = src'.takeWhile (· ≠ 0)) :
    strncpy n src = strncpy n src' := by
  unfold strncpy
  rw [h]

/-- A name that is copied once more stays the same. -/
theorem strncpy_strncpy (hsrc : (0 : UInt8) ∉ src) : strncpy n (strncpy n src) = strncpy n src := by
  have htake : (0 : UInt8) ∉ src.take n := fun h => hsrc (List.mem_of_mem_take h)
  have htext : (strncpy n src).takeWhile (· ≠ 0) = src.take n := by
    rw [strncpy_eq hsrc]
    cases n - src.length with
    | zero => rw [List.replicate_zero, List.append_nil, takeWhile_nulFree htake]
    | succ k =>
      have hfirst : List.takeWhile (· ≠ 0) (List.replicate (k + 1) (0 : UInt8)) = [] := rfl
      rw [List.takeWhile_append, takeWhile_nulFree htake, if_pos rfl, hfirst, List.append_nil]
  have hcopy : strncpy n (strncpy n src) = strncpy n (src.take n) :=
    strncpy_congr (htext.trans (takeWhile_nulFree htake).symm)
  rw [hcopy, strncpy_eq htake, strncpy_eq hsrc, List.take_take, Nat.min_self, List.length_take]
  congr 2
  omega

/-- A name that is shorter than its slot is the string in it. -/
theorem stringAt_short (hsrc : (0 : UInt8) ∉ src) (hlen : src.length < n) (rest : List UInt8) :
    (stringAt (strncpy n src ++ rest)).map (fun r => r.1.bytes) = some src := by
  obtain ⟨k, hk⟩ := Nat.exists_eq_succ_of_ne_zero (by omega : n - src.length ≠ 0)
  have hmem : strncpy n src ++ rest = src ++ 0 :: (List.replicate k 0 ++ rest) := by
    rw [strncpy_eq hsrc, List.take_of_length_le hlen.le, hk, List.replicate_succ, List.append_assoc, List.cons_append]
  rw [hmem, stringAt_terminated ⟨src, hsrc⟩]
  rfl

/-- A name that fills its slot runs on into the next one. -/
theorem stringAt_long (hsrc : (0 : UInt8) ∉ src) (hlen : n ≤ src.length) (rest : List UInt8) {text : List UInt8}
    (htext : (stringAt (strncpy n src ++ rest)).map (fun r => r.1.bytes) = some text) : n ≤ text.length := by
  obtain ⟨⟨s, after⟩, hstring, rfl⟩ := Option.map_eq_some_iff.mp htext
  have hmem := stringAt_eq_some hstring
  rw [strncpy_eq hsrc, Nat.sub_eq_zero_of_le hlen, List.replicate_zero, List.append_nil] at hmem
  by_contra hshort
  change ¬ n ≤ s.bytes.length at hshort
  have hzero : (src.take n ++ rest)[s.bytes.length]? = some 0 := by
    rw [hmem, List.getElem?_append_right le_rfl, Nat.sub_self]
    rfl
  rw [List.getElem?_append_left (by rw [List.length_take]; omega)] at hzero
  exact hsrc (List.mem_of_mem_take (List.mem_of_getElem? hzero))

end Names

/-! ## The table in the flash -/

theorem findTable_skip (master : MtdInfo) {n j k : ℕ} (hjk : j ≤ k) (hn : k - j < n)
    (hroom : k * master.blocklen + partTableLen ≤ master.contents.length)
    (hmagic : wordAt (master.contents.drop (k * master.blocklen)) 0 = myloMagicPartitions)
    (hearlier : ∀ i, j ≤ i → i < k → wordAt (master.contents.drop (i * master.blocklen)) 0 ≠ myloMagicPartitions) :
    findTable master n (j * master.blocklen) =
      some (some (k * master.blocklen, (master.contents.drop (k * master.blocklen)).take partTableLen)) := by
  induction n generalizing j with
  | zero => omega
  | succ n ih =>
    have hread : ∀ i ≤ k, master.read (i * master.blocklen) partTableLen =
        some ((master.contents.drop (i * master.blocklen)).take partTableLen) := fun i hi =>
      if_pos (le_trans (Nat.add_le_add_right (Nat.mul_le_mul_right _ hi) _) hroom)
    have hword : ∀ off, wordAt ((master.contents.drop off).take partTableLen) 0 = wordAt (master.contents.drop off) 0 :=
      fun off => by rw [wordAt_slice _ _ (by decide : 0 + 4 ≤ partTableLen), wordAt, wordAt, List.drop_zero, Nat.add_zero]
    rw [findTable, hread j hjk]
    dsimp only
    rw [hword]
    by_cases hj : j = k
    · rw [hj, if_pos hmagic]
    · rw [if_neg (hearlier j le_rfl (by omega)), ← Nat.succ_mul]
      exact ih (by omega) (by omega) fun i hi hik => hearlier i (by omega) hik

section Agreement
variable {files : Files} {options : List Opt} {board : CpxBoard} {g : Globals}

theorem emittedTable_writeOut (h : Prepared files options g) (hparts : g.parts ≠ []) :
    emittedTable (writeOut files board g) = some (tableData g.parts) := by
  rw [emittedTable, writeOut_eq, readDescs_body, Option.map_some, List.take_left' (tableData_length hparts h.count)]

/-- The parser finds the stored table. -/
theorem parse_stored (h : Prepared files options g) (hparts : g.parts ≠ []) {master : MtdInfo} {k : ℕ}
    (hstored : Stored (writeOut files board g) master k) :
    myloaderParsePartitions master = .found (mtdParts (k * master.blocklen) master.blocklen (tableData g.parts))
      (mtdNames (tableData g.parts)) := by
  have htable : (master.contents.drop (k * master.blocklen)).take partTableLen = tableData g.parts := by
    have hemitted := hstored.table
    rw [emittedTable_writeOut h hparts, Option.some.injEq] at hemitted
    exact hemitted.symm
  have hroom : k * master.blocklen + partTableLen ≤ master.contents.length := by
    have hlen := congrArg List.length htable
    rw [tableData_length hparts h.count, List.length_take, List.length_drop] at hlen
    have hpos : 0 < partTableLen := by decide
    omega
  have hmagic : wordAt (master.contents.drop (k * master.blocklen)) 0 = myloMagicPartitions := by
    have hslice := wordAt_slice (master.contents.drop (k * master.blocklen)) 0 (by decide : 0 + 4 ≤ partTableLen)
    rw [List.drop_zero, htable, tableData, if_neg hparts, wordAt_le32] at hslice
    exact hslice.symm
  have hfind := findTable_skip master (n := 4) hstored.range.1 (by have := hstored.range; omega) hroom hmagic hstored.earlier
  rw [Nat.one_mul, htable] at hfind
  rw [myloaderParsePartitions, hfind]

/-- The text that goes into the slot of a partition. -/
def slotText (i : ℕ) (arg : CStr) : List UInt8 := if givenName arg = [] then partitionText i else givenName arg

theorem partitionText_short {i : ℕ} (hi : i < myloMaxPartitions) : (partitionText i).length < partNameLen := by
  have hdigits := Decimal.decimal_length_le (k := 1) (by decide) (lt_trans hi (by decide) : i < 10 ^ 1)
  have hfront : (CStr.lit "partition").bytes.length = 9 := by decide
  rw [partitionText, List.length_append, hfront]
  unfold partNameLen
  omega

theorem partitionText_nulFree (i : ℕ) : (0 : UInt8) ∉ partitionText i := by
  intro h
  rcases List.mem_append.mp h with h | h
  · exact (CStr.lit "partition").nulFree h
  · exact absurd (Decimal.decimal_isDigit h) (by decide)

theorem slotText_nulFree (i : ℕ) (arg : CStr) : (0 : UInt8) ∉ slotText i arg := by
  unfold slotText
  split
  · exact partitionText_nulFree i
  · exact argAt_nulFree arg 4

section Slots
variable {parts : List FwPart} {args : List CStr}

theorem nameSlot_eq (hparts : parts ≠ []) (hcount : parts.length ≤ myloMaxPartitions) {i : ℕ} (hi : i < parts.length)
    {arg : CStr} (hname : parts[i].name = strncpy partNameLen (givenName arg)) (hff : (givenName arg).head? ≠ some 0xff) :
    nameSlot (tableData parts) i = strncpy partNameLen (slotText i arg) := by
  have hnul := argAt_nulFree arg 4
  have hentry := (table_fields hparts hcount hi).2.2.2
  rw [hname] at hentry
  unfold nameSlot slotText
  rw [hentry]
  cases hgiven : givenName arg with
  | nil =>
    have hfirst : (strncpy partNameLen ([] : List UInt8)).headD 0 = 0 := rfl
    have hshort := partitionText_short (lt_of_lt_of_le hi hcount)
    rw [hfirst, if_neg (fun h => h.1 rfl), if_pos rfl, snprintf, List.take_of_length_le (by omega)]
  | cons c name =>
    have hc : c ≠ 0 := by
      rintro rfl
      exact hnul (by rw [← givenName, hgiven]; exact List.mem_cons_self)
    have hfirst : (strncpy partNameLen (c :: name)).headD 0 = c := by
      rw [strncpy_eq (by rw [← hgiven]; exact hnul)]
      rfl
    have hff' : c ≠ 0xff := by
      rintro rfl
      exact hff (by rw [hgiven]; rfl)
    rw [hfirst, if_pos ⟨hc, hff'⟩, if_neg (by simp), strncpy_strncpy (by rw [← hgiven]; exact hnul)]

/-- The name of a partition, read from its slot on. -/
theorem text_slot (hparts : parts ≠ []) (hcount : parts.length ≤ myloMaxPartitions) {i : ℕ} (hi : i < parts.length)
    {arg : CStr} (hname : parts[i].name = strncpy partNameLen (givenName arg)) (hff : (givenName arg).head? ≠ some 0xff) :
    ∃ rest, (mtdNames (tableData parts)).drop (partNameLen * (i + 2)) = strncpy partNameLen (slotText i arg) ++ rest := by
  have hslots : ∀ s ∈ strncpy partNameLen (CStr.lit "myloader").bytes ::
      strncpy partNameLen (CStr.lit "partition_table").bytes :: (List.range parts.length).map (nameSlot (tableData parts)),
      s.length = partNameLen := by
    intro s hs
    rw [List.mem_cons, List.mem_cons, List.mem_map] at hs
    rcases hs with rfl | rfl | ⟨j, -, rfl⟩
    · exact strncpy_length _ _
    · exact strncpy_length _ _
    · unfold nameSlot snprintf
      split <;> exact strncpy_length _ _
  have hdrop := drop_flatten _ hslots (i + 2) (by simp; omega) []
  rw [List.append_nil, List.append_nil] at hdrop
  rw [mtdNames, usedEntries_table hparts hcount, hdrop, List.drop_succ_cons, List.drop_succ_cons,
    List.drop_eq_getElem_cons (by simpa using hi), List.flatten_cons, List.getElem_map, List.getElem_range,
    nameSlot_eq hparts hcount hi hname hff]
  exact ⟨_, rfl⟩

end Slots

theorem expectedName_of_short (i : ℕ) {arg : CStr} (hshort : (givenName arg).length ≤ 31) :
    expectedName i arg = slotText i arg := by
  have htake : (givenName arg).take (partNameLen - 1) = givenName arg := List.take_of_length_le hshort
  rw [expectedName, slotText, htake]

theorem mtd_text_eq_iff {i : ℕ} (hi : i < myloMaxPartitions) (arg : CStr) (rest : List UInt8) :
    (stringAt (strncpy partNameLen (slotText i arg) ++ rest)).map (fun r => r.1.bytes) = some (expectedName i arg) ↔
      (givenName arg).length ≤ 31 := by
  have hnul := slotText_nulFree i arg
  constructor
  · intro htext
    by_contra hlong
    have hgiven : givenName arg ≠ [] := by
      intro hnil
      rw [hnil] at hlong
      exact hlong (by decide)
    have hslot : slotText i arg = givenName arg := if_neg hgiven
    have hlen := stringAt_long hnul (by rw [hslot]; unfold partNameLen; omega) rest htext
    rw [expectedName, if_neg hgiven, List.length_take] at hlen
    unfold partNameLen at hlen
    omega
  · intro hshort
    have hlen : (slotText i arg).length < partNameLen := by
      unfold slotText
      split
      · exact partitionText_short hi
      · unfold partNameLen
        omega
    rw [expectedName_of_short i hshort]
    exact stringAt_short hnul hlen rest

theorem fixed_texts (g : Globals) :
    (stringAt ((mtdNames (tableData g.parts)).drop 0)).map (fun r => r.1.bytes) = some (CStr.lit "myloader").bytes ∧
    (stringAt ((mtdNames (tableData g.parts)).drop partNameLen)).map (fun r => r.1.bytes) =
      some (CStr.lit "partition_table").bytes := by
  have hfirst : (strncpy partNameLen (CStr.lit "myloader").bytes).length = partNameLen := strncpy_length _ _
  rw [mtdNames, List.flatten_cons, List.flatten_cons, List.drop_zero, List.drop_left' hfirst]
  exact ⟨stringAt_short (CStr.lit "myloader").nulFree (by decide) _,
    stringAt_short (CStr.lit "partition_table").nulFree (by decide) _⟩

/-- The name that was given for a partition. -/
theorem part_name (h : Prepared files options g) {i : ℕ} (hi : i < g.parts.length) {arg : CStr}
    (harg : (partitionArgs options)[i]? = some arg) : g.parts[i].name = strncpy partNameLen (givenName arg) := by
  have hget := congrArg (fun l => l[i]?) h.parts
  simp only [List.getElem?_map, harg, List.getElem?_eq_getElem hi, Option.map_some, Option.some.injEq] at hget
  exact hget

/-- Parser and tool agree exactly if every name leaves room for its end. -/
theorem agrees_iff (h : Prepared files options g) (hparts : g.parts ≠ [])
    (hff : ∀ arg ∈ partitionArgs options, (givenName arg).head? ≠ some 0xff) {master : MtdInfo} {k : ℕ}
    (hstored : Stored (writeOut files board g) master k) :
    Agrees options g master (k * master.blocklen) ↔ ∀ arg ∈ partitionArgs options, (givenName arg).length ≤ 31 := by
  have hcount := h.count
  have hargs : g.parts.length = (partitionArgs options).length := by
    have hlen := congrArg List.length h.parts
    rwa [List.length_map, List.length_map] at hlen
  have hparse := parse_stored h hparts hstored
  constructor
  · rintro ⟨first, second, rest, names, hfound, -, -, -, hall⟩ arg harg
    obtain ⟨i, hi, hget⟩ := List.getElem_of_mem harg
    have harg? : (partitionArgs options)[i]? = some arg := List.getElem?_eq_some_iff.mpr ⟨hi, hget⟩
    have hi' : i < g.parts.length := by rw [hargs]; exact hi
    rw [hparse, mtdParts, ParseResult.found.injEq, List.cons.injEq, List.cons.injEq] at hfound
    obtain ⟨⟨-, -, hrest⟩, hnames⟩ := hfound
    obtain ⟨p, hp, hsame⟩ := hall i _ arg (List.getElem?_eq_getElem hi') harg?
    rw [← hrest, usedEntries_table hparts hcount, List.getElem?_mapIdx, List.getElem?_range hi', Option.map_some,
      Option.some.injEq] at hp
    obtain ⟨tail, htail⟩ := text_slot hparts hcount hi' (part_name h hi' harg?) (hff arg harg)
    have htext := hsame.name
    rw [← hp, ← hnames, MtdPartition.text, htail] at htext
    exact (mtd_text_eq_iff (lt_of_lt_of_le hi' hcount) arg tail).mp htext
  · intro hshort
    obtain ⟨hfirst, hsecond⟩ := fixed_texts g
    refine ⟨_, _, _, _, hparse, ?_, ?_, ?_, ?_⟩
    · rw [Prod.mk.injEq, Prod.mk.injEq]
      exact ⟨rfl, rfl, hfirst⟩
    · rw [Prod.mk.injEq, Prod.mk.injEq]
      exact ⟨rfl, rfl, hsecond⟩
    · rw [List.length_mapIdx, usedEntries_table hparts hcount, List.length_range]
    · intro i part arg hpart harg
      obtain ⟨hi, hpart⟩ := List.getElem?_eq_some_iff.mp hpart
      have hmem := List.mem_of_getElem? harg
      obtain ⟨-, haddr, hsize, -⟩ := table_fields hparts hcount hi
      obtain ⟨tail, htail⟩ := text_slot hparts hcount hi (part_name h hi harg) (hff arg hmem)
      refine ⟨_, by rw [usedEntries_table hparts hcount, List.getElem?_mapIdx, List.getElem?_range hi]; rfl, ?_, ?_, ?_⟩
      · dsimp only
        rw [haddr, hpart]
      · dsimp only
        rw [hsize, hpart]
      · rw [MtdPartition.text, htail]
        exact (mtd_text_eq_iff (lt_of_lt_of_le hi hcount) arg tail).mpr (hshort arg hmem)

/-- A flash with the table behind a boot loader of `k` blocks. -/
def flashWith (k : ℕ) (g : Globals) : MtdInfo := ⟨0x10000, List.replicate (k * 0x10000) 0xff ++ tableData g.parts⟩

theorem wordAt_blank {n : ℕ} (hn : 4 ≤ n) (l : List UInt8) :
    wordAt (List.replicate n 0xff ++ l) 0 ≠ myloMagicPartitions := by
  obtain ⟨m, rfl⟩ : ∃ m, n = 4 + m := ⟨n - 4, by omega⟩
  rw [List.replicate_add, List.append_assoc]
  show BitVec.ofNat 32 (leWord [0xff, 0xff, 0xff, 0xff]) ≠ _
  decide

theorem stored_flashWith (h : Prepared files options g) (hparts : g.parts ≠ []) {k : ℕ} (hk : 1 ≤ k ∧ k ≤ 4) :
    Stored (writeOut files board g) (flashWith k g) k where
  range := hk
  table := by
    have hblock : (flashWith k g).blocklen = 0x10000 := rfl
    have hlen : (List.replicate (k * 0x10000) (0xff : UInt8)).length = k * 0x10000 := List.length_replicate
    rw [emittedTable_writeOut h hparts, hblock, flashWith, List.drop_left' hlen,
      List.take_of_length_le (le_of_eq (tableData_length hparts h.count))]
  earlier := by
    intro j _ hlt
    have hblock : (flashWith k g).blocklen = 0x10000 := rfl
    rw [hblock, flashWith, List.drop_append_of_le_length (by rw [List.length_replicate]; omega), List.drop_replicate]
    exact wordAt_blank (by omega) _

end Agreement

/-- For every table of partitions that `mkmylofw` writes and that is found in the flash, the parser gives these
partitions if and only if no name has more than 31 bytes. -/
theorem myloader_partitions_agree_iff (files : Files) (options : List Opt) (board : CpxBoard) (g : Globals)
    (image : List UInt8) (hprepare : prepare files options = some (board, g))
    (himage : mkmylofw files options = some image) (hparts : g.parts ≠ [])
    (hff : ∀ arg ∈ partitionArgs options, (givenName arg).head? ≠ some 0xff) (master : MtdInfo) (k : ℕ)
    (hstored : Stored image master k) :
    Agrees options g master (k * master.blocklen) ↔ ∀ arg ∈ partitionArgs options, (givenName arg).length ≤ 31 := by
  rw [mkmylofw, hprepare] at himage
  cases himage
  exact agrees_iff (prepared_of_prepare hprepare) hparts hff hstored

/-- A board with three partitions, the last one without a name. -/
def severalOptions : List Opt :=
  [.board (.lit "WP54G"), .partition (.lit "0x30000:0x10000:a::kernel"), .partition (.lit "0x40000:0x20000:::rootfs"),
    .partition (.lit "0x60000:0x10000")]

theorem myloader_partitions_agree_kernel :
    ∃ board g, prepare (fun _ => none) severalOptions = some (board, g) ∧
      Agrees severalOptions g (flashWith 3 g) 0x30000 := by
  have heval : (prepare (fun _ => none) severalOptions).any (fun r => !r.2.parts.isEmpty) = true := by
    decide +kernel
  obtain ⟨⟨board, g⟩, hprepare, hparts⟩ := (Option.any_eq_true _ _).mp heval
  have hparts : g.parts ≠ [] := by simpa using hparts
  have himage : mkmylofw (fun _ => none) severalOptions = some (writeOut (fun _ => none) board g) := by
    rw [mkmylofw, hprepare]
    rfl
  have hstored := @stored_flashWith _ _ board _ (prepared_of_prepare hprepare) hparts 3 (by decide)
  refine ⟨board, g, hprepare, ?_⟩
  exact (myloader_partitions_agree_iff _ _ board g _ hprepare himage hparts (by decide +kernel) _ 3 hstored).mpr
    (by decide +kernel)

/-- A board with one partition of a given name. -/
def namedOptions (name : String) : List Opt := [.board (.lit "WP54G"), .partition (.lit ("0x30000:0x10000:a::" ++ name))]

/-- A name of 33 bytes does not end in its slot. -/
theorem myloader_long_name_disagrees :
    ∃ board g, prepare (fun _ => none) (namedOptions "kernel-of-the-firmware-of-May-201") = some (board, g) ∧
      ¬ Agrees (namedOptions "kernel-of-the-firmware-of-May-201") g (flashWith 1 g) 0x10000 := by
  have heval : (prepare (fun _ => none) (namedOptions "kernel-of-the-firmware-of-May-201")).any
      (fun r => !r.2.parts.isEmpty) = true := by
    decide +kernel
  obtain ⟨⟨board, g⟩, hprepare, hparts⟩ := (Option.any_eq_true _ _).mp heval
  have hparts : g.parts ≠ [] := by simpa using hparts
  have hprepared := prepared_of_prepare hprepare
  refine ⟨board, g, hprepare, fun hagrees => ?_⟩
  have hshort := (agrees_iff hprepared hparts (by decide +kernel)
    (@stored_flashWith _ _ board _ hprepared hparts 1 (by decide))).mp hagrees
  exact absurd hshort (by decide +kernel)

end Neufbox.Mylofw
