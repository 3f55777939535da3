import Neufbox.Nvram.Image

/-! # Commit and parse

What `nvram_commit` writes is read back by `_nvram_rehash` as the same variables. `serialize` is the
text of a list of tuples; a table fits when its text leaves room for the final NUL. Then the commit
writes the whole text, and parsing it gives the tuples back in the same order, provided no name
holds a `=`. The SDRAM parameters are the only names a commit can add: `nvramCommit_get`. -/
namespace Neufbox.Nvram
open CString ChainTable ByteStore RunAlong
set_option autoImplicit false
set_option maxHeartbeats 250000
set_option maxRecDepth 120000

/-! ## The text of a table -/

def serialize (ts : List NvramTuple) : List UInt8 := ts.flatMap record

/-- `sum(len(name) + len(value) + 2)` over the table. -/
def serialSize (h : NvramTable) : ℕ :=
  ((entries h.nvramHash).map fun t => t.name.strlen + t.value.strlen + 2).sum

/-- The table fits: its text and the final NUL stay before the last byte of the NVRAM area. -/
def Fits (h : NvramTable) : Prop := serialSize h ≤ nvramSpace - 2 - headerSize

instance (h : NvramTable) : Decidable (Fits h) := inferInstanceAs (Decidable (_ ≤ _))

def NamesOk (h : NvramTable) : Prop := ∀ t ∈ entries h.nvramHash, equals ∉ t.name.bytes

@[simp] theorem record_length (t : NvramTuple) :
    (record t).length = t.name.strlen + t.value.strlen + 2 := by
  simp only [record, CStr.strlen, List.length_append, List.length_cons, List.length_nil]
  omega

theorem serialize_length (ts : List NvramTuple) :
    (serialize ts).length = (ts.map fun t => t.name.strlen + t.value.strlen + 2).sum := by
  simp [serialize, List.length_flatMap]

theorem serialize_cons (t : NvramTuple) (ts : List NvramTuple) :
    serialize (t :: ts) = record t ++ serialize ts := rfl

theorem serialize_append (ts us : List NvramTuple) :
    serialize (ts ++ us) = serialize ts ++ serialize us := List.flatMap_append

/-! ## Stores -/

theorem store_some (d : DataArea) {off : ℕ} {bs : List UInt8} (h : off + bs.length ≤ dataSize) :
    ∃ d', d.store off bs = some d' ∧ d'.bytes.take (off + bs.length) = d.bytes.take off ++ bs ∧
      ∀ k ≤ off, d'.bytes.take k = d.bytes.take k := by
  refine ⟨_, dif_pos h, ?_, ?_⟩
  · have hlen : (d.bytes.take off).length = off := by rw [List.length_take, d.size]; omega
    simp only [overlay]
    rw [← List.append_assoc]
    exact List.take_left' (by rw [List.length_append, hlen])
  · intro k hk
    have hlen : k ≤ (d.bytes.take off).length := by rw [List.length_take, d.size]; omega
    simp only [overlay]
    rw [List.take_append_of_le_length hlen, List.take_take, Nat.min_eq_left hk]

/-! ## Writing a table that fits -/

theorem writeChain_fits (ts : List NvramTuple) (d : DataArea) (ptr : ℕ)
    (hfit : ptr + (serialize ts).length ≤ dataSize - 2) :
    ∃ d', writeChain d ptr ts = some (d', ptr + (serialize ts).length) ∧
      d'.bytes.take (ptr + (serialize ts).length) = d.bytes.take ptr ++ serialize ts := by
  induction ts generalizing d ptr with
  | nil => exact ⟨d, by simp [writeChain, serialize], by simp [serialize]⟩
  | cons t ts ih =>
    rw [serialize_cons, List.length_append, record_length] at hfit
    obtain ⟨d1, hstore, htake, -⟩ := store_some d
      (by rw [record_length]; omega : ptr + (record t).length ≤ dataSize)
    obtain ⟨d2, hrest, htake2⟩ := ih d1 (ptr + (record t).length) (by rw [record_length]; omega)
    refine ⟨d2, ?_, ?_⟩
    · rw [writeChain, if_neg (by omega), hstore, Option.bind_some, hrest, serialize_cons,
        List.length_append, Nat.add_assoc]
    · rw [serialize_cons, List.length_append, ← Nat.add_assoc, htake2, htake, List.append_assoc]

theorem writeChains_fits (chains : List (List NvramTuple)) (d : DataArea) (ptr : ℕ)
    (hfit : ptr + (serialize chains.flatten).length ≤ dataSize - 2) :
    ∃ d', writeChains d ptr chains = some (d', ptr + (serialize chains.flatten).length) ∧
      d'.bytes.take (ptr + (serialize chains.flatten).length) =
        d.bytes.take ptr ++ serialize chains.flatten := by
  induction chains generalizing d ptr with
  | nil => exact ⟨d, by simp [writeChains, serialize], by simp [serialize]⟩
  | cons chain chains ih =>
    rw [List.flatten_cons, serialize_append, List.length_append] at hfit
    obtain ⟨d1, hchain, htake⟩ := writeChain_fits chain d ptr (by omega)
    obtain ⟨d2, hrest, htake2⟩ := ih d1 (ptr + (serialize chain).length) (by omega)
    refine ⟨d2, ?_, ?_⟩
    · rw [writeChains, hchain, Option.bind_some, hrest, List.flatten_cons, serialize_append,
        List.length_append, Nat.add_assoc]
    · rw [List.flatten_cons, serialize_append, List.length_append, ← Nat.add_assoc, htake2, htake,
        List.append_assoc]

theorem terminate_fits (m : NvramMap) (d : DataArea) (ptr : ℕ) (hfit : ptr ≤ dataSize - 2) :
    ∃ d', terminate m d ptr = some (d', ptr + 2) ∧
      d'.bytes.take (ptr + 1) = d.bytes.take ptr ++ [0] := by
  have haligned := m.aligned
  have hsize : dataSize = 32748 := rfl
  have hhdr : headerSize = 20 := rfl
  have hnul : ptr + [(0 : UInt8)].length ≤ dataSize := by
    rw [List.length_singleton]
    omega
  obtain ⟨d1, hstore, htake, -⟩ := store_some d hnul
  rw [List.length_singleton] at htake
  by_cases hmis : (m.lead.length + headerSize + (ptr + 1)) % 4 = 0
  · refine ⟨d1, ?_, htake⟩
    simp [terminate, hstore, hmis]
  · have hroom : ptr + 1 + (List.replicate (4 - (m.lead.length + headerSize + (ptr + 1)) % 4)
        (0 : UInt8)).length ≤ dataSize := by
      rw [List.length_replicate]
      omega
    obtain ⟨d2, hpad, -, hkeep⟩ := store_some d1 hroom
    refine ⟨d2, ?_, (hkeep (ptr + 1) (le_refl _)).trans htake⟩
    rw [terminate, hstore, Option.bind_some]
    dsimp only
    rw [if_pos hmis, hpad, Option.map_some]

theorem entries_eq_flatten (h : NvramTable) :
    ((List.finRange 257).map h.nvramHash).flatten = entries h.nvramHash := by
  rw [entries, List.flatMap_def]

theorem commitImage_fits (h : NvramHandle) (hfit : Fits h.table) :
    ∃ m, commitImage h = some m ∧ m.lead = h.mmap.lead ∧ m.header.magic = nvramMagic ∧
      m.header.len = nvramRoundup (headerSize + serialSize h.table + 2) 4 ∧
      ∃ tail, m.data.bytes = serialize (entries h.table.nvramHash) ++ 0 :: tail := by
  have hlen : (serialize (entries h.table.nvramHash)).length = serialSize h.table :=
    serialize_length _
  have hsize : dataSize - 2 = nvramSpace - 2 - headerSize := rfl
  obtain ⟨d, hwrite, htake⟩ := writeChains_fits ((List.finRange 257).map h.table.nvramHash) .erased 0
    (by rw [entries_eq_flatten, Nat.zero_add, hlen, hsize]; exact hfit)
  rw [entries_eq_flatten, Nat.zero_add, hlen] at hwrite htake
  obtain ⟨d', hterm, hstart⟩ := terminate_fits h.mmap d (serialSize h.table) (hsize ▸ hfit)
  rw [htake, List.take_zero, List.nil_append] at hstart
  refine ⟨finishImage h.mmap (regenerateHeader h.table) d' (serialSize h.table + 2), ?_, rfl, ?_, rfl,
    d'.bytes.drop (serialSize h.table + 1), ?_⟩
  · rw [commitImage, hwrite, Option.bind_some, hterm, Option.map_some]
  · simp only [finishImage, regenerateHeader]
    split <;> rfl
  · have hsplit := List.take_append_drop (serialSize h.table + 1) d'.bytes
    rw [hstart, List.append_assoc] at hsplit
    exact hsplit.symm

/-! ## Parsing the text back -/

theorem parseTuples_cons {b : UInt8} (bs : List UInt8) (hb : b ≠ 0) :
    parseTuples (b :: bs) =
      match strchr equals (b :: bs) with
      | .fault => none
      | .missing => some []
      | .found name rest =>
          match stringAt rest with
          | none => none
          | some (value, rest') => (parseTuples rest').map (⟨name, value⟩ :: ·) := by
  rw [parseTuples, if_neg hb]
  split
  · next h => simp only [h]
  · next h => simp only [h]
  · next name rest h =>
    simp only [h]
    split
    · next hv => simp only [hv]
    · next value rest' hv => simp only [hv]

theorem parseTuples_record (t : NvramTuple) (hname : equals ∉ t.name.bytes) (rest : List UInt8) :
    parseTuples (record t ++ rest) = (parseTuples rest).map (t :: ·) := by
  have hshape : record t ++ rest = t.name.bytes ++ equals :: (t.value.bytes ++ 0 :: rest) := by
    simp [record]
  have hfind := strchr_before equals t.name hname (t.value.bytes ++ 0 :: rest)
  rw [← hshape] at hfind
  cases hmem : record t ++ rest with
  | nil => simp [record] at hmem
  | cons b bs =>
    rw [hmem] at hfind
    have hb : b ≠ 0 := by
      rintro rfl
      rw [strchr, if_neg (by decide), dif_pos rfl] at hfind
      cases hfind
    simp only [parseTuples_cons bs hb, hfind, stringAt_terminated]

theorem parseTuples_serialize (ts : List NvramTuple) (hnames : ∀ t ∈ ts, equals ∉ t.name.bytes)
    (tail : List UInt8) : parseTuples (serialize ts ++ 0 :: tail) = some ts := by
  induction ts with
  | nil => rw [serialize, List.flatMap_nil, List.nil_append, parseTuples, if_pos rfl]
  | cons t ts ih =>
    rw [serialize_cons, List.append_assoc, parseTuples_record t (hnames t List.mem_cons_self),
      ih (fun u hu => hnames u (List.mem_cons_of_mem t hu)), Option.map_some]

theorem parseTuples_names {mem : List UInt8} {ts : List NvramTuple} (h : parseTuples mem = some ts) :
    ∀ t ∈ ts, equals ∉ t.name.bytes := by
  induction mem using parseTuples.induct generalizing ts with
  | case1 => rw [parseTuples] at h; cases h
  | case2 bs => rw [parseTuples, if_pos rfl] at h; cases h; simp
  | case3 b bs hb hfault => simp only [parseTuples_cons bs hb, hfault, reduceCtorEq] at h
  | case4 b bs hb hmiss =>
    simp only [parseTuples_cons bs hb, hmiss, Option.some.injEq] at h
    subst h
    simp
  | case5 b bs hb name rest hname hval =>
    simp only [parseTuples_cons bs hb, hname, hval, reduceCtorEq] at h
  | case6 b bs hb name rest hname value rest' hval ih =>
    simp only [parseTuples_cons bs hb, hname, hval, Option.map_eq_some_iff] at h
    obtain ⟨us, hus, rfl⟩ := h
    intro t ht
    rcases List.mem_cons.mp ht with rfl | ht
    · exact (strchr_eq_found hname).2
    · exact ih hus t ht

/-! ## The table read back -/

theorem nvramGet_setMissing (h : NvramTable) (t : NvramTuple) (hfit : t.value.strlen + 1 ≤ nvramSpace)
    (n : CStr) :
    nvramGet (setMissing h t) n =
      (nvramGet h n).or (if t.name = n then some t.value else none) := by
  unfold setMissing setTuple
  by_cases hn : n = t.name
  · subst hn
    cases hg : nvramGet h t.name with
    | none => simp [nvramGet_nvramSet hfit]
    | some v => simp [hg]
  · rw [if_neg (Ne.symm hn), Option.or_none]
    split
    · rw [nvramGet_nvramSet hfit, if_neg hn]
    · rfl

theorem nvramGet_foldl_setMissing (ts : List NvramTuple) (h : NvramTable)
    (hfit : ∀ t ∈ ts, t.value.strlen + 1 ≤ nvramSpace) (n : CStr) :
    nvramGet (ts.foldl setMissing h) n =
      (nvramGet h n).or ((findKey NvramTuple.name n ts).map NvramTuple.value) := by
  induction ts generalizing h with
  | nil => simp [findKey]
  | cons t ts ih =>
    rw [List.foldl_cons, ih _ (fun u hu => hfit u (List.mem_cons_of_mem t hu)),
      nvramGet_setMissing h t (hfit t List.mem_cons_self), Option.or_assoc, findKey]
    by_cases hn : t.name = n
    · simp [hn]
    · simp [hn]

theorem nvramGet_foldl_setTuple (ts : List NvramTuple) (h : NvramTable)
    (hfit : ∀ t ∈ ts, t.value.strlen + 1 ≤ nvramSpace) (hnd : (ts.map NvramTuple.name).Nodup)
    (n : CStr) :
    nvramGet (ts.foldl setTuple h) n =
      ((findKey NvramTuple.name n ts).map NvramTuple.value).or (nvramGet h n) := by
  induction ts generalizing h with
  | nil => simp [findKey]
  | cons t ts ih =>
    rw [List.map_cons, List.nodup_cons] at hnd
    rw [List.foldl_cons, ih _ (fun u hu => hfit u (List.mem_cons_of_mem t hu)) hnd.2, setTuple,
      nvramGet_nvramSet (hfit t List.mem_cons_self), findKey]
    by_cases hn : t.name = n
    · subst hn
      rw [findKey_none.mpr hnd.1]
      simp
    · simp [hn, Ne.symm hn]

theorem foldl_setTuple_ok (ts : List NvramTuple) {h : NvramTable} (hok : TableOk h) :
    TableOk (ts.foldl setTuple h) := by
  induction ts generalizing h with
  | nil => exact hok
  | cons t ts ih => exact ih (nvramSet_ok hok t.name t.value)

theorem foldl_setMissing_ok (ts : List NvramTuple) {h : NvramTable} (hok : TableOk h) :
    TableOk (ts.foldl setMissing h) := by
  induction ts generalizing h with
  | nil => exact hok
  | cons t ts ih =>
    refine ih ?_
    unfold setMissing
    split
    · exact nvramSet_ok hok t.name t.value
    · exact hok

theorem value_fits {h : NvramTable} (hfit : Fits h) {t : NvramTuple} (ht : t ∈ entries h.nvramHash) :
    t.value.strlen + 1 ≤ nvramSpace := by
  have hle : t.name.strlen + t.value.strlen + 2 ≤ serialSize h :=
    List.le_sum_of_mem (List.mem_map_of_mem (f := fun t => t.name.strlen + t.value.strlen + 2) ht)
  have hspace : nvramSpace = 32768 := rfl
  rw [Fits] at hfit
  omega

theorem findKey_entries {h : NvramTable} (hok : TableOk h) (n : CStr) :
    (findKey NvramTuple.name n (entries h.nvramHash)).map NvramTuple.value = nvramGet h n := by
  have hsame : findKey NvramTuple.name n (entries h.nvramHash) = findTuple h n := by
    cases hf : findTuple h n with
    | some t =>
      obtain ⟨hmem, hname⟩ := hok.lookup_iff.mp hf
      rw [← hname]
      exact findKey_of_mem hok.entries_nodup hmem
    | none =>
      rw [findKey_none]
      intro hmem
      obtain ⟨t, ht, rfl⟩ := List.mem_map.mp hmem
      rw [findTuple, hok.lookup_iff.mpr ⟨ht, rfl⟩] at hf
      cases hf
  rw [hsame]
  rfl

theorem sprintfHex_strlen (width n : ℕ) : (sprintfHex width n).strlen = width + 2 := by
  simp [sprintfHex, CStr.strlen]

theorem sdramTuples_fit (hdr : NvramHeader) :
    ∀ t ∈ sdramTuples hdr, t.value.strlen + 1 ≤ nvramSpace := by
  intro t ht
  simp only [sdramTuples, List.mem_cons, List.not_mem_nil, or_false] at ht
  rcases ht with rfl | rfl | rfl | rfl <;> rw [sprintfHex_strlen] <;> decide

def sdramNames : List CStr := [sdramInit, sdramConfig, sdramRefresh, sdramNcdl]

theorem sdramTuples_names (hdr : NvramHeader) : (sdramTuples hdr).map NvramTuple.name = sdramNames := rfl

theorem namesOk_iff {h : NvramTable} (hok : TableOk h) :
    NamesOk h ↔ ∀ n v, nvramGet h n = some v → equals ∉ n.bytes := by
  constructor
  · intro hnames n v hget
    exact hnames _ ((nvramGet_iff_mem hok n v).mp hget)
  · intro hget t ht
    exact hget t.name t.value ((nvramGet_iff_mem hok _ _).mpr ht)

/-- The table parsed from the text of a table that fits: the same values, and the SDRAM parameters
of the header where they were missing. -/
theorem nvramRehash_serialized {h : NvramTable} (hok : TableOk h) (hnames : NamesOk h) (hfit : Fits h)
    {m : NvramMap} {tail : List UInt8} (hdata : m.data.bytes = serialize (entries h.nvramHash) ++ 0 :: tail) :
    ∃ table, nvramRehash m = some table ∧ TableOk table ∧
      ∀ n, nvramGet table n = (nvramGet h n).or
        ((findKey NvramTuple.name n (sdramTuples m.header)).map NvramTuple.value) := by
  refine ⟨_, by rw [nvramRehash, hdata, parseTuples_serialize _ hnames, Option.map_some],
    foldl_setMissing_ok _ (foldl_setTuple_ok _ nvramFree_ok), fun n => ?_⟩
  rw [nvramGet_foldl_setMissing _ _ (sdramTuples_fit m.header),
    nvramGet_foldl_setTuple _ _ (fun t ht => value_fits hfit ht) hok.entries_nodup,
    findKey_entries hok]
  have hfree : nvramGet nvramFree n = none := rfl
  rw [hfree, Option.or_none]

theorem or_sdram_names {h : NvramTable} (hok : TableOk h) (hnames : NamesOk h) {hdr : NvramHeader}
    {table : NvramTable} (htable : TableOk table)
    (hget : ∀ n, nvramGet table n = (nvramGet h n).or
      ((findKey NvramTuple.name n (sdramTuples hdr)).map NvramTuple.value)) : NamesOk table := by
  rw [namesOk_iff htable]
  intro n v hv
  rw [hget] at hv
  cases hg : nvramGet h n with
  | some w => exact (namesOk_iff hok).mp hnames n w hg
  | none =>
    rw [hg, Option.none_or, Option.map_eq_some_iff] at hv
    obtain ⟨t, ht, -⟩ := hv
    obtain ⟨hmem, rfl⟩ := findKey_some ht
    have hn : t.name ∈ sdramNames := sdramTuples_names hdr ▸ List.mem_map_of_mem hmem
    simp only [sdramNames, List.mem_cons, List.not_mem_nil, or_false] at hn
    rcases hn with hn | hn | hn | hn <;> rw [hn] <;> decide

/-- A commit of a table that fits reports success and keeps every value; only missing SDRAM
parameters are added, from the header it wrote. -/
theorem nvramCommit_get {h : NvramHandle} (hok : TableOk h.table) (hnames : NamesOk h.table)
    (hfit : Fits h.table) :
    ∃ h', nvramCommit h = some (h', 0) ∧ commitImage h = some h'.mmap ∧ TableOk h'.table ∧
      NamesOk h'.table ∧
      ∀ n, nvramGet h'.table n = (nvramGet h.table n).or
        ((findKey NvramTuple.name n (sdramTuples h'.mmap.header)).map NvramTuple.value) := by
  obtain ⟨m, himage, -, -, -, tail, hdata⟩ := commitImage_fits h hfit
  obtain ⟨table, hre, htable, hget⟩ := nvramRehash_serialized hok hnames hfit hdata
  refine ⟨⟨table, m⟩, ?_, himage, htable, or_sdram_names hok hnames htable hget, hget⟩
  rw [nvramCommit, himage, Option.bind_some, hre, Option.map_some]

end Neufbox.Nvram
