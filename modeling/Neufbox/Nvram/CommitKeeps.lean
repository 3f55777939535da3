import Neufbox.Nvram.RoundTrip

/-! # What a commit keeps

The round trip of a whole table through the image, and the same for a handle in use: opened from
any image and changed by any sets and unsets. -/
namespace Neufbox.Nvram
open CString ChainTable ByteStore RunAlong
set_option autoImplicit false
set_option maxHeartbeats 250000
set_option maxRecDepth 120000

/-! ## The committed image -/

theorem serialize_ends {ts : List NvramTuple} (hne : ts ≠ []) : ∃ text, serialize ts = text ++ [0] := by
  rcases List.eq_nil_or_concat ts with h | ⟨us, t, rfl⟩
  · exact absurd h hne
  · refine ⟨serialize us ++ (t.name.bytes ++ equals :: t.value.bytes), ?_⟩
    rw [List.concat_eq_append, serialize_append, serialize_cons]
    simp [record, serialize]

theorem roundup_four (x : ℕ) : 4 ∣ nvramRoundup x 4 ∧ x ≤ nvramRoundup x 4 ∧ nvramRoundup x 4 < x + 4 := by
  unfold nvramRoundup
  omega

theorem nvramOpen_of_rehash {m : NvramMap} {table : NvramTable} (hmagic : m.header.magic = nvramMagic)
    (hre : nvramRehash m = some table) : nvramOpen m = some (some ⟨table, clearLead m⟩) := by
  have hre' : nvramRehash (clearLead m) = some table := hre
  have hmagic' : (clearLead m).header.magic = nvramMagic := hmagic
  simp only [nvramOpen, hmagic', if_true, hre', Option.map_some]

def formatted : NvramMap where
  lead := []
  aligned := rfl
  header := ⟨nvramMagic, 24, nvramVersion * 2 ^ 8 + sdramInitDefault * 2 ^ 16,
    sdramConfigDefault + sdramRefreshDefault * 2 ^ 16, 0⟩
  data := ⟨0 :: List.replicate (dataSize - 1) 0xFF, by rw [List.length_cons, List.length_replicate]; rfl⟩

def formattedTable : NvramTable := (sdramTuples formatted.header).foldl setMissing nvramFree

theorem formatted_rehash : nvramRehash formatted = some formattedTable := by
  have hparse : parseTuples formatted.data.bytes = some [] :=
    parseTuples_serialize [] (by simp) (List.replicate (dataSize - 1) 0xFF)
  rw [nvramRehash, hparse]
  rfl

theorem formatted_open : nvramOpen formatted = some (some ⟨formattedTable, clearLead formatted⟩) :=
  nvramOpen_of_rehash rfl formatted_rehash

/-! ## A handle in use -/

theorem nvramSet_namesOk {h : NvramTable} (hok : TableOk h) (hnames : NamesOk h) {name : CStr}
    (hn : equals ∉ name.bytes) (value : CStr) : NamesOk (nvramSet h name value).1 := by
  by_cases hfit : value.strlen + 1 ≤ nvramSpace
  · rw [namesOk_iff (nvramSet_ok hok name value)]
    intro n v hget
    rw [nvramGet_nvramSet hfit] at hget
    by_cases hnn : n = name
    · rw [hnn]
      exact hn
    · rw [if_neg hnn] at hget
      exact (namesOk_iff hok).mp hnames n v hget
  · rw [nvramSet_too_long (by omega)]
    exact hnames

theorem nvramUnset_namesOk {h : NvramTable} (hok : TableOk h) (hnames : NamesOk h) (name : CStr) :
    NamesOk (nvramUnset h name).1 := by
  rw [namesOk_iff (nvramUnset_ok hok name)]
  intro n v hget
  rw [nvramGet_nvramUnset hok] at hget
  by_cases hnn : n = name
  · rw [if_pos hnn] at hget
    cases hget
  · rw [if_neg hnn] at hget
    exact (namesOk_iff hok).mp hnames n v hget

theorem foldl_setTuple_namesOk (ts : List NvramTuple) {h : NvramTable} (hok : TableOk h)
    (hnames : NamesOk h) (hts : ∀ t ∈ ts, equals ∉ t.name.bytes) : NamesOk (ts.foldl setTuple h) := by
  induction ts generalizing h with
  | nil => exact hnames
  | cons t ts ih =>
    exact ih (nvramSet_ok hok t.name t.value)
      (nvramSet_namesOk hok hnames (hts t List.mem_cons_self) t.value)
      (fun u hu => hts u (List.mem_cons_of_mem t hu))

theorem nvramRehash_ok {m : NvramMap} {table : NvramTable} (hre : nvramRehash m = some table) :
    TableOk table ∧ NamesOk table := by
  rw [nvramRehash, Option.map_eq_some_iff] at hre
  obtain ⟨ts, hparse, rfl⟩ := hre
  have hok : TableOk (ts.foldl setTuple nvramFree) := foldl_setTuple_ok ts nvramFree_ok
  have hfree : NamesOk nvramFree := by
    rw [namesOk_iff nvramFree_ok]
    intro n v hget
    cases hget
  have hnames := foldl_setTuple_namesOk ts nvramFree_ok hfree (parseTuples_names hparse)
  have hok' := foldl_setMissing_ok (sdramTuples m.header) hok
  exact ⟨hok', or_sdram_names hok hnames hok'
    (fun n => nvramGet_foldl_setMissing _ _ (sdramTuples_fit m.header) n)⟩

theorem nvramOpen_ok {file : NvramMap} {h : NvramHandle} (hopen : nvramOpen file = some (some h)) :
    nvramRehash file = some h.table ∧ h.mmap = clearLead file ∧ file.header.magic = nvramMagic := by
  unfold nvramOpen at hopen
  dsimp only at hopen
  split at hopen
  · next hmagic =>
    obtain ⟨table, hre, he⟩ := Option.map_eq_some_iff.mp hopen
    cases he
    exact ⟨hre, rfl, hmagic⟩
  · cases hopen

def setNames (ops : List TableOp) : List CStr :=
  ops.filterMap fun op => match op with
    | .set name _ => some name
    | _ => none

theorem run_namesOk (ops : List TableOp) {h : NvramTable} (hok : TableOk h) (hnames : NamesOk h)
    (hset : ∀ name ∈ setNames ops, equals ∉ name.bytes) :
    TableOk (runSteps tableStep h ops) ∧ NamesOk (runSteps tableStep h ops) := by
  induction ops generalizing h with
  | nil => exact ⟨hok, hnames⟩
  | cons op ops ih =>
    cases op with
    | set name value =>
      exact ih (nvramSet_ok hok name value)
        (nvramSet_namesOk hok hnames (hset name List.mem_cons_self) value)
        (fun n hn => hset n (List.mem_cons_of_mem name hn))
    | unset name => exact ih (nvramUnset_ok hok name) (nvramUnset_namesOk hok hnames name) hset
    | get name => exact ih hok hnames hset
    | getall => exact ih hok hnames hset

/-! ## The round trip -/

/-- A commit of a table with all SDRAM parameters, whose names hold no `=` and whose text fits:
every store is inside the NVRAM area, the length covers the text and its two final NULs, and the
table read back, now or when the image is opened again, has the same values. -/
theorem nvram_commit_round_trip (h : NvramHandle) (hok : TableOk h.table) (hnames : NamesOk h.table)
    (hsdram : ∀ n ∈ sdramNames, (nvramGet h.table n).isSome)
    (hfit : serialSize h.table ≤ nvramSpace - 2 - headerSize) :
    ∃ h', nvramCommit h = some (h', 0) ∧ h'.mmap.lead = h.mmap.lead ∧
      h'.mmap.header.len ≤ nvramSpace ∧ 4 ∣ h'.mmap.header.len ∧
      (h'.mmap.data.bytes[serialSize h.table - 1]? = some 0 ∧
        h'.mmap.data.bytes[serialSize h.table]? = some 0 ∧
        headerSize + serialSize h.table + 1 ≤ h'.mmap.header.len) ∧
      (∀ n, nvramGet h'.table n = nvramGet h.table n) ∧
      ∃ h'', nvramOpen h'.mmap = some (some h'') ∧
        ∀ n, nvramGet h''.table n = nvramGet h.table n := by
  obtain ⟨m, himage, hlead, hmagic, hlen, tail, hdata⟩ := commitImage_fits h hfit
  obtain ⟨table, hre, -, hget⟩ := nvramRehash_serialized hok hnames hfit hdata
  have hcommit : nvramCommit h = some (⟨table, m⟩, 0) := by
    rw [nvramCommit, himage, Option.bind_some, hre, Option.map_some]
  -- no SDRAM parameter is missing, so none is added
  have hsame : ∀ n, nvramGet table n = nvramGet h.table n := by
    intro n
    rw [hget n]
    cases hg : nvramGet h.table n with
    | some v => rfl
    | none =>
      have hnot : n ∉ sdramNames := fun hn => by simpa [hg] using hsdram n hn
      rw [findKey_none.mpr (by rw [sdramTuples_names]; exact hnot)]
      rfl
  have htext : (serialize (entries h.table.nvramHash)).length = serialSize h.table :=
    serialize_length _
  have hne : entries h.table.nvramHash ≠ [] := by
    intro hnil
    obtain ⟨v, hv⟩ := Option.isSome_iff_exists.mp (hsdram sdramInit (by simp [sdramNames]))
    have hmem := (nvramGet_iff_mem hok sdramInit v).mp hv
    rw [hnil] at hmem
    cases hmem
  obtain ⟨hdvd, hge, hlt⟩ := roundup_four (headerSize + serialSize h.table + 2)
  have hspace : nvramSpace = 32768 := rfl
  have hhdr : headerSize = 20 := rfl
  refine ⟨⟨table, m⟩, hcommit, hlead, ?_, ?_, ⟨?_, ?_, ?_⟩, hsame,
    ⟨⟨table, clearLead m⟩, nvramOpen_of_rehash hmagic hre, hsame⟩⟩
  · change m.header.len ≤ nvramSpace
    rw [hlen]
    omega
  · change 4 ∣ m.header.len
    rw [hlen]
    exact hdvd
  · obtain ⟨text, hend⟩ := serialize_ends hne
    have hpos : serialSize h.table = text.length + 1 := by rw [← htext, hend]; simp
    rw [hdata, hend, hpos]
    simp
  · rw [hdata, ← htext]
    simp
  · change headerSize + serialSize h.table + 1 ≤ m.header.len
    rw [hlen]
    omega

/-- Two variables are set, one to the empty string, and an SDRAM parameter is changed. -/
def settings : List TableOp :=
  [.set (.lit "lan_ipaddr") (.lit "192.168.1.1"), .set (.lit "wan_dns") (.lit ""), .set sdramConfig (.lit "0x0032")]

theorem nvram_commit_round_trip_formatted :
    ∃ h', nvramCommit ⟨runSteps tableStep formattedTable settings, formatted⟩ = some (h', 0) ∧
      h'.mmap.header.len ≤ nvramSpace ∧
      (∀ n, nvramGet h'.table n = nvramGet (runSteps tableStep formattedTable settings) n) ∧
      ∃ h'', nvramOpen h'.mmap = some (some h'') ∧
        ∀ n, nvramGet h''.table n = nvramGet (runSteps tableStep formattedTable settings) n := by
  obtain ⟨hok, hnames⟩ := nvramRehash_ok formatted_rehash
  obtain ⟨hok', hnames'⟩ := run_namesOk settings hok hnames (by decide)
  obtain ⟨h', hcommit, -, hlen, -, -, hget, hopen⟩ :=
    nvram_commit_round_trip ⟨runSteps tableStep formattedTable settings, formatted⟩ hok' hnames' (by decide +kernel)
      (by decide +kernel)
  exact ⟨h', hcommit, hlen, hget, hopen⟩

/-! ## SDRAM parameters that are missing -/

def sdramDefaults : List NvramTuple :=
  [⟨sdramInit, .lit "0x0419"⟩, ⟨sdramConfig, .lit "0x0000"⟩, ⟨sdramRefresh, .lit "0x8040"⟩,
    ⟨sdramNcdl, .lit "0x00000000"⟩]

theorem commitImage_header {h : NvramHandle} {m : NvramMap} (himage : commitImage h = some m) :
    ∃ crc : UInt8, m.header.crcVerInit = (regenerateHeader h.table).crcVerInit + crc.toNat ∧
      m.header.configRefresh = (regenerateHeader h.table).configRefresh ∧
      m.header.configNcdl = (regenerateHeader h.table).configNcdl := by
  rw [commitImage, Option.bind_eq_some_iff] at himage
  obtain ⟨r, -, himage⟩ := himage
  rw [Option.map_eq_some_iff] at himage
  obtain ⟨r', -, rfl⟩ := himage
  exact ⟨_, rfl, rfl, rfl⟩

theorem regenerateHeader_default {h : NvramTable} {n : CStr} (hn : n ∈ sdramNames)
    (hget : nvramGet h n = none) :
    regenerateHeader h =
      { magic := nvramMagic
        len := 0
        crcVerInit := nvramVersion * 2 ^ 8 + sdramInitDefault * 2 ^ 16
        configRefresh := sdramConfigDefault + sdramRefreshDefault * 2 ^ 16
        configNcdl := 0 } := by
  unfold regenerateHeader
  split
  · next init config refresh ncdl hi hc hr hd =>
    simp only [sdramNames, List.mem_cons, List.not_mem_nil, or_false] at hn
    rcases hn with rfl | rfl | rfl | rfl <;> simp_all
  · rfl

theorem sdramTuples_default {h : NvramHandle} {m : NvramMap} (himage : commitImage h = some m) {n : CStr}
    (hn : n ∈ sdramNames) (hget : nvramGet h.table n = none) : sdramTuples m.header = sdramDefaults := by
  obtain ⟨crc, hinit, hrefresh, hncdl⟩ := commitImage_header himage
  rw [regenerateHeader_default hn hget] at hinit hrefresh hncdl
  have hcrc : crc.toNat < 256 := crc.toNat_lt
  have hword : m.header.crcVerInit / 2 ^ 16 % 2 ^ 16 = 0x419 := by
    rw [hinit]
    change (1 * 2 ^ 8 + 0x419 * 2 ^ 16 + crc.toNat) / 2 ^ 16 % 2 ^ 16 = 0x419
    omega
  have hconfig : m.header.configRefresh % 2 ^ 16 = 0 := by rw [hrefresh]; rfl
  have hrate : m.header.configRefresh / 2 ^ 16 % 2 ^ 16 = 0x8040 := by rw [hrefresh]; rfl
  rw [sdramTuples, hword, hconfig, hrate, hncdl, sdramDefaults]
  decide

/-- From any image that opens, any sets of names without a `=` and any unsets, as long as the table
fits: the commit reports success and keeps every value. Only an SDRAM parameter that was unset comes
back, with its default. -/
theorem nvram_commit_keeps_values (file : NvramMap) (h : NvramHandle)
    (hopen : nvramOpen file = some (some h)) (ops : List TableOp)
    (hset : ∀ name ∈ setNames ops, equals ∉ name.bytes)
    (hfit : Fits (runSteps tableStep h.table ops)) :
    ∃ h', nvramCommit ⟨runSteps tableStep h.table ops, h.mmap⟩ = some (h', 0) ∧
      (∀ n, n ∉ sdramNames → nvramGet h'.table n = nvramGet (runSteps tableStep h.table ops) n) ∧
      (∀ n v, nvramGet (runSteps tableStep h.table ops) n = some v → nvramGet h'.table n = some v) ∧
      ∀ t ∈ sdramDefaults, nvramGet (runSteps tableStep h.table ops) t.name = none →
        nvramGet h'.table t.name = some t.value := by
  obtain ⟨hre, -, -⟩ := nvramOpen_ok hopen
  obtain ⟨hok0, hnames0⟩ := nvramRehash_ok hre
  obtain ⟨hok, hnames⟩ := run_namesOk ops hok0 hnames0 hset
  obtain ⟨h', hcommit, himage, -, -, hget⟩ :=
    nvramCommit_get (h := ⟨runSteps tableStep h.table ops, h.mmap⟩) hok hnames hfit
  refine ⟨h', hcommit, ?_, ?_, ?_⟩
  · intro n hn
    rw [hget n, findKey_none.mpr (by rw [sdramTuples_names]; exact hn)]
    exact Option.or_none
  · intro n v hv
    rw [hget n]
    simp only [hv, Option.some_or]
  · intro t ht hnone
    have hn : t.name ∈ sdramNames := by
      simp only [sdramDefaults, List.mem_cons, List.not_mem_nil, or_false] at ht
      rcases ht with rfl | rfl | rfl | rfl <;> simp [sdramNames]
    have hnd : (sdramDefaults.map NvramTuple.name).Nodup := by decide
    rw [hget t.name, sdramTuples_default himage hn hnone, hnone, Option.none_or,
      findKey_of_mem hnd ht, Option.map_some]

theorem nvram_commit_keeps_set_value :
    ∃ h', nvramCommit ⟨runSteps tableStep formattedTable
        [.set (.lit "lan_ipaddr") (.lit "192.168.1.1"), .unset sdramNcdl], clearLead formatted⟩ =
          some (h', 0) ∧
      nvramGet h'.table (.lit "lan_ipaddr") = some (.lit "192.168.1.1") ∧
      nvramGet h'.table sdramNcdl = some (.lit "0x00000000") := by
  obtain ⟨h', hcommit, -, hkeep, hdefault⟩ := nvram_commit_keeps_values formatted _ formatted_open
    [.set (.lit "lan_ipaddr") (.lit "192.168.1.1"), .unset sdramNcdl] (by decide) (by decide +kernel)
  exact ⟨h', hcommit, hkeep _ _ (by decide +kernel),
    hdefault ⟨sdramNcdl, .lit "0x00000000"⟩ (by decide) (by decide +kernel)⟩

/-- Two successful commits that change what a name without a `=` looks up: an SDRAM parameter that
was unset is back, and a variable set under the name `a=b` is read back under the name `a`. -/
theorem nvram_commit_changes_values :
    (∃ h', nvramCommit ⟨runSteps tableStep formattedTable [.unset sdramInit], clearLead formatted⟩ =
        some (h', 0) ∧
      nvramGet (runSteps tableStep formattedTable [.unset sdramInit]) sdramInit = none ∧
      nvramGet h'.table sdramInit = some (.lit "0x0419")) ∧
    ∃ h', nvramCommit ⟨runSteps tableStep formattedTable [.set (.lit "a=b") (.lit "c")],
        clearLead formatted⟩ = some (h', 0) ∧
      nvramGet (runSteps tableStep formattedTable [.set (.lit "a=b") (.lit "c")]) (.lit "a") = none ∧
      nvramGet h'.table (.lit "a") = some (.lit "b=c") := by
  obtain ⟨hok, hnames⟩ := nvramRehash_ok formatted_rehash
  refine ⟨?_, ?_⟩
  · obtain ⟨hok1, hnames1⟩ := run_namesOk [.unset sdramInit] hok hnames (by decide)
    obtain ⟨h', hcommit, himage, -, -, hget⟩ := nvramCommit_get
      (h := ⟨runSteps tableStep formattedTable [.unset sdramInit], clearLead formatted⟩)
      hok1 hnames1 (by decide +kernel)
    have hunset : nvramGet (runSteps tableStep formattedTable [.unset sdramInit]) sdramInit = none := by
      decide +kernel
    refine ⟨h', hcommit, hunset, ?_⟩
    rw [hget, sdramTuples_default himage (by decide) hunset]
    simp only [hunset]
    decide
  · obtain ⟨m, himage, -, -, -, tail, hdata⟩ := commitImage_fits
      ⟨runSteps tableStep formattedTable [.set (.lit "a=b") (.lit "c")], clearLead formatted⟩
      (by decide +kernel)
    have hentries : entries
        (runSteps tableStep formattedTable [.set (.lit "a=b") (.lit "c")]).nvramHash =
          ⟨.lit "a=b", .lit "c"⟩ :: entries formattedTable.nvramHash := by decide +kernel
    -- the text of `a=b` with value `c` is the text of `a` with value `b=c`
    have htext : record ⟨.lit "a=b", .lit "c"⟩ = record ⟨.lit "a", .lit "b=c"⟩ := by decide
    rw [hentries, serialize_cons, htext, ← serialize_cons] at hdata
    have hparse := parseTuples_serialize (⟨.lit "a", .lit "b=c"⟩ :: entries formattedTable.nvramHash)
      (by
        intro t ht
        rcases List.mem_cons.mp ht with rfl | ht
        · decide
        · exact hnames t ht) tail
    refine ⟨⟨_, m⟩, by rw [nvramCommit, himage, Option.bind_some, nvramRehash, hdata, hparse]; rfl,
      by decide +kernel, ?_⟩
    rw [nvramGet_foldl_setMissing _ _ (sdramTuples_fit m.header)]
    have hget : nvramGet ((⟨.lit "a", .lit "b=c"⟩ :: entries formattedTable.nvramHash).foldl setTuple
        nvramFree) (.lit "a") = some (.lit "b=c") := by decide +kernel
    rw [hget, Option.some_or]

end Neufbox.Nvram
