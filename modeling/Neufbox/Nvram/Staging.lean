import Neufbox.Nvram.Cli
import Neufbox.Nvram.CommitKeeps

/-! # The staging protocol

A history of invocations of the nvram command is the list of the commands executed, and `effect` is
what a command does to the map from names to values. The image in use (the staging file, or flash
when there is none) always parses to the map of the history, apart from the SDRAM parameters, which
a commit may add. -/
namespace Neufbox.Nvram
open CString ChainTable RunAlong WrapArith
set_option autoImplicit false
set_option maxHeartbeats 250000
set_option maxRecDepth 120000

/-! ## The map of a history -/

def effect (m : CStr → Option CStr) : Event → (CStr → Option CStr)
  | .set pair =>
      match splitPair pair with
      | some (var, val) => specStep m (.set var val)
      | none => m
  | .unset var => specStep m (.unset var)
  | _ => m

def Answered (m : CStr → Option CStr) : Event → Prop
  | .get var val => var ∉ sdramNames → val = m var
  | _ => True

def Command.word : Command → Word
  | .showAll => .showAll
  | .info => .info
  | .get _ => .get
  | .unset _ => .unset
  | .set _ => .set
  | .commit => .commit
  | _ => .unknown

def Event.word : Event → Word
  | .showAll _ => .showAll
  | .info _ => .info
  | .get _ _ => .get
  | .unset _ => .unset
  | .set _ => .set
  | .commit => .commit

theorem specStep_congr {m m' : CStr → Option CStr} {v : CStr} (h : m v = m' v) (op : TableOp) :
    specStep m op v = specStep m' op v := by
  cases op with
  | set name value =>
    simp only [specStep]
    split
    · rw [Function.update_apply, Function.update_apply, h]
    · exact h
  | unset name => rw [specStep, specStep, Function.update_apply, Function.update_apply, h]
  | get name => exact h
  | getall => exact h

/-- The table is well formed and looks up the map, the SDRAM parameters left open. -/
structure Tracks (h : NvramTable) (m : CStr → Option CStr) : Prop where
  ok : TableOk h
  names : NamesOk h
  get : ∀ v, v ∉ sdramNames → nvramGet h v = m v

theorem Tracks.get_step {h : NvramTable} {m : CStr → Option CStr} (ht : Tracks h m) (op : TableOp)
    {v : CStr} (hv : v ∉ sdramNames) : nvramGet (tableStep h op) v = specStep m op v := by
  have hr := tableStep_refines ⟨ht.ok, fun _ => rfl⟩ op
  rw [hr.get v]
  exact specStep_congr (ht.get v hv) op

/-! ## One command -/

/-- From session `s` the commands `es` were executed, in a history with map `m`. -/
structure Executes (m : CStr → Option CStr) (s : Session) (es : List Event) (s' : Session) : Prop where
  log : s'.log = s.log ++ es
  mmap : s'.nvram.mmap = s.nvram.mmap
  tracks : Tracks s'.nvram.table (es.foldl effect m)
  answered : Along effect Answered m es
  commit : s'.commit = true ↔ s.commit = true ∨ .commit ∈ es

theorem Executes.trans {m : CStr → Option CStr} {s s' s'' : Session} {es es' : List Event}
    (h : Executes m s es s') (h' : Executes (es.foldl effect m) s' es' s'') :
    Executes m s (es ++ es') s'' where
  log := by rw [h'.log, h.log, List.append_assoc]
  mmap := h'.mmap.trans h.mmap
  tracks := by rw [List.foldl_append]; exact h'.tracks
  answered := along_append.mpr ⟨h.answered, h'.answered⟩
  commit := by rw [h'.commit, h.commit, List.mem_append, or_assoc]

theorem Executes.refl {m : CStr → Option CStr} {s : Session} {done : ℕ} (ht : Tracks s.nvram.table m) :
    Executes m s [] { s with done := done } :=
  ⟨by simp, rfl, ht, trivial, by simp⟩

section Commands
variable {m : CStr → Option CStr} {s : Session} (ht : Tracks s.nvram.table m)
include ht

theorem doShow_executes : Executes m s [.showAll (nvramGetall s.nvram.table)] (doShow s) :=
  ⟨rfl, rfl, ht, ⟨trivial, trivial⟩, by simp [doShow]⟩

theorem doGet_executes (var : CStr) :
    Executes m s [.get var (nvramGet s.nvram.table var)] (doGet s var) :=
  ⟨rfl, rfl, ht, ⟨ht.get var, trivial⟩, by simp [doGet]⟩

theorem doCommit_executes : Executes m s [.commit] (doCommit s) :=
  ⟨rfl, rfl, ht, ⟨trivial, trivial⟩, by simp [doCommit]⟩

theorem doInfo_executes (hlow : crcStartPosition ≤ s.nvram.mmap.header.len)
    (hhigh : s.nvram.mmap.header.len ≤ nvramSpace) :
    ∃ s' report, doInfo s = some s' ∧ Executes m s [.info report] s' := by
  have hspace : nvramSpace = 32768 := rfl
  have hsub := wrapSub_of_le (w := 32) hlow (by omega)
  have hfits : crcStartPosition + wrapSub 32 s.nvram.mmap.header.len crcStartPosition ≤ nvramSpace := by
    rw [hsub]
    omega
  unfold doInfo
  simp only [if_pos hfits]
  exact ⟨_, _, rfl, rfl, rfl, ht, ⟨trivial, trivial⟩, by simp⟩

theorem doUnset_executes (var : CStr) : Executes m s [.unset var] (doUnset s var) := by
  have htracks : Tracks (nvramUnset s.nvram.table var).1 (specStep m (.unset var)) :=
    ⟨nvramUnset_ok ht.ok var, nvramUnset_namesOk ht.ok ht.names var,
      fun v hv => ht.get_step (.unset var) hv⟩
  exact ⟨rfl, rfl, htracks, ⟨trivial, trivial⟩, by simp [doUnset, Session.update]⟩

omit ht in
theorem splitPair_name {pair var val : CStr} (h : splitPair pair = some (var, val)) :
    equals ∉ var.bytes := by
  unfold splitPair at h
  split at h
  · next before rest hfound =>
    obtain ⟨r, -, he⟩ := Option.map_eq_some_iff.mp h
    cases he
    exact (strchr_eq_found hfound).2
  · cases h

theorem doSet_executes (pair : CStr) : Executes m s [.set pair] (doSet s pair) := by
  cases hsplit : splitPair pair with
  | none =>
    have htracks : Tracks s.nvram.table (effect m (.set pair)) := by
      simp only [effect, hsplit]
      exact ht
    simp only [doSet, hsplit]
    exact ⟨rfl, rfl, htracks, ⟨trivial, trivial⟩, by simp [Session.update]⟩
  | some r =>
    obtain ⟨var, val⟩ := r
    have htracks : Tracks (nvramSet s.nvram.table var val).1 (effect m (.set pair)) := by
      simp only [effect, hsplit]
      exact ⟨nvramSet_ok ht.ok var val, nvramSet_namesOk ht.ok ht.names (splitPair_name hsplit) val,
        fun v hv => ht.get_step (.set var val) hv⟩
    simp only [doSet, hsplit]
    exact ⟨rfl, rfl, htracks, ⟨trivial, trivial⟩, by simp [Session.update]⟩

end Commands

/-! ## The argument loops -/

/-- Every `get`, `set` and `unset` in an argument vector is followed by another argument. -/
def OperandsOk : List CStr → Prop
  | [] => True
  | arg :: args => (wordOf arg ∈ [Word.get, .set, .unset] → args ≠ []) ∧ OperandsOk args

def writeWords : List Word := [.set, .unset, .commit]

theorem scanWrite_operands {argv : List CStr} (hops : OperandsOk argv) :
    ∃ write, scanWrite argv = some write ∧ (write = true ↔ ∃ arg ∈ argv, wordOf arg ∈ writeWords) := by
  induction argv with
  | nil => exact ⟨false, rfl, by simp⟩
  | cons arg args ih =>
    obtain ⟨hne, hrest⟩ := hops
    obtain ⟨write, hscan, hiff⟩ := ih hrest
    rw [scanWrite]
    cases hw : wordOf arg with
    | set =>
      have hargs := hne (by simp [hw])
      exact ⟨true, by simp [hargs], by simp [hw, writeWords]⟩
    | unset =>
      have hargs := hne (by simp [hw])
      exact ⟨true, by simp [hargs], by simp [hw, writeWords]⟩
    | commit => exact ⟨true, rfl, by simp [hw, writeWords]⟩
    | showAll => exact ⟨write, hscan, by simp [hiff, hw, writeWords]⟩
    | info => exact ⟨write, hscan, by simp [hiff, hw, writeWords]⟩
    | get => exact ⟨write, hscan, by simp [hiff, hw, writeWords]⟩
    | unknown => exact ⟨write, hscan, by simp [hiff, hw, writeWords]⟩

/-- The loop over `args` finds the commands `cs`: none misses its operand, and each has its word among
the arguments. -/
def CommandsOk (args : List CStr) (cs : List Command) : Prop :=
  ∀ c ∈ cs, c ≠ .missing ∧ ∃ arg ∈ args, wordOf arg = c.word

theorem CommandsOk.cons {args args' : List CStr} {c : Command} {cs : List Command} (hc : c ≠ .missing)
    (hword : ∃ arg ∈ args, wordOf arg = c.word) (hsub : args' ⊆ args) (h : CommandsOk args' cs) :
    CommandsOk args (c :: cs) := by
  intro x hx
  rcases List.mem_cons.mp hx with rfl | hx
  · exact ⟨hc, hword⟩
  · obtain ⟨hne, arg, harg, hw⟩ := h x hx
    exact ⟨hne, arg, hsub harg, hw⟩

theorem commands_found {argv : List CStr} (hops : OperandsOk argv) : CommandsOk argv (commands argv) := by
  fun_induction commands argv with
  | case1 => intro c hc; cases hc
  | case2 arg args hw ih => exact (ih hops.2).cons (by simp) ⟨arg, by simp, hw⟩ (by simp)
  | case3 arg args hw ih => exact (ih hops.2).cons (by simp) ⟨arg, by simp, hw⟩ (by simp)
  | case4 arg var args hw ih => exact (ih hops.2.2).cons (by simp) ⟨arg, by simp, hw⟩ (by simp)
  | case5 arg var args hw ih => exact (ih hops.2.2).cons (by simp) ⟨arg, by simp, hw⟩ (by simp)
  | case6 arg pair args hw ih => exact (ih hops.2.2).cons (by simp) ⟨arg, by simp, hw⟩ (by simp)
  | case7 arg args hw ih => exact (ih hops.2).cons (by simp) ⟨arg, by simp, hw⟩ (by simp)
  | case8 arg args hw =>
    intro c hc
    rw [List.mem_singleton.mp hc]
    exact ⟨by simp, arg, by simp, hw⟩
  | case9 arg hshow hinfo hcommit hunknown =>
    -- only the words that take an operand are left
    have hne := hops.1
    cases hw : wordOf arg <;> simp_all

theorem execute_executes {m : CStr → Option CStr} {s : Session} (ht : Tracks s.nvram.table m)
    (hlow : crcStartPosition ≤ s.nvram.mmap.header.len) (hhigh : s.nvram.mmap.header.len ≤ nvramSpace)
    {c : Command} (hc : c ≠ .missing) :
    ∃ s' es, execute s c = some s' ∧ Executes m s es s' ∧ ∀ e ∈ es, e.word = c.word := by
  cases c with
  | showAll => exact ⟨_, _, rfl, doShow_executes ht, by simp [Event.word, Command.word]⟩
  | info =>
    obtain ⟨s', report, hs, he⟩ := doInfo_executes ht hlow hhigh
    exact ⟨s', _, hs, he, by simp [Event.word, Command.word]⟩
  | get var => exact ⟨_, _, rfl, doGet_executes ht var, by simp [Event.word, Command.word]⟩
  | unset var => exact ⟨_, _, rfl, doUnset_executes ht var, by simp [Event.word, Command.word]⟩
  | set pair => exact ⟨_, _, rfl, doSet_executes ht pair, by simp [Event.word, Command.word]⟩
  | commit => exact ⟨_, _, rfl, doCommit_executes ht, by simp [Event.word, Command.word]⟩
  | unknown arg => exact ⟨_, [], rfl, .refl ht, by simp⟩
  | missing => exact absurd rfl hc

theorem execute_all {args : List CStr} {cs : List Command} (hfound : CommandsOk args cs)
    {m : CStr → Option CStr} {s : Session} (ht : Tracks s.nvram.table m)
    (hlow : crcStartPosition ≤ s.nvram.mmap.header.len)
    (hhigh : s.nvram.mmap.header.len ≤ nvramSpace) :
    ∃ s' es, cs.foldlM execute s = some s' ∧ Executes m s es s' ∧
      ∀ e ∈ es, ∃ arg ∈ args, wordOf arg = e.word := by
  induction cs generalizing m s with
  | nil => exact ⟨s, [], rfl, .refl ht, by simp⟩
  | cons c cs ih =>
    obtain ⟨hc, hword⟩ := hfound c List.mem_cons_self
    obtain ⟨s1, es1, hs1, he1, hw1⟩ := execute_executes ht hlow hhigh hc
    rw [← he1.mmap] at hlow hhigh
    obtain ⟨s2, es2, hs2, he2, hw2⟩ :=
      ih (fun x hx => hfound x (List.mem_cons_of_mem c hx)) he1.tracks hlow hhigh
    refine ⟨s2, es1 ++ es2, ?_, he1.trans he2, ?_⟩
    · rw [List.foldlM_cons, hs1]
      exact hs2
    · intro e he
      rcases List.mem_append.mp he with he | he
      · rw [hw1 e he]
        exact hword
      · exact hw2 e he

/-! ## One invocation -/

/-- An image that opens: the magic number, a length inside the NVRAM area and a text that ends. -/
structure ValidImage (file : NvramMap) : Prop where
  magic : file.header.magic = nvramMagic
  low : crcStartPosition ≤ file.header.len
  high : file.header.len ≤ nvramSpace
  text : (nvramRehash file).isSome

def Storage.current (st : Storage) : NvramMap := st.staging.getD st.flash

/-- The image in use parses to the map of the history. -/
structure StorageOk (st : Storage) (m : CStr → Option CStr) : Prop where
  flash : ValidImage st.flash
  current : ValidImage st.current
  tracks : ∃ table, nvramRehash st.current = some table ∧ Tracks table m

def TablesFit (st : Storage) (argv : List CStr) : Prop :=
  ∀ st' nvram s, scanWrite argv = some true → openNvram st true = some (st', some nvram) →
    mainLoop (.start nvram) argv = some s → Fits s.nvram.table

theorem openNvram_ok {st : Storage} {m : CStr → Option CStr} (h : StorageOk st m) (write : Bool) :
    ∃ st' nvram, openNvram st write = some (st', some nvram) ∧ st'.flash = st.flash ∧
      (write = false → st' = st) ∧ nvram.mmap = clearLead st.current ∧ Tracks nvram.table m := by
  obtain ⟨table, hre, ht⟩ := h.tracks
  have hopen := nvramOpen_of_rehash h.current.magic hre
  cases write with
  | false =>
    refine ⟨st, ⟨table, clearLead st.current⟩, ?_, rfl, fun _ => rfl, rfl, ht⟩
    rw [openNvram, if_neg (by simp), nvramOpenRdonly]
    exact congrArg (Option.map _) hopen
  | true =>
    cases hst : st.staging with
    | none =>
      have hcur : st.current = st.flash := by rw [Storage.current, hst, Option.getD_none]
      rw [hcur] at hopen
      refine ⟨⟨st.flash, some (clearLead st.flash)⟩, ⟨table, clearLead st.flash⟩, ?_, rfl, by simp,
        by rw [hcur], ht⟩
      simp only [openNvram, nvramOpenStaging, hst, nvramToStaging, Option.isNone_none, if_true,
        Option.getD_some, hopen, Option.map_some]
    | some file =>
      have hcur : st.current = file := by rw [Storage.current, hst, Option.getD_some]
      rw [hcur] at hopen
      refine ⟨⟨st.flash, some (clearLead file)⟩, ⟨table, clearLead file⟩, ?_, rfl, by simp,
        by rw [hcur], ht⟩
      simp only [openNvram, nvramOpenStaging, hst, Option.isNone_some, Bool.false_eq_true, if_true,
        if_false, Option.getD_some, hopen, Option.map_some]

theorem nvramCommit_tracks {h : NvramHandle} {m : CStr → Option CStr} (ht : Tracks h.table m)
    (hfit : Fits h.table) :
    ∃ h', nvramCommit h = some (h', 0) ∧ ValidImage h'.mmap ∧ nvramRehash h'.mmap = some h'.table ∧
      Tracks h'.table m := by
  obtain ⟨file, himage, -, hmagic, hlen, tail, hdata⟩ := commitImage_fits h hfit
  obtain ⟨table, hre, htable, hget⟩ := nvramRehash_serialized ht.ok ht.names hfit hdata
  obtain ⟨hdvd, hge, hlt⟩ := roundup_four (headerSize + serialSize h.table + 2)
  have hspace : nvramSpace = 32768 := rfl
  have hhdr : headerSize = 20 := rfl
  have hstart : crcStartPosition = 9 := rfl
  rw [Fits] at hfit
  refine ⟨⟨table, file⟩, ?_, ⟨hmagic, ?_, ?_, by simp [hre]⟩, hre, htable,
    or_sdram_names ht.ok ht.names htable hget, ?_⟩
  · rw [nvramCommit, himage, Option.bind_some, hre, Option.map_some]
  · rw [hlen]
    omega
  · rw [hlen]
    omega
  · intro v hv
    rw [hget v, findKey_none.mpr (by rw [sdramTuples_names]; exact hv), Option.map_none, Option.or_none]
    exact ht.get v hv

theorem effects_of_reads {es : List Event} (h : ∀ e ∈ es, e.word ∉ writeWords) (m : CStr → Option CStr) :
    es.foldl effect m = m := by
  induction es with
  | nil => rfl
  | cons e es ih =>
    have he : effect m e = m := by
      have hword := h e List.mem_cons_self
      cases e <;> first | rfl | exact absurd hword (by simp [Event.word, writeWords])
    rw [List.foldl_cons, he]
    exact ih (fun x hx => h x (List.mem_cons_of_mem e hx))

theorem finish_write (st : Storage) {s : Session} {m : CStr → Option CStr} (hflash : ValidImage st.flash)
    (ht : Tracks s.nvram.table m) (hfit : Fits s.nvram.table) :
    ∃ st' r, finish st true s = some (st', r) ∧ r.events = s.log ∧ StorageOk st' m ∧
      (s.commit = false → st'.flash = st.flash) ∧ (s.commit = true → st'.staging = none) := by
  obtain ⟨h', hcommit, hvalid, hre, ht'⟩ := nvramCommit_tracks ht hfit
  cases hc : s.commit with
  | false =>
    refine ⟨{ st with staging := some h'.mmap }, ⟨if s.done = 0 then 1 else 0, s.log⟩, ?_, rfl,
      ⟨hflash, hvalid, h'.table, hre, ht'⟩, fun _ => rfl, by simp⟩
    simp only [finish, if_true, hcommit, Option.map_some, hc, Bool.false_eq_true, if_false]
  | true =>
    refine ⟨⟨h'.mmap, none⟩, ⟨if s.done = 0 then 1 else 0, s.log⟩, ?_, rfl,
      ⟨hvalid, hvalid, h'.table, hre, ht'⟩, by simp, fun _ => rfl⟩
    simp only [finish, if_true, hcommit, Option.map_some, hc, stagingToNvram]

/-- What one invocation does: it does not fault, its answers are those of the history, it keeps the
image in use, changes flash only on `commit` and leaves no staging file then, and the first loop saw
every command that writes. -/
theorem cliMain_ok {st : Storage} {m : CStr → Option CStr} (h : StorageOk st m) {argv : List CStr}
    (hops : OperandsOk argv) (hfit : TablesFit st argv) :
    ∃ st' r, cliMain st argv = some (st', r) ∧ StorageOk st' (r.events.foldl effect m) ∧
      Along effect Answered m r.events ∧ (.commit ∉ r.events → st'.flash = st.flash) ∧
      (.commit ∈ r.events → st'.staging = none) ∧
      ∀ e ∈ r.events, e.word ∈ writeWords → scanWrite argv = some true := by
  obtain ⟨write, hscan, hiff⟩ := scanWrite_operands hops
  obtain ⟨st1, nvram, hopen, hflash, hro, hmmap, ht⟩ := openNvram_ok h write
  have hmain : cliMain st argv = if argv = [] then some (st1, ⟨1, []⟩)
      else (mainLoop (.start nvram) argv).bind fun s => finish st1 write s := by
    rw [cliMain, hscan, Option.bind_some, hopen, Option.bind_some]
  by_cases hnil : argv = []
  · have hwrite : write = false := by
      rw [hnil] at hscan
      exact (Option.some.inj hscan).symm
    rw [if_pos hnil, hro hwrite] at hmain
    exact ⟨st, _, hmain, h, trivial, fun _ => rfl, by simp, by simp⟩
  · have hhdr : nvram.mmap.header = st.current.header := by rw [hmmap]; rfl
    obtain ⟨s, es, hloop, hex, hwords⟩ := execute_all (commands_found hops) (s := .start nvram) ht
      (by simp only [Session.start, hhdr]; exact h.current.low)
      (by simp only [Session.start, hhdr]; exact h.current.high)
    have hlog : s.log = es := hex.log
    have hcommit : s.commit = true ↔ .commit ∈ es := by simpa [Session.start] using hex.commit
    have hloop' : mainLoop (.start nvram) argv = some s := hloop
    rw [if_neg hnil, hloop', Option.bind_some] at hmain
    have hnoticed : ∀ e ∈ es, e.word ∈ writeWords → write = true := by
      intro e he hw
      obtain ⟨arg, harg, hword⟩ := hwords e he
      exact hiff.mpr ⟨arg, harg, by rw [hword]; exact hw⟩
    cases write with
    | true =>
      obtain ⟨st2, r, hfin, hr, hok, hkeep, hgone⟩ := finish_write st1
        (by rw [hflash]; exact h.flash) hex.tracks (hfit st1 nvram s hscan hopen hloop')
      rw [hlog] at hr
      refine ⟨st2, r, hmain.trans hfin, by rw [hr]; exact hok, by rw [hr]; exact hex.answered, ?_, ?_,
        fun _ _ _ => hscan⟩
      · intro hnot
        rw [hr, ← hcommit, Bool.not_eq_true] at hnot
        exact (hkeep hnot).trans hflash
      · intro hmem
        rw [hr, ← hcommit] at hmem
        exact hgone hmem
    | false =>
      -- a private mapping: no command of this invocation writes
      have hreads : ∀ e ∈ es, e.word ∉ writeWords := fun e he hw => by simpa using hnoticed e he hw
      have hnot : .commit ∉ es := fun hmem => hreads _ hmem (by simp [Event.word, writeWords])
      have hc : s.commit = false := by rw [← Bool.not_eq_true, hcommit]; exact hnot
      have hfin : finish st1 false s = some (st, ⟨if s.done = 0 then 1 else s.stat, es⟩) := by
        simp only [finish, Bool.false_eq_true, if_false, Option.map_some, hc, hlog, hro rfl]
      refine ⟨st, _, hmain.trans hfin, ?_, hex.answered, fun _ => rfl, fun hmem => absurd hmem hnot, ?_⟩
      · rw [effects_of_reads hreads]
        exact h
      · intro e he hw
        exact absurd hw (hreads e he)

/-! ## Runs of invocations -/

/-- The storage and the commands executed since boot; `none` after a fault. -/
abbrev Running := Option (Storage × List Event)

def boot (flash : NvramMap) : Running := some (⟨flash, none⟩, [])

def cliStep (run : Running) (argv : List CStr) : Running :=
  run.bind fun s => (cliMain s.1 argv).map fun r => (r.1, s.2 ++ r.2.events)

def imageMap (file : NvramMap) (v : CStr) : Option CStr :=
  (nvramRehash file).bind fun table => nvramGet table v

/-- The argument vectors the protocol is about: operands present, tables that fit. -/
def InvocationOk (run : Running) (argv : List CStr) : Prop :=
  OperandsOk argv ∧ ∀ s, run = some s → TablesFit s.1 argv

/-- The run did not fault, every answer was that of the history, and the image in use parses to it. -/
def RunOk (m : CStr → Option CStr) (run : Running) : Prop :=
  ∃ s, run = some s ∧ StorageOk s.1 (s.2.foldl effect m) ∧ Along effect Answered m s.2

theorem cliStep_ok {m : CStr → Option CStr} (run : Running) (argv : List CStr) (h : RunOk m run)
    (hinv : InvocationOk run argv) : RunOk m (cliStep run argv) := by
  obtain ⟨s, rfl, hok, hans⟩ := h
  obtain ⟨st', r, hmain, hok', hans', -⟩ := cliMain_ok hok hinv.1 (hinv.2 s rfl)
  refine ⟨(st', s.2 ++ r.events), by rw [cliStep, Option.bind_some, hmain, Option.map_some], ?_, ?_⟩
  · rw [List.foldl_append]
    exact hok'
  · exact along_append.mpr ⟨hans, hans'⟩

/-- The staging protocol. After any invocations from boot with a valid image in flash, the next one
does not fault; every `get` so far printed the value its history of sets and unsets gives; flash
changed only if it executed `commit`; if it did, flash parses to the map of the history and no
staging file is left; and the first loop expected every write it executed. -/
theorem nvram_staging_protocol (flash : NvramMap) (hflash : ValidImage flash)
    (before : List (List CStr)) (argv : List CStr)
    (hok : Along cliStep InvocationOk (boot flash) (before ++ [argv])) :
    ∃ st st' log r, runSteps cliStep (boot flash) before = some (st, log) ∧
      cliMain st argv = some (st', r) ∧
      (.commit ∉ r.events → st'.flash = st.flash) ∧
      Along effect Answered (imageMap flash) (log ++ r.events) ∧
      (.commit ∈ r.events → st'.staging = none ∧
        ∀ v, v ∉ sdramNames →
          imageMap st'.flash v = (log ++ r.events).foldl effect (imageMap flash) v) ∧
      ∀ e ∈ r.events, e.word ∈ [Word.set, .unset, .commit] → scanWrite argv = some true := by
  obtain ⟨hbefore, hnext, -⟩ := along_append.mp hok
  obtain ⟨table, hre⟩ := Option.isSome_iff_exists.mp hflash.text
  have hmap : ∀ v, nvramGet table v = imageMap flash v := fun v => by rw [imageMap, hre, Option.bind_some]
  have hstart : RunOk (imageMap flash) (boot flash) :=
    ⟨_, rfl, ⟨hflash, hflash, table, hre, (nvramRehash_ok hre).1, (nvramRehash_ok hre).2,
      fun v _ => hmap v⟩, trivial⟩
  obtain ⟨⟨st, log⟩, hrun, hst, hans⟩ := hbefore.preserves cliStep_ok hstart
  obtain ⟨st', r, hmain, hst', hans', hkeep, hgone, hnoticed⟩ :=
    cliMain_ok hst hnext.1 (hnext.2 _ hrun)
  refine ⟨st, st', log, r, hrun, hmain, hkeep, along_append.mpr ⟨hans, hans'⟩, ?_, hnoticed⟩
  intro hcommit
  have hnone := hgone hcommit
  refine ⟨hnone, fun v hv => ?_⟩
  obtain ⟨table', hre', ht'⟩ := hst'.tracks
  rw [Storage.current, hnone, Option.getD_none] at hre'
  rw [imageMap, hre', Option.bind_some, List.foldl_append]
  exact ht'.get v hv

theorem nvram_staging_protocol_set_commit :
    ∃ st' r, cliMain ⟨formatted, none⟩
        [.lit "set", .lit "lan=1", .lit "get", .lit "lan", .lit "commit"] = some (st', r) ∧
      (.commit ∈ r.events → st'.staging = none) := by
  have hvalid : ValidImage formatted :=
    ⟨rfl, by decide, by decide, by rw [formatted_rehash]; rfl⟩
  have hops : OperandsOk [.lit "set", .lit "lan=1", .lit "get", .lit "lan", .lit "commit"] :=
    ⟨by decide, by decide, by decide, by decide, by decide, trivial⟩
  have hfit : TablesFit ⟨formatted, none⟩
      [.lit "set", .lit "lan=1", .lit "get", .lit "lan", .lit "commit"] := by
    intro st' nvram s _ hopen hloop
    have hnvram : nvram = ⟨formattedTable, clearLead formatted⟩ := by
      simp only [openNvram, nvramOpenStaging, nvramToStaging, Option.isNone_none, if_true,
        Option.getD_some, formatted_open, Option.map_some, Option.some.injEq, Prod.mk.injEq] at hopen
      exact hopen.2.symm
    have hcommands : commands [.lit "set", .lit "lan=1", .lit "get", .lit "lan", .lit "commit"] =
        [.set (.lit "lan=1"), .get (.lit "lan"), .commit] := by decide
    rw [mainLoop, hcommands, hnvram] at hloop
    obtain rfl := Option.some.inj hloop
    decide +kernel
  obtain ⟨st, st', log, r, hrun, hmain, -, -, hcommit, -⟩ := nvram_staging_protocol formatted hvalid []
    [.lit "set", .lit "lan=1", .lit "get", .lit "lan", .lit "commit"]
    ⟨⟨hops, fun s hs => by cases hs; exact hfit⟩, trivial⟩
  cases hrun
  exact ⟨st', r, hmain, fun h => (hcommit h).1⟩

end Neufbox.Nvram
