import Mathlib.Data.Char
import Mathlib.Data.List.Lex
import Mathlib.Data.List.Sort
import Neufbox.Kconfig.Config

/-! # Configurations as text

`dump_config` prints a configuration and `load_config` reads it. The lines are taken apart by regular
expressions with `(.+?)`, which takes as little as it can.

`$PREFIX` goes into these expressions as it is; the ones here have no characters with a meaning there. -/
namespace Neufbox.Kconfig
open RunAlong
set_option autoImplicit false
set_option maxHeartbeats 250000
set_option maxRecDepth 120000

/-- `$PREFIX`: `CONFIG_`, or nothing with `-n`, or what is given with `-p`. -/
structure Prefix where
  chars : List Char
  word : ∀ c ∈ chars, c.isAlphanum ∨ c = '_'

def configPrefix : Prefix := ⟨['C', 'O', 'N', 'F', 'I', 'G', '_'],
  by simp only [List.forall_mem_cons, List.not_mem_nil, false_implies, implies_true, and_true]; decide⟩

def comment : List Char := ['#', ' ']

def isNotSet : List Char := [' ', 'i', 's', ' ', 'n', 'o', 't', ' ', 's', 'e', 't']

/-! ## Printing -/

variable (pre : Prefix)

def printCfgline (name : Name) (val : Value) : List Char :=
  if val = undef ∨ val = no then comment ++ pre.chars ++ name ++ isNotSet ++ ['\n']
  else pre.chars ++ name ++ '=' :: val ++ ['\n']

/-- The order of `sort`. -/
def sortedKeys (cfg : Config) : List Name := cfg.keys.insertionSort (· ≤ ·)

def dumpConfig (cfg : Config) : List Char :=
  (sortedKeys cfg).flatMap fun name => printCfgline pre name ((cfg.lookup name).getD [])

/-! ## Reading -/

/-- The lines of a file, without their ends. -/
def readLines : List Char → List (List Char)
  | [] => []
  | c :: cs =>
    if c = '\n' then [] :: readLines cs
    else
      match readLines cs with
      | [] => [[c]]
      | line :: lines => (c :: line) :: lines

/-- `(.+?)` before something that `tail` matches. -/
def lazyMatch {α : Type} (tail : List Char → Option α) : List Char → Option (List Char × α)
  | [] => none
  | c :: cs =>
    match tail cs with
    | some r => some ([c], r)
    | none => (lazyMatch tail cs).map fun r => (c :: r.1, r.2)

/-- `=(.+)` -/
def matchValue : List Char → Option Value
  | '=' :: c :: cs => some (c :: cs)
  | _ => none

def matchNotSet (cs : List Char) : Option Unit := if isNotSet <+: cs then some () else none

def afterPrefix (start cs : List Char) : Option (List Char) := if start <+: cs then some (cs.drop start.length) else none

/-- A line of `load_config`. -/
def loadLine (config : Config) (line : List Char) : Config :=
  match (afterPrefix pre.chars line).bind (lazyMatch matchValue) with
  | some (name, val) => config.insert name val
  | none =>
    match (afterPrefix (comment ++ pre.chars) line).bind (lazyMatch matchNotSet) with
    | some (name, _) => config.insert name undef
    | none => config

def loadConfig (text : List Char) : Config := runSteps (loadLine pre) ∅ (readLines text)

/-! ## Names and values that can be printed -/

structure NameOk (name : Name) : Prop where
  nonempty : name ≠ []
  equals : '=' ∉ name
  newline : '\n' ∉ name
  /-- behind its first character -/
  notSet : ¬isNotSet <:+: name.tail

structure ValueOk (val : Value) : Prop where
  nonempty : val ≠ []
  newline : '\n' ∉ val

def Printable (cfg : Config) : Prop := ∀ name, ∀ val ∈ cfg.lookup name, NameOk name ∧ ValueOk val

/-- `n` is the same as not set. -/
def normal (val : Value) : Value := if val = no then undef else val

/-! ## Single lines -/

theorem readLines_line {line : List Char} (h : '\n' ∉ line) (rest : List Char) :
    readLines (line ++ '\n' :: rest) = line :: readLines rest := by
  induction line with
  | nil => rw [List.nil_append, readLines, if_pos rfl]
  | cons c cs ih =>
    rw [List.mem_cons, not_or] at h
    rw [List.cons_append, readLines, if_neg (Ne.symm h.1), ih h.2]

theorem matchValue_none {cs : List Char} (h : cs.head? ≠ some '=') : matchValue cs = none := by
  rw [matchValue]
  rintro c cs' rfl
  exact h rfl

theorem lazyMatch_value {name : Name} (hname : name ≠ []) (hequals : '=' ∉ name) {val : Value} (hval : val ≠ []) :
    lazyMatch matchValue (name ++ '=' :: val) = some (name, val) := by
  induction name with
  | nil => exact absurd rfl hname
  | cons c cs ih =>
    rw [List.mem_cons, not_or] at hequals
    rw [List.cons_append, lazyMatch]
    cases cs with
    | nil =>
      obtain ⟨v, vs, rfl⟩ := List.exists_cons_of_ne_nil hval
      rfl
    | cons c' cs' =>
      have hnone : matchValue (c' :: cs' ++ '=' :: val) = none := by
        apply matchValue_none
        rintro hhead
        exact hequals.2 (List.mem_cons.mpr (Or.inl (Option.some.inj hhead).symm))
      rw [hnone]
      show (lazyMatch matchValue (c' :: cs' ++ '=' :: val)).map _ = _
      rw [ih (List.cons_ne_nil _ _) hequals.2]
      rfl

theorem lazyMatch_no_value {cs : List Char} (h : '=' ∉ cs) : lazyMatch matchValue cs = none := by
  induction cs with
  | nil => rfl
  | cons c cs ih =>
    rw [List.mem_cons, not_or] at h
    have hnone : matchValue cs = none := by
      apply matchValue_none
      intro hhead
      exact h.2 (List.mem_of_mem_head? hhead)
    rw [lazyMatch, hnone]
    show (lazyMatch matchValue cs).map _ = _
    rw [ih h.2]
    rfl

/-- The words `is not set` do not overlap with themselves. -/
theorem isNotSet_begins {cs : List Char} (h : isNotSet <+: cs ++ isNotSet) (hcs : cs ≠ []) : isNotSet <:+: cs := by
  have hself : cs <+: cs ++ isNotSet := List.prefix_append _ _
  by_cases hlen : isNotSet.length ≤ cs.length
  · exact (List.prefix_of_prefix_length_le h hself hlen).isInfix
  · have hcut : cs = isNotSet.take cs.length :=
      List.prefix_iff_eq_take.mp (List.prefix_of_prefix_length_le hself h (by omega))
    have hno : ∀ k < isNotSet.length, isNotSet <+: isNotSet.take k ++ isNotSet → isNotSet.take k = [] := by decide
    rw [hcut] at h hcs
    exact absurd (hno cs.length (by omega) h) hcs

theorem lazyMatch_notSet {name : Name} (hname : name ≠ []) (hnotSet : ¬isNotSet <:+: name.tail) :
    lazyMatch matchNotSet (name ++ isNotSet) = some (name, ()) := by
  induction name with
  | nil => exact absurd rfl hname
  | cons c cs ih =>
    rw [List.cons_append, lazyMatch]
    cases cs with
    | nil => rfl
    | cons c' cs' =>
      have hnone : matchNotSet (c' :: cs' ++ isNotSet) = none := by
        rw [matchNotSet, if_neg]
        exact fun h => hnotSet (isNotSet_begins h (List.cons_ne_nil _ _))
      rw [hnone]
      show (lazyMatch matchNotSet (c' :: cs' ++ isNotSet)).map _ = _
      rw [ih (List.cons_ne_nil _ _) fun h => hnotSet (h.trans (List.suffix_cons _ _).isInfix)]
      rfl

/-- What stands on the line of an option. -/
def cfgline (name : Name) (val : Value) : List Char :=
  if val = undef ∨ val = no then comment ++ pre.chars ++ name ++ isNotSet else pre.chars ++ name ++ '=' :: val

theorem printCfgline_eq (name : Name) (val : Value) : printCfgline pre name val = cfgline pre name val ++ ['\n'] := by
  rw [printCfgline, cfgline]
  split
  · rfl
  · simp only [List.append_assoc, List.cons_append]

theorem Prefix.not_mem {c : Char} (hc : ¬(c.isAlphanum ∨ c = '_')) : c ∉ pre.chars := fun h => hc (pre.word c h)

theorem newline_cfgline {name : Name} (hname : NameOk name) {val : Value} (hval : ValueOk val) :
    '\n' ∉ cfgline pre name val := by
  have hpre : '\n' ∉ pre.chars := pre.not_mem (by decide)
  rw [cfgline]
  split
  · simp only [List.mem_append, not_or]
    exact ⟨⟨⟨by decide, hpre⟩, hname.newline⟩, by decide⟩
  · simp only [List.mem_append, List.mem_cons, not_or]
    exact ⟨⟨hpre, hname.newline⟩, by decide, hval.newline⟩

theorem afterPrefix_append (start cs : List Char) : afterPrefix start (start ++ cs) = some cs := by
  rw [afterPrefix, if_pos (List.prefix_append _ _), List.drop_left]

/-- A comment is not taken for an option. -/
theorem comment_no_value {cs : List Char} (hcs : '=' ∉ cs) :
    (afterPrefix pre.chars (comment ++ pre.chars ++ cs)).bind (lazyMatch matchValue) = none := by
  rw [afterPrefix]
  split
  · rename_i hprefix
    have hnil : pre.chars = [] := by
      cases hp : pre.chars with
      | nil => rfl
      | cons c rest =>
        rw [hp] at hprefix
        obtain ⟨t, ht⟩ := hprefix
        have hc : c = '#' := (List.cons.inj ht).1
        have hmem : '#' ∈ pre.chars := by
          rw [hp, hc]
          exact List.mem_cons_self
        exact absurd hmem (pre.not_mem (by decide))
    rw [hnil]
    apply lazyMatch_no_value
    simp only [List.length_nil, List.drop_zero, List.append_nil, List.mem_append, not_or]
    exact ⟨by decide, hcs⟩
  · rfl

theorem loadLine_cfgline (config : Config) {name : Name} (hname : NameOk name) {val : Value} (hval : ValueOk val) :
    loadLine pre config (cfgline pre name val) = config.insert name (normal val) := by
  rw [loadLine, cfgline]
  by_cases hundef : val = undef ∨ val = no
  · have hnormal : normal val = undef := by
      rw [normal]
      rcases hundef with rfl | rfl
      · rfl
      · rfl
    have hequals : '=' ∉ name ++ isNotSet := by
      rw [List.mem_append, not_or]
      exact ⟨hname.equals, by decide⟩
    rw [if_pos hundef, List.append_assoc, comment_no_value pre hequals, afterPrefix_append, Option.bind_some,
      lazyMatch_notSet hname.nonempty hname.notSet, hnormal]
  · have hnormal : normal val = val := if_neg fun h => hundef (Or.inr h)
    rw [if_neg hundef, List.append_assoc, afterPrefix_append, Option.bind_some,
      lazyMatch_value hname.nonempty hname.equals hval.nonempty, hnormal]

/-! ## The round trip -/

theorem readLines_dump {keys : List Name} {cfg : Config} (hcfg : Printable cfg) (hkeys : ∀ name ∈ keys, name ∈ cfg.keys) :
    readLines (keys.flatMap fun name => printCfgline pre name ((cfg.lookup name).getD [])) =
      keys.map fun name => cfgline pre name ((cfg.lookup name).getD []) := by
  induction keys with
  | nil => rfl
  | cons name keys ih =>
    obtain ⟨hname, hrest⟩ := List.forall_mem_cons.mp hkeys
    obtain ⟨val, hval⟩ := Option.ne_none_iff_exists'.mp ((mem_keys_iff cfg name).mp hname)
    obtain ⟨hnameOk, hvalOk⟩ := hcfg name val hval
    rw [List.flatMap_cons, hval, Option.getD_some, printCfgline_eq, List.append_assoc, List.singleton_append,
      readLines_line (newline_cfgline pre hnameOk hvalOk), ih hrest, List.map_cons, hval, Option.getD_some]

theorem load_lines {keys : List Name} {cfg : Config} (hcfg : Printable cfg) (hkeys : ∀ name ∈ keys, name ∈ cfg.keys)
    (config : Config) :
    runSteps (loadLine pre) config (keys.map fun name => cfgline pre name ((cfg.lookup name).getD [])) =
      runSteps (fun config name => assign config name ((cfg.lookup name).map normal)) config keys := by
  induction keys generalizing config with
  | nil => rfl
  | cons name keys ih =>
    obtain ⟨hname, hrest⟩ := List.forall_mem_cons.mp hkeys
    obtain ⟨val, hval⟩ := Option.ne_none_iff_exists'.mp ((mem_keys_iff cfg name).mp hname)
    obtain ⟨hnameOk, hvalOk⟩ := hcfg name val hval
    rw [List.map_cons, runSteps_cons, runSteps_cons, hval, Option.getD_some, loadLine_cfgline pre config hnameOk hvalOk,
      ih hrest]
    rfl

theorem mem_sortedKeys (cfg : Config) (name : Name) : name ∈ sortedKeys cfg ↔ name ∈ cfg.keys :=
  (List.perm_insertionSort _ _).mem_iff

theorem sortedKeys_nodup (cfg : Config) : (sortedKeys cfg).Nodup :=
  (List.perm_insertionSort _ _).nodup_iff.mpr cfg.keys_nodup

/-- What is printed comes back, with `n` for not set. -/
theorem lookup_load_dump {cfg : Config} (hcfg : Printable cfg) (name : Name) :
    (loadConfig pre (dumpConfig pre cfg)).lookup name = (cfg.lookup name).map normal := by
  have hmem : ∀ name ∈ sortedKeys cfg, name ∈ cfg.keys := fun name h => (mem_sortedKeys cfg name).mp h
  rw [loadConfig, dumpConfig, readLines_dump pre hcfg hmem, load_lines pre hcfg hmem,
    @runSteps_view_map _ _ _ _ (fun config name => AList.lookup name config) _
      (fun name old => ((cfg.lookup name).map normal).or old)
      (fun config name j hj => lookup_assign_other config hj _) (fun config name => lookup_assign_self config name _)
      ∅ _ (sortedKeys_nodup cfg) name]
  split
  · exact Option.or_none
  · rename_i h
    rw [mem_sortedKeys, mem_keys_iff, not_not] at h
    rw [h]
    rfl

theorem printCfgline_normal (name : Name) (val : Value) :
    printCfgline pre name (normal val) = printCfgline pre name val := by
  by_cases h : val = no
  · rw [h]
    rfl
  · rw [normal, if_neg h]

/-- The text depends on the map only, and `n` is printed as not set. -/
theorem dumpConfig_congr {cfg cfg' : Config}
    (h : ∀ name, (cfg.lookup name).map normal = (cfg'.lookup name).map normal) :
    dumpConfig pre cfg = dumpConfig pre cfg' := by
  have hmem : ∀ name, name ∈ cfg.keys ↔ name ∈ cfg'.keys := by
    intro name
    have hnone : ∀ val : Option Value, val = none ↔ val.map normal = none := fun _ => Option.map_eq_none_iff.symm
    rw [mem_keys_iff, mem_keys_iff]
    apply not_congr
    rw [hnone, h name, ← hnone]
  have hperm : cfg.keys.Perm cfg'.keys := (List.perm_ext_iff_of_nodup cfg.keys_nodup cfg'.keys_nodup).mpr hmem
  have hkeys : sortedKeys cfg = sortedKeys cfg' := by
    apply List.Perm.eq_of_pairwise' (List.pairwise_insertionSort _ _) (List.pairwise_insertionSort _ _)
    exact ((List.perm_insertionSort _ _).trans hperm).trans (List.perm_insertionSort _ _).symm
  rw [dumpConfig, dumpConfig, hkeys]
  apply List.flatMap_congr
  intro name _
  have hname := h name
  cases hval : cfg.lookup name with
  | none =>
    rw [hval] at hname
    rw [Option.map_eq_none_iff.mp hname.symm]
  | some val =>
    rw [hval] at hname
    obtain ⟨val', hval', hnormal⟩ := Option.map_eq_some_iff.mp hname.symm
    rw [hval', Option.getD_some, Option.getD_some, ← printCfgline_normal, ← hnormal, printCfgline_normal]

end Neufbox.Kconfig
