import Mathlib.Data.Char
import Mathlib.Data.List.Lex
import Mathlib.Data.List.Sort
import Neufbox.Packages.Metadata

/-! # Kernel options of packages

`gen_kconfig_overrides` of `metadata.pl`: the packages of the build set the kernel options they list, and an option
that only other packages list is not set. The last package of the build that lists an option decides. -/
namespace Neufbox.Packages.KconfigOverrides
open Neufbox.Packages RunAlong
set_option autoImplicit false
set_option maxHeartbeats 250000
set_option maxRecDepth 120000

/-! ## The generator -/

/-- An entry of the metadata file: `Package` and the words of its `Kernel-Config` lines. -/
structure Package where
  name : Text
  kernelConfig : List Text
  deriving DecidableEq, Repr

/-- The first `=` with something behind it. -/
def splitAssign : Text → Option (Text × Text)
  | [] => none
  | c :: cs => if c = '=' ∧ cs ≠ [] then some ([], cs) else (splitAssign cs).map fun r => (c :: r.1, r.2)

/-- `/^(.+?)=(.+)$/`: the option and its explicit value, if there is one. -/
def parseWord (word : Text) : Text × Option Text :=
  match word with
  | [] => ([], none)
  | c :: cs =>
    match splitAssign cs with
    | some (name, val) => (c :: name, some val)
    | none => (word, none)

def asModule : Text := ['m']

def notSet : Text := ['n']

/-- `$config{"CONFIG_PACKAGE_$package"}`, with the names that the build configuration sets. -/
def Enabled (config : List Text) (pkg : Package) : Prop := "CONFIG_PACKAGE_".toList ++ pkg.name ∈ config

instance (config : List Text) (pkg : Package) : Decidable (Enabled config pkg) :=
  inferInstanceAs (Decidable (_ ∈ config))

abbrev Options := AList fun _ : Text => Text

/-- A package of the build sets the options it lists; it is the name of the option that is compared with `n`. -/
def Sets (config : List Text) (option : Text) (pkg : Package) : Prop := Enabled config pkg ∧ option ≠ notSet

instance (config : List Text) (option : Text) (pkg : Package) : Decidable (Sets config option pkg) :=
  inferInstanceAs (Decidable (_ ∧ _))

/-- The body of the loop over the words. -/
def setOption (config : List Text) (pkg : Package) (kconfig : Options) (option : Text) (val : Option Text) : Options :=
  if Sets config option pkg then kconfig.insert option (val.getD asModule)
  else if val = none then
    if Truthy ((kconfig.lookup option).getD []) then kconfig else kconfig.insert option notSet
  else kconfig

def overrideOption (config : List Text) (pkg : Package) (kconfig : Options) (word : Text) : Options :=
  setOption config pkg kconfig (parseWord word).1 (parseWord word).2

def overridePackage (config : List Text) (kconfig : Options) (pkg : Package) : Options :=
  runSteps (overrideOption config pkg) kconfig pkg.kernelConfig

def overrides (config : List Text) (pkgs : List Package) : Options := runSteps (overridePackage config) ∅ pkgs

/-- A line of the output: `# option is not set`, or `option=val`. -/
inductive Line
  | unset (option : Text)
  | set (option val : Text)
  deriving DecidableEq, Repr

/-- The option that the line is about. -/
def Line.option : Line → Text
  | .unset option => option
  | .set option _ => option

def printOption (option val : Text) : Line := if val = notSet then .unset option else .set option val

def genKconfigOverrides (config : List Text) (pkgs : List Package) : List Line :=
  ((overrides config pkgs).keys.insertionSort (· ≤ ·)).map fun option =>
    printOption option (((overrides config pkgs).lookup option).getD [])

/-! ## One option -/

section Option
variable (config : List Text) (option : Text)

def wordEffect (pkg : Package) (old : Option Text) (word : Text) : Option Text :=
  if (parseWord word).1 = option then
    if Sets config option pkg then some ((parseWord word).2.getD asModule)
    else if (parseWord word).2 = none then
      if Truthy (old.getD []) then old else some notSet
    else old
  else old

theorem lookup_overrideOption (pkg : Package) (kconfig : Options) (word : Text) :
    (overrideOption config pkg kconfig word).lookup option = wordEffect config option pkg (kconfig.lookup option) word := by
  unfold overrideOption setOption wordEffect
  by_cases hname : (parseWord word).1 = option
  · subst hname
    rw [if_pos rfl]
    by_cases hsets : Sets config (parseWord word).1 pkg
    · rw [if_pos hsets, if_pos hsets, AList.lookup_insert]
    · rw [if_neg hsets, if_neg hsets]
      split
      · split
        · rfl
        · rw [AList.lookup_insert]
      · rfl
  · rw [if_neg hname]
    have hother : ∀ val : Text, (kconfig.insert (parseWord word).1 val).lookup option = kconfig.lookup option :=
      fun val => AList.lookup_insert_ne (Ne.symm hname)
    split
    · exact hother _
    · split
      · split
        · rfl
        · exact hother _
      · rfl

def packageEffect (old : Option Text) (pkg : Package) : Option Text :=
  runSteps (wordEffect config option pkg) old pkg.kernelConfig

theorem lookup_overrides (pkgs : List Package) :
    (overrides config pkgs).lookup option = runSteps (packageEffect config option) none pkgs :=
  @runSteps_hom _ _ _ _ (fun kconfig : Options => kconfig.lookup option) _
    (fun kconfig pkg => runSteps_hom (lookup_overrideOption config option pkg) kconfig pkg.kernelConfig) ∅ pkgs

/-! ## What a package says of it -/

/-- The value with which a package lists an option last. -/
def lastValue (pkg : Package) : Option Text :=
  runSteps (fun last word => if (parseWord word).1 = option then some ((parseWord word).2.getD asModule) else last) none
    pkg.kernelConfig

/-- The package lists the option without a value. -/
def Bare (pkg : Package) : Prop := ∃ word ∈ pkg.kernelConfig, parseWord word = (option, none)

instance (pkg : Package) : Decidable (Bare option pkg) := inferInstanceAs (Decidable (∃ word ∈ _, _))

def request (pkg : Package) : Option Text := if Sets config option pkg then lastValue option pkg else none

/-- What the last package of the build that lists the option says. -/
def lastRequest (pkgs : List Package) : Option Text :=
  runSteps (fun last pkg => (request config option pkg).or last) none pkgs

/-- `n`, if a package that is not in the build lists the option. -/
def fallback (pkgs : List Package) : Option Text :=
  if ∃ pkg ∈ pkgs, ¬Sets config option pkg ∧ Bare option pkg then some notSet else none

end Option

/-- A run in which an input replaces the state or leaves it alone. -/
theorem runSteps_or {ι α : Type} (f : ι → Option α) (old : Option α) (is : List ι) :
    runSteps (fun last i => (f i).or last) old is = (runSteps (fun last i => (f i).or last) none is).or old := by
  induction is generalizing old with
  | nil => rfl
  | cons i is ih => rw [runSteps_cons, runSteps_cons, ih, ih ((f i).or none), Option.or_none, Option.or_assoc]

section Effect
variable {config : List Text} {option : Text}

theorem packageEffect_of_sets {pkg : Package} (h : Sets config option pkg) (old : Option Text) :
    packageEffect config option old pkg = (lastValue option pkg).or old := by
  have hword : ∀ (last : Option Text) (word : Text), wordEffect config option pkg last word =
      (if (parseWord word).1 = option then some ((parseWord word).2.getD asModule) else none).or last := by
    intro last word
    unfold wordEffect
    by_cases hname : (parseWord word).1 = option
    · rw [if_pos hname, if_pos hname, if_pos h, Option.some_or]
    · rw [if_neg hname, if_neg hname, Option.none_or]
  have hlast : ∀ (last : Option Text) (word : Text),
      (if (parseWord word).1 = option then some ((parseWord word).2.getD asModule) else last) =
        (if (parseWord word).1 = option then some ((parseWord word).2.getD asModule) else none).or last := by
    intro last word
    split
    · exact Option.some_or.symm
    · exact Option.none_or.symm
  rw [packageEffect, lastValue, funext fun last => funext (hword last), funext fun last => funext (hlast last)]
  exact runSteps_or _ _ _

/-- A value that a later `n` of a package outside the build does not replace. -/
def Firm (val : Option Text) : Prop := val = none ∨ Truthy (val.getD [])

theorem wordEffect_of_not_sets {pkg : Package} (h : ¬Sets config option pkg) {old : Option Text} (hold : Firm old)
    (word : Text) : wordEffect config option pkg old word =
      old.or (if parseWord word = (option, none) then some notSet else none) := by
  unfold wordEffect
  have hpair : parseWord word = (option, none) ↔ (parseWord word).1 = option ∧ (parseWord word).2 = none := Prod.ext_iff
  by_cases hname : (parseWord word).1 = option
  · rw [if_pos hname, if_neg h]
    by_cases hbare : (parseWord word).2 = none
    · rw [if_pos hbare, if_pos (hpair.mpr ⟨hname, hbare⟩)]
      rcases hold with rfl | htruthy
      · rfl
      · cases old with
        | none => rfl
        | some val => rw [if_pos htruthy, Option.some_or]
    · rw [if_neg hbare, if_neg (fun hp => hbare (hpair.mp hp).2), Option.or_none]
  · rw [if_neg hname, if_neg (fun hp => hname (hpair.mp hp).1), Option.or_none]

theorem firm_or {old : Option Text} (hold : Firm old) (P : Prop) [Decidable P] :
    Firm (old.or (if P then some notSet else none)) := by
  rcases hold with rfl | htruthy
  · rw [Option.none_or]
    split
    · exact Or.inr (by decide)
    · exact Or.inl rfl
  · cases old with
    | none => exact absurd rfl htruthy.1
    | some val => exact Or.inr htruthy

theorem packageEffect_of_not_sets {pkg : Package} (h : ¬Sets config option pkg) {old : Option Text} (hold : Firm old) :
    packageEffect config option old pkg = old.or (if Bare option pkg then some notSet else none) := by
  have hrun : ∀ words : List Text, runSteps (wordEffect config option pkg) old words =
      old.or (if ∃ word ∈ words, parseWord word = (option, none) then some notSet else none) := by
    intro words
    induction words generalizing old with
    | nil => simp
    | cons word words ih =>
      rw [runSteps_cons, wordEffect_of_not_sets h hold, ih (firm_or hold _), Option.or_assoc]
      congr 1
      simp only [List.exists_mem_cons_iff]
      by_cases hword : parseWord word = (option, none)
      · rw [if_pos hword, if_pos (Or.inl hword), Option.some_or]
      · rw [if_neg hword, Option.none_or]
        simp only [hword, false_or]
  exact hrun pkg.kernelConfig

end Effect

/-! ## What all packages say -/

section Requests
variable {config : List Text} {option : Text}

theorem lastRequest_cons (pkg : Package) (pkgs : List Package) :
    lastRequest config option (pkg :: pkgs) = (lastRequest config option pkgs).or (request config option pkg) := by
  rw [lastRequest, runSteps_cons, runSteps_or, Option.or_none]
  rfl

theorem lastRequest_concat (pkgs : List Package) (pkg : Package) :
    lastRequest config option (pkgs ++ [pkg]) = (request config option pkg).or (lastRequest config option pkgs) := by
  rw [lastRequest, runSteps_append]
  rfl

theorem lastRequest_eq_some {pkgs : List Package} {val : Text} (h : lastRequest config option pkgs = some val) :
    ∃ pkg ∈ pkgs, request config option pkg = some val := by
  induction pkgs with
  | nil => cases h
  | cons pkg pkgs ih =>
    rw [lastRequest_cons, Option.or_eq_some_iff] at h
    rcases h with hrest | ⟨-, hpkg⟩
    · obtain ⟨pkg', hmem, hval⟩ := ih hrest
      exact ⟨pkg', List.mem_cons_of_mem _ hmem, hval⟩
    · exact ⟨pkg, List.mem_cons_self, hpkg⟩

theorem lastRequest_ne_none {pkgs : List Package} {pkg : Package} (hpkg : pkg ∈ pkgs)
    (h : request config option pkg ≠ none) : lastRequest config option pkgs ≠ none := by
  induction pkgs with
  | nil => cases hpkg
  | cons pkg' pkgs ih =>
    rw [lastRequest_cons, Ne, Option.or_eq_none_iff, not_and_or]
    rcases List.mem_cons.mp hpkg with rfl | hmem
    · exact Or.inr h
    · exact Or.inl (ih hmem)

theorem lastRequest_append (pkgs pkgs' : List Package) :
    lastRequest config option (pkgs ++ pkgs') = (lastRequest config option pkgs').or (lastRequest config option pkgs) := by
  rw [lastRequest, runSteps_append, runSteps_or]
  rfl

theorem fallback_cons (pkg : Package) (pkgs : List Package) :
    fallback config option (pkg :: pkgs) =
      (if ¬Sets config option pkg ∧ Bare option pkg then some notSet else none).or (fallback config option pkgs) := by
  unfold fallback
  simp only [List.exists_mem_cons_iff]
  by_cases hpkg : ¬Sets config option pkg ∧ Bare option pkg
  · rw [if_pos (Or.inl hpkg), if_pos hpkg, Option.some_or]
  · rw [if_neg hpkg, Option.none_or]
    simp only [hpkg, false_or]

theorem fallback_perm {pkgs pkgs' : List Package} (h : pkgs'.Perm pkgs) :
    fallback config option pkgs' = fallback config option pkgs := by
  unfold fallback
  simp only [h.mem_iff]

/-- Behind all packages, an option has the value of the last package that sets it, or else the `n` of one that is
not in the build. -/
theorem run_packages {pkgs : List Package} (hfirm : ∀ pkg ∈ pkgs, Firm (request config option pkg)) {old : Option Text}
    (hold : Firm old) :
    runSteps (packageEffect config option) old pkgs =
      (lastRequest config option pkgs).or (old.or (fallback config option pkgs)) := by
  induction pkgs generalizing old with
  | nil => simp [lastRequest, fallback]
  | cons pkg pkgs ih =>
    have hrest : ∀ pkg ∈ pkgs, Firm (request config option pkg) := fun p hp => hfirm p (List.mem_cons_of_mem _ hp)
    have hpkg := hfirm pkg List.mem_cons_self
    rw [runSteps_cons, lastRequest_cons, fallback_cons]
    by_cases hsets : Sets config option pkg
    · have hrequest : request config option pkg = lastValue option pkg := if_pos hsets
      rw [hrequest] at hpkg ⊢
      have hfirm' : Firm ((lastValue option pkg).or old) := by
        rcases hpkg with hnone | htruthy
        · rw [hnone, Option.none_or]
          exact hold
        · cases hval : lastValue option pkg with
          | none => rwa [Option.none_or]
          | some val =>
            rw [hval] at htruthy
            exact Or.inr htruthy
      rw [packageEffect_of_sets hsets, ih hrest hfirm', if_neg (fun h => h.1 hsets), Option.none_or, Option.or_assoc,
        Option.or_assoc]
    · have hrequest : request config option pkg = none := if_neg hsets
      rw [packageEffect_of_not_sets hsets hold, ih hrest (firm_or hold _), hrequest, Option.or_none, Option.or_assoc]
      simp only [hsets, not_false_eq_true, true_and]

end Requests

/-! ## The output -/

theorem splitAssign_val_ne_nil {word name val : Text} (h : splitAssign word = some (name, val)) : val ≠ [] := by
  induction word generalizing name with
  | nil => cases h
  | cons c cs ih =>
    rw [splitAssign] at h
    split at h
    · rename_i hsep
      cases h
      exact hsep.2
    · obtain ⟨⟨name', val'⟩, hsplit, hpair⟩ := Option.map_eq_some_iff.mp h
      cases hpair
      exact ih hsplit

theorem parseWord_val_ne_nil {word val : Text} (h : (parseWord word).2 = some val) : val ≠ [] := by
  unfold parseWord at h
  split at h
  · cases h
  · split at h
    · rename_i name val' hsplit
      cases h
      exact splitAssign_val_ne_nil hsplit
    · cases h

/-- No package of the build sets an option to `0`. -/
def NoZero (config : List Text) (pkgs : List Package) : Prop :=
  ∀ pkg ∈ pkgs, Enabled config pkg → ∀ word ∈ pkg.kernelConfig, (parseWord word).2 ≠ some ['0']

theorem NoZero.firm {config : List Text} {pkgs : List Package} (h : NoZero config pkgs) (option : Text) :
    ∀ pkg ∈ pkgs, Firm (request config option pkg) := by
  intro pkg hpkg
  unfold request
  split
  · rename_i hsets
    refine run_preserves_mem Firm pkg.kernelConfig (fun last word hword hlast => ?_) (Or.inl rfl)
    split
    · cases hval : (parseWord word).2 with
      | none => exact Or.inr (by decide)
      | some val =>
        exact Or.inr ⟨parseWord_val_ne_nil hval, fun hz => h pkg hpkg hsets.1 word hword (hz ▸ hval)⟩
    · exact hlast
  · exact Or.inl rfl

theorem lookup_overrides_eq {config : List Text} {pkgs : List Package} (h : NoZero config pkgs) (option : Text) :
    (overrides config pkgs).lookup option = (lastRequest config option pkgs).or (fallback config option pkgs) := by
  rw [lookup_overrides, run_packages (h.firm option) (Or.inl rfl), Option.none_or]

theorem mem_output_iff {config : List Text} {pkgs : List Package} {line : Line} :
    line ∈ genKconfigOverrides config pkgs ↔
      ∃ option val, (overrides config pkgs).lookup option = some val ∧ printOption option val = line := by
  have hkeys : ∀ option : Text, option ∈ (overrides config pkgs).keys.insertionSort (· ≤ ·) ↔
      ∃ val, (overrides config pkgs).lookup option = some val := by
    intro option
    rw [(List.perm_insertionSort _ _).mem_iff, ← AList.mem_keys, ← AList.lookup_isSome, Option.isSome_iff_exists]
  rw [genKconfigOverrides, List.mem_map]
  constructor
  · rintro ⟨option, hoption, rfl⟩
    obtain ⟨val, hval⟩ := (hkeys option).mp hoption
    exact ⟨option, val, hval, by rw [hval, Option.getD_some]⟩
  · rintro ⟨option, val, hval, rfl⟩
    exact ⟨option, (hkeys option).mpr ⟨val, hval⟩, by rw [hval, Option.getD_some]⟩

theorem printOption_inj {option option' val val' : Text} (h : printOption option val = printOption option' val') :
    option = option' ∧ val = val' := by
  unfold printOption at h
  split at h <;> split at h <;> cases h
  · rename_i h1 h2
    exact ⟨rfl, h1.trans h2.symm⟩
  · exact ⟨rfl, rfl⟩

/-- The output says what the hash holds, and nothing else. -/
theorem output_eq_iff (config : List Text) (pkgs pkgs' : List Package) :
    genKconfigOverrides config pkgs' = genKconfigOverrides config pkgs ↔
      ∀ option, (overrides config pkgs').lookup option = (overrides config pkgs).lookup option := by
  constructor
  · intro h option
    have hline : ∀ pkgs : List Package, ∀ val, (overrides config pkgs).lookup option = some val ↔
        printOption option val ∈ genKconfigOverrides config pkgs := by
      intro pkgs val
      rw [mem_output_iff]
      constructor
      · exact fun hval => ⟨option, val, hval, rfl⟩
      · rintro ⟨option', val', hval, heq⟩
        obtain ⟨rfl, rfl⟩ := printOption_inj heq
        exact hval
    exact Option.ext fun val => by rw [hline, hline, h]
  · intro h
    have hmem : ∀ option, option ∈ (overrides config pkgs').keys ↔ option ∈ (overrides config pkgs).keys := by
      intro option
      rw [← AList.mem_keys, ← AList.mem_keys, ← AList.lookup_isSome, ← AList.lookup_isSome, h]
    have hperm := (List.perm_ext_iff_of_nodup (overrides config pkgs').keys_nodup
      (overrides config pkgs).keys_nodup).mpr hmem
    have hkeys : (overrides config pkgs').keys.insertionSort (· ≤ ·) =
        (overrides config pkgs).keys.insertionSort (· ≤ ·) := by
      apply List.Perm.eq_of_pairwise' (List.pairwise_insertionSort _ _) (List.pairwise_insertionSort _ _)
      exact ((List.perm_insertionSort _ _).trans hperm).trans (List.perm_insertionSort _ _).symm
    rw [genKconfigOverrides, genKconfigOverrides, hkeys]
    exact List.map_congr_left fun option _ => by rw [h]

/-! ## Orders of the packages -/

/-- The packages of the build that list an option agree on its value. -/
def Agree (config : List Text) (pkgs : List Package) : Prop :=
  ∀ option ≠ notSet, ∀ p ∈ pkgs, ∀ q ∈ pkgs, Enabled config p → Enabled config q → ∀ v w,
    lastValue option p = some v → lastValue option q = some w → v = w

theorem request_eq_some_iff {config : List Text} {option val : Text} {pkg : Package} :
    request config option pkg = some val ↔ Enabled config pkg ∧ option ≠ notSet ∧ lastValue option pkg = some val := by
  by_cases h : Sets config option pkg
  · rw [request, if_pos h, ← and_assoc]
    exact (and_iff_right h).symm
  · rw [request, if_neg h, ← and_assoc]
    exact iff_of_false (fun hval => by cases hval) (fun hand => h hand.1)

theorem NoZero.perm {config : List Text} {pkgs pkgs' : List Package} (h : NoZero config pkgs) (hperm : pkgs'.Perm pkgs) :
    NoZero config pkgs' := fun pkg hpkg => h pkg (hperm.mem_iff.mp hpkg)

theorem lastRequest_perm {config : List Text} {pkgs pkgs' : List Package} (hagree : Agree config pkgs)
    (hperm : pkgs'.Perm pkgs) (option : Text) : lastRequest config option pkgs' = lastRequest config option pkgs := by
  cases hval : lastRequest config option pkgs with
  | none =>
    by_contra hne
    obtain ⟨val', hval'⟩ := Option.ne_none_iff_exists'.mp hne
    obtain ⟨q, hq, hrequest⟩ := lastRequest_eq_some hval'
    exact lastRequest_ne_none (hperm.mem_iff.mp hq) (by rw [hrequest]; exact Option.some_ne_none _) hval
  | some val =>
    obtain ⟨p, hp, hpval⟩ := lastRequest_eq_some hval
    have hne := lastRequest_ne_none (hperm.mem_iff.mpr hp) (by rw [hpval]; exact Option.some_ne_none _)
    obtain ⟨val', hval'⟩ := Option.ne_none_iff_exists'.mp hne
    obtain ⟨q, hq, hqval⟩ := lastRequest_eq_some hval'
    obtain ⟨hpe, hoption, hpv⟩ := request_eq_some_iff.mp hpval
    obtain ⟨hqe, -, hqv⟩ := request_eq_some_iff.mp hqval
    rw [hval', hagree option hoption q (hperm.mem_iff.mp hq) p hp hqe hpe val' val hqv hpv]

/-- A package can come last. -/
theorem exists_perm_concat {pkgs : List Package} {pkg : Package} (h : pkg ∈ pkgs) :
    ∃ pkgs', (pkgs' ++ [pkg]).Perm pkgs := by
  obtain ⟨before, after, rfl⟩ := List.append_of_mem h
  exact ⟨before ++ after, (List.perm_append_singleton pkg _).trans List.perm_middle.symm⟩

theorem agree_of_invariant {config : List Text} {pkgs : List Package} (hzero : NoZero config pkgs)
    (h : ∀ pkgs' : List Package, pkgs'.Perm pkgs → genKconfigOverrides config pkgs' = genKconfigOverrides config pkgs) :
    Agree config pkgs := by
  have hlast : ∀ option ≠ notSet, ∀ p ∈ pkgs, Enabled config p → ∀ v, lastValue option p = some v →
      (overrides config pkgs).lookup option = some v := by
    intro option hoption p hp hpe v hv
    obtain ⟨pkgs', hperm⟩ := exists_perm_concat hp
    have hsame := (output_eq_iff config pkgs (pkgs' ++ [p])).mp (h _ hperm) option
    rw [← hsame, lookup_overrides_eq (hzero.perm hperm), lastRequest_concat,
      request_eq_some_iff.mpr ⟨hpe, hoption, hv⟩, Option.some_or, Option.some_or]
  intro option hoption p hp q hq hpe hqe v w hv hw
  exact Option.some.inj ((hlast option hoption p hp hpe v hv).symm.trans (hlast option hoption q hq hqe w hw))

theorem invariant_of_agree {config : List Text} {pkgs : List Package} (hzero : NoZero config pkgs)
    (hagree : Agree config pkgs) {pkgs' : List Package} (hperm : pkgs'.Perm pkgs) :
    genKconfigOverrides config pkgs' = genKconfigOverrides config pkgs := by
  rw [output_eq_iff]
  intro option
  rw [lookup_overrides_eq (hzero.perm hperm), lookup_overrides_eq hzero, lastRequest_perm hagree hperm, fallback_perm hperm]

/-- The package lists the option. -/
def Lists (option : Text) (pkg : Package) : Prop := lastValue option pkg ≠ none

instance (option : Text) (pkg : Package) : Decidable (Lists option pkg) := inferInstanceAs (Decidable (_ ≠ none))

theorem not_set_iff {config : List Text} {pkgs : List Package} (hzero : NoZero config pkgs) {option : Text} :
    Line.unset option ∈ genKconfigOverrides config pkgs ↔
      (lastRequest config option pkgs).or (fallback config option pkgs) = some notSet := by
  rw [mem_output_iff, ← lookup_overrides_eq hzero]
  constructor
  · rintro ⟨option', val, hval, hline⟩
    unfold printOption at hline
    split at hline
    · rename_i hn
      cases hline
      rw [hval, hn]
    · cases hline
  · exact fun h => ⟨option, notSet, h, if_pos rfl⟩

theorem printOption_option (option val : Text) : (printOption option val).option = option := by
  unfold printOption
  split <;> rfl

/-- The output has one line for an option that is in the hash. -/
theorem mem_output_option_iff {config : List Text} {pkgs : List Package} {option val : Text}
    (h : (overrides config pkgs).lookup option = some val) (line : Line) :
    line ∈ genKconfigOverrides config pkgs ∧ line.option = option ↔ line = printOption option val := by
  rw [mem_output_iff]
  constructor
  · rintro ⟨⟨option', val', hval, rfl⟩, heq⟩
    rw [printOption_option] at heq
    subst heq
    rw [Option.some.inj (hval.symm.trans h)]
  · rintro rfl
    exact ⟨⟨option, val, h, rfl⟩, printOption_option option val⟩

/-- No package of the build sets an option to `0`, which the code takes for no value, or to `n`. -/
def Plain (config : List Text) (pkgs : List Package) : Prop :=
  ∀ pkg ∈ pkgs, Enabled config pkg → ∀ word ∈ pkg.kernelConfig,
    (parseWord word).2 ≠ some ['0'] ∧ (parseWord word).2 ≠ some notSet

section Plain
variable {config : List Text} {pkgs : List Package}

theorem Plain.noZero (h : Plain config pkgs) : NoZero config pkgs :=
  fun pkg hpkg henabled word hword => (h pkg hpkg henabled word hword).1

theorem Plain.lastValue_ne (h : Plain config pkgs) {pkg : Package} (hpkg : pkg ∈ pkgs) (henabled : Enabled config pkg)
    (option : Text) : lastValue option pkg ≠ some notSet := by
  refine run_preserves_mem (fun last => last ≠ some notSet) pkg.kernelConfig (fun last word hword hlast => ?_) (by simp)
  split
  · cases hval : (parseWord word).2 with
    | none => decide
    | some val =>
      intro hn
      exact (h pkg hpkg henabled word hword).2 (hval.trans hn)
  · exact hlast

theorem Plain.lastRequest_ne (h : Plain config pkgs) (option : Text) :
    lastRequest config option pkgs ≠ some notSet := by
  intro hlast
  obtain ⟨pkg, hpkg, hrequest⟩ := lastRequest_eq_some hlast
  obtain ⟨henabled, -, hvalue⟩ := request_eq_some_iff.mp hrequest
  exact h.lastValue_ne hpkg henabled option hvalue

end Plain

/-- The package of the build that lists an option last, in the order of the packages. -/
theorem lastRequest_of_last {config : List Text} {option val : Text} {before after : List Package} {pkg : Package}
    (hoption : option ≠ notSet) (henabled : Enabled config pkg) (hval : lastValue option pkg = some val)
    (hafter : ∀ q ∈ after, Enabled config q → ¬Lists option q) :
    lastRequest config option (before ++ pkg :: after) = some val := by
  have hrest : lastRequest config option after = none := by
    by_contra hne
    obtain ⟨val', hval'⟩ := Option.ne_none_iff_exists'.mp hne
    obtain ⟨q, hq, hrequest⟩ := lastRequest_eq_some hval'
    obtain ⟨hqe, -, hqv⟩ := request_eq_some_iff.mp hrequest
    exact hafter q hq hqe (by rw [Lists, hqv]; exact Option.some_ne_none _)
  rw [lastRequest_append, lastRequest_cons, hrest, Option.none_or, request_eq_some_iff.mpr ⟨henabled, hoption, hval⟩,
    Option.some_or]

def onePackage (name word : String) : Package := ⟨name.toList, [word.toList]⟩

def bothEnabled : List Text := ["CONFIG_PACKAGE_a".toList, "CONFIG_PACKAGE_b".toList]

end Neufbox.Packages.KconfigOverrides
