import Mathlib.Data.List.AList
import Neufbox.Library.RunAlong

/-! # Kernel configurations

`kconfig.pl` works on hashes from option names to values. The loops over the keys of a hash take them in an
order that Perl does not say; here it is the order of the list, whatever that is. -/
namespace Neufbox.Kconfig
open RunAlong
set_option autoImplicit false
set_option maxHeartbeats 250000
set_option maxRecDepth 120000

abbrev Name := List Char
abbrev Value := List Char
abbrev Config := AList fun _ : Name => Value

def yes : Value := ['y']
def no : Value := ['n']
def undef : Value := ['#', 'u', 'n', 'd', 'e', 'f']

/-- The strings that are true for Perl. -/
def Truthy (v : Value) : Prop := v ≠ [] ∧ v ≠ ['0']

instance Truthy.decidable (v : Value) : Decidable (Truthy v) := inferInstanceAs (Decidable (v ≠ [] ∧ v ≠ ['0']))

/-! ## The operations -/

/-- `$config{name} = val`, where the name is a key of the hash that `val` comes from. -/
def assign (config : Config) (name : Name) : Option Value → Config
  | some val => config.insert name val
  | none => config

def configAnd (cfg1 cfg2 : Config) : Config :=
  runSteps (fun config name =>
    if (∃ val ∈ cfg2.lookup name, Truthy val) ∧ cfg1.lookup name = cfg2.lookup name then
      assign config name (cfg1.lookup name)
    else config) ∅ cfg1.keys

/-- The loop of `config_add` over one of its operands. -/
def addTo (modPlus : Bool) (config cfg : Config) : Config :=
  runSteps (fun config name =>
    if modPlus ∧ config.lookup name = some yes then config else assign config name (cfg.lookup name)) config cfg.keys

def configAdd (cfg1 cfg2 : Config) (modPlus : Bool) : Config := [cfg1, cfg2].foldl (addTo modPlus) ∅

def configDiff (cfg1 cfg2 : Config) : Config :=
  runSteps (fun config name =>
    if cfg1.lookup name = none ∨ cfg1.lookup name ≠ cfg2.lookup name then assign config name (cfg2.lookup name)
    else config) ∅ cfg2.keys

def configSub (cfg1 cfg2 : Config) : Config := runSteps (fun config name => config.erase name) cfg1 cfg2.keys

/-! ## What they make of an option -/

theorem mem_keys_iff (cfg : Config) (name : Name) : name ∈ cfg.keys ↔ cfg.lookup name ≠ none := by
  rw [← AList.mem_keys, ← AList.lookup_isSome, Option.isSome_iff_ne_none]

theorem lookup_assign_self (config : Config) (name : Name) (val : Option Value) :
    (assign config name val).lookup name = val.or (config.lookup name) := by
  cases val with
  | none => rfl
  | some val => exact AList.lookup_insert config

theorem lookup_assign_other (config : Config) {name j : Name} (h : j ≠ name) (val : Option Value) :
    (assign config name val).lookup j = config.lookup j := by
  cases val with
  | none => rfl
  | some val => exact AList.lookup_insert_ne h

/-- A loop over the keys of `cfg` that assigns what `cfg` says, where the old value of the option allows it. -/
theorem lookup_loop (P : Name → Option Value → Prop) [∀ name, DecidablePred (P name)] (config cfg : Config) (name : Name) :
    (runSteps (fun config name =>
      if P name (config.lookup name) then assign config name (cfg.lookup name) else config) config cfg.keys).lookup name =
    if P name (config.lookup name) then (cfg.lookup name).or (config.lookup name) else config.lookup name := by
  have hother : ∀ (config : Config) (name j : Name), j ≠ name → (if P name (config.lookup name) then
      assign config name (cfg.lookup name) else config).lookup j = config.lookup j := by
    intro config name j hj
    split
    · exact lookup_assign_other config hj _
    · rfl
  have hself : ∀ (config : Config) (name : Name), (if P name (config.lookup name) then
      assign config name (cfg.lookup name) else config).lookup name = if P name (config.lookup name) then
      (cfg.lookup name).or (config.lookup name) else config.lookup name := by
    intro config name
    split
    · exact lookup_assign_self config name _
    · rfl
  rw [@runSteps_view_map _ _ _ _ (fun config name => config.lookup name) _
    (fun name old => if P name old then (cfg.lookup name).or old else old) hother hself config _ cfg.keys_nodup name]
  split
  · rfl
  · rename_i hmem
    rw [mem_keys_iff, not_not] at hmem
    rw [hmem]
    exact (ite_self _).symm

theorem lookup_configAnd (cfg1 cfg2 : Config) (name : Name) : (configAnd cfg1 cfg2).lookup name =
    if (∃ val ∈ cfg2.lookup name, Truthy val) ∧ cfg1.lookup name = cfg2.lookup name then cfg1.lookup name else none := by
  rw [configAnd, lookup_loop (fun name _ => (∃ val ∈ cfg2.lookup name, Truthy val) ∧ cfg1.lookup name = cfg2.lookup name),
    AList.lookup_empty, Option.or_none]

theorem lookup_addTo (modPlus : Bool) (config cfg : Config) (name : Name) : (addTo modPlus config cfg).lookup name =
    if modPlus ∧ config.lookup name = some yes then config.lookup name
    else (cfg.lookup name).or (config.lookup name) := by
  have hloop := lookup_loop (fun _ old => ¬(modPlus ∧ old = some yes)) config cfg name
  simp only [ite_not] at hloop
  exact hloop

theorem lookup_configAdd (cfg1 cfg2 : Config) (modPlus : Bool) (name : Name) :
    (configAdd cfg1 cfg2 modPlus).lookup name =
      if modPlus ∧ cfg1.lookup name = some yes then cfg1.lookup name
      else (cfg2.lookup name).or (cfg1.lookup name) := by
  have hfirst : (addTo modPlus ∅ cfg1).lookup name = cfg1.lookup name := by
    rw [lookup_addTo, AList.lookup_empty, if_neg (fun h => Option.some_ne_none _ h.2.symm), Option.or_none]
  show (addTo modPlus (addTo modPlus ∅ cfg1) cfg2).lookup name = _
  rw [lookup_addTo, hfirst]

theorem lookup_configDiff (cfg1 cfg2 : Config) (name : Name) : (configDiff cfg1 cfg2).lookup name =
    if cfg1.lookup name = cfg2.lookup name then none else cfg2.lookup name := by
  rw [configDiff, lookup_loop (fun name _ => cfg1.lookup name = none ∨ cfg1.lookup name ≠ cfg2.lookup name),
    AList.lookup_empty, Option.or_none]
  by_cases h : cfg1.lookup name = cfg2.lookup name
  · rw [if_pos h]
    split
    · rename_i hor
      rcases hor with hnone | hne
      · rw [← h, hnone]
      · exact absurd h hne
    · rfl
  · rw [if_neg h, if_pos (Or.inr h)]

theorem lookup_configSub (cfg1 cfg2 : Config) (name : Name) : (configSub cfg1 cfg2).lookup name =
    if cfg2.lookup name = none then cfg1.lookup name else none := by
  rw [configSub, @runSteps_view_map _ _ _ _ (fun config name => AList.lookup name config) _ (fun _ _ => none)
    (fun config name j hj => AList.lookup_erase_ne hj) (fun config name => AList.lookup_erase name config) cfg1 _
    cfg2.keys_nodup name]
  simp only [mem_keys_iff, ite_not, ne_eq]

/-! ## Intersections -/

def zero : Value := ['0']

/-- No option is set to the empty string. -/
def Nonempty (cfg : Config) : Prop := ∀ name, cfg.lookup name ≠ some []

/-- The same keys with the same values. -/
def SameOptions (cfg1 cfg2 : Config) : Prop := ∀ name, cfg1.lookup name = cfg2.lookup name

/-- `cfg` has the options that `cfg1` and `cfg2` give the same value, and no others. -/
def IsIntersection (cfg1 cfg2 cfg : Config) : Prop :=
  ∀ name val, cfg.lookup name = some val ↔ cfg1.lookup name = some val ∧ cfg2.lookup name = some val

theorem lookup_configAnd_eq_some {cfg1 cfg2 : Config} {name : Name} {val : Value} :
    (configAnd cfg1 cfg2).lookup name = some val ↔
      Truthy val ∧ cfg1.lookup name = some val ∧ cfg2.lookup name = some val := by
  rw [lookup_configAnd]
  constructor
  · intro h
    split at h
    · rename_i hboth
      obtain ⟨⟨val2, hval2, htruthy⟩, heq⟩ := hboth
      have hsecond : cfg2.lookup name = some val := heq ▸ h
      rw [Option.mem_def, hsecond, Option.some.injEq] at hval2
      exact ⟨hval2 ▸ htruthy, h, hsecond⟩
    · cases h
  · rintro ⟨htruthy, h1, h2⟩
    rw [if_pos ⟨⟨val, h2, htruthy⟩, h1.trans h2.symm⟩, h1]

theorem truthy_or_zero {cfg : Config} (hcfg : Nonempty cfg) {name : Name} {val : Value}
    (h : cfg.lookup name = some val) : Truthy val ∨ val = zero := by
  by_cases hz : val = zero
  · exact Or.inr hz
  · exact Or.inl ⟨fun hnil => hcfg name (hnil ▸ h), hz⟩

theorem configAnd_isIntersection_iff {cfg1 : Config} (cfg2 : Config) (hcfg : Nonempty cfg1) :
    IsIntersection cfg1 cfg2 (configAnd cfg1 cfg2) ↔
      ¬∃ name, cfg1.lookup name = some zero ∧ cfg2.lookup name = some zero := by
  constructor
  · rintro h ⟨name, hboth⟩
    exact (lookup_configAnd_eq_some.mp ((h name zero).mpr hboth)).1.2 rfl
  · intro h name val
    rw [lookup_configAnd_eq_some]
    refine ⟨And.right, fun hboth => ⟨?_, hboth⟩⟩
    rcases truthy_or_zero hcfg hboth.1 with htruthy | hz
    · exact htruthy
    · exact absurd ⟨name, hz ▸ hboth⟩ h

theorem sameOptions_of_forall_some {cfg1 cfg2 : Config}
    (h : ∀ name val, cfg1.lookup name = some val ↔ cfg2.lookup name = some val) : SameOptions cfg1 cfg2 :=
  fun name => Option.ext fun val => h name val

theorem configAnd_comm (cfg1 cfg2 : Config) : SameOptions (configAnd cfg1 cfg2) (configAnd cfg2 cfg1) := by
  apply sameOptions_of_forall_some
  intro name val
  rw [lookup_configAnd_eq_some, lookup_configAnd_eq_some]
  exact and_congr_right fun _ => And.comm

theorem configAnd_self_iff {cfg : Config} (hcfg : Nonempty cfg) :
    SameOptions (configAnd cfg cfg) cfg ↔ ¬∃ name, cfg.lookup name = some zero := by
  have hself : SameOptions (configAnd cfg cfg) cfg ↔ IsIntersection cfg cfg (configAnd cfg cfg) := by
    constructor
    · intro h name val
      rw [h name, and_self]
    · intro h
      exact sameOptions_of_forall_some fun name val => (h name val).trans (and_self_iff)
  rw [hself, configAnd_isIntersection_iff cfg hcfg]
  simp only [and_self]

/-- What an intersection lacks of its first operand is what `config_diff` finds. -/
theorem configAdd_configAnd_configDiff (cfg1 cfg2 : Config) :
    SameOptions (configAdd (configAnd cfg1 cfg2) (configDiff (configAnd cfg1 cfg2) cfg1) false) cfg1 := by
  intro name
  rw [lookup_configAdd, if_neg (fun h => Bool.false_ne_true h.1), lookup_configDiff]
  split
  · rename_i heq
    rw [Option.none_or, heq]
  · rename_i hne
    cases h1 : cfg1.lookup name with
    | some val => rfl
    | none =>
      rw [lookup_configAnd, h1, ite_self] at hne
      exact absurd rfl hne

/-- `config_and` is the intersection exactly where no option is `0` in both configurations; the other laws do not
see the options that it misses, except idempotence. -/
theorem config_and_laws (cfg1 cfg2 : Config) (hcfg : Nonempty cfg1) :
    (IsIntersection cfg1 cfg2 (configAnd cfg1 cfg2) ↔
        ¬∃ name, cfg1.lookup name = some zero ∧ cfg2.lookup name = some zero) ∧
      (SameOptions (configAnd cfg1 cfg1) cfg1 ↔ ¬∃ name, cfg1.lookup name = some zero) ∧
      SameOptions (configAnd cfg1 cfg2) (configAnd cfg2 cfg1) ∧
      SameOptions (configAdd (configAnd cfg1 cfg2) (configDiff (configAnd cfg1 cfg2) cfg1) false) cfg1 :=
  ⟨configAnd_isIntersection_iff cfg2 hcfg, configAnd_self_iff hcfg, configAnd_comm cfg1 cfg2,
    configAdd_configAnd_configDiff cfg1 cfg2⟩

/-- The configuration with the one line `CONFIG_A=val`. -/
def oneOption (val : Value) : Config := AList.insert ['A'] val ∅

theorem lookup_oneOption_other (val : Value) {name : Name} (h : name ≠ ['A']) : (oneOption val).lookup name = none := by
  rw [oneOption, AList.lookup_insert_ne h, AList.lookup_empty]

theorem oneOption_nonempty {val : Value} (h : val ≠ []) : Nonempty (oneOption val) := by
  intro name hname
  by_cases hA : name = ['A']
  · rw [hA, oneOption, AList.lookup_insert] at hname
    exact h (Option.some.inj hname)
  · rw [lookup_oneOption_other val hA] at hname
    cases hname

/-- The configuration with the lines `CONFIG_A=y` and `CONFIG_B=val`. -/
def twoOptions (val : Value) : Config := AList.insert ['B'] val (oneOption yes)

theorem lookup_twoOptions (val : Value) (name : Name) :
    (twoOptions val).lookup name = if name = ['B'] then some val else if name = ['A'] then some yes else none := by
  rw [twoOptions]
  split
  · next h => rw [h, AList.lookup_insert]
  · next h =>
    rw [AList.lookup_insert_ne h]
    split
    · next hA => rw [hA, oneOption, AList.lookup_insert]
    · next hA => exact lookup_oneOption_other yes hA

/-- Two configurations agree on one of their two options. -/
theorem config_and_laws_yes :
    IsIntersection (twoOptions ['m']) (twoOptions yes) (configAnd (twoOptions ['m']) (twoOptions yes)) ∧
      SameOptions (configAnd (twoOptions ['m']) (twoOptions ['m'])) (twoOptions ['m']) ∧
      SameOptions (configAnd (twoOptions ['m']) (twoOptions yes)) (configAnd (twoOptions yes) (twoOptions ['m'])) ∧
      SameOptions (configAdd (configAnd (twoOptions ['m']) (twoOptions yes))
        (configDiff (configAnd (twoOptions ['m']) (twoOptions yes)) (twoOptions ['m'])) false) (twoOptions ['m']) := by
  have hvalue : ∀ name val, (twoOptions ['m']).lookup name = some val → val = ['m'] ∨ val = yes := by
    intro name val h
    rw [lookup_twoOptions] at h
    split at h
    · exact Or.inl (Option.some.inj h).symm
    · split at h
      · exact Or.inr (Option.some.inj h).symm
      · cases h
  have hnonempty : Nonempty (twoOptions ['m']) := fun name h => by
    rcases hvalue name _ h with h | h
    · cases h
    · cases h
  have hzero : ¬∃ name, (twoOptions ['m']).lookup name = some zero := by
    rintro ⟨name, h⟩
    rcases hvalue name _ h with h | h
    · exact absurd h (by decide)
    · exact absurd h (by decide)
  obtain ⟨hand, hself, hcomm, hback⟩ := config_and_laws (twoOptions ['m']) (twoOptions yes) hnonempty
  exact ⟨hand.mpr fun ⟨name, h, _⟩ => hzero ⟨name, h⟩, hself.mpr hzero, hcomm, hback⟩

theorem config_and_misses_zero :
    Nonempty (oneOption zero) ∧
      ¬IsIntersection (oneOption zero) (oneOption zero) (configAnd (oneOption zero) (oneOption zero)) ∧
      ¬SameOptions (configAnd (oneOption zero) (oneOption zero)) (oneOption zero) := by
  refine ⟨oneOption_nonempty (List.cons_ne_nil _ _), fun h => ?_, fun h => ?_⟩
  · exact absurd ((h ['A'] zero).mpr ⟨by decide, by decide⟩) (by decide)
  · exact absurd (h ['A']) (by decide)

end Neufbox.Kconfig
