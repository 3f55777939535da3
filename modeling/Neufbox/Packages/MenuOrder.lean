import Neufbox.Packages.Menus

/-! # When a submenu is in order

The search finds what is reached through entries as they are written. Where that is all that is reached, the order
of a submenu is right when no package stands by its name between two others that depend on each other; otherwise
the comparison is not one by which a list can be sorted. -/
namespace Neufbox.Packages.Menus
open Relation Seek Comparator
set_option autoImplicit false
set_option maxHeartbeats 250000
set_option maxRecDepth 120000

/-! ## The search -/

theorem behindEntry_subset (env : PackageSet) (dep : Text) : ∀ dep' ∈ behindEntry env dep, dep' ∈ depEntries env := by
  intro dep' hdep'
  rw [behindEntry] at hdep'
  cases hlookup : env.package.lookup dep with
  | none =>
    rw [hlookup] at hdep'
    cases hdep'
  | some pkg =>
    rw [hlookup] at hdep'
    exact List.mem_flatMap.mpr ⟨⟨dep, pkg⟩, AList.mem_lookup_iff.mp hlookup, hdep'⟩

/-- The search always ends, with what the entries lead to. -/
theorem findPackageDep_returns (env : PackageSet) (pkg : Pkg) (name : Text) :
    ∃ b, findPackageDep env pkg name = some b ∧ (b = true ↔ RawReaches env pkg name) := by
  refine seek_iff (V := (pkg.deps ++ depEntries env).toFinset) ?_ ?_ ?_
  · intro v _ w hw
    rw [List.mem_toFinset]
    exact List.mem_append_right _ (behindEntry_subset env v w hw)
  · intro v hv
    rw [List.mem_toFinset]
    exact List.mem_append_left _ hv
  · exact Nat.lt_succ_of_le (List.toFinset_card_le _)

theorem findPackageDep_iff (env : PackageSet) (pkg : Pkg) (name : Text) :
    findPackageDep env pkg name = some true ↔ RawReaches env pkg name := by
  obtain ⟨b, hfind, hb⟩ := findPackageDep_returns env pkg name
  rw [hfind, ← hb, Option.some.injEq]

/-! ## Dependencies between packages -/

section Dependencies
variable {env : PackageSet}

def Defined (env : PackageSet) (pkg : Pkg) : Prop := env.package.lookup pkg.name = some pkg

theorem Reaches.trans {a b : Pkg} {name : Text} (hb : Defined env b) (hab : Reaches env a b.name) (h : Reaches env b name) :
    Reaches env a name := by
  obtain ⟨target, htarget, hpath⟩ := hab
  obtain ⟨target', htarget', hpath'⟩ := h
  have hstep : Behind (behindName env) b.name target' := by
    rw [Behind, behindName, show env.package.lookup b.name = some b from hb]
    exact htarget'
  exact ⟨target, htarget, hpath.trans (ReflTransGen.head hstep hpath')⟩

theorem Acyclic.irrefl (hacyclic : Acyclic env) {a : Pkg} (ha : Defined env a) : ¬Reaches env a a.name :=
  hacyclic a.name a ha

/-- The dependencies that are compared. -/
def DependsOn (env : PackageSet) (a b : Pkg) : Prop := a.SameSubmenu b ∧ Reaches env a b.name

theorem DependsOn.asymm (hacyclic : Acyclic env) {a b : Pkg} (ha : Defined env a) (hb : Defined env b)
    (h : DependsOn env a b) : ¬DependsOn env b a := fun h' => hacyclic.irrefl ha (h.2.trans hb h'.2)

theorem DependsOn.trans {a b c : Pkg} (hb : Defined env b) (h : DependsOn env a b) (h' : DependsOn env b c) :
    DependsOn env a c := ⟨Eq.trans h.1 h'.1, h.2.trans hb h'.2⟩

theorem Defined.eq_of_name {a b : Pkg} (ha : Defined env a) (hb : Defined env b) (h : a.name = b.name) : a = b := by
  rw [Defined, h] at ha
  exact Option.some.inj (ha.symm.trans hb)

end Dependencies

/-! ## The comparison -/

theorem compareText_pos (a b : Text) : 0 < compareText a b ↔ b < a := by
  rw [compareText]
  split
  · next h => simp [h.not_gt]
  · split
    · next h => simp [h]
    · next h => simp [h]

theorem compareText_neg (a b : Text) : compareText a b < 0 ↔ a < b := by
  rw [compareText]
  split
  · next h => simp [h]
  · next h =>
    split
    · simp [h]
    · simp [h]

section Comparison
variable {env : PackageSet} (hacyclic : Acyclic env) {a b : Pkg} (ha : Defined env a) (hb : Defined env b)
  (hab : Reaches env a b.name ↔ RawReaches env a b.name) (hba : Reaches env b a.name ↔ RawReaches env b a.name)
include hacyclic ha hb hab hba

theorem comparePackages_cases :
    (DependsOn env a b ∧ ¬DependsOn env b a ∧ comparePackages env a b = 1) ∨
      (DependsOn env b a ∧ ¬DependsOn env a b ∧ comparePackages env a b = -1) ∨
      (¬DependsOn env a b ∧ ¬DependsOn env b a ∧ comparePackages env a b = compareText a.name b.name) := by
  rw [comparePackages, packageDepends]
  by_cases hsame : a.SameSubmenu b
  · have hsame' : b.SameSubmenu a := Eq.symm hsame
    rw [if_neg (not_not.mpr hsame)]
    by_cases hfind : findPackageDep env a b.name = some true
    · have hdep : DependsOn env a b := ⟨hsame, hab.mpr ((findPackageDep_iff _ _ _).mp hfind)⟩
      exact Or.inl ⟨hdep, hdep.asymm hacyclic ha hb, by rw [if_pos hfind]; rfl⟩
    · have hnot : ¬DependsOn env a b := fun hdep => hfind ((findPackageDep_iff _ _ _).mpr (hab.mp hdep.2))
      rw [if_neg hfind]
      by_cases hfind' : findPackageDep env b a.name = some true
      · have hdep : DependsOn env b a := ⟨hsame', hba.mpr ((findPackageDep_iff _ _ _).mp hfind')⟩
        exact Or.inr (Or.inl ⟨hdep, hnot, by rw [if_pos hfind']; rfl⟩)
      · have hnot' : ¬DependsOn env b a := fun hdep => hfind' ((findPackageDep_iff _ _ _).mpr (hba.mp hdep.2))
        exact Or.inr (Or.inr ⟨hnot, hnot', by rw [if_neg hfind']; rfl⟩)
  · have hnot : ¬DependsOn env a b := fun hdep => hsame hdep.1
    have hnot' : ¬DependsOn env b a := fun hdep => hsame (Eq.symm hdep.1)
    rw [if_pos hsame]
    exact Or.inr (Or.inr ⟨hnot, hnot', rfl⟩)

theorem comparePackages_pos : 0 < comparePackages env a b ↔ After (DependsOn env) Pkg.name a b := by
  rw [After]
  rcases comparePackages_cases hacyclic ha hb hab hba with ⟨h, -, hcmp⟩ | ⟨h, hnot, hcmp⟩ | ⟨hnot, hnot', hcmp⟩
  · simp [hcmp, h]
  · simp [hcmp, h, hnot]
  · rw [hcmp, compareText_pos]
    simp [hnot, hnot']

theorem comparePackages_neg : comparePackages env a b < 0 ↔ After (DependsOn env) Pkg.name b a := by
  rw [After]
  rcases comparePackages_cases hacyclic ha hb hab hba with ⟨h, hnot, hcmp⟩ | ⟨h, -, hcmp⟩ | ⟨hnot, hnot', hcmp⟩
  · simp [hcmp, h, hnot]
  · simp [hcmp, h]
  · rw [hcmp, compareText_neg]
    simp [hnot, hnot']

end Comparison

/-! ## Submenus -/

def InMenu (spkg : AList fun _ : Text => List Pkg) (menu : Text) (pkg : Pkg) : Prop :=
  (∃ src ∈ spkg.entries, pkg ∈ src.2) ∧ pkg.buildonly = false ∧ pkg.menu = menu

theorem mem_menuPackages (spkg : AList fun _ : Text => List Pkg) (menu : Text) (pkg : Pkg) :
    pkg ∈ menuPackages spkg menu ↔ InMenu spkg menu pkg := by
  rw [menuPackages, List.mem_filter, List.mem_flatMap, decide_eq_true_iff, InMenu]
  refine and_congr_left fun _ => ?_
  constructor
  · rintro ⟨src, -, hpkg⟩
    cases hlookup : spkg.lookup src with
    | none =>
      rw [hlookup] at hpkg
      cases hpkg
    | some pkgs =>
      rw [hlookup] at hpkg
      exact ⟨⟨src, pkgs⟩, AList.mem_lookup_iff.mp hlookup, hpkg⟩
  · rintro ⟨⟨src, pkgs⟩, hsrc, hpkg⟩
    have hlookup : spkg.lookup src = some pkgs := AList.mem_lookup_iff.mpr hsrc
    refine ⟨src, (mem_sort _ _ _).mpr (AList.mem_keys.mpr (AList.lookup_isSome.mp ?_)), ?_⟩
    · rw [hlookup]
      rfl
    · rw [hlookup]
      exact hpkg

/-- Dependencies between different submenus of one list agree with the names, and no package stands between two
others, one of which depends on the other. -/
structure Unmixed (env : PackageSet) (M : Set Pkg) : Prop where
  compared : ∀ a ∈ M, ∀ c ∈ M, Reaches env a c.name → a.SameSubmenu c ∨ c.name < a.name
  between : NoneBetween (DependsOn env) Pkg.name M

/-- No package is listed before another one that it depends on. -/
def Ordered (env : PackageSet) (pkgs : List Pkg) : Prop := pkgs.Pairwise fun a b => ¬Reaches env a b.name

section Submenu
variable {env : PackageSet} (hacyclic : Acyclic env) {spkg : AList fun _ : Text => List Pkg} {menu : Text}
  (hdefined : ∀ a, InMenu spkg menu a → Defined env a)
  (hraw : ∀ a, InMenu spkg menu a → ∀ b, InMenu spkg menu b → (Reaches env a b.name ↔ RawReaches env a b.name))
include hacyclic hdefined hraw

theorem consistent_menu_iff : Consistent (comparePackages env) (menuPackages spkg menu) ↔
    NoneBetween (DependsOn env) Pkg.name {pkg | InMenu spkg menu pkg} := by
  have hmem := mem_menuPackages spkg menu
  have hset : {pkg | pkg ∈ menuPackages spkg menu} = {pkg | InMenu spkg menu pkg} := Set.ext hmem
  rw [← hset]
  refine consistent_iff (fun a _ b hb c _ h h' => h.trans (hdefined b ((hmem b).mp hb)) h')
    (fun a ha b hb h => (hdefined a ((hmem a).mp ha)).eq_of_name (hdefined b ((hmem b).mp hb)) h)
    (fun a ha b hb => ?_) (fun a ha b hb => ?_)
  · rw [hmem] at ha hb
    exact comparePackages_pos hacyclic (hdefined a ha) (hdefined b hb) (hraw a ha b hb) (hraw b hb a ha)
  · rw [hmem] at ha hb
    exact comparePackages_neg hacyclic (hdefined a ha) (hdefined b hb) (hraw a ha b hb) (hraw b hb a ha)

theorem menuOrder_ordered (hunmixed : Unmixed env {pkg | InMenu spkg menu pkg}) :
    Ordered env (menuOrder env spkg menu) := by
  have hmem := mem_menuPackages spkg menu
  refine pairwise_of_pos ((consistent_menu_iff hacyclic hdefined hraw).mpr hunmixed.between)
    fun a ha c hc hle hreach => ?_
  rw [hmem] at ha hc
  have hafter : After (DependsOn env) Pkg.name a c := by
    rcases hunmixed.compared a ha c hc hreach with hsame | hname
    · exact Or.inl ⟨hsame, hreach⟩
    · exact Or.inr ⟨fun hdep => hacyclic.irrefl (hdefined a ha) (hreach.trans (hdefined c hc) hdep.2), hname⟩
  have hpos := (comparePackages_pos hacyclic (hdefined a ha) (hdefined c hc) (hraw a ha c hc) (hraw c hc a ha)).mpr hafter
  exact absurd hle (not_le.mpr hpos)

theorem unmixed_of_ordered (hcons : Consistent (comparePackages env) (menuPackages spkg menu))
    (hordered : Ordered env (menuOrder env spkg menu)) : Unmixed env {pkg | InMenu spkg menu pkg} := by
  have hmem := mem_menuPackages spkg menu
  refine ⟨fun a ha c hc hreach => ?_, (consistent_menu_iff hacyclic hdefined hraw).mp hcons⟩
  by_contra hnot
  obtain ⟨hsame, hname⟩ := not_or.mp hnot
  have hne : a.name ≠ c.name := by
    intro heq
    rw [← heq] at hreach
    exact hacyclic.irrefl (hdefined a ha) hreach
  have hafter : After (DependsOn env) Pkg.name c a :=
    Or.inr ⟨fun hdep => hsame hdep.1, lt_of_le_of_ne (not_lt.mp hname) hne⟩
  have hneg := (comparePackages_neg hacyclic (hdefined a ha) (hdefined c hc) (hraw a ha c hc) (hraw c hc a ha)).mpr hafter
  exact of_neg hcons hordered ((hmem a).mpr ha) ((hmem c).mpr hc) hneg hreach

end Submenu

/-- Where each package has a higher rank than what it names, there are no cycles. -/
theorem acyclic_of_rank (env : PackageSet) (rank : Text → ℕ)
    (hrank : ∀ e ∈ env.package.entries, ∀ target ∈ e.2.targets, rank target < rank e.2.name)
    (hname : ∀ e ∈ env.package.entries, e.2.name = e.1) : Acyclic env := by
  have hstep : ∀ v w, ReflTransGen (Behind (behindName env)) v w → rank w ≤ rank v := by
    intro v w hpath
    induction hpath with
    | refl => exact le_rfl
    | @tail u w _ hedge ih =>
      rw [Behind, behindName] at hedge
      cases hlookup : env.package.lookup u with
      | none =>
        rw [hlookup] at hedge
        cases hedge
      | some pkg =>
        rw [hlookup] at hedge
        have hmem : (⟨u, pkg⟩ : (_ : Text) × Pkg) ∈ env.package.entries := AList.mem_lookup_iff.mp hlookup
        have hlt := hrank _ hmem w hedge
        rw [hname _ hmem] at hlt
        exact hlt.le.trans ih
  rintro name pkg hlookup ⟨target, htarget, hpath⟩
  have hlt := hrank ⟨name, pkg⟩ (AList.mem_lookup_iff.mp hlookup) target htarget
  exact absurd (hstep _ _ hpath) (not_le.mpr hlt)

/-- Entries without flags and conditions are the names themselves. -/
theorem reaches_iff_raw (env : PackageSet) (hplain : ∀ e ∈ env.package.entries, e.2.targets = e.2.deps) {name : Text}
    {pkg : Pkg} (hlookup : env.package.lookup name = some pkg) (n : Text) : Reaches env pkg n ↔ RawReaches env pkg n := by
  have hbehind : behindName env = behindEntry env := by
    funext v
    rw [behindName, behindEntry]
    cases hv : env.package.lookup v with
    | none => rfl
    | some q => exact hplain ⟨v, q⟩ (AList.mem_lookup_iff.mp hv)
  rw [Reaches, RawReaches, hbehind, hplain ⟨name, pkg⟩ (AList.mem_lookup_iff.mp hlookup)]

def menuPkg (name : String) (depends : List String) : Pkg :=
  ⟨name.toList, some "m".toList, false, some (depends.map String.toList), none⟩

def packageTable (pkgs : List Pkg) : AList fun _ : Text => Pkg := (pkgs.map fun pkg => ⟨pkg.name, pkg⟩).toAList

/-- Two packages, one of which depends on the other. -/
def plainSet : PackageSet where
  package := packageTable [menuPkg "a" ["c"], menuPkg "c" []]
  category := [⟨"Network".toList, [⟨"1".toList, [menuPkg "a" ["c"], menuPkg "c" []]⟩].toAList⟩].toAList
  listed := by decide

/-- Three packages, the first of which depends on the last, and one more with a `+` in its entry. -/
def mixedSet : PackageSet where
  package := packageTable [menuPkg "a" ["c"], menuPkg "b" [], menuPkg "c" [], menuPkg "d" ["+c"]]
  category := [⟨"Network".toList, [⟨"1".toList, [menuPkg "c" []]⟩, ⟨"2".toList, [menuPkg "b" []]⟩,
    ⟨"3".toList, [menuPkg "a" ["c"]]⟩].toAList⟩].toAList
  listed := by decide

theorem menuPackages_mixedSet : ∃ cat ∈ mixedSet.category.entries,
    menuPackages cat.2 "m".toList = [menuPkg "c" [], menuPkg "b" [], menuPkg "a" ["c"]] := by
  have hkeys : sort compareUpper ["1".toList, "2".toList, "3".toList] = ["1".toList, "2".toList, "3".toList] :=
    List.mergeSort_of_pairwise (by decide)
  refine ⟨_, List.mem_cons_self, ?_⟩
  rw [menuPackages]
  exact (congrArg _ (congrArg _ hkeys)).trans (by decide)

/-- Pushed in another order, the packages of the submenu are listed in the right one: the merge compares `c` with `b`
first, and `a` only with what is left. -/
example : sort (comparePackages mixedSet) [menuPkg "a" ["c"], menuPkg "c" [], menuPkg "b" []] =
    [menuPkg "b" [], menuPkg "c" [], menuPkg "a" ["c"]] := by
  have hac : atMost (comparePackages mixedSet) (menuPkg "a" ["c"]) (menuPkg "c" []) = false := by decide
  have hcb : atMost (comparePackages mixedSet) (menuPkg "c" []) (menuPkg "b" []) = false := by decide
  simp [sort, List.mergeSort, List.MergeSort.Internal.splitInTwo, hac, hcb]

end Neufbox.Packages.Menus
