import Mathlib.Data.Char
import Mathlib.Data.List.Lex
import Neufbox.Library.Comparator
import Neufbox.Library.Seek
import Neufbox.Packages.Metadata

/-! # Menus of packages

`metadata.pl` prints the packages of a submenu in an order in which no package should stand before one that it
depends on: `find_package_dep` searches the dependencies, and `sort` compares by what it finds, or else by name. -/
namespace Neufbox.Packages.Menus
open Relation Seek Comparator
set_option autoImplicit false
set_option maxHeartbeats 250000
set_option maxRecDepth 120000

/-! ## Packages -/

/-- An entry of `%package`; `vdepends` are the packages that provide a virtual one. -/
structure Pkg where
  name : Text
  submenu : Option Text
  buildonly : Bool
  depends : Option (List Text)
  vdepends : Option (List Text)
  deriving DecidableEq, Repr

/-- `($pkg->{vdepends} or $pkg->{depends})` -/
def Pkg.deps (pkg : Pkg) : List Text := (pkg.vdepends.or pkg.depends).getD []

/-- `%package`, and `%category` with the packages of each source. No package is defined twice. -/
structure PackageSet where
  package : AList fun _ : Text => Pkg
  category : AList fun _ : Text => AList fun _ : Text => List Pkg
  listed : ∀ cat ∈ category.entries, ∀ src ∈ cat.2.entries, ∀ pkg ∈ src.2, package.lookup pkg.name = some pkg

/-! ## `find_package_dep` -/

def behindEntry (env : PackageSet) (dep : Text) : List Text := ((env.package.lookup dep).map Pkg.deps).getD []

def depEntries (env : PackageSet) : List Text := env.package.entries.flatMap fun e => e.2.deps

/-- `%dep_check` is the list of entries that were seen; there are no more of them than entries of all packages. -/
def findPackageDep (env : PackageSet) (pkg : Pkg) (name : Text) : Option Bool :=
  (seek (behindEntry env) name ((pkg.deps ++ depEntries env).length + 1) pkg.deps []).map Prod.fst

/-! ## The order of a submenu -/

/-- `cmp` -/
def compareText (a b : Text) : ℤ := if a < b then -1 else if b < a then 1 else 0

def Pkg.SameSubmenu (a b : Pkg) : Prop := a.submenu.getD [] = b.submenu.getD []

instance Pkg.SameSubmenu.decidable (a b : Pkg) : Decidable (a.SameSubmenu b) :=
  inferInstanceAs (Decidable (a.submenu.getD [] = b.submenu.getD []))

def packageDepends (env : PackageSet) (a b : Pkg) : ℤ :=
  if ¬a.SameSubmenu b then 0
  else if findPackageDep env a b.name = some true then 1
  else if findPackageDep env b a.name = some true then -1
  else 0

/-- `package_depends($a, $b) or ($a->{name} cmp $b->{name})` -/
def comparePackages (env : PackageSet) (a b : Pkg) : ℤ :=
  if packageDepends env a b ≠ 0 then packageDepends env a b else compareText a.name b.name

def Pkg.menu (pkg : Pkg) : Text :=
  match pkg.submenu with
  | some menu => if Truthy menu then menu else "undef".toList
  | none => "undef".toList

/-- `uc($a) cmp uc($b)` -/
def compareUpper (a b : Text) : ℤ := compareText (a.map Char.toUpper) (b.map Char.toUpper)

/-- `$menus{$menu}`, in the order in which `print_package_config_category` fills it. -/
def menuPackages (spkg : AList fun _ : Text => List Pkg) (menu : Text) : List Pkg :=
  ((sort compareUpper spkg.keys).flatMap fun src => (spkg.lookup src).getD []).filter fun pkg =>
    pkg.buildonly = false ∧ pkg.menu = menu

/-- Perl's `sort` is a stable merge sort. Which order it leaves where the comparison is not consistent is not
documented. -/
def menuOrder (env : PackageSet) (spkg : AList fun _ : Text => List Pkg) (menu : Text) : List Pkg :=
  sort (comparePackages env) (menuPackages spkg menu)

/-! ## What packages depend on -/

/-- `s/^([@\+]+)//`: the flags of an entry, and what is left. -/
def entryFlags (entry : Text) : Text := entry.takeWhile fun c => c = '@' ∨ c = '+'

def entryRest (entry : Text) : Text := entry.dropWhile fun c => c = '@' ∨ c = '+'

def entryName (entry : Text) : Text := ((splitGreedy ':' (entryRest entry)).map Prod.snd).getD (entryRest entry)

/-- The package that an entry of `Depends:` names; an entry with `@` names a symbol. -/
def entryPackage (entry : Text) : Option Text := if '@' ∈ entryFlags entry then none else some (entryName entry)

example : entryPackage "+FOO:bar".toList = some "bar".toList := by decide

/-- The packages that a package names: those which provide it, or those in its entries. -/
def Pkg.targets (pkg : Pkg) : List Text :=
  match pkg.vdepends with
  | some providers => providers
  | none => (pkg.depends.getD []).filterMap entryPackage

def behindName (env : PackageSet) (name : Text) : List Text := ((env.package.lookup name).map Pkg.targets).getD []

/-- A name that a package depends on, directly or not. -/
def Reaches (env : PackageSet) (pkg : Pkg) (name : Text) : Prop :=
  ∃ target ∈ pkg.targets, ReflTransGen (Behind (behindName env)) target name

/-- The same with entries as they are written. -/
def RawReaches (env : PackageSet) (pkg : Pkg) (name : Text) : Prop :=
  ∃ dep ∈ pkg.deps, ReflTransGen (Behind (behindEntry env)) dep name

def Acyclic (env : PackageSet) : Prop := ∀ name pkg, env.package.lookup name = some pkg → ¬Reaches env pkg pkg.name

end Neufbox.Packages.Menus
