import Mathlib.Data.List.AList
import Neufbox.Library.RunAlong

/-! # Package metadata

`metadata.pm`: the index of a package tree lists source directories and the binary packages that are built from
them. `parse_package_metadata` puts them into hashes by name; a name that is only provided by other packages gets
an entry of its own, with the source of the first of them. -/
namespace Neufbox.Packages
open RunAlong
set_option autoImplicit false
set_option maxHeartbeats 250000
set_option maxRecDepth 120000

abbrev Text := List Char

instance Text.lawfulBEq : LawfulBEq Text := inferInstance

/-- The lines about a binary package that are used here. -/
structure Stanza where
  name : Text
  provides : List Text
  depends : List Text
  buildDepends : List Text
  hostBuildDepends : List Text
  deriving DecidableEq, Repr

/-- `Source-Makefile` and the packages behind it; `subdir` ends with a slash or is empty. -/
structure Source where
  subdir : Text
  src : Text
  packages : List Stanza
  deriving DecidableEq, Repr

abbrev Metadata := List Source

/-- An entry of `%package`. A package that is provided by others has a list of them. -/
structure Entry where
  src : Text
  subdir : Text
  vdepends : Option (List Text)
  stanza : Option Stanza
  deriving DecidableEq, Repr

structure Tables where
  package : AList fun _ : Text => Entry
  srcpackage : AList fun _ : Text => List Stanza
  subdir : AList fun _ : Text => Text

/-- A name behind `Provides:`. -/
def addProvides (source : Source) (name : Text) (t : Tables) (vpkg : Text) : Tables :=
  let entry : Entry :=
    match t.package.lookup vpkg with
    | none => ⟨source.src, source.subdir, some [name], none⟩
    | some entry => { entry with vdepends := some (entry.vdepends.getD [] ++ [name]) }
  { t with package := t.package.insert vpkg entry }

def addPackage (source : Source) (t : Tables) (stanza : Stanza) : Tables :=
  runSteps (addProvides source stanza.name)
    { t with
      package := t.package.insert stanza.name ⟨source.src, source.subdir, none, some stanza⟩
      srcpackage := t.srcpackage.insert source.src ((t.srcpackage.lookup source.src).getD [] ++ [stanza]) }
    stanza.provides

def addSource (t : Tables) (source : Source) : Tables :=
  runSteps (addPackage source)
    { t with
      srcpackage := t.srcpackage.insert source.src []
      subdir := t.subdir.insert source.src source.subdir }
    source.packages

def parsePackageMetadata (m : Metadata) : Tables := runSteps addSource ⟨∅, ∅, ∅⟩ m

/-- The strings that are true for Perl. -/
def Truthy (s : Text) : Prop := s ≠ [] ∧ s ≠ ['0']

instance Truthy.decidable (s : Text) : Decidable (Truthy s) := inferInstanceAs (Decidable (s ≠ [] ∧ s ≠ ['0']))

/-- The last place of a separator with something behind it. -/
def splitLast (sep : Char) : Text → Option (Text × Text)
  | [] => none
  | c :: cs =>
    match splitLast sep cs with
    | some r => some (c :: r.1, r.2)
    | none => if c = sep ∧ cs ≠ [] then some ([], cs) else none

/-- `/^(.+)sep(.+)/`: something stands before the separator too. -/
def splitGreedy (sep : Char) : Text → Option (Text × Text)
  | [] => none
  | c :: cs => (splitLast sep cs).map fun r => (c :: r.1, r.2)

example : splitGreedy ':' "a:b:c".toList = some ("a:b".toList, "c".toList) := by decide

end Neufbox.Packages
