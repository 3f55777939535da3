import Mathlib.Data.Char
import Mathlib.Data.List.Lex
import Mathlib.Data.List.Sort
import Neufbox.Packages.Metadata

/-! # The build order

`gen_package_mk` of `metadata.pl` prints what the compilation of a source waits for. The dependencies of all its
binary packages are resolved one after the other; of several that lead to the same directory one is kept.

Directory and package names have no `>` and no parentheses, so the texts that are the keys of `%dep` tell their
parts. -/
namespace Neufbox.Packages
open RunAlong
set_option autoImplicit false
set_option maxHeartbeats 250000
set_option maxRecDepth 120000

/-! ## Dependencies -/

/-- A dependency without `+`: condition, package and suffix. -/
structure Dependency where
  condition : Option Text
  name : Text
  suffix : Text
  deriving DecidableEq, Repr

def parseDependency (deps : Text) : Dependency :=
  let r : Option Text × Text :=
    match splitGreedy ':' deps with
    | some (condition, rest) => (some condition, rest)
    | none => (none, deps)
  match splitGreedy '/' r.2 with
  | some (name, suffix) => ⟨r.1, name, '/' :: suffix⟩
  | none => ⟨r.1, r.2, []⟩

def stripPlus (dep : Text) : Text := dep.filter (· ≠ '+')

/-- `@srcdeps` -/
def srcdeps (t : Tables) (src : Text) : List Dependency :=
  ((t.srcpackage.lookup src).getD []).flatMap fun stanza =>
    ((stanza.depends ++ stanza.buildDepends).filter ('@' ∉ ·)).map fun dep => parseDependency (stripPlus dep)

/-- A line that may be added: a path to compile first, and for which package; with a provided package, only if
the package is selected. -/
structure Candidate where
  condition : Option Text
  provided : Bool
  dep : Text
  idx : Text
  deriving DecidableEq, Repr

/-- `/^(kernel)|(base-files)$/` -/
def isBase (idx : Text) : Prop := "kernel".toList <+: idx ∨ "base-files".toList <:+ idx

instance isBase.decidable (idx : Text) : Decidable (isBase idx) :=
  inferInstanceAs (Decidable ("kernel".toList <+: idx ∨ "base-files".toList <:+ idx))

/-- The path of a dependency and the packages it stands for. The path is that of the package that is named, also
where others provide it. -/
def resolve (t : Tables) (src : Text) (d : Dependency) : Text × Bool × List Text :=
  match t.package.lookup d.name with
  | some entry =>
    (if src = entry.src ++ d.suffix then [] else entry.subdir ++ entry.src ++ d.suffix,
      entry.vdepends.isSome, entry.vdepends.getD [d.name])
  | none =>
    (if src = d.suffix then []
      else (if t.srcpackage.lookup d.name = none then [] else (t.subdir.lookup d.name).getD [] ++ d.name) ++ d.suffix,
      false, [d.name])

def candidates (t : Tables) (src : Text) (d : Dependency) : List Candidate :=
  let r := resolve t src d
  if isBase r.1 ∨ ¬Truthy r.1 then [] else r.2.2.map fun dep => ⟨d.condition, r.2.1, dep, r.1⟩

/-! ## Lines -/

/-- What `%dep` says about a source, and `%deplines`. -/
structure DepState where
  direct : List Text
  provided : List (Text × Text)
  deplines : AList fun _ : Text => Candidate

def Candidate.key (c : Candidate) : Text := c.idx ++ c.dep

def depStep (st : DepState) (c : Candidate) : DepState :=
  if c.idx ∈ st.direct then st
  else if c.provided ∧ (c.dep, c.idx) ∈ st.provided then st
  else
    { direct := if c.provided then st.direct else c.idx :: st.direct
      provided := if c.provided then (c.dep, c.idx) :: st.provided else st.provided
      deplines := st.deplines.insert c.key c }

/-- Everything the dependencies of a source lead to. -/
def allCandidates (t : Tables) (src : Text) : List Candidate := (srcdeps t src).flatMap (candidates t src)

def depState (cs : List Candidate) : DepState := runSteps depStep ⟨[], [], ∅⟩ cs

/-- `$(curdir)/<subdir><src>/compile += ...` -/
structure Line where
  subdir : Text
  src : Text
  deps : List Candidate

/-- The names in the order of `sort {uc($a) cmp uc($b)}`. -/
def sortedNames (t : Tables) : List Text :=
  t.package.keys.insertionSort fun a b => a.map Char.toUpper ≤ b.map Char.toUpper

/-- The packages that are not provided by others. -/
def ownEntries (t : Tables) : List Entry :=
  ((sortedNames t).filterMap fun name => t.package.lookup name).filter fun entry => entry.vdepends = none

/-- The loop over the packages; the first one of a source stands for it. -/
def packageLines (t : Tables) : List Text → List Entry → List Line
  | _, [] => []
  | done, entry :: rest =>
    if entry.src ∈ done then packageLines t done rest
    else
      ⟨entry.subdir, entry.src, (depState (allCandidates t entry.src)).deplines.entries.map Sigma.snd⟩ ::
        packageLines t (entry.src :: done) rest

def genPackageMk (m : Metadata) : List Line :=
  packageLines (parsePackageMetadata m) [] (ownEntries (parsePackageMetadata m))

/-! ## Expansion -/

/-- What `get_conditional_dep` puts around a line, expanded by make: whether the line remains. The condition is put
behind `CONFIG_` as it is; one that is false for Perl is left out. -/
def getConditionalDep (conf : Text → Bool) : Option Text → Bool
  | none => true
  | some [] => true
  | some ['0'] => true
  | some ('!' :: c :: cs) => !conf (c :: cs)
  | some condition => conf condition

def Candidate.holds (conf : Text → Bool) (c : Candidate) : Prop :=
  getConditionalDep conf c.condition ∧ (c.provided → conf ("PACKAGE_".toList ++ c.dep))

/-- In the makefile, the source waits for a path. -/
def Waits (m : Metadata) (conf : Text → Bool) (source : Source) (path : Text) : Prop :=
  ∃ line ∈ genPackageMk m, line.subdir = source.subdir ∧ line.src = source.src ∧
    ∃ c ∈ line.deps, c.idx = path ∧ c.holds conf

end Neufbox.Packages
