import Mathlib.Data.Char
import Mathlib.Data.List.DropRight
import Mathlib.Data.List.Lex
import Mathlib.Data.List.Sort
import Neufbox.Library.Search
import Neufbox.Packages.Metadata

/-! # Installing packages from feeds

`scripts/feeds install`: every feed has an index of its own. A package is looked up in all of them; the directory of
its source is linked into the tree, and then its dependencies are installed. `%srcpackage` belongs to the feed that
was indexed last, whatever feed the package is from. -/
namespace Neufbox.Packages
open RunAlong Search
set_option autoImplicit false
set_option maxHeartbeats 250000
set_option maxRecDepth 120000

/-! ## Feeds -/

/-- A line of `feeds.conf` and the index of the feed, which may be missing. -/
structure Feed where
  method : Text
  name : Text
  index : Option Metadata
  deriving DecidableEq, Repr

/-- The feeds, with different names, and the index of the tree. -/
structure Setup where
  feeds : List Feed
  tree : Metadata

/-- One of the feeds. -/
abbrev Setup.Feed (env : Setup) := { f : Packages.Feed // f ∈ env.feeds }

/-- The tables that `get_feed` leaves. -/
def getFeed (f : Feed) : Tables := (f.index.map parsePackageMetadata).getD ⟨∅, ∅, ∅⟩

def lookupPackage (env : Setup) (preferred : Option env.Feed) (name : Text) : Option (env.Feed × Entry) :=
  (preferred.toList ++ env.feeds.attach).findSome? fun f =>
    if Truthy f.1.name then ((getFeed f.1).package.lookup name).map fun entry => (f, entry) else none

/-- The table `%srcpackage`. Its packages are those of `%feed` for the feed `owner`; after another `get_feed` they
are copies. -/
structure Index where
  srcpackage : AList fun _ : Text => List Stanza
  owner : Option Feed

/-! ## Dependencies -/

/-- `s/^\+//` -/
def dropPlus : Text → Text
  | '+' :: dep => dep
  | dep => dep

/-- `s/^.+://` -/
def dropCondition : Text → Text
  | [] => []
  | c :: dep => if ':' ∈ dep then dep.rtakeWhile (· ≠ ':') else c :: dep

/-- `s/\/.+$//` -/
def dropSuffix : Text → Text
  | [] => []
  | c :: dep => if c = '/' ∧ dep ≠ [] then [] else c :: dropSuffix dep

def cleanDependency (dep : Text) : Text := dropSuffix (dropCondition (dropPlus dep))

example : cleanDependency "+A:B:foo/host".toList = "foo".toList := by decide

def Stanza.allDepends (s : Stanza) : List Text := s.depends ++ s.buildDepends ++ s.hostBuildDepends

/-- The dependencies in the loop over `(@{$srcpackage{$src}}, $pkg)`. They are cleaned in place: a package that is in
both parts is met with cleaned dependencies the second time. -/
def dependencyTexts (ix : Index) (f : Feed) (src : Text) (entry : Entry) : List Text :=
  let built := (ix.srcpackage.lookup src).getD []
  built.flatMap Stanza.allDepends ++
    match entry.stanza with
    | none => []
    | some s => s.allDepends.map fun dep =>
      if ix.owner = some f ∧ s ∈ built ∧ '@' ∉ dep then cleanDependency dep else dep

def dependencyNames (ix : Index) (f : Feed) (src : Text) (entry : Entry) : List Text :=
  (((dependencyTexts ix f src entry).filter ('@' ∉ ·)).map cleanDependency).filter fun dep => Truthy dep

/-! ## `install_package` -/

/-- A directory of a feed that is linked into the tree. -/
structure Link where
  feed : Feed
  subdir : Text
  src : Text
  deriving DecidableEq, Repr

/-- The keys of `%installed`, and the links made. -/
structure InstallState where
  installed : List Text
  links : List Link
  deriving DecidableEq, Repr

/-- The feed that is preferred, and a name. -/
structure Request (env : Setup) where
  preferred : Option env.Feed
  name : Text

def installMethods : List Text :=
  ["src-svn", "src-cpy", "src-link", "src-git", "src-bzr", "src-hg"].map String.toList

/-- `$src or $src = $name` -/
def sourceName (name : Text) (entry : Entry) : Text := if Truthy entry.src then entry.src else name

/-- A call of `install_package` up to its loop. The link itself is made without a check. -/
def visitPackage (env : Setup) (ix : Index) (st : InstallState) (r : Request env) :
    Visit InstallState (Request env) :=
  match lookupPackage env r.preferred r.name with
  | none => .done st true
  | some (f, entry) =>
    let src := sourceName r.name entry
    if ¬Truthy r.name then .done st true
    else if src ∈ st.installed ∨ r.name ∈ st.installed then .done st true
    else if f.1.method ∉ installMethods then .done { st with installed := src :: st.installed } false
    else
      .enter ⟨src :: st.installed, ⟨f.1, entry.subdir, entry.src⟩ :: st.links⟩
        ((dependencyNames ix f.1 src entry).map fun dep => ⟨some f, dep⟩)

/-- The names that a call can mark. -/
def sourceNames (env : Setup) : List Text :=
  env.feeds.flatMap fun f => (getFeed f).package.entries.map fun e => sourceName e.1 e.2

/-- Each call that goes on marks one more name. -/
def installFuel (env : Setup) : ℕ := (sourceNames env).length + 1

def installPackage (env : Setup) (ix : Index) (st : InstallState) (r : Request env) : Option (InstallState × Bool) :=
  explore (visitPackage env ix) (installFuel env) st r

/-! ## Requests -/

/-- `get_installed` -/
def getInstalled (env : Setup) : InstallState := ⟨(parsePackageMetadata env.tree).package.keys, []⟩

/-- All feeds are indexed at first. -/
def firstIndex (env : Setup) : Index :=
  match env.feeds.getLast? with
  | some f => ⟨(getFeed f).srcpackage, some f⟩
  | none => ⟨(parsePackageMetadata env.tree).srcpackage, none⟩

/-- With `-a`, a feed is indexed again before its packages are requested. -/
inductive FeedsEvent (env : Setup)
  | index (f : env.Feed)
  | request (r : Request env)

/-- `ok`: all results were 0 so far. -/
structure FeedsRun where
  index : Index
  state : InstallState
  ok : Bool

def feedsStep (env : Setup) : Option FeedsRun → FeedsEvent env → Option FeedsRun
  | none, _ => none
  | some run, .index f => some { run with index := ⟨(getFeed f.1).srcpackage, none⟩ }
  | some run, .request r =>
    (installPackage env run.index run.state r).map fun res => ⟨run.index, res.1, run.ok && res.2⟩

def feedsStart (env : Setup) : FeedsRun := ⟨firstIndex env, getInstalled env, true⟩

def runFeeds (env : Setup) (events : List (FeedsEvent env)) : Option FeedsRun :=
  runSteps (feedsStep env) (some (feedsStart env)) events

/-- The options `-a` and `-p`, and the names behind them. -/
structure InstallOptions where
  all : Bool
  preferred : Option Text
  names : List Text

/-- The packages of a feed in the order of `sort { lc($a) cmp lc($b) }`. -/
def feedNames (f : Feed) : List Text :=
  ((getFeed f).package.keys.insertionSort fun a b => a.map Char.toLower ≤ b.map Char.toLower).filter fun name =>
    Truthy name ∧ ((getFeed f).package.lookup name).all fun entry => entry.vdepends = none

/-- The requests of `install`. -/
def installEvents (env : Setup) (opts : InstallOptions) : List (FeedsEvent env) :=
  let preferred : Option env.Feed := opts.preferred.bind fun p =>
    if Truthy p then env.feeds.attach.find? fun f => f.1.name = p else none
  if opts.all then
    (env.feeds.attach.filter fun f => opts.preferred.all fun p => p = f.1.name).flatMap fun f =>
      .index f :: (feedNames f.1).map fun name => .request ⟨preferred, name⟩
  else (opts.names.takeWhile fun name => Truthy name).map fun name => .request ⟨preferred, name⟩

end Neufbox.Packages
