import Neufbox.Library.Traverse
import Neufbox.Packages.Menus

/-! # The dependencies of a menu entry

`mconf_depends` turns the entries of `Depends:` into lines for the menu; with `select` come the dependencies of the
package that is selected. A name is taken once, whatever stands before it, and an entry without flags is read with
what Perl has in `$1` then. -/
namespace Neufbox.Packages.Menus
open RunAlong Traverse
set_option autoImplicit false
set_option maxHeartbeats 250000
set_option maxRecDepth 120000

/-! ## `mconf_depends` -/

inductive Mode
  | depends
  | select
  deriving DecidableEq, Repr

/-- What decides on `$1`: the matches that are tried, and the blocks that are left. -/
inductive MatchEvent
  | flags (flags : Text)
  | noFlags
  | condition (condition : Text)
  | noCondition
  | select
  | next
  | call
  | return
  deriving DecidableEq, Repr

structure MenuState where
  seen : List Text
  dep : AList fun _ : Text => Mode
  trace : List MatchEvent

/-- An entry of the package, or, with `$only_dep`, of one that is selected. -/
structure Occurrence where
  onlyDep : Bool
  parent : Option Text
  entry : Text
  deriving DecidableEq, Repr

def packageText (name : Text) : Text := "PACKAGE_".toList ++ name

section Entry
variable (env : PackageSet) (pkgname : Text)

def joinCondition (parent : Option Text) (condition : Text) : Text :=
  match parent with
  | some text => if Truthy text then text ++ " && ".toList ++ condition else condition
  | none => condition

def Occurrence.condition (occ : Occurrence) : Option Text :=
  match splitGreedy ':' (entryRest occ.entry) with
  | some (condition, _) => if condition = packageText pkgname then occ.parent else some (joinCondition occ.parent condition)
  | none => occ.parent

def buildOnly (name : Text) : Bool := (env.package.lookup name).any Pkg.buildonly

def providers (name : Text) : Option (List Text) := (env.package.lookup name).bind Pkg.vdepends

def joinProviders (names : List Text) : Text := List.intercalate "||".toList (names.map packageText)

def symbolText (flags : Option Text) (name : Text) : Text := if flags.any ('@' ∈ ·) then name else packageText name

def lineKey (mode : Mode) (condition : Option Text) (depend : Text) : Text :=
  match condition with
  | none => depend
  | some condition =>
    if Truthy condition then
      match mode with
      | .select => depend ++ " if ".toList ++ condition
      | .depends => "!(".toList ++ condition ++ ") || ".toList ++ depend
    else depend

def selectedEntries (occ : Occurrence) : List Occurrence :=
  (((env.package.lookup (entryName occ.entry)).bind Pkg.depends).getD []).map fun entry =>
    ⟨true, occ.condition pkgname, entry⟩

end Entry

/-- `$dep->{$depend} =~ /select/ or $dep->{$depend} = $m` -/
def addLine (dep : AList fun _ : Text => Mode) (key : Text) (mode : Mode) : AList fun _ : Text => Mode :=
  if dep.lookup key = some .select then dep else dep.insert key mode

namespace MenuState

def push (st : MenuState) (event : MatchEvent) : MenuState := { st with trace := event :: st.trace }

def add (st : MenuState) (key : Text) (mode : Mode) : MenuState :=
  { st with
    dep := addLine st.dep key mode
    trace := if st.dep.lookup key = some .select then .select :: st.trace else st.trace }

def mark (st : MenuState) (name : Text) : MenuState := { st with seen := name :: st.seen }

/-- The two matches at the start of the loop. -/
def read (st : MenuState) (entry : Text) : MenuState :=
  (st.push (if entryFlags entry = [] then .noFlags else .flags (entryFlags entry))).push
    (match splitGreedy ':' (entryRest entry) with
      | some (condition, _) => .condition condition
      | none => .noCondition)

/-- Behind the call for a selected package. -/
def leave (onlyDep : Bool) (key : Text) (st : MenuState) : MenuState :=
  if onlyDep then (st.push .return).push .next else (st.push .return).add key .select

end MenuState

section Loop
variable (dollarOne : List MatchEvent → Option Text) (env : PackageSet) (pkgname : Text)

/-- `my $flags = $1`, matched or not. -/
def readFlags (st : MenuState) (entry : Text) : Option Text :=
  if entryFlags entry = [] then dollarOne (.noFlags :: st.trace) else some (entryFlags entry)

/-- The rest of the loop, with what `$flags` is. -/
def visitEntry (st : MenuState) (occ : Occurrence) (flags : Option Text) : Step MenuState Occurrence :=
  if entryName occ.entry ∈ st.seen then .done (st.push .next)
  else if buildOnly env (entryName occ.entry) then .done (st.push .next)
  else
    match providers env (entryName occ.entry) with
    | some names => .done ((st.mark (entryName occ.entry)).add (joinProviders names) .depends)
    | none =>
      if flags.any ('+' ∈ ·) then
        .enter ((st.mark (entryName occ.entry)).push .call) (selectedEntries env pkgname occ)
          (MenuState.leave occ.onlyDep
            (lineKey .select (occ.condition pkgname) (symbolText flags (entryName occ.entry))))
      else
        .done ((st.mark (entryName occ.entry)).add
          (lineKey .depends (occ.condition pkgname) (symbolText flags (entryName occ.entry))) .depends)

def visitDepend (st : MenuState) (occ : Occurrence) : Step MenuState Occurrence :=
  visitEntry env pkgname (st.read occ.entry) occ (readFlags dollarOne st occ.entry)

/-- The entries of all packages, each of which can be taken once. -/
def allEntries (depends : List Text) : List Text := depends ++ env.package.entries.flatMap fun e => e.2.depends.getD []

def mconfVisit (depends : List Text) : MenuState → Occurrence → Option MenuState :=
  traverse (visitDepend dollarOne env pkgname) ((allEntries env depends).length + 1)

def ownEntries (depends : List Text) : List Occurrence := depends.map fun entry => ⟨false, none, entry⟩

/-- The state at the end; its lines are printed in any order. -/
def mconfDepends (depends : List Text) : Option MenuState :=
  runSteps (bindStep (mconfVisit dollarOne env pkgname depends)) (some ⟨[], ∅, []⟩) (ownEntries depends)

end Loop

/-- `$1` as it is documented: the first group of the last match in the blocks around, at a depth of calls that have
returned. -/
def lastGroup : ℕ → List MatchEvent → Option Text
  | _, [] => none
  | 0, .flags flags :: _ => some flags
  | 0, .condition condition :: _ => some condition
  | 0, .noFlags :: trace => lastGroup 0 trace
  | 0, .noCondition :: trace => lastGroup 0 trace
  | 0, .select :: _ => none
  | 0, .next :: _ => none
  | 0, .call :: _ => none
  | depth, .return :: trace => lastGroup (depth + 1) trace
  | depth + 1, .call :: trace => lastGroup depth trace
  | depth + 1, _ :: trace => lastGroup (depth + 1) trace

/-! ## What the entries ask for -/

section Asked
variable (env : PackageSet) (pkgname : Text)

/-- The line for an occurrence, from its own flags and conditions alone. -/
def emits (occ : Occurrence) : Option (Text × Mode) :=
  if buildOnly env (entryName occ.entry) then none
  else
    match providers env (entryName occ.entry) with
    | some names => some (joinProviders names, .depends)
    | none =>
      if '+' ∈ entryFlags occ.entry then
        if occ.onlyDep then none
        else some (lineKey .select (occ.condition pkgname)
          (symbolText (some (entryFlags occ.entry)) (entryName occ.entry)), .select)
      else some (lineKey .depends (occ.condition pkgname)
        (symbolText (some (entryFlags occ.entry)) (entryName occ.entry)), .depends)

def nested (occ : Occurrence) : List Occurrence :=
  if buildOnly env (entryName occ.entry) = false ∧ providers env (entryName occ.entry) = none ∧
    '+' ∈ entryFlags occ.entry then selectedEntries env pkgname occ else []

inductive Occurs (depends : List Text) : Occurrence → Prop
  | own {occ : Occurrence} (h : occ ∈ ownEntries depends) : Occurs depends occ
  | selected {occ occ' : Occurrence} (h : Occurs depends occ) (h' : occ' ∈ nested env pkgname occ) : Occurs depends occ'

/-- Occurrences of one name ask for the same. -/
def Agree (depends : List Text) : Prop :=
  ∀ occ occ', Occurs env pkgname depends occ → Occurs env pkgname depends occ' → entryName occ.entry = entryName occ'.entry →
    emits env pkgname occ = emits env pkgname occ' ∧ nested env pkgname occ = nested env pkgname occ'

/-- A line that the entries ask for; `select` wins over `depends`. -/
def Line (depends : List Text) (key : Text) (mode : Mode) : Prop :=
  (∃ occ, Occurs env pkgname depends occ ∧ emits env pkgname occ = some (key, mode)) ∧
    (mode = .depends → ¬∃ occ, Occurs env pkgname depends occ ∧ emits env pkgname occ = some (key, .select))

end Asked

/-- Where it matters, an entry without flags is read while `$1` has none from before: the name is not taken, and is one
of a package that is neither for the build only nor provided by others. -/
def ReadsOwn (dollarOne : List MatchEvent → Option Text) (env : PackageSet) (st : MenuState) (occ : Occurrence) : Prop :=
  entryFlags occ.entry = [] → entryName occ.entry ∉ st.seen → buildOnly env (entryName occ.entry) = false →
    providers env (entryName occ.entry) = none →
    ∀ stale ∈ dollarOne (.noFlags :: st.trace), '+' ∉ stale ∧ '@' ∉ stale

def RunReadsOwn (dollarOne : List MatchEvent → Option Text) (env : PackageSet) (pkgname : Text) (depends : List Text) :
    Prop :=
  Along (bindStep (mconfVisit dollarOne env pkgname depends))
    (fun r occ => ∀ st ∈ r, Meets (visitDepend dollarOne env pkgname) (ReadsOwn dollarOne env)
      ((allEntries env depends).length + 1) st occ) (some ⟨[], ∅, []⟩) (ownEntries depends)

end Neufbox.Packages.Menus
