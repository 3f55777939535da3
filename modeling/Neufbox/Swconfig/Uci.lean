import Neufbox.Library.RunAlong

/-! # Switch configuration from UCI

`uci.c` of swconfig: `swlib_apply_from_uci` reads the sections of a package and sends their options to a switch.

The device option of a section is read into `devn`, and `dev` is tested. The pointers `port` and `vlan` are not
initialised: they keep what the section before has left, and at first whatever lies on the stack. The values of
the early settings are kept in a static table from call to call. -/
namespace Neufbox.Swconfig
open RunAlong
set_option autoImplicit false
set_option maxHeartbeats 250000
set_option maxRecDepth 120000

/-! ## Packages and devices -/

/-- `string` is `none` for an option that is a list. -/
structure UciOption where
  name : String
  string : Option String
  deriving DecidableEq, Repr

structure UciSection where
  type : String
  name : String
  options : List UciOption
  deriving DecidableEq, Repr

inductive AttrGroup
  | global | vlan | port
  deriving DecidableEq, Repr

structure LibAttr where
  atype : AttrGroup
  id : ℕ
  name : String
  deriving DecidableEq, Repr

/-- The attributes of a device, as `swlib_scan` has found them. -/
structure LibDev where
  devName : String
  attrs : List LibAttr
  deriving DecidableEq, Repr

def swlibLookupAttr (dev : LibDev) (atype : AttrGroup) (name : String) : Option LibAttr :=
  dev.attrs.find? fun attr => attr.atype = atype ∧ attr.name = name

/-- What is given to `swlib_set_attr_string`. -/
structure Setting where
  attr : LibAttr
  portVlan : ℤ
  val : String
  deriving DecidableEq, Repr

/-! ## Numbers -/

def isSpace (c : Char) : Bool := c = ' ' || ('\t' ≤ c && c ≤ '\r')

def digitValue (c : Char) : Option ℕ :=
  if '0' ≤ c ∧ c ≤ '9' then some (c.toNat - '0'.toNat)
  else if 'a' ≤ c ∧ c ≤ 'f' then some (c.toNat - 'a'.toNat + 10)
  else if 'A' ≤ c ∧ c ≤ 'F' then some (c.toNat - 'A'.toNat + 10)
  else none

def digits (base : ℕ) (cs : List Char) : Option (List ℕ) :=
  if cs = [] then none else cs.mapM fun c => (digitValue c).filter (· < base)

/-- The digits of a number that takes up the whole text, and their base. -/
def based : List Char → Option (ℕ × List ℕ)
  | '0' :: 'x' :: cs => (digits 16 cs).map fun ds => (16, ds)
  | '0' :: 'X' :: cs => (digits 16 cs).map fun ds => (16, ds)
  | '0' :: cs => (digits 8 ('0' :: cs)).map fun ds => (8, ds)
  | cs => (digits 10 cs).map fun ds => (10, ds)

/-- The value of an `unsigned long`, as an `int`. -/
def wrapped (negative : Bool) (r : ℕ × List ℕ) : ℤ :=
  let n := r.2.foldl (fun n d => n * r.1 + d) 0
  if 2 ^ 32 ≤ n then -1 else if negative then (BitVec.ofInt 32 (-n)).toInt else (BitVec.ofNat 32 n).toInt

/-- `strtoul` with base 0, when it reads the whole of a text that is not empty. -/
def strtoul (s : String) : Option ℤ :=
  match s.toList.dropWhile isSpace with
  | '-' :: cs => (based cs).map (wrapped true)
  | '+' :: cs => (based cs).map (wrapped false)
  | cs => (based cs).map (wrapped false)

/-! ## The call -/

/-- The entries of `early_settings`. -/
inductive EarlyName
  | reset | enableVlan
  deriving DecidableEq, Repr

def EarlyName.text : EarlyName → String
  | .reset => "reset"
  | .enableVlan => "enable_vlan"

def earlyNames : List EarlyName := [.reset, .enableVlan]

/-- The values in the static table. -/
abbrev Early := EarlyName → Option String

/-- `early_settings` and `settings`. -/
structure Collected where
  early : Early
  settings : List Setting

/-- The entry for an option of a section with global settings. -/
def earlyEntry (atype : AttrGroup) (name : String) : Option EarlyName :=
  if atype = .global then earlyNames.find? fun n => name = n.text else none

/-- An option of `swlib_map_settings`. -/
def mapOption (dev : LibDev) (atype : AttrGroup) (portVlan : ℤ) (c : Collected) (o : UciOption) : Collected :=
  match o.string with
  | none => c
  | some val =>
    if o.name = "device" then c
    else
      match earlyEntry atype o.name with
      | some n => { c with early := Function.update c.early n (some val) }
      | none =>
        match swlibLookupAttr dev atype o.name with
        | none => c
        | some attr => { c with settings := c.settings ++ [⟨attr, portVlan, val⟩] }

def swlibMapSettings (dev : LibDev) (atype : AttrGroup) (portVlan : ℤ) (s : UciSection) (c : Collected) : Collected :=
  runSteps (mapOption dev atype portVlan) c s.options

/-- The pointers `port` and `vlan`. -/
structure Locals where
  port : Option String
  vlan : Option String
  deriving DecidableEq, Repr

/-- The loop over the options of a section: the last one with the key, or what was there. -/
def readOption (key : String) (old : Option String) (s : UciSection) : Option String :=
  runSteps (fun found o => if o.name = key ∧ o.string ≠ none then o.string else found) old s.options

/-- The tests behind the loop, with `dev` for `devn`. -/
def sectionNumber (text : Option String) : Option ℤ :=
  text.bind fun text => if text = "" then none else strtoul text

/-- A round of the loop over the sections. -/
def mapSection (dev : LibDev) (st : Locals × Collected) (s : UciSection) : Locals × Collected :=
  if s.type = "switch_port" then
    let port := readOption "port" st.1.port s
    ({ st.1 with port := port },
      match sectionNumber port with
      | none => st.2
      | some n => swlibMapSettings dev .port n s st.2)
  else if s.type = "switch_vlan" then
    let vlan := readOption "vlan" st.1.vlan s
    ({ st.1 with vlan := vlan },
      match sectionNumber vlan with
      | none => st.2
      | some n => swlibMapSettings dev .vlan n s st.2)
  else st

/-- What goes to the device: settings, and the attribute `apply` without a value. -/
inductive Sent
  | set (s : Setting)
  | apply (attr : LibAttr)
  deriving DecidableEq, Repr

def earlySent (dev : LibDev) (early : Early) : List Sent :=
  earlyNames.flatMap fun n =>
    match swlibLookupAttr dev .global n.text, early n with
    | some attr, some val => [.set ⟨attr, 0, val⟩]
    | _, _ => []

def applySent (dev : LibDev) : List Sent :=
  match swlibLookupAttr dev .global "apply" with
  | some attr => [.apply attr]
  | none => []

def isSwitchOf (dev : LibDev) (s : UciSection) : Bool := s.type = "switch" && s.name = dev.devName

/-- A call, with the table from the calls before and what lies on the stack: what is sent, and the table
afterwards. -/
def swlibApplyFromUci (dev : LibDev) (sections : List UciSection) (stack : Locals) (early : Early) :
    List Sent × Early :=
  match sections.find? (isSwitchOf dev) with
  | none => ([], early)
  | some s =>
    let c := (runSteps (mapSection dev) (stack, swlibMapSettings dev .global 0 s ⟨early, []⟩) sections).2
    (earlySent dev c.early ++ c.settings.map .set ++ applySent dev, c.early)

end Neufbox.Swconfig
