import Mathlib.Tactic

/-! # The IP175C and IP178C switches

`ip175c.c` keeps the state of a switch in registers of sixteen bits that are read and written over MDIO. A
register map says which register and which bit hold what. Accesses to the bus succeed here; an access to a
register that a map does not have is the only error. -/
namespace Neufbox.Ip175c
set_option autoImplicit false
set_option maxHeartbeats 250000
set_option maxRecDepth 120000

/-! ## Register maps -/

def maxVlans : ℕ := 16

def maxPorts : ℕ := 9

/-- The address of a register: phy and mii. -/
structure Reg where
  p : ℕ
  m : ℕ
  deriving DecidableEq, Repr

def notSupported : Reg := ⟨0xffff, 0xffff⟩

/-- `REG_SUPP` -/
def Reg.supported (r : Reg) : Bool := r.m ≠ 0xffff ∧ r.p ≠ 0xffff

/-- `addr.m += n` -/
def Reg.plus (r : Reg) (n : ℕ) : Reg := ⟨r.p, r.m + n⟩

/-- The fields of `struct register_mappings` that the state goes through. In tables of bits, `-1` stands for
a port that the switch does not have. -/
structure RegisterMappings where
  numPorts : ℕ
  vlanDefaultTagReg : List Reg
  addTagReg : Reg
  removeTagReg : Reg
  addTagBit : List ℤ
  removeTagBit : List ℤ
  vlanLookupReg : Reg
  vlanLookupReg5 : Reg
  vlanLookupEvenBit : List ℤ
  vlanLookupOddBit : List ℤ
  tagVlanMaskReg : Reg
  tagVlanMaskEvenBit : List ℤ
  tagVlanMaskOddBit : List ℤ
  routerControlReg : Reg
  vlanControlReg : Reg
  tagVlanBit : ℤ
  routerEnBit : ℤ
  numlanGroupsMax : ℤ
  numlanGroupsBit : ℤ
  simpleVlanRegisters : Bool

def IP178C : RegisterMappings where
  numPorts := 9
  vlanDefaultTagReg := [⟨30, 3⟩, ⟨30, 4⟩, ⟨30, 5⟩, ⟨30, 6⟩, ⟨30, 7⟩, ⟨30, 8⟩, ⟨30, 9⟩, ⟨30, 10⟩, ⟨30, 11⟩]
  addTagReg := ⟨30, 12⟩
  removeTagReg := ⟨30, 13⟩
  addTagBit := [0, 1, 2, 3, 4, 5, 6, 7, 8]
  removeTagBit := [4, 5, 6, 7, 8, 9, 10, 11, 12]
  vlanLookupReg := ⟨31, 0⟩
  vlanLookupReg5 := notSupported
  vlanLookupEvenBit := [0, 1, 2, 3, 4, 5, 6, 7, 8]
  vlanLookupOddBit := [0, 1, 2, 3, 4, 5, 6, 7, 8]
  tagVlanMaskReg := ⟨30, 14⟩
  tagVlanMaskEvenBit := [0, 1, 2, 3, 4, 5, 6, 7, 8]
  tagVlanMaskOddBit := [0, 1, 2, 3, 4, 5, 6, 7, 8]
  routerControlReg := ⟨30, 30⟩
  vlanControlReg := ⟨30, 13⟩
  tagVlanBit := 3
  routerEnBit := 11
  numlanGroupsMax := 8
  numlanGroupsBit := 8
  simpleVlanRegisters := true

def IP175C : RegisterMappings where
  numPorts := 6
  vlanDefaultTagReg := [⟨29, 24⟩, ⟨29, 25⟩, ⟨29, 26⟩, ⟨29, 27⟩, ⟨29, 28⟩, ⟨29, 30⟩, notSupported, notSupported, notSupported]
  addTagReg := ⟨29, 23⟩
  removeTagReg := ⟨29, 23⟩
  addTagBit := [11, 12, 13, 14, 15, 1, -1, -1, -1]
  removeTagBit := [6, 7, 8, 9, 10, 0, -1, -1, -1]
  vlanLookupReg := ⟨29, 19⟩
  vlanLookupReg5 := ⟨30, 18⟩
  vlanLookupEvenBit := [8, 9, 10, 11, 12, 15, -1, -1, -1]
  vlanLookupOddBit := [0, 1, 2, 3, 4, 7, -1, -1, -1]
  tagVlanMaskReg := ⟨30, 1⟩
  tagVlanMaskEvenBit := [0, 1, 2, 3, 4, 5, -1, -1, -1]
  tagVlanMaskOddBit := [8, 9, 10, 11, 12, 13, -1, -1, -1]
  routerControlReg := ⟨30, 9⟩
  vlanControlReg := ⟨30, 9⟩
  tagVlanBit := 7
  routerEnBit := 3
  numlanGroupsMax := 8
  numlanGroupsBit := 0
  simpleVlanRegisters := false

/-- The IP175A, most of whose registers are in an EEPROM. -/
def IP175A : RegisterMappings where
  numPorts := 6
  vlanDefaultTagReg := [⟨0, 24⟩, ⟨0, 25⟩, ⟨0, 26⟩, ⟨0, 27⟩, ⟨0, 28⟩, notSupported, notSupported, notSupported, notSupported]
  addTagReg := ⟨0, 23⟩
  removeTagReg := ⟨0, 23⟩
  addTagBit := [11, 12, 13, 14, 15, 1, -1, -1, -1]
  removeTagBit := [6, 7, 8, 9, 10, 0, -1, -1, -1]
  vlanLookupReg := notSupported
  vlanLookupReg5 := notSupported
  vlanLookupEvenBit := [8, 9, 10, 11, 12, 15, -1, -1, -1]
  vlanLookupOddBit := [0, 1, 2, 3, 4, 7, -1, -1, -1]
  tagVlanMaskReg := notSupported
  tagVlanMaskEvenBit := [0, 1, 2, 3, 4, 5, -1, -1, -1]
  tagVlanMaskOddBit := [8, 9, 10, 11, 12, 13, -1, -1, -1]
  routerControlReg := notSupported
  vlanControlReg := notSupported
  tagVlanBit := -1
  routerEnBit := -1
  numlanGroupsMax := -1
  numlanGroupsBit := -1
  simpleVlanRegisters := true

/-! ## Registers and state -/

abbrev Regs := Reg → BitVec 16

structure PortState where
  pvid : BitVec 16
  shareports : BitVec 32

/-- The fields of `struct ip175c_state` that the registers hold. -/
structure State where
  routerMode : ℤ
  vlanEnabled : ℤ
  ports : ℕ → PortState
  addTag : BitVec 32
  removeTag : BitVec 32
  numVlans : ℤ
  vlanPorts : ℕ → BitVec 32

def getPhy (regs : Regs) (mii : Reg) : Option (BitVec 32) := if mii.supported then some ((regs mii).setWidth 32) else none

def setPhy (mii : Reg) (value : BitVec 32) (regs : Regs) : Option Regs :=
  if mii.supported then some (Function.update regs mii (value.setWidth 16)) else none

/-- An entry of a table of bits. -/
def lookupBit (bitLookup : List ℤ) (i : ℕ) : ℤ := bitLookup.getD i (-1)

/-- `1 << n` -/
def one (n : ℕ) : BitVec 32 := BitVec.twoPow 32 n

/-- One turn of the loop of `GET_PORT_BITS`. -/
def getPortBit (val : BitVec 32) (bitLookup : List ℤ) (bits : BitVec 32) (i : ℕ) : BitVec 32 :=
  if lookupBit bitLookup i = -1 then bits
  else if val &&& one (lookupBit bitLookup i).toNat ≠ 0 then bits ||| one i else bits

def getPortBits (addr : Reg) (bitLookup : List ℤ) (regs : Regs) : Option (BitVec 32) := do
  let val ← getPhy regs addr
  pure ((List.range maxPorts).foldl (getPortBit val bitLookup) 0)

/-- One turn of the loop of `SET_PORT_BITS`. -/
def setPortBit (bits : BitVec 32) (bitLookup : List ℤ) (val : BitVec 32) (i : ℕ) : BitVec 32 :=
  if lookupBit bitLookup i = -1 then val
  else (val &&& ~~~one (lookupBit bitLookup i).toNat) ||| ((bits &&& one i) >>> i) <<< (lookupBit bitLookup i).toNat

def setPortBits (bits : BitVec 32) (addr : Reg) (bitLookup : List ℤ) (regs : Regs) : Option Regs := do
  let val ← getPhy regs addr
  setPhy addr ((List.range maxPorts).foldl (setPortBit bits bitLookup) val) regs

/-! ## Where ports and VLANs are -/

section Addresses
variable (map : RegisterMappings) (j : ℕ)

def vlanLookupBits : List ℤ := if j % 2 = 0 then map.vlanLookupEvenBit else map.vlanLookupOddBit

def tagVlanMaskBits : List ℤ := if j % 2 = 0 then map.tagVlanMaskEvenBit else map.tagVlanMaskOddBit

/-- The register with the ports that share a VLAN with port `j`, as `get_state` finds it. -/
def getLookupReg : Reg :=
  if map.simpleVlanRegisters then map.vlanLookupReg.plus j
  else match j with
    | 0 | 1 => map.vlanLookupReg
    | 2 | 3 => map.vlanLookupReg.plus 1
    | 4 => map.vlanLookupReg.plus 2
    | 5 => map.vlanLookupReg5
    | _ => map.vlanLookupReg

/-- The same register as `update_state` finds it. -/
def setLookupReg : Reg :=
  if map.simpleVlanRegisters then map.vlanLookupReg.plus j
  else match j with
    | 0 | 1 => map.vlanLookupReg
    | 2 | 3 => map.vlanLookupReg.plus 1
    | 4 => map.vlanLookupReg.plus 2
    | 5 => map.vlanLookupReg5
    | _ => ⟨map.vlanLookupReg.p, 0xffff⟩

def vlanMaskReg : Reg := if map.simpleVlanRegisters then map.tagVlanMaskReg.plus j else map.tagVlanMaskReg.plus (j / 2)

def defaultTagReg : Reg := map.vlanDefaultTagReg.getD j notSupported

end Addresses

/-! ## From the registers -/

/-- A flag of a register, when the map has it. -/
def flag (val : BitVec 32) (bit : ℤ) (otherwise : ℤ) : ℤ :=
  if 0 ≤ bit then ((val >>> bit.toNat) &&& 1).toNat else otherwise

/-- `get_flags`: the router mode, the VLAN mode and the number of VLANs. -/
def getFlags (map : RegisterMappings) (regs : Regs) : Option (ℤ × ℤ × ℤ) :=
  if map.routerControlReg.supported then do
    let val ← getPhy regs map.routerControlReg
    let routerMode := flag val map.routerEnBit 0
    let numVlans : ℤ := if 0 ≤ map.numlanGroupsBit
      then ((val >>> map.numlanGroupsBit.toNat) &&& BitVec.ofInt 32 (map.numlanGroupsMax - 1)).toNat + 1 else 0
    match getPhy regs map.vlanControlReg with
    | none => pure (routerMode, -1, numVlans)
    | some val => pure (routerMode, flag val map.tagVlanBit (-1), numVlans)
  else some (0, -1, 0)

/-- The ports that share a VLAN with port `j`. -/
def getShareports (map : RegisterMappings) (regs : Regs) (j : ℕ) : Option (BitVec 32) :=
  if map.vlanLookupReg.supported then
    if j < map.numPorts ∧ (getLookupReg map j).supported
    then getPortBits (getLookupReg map j) (vlanLookupBits map j) regs else some 0
  else some 0xff

def getPvid (map : RegisterMappings) (regs : Regs) (i : ℕ) : BitVec 16 :=
  if (defaultTagReg map i).supported then regs (defaultTagReg map i) else 0

/-- The ports of VLAN `j`; without registers for them they are made from the pvids. -/
def getVlanPorts (map : RegisterMappings) (regs : Regs) (j : ℕ) : Option (BitVec 32) :=
  if map.tagVlanMaskReg.supported then getPortBits (vlanMaskReg map j) (tagVlanMaskBits map j) regs
  else some ((List.range map.numPorts).foldl (fun bits i =>
    if (getPvid map regs i).toNat = j ∨ (getPvid map regs i).toNat = 0 then bits ||| one i else bits) 0)

/-- Results for the ports or VLANs below `n`. -/
def collect {α : Type} [Inhabited α] (n : ℕ) (f : ℕ → Option α) : Option (ℕ → α) := do
  let values ← (List.range n).mapM f
  pure fun i => values.getD i default

def getState (map : RegisterMappings) (regs : Regs) : Option State := do
  let (routerMode, vlanEnabled, numVlans) ← getFlags map regs
  let removeTag ← getPortBits map.removeTagReg map.removeTagBit regs
  let addTag ← getPortBits map.addTagReg map.addTagBit regs
  let shareports ← collect maxPorts (getShareports map regs)
  let vlanPorts ← collect maxVlans (getVlanPorts map regs)
  pure {
    routerMode := routerMode
    vlanEnabled := if vlanEnabled = -1 then (if removeTag = 0 ∧ addTag = 0 then 1 else 0) else vlanEnabled
    ports := fun i => ⟨getPvid map regs i, shareports i⟩
    addTag := addTag
    removeTag := removeTag
    numVlans := numVlans
    vlanPorts := vlanPorts }

/-! ## Into the registers -/

/-- A flag that is set or cleared, when the map has it. -/
def setFlag (bit : ℤ) (value : ℤ) (val : BitVec 32) : BitVec 32 :=
  if 0 ≤ bit then (if value ≠ 0 then val ||| one bit.toNat else val &&& ~~~one bit.toNat) else val

/-- The number of VLANs goes into its field; a number that is too large is meant to become the largest. -/
def setNumVlans (map : RegisterMappings) (numVlans : ℤ) (val : BitVec 32) : BitVec 32 :=
  if 0 ≤ map.numlanGroupsBit then
    let cleared := val &&& ~~~(BitVec.ofInt 32 (map.numlanGroupsMax - 1) <<< map.numlanGroupsBit.toNat)
    if map.numlanGroupsMax < numVlans then cleared ||| BitVec.ofInt 32 map.numlanGroupsMax <<< map.numlanGroupsBit.toNat
    else if 1 ≤ numVlans then cleared ||| BitVec.ofInt 32 (numVlans - 1) <<< map.numlanGroupsBit.toNat
    else cleared
  else val

def updateFlags (map : RegisterMappings) (state : State) (regs : Regs) : Option Regs :=
  if map.routerControlReg.supported then do
    let val ← getPhy regs map.routerControlReg
    -- the VLAN mode goes into the same register, whatever `VLAN_CONTROL_REG` is
    setPhy map.routerControlReg (setNumVlans map state.numVlans (setFlag map.tagVlanBit state.vlanEnabled
      (setFlag map.routerEnBit state.routerMode val))) regs
  else some regs

def setShareports (map : RegisterMappings) (state : State) (regs : Regs) (j : ℕ) : Option Regs :=
  if (setLookupReg map j).supported
  then setPortBits (state.ports j).shareports (setLookupReg map j) (vlanLookupBits map j) regs else some regs

def setVlanPorts (map : RegisterMappings) (state : State) (regs : Regs) (j : ℕ) : Option Regs :=
  setPortBits (state.vlanPorts j) (vlanMaskReg map j) (tagVlanMaskBits map j) regs

def setPvid (map : RegisterMappings) (state : State) (regs : Regs) (i : ℕ) : Option Regs :=
  if (defaultTagReg map i).supported
  then setPhy (defaultTagReg map i) ((state.ports i).pvid.setWidth 32) regs else some regs

def updateState (map : RegisterMappings) (state : State) (regs : Regs) : Option Regs := do
  let regs ← setPortBits state.addTag map.addTagReg map.addTagBit regs
  let regs ← setPortBits state.removeTag map.removeTagReg map.removeTagBit regs
  let regs ← if map.vlanLookupReg.supported then (List.range map.numPorts).foldlM (setShareports map state) regs
    else pure regs
  let regs ← if map.tagVlanMaskReg.supported then (List.range maxVlans).foldlM (setVlanPorts map state) regs
    else pure regs
  let regs ← (List.range maxPorts).foldlM (setPvid map state) regs
  updateFlags map state regs

end Neufbox.Ip175c
