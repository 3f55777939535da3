import Neufbox.Swconfig.Requests

/-! # The AR8216 switch driver

`ar8216.c` keeps the VLANs of the switch in tables of its own and writes them to the registers on request.
The tables are indexed with what requests store in them; an index outside a table is an error of the model,
which then says nothing more about the run. The registers belong to a device that answers a read as it likes.

`swconfig.c` brings requests to the driver: its default attributes check the numbers that a request names,
the attributes of the driver do not. -/
namespace Neufbox.Ar8216
open Neufbox.Swconfig
set_option autoImplicit false
set_option maxHeartbeats 250000
set_option maxRecDepth 120000

/-! ## Tables -/

def numPorts : ℕ := 6

def numVlans : ℕ := 16

def portCpu : ℕ := 0

inductive Table
  | attrs | defaults | vlanId | vlanTable | pvid
  deriving DecidableEq, Repr

/-- An access outside a table. -/
structure OutOfRange where
  table : Table
  index : ℤ
  deriving DecidableEq, Repr

/-- An index is used in a table of the given size. -/
def index (table : Table) (size : ℕ) (i : ℤ) : Except OutOfRange (Fin size) :=
  if h : 0 ≤ i ∧ i < size then .ok ⟨i.toNat, (Int.toNat_lt h.1).mpr h.2⟩ else .error ⟨table, i⟩

/-- The fields of `struct ar8216_priv` that a reset clears. -/
structure Priv where
  vlan : Bool
  vlanId : Fin numVlans → BitVec 8
  vlanTable : Fin numVlans → BitVec 8
  vlanTagged : BitVec 8
  pvid : Fin numPorts → BitVec 16

/-! ## Registers -/

/-- What answers `priv->read` and takes `priv->write`. -/
structure Device (σ : Type) where
  read : ℕ → σ → BitVec 32 × σ
  write : ℕ → BitVec 32 → σ → σ

/-- The device, and what was written to it. -/
structure Hw (σ : Type) where
  dev : σ
  writes : List (ℕ × BitVec 32)

def regVtu : ℕ := 0x40
def vtuOpMask : BitVec 32 := 7
def vtuOpFlush : BitVec 32 := 1
def vtuOpLoad : BitVec 32 := 2
def vtuActive : BitVec 32 := 1 <<< 3
def vtuVidS : ℕ := 16

def regVtuData : ℕ := 0x44
def vtudataMember : BitVec 32 := 0x3ff
def vtudataValid : BitVec 32 := 1 <<< 11

def portOffset (i : ℕ) : ℕ := 0x100 * (i + 1)
def regPortStatus (i : ℕ) : ℕ := portOffset i
def regPortCtrl (i : ℕ) : ℕ := portOffset i + 4
def regPortVlan (i : ℕ) : ℕ := portOffset i + 8

def portStatusSpeed : BitVec 32 := 1
def portStatusTxmac : BitVec 32 := 1 <<< 2
def portStatusRxmac : BitVec 32 := 1 <<< 3
def portStatusDuplex : BitVec 32 := 1 <<< 6
def portStatusLinkUp : BitVec 32 := 1 <<< 8
def portStatusLinkAuto : BitVec 32 := 1 <<< 9

def portCtrlState : BitVec 32 := 7
def portCtrlLearnLock : BitVec 32 := 1 <<< 7
def portCtrlVlanMode : BitVec 32 := 3 <<< 8
def portCtrlVlanModeS : ℕ := 8
def portCtrlHeader : BitVec 32 := 1 <<< 11
def portCtrlSingleVlan : BitVec 32 := 1 <<< 13
def portCtrlLearn : BitVec 32 := 1 <<< 14
def portStateForward : BitVec 32 := 4

def portVlanDefaultId : BitVec 32 := 0xfff
def portVlanDestPorts : BitVec 32 := 0x1ff <<< 16
def portVlanDestPortsS : ℕ := 16
def portVlanMode : BitVec 32 := 3 <<< 30
def portVlanModeS : ℕ := 30

def inPortFallback : BitVec 32 := 1
def inSecure : BitVec 32 := 3
def outStripVlan : BitVec 32 := 1
def outAddVlan : BitVec 32 := 2

section Registers
variable {σ : Type} (d : Device σ)

def write (reg : ℕ) (val : BitVec 32) (hw : Hw σ) : Hw σ := ⟨d.write reg val hw.dev, hw.writes ++ [(reg, val)]⟩

/-- `ar8216_rmw`, whose result is not used. -/
def rmw (reg : ℕ) (mask val : BitVec 32) (hw : Hw σ) : Hw σ :=
  let r := d.read reg hw.dev
  write d reg ((r.1 &&& ~~~mask) ||| val) { hw with dev := r.2 }

/-- `ar8216_wait_bit` with the polls that are left: whether it gave up. -/
def waitBit (reg : ℕ) (mask val : BitVec 32) : ℕ → Hw σ → Bool × Hw σ
  | 0, hw =>
    let r := d.read reg hw.dev
    (r.1 &&& mask != val, { hw with dev := r.2 })
  | timeout + 1, hw =>
    let r := d.read reg hw.dev
    if r.1 &&& mask ≠ val then waitBit reg mask val timeout { hw with dev := r.2 } else (false, { hw with dev := r.2 })

def vtuOp (op val : BitVec 32) (hw : Hw σ) : Hw σ :=
  let r := waitBit d regVtu vtuActive 0 20 hw
  if r.1 then r.2
  else
    let hw := if op &&& vtuOpMask = vtuOpLoad
      then write d regVtuData ((val &&& vtudataMember) ||| vtudataValid) r.2 else r.2
    write d regVtu (op ||| vtuActive) hw

end Registers

/-! ## Attributes of the driver -/

def setVlan (i : BitVec 32) (priv : Priv) : Priv := { priv with vlan := i ≠ 0 }

/-- `priv->pvid[port] = vlan` -/
def setPvid (port vlan : ℤ) (priv : Priv) : Except OutOfRange Priv := do
  let port ← index .pvid numPorts port
  pure { priv with pvid := Function.update priv.pvid port (BitVec.ofInt 16 vlan) }

def getPvid (port : ℤ) (priv : Priv) : Except OutOfRange (BitVec 32) := do
  let port ← index .pvid numPorts port
  pure ((priv.pvid port).setWidth 32)

/-- The table of the ids has elements of eight bits. -/
def setVid (portVlan : ℤ) (i : BitVec 32) (priv : Priv) : Except OutOfRange Priv := do
  let vlan ← index .vlanId numVlans portVlan
  pure { priv with vlanId := Function.update priv.vlanId vlan (i.setWidth 8) }

def getVid (portVlan : ℤ) (priv : Priv) : Except OutOfRange (BitVec 32) := do
  let vlan ← index .vlanId numVlans portVlan
  pure ((priv.vlanId vlan).setWidth 32)

/-! ## Members of a VLAN -/

/-- `SWITCH_PORT_FLAG_TAGGED`, the number of a netlink attribute. -/
def flagTagged : ℕ := 2

/-- The flags that `swconfig_parse_ports` sets in the cleared buffer. -/
def flags (p : SwitchPort) : BitVec 32 := if p.tagged then 1 <<< flagTagged else 0

/-- `1 << i` in a table of bytes. -/
def bit (i : ℕ) : BitVec 8 := BitVec.twoPow 8 i

/-- The ports that a value holds. -/
def portList (val : SwitchVal) : List SwitchPort :=
  (List.range val.len.toNat).map (val.ports.getD fun _ => ⟨0, false⟩)

def getPorts (val : SwitchVal) (priv : Priv) : Except OutOfRange (List SwitchPort) := do
  let vlan ← index .vlanTable numVlans val.portVlan
  pure (((List.range numPorts).filter fun i => (priv.vlanTable vlan).getLsbD i).map fun i =>
    ⟨BitVec.ofNat 32 i, priv.vlanTagged.getLsbD i⟩)

/-- One turn of the loop of `ar8216_set_ports`, with the entry of the VLAN in `vt`. -/
def setPort (portVlan : ℤ) (vt : Fin numVlans) (priv : Priv) (p : SwitchPort) : Except OutOfRange Priv := do
  let priv ← if flags p &&& 1 <<< flagTagged ≠ 0 then
      pure { priv with vlanTagged := priv.vlanTagged ||| bit p.id.toNat }
    else do
      let priv ← setPvid p.id.toNat portVlan { priv with vlanTagged := priv.vlanTagged &&& ~~~bit p.id.toNat }
      -- an untagged port does not appear in other VLANs
      pure { priv with vlanTable := fun j => if j = vt then priv.vlanTable j else priv.vlanTable j &&& ~~~bit p.id.toNat }
  pure { priv with vlanTable := Function.update priv.vlanTable vt (priv.vlanTable vt ||| bit p.id.toNat) }

def setPorts (val : SwitchVal) (priv : Priv) : Except OutOfRange Priv := do
  let vt ← index .vlanTable numVlans val.portVlan
  (portList val).foldlM (setPort val.portVlan vt) { priv with vlanTable := Function.update priv.vlanTable vt 0 }

/-! ## Activation -/

/-- `portmask[i] |= vp & ~mask` for the members of one VLAN. -/
def addVlan (vp : BitVec 8) (portmask : Fin numPorts → BitVec 8) (i : Fin numPorts) : BitVec 8 :=
  if vp &&& bit i ≠ 0 then portmask i ||| (vp &&& ~~~bit i) else portmask i

/-- One turn of the loop over the VLANs. -/
def loadVlan {σ : Type} (d : Device σ) (priv : Priv) (s : (Fin numPorts → BitVec 8) × Hw σ) (j : Fin numVlans) :
    (Fin numPorts → BitVec 8) × Hw σ :=
  if priv.vlanTable j = 0 then s
  else (addVlan (priv.vlanTable j) s.1,
    vtuOp d (vtuOpLoad ||| (priv.vlanId j).setWidth 32 <<< vtuVidS) ((priv.vlanTable j).setWidth 32) s.2)

def loadVlans {σ : Type} (d : Device σ) (priv : Priv) (s : (Fin numPorts → BitVec 8) × Hw σ) :
    (Fin numPorts → BitVec 8) × Hw σ :=
  (List.finRange numVlans).foldl (loadVlan d priv) s

/-- Without VLANs the ports are isolated, but connected to the CPU port. -/
def cpuOnly (i : Fin numPorts) : BitVec 8 :=
  if i.val = portCpu then
    (List.finRange numPorts).foldl (fun m (j : Fin numPorts) => if j.val = portCpu then m else m ||| bit j) 0
  else bit portCpu

/-- `pvid` of the loop over the ports. -/
def defaultVid (priv : Priv) (i : Fin numPorts) : Except OutOfRange (BitVec 32) :=
  if priv.vlan then do
    let vlan ← index .vlanId numVlans (priv.pvid i).toNat
    pure ((priv.vlanId vlan).setWidth 32)
  else pure (BitVec.ofNat 32 i)

/-- A port of a VLAN switch that sends with tags. -/
def sendsTagged (priv : Priv) (i : Fin numPorts) : Bool := priv.vlan && priv.vlanTagged &&& bit i != 0

def portCtrlMask : BitVec 32 :=
  portCtrlLearn ||| portCtrlVlanMode ||| portCtrlSingleVlan ||| portCtrlState ||| portCtrlHeader ||| portCtrlLearnLock

def portCtrlVal (priv : Priv) (i : Fin numPorts) : BitVec 32 :=
  portCtrlLearn ||| (if sendsTagged priv i then outAddVlan else outStripVlan) <<< portCtrlVlanModeS |||
    (if priv.vlan then portCtrlSingleVlan else 0) ||| portStateForward

def portVlanMask : BitVec 32 := portVlanDestPorts ||| portVlanMode ||| portVlanDefaultId

def portVlanVal (priv : Priv) (portmask : BitVec 8) (pvid : BitVec 32) (i : Fin numPorts) : BitVec 32 :=
  portmask.setWidth 32 <<< portVlanDestPortsS |||
    (if sendsTagged priv i then inPortFallback else inSecure) <<< portVlanModeS ||| pvid

/-- One turn of the loop over the ports. -/
def updatePort {σ : Type} (d : Device σ) (priv : Priv) (portmask : Fin numPorts → BitVec 8) (hw : Hw σ)
    (i : Fin numPorts) : Except OutOfRange (Hw σ) := do
  let pvid ← defaultVid priv i
  let hw := rmw d (regPortCtrl i) portCtrlMask (portCtrlVal priv i) hw
  pure (rmw d (regPortVlan i) portVlanMask (portVlanVal priv (portmask i) pvid i) hw)

def hwApply {σ : Type} (d : Device σ) (priv : Priv) (hw : Hw σ) : Except OutOfRange (Hw σ) :=
  let hw := vtuOp d vtuOpFlush 0 hw
  let s := if priv.vlan then loadVlans d priv (fun _ => 0, hw) else (cpuOnly, hw)
  (List.finRange numPorts).foldlM (updatePort d priv s.1) s.2

def cleared : Priv := ⟨false, fun i => BitVec.ofNat 8 i, fun _ => 0, 0, fun _ => 0⟩

/-- One turn of the loop of `ar8216_reset_switch`. -/
def resetPort {σ : Type} (d : Device σ) (hw : Hw σ) (i : Fin numPorts) : Hw σ :=
  let hw := write d (regPortCtrl i) (portCtrlLearn ||| 4) hw
  let hw := write d (regPortVlan i) 0 hw
  write d (regPortStatus i) (if i.val = portCpu
    then portStatusLinkUp ||| portStatusSpeed ||| portStatusTxmac ||| portStatusRxmac ||| portStatusDuplex
    else portStatusLinkAuto) hw

def resetSwitch {σ : Type} (d : Device σ) (hw : Hw σ) : Except OutOfRange (Priv × Hw σ) := do
  let hw := (List.finRange numPorts).foldl (resetPort d) hw
  -- an undocumented register
  let hw := write d 0x38 0xc000050e hw
  let hw ← hwApply d cleared hw
  pure (cleared, hw)

/-! ## Requests -/

/-- The attributes of the driver, and the defaults of `swconfig.c`. -/
inductive Attr
  | vlan | vid | apply | reset | ports | pvid
  deriving DecidableEq, Repr

/-- `ar8216_globals`, `ar8216_port` and `ar8216_vlan` -/
def ownAttrs : Group → List Attr
  | .global => [.vlan]
  | .port => []
  | .vlan => [.vid]

/-- `default_global`, `default_port` and `default_vlan`; the driver has all callbacks, so all are active. -/
def defaultAttrs : Group → List Attr
  | .global => [.apply, .reset]
  | .port => [.pvid]
  | .vlan => [.ports]

structure State (σ : Type) where
  priv : Priv
  hw : Hw σ

/-- The number of a VLAN or of a port, as a signed integer. -/
def requestNumber (info : GenlInfo) : Group → Option ℤ
  | .global => some 0
  | .vlan => info.opVlan.map BitVec.toInt
  | .port => info.opPort.map BitVec.toInt

/-- The entry of a list that `swconfig_lookup_attr` takes. -/
def entryAt (group : Group) (attrId : ℤ) : Except OutOfRange (Option Attr) :=
  if defaultsOffset ≤ attrId then
    if ((defaultAttrs group).length : ℤ) ≤ attrId - defaultsOffset then .ok none
    else do
      let i ← index .defaults (defaultAttrs group).length (attrId - defaultsOffset)
      pure (some ((defaultAttrs group).get i))
  else if ((ownAttrs group).length : ℤ) ≤ attrId then .ok none
  else do
    let i ← index .attrs (ownAttrs group).length attrId
    pure (some ((ownAttrs group).get i))

/-- `swconfig_lookup_attr`: the attribute and `val->port_vlan`. -/
def lookup (info : GenlInfo) : Except OutOfRange (Option (Attr × ℤ)) :=
  match info.opId, info.cmd with
  | some opId, some group =>
    match requestNumber info group with
    | none => .ok none
    | some portVlan => do
      let attr ← entryAt group opId.toInt
      pure (attr.map fun attr => (attr, portVlan))
  | _, _ => .ok none

/-- The loop of `swconfig_set_vlan_ports` over the ports that are left: an error of the request, or `none`. -/
def validatePorts (portVlan : ℤ) : List SwitchPort → Priv → Except OutOfRange (Option ℤ × Priv)
  | [], priv => .ok (none, priv)
  | p :: rest, priv =>
    if numPorts ≤ p.id.toNat then .ok (some (-EINVAL), priv)
    else if flags p &&& BitVec.ofNat 32 flagTagged = 0 then do
      let priv ← setPvid p.id.toNat portVlan priv
      validatePorts portVlan rest priv
    else validatePorts portVlan rest priv

/-- `swconfig_set_vlan_ports` -/
def setVlanPorts (val : SwitchVal) (priv : Priv) : Except OutOfRange (ℤ × Priv) :=
  if (numVlans : ℤ) ≤ val.portVlan then .ok (-EINVAL, priv)
  else if (numPorts : ℤ) < val.len then .ok (-EINVAL, priv)
  else do
    let r ← validatePorts val.portVlan (portList val) priv
    match r.1 with
    | some err => pure (err, r.2)
    | none => do
      let priv ← setPorts val r.2
      pure (0, priv)

/-- The buffer for ports, filled with zeros. -/
def portbuf (portVlan : ℤ) : SwitchVal := ⟨portVlan, 0, 0, none, some fun _ => ⟨0, false⟩⟩

/-- A request for the ports of a VLAN, from the parser on. -/
def requestPorts (nlas : Option (List (Option (Option (BitVec 32) × Bool)))) (portVlan : ℤ) (priv : Priv) :
    Except OutOfRange (ℤ × Priv) :=
  match nlas with
  | none => setVlanPorts (portbuf portVlan) priv
  | some nlas =>
    let r := parsePorts numPorts nlas (portbuf portVlan)
    if r.1 < 0 then .ok (r.1, priv) else setVlanPorts r.2 priv

section Requests
variable {σ : Type} (d : Device σ)

/-- An attribute of the type `SWITCH_TYPE_INT` needs a value. -/
def withValue (info : GenlInfo) (s : State σ) (set : BitVec 32 → Except OutOfRange (ℤ × State σ)) :
    Except OutOfRange (ℤ × State σ) :=
  match info.valueInt with
  | none => pure (-EINVAL, s)
  | some i => set i

/-- `swconfig_set_attr` -/
def setAttr (info : GenlInfo) (s : State σ) : Except OutOfRange (ℤ × State σ) := do
  match ← lookup info with
  | none => pure (-EINVAL, s)
  | some (attr, portVlan) =>
    match attr with
    | .vlan => withValue info s fun i => pure (0, { s with priv := setVlan i s.priv })
    | .vid => withValue info s fun i => do
      let priv ← setVid portVlan i s.priv
      pure (0, { s with priv := priv })
    | .pvid => withValue info s fun i =>
      if (numPorts : ℤ) ≤ portVlan then pure (-EINVAL, s)
      else do
        let priv ← setPvid portVlan i.toInt s.priv
        pure (0, { s with priv := priv })
    | .ports => do
      let r ← requestPorts info.valuePorts portVlan s.priv
      pure (r.1, { s with priv := r.2 })
    | .apply => do
      let hw ← hwApply d s.priv s.hw
      pure (0, { s with hw := hw })
    | .reset => do
      let r ← resetSwitch d s.hw
      pure (0, ⟨r.1, r.2⟩)

/-- The callback of `swconfig_get_attr`; what it finds goes into the answer. -/
def getAttr (info : GenlInfo) (s : State σ) : Except OutOfRange ℤ := do
  match ← lookup info with
  | none => pure (-EINVAL)
  | some (attr, portVlan) =>
    match attr with
    | .vlan => pure 0
    | .vid => do
      let _ ← getVid portVlan s.priv
      pure 0
    | .ports =>
      if (numVlans : ℤ) ≤ portVlan then pure (-EINVAL)
      else do
        let _ ← getPorts (portbuf portVlan) s.priv
        pure 0
    | .pvid =>
      if (numPorts : ℤ) ≤ portVlan then pure (-EINVAL)
      else do
        let _ ← getPvid portVlan s.priv
        pure 0
    | .apply | .reset => pure (-EINVAL)

end Requests

end Neufbox.Ar8216
