import Mathlib.Tactic

/-! # Netlink requests to switches

`swconfig.c`: `swconfig_list_attrs`, `swconfig_set_attr` and `swconfig_get_attr` take the lock of a device and
answer in messages. What the kernel and the driver do (whether a message is allocated, whether data fits into
it, what the callbacks and `genlmsg_unicast` return) is given with the request; the fill and close functions
write into the message at hand and do nothing else with it. -/
namespace Neufbox.Swconfig
set_option autoImplicit false
set_option maxHeartbeats 250000
set_option maxRecDepth 120000

/-! ## Locks and messages -/

/-- Messages are numbered as they are allocated. -/
abbrev Msg := ℕ

/-- What has happened to the lock of the device and to the messages. -/
structure Kernel where
  locks : ℕ
  unlocks : ℕ
  allocated : ℕ
  sent : Msg → ℕ
  freed : Msg → ℕ

def idle : Kernel := ⟨0, 0, 0, fun _ => 0, fun _ => 0⟩

namespace Kernel

def lock (k : Kernel) : Kernel := { k with locks := k.locks + 1 }

def unlock (k : Kernel) : Kernel := { k with unlocks := k.unlocks + 1 }

/-- `nlmsg_new`; `ok` says whether there is memory. -/
def nlmsgNew (ok : Bool) (k : Kernel) : Option Msg × Kernel :=
  if ok then (some k.allocated, { k with allocated := k.allocated + 1 }) else (none, k)

/-- `genlmsg_unicast`, which takes the message whatever it returns. -/
def unicast (msg : Msg) (k : Kernel) : Kernel :=
  { k with sent := Function.update k.sent msg (k.sent msg + 1) }

def nlmsgFree (msg : Msg) (k : Kernel) : Kernel :=
  { k with freed := Function.update k.freed msg (k.freed msg + 1) }

/-- `if (msg) nlmsg_free(msg)` -/
def freeIfAny : Option Msg → Kernel → Kernel
  | some msg, k => k.nlmsgFree msg
  | none, k => k

end Kernel

/-! ## Devices and requests -/

inductive ValType
  | unspec | int | string | ports | noval
  deriving DecidableEq, Repr

structure SwitchPort where
  id : BitVec 32
  tagged : Bool
  deriving DecidableEq, Repr

/-- `struct switch_val`; `ports` is the memory that the pointer leads to, if it is not null. -/
structure SwitchVal where
  portVlan : ℤ
  len : ℤ
  i : BitVec 32
  s : Option String
  ports : Option (ℕ → SwitchPort)

def SwitchVal.zero : SwitchVal := ⟨0, 0, 0, none, none⟩

/-- `struct switch_attr`, with what its callbacks do. -/
structure SwitchAttr where
  disabled : Bool
  type : ValType
  set : Option (SwitchVal → ℤ)
  get : Option (SwitchVal → ℤ × SwitchVal)

/-- The table is memory: a negative index reads what lies before it. -/
structure AttrList where
  nAttr : ℤ
  attr : ℤ → SwitchAttr

inductive Group
  | global | vlan | port
  deriving DecidableEq, Repr

structure SwitchDev where
  id : ℤ
  attrs : Group → AttrList
  /-- the default attributes of a group, and the bits `def_global`, `def_vlan` and `def_port` -/
  defaults : Group → List SwitchAttr
  active : Group → ℕ → Bool
  ports : ℤ
  hasPortbuf : Bool

/-- The commands of a handler; `none` is a command that it does not know. -/
structure GenlInfo where
  cmd : Option Group
  id : Option (BitVec 32)
  opId : Option (BitVec 32)
  opVlan : Option (BitVec 32)
  opPort : Option (BitVec 32)
  valueInt : Option (BitVec 32)
  valueStr : Option String
  /-- a nested port; `none` when it does not parse -/
  valuePorts : Option (List (Option (Option (BitVec 32) × Bool)))

def EINVAL : ℤ := 22
def ENOMEM : ℤ := 12

def defaultsOffset : ℤ := 0x1000

/-- `swconfig_get_dev`, without the lock. -/
def findDev (devs : List SwitchDev) (info : GenlInfo) : Option SwitchDev :=
  info.id.bind fun id => devs.find? fun p => id.toInt = p.id

/-! ## Messages in several parts -/

/-- What happens in a call of `swconfig_send_multipart`: the results of the fill function and of
`genlmsg_unicast`, and whether there is memory for a message when one is wanted. -/
structure Outcomes where
  newFirst : Bool
  fillFirst : ℤ
  unicast : ℤ
  newSecond : Bool
  fillSecond : ℤ
  deriving DecidableEq, Repr

/-- `if (!cb->msg)` of `swconfig_send_multipart`. -/
def ensureMsg (ok : Bool) : Option Msg → Kernel → Option Msg × Kernel
  | some msg, k => (some msg, k)
  | none, k => k.nlmsgNew ok

/-- The loop goes round twice at most; the close functions do not fail. The results are the return value and
`cb->msg`, which keeps a message that the error path frees. -/
def sendMultipart (o : Outcomes) (cbMsg : Option Msg) (k : Kernel) : ℤ × Option Msg × Kernel :=
  match ensureMsg o.newFirst cbMsg k with
  | (none, k) => (-1, none, k)
  | (some msg, k) =>
    if 0 ≤ o.fillFirst then (0, some msg, k)
    else if o.unicast < 0 then (-1, none, k.unicast msg)
    else
      match ensureMsg o.newSecond none (k.unicast msg) with
      | (none, k) => (-1, none, k)
      | (some msg, k) => if 0 ≤ o.fillSecond then (0, some msg, k) else (-1, some msg, k.nlmsgFree msg)

/-- A loop of calls, up to the first error. -/
def sendAll : List Outcomes → Option Msg → Kernel → ℤ × Option Msg × Kernel
  | [], cbMsg, k => (0, cbMsg, k)
  | o :: rest, cbMsg, k =>
    let r := sendMultipart o cbMsg k
    if r.1 < 0 then r else sendAll rest r.2.1 r.2.2

/-! ## Listing -/

/-- What happens while attributes are listed, by their places in the tables, and what the last
`genlmsg_unicast` returns. -/
structure ListEnv where
  own : ℕ → Outcomes
  default : ℕ → Outcomes
  last : ℤ

/-- The attributes to be listed: those that are not disabled, and the defaults whose bits are set. -/
def listed (dev : SwitchDev) (group : Group) (env : ListEnv) : List Outcomes :=
  ((List.range (dev.attrs group).nAttr.toNat).filter fun i : ℕ => !((dev.attrs group).attr (i : ℤ)).disabled).map env.own ++
    ((List.range (dev.defaults group).length).filter (dev.active group)).map env.default

def listAttrs (devs : List SwitchDev) (info : GenlInfo) (env : ListEnv) : ℤ × Kernel :=
  match findDev devs info with
  | none => (-EINVAL, idle)
  | some dev =>
    match info.cmd with
    | none => (-EINVAL, idle.lock.unlock)
    | some group =>
      let r := sendAll (listed dev group env) none idle.lock
      if r.1 < 0 then (r.1, (r.2.2.freeIfAny r.2.1).unlock)
      else
        match r.2.1 with
        | none => (0, r.2.2.unlock)
        | some msg => (env.last, r.2.2.unlock.unicast msg)

/-! ## Attributes -/

def lookupAttr (dev : SwitchDev) (info : GenlInfo) : Option (SwitchAttr × SwitchVal) :=
  info.opId.bind fun opId =>
    info.cmd.bind fun group =>
      let portVlan : Option ℤ :=
        match group with
        | .global => some 0
        | .vlan => info.opVlan.map BitVec.toInt
        | .port => info.opPort.map BitVec.toInt
      portVlan.bind fun portVlan =>
        let attrId := opId.toInt
        let attr : Option SwitchAttr :=
          if defaultsOffset ≤ attrId then
            if dev.active group (attrId - defaultsOffset).toNat then
              (dev.defaults group)[(attrId - defaultsOffset).toNat]?
            else none
          else if (dev.attrs group).nAttr ≤ attrId then none
          else some ((dev.attrs group).attr attrId)
        attr.bind fun attr => if attr.disabled then none else some (attr, { SwitchVal.zero with portVlan := portVlan })

def parsePorts (max : ℤ) : List (Option (Option (BitVec 32) × Bool)) → SwitchVal → ℤ × SwitchVal
  | [], val => (0, val)
  | nla :: rest, val =>
    if max ≤ val.len then (-EINVAL, val)
    else
      match nla with
      | some (some id, tagged) =>
        parsePorts max rest { val with
          len := val.len + 1
          ports := val.ports.map fun ports => Function.update ports val.len.toNat ⟨id, tagged⟩ }
      | _ => (-EINVAL, val)

/-- `dev->portbuf`, filled with zeros. -/
def clearedPorts (dev : SwitchDev) : Option (ℕ → SwitchPort) := if dev.hasPortbuf then some fun _ => ⟨0, false⟩ else none

/-- The value that is given to the driver, or the error. -/
def requestedVal (dev : SwitchDev) (info : GenlInfo) (type : ValType) (val : SwitchVal) : Except ℤ SwitchVal :=
  match type with
  | .noval => .ok val
  | .int => match info.valueInt with
    | none => .error (-EINVAL)
    | some i => .ok { val with i := i }
  | .string => match info.valueStr with
    | none => .error (-EINVAL)
    | some s => .ok { val with s := some s }
  | .ports => match info.valuePorts with
    | none => .ok { val with ports := clearedPorts dev, len := 0 }
    | some nlas =>
      let r := parsePorts dev.ports nlas { val with ports := clearedPorts dev, len := 0 }
      if r.1 < 0 then .error r.1 else .ok r.2
  | .unspec => .error (-EINVAL)

def setAttr (devs : List SwitchDev) (info : GenlInfo) : ℤ × Kernel :=
  match findDev devs info with
  | none => (-EINVAL, idle)
  | some dev =>
    match lookupAttr dev info with
    | none => (-EINVAL, idle.lock.unlock)
    | some (attr, val) =>
      match attr.set with
      | none => (-EINVAL, idle.lock.unlock)
      | some set =>
        match requestedVal dev info attr.type val with
        | .error err => (err, idle.lock.unlock)
        | .ok val => (set val, idle.lock.unlock)

/-- What happens while the answer is made. -/
structure GetEnv where
  newMsg : Bool
  hdr : ℤ
  put : ℤ
  parts : ℕ → Outcomes
  finish : ℤ
  last : ℤ

/-- The results are the return value and `*msg`, which is not set on the error path. -/
def sendPorts (env : GetEnv) (msg : Msg) (val : SwitchVal) (k : Kernel) : ℤ × Msg × Kernel :=
  match val.ports with
  | none => (-EINVAL, msg, k)
  | some _ =>
    let r := sendAll ((List.range val.len.toNat).map env.parts) (some msg) k
    if r.1 < 0 then (r.1, msg, r.2.2) else (val.len, r.2.1.getD msg, r.2.2)

/-- From `genlmsg_end` on. -/
def finishAttr (env : GetEnv) (msg : Msg) (k : Kernel) : ℤ × Kernel :=
  if env.finish < 0 then (env.finish, (k.nlmsgFree msg).unlock) else (env.last, k.unlock.unicast msg)

/-- `swconfig_get_attr` from the result of the driver on. -/
def answerAttr (env : GetEnv) (type : ValType) (r : ℤ × SwitchVal) : ℤ × Kernel :=
  -- these two do not go through `error_dev`
  if r.1 ≠ 0 then (r.1, idle.lock)
  else
    match idle.lock.nlmsgNew env.newMsg with
    | (none, k) => (-ENOMEM, k)
    | (some msg, k) =>
      if env.hdr < 0 then (-ENOMEM, (k.nlmsgFree msg).unlock)
      else
        match type with
        | .int | .string => if env.put < 0 then (-ENOMEM, (k.nlmsgFree msg).unlock) else finishAttr env msg k
        | .ports =>
          let s := sendPorts env msg r.2 k
          if s.1 < 0 then (s.1, (s.2.2.nlmsgFree s.2.1).unlock) else finishAttr env s.2.1 s.2.2
        | _ => (-EINVAL, k)

def getAttr (devs : List SwitchDev) (info : GenlInfo) (env : GetEnv) : ℤ × Kernel :=
  match findDev devs info with
  | none => (-EINVAL, idle)
  | some dev =>
    match lookupAttr dev info with
    | none => (-EINVAL, idle.lock.unlock)
    | some (attr, val) =>
      match attr.get with
      | none => (-EINVAL, idle.lock.unlock)
      | some get =>
        answerAttr env attr.type (get (if attr.type = .ports then { val with ports := clearedPorts dev } else val))

end Neufbox.Swconfig
