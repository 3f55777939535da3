import Neufbox.Library.RunAlong

/-! # The wireless probe core: values, statistics and netlink dumps

An interface keeps one value array for its globals, one for each link, and one `queryVal` into which
the first batch of a `GET_INFO` dump copies the values it found. The later batches of the dump read
`queryVal`; what they know of their own dump is in the netlink callback (`CbArgs`). An array is a
function of the index: all reads and copies stay below `max n_link_items n_global_items`, the
number of entries allocated. -/
namespace Neufbox.Wprobe
set_option autoImplicit false
set_option maxHeartbeats 250000
set_option maxRecDepth 120000

/-! ## Items and values -/

inductive ValueType
  | string
  | s8 | s16 | s32 | s64
  | u8 | u16 | u32 | u64
  | other (attr : ℕ)
  deriving DecidableEq, Repr

structure WprobeItem where
  name : List UInt8
  type : ValueType
  flags : ℕ
  deriving DecidableEq, Repr

def wprobeFKeepstat : ℕ := 2 ^ 0
def wprobeFReset : ℕ := 2 ^ 1
def wprobeFLink : ℕ := 2 ^ 31

def hasFlag (flags flag : ℕ) : Bool := flags &&& flag != 0

/-- `struct wprobe_value`. `raw` is the union of the typed members, its eight bytes as one number;
`s` and `ss` are `s64`, `n` is an `unsigned int`, the timestamps are `u64`. -/
structure WprobeValue where
  pending : Bool := false
  raw : ℕ := 0
  s : ℤ := 0
  ss : ℤ := 0
  n : ℕ := 0
  first : ℕ := 0
  last : ℕ := 0
  deriving DecidableEq, Repr

def asS64 (x : ℤ) : ℤ := x.bmod (2 ^ 64)

/-- What the members of the union depend on: the byte order, the size of a pointer, and the texts
that pointers lead to. -/
structure Machine where
  bigEndian : Bool
  pointerBits : ℕ
  textAt : ℕ → List UInt8

namespace Machine

def member (mach : Machine) (width : ℕ) (v : WprobeValue) : ℕ :=
  if mach.bigEndian then v.raw / 2 ^ (64 - width) % 2 ^ width else v.raw % 2 ^ width

def signedMember (mach : Machine) (width : ℕ) (v : WprobeValue) : ℤ :=
  (mach.member width v : ℤ).bmod (2 ^ width)

end Machine

/-- The value as the `s64 v` of `wprobe_update_stats`; `none` is the `default: continue`. -/
def sampleOf (mach : Machine) (v : WprobeValue) : ValueType → Option ℤ
  | .s8 => some (mach.signedMember 8 v)
  | .s16 => some (mach.signedMember 16 v)
  | .s32 => some (mach.signedMember 32 v)
  | .s64 => some (mach.signedMember 64 v)
  | .u8 => some (mach.member 8 v)
  | .u16 => some (mach.member 16 v)
  | .u32 => some (mach.member 32 v)
  | .u64 => some (asS64 (mach.member 64 v))
  | .string => none
  | .other _ => none

def updateValue (mach : Machine) (type : ValueType) (v : WprobeValue) : WprobeValue :=
  if v.pending then
    let v := { v with n := (v.n + 1) % 2 ^ 32 }
    match sampleOf mach v type with
    | some x =>
        { v with s := asS64 (v.s + x), ss := asS64 (v.ss + asS64 (x * x)), pending := false }
    | none => v
  else v

/-- The division of `wprobe_scale_stats`; `div_s64` takes its divisor as an `s32`. -/
def scaleValue (scale : ℕ) (v : WprobeValue) : WprobeValue :=
  if 0 < scale ∧ scale < v.n then
    let divisor := (scale : ℤ).bmod (2 ^ 32)
    { v with s := asS64 (v.s.tdiv divisor), ss := asS64 (v.ss.tdiv divisor),
             n := (v.n / scale + 1) % 2 ^ 32 }
  else v

abbrev Values := ℕ → WprobeValue

def wprobeUpdateStats (mach : Machine) (items : List WprobeItem) (val : Values) : Values :=
  fun i => match items[i]? with
    | some item => updateValue mach item.type (val i)
    | none => val i

/-- `scale` of `wprobe_scale_stats` for one item. It is a variable of the function, but every item
that keeps statistics sets it again or leaves it 0. -/
def scaleFor (flags : ℕ) (scaleAttr : Option ℕ) (v : WprobeValue) : ℕ :=
  if hasFlag flags wprobeFReset then v.n else scaleAttr.getD 0

def wprobeScaleStats (items : List WprobeItem) (flags : ℕ) (scaleAttr : Option ℕ) (val : Values) :
    Values :=
  fun i => match items[i]? with
    | some item =>
        if hasFlag item.flags wprobeFKeepstat then
          scaleValue (scaleFor flags scaleAttr (val i)) (val i)
        else val i
    | none => val i

/-- `memcpy` of the first `n` entries. -/
def copyValues (dst src : Values) (n : ℕ) : Values := fun i => if i < n then src i else dst i

/-! ## Interfaces and links -/

/-- `struct wprobe_link`; `ptr` stands for its address, which `cb->args[1]` keeps. -/
structure WprobeLink where
  ptr : ℕ
  addr : List UInt8
  flags : ℕ
  val : Values

structure WprobeIface where
  name : List UInt8
  addr : Option (List UInt8)
  linkItems : List WprobeItem
  globalItems : List WprobeItem
  links : List WprobeLink
  val : Values
  queryVal : Values

namespace WprobeIface

def items (dev : WprobeIface) (ofLink : Bool) : List WprobeItem :=
  if ofLink then dev.linkItems else dev.globalItems

def valuesOf (dev : WprobeIface) (l : Option ℕ) : Values :=
  match l with
  | none => dev.val
  | some p =>
      match dev.links.find? fun link => link.ptr = p with
      | some link => link.val
      | none => fun _ => {}

def setValues (dev : WprobeIface) (l : Option ℕ) (val : Values) : WprobeIface :=
  match l with
  | none => { dev with val := val }
  | some p =>
      { dev with links := dev.links.map fun link => if link.ptr = p then { link with val := val } else link }

end WprobeIface

def wprobeFindLink (dev : WprobeIface) (mac : List UInt8) : Option WprobeLink :=
  dev.links.find? fun link => link.addr.take 6 = mac.take 6

/-- One call of the driver's `sync_data`: whether it reports an error, and what it leaves in the
value array. -/
structure SyncCall where
  err : Bool
  fill : Values → Values

/-- `wprobe_sync_data` returns 0 also when the driver reports an error. -/
def wprobeSyncData (mach : Machine) (sync : SyncCall) (dev : WprobeIface) (l : Option ℕ) (query : Bool) :
    WprobeIface :=
  let items := dev.items l.isSome
  let val := sync.fill (dev.valuesOf l)
  if sync.err then dev.setValues l val
  else
    let queryVal := if query then copyValues dev.queryVal val items.length else dev.queryVal
    { dev.setValues l (wprobeUpdateStats mach items val) with queryVal := queryVal }

/-! ## Messages -/

inductive Payload
  | num (width value : ℕ)
  | text (bytes : List UInt8)
  | skipped
  deriving DecidableEq, Repr

structure Statistics where
  s : ℤ
  ss : ℤ
  n : ℕ
  deriving DecidableEq, Repr

structure ItemMessage where
  id : ℕ
  flags : ℕ
  type : ValueType
  duration : ℕ
  value : Payload
  stats : Option Statistics
  deriving DecidableEq, Repr

structure InfoMessage where
  mac : Option (List UInt8)
  id : ℕ
  name : List UInt8
  type : ValueType
  flags : ℕ
  deriving DecidableEq, Repr

inductive Message
  | value (msg : ItemMessage)
  | info (msg : InfoMessage)
  deriving DecidableEq, Repr

def payloadOf (mach : Machine) (v : WprobeValue) : ValueType → Payload
  | .s8 | .u8 => .num 8 (mach.member 8 v)
  | .s16 | .u16 => .num 16 (mach.member 16 v)
  | .s32 | .u32 => .num 32 (mach.member 32 v)
  | .s64 | .u64 => .num 64 (mach.member 64 v)
  | .string =>
      let ptr := mach.member mach.pointerBits v
      .text (if ptr = 0 then [] else mach.textAt ptr)
  | .other _ => .skipped

def carriesStats : ValueType → Bool
  | .string => false
  | .other _ => false
  | _ => true

def wprobeSendItemValue (mach : Machine) (item : WprobeItem) (v : WprobeValue) (i flags : ℕ) :
    ItemMessage where
  id := i
  flags := flags
  type := item.type
  duration := (v.last + (2 ^ 64 - v.first % 2 ^ 64)) % 2 ^ 64
  value := payloadOf mach v item.type
  stats :=
    if carriesStats item.type && hasFlag item.flags wprobeFKeepstat then
      some { s := v.s, ss := v.ss, n := v.n }
    else none

def wprobeSendItemInfo (dev : WprobeIface) (item : WprobeItem) (i : ℕ) : InfoMessage where
  mac := if i = 0 then dev.addr else none
  id := i
  name := item.name
  type := item.type
  flags := item.flags

/-! ## Dumps -/

/-- The two commands whose `dumpit` is `wprobe_dump_info`. -/
inductive Cmd
  | getInfo
  | getList
  deriving DecidableEq, Repr

/-- The request of a dump: the command and the attributes `nlmsg_parse` finds, or its error. -/
structure Request where
  cmd : Cmd
  parseErr : Option ℕ := none
  interface : Option (List UInt8) := none
  mac : Option (List UInt8) := none
  flags : Option ℕ := none
  scale : Option ℕ := none
  deriving DecidableEq, Repr

/-- `cb->args`: whether the device is set, the link, `vflags` and the next index. -/
structure CbArgs where
  dev : Bool := false
  link : Option ℕ := none
  vflags : ℕ := 0
  i : ℕ := 0
  deriving DecidableEq, Repr

/-- What a batch meets outside the core: the number of items the message has room for, the
driver's `sync_data`, and the `flags` word that `spin_lock_irqsave` fills in. -/
structure Batch where
  room : ℕ
  sync : SyncCall
  irqFlags : ℕ

inductive Errno
  | enoent
  | parse (err : ℕ)
  deriving DecidableEq, Repr

structure Opened where
  dev : WprobeIface
  args : CbArgs

/-- The locked part of a first `GET_INFO` batch: synchronise, copy, then scale the live values. -/
def captureQuery (mach : Machine) (batch : Batch) (dev : WprobeIface) (l : Option ℕ)
    (scaleAttr : Option ℕ) : WprobeIface :=
  let items := dev.items l.isSome
  let dev := wprobeSyncData mach batch.sync dev l true
  let val := dev.valuesOf l
  let dev := { dev with queryVal := copyValues dev.queryVal val items.length }
  dev.setValues l (wprobeScaleStats items batch.irqFlags scaleAttr val)

def requestFlags (nlh : Request) (vflags : ℕ) : ℕ :=
  vflags ||| nlh.flags.getD 0 ||| (if nlh.mac.isSome then wprobeFLink else 0)

/-- The lookup part of `wprobe_dump_info`, for a callback without a device. -/
def openDump (mach : Machine) (batch : Batch) (dev : WprobeIface) (nlh : Request) : Except Errno Opened :=
  match nlh.parseErr with
  | some err => .error (.parse err)
  | none =>
      if nlh.interface ≠ some dev.name then .error .enoent
      else match nlh.cmd, nlh.mac with
        | .getInfo, some mac =>
            match wprobeFindLink dev mac with
            | none => .error .enoent
            | some link =>
                .ok ⟨captureQuery mach batch dev (some link.ptr) nlh.scale,
                  { dev := true, link := some link.ptr, vflags := requestFlags nlh link.flags }⟩
        | .getInfo, none =>
            .ok ⟨captureQuery mach batch dev none nlh.scale, { dev := true, vflags := requestFlags nlh 0 }⟩
        | .getList, _ => .ok ⟨dev, { dev := true, vflags := requestFlags nlh 0 }⟩

/-- The pointers of a callback that has a device are checked against the lists; the device is the
registered one. -/
def resumeDump (dev : WprobeIface) (args : CbArgs) : Except Errno Opened :=
  match args.link with
  | some p =>
      if dev.links.any fun link => link.ptr = p then .ok ⟨dev, args⟩ else .error .enoent
  | none => .ok ⟨dev, args⟩

/-- The `while` loop of `wprobe_dump_info`: items from `i` on, as long as there is room. -/
def sendItems (send : WprobeItem → ℕ → Message) (items : List WprobeItem) (room i : ℕ) : List Message :=
  ((items.drop i).take room).zipIdx i |>.map fun p => send p.1 p.2

structure DumpResult where
  opened : Opened
  sent : List Message

/-- The part of `wprobe_dump_info` behind the lookup: fill the message and store the next index. -/
def sendBatch (mach : Machine) (batch : Batch) (nlh : Request) (opened : Opened) : DumpResult :=
  let dev := opened.dev
  let vflags := opened.args.vflags
  let items := dev.items (hasFlag vflags wprobeFLink)
  let send := fun item i => match nlh.cmd with
    | .getInfo => .value (wprobeSendItemValue mach item (dev.queryVal i) i vflags)
    | .getList => .info (wprobeSendItemInfo dev item i)
  let sent := sendItems send items batch.room opened.args.i
  ⟨{ opened with args := { opened.args with i := opened.args.i + sent.length } }, sent⟩

/-- `wprobe_dump_info`. On an error the callback keeps its arguments. -/
def wprobeDumpInfo (mach : Machine) (batch : Batch) (dev : WprobeIface) (nlh : Request) (args : CbArgs) :
    Except Errno DumpResult :=
  (if args.dev then resumeDump dev args else openDump mach batch dev nlh).map (sendBatch mach batch nlh)

/-! ## The value arrays -/

namespace WprobeIface

/-- Two links in the list are two structures. -/
def Distinct (dev : WprobeIface) : Prop := (dev.links.map (·.ptr)).Nodup

instance Distinct.decidable (dev : WprobeIface) : Decidable dev.Distinct :=
  inferInstanceAs (Decidable (dev.links.map (·.ptr)).Nodup)

theorem Distinct.valuesOf {dev : WprobeIface} (h : dev.Distinct) {link : WprobeLink} (hlink : link ∈ dev.links) :
    dev.valuesOf (some link.ptr) = link.val := by
  have hsome : (dev.links.find? fun other => other.ptr = link.ptr).isSome := by
    rw [List.find?_isSome]
    exact ⟨link, hlink, by simp⟩
  obtain ⟨other, hother⟩ := Option.isSome_iff_exists.mp hsome
  have hptr : other.ptr = link.ptr := by simpa using List.find?_some hother
  have hsame : other = link := List.inj_on_of_nodup_map h (List.mem_of_find?_eq_some hother) hlink hptr
  simp only [WprobeIface.valuesOf, hother, hsame]

/-- `l` is the globals, or a link of the list. -/
def Listed (dev : WprobeIface) (l : Option ℕ) : Prop := ∀ p ∈ l, ∃ link ∈ dev.links, link.ptr = p

end WprobeIface

theorem setValues_items (dev : WprobeIface) (l : Option ℕ) (val : Values) (ofLink : Bool) :
    (dev.setValues l val).items ofLink = dev.items ofLink := by
  cases l <;> rfl

theorem setValues_queryVal (dev : WprobeIface) (l : Option ℕ) (val : Values) :
    (dev.setValues l val).queryVal = dev.queryVal := by
  cases l <;> rfl

theorem setValues_ptr (p : ℕ) (val : Values) (link : WprobeLink) :
    (if link.ptr = p then { link with val := val } else link).ptr = link.ptr := by
  split <;> rfl

theorem setValues_ptrs (dev : WprobeIface) (l : Option ℕ) (val : Values) :
    (dev.setValues l val).links.map (·.ptr) = dev.links.map (·.ptr) := by
  cases l with
  | none => rfl
  | some p =>
    rw [WprobeIface.setValues, List.map_map]
    exact List.map_congr_left fun link _ => setValues_ptr p val link

theorem valuesOf_setValues {dev : WprobeIface} {l : Option ℕ} (h : dev.Listed l) (val : Values) :
    (dev.setValues l val).valuesOf l = val := by
  cases l with
  | none => rfl
  | some p =>
    obtain ⟨link, hlink, hptr⟩ := h p rfl
    have hsome : (dev.links.find? fun link => link.ptr = p).isSome := by
      rw [List.find?_isSome]
      exact ⟨link, hlink, by simpa using hptr⟩
    obtain ⟨found, hfound⟩ := Option.isSome_iff_exists.mp hsome
    have hp : found.ptr = p := by simpa using List.find?_some hfound
    simp only [WprobeIface.valuesOf, WprobeIface.setValues, List.find?_map, Function.comp_def, setValues_ptr, hfound,
      Option.map_some, if_pos hp]

/-! ## What a first batch leaves in the query buffer -/

theorem syncData_items (mach : Machine) (sync : SyncCall) (dev : WprobeIface) (l : Option ℕ)
    (query ofLink : Bool) : (wprobeSyncData mach sync dev l query).items ofLink = dev.items ofLink := by
  unfold wprobeSyncData
  split
  · exact setValues_items dev l _ ofLink
  · exact setValues_items dev l _ ofLink

theorem syncData_ptrs (mach : Machine) (sync : SyncCall) (dev : WprobeIface) (l : Option ℕ) (query : Bool) :
    (wprobeSyncData mach sync dev l query).links.map (·.ptr) = dev.links.map (·.ptr) := by
  unfold wprobeSyncData
  split
  · exact setValues_ptrs dev l _
  · exact setValues_ptrs dev l _

/-- A value array as the driver's `sync_data` and the statistics leave it. -/
def syncedValues (mach : Machine) (sync : SyncCall) (items : List WprobeItem) (val : Values) : Values :=
  if sync.err then sync.fill val else wprobeUpdateStats mach items (sync.fill val)

theorem syncData_valuesOf (mach : Machine) (sync : SyncCall) {dev : WprobeIface} {l : Option ℕ} (h : dev.Listed l)
    (query : Bool) : (wprobeSyncData mach sync dev l query).valuesOf l =
      syncedValues mach sync (dev.items l.isSome) (dev.valuesOf l) := by
  unfold wprobeSyncData syncedValues
  split
  · exact valuesOf_setValues h _
  · exact valuesOf_setValues h _

theorem syncData_queryVal_of_le (mach : Machine) (sync : SyncCall) (dev : WprobeIface) (l : Option ℕ)
    (query : Bool) {j : ℕ} (hj : (dev.items l.isSome).length ≤ j) :
    (wprobeSyncData mach sync dev l query).queryVal j = dev.queryVal j := by
  unfold wprobeSyncData
  split
  · rw [setValues_queryVal]
  · cases query with
    | false => rfl
    | true => exact if_neg (by omega)

theorem syncData_queryVal (mach : Machine) (sync : SyncCall) (dev : WprobeIface) (l : Option ℕ) :
    (wprobeSyncData mach sync dev l false).queryVal = dev.queryVal := by
  unfold wprobeSyncData
  split
  · rw [setValues_queryVal]
  · rfl

section CaptureQuery
variable (mach : Machine) (batch : Batch) (dev : WprobeIface) (l : Option ℕ) (scaleAttr : Option ℕ)

theorem captureQuery_items (ofLink : Bool) :
    (captureQuery mach batch dev l scaleAttr).items ofLink = dev.items ofLink := by
  rw [captureQuery, setValues_items]
  exact syncData_items mach batch.sync dev l true ofLink

theorem captureQuery_ptrs :
    (captureQuery mach batch dev l scaleAttr).links.map (·.ptr) = dev.links.map (·.ptr) := by
  rw [captureQuery, setValues_ptrs]
  exact syncData_ptrs mach batch.sync dev l true

/-- The copied entries are those of the array; the entries behind them keep their old values. -/
theorem captureQuery_queryVal (h : dev.Listed l) (j : ℕ) :
    (captureQuery mach batch dev l scaleAttr).queryVal j =
      if j < (dev.items l.isSome).length then
        syncedValues mach batch.sync (dev.items l.isSome) (dev.valuesOf l) j
      else dev.queryVal j := by
  rw [captureQuery, setValues_queryVal]
  show copyValues _ _ _ j = _
  unfold copyValues
  split
  · rw [syncData_valuesOf mach batch.sync h true]
  · next hj => exact syncData_queryVal_of_le mach batch.sync dev l true (by omega)

end CaptureQuery

/-! ## The messages of a batch -/

theorem sendItems_mem {send : WprobeItem → ℕ → Message} {items : List WprobeItem} {room i : ℕ}
    {msg : Message} (h : msg ∈ sendItems send items room i) :
    ∃ item j, i ≤ j ∧ j < items.length ∧ msg = send item j := by
  simp only [sendItems, List.mem_map] at h
  obtain ⟨⟨item, j⟩, hmem, rfl⟩ := h
  have hidx := List.mem_zipIdx hmem
  simp only [List.length_take, List.length_drop] at hidx
  exact ⟨item, j, by omega, by omega, rfl⟩

end Neufbox.Wprobe
