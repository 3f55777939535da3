import Neufbox.Wprobe.Dump

/-! # Query snapshots of concurrent dumps

Clients run their dumps on one interface, batch by batch and in any order, while links come and go
and the driver measures. The snapshot of a dump lives in the interface, its position in the client's
callback, so a first batch overwrites what the unfinished dumps of the others still have to send.
`NoOverwrite` says of a step that it does no such thing; along a run of such steps every client
receives the values that its own link, or the globals, had at its own first batch. -/
namespace Neufbox.Wprobe
open RunAlong
set_option autoImplicit false
set_option maxHeartbeats 250000
set_option maxRecDepth 120000

/-! ## The system -/

/-- A client's dump. `first` and `got` record the interface and the driver that its first batch met,
and the messages it received; the code reads neither. -/
structure Client where
  nlh : Request
  args : CbArgs := {}
  first : Option (WprobeIface × SyncCall) := none
  got : List Message := []

structure System where
  dev : WprobeIface
  clients : ℕ → Client

inductive Op
  | start (c : ℕ) (nlh : Request)
  | batch (c : ℕ) (call : Batch)
  | measure (mac : Option (List UInt8)) (sync : SyncCall)
  | addLink (ptr : ℕ) (addr : List UInt8) (flags : ℕ)
  | removeLink (ptr : ℕ)
  | drive (l : Option ℕ) (val : Values)

def wprobeMeasure (mach : Machine) (dev : WprobeIface) (mac : Option (List UInt8)) (sync : SyncCall) :
    WprobeIface :=
  match mac with
  | none => wprobeSyncData mach sync dev none false
  | some addr =>
      match wprobeFindLink dev addr with
      | none => dev
      | some link => wprobeSyncData mach sync dev (some link.ptr) false

def wprobeAddLink (dev : WprobeIface) (ptr : ℕ) (addr : List UInt8) (flags : ℕ) : WprobeIface :=
  { dev with links := dev.links ++ [⟨ptr, addr.take 6, flags, fun _ => {}⟩] }

def wprobeRemoveLink (dev : WprobeIface) (ptr : ℕ) : WprobeIface :=
  { dev with links := dev.links.filter fun link => link.ptr ≠ ptr }

def Client.receive (cl : Client) (dev : WprobeIface) (call : Batch) (r : DumpResult) : Client where
  nlh := cl.nlh
  args := r.opened.args
  first := if cl.args.dev then cl.first else some (dev, call.sync)
  got := cl.got ++ r.sent

def step (mach : Machine) (s : System) : Op → System
  | .start c nlh => { s with clients := Function.update s.clients c { nlh := nlh } }
  | .batch c call =>
      match wprobeDumpInfo mach call s.dev (s.clients c).nlh (s.clients c).args with
      | .error _ => s
      | .ok r =>
          { dev := r.opened.dev, clients := Function.update s.clients c ((s.clients c).receive s.dev call r) }
  | .measure mac sync => { s with dev := wprobeMeasure mach s.dev mac sync }
  -- a driver does not add a link that is in the list
  | .addLink ptr addr flags =>
      if s.dev.links.any fun link => link.ptr = ptr then s
      else { s with dev := wprobeAddLink s.dev ptr addr flags }
  | .removeLink ptr => { s with dev := wprobeRemoveLink s.dev ptr }
  | .drive l val => { s with dev := s.dev.setValues l val }

/-! ## What a client should receive -/

/-- A number of entries and their values. -/
structure Capture where
  count : ℕ
  values : Values

/-- The values that a request asks for, where it meets the interface and the driver: those of the link
with its address, or the globals, brought up to date. -/
def ownCapture (mach : Machine) (dev : WprobeIface) (sync : SyncCall) (nlh : Request) : Option Capture :=
  match nlh.mac with
  | none => some ⟨dev.globalItems.length, syncedValues mach sync dev.globalItems dev.val⟩
  | some mac =>
      (dev.links.find? fun link => link.addr.take 6 = mac.take 6).map fun link =>
        ⟨dev.linkItems.length, syncedValues mach sync dev.linkItems link.val⟩

/-- The values that the client's own first batch met. -/
def Client.captured (mach : Machine) (cl : Client) : Option Capture :=
  cl.first.bind fun met => ownCapture mach met.1 met.2 cl.nlh

/-- Value, duration and statistics of the message are those of the captured entry. -/
structure FromCapture (mach : Machine) (cap : Capture) (msg : ItemMessage) : Prop where
  index : msg.id < cap.count
  value : msg.value = payloadOf mach (cap.values msg.id) msg.type
  duration : msg.duration =
    ((cap.values msg.id).last + (2 ^ 64 - (cap.values msg.id).first % 2 ^ 64)) % 2 ^ 64
  stats : ∀ st, msg.stats = some st →
    st = ⟨(cap.values msg.id).s, (cap.values msg.id).ss, (cap.values msg.id).n⟩

/-- All that the client received so far are the values that its own first batch met. -/
def OwnSnapshot (mach : Machine) (cl : Client) : Prop :=
  ∀ msg, Message.value msg ∈ cl.got → ∃ cap, cl.captured mach = some cap ∧ FromCapture mach cap msg

/-! ## The condition on a step -/

def Client.itemCount (dev : WprobeIface) (cl : Client) : ℕ :=
  (dev.items (hasFlag cl.args.vflags wprobeFLink)).length

/-- The client is in the middle of a `GET_INFO` dump and has not sent entry `j` yet. -/
def Client.Unsent (dev : WprobeIface) (cl : Client) (j : ℕ) : Prop :=
  cl.args.dev = true ∧ cl.nlh.cmd = .getInfo ∧ cl.args.i ≤ j ∧ j < cl.itemCount dev

/-- The number of entries that a first batch for this request copies, if it gets that far. -/
def captureSize (dev : WprobeIface) (nlh : Request) : Option ℕ :=
  if nlh.parseErr = none ∧ nlh.interface = some dev.name ∧ nlh.cmd = .getInfo then
    match nlh.mac with
    | none => some dev.globalItems.length
    | some mac => if (wprobeFindLink dev mac).isSome then some dev.linkItems.length else none
  else none

/-- A first batch copies no entry that another client still has to send, and a request for the
globals does not ask for more entries by setting the internal link flag itself. -/
def NoOverwrite (s : System) : Op → Prop
  | .batch c _ =>
      (s.clients c).args.dev = false → ∀ n, captureSize s.dev (s.clients c).nlh = some n →
        (∀ c', c' ≠ c → ∀ j < n, ¬ (s.clients c').Unsent s.dev j) ∧
        ((s.clients c).nlh.mac = none → hasFlag ((s.clients c).nlh.flags.getD 0) wprobeFLink = true →
          s.dev.linkItems.length ≤ s.dev.globalItems.length)
  | _ => True

/-! ## The invariant -/

/-- The entries that the client still has to send are in `queryVal` as they were captured. -/
def Pending (mach : Machine) (dev : WprobeIface) (cl : Client) : Prop :=
  cl.args.dev = true → cl.nlh.cmd = .getInfo →
    ∃ cap, cl.captured mach = some cap ∧ cl.itemCount dev ≤ cap.count ∧
      ∀ j, cl.args.i ≤ j → j < cl.itemCount dev → dev.queryVal j = cap.values j

structure ClientInv (mach : Machine) (dev : WprobeIface) (cl : Client) : Prop where
  received : OwnSnapshot mach cl
  pending : Pending mach dev cl
  fresh : cl.args.dev = false → cl.args.i = 0 ∧ cl.got = []

structure Inv (mach : Machine) (s : System) : Prop where
  clients : ∀ c, ClientInv mach s.dev (s.clients c)
  links : s.dev.Distinct

structure Fresh (s : System) : Prop where
  clients : ∀ c, ∃ nlh, s.clients c = { nlh := nlh }
  links : s.dev.Distinct

theorem fresh_client_inv (mach : Machine) (dev : WprobeIface) (nlh : Request) :
    ClientInv mach dev { nlh := nlh } where
  received := by
    intro msg hmsg
    simp at hmsg
  pending := by
    intro hdev
    simp at hdev
  fresh := fun _ => ⟨rfl, rfl⟩

theorem fresh_inv {mach : Machine} {s : System} (h : Fresh s) : Inv mach s where
  clients := by
    intro c
    obtain ⟨nlh, hc⟩ := h.clients c
    rw [hc]
    exact fresh_client_inv mach s.dev nlh
  links := h.links

/-- A change of the interface that keeps the item lists and the entries still to be sent keeps the
client's part of the invariant. -/
theorem ClientInv.of_dev {mach : Machine} {dev dev' : WprobeIface} {cl : Client}
    (h : ClientInv mach dev cl) (hitems : ∀ ofLink, dev'.items ofLink = dev.items ofLink)
    (hquery : ∀ j, cl.Unsent dev j → dev'.queryVal j = dev.queryVal j) : ClientInv mach dev' cl where
  received := h.received
  pending := by
    intro hdev hcmd
    obtain ⟨cap, hcap, hcount, hvals⟩ := h.pending hdev hcmd
    have hlen : cl.itemCount dev' = cl.itemCount dev := congrArg List.length (hitems _)
    refine ⟨cap, hcap, hlen ▸ hcount, fun j hi hj => ?_⟩
    rw [hlen] at hj
    rw [hquery j ⟨hdev, hcmd, hi, hj⟩, hvals j hi hj]
  fresh := h.fresh

/-! ## Batches -/

theorem fromCapture_send {mach : Machine} {cap : Capture} {item : WprobeItem} {v : WprobeValue}
    {j flags : ℕ} (hj : j < cap.count) (hv : v = cap.values j) :
    FromCapture mach cap (wprobeSendItemValue mach item v j flags) := by
  subst hv
  refine ⟨hj, rfl, rfl, fun st hst => ?_⟩
  simp only [wprobeSendItemValue] at hst
  split at hst
  · exact (Option.some.inj hst).symm
  · cases hst

theorem resume_cases {dev : WprobeIface} {args : CbArgs} {opened : Opened}
    (h : resumeDump dev args = .ok opened) : opened = ⟨dev, args⟩ := by
  unfold resumeDump at h
  split at h
  · split at h
    · exact (Except.ok.inj h).symm
    · cases h
  · exact (Except.ok.inj h).symm

/-- `l` stands for the values that the request asks for. -/
structure Leads (mach : Machine) (dev : WprobeIface) (nlh : Request) (l : Option ℕ) : Prop where
  listed : dev.Listed l
  isSome : l.isSome = nlh.mac.isSome
  capture : dev.Distinct → ∀ sync, ownCapture mach dev sync nlh =
    some ⟨(dev.items l.isSome).length, syncedValues mach sync (dev.items l.isSome) (dev.valuesOf l)⟩

theorem leads_globals (mach : Machine) (dev : WprobeIface) {nlh : Request} (hmac : nlh.mac = none) :
    Leads mach dev nlh none where
  listed := by
    intro p hp
    cases hp
  isSome := by
    rw [hmac]
    rfl
  capture := by
    intro _ sync
    rw [ownCapture, hmac]
    rfl

theorem leads_link (mach : Machine) {dev : WprobeIface} {nlh : Request} {mac : List UInt8} {link : WprobeLink}
    (hmac : nlh.mac = some mac) (hlink : wprobeFindLink dev mac = some link) :
    Leads mach dev nlh (some link.ptr) where
  listed := by
    rintro p ⟨⟩
    exact ⟨link, List.mem_of_find?_eq_some hlink, rfl⟩
  isSome := by
    rw [hmac]
    rfl
  capture := by
    intro hdistinct sync
    have hfind : (dev.links.find? fun link => link.addr.take 6 = mac.take 6) = some link := hlink
    rw [ownCapture, hmac]
    dsimp only
    rw [hfind, hdistinct.valuesOf (List.mem_of_find?_eq_some hlink)]
    rfl

/-- A first batch either reads the property list, or copies the values of its request, as many as
`captureSize` counts. -/
theorem open_cases {mach : Machine} {call : Batch} {dev : WprobeIface} {nlh : Request} {opened : Opened}
    (h : openDump mach call dev nlh = .ok opened) :
    opened.args.i = 0 ∧ opened.args.dev = true ∧
    ((nlh.cmd = .getList ∧ opened.dev = dev) ∨
      (nlh.cmd = .getInfo ∧ ∃ l, Leads mach dev nlh l ∧
        captureSize dev nlh = some (dev.items l.isSome).length ∧
        opened.dev = captureQuery mach call dev l nlh.scale ∧
        ∃ flags, opened.args.vflags = requestFlags nlh flags ∧ (nlh.mac = none → flags = 0))) := by
  unfold openDump at h
  split at h
  · cases h
  · next hparse =>
    split at h
    · cases h
    · next hname =>
      have hsize : ∀ size, nlh.cmd = .getInfo →
          (match nlh.mac with
            | none => some dev.globalItems.length
            | some mac => if (wprobeFindLink dev mac).isSome then some dev.linkItems.length else none) = size →
          captureSize dev nlh = size := by
        intro size hcmd hmac
        rw [captureSize, if_pos ⟨hparse, not_not.mp hname, hcmd⟩, hmac]
      split at h
      · next mac hcmd hmac =>
        split at h
        · cases h
        · next link hlink =>
          cases h
          refine ⟨rfl, rfl, Or.inr ⟨hcmd, some link.ptr, leads_link mach hmac hlink, hsize _ hcmd ?_, rfl, _, rfl, ?_⟩⟩
          · simp [hmac, hlink, WprobeIface.items]
          · simp [hmac]
      · next hcmd hmac =>
        cases h
        refine ⟨rfl, rfl, Or.inr ⟨hcmd, none, leads_globals mach dev hmac, hsize _ hcmd ?_, rfl, 0, rfl, fun _ => rfl⟩⟩
        simp [hmac, WprobeIface.items]
      · next hcmd =>
        cases h
        exact ⟨rfl, rfl, Or.inl ⟨hcmd, rfl⟩⟩

/-- The client behind the lookup of a batch, before anything is sent. -/
def Client.opened (cl : Client) (dev : WprobeIface) (call : Batch) (args : CbArgs) : Client :=
  { cl with args := args, first := if cl.args.dev then cl.first else some (dev, call.sync) }

/-- A batch of an open dump whose remaining entries are still as they were captured. -/
theorem sendBatch_inv {mach : Machine} {call : Batch} {dev : WprobeIface} {nlh : Request} (opened : Opened)
    {cl : Client} (hnlh : cl.nlh = nlh) (hdev : opened.args.dev = true)
    (hinv : ClientInv mach opened.dev (cl.opened dev call opened.args)) :
    ClientInv mach opened.dev (cl.receive dev call (sendBatch mach call nlh opened)) where
  received := by
    intro msg hmsg
    rcases List.mem_append.mp hmsg with hold | hnew
    · exact hinv.received msg hold
    · simp only [sendBatch] at hnew
      obtain ⟨item, j, hij, hj, heq⟩ := sendItems_mem hnew
      cases hcmd : nlh.cmd with
      | getList => simp [hcmd] at heq
      | getInfo =>
        obtain ⟨cap, hcap, hcount, hvals⟩ := hinv.pending hdev (hnlh ▸ hcmd)
        simp only [hcmd, Message.value.injEq] at heq
        refine ⟨cap, hcap, ?_⟩
        rw [heq]
        exact fromCapture_send (lt_of_lt_of_le hj hcount) (hvals j hij hj)
  pending := by
    intro _ hcmd
    obtain ⟨cap, hcap, hcount, hvals⟩ := hinv.pending hdev hcmd
    exact ⟨cap, hcap, hcount, fun j hi hj => hvals j (le_of_add_le_left hi) hj⟩
  fresh := by
    intro h
    exact absurd (hdev.symm.trans h) (by simp)

theorem batch_cases {mach : Machine} {call : Batch} {dev : WprobeIface} {nlh : Request} {args : CbArgs}
    {r : DumpResult} (h : wprobeDumpInfo mach call dev nlh args = .ok r) :
    ∃ opened, r = sendBatch mach call nlh opened ∧
      ((args.dev = true ∧ opened = ⟨dev, args⟩) ∨
        (args.dev = false ∧ openDump mach call dev nlh = .ok opened)) := by
  unfold wprobeDumpInfo at h
  cases hdev : args.dev with
  | true =>
    rw [hdev, if_pos rfl] at h
    cases hres : resumeDump dev args with
    | error err => rw [hres] at h; cases h
    | ok opened =>
      rw [hres] at h
      exact ⟨opened, (Except.ok.inj h).symm, Or.inl ⟨rfl, resume_cases hres⟩⟩
  | false =>
    rw [hdev, if_neg (by simp)] at h
    cases hres : openDump mach call dev nlh with
    | error err => rw [hres] at h; cases h
    | ok opened =>
      rw [hres] at h
      exact ⟨opened, (Except.ok.inj h).symm, Or.inr ⟨rfl, rfl⟩⟩

theorem hasFlag_or (a b flag : ℕ) : hasFlag (a ||| b) flag = (hasFlag a flag || hasFlag b flag) := by
  have hiff : (a &&& flag) ||| (b &&& flag) = 0 ↔ a &&& flag = 0 ∧ b &&& flag = 0 := Nat.or_eq_zero_iff
  rw [Bool.eq_iff_iff]
  simp only [hasFlag, Nat.and_or_distrib_right, bne_iff_ne, ne_eq, Bool.or_eq_true, hiff]
  tauto

theorem requestFlags_link (nlh : Request) (flags : ℕ) (hmac : nlh.mac = none → flags = 0) :
    hasFlag (requestFlags nlh flags) wprobeFLink =
      (nlh.mac.isSome || hasFlag (nlh.flags.getD 0) wprobeFLink) := by
  have hlink : hasFlag wprobeFLink wprobeFLink = true := by decide +kernel
  have hzero : hasFlag 0 wprobeFLink = false := by decide +kernel
  rw [requestFlags, hasFlag_or, hasFlag_or]
  cases hm : nlh.mac with
  | none => simp [hmac hm, hzero]
  | some mac => simp [hlink]

/-- The capture of a first batch holds every entry that the dump goes on to send. -/
theorem open_inv {mach : Machine} {call : Batch} {dev : WprobeIface} {cl : Client} {opened : Opened}
    (hinv : ClientInv mach dev cl) (hdistinct : dev.Distinct) (hdev : cl.args.dev = false)
    (hopen : openDump mach call dev cl.nlh = .ok opened)
    (hlink : ∀ n, captureSize dev cl.nlh = some n → cl.nlh.mac = none →
      hasFlag (cl.nlh.flags.getD 0) wprobeFLink = true → dev.linkItems.length ≤ dev.globalItems.length) :
    ClientInv mach opened.dev (cl.opened dev call opened.args) := by
  obtain ⟨hi, hset, hcases⟩ := open_cases hopen
  have hgot := (hinv.fresh hdev).2
  refine ⟨fun msg hmsg => ?_, fun _ hcmd => ?_, fun h => absurd (hset.symm.trans h) (by simp)⟩
  · rw [Client.opened, hgot] at hmsg
    simp at hmsg
  · rcases hcases with ⟨hlist, -⟩ | ⟨-, l, hleads, hsize, hdev', flags, hflags, hzero⟩
    · exact absurd (hlist.symm.trans hcmd) (by simp)
    · have hcap : (cl.opened dev call opened.args).captured mach =
          some ⟨(dev.items l.isSome).length,
            syncedValues mach call.sync (dev.items l.isSome) (dev.valuesOf l)⟩ := by
        rw [Client.captured, Client.opened, hdev, if_neg (by simp)]
        exact hleads.capture hdistinct call.sync
      have hle : (opened.dev.items (hasFlag opened.args.vflags wprobeFLink)).length ≤
          (dev.items l.isSome).length := by
        rw [hdev', captureQuery_items, hflags, requestFlags_link _ _ hzero, hleads.isSome]
        cases hm : cl.nlh.mac with
        | some mac => exact le_refl _
        | none =>
          cases hf : hasFlag (cl.nlh.flags.getD 0) wprobeFLink with
          | false => exact le_refl _
          | true => exact hlink _ hsize hm hf
      refine ⟨_, hcap, hle, fun j _ hj => ?_⟩
      rw [hdev', captureQuery_queryVal mach call dev l _ hleads.listed, if_pos (lt_of_lt_of_le hj hle)]

theorem batch_clients_ne {mach : Machine} (s : System) {c c' : ℕ} (call : Batch) (hc : c' ≠ c) :
    (step mach s (.batch c call)).clients c' = s.clients c' := by
  simp only [step]
  split
  · rfl
  · exact Function.update_of_ne hc _ _

theorem drive_clients (mach : Machine) (s : System) (l : Option ℕ) (val : Values) :
    (step mach s (.drive l val)).clients = s.clients := rfl

theorem batch_inv {mach : Machine} {s : System} (hinv : Inv mach s) (c : ℕ) (call : Batch)
    (hok : NoOverwrite s (.batch c call)) : Inv mach (step mach s (.batch c call)) := by
  simp only [step]
  cases hdump : wprobeDumpInfo mach call s.dev (s.clients c).nlh (s.clients c).args with
  | error err => exact hinv
  | ok r =>
    obtain ⟨opened, rfl, ⟨hdev, rfl⟩ | ⟨hdev, hopen⟩⟩ := batch_cases hdump
    · refine ⟨fun c' => ?_, hinv.links⟩
      by_cases hc : c' = c
      · subst hc
        simp only [Function.update_self]
        refine sendBatch_inv ⟨s.dev, (s.clients c').args⟩ rfl hdev ?_
        rw [Client.opened, hdev, if_pos rfl]
        exact hinv.clients c'
      · simp only [Function.update_of_ne hc]
        exact hinv.clients c'
    · have hown := open_inv (hinv.clients c) hinv.links hdev hopen fun n hn => (hok hdev n hn).2
      obtain ⟨-, hset, hcases⟩ := open_cases hopen
      refine ⟨fun c' => ?_, ?_⟩
      · by_cases hc : c' = c
        · subst hc
          simp only [Function.update_self]
          exact sendBatch_inv opened rfl hset hown
        · simp only [Function.update_of_ne hc]
          show ClientInv mach opened.dev (s.clients c')
          rcases hcases with ⟨-, hsame⟩ | ⟨-, l, hleads, hsize, hdev', -⟩
          · rw [hsame]
            exact hinv.clients c'
          · refine (hinv.clients c').of_dev (fun ofLink => by rw [hdev', captureQuery_items]) fun j hj => ?_
            have hout : ¬ j < (s.dev.items l.isSome).length := by
              intro hlt
              exact (hok hdev _ hsize).1 c' hc j hlt hj
            rw [hdev', captureQuery_queryVal mach call s.dev l _ hleads.listed, if_neg hout]
      · show opened.dev.Distinct
        rcases hcases with ⟨-, hsame⟩ | ⟨-, l, -, -, hdev', -⟩
        · rw [hsame]
          exact hinv.links
        · rw [hdev', WprobeIface.Distinct, captureQuery_ptrs]
          exact hinv.links

/-- A measurement changes values only. -/
structure ValuesOnly (dev dev' : WprobeIface) : Prop where
  query : dev'.queryVal = dev.queryVal
  items : ∀ ofLink, dev'.items ofLink = dev.items ofLink
  ptrs : dev'.links.map (·.ptr) = dev.links.map (·.ptr)

theorem syncData_valuesOnly (mach : Machine) (dev : WprobeIface) (l : Option ℕ) (sync : SyncCall) :
    ValuesOnly dev (wprobeSyncData mach sync dev l false) where
  query := syncData_queryVal mach sync dev l
  items := syncData_items mach sync dev l false
  ptrs := syncData_ptrs mach sync dev l false

theorem measure_valuesOnly (mach : Machine) (dev : WprobeIface) (mac : Option (List UInt8)) (sync : SyncCall) :
    ValuesOnly dev (wprobeMeasure mach dev mac sync) := by
  unfold wprobeMeasure
  split
  · exact syncData_valuesOnly mach dev none sync
  · split
    · exact ⟨rfl, fun _ => rfl, rfl⟩
    · exact syncData_valuesOnly mach dev _ sync

theorem setValues_valuesOnly (dev : WprobeIface) (l : Option ℕ) (val : Values) :
    ValuesOnly dev (dev.setValues l val) where
  query := setValues_queryVal dev l val
  items := setValues_items dev l val
  ptrs := setValues_ptrs dev l val

theorem Inv.of_values {mach : Machine} {s : System} {dev : WprobeIface} (hinv : Inv mach s)
    (h : ValuesOnly s.dev dev) : Inv mach { s with dev := dev } where
  clients := fun c => (hinv.clients c).of_dev h.items fun j _ => congrFun h.query j
  links := by
    rw [WprobeIface.Distinct, h.ptrs]
    exact hinv.links

theorem addLink_distinct {dev : WprobeIface} (h : dev.Distinct) {ptr : ℕ}
    (hnew : ¬ (dev.links.any fun link => link.ptr = ptr) = true) (addr : List UInt8) (flags : ℕ) :
    (wprobeAddLink dev ptr addr flags).Distinct := by
  simp only [List.any_eq_true, decide_eq_true_eq, not_exists, not_and] at hnew
  rw [WprobeIface.Distinct, wprobeAddLink, List.map_append, List.nodup_append]
  refine ⟨h, List.nodup_singleton _, fun p hp q hq => ?_⟩
  obtain ⟨link, hlink, rfl⟩ := List.mem_map.mp hp
  obtain rfl := List.mem_singleton.mp hq
  exact hnew link hlink

theorem removeLink_distinct {dev : WprobeIface} (h : dev.Distinct) (ptr : ℕ) :
    (wprobeRemoveLink dev ptr).Distinct :=
  h.sublist (List.Sublist.map _ (List.filter_sublist))

theorem step_inv {mach : Machine} {s : System} (hinv : Inv mach s) (op : Op) (hok : NoOverwrite s op) :
    Inv mach (step mach s op) := by
  cases op with
  | start c nlh =>
    refine ⟨fun c' => ?_, hinv.links⟩
    by_cases hc : c' = c
    · subst hc
      simp only [step, Function.update_self]
      exact fresh_client_inv mach s.dev nlh
    · simp only [step, Function.update_of_ne hc]
      exact hinv.clients c'
  | batch c call => exact batch_inv hinv c call hok
  | measure mac sync => exact hinv.of_values (measure_valuesOnly mach s.dev mac sync)
  | addLink ptr addr flags =>
    simp only [step]
    split
    · exact hinv
    · next hnew =>
      exact ⟨fun c => (hinv.clients c).of_dev (fun _ => rfl) fun _ _ => rfl, addLink_distinct hinv.links hnew addr flags⟩
  | removeLink ptr =>
    exact ⟨fun c => (hinv.clients c).of_dev (fun _ => rfl) fun _ _ => rfl, removeLink_distinct hinv.links ptr⟩
  | drive l val => exact hinv.of_values (setValues_valuesOnly s.dev l val)

/-! ## Whole runs -/

/-- In every run whose first batches overwrite nothing that is still to be sent, every client
receives, in every state reached, only the values that its own link, or the globals, had at its own
first batch. -/
theorem wprobe_snapshots_kept (mach : Machine) (s : System) (hs : Fresh s) (ops : List Op)
    (hops : Along (step mach) NoOverwrite s ops) (c : ℕ) :
    OwnSnapshot mach ((runSteps (step mach) s ops).clients c) := by
  have hinv : Inv mach (runSteps (step mach) s ops) :=
    hops.preserves (fun _ op hinv hok => step_inv hinv op hok) (fresh_inv hs)
  exact (hinv.clients c).received

/-! ## A run that mixes two snapshots -/

def counterItem : WprobeItem := ⟨[], .u8, wprobeFKeepstat⟩

/-- Two global items, each holding the sample `x`. -/
def twoCounters (x : ℕ) : System where
  dev := ⟨[119], none, [], [counterItem, counterItem], [], fun _ => { raw := x }, fun _ => {}⟩
  clients := fun _ => { nlh := { cmd := .getInfo, interface := some [119] } }

def oneItemBatch : Batch := ⟨1, ⟨false, id⟩, 0⟩

/-- A link with two items at 5, and two clients: one that asks for the link, one for the globals. -/
def linkAndGlobals : System where
  dev := ⟨[119], none, [counterItem, counterItem], [counterItem, counterItem],
    [⟨5, [2, 0, 0, 0, 0, 1], 0, fun _ => { raw := 7 }⟩], fun _ => { raw := 3 }, fun _ => {}⟩
  clients := fun c => { nlh :=
    { cmd := .getInfo, interface := some [119], mac := if c = 0 then some [2, 0, 0, 0, 0, 1] else none } }

theorem wprobe_snapshots_kept_in_turn :
    OwnSnapshot ⟨false, 32, fun _ => []⟩
      ((runSteps (step ⟨false, 32, fun _ => []⟩) linkAndGlobals
        [.batch 0 oneItemBatch, .batch 0 oneItemBatch, .drive (some 5) fun _ => { raw := 8 },
          .batch 1 oneItemBatch]).clients 0) := by
  apply wprobe_snapshots_kept _ _ ⟨fun c => ⟨_, rfl⟩, by decide⟩
  have hbit : hasFlag 0 wprobeFLink = false := by decide +kernel
  refine ⟨fun _ n _ => ⟨fun c' _ j _ hun => Bool.false_ne_true hun.1, fun hmac => nomatch hmac⟩,
    fun h => absurd h (by decide), trivial,
    fun _ n _ => ⟨fun c' hc j _ hun => ?_, fun _ h => ?_⟩, trivial⟩
  · by_cases hzero : c' = 0
    · subst hzero
      have hstart : 2 ≤ j := hun.2.2.1
      have hend : j < 2 := hun.2.2.2
      omega
    · have hidle := hun.1
      rw [drive_clients, batch_clients_ne _ _ hzero, batch_clients_ne _ _ hzero] at hidle
      exact Bool.false_ne_true hidle
  · exact absurd (hbit.symm.trans h) (by simp)

/-- Client 0 receives the first of two items, then client 1 starts its dump, for which the driver
takes a new sample; the second item of client 0 carries the new sample. -/
theorem wprobe_snapshots_mixed :
    ¬ ∀ (mach : Machine) (s : System), Fresh s → ∀ ops : List Op,
      (∀ op ∈ ops, ∃ c call, op = .batch c call ∧ c < 2 ∧ 0 < call.room) →
      ∀ c, OwnSnapshot mach ((runSteps (step mach) s ops).clients c) := by
  intro h
  have hown := h ⟨false, 32, fun _ => []⟩ (twoCounters 7) ⟨fun c => ⟨_, rfl⟩, by decide⟩
    [.batch 0 oneItemBatch, .batch 1 ⟨1, ⟨false, fun _ _ => { raw := 8 }⟩, 0⟩, .batch 0 oneItemBatch]
    (by simp [oneItemBatch]) 0
  obtain ⟨cap, hcap, hfrom⟩ := hown
    (wprobeSendItemValue ⟨false, 32, fun _ => []⟩ counterItem { raw := 8 } 1 0) (by decide)
  have hvalue := hfrom.value
  rw [← Option.some.inj hcap] at hvalue
  revert hvalue
  decide

end Neufbox.Wprobe
