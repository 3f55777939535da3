import Mathlib.Data.List.TakeWhile
import Neufbox.Library.RunAlong
import Neufbox.Library.CString

/-! # The netdev LED trigger

`drivers/leds/ledtrig-netdev.c`: an LED shows the state of a network device, which the user gives by name. The
trigger holds a reference on the device while it watches it, taken by a lookup or by a notification and returned by
others. The kernel around it keeps the list of devices, tells of each what happens to it, and frees a device that
was unregistered when no reference is left.

Devices have different names that never change, so a device is its name here. -/
namespace Neufbox.Leds.Netdev
open CString RunAlong
set_option autoImplicit false
set_option maxHeartbeats 250000
set_option maxRecDepth 120000

/-! ## Devices -/

structure NetDevice where
  name : CStr
  named : name ≠ .empty
  deriving DecidableEq

/-- The life of a device. It is in the list of devices before its registration is told and out of it before its
end is. -/
inductive Phase where
  | absent
  | listed
  | down
  | up
  | unlisted
  | unregistered
  deriving DecidableEq, Repr

def Phase.isListed : Phase → Bool
  | .listed => true
  | .down => true
  | .up => true
  | _ => false

/-- Not yet told of as unregistered. -/
def Phase.isRegistered : Phase → Bool
  | .absent => false
  | .unregistered => false
  | _ => true

inductive NetdevEvent where
  | up
  | down
  | change
  | register
  | unregister
  | other
  deriving DecidableEq, Repr

/-- `IFF_LOWER_UP` in the flags of a device: only a running device has it. -/
def lowerUp (p : Phase) (carrier : Bool) : Bool := p = .up && carrier

/-! ## State -/

def modeLink : ℕ := 1
def modeTx : ℕ := 2
def modeRx : ℕ := 4

def ledOff : ℕ := 0
def ledFull : ℕ := 255

def ifnamsiz : ℕ := 16

/-- `struct led_netdev_data` with the brightness of its LED; `timer` is the delay of a pending timer. -/
structure LedNetdevData where
  netDev : Option NetDevice
  deviceName : CStr
  interval : ℕ
  mode : ℕ
  linkUp : Bool
  lastActivity : ℕ
  brightness : ℕ
  timer : Option ℕ

/-- The trigger and the devices; `refs` counts the references that the trigger took and did not return. -/
structure State where
  trigger : LedNetdevData
  refs : NetDevice → ℤ
  phase : NetDevice → Phase

def devHold (refs : NetDevice → ℤ) (d : NetDevice) : NetDevice → ℤ := Function.update refs d (refs d + 1)

def devPut (refs : NetDevice → ℤ) (d : NetDevice) : NetDevice → ℤ := Function.update refs d (refs d - 1)

/-- The lookup of `dev_get_by_name`; the caller counts the reference. -/
def devGetByName (s : State) (name : CStr) : Option NetDevice :=
  if h : name = .empty then none
  else if (s.phase ⟨name, h⟩).isListed then some ⟨name, h⟩ else none

def setBaselineState (t : LedNetdevData) : LedNetdevData :=
  { t with
    brightness := if t.mode &&& modeLink ≠ 0 ∧ t.linkUp then ledFull else ledOff
    timer := if t.mode &&& (modeTx ||| modeRx) ≠ 0 ∧ t.linkUp then some t.interval else none }

/-! ## Attributes -/

def newline : UInt8 := 10

/-- The string that is left of a stored buffer: the newline at its end is cut off. -/
def storedText (buf : List UInt8) : List UInt8 :=
  let text := buf.takeWhile (· ≠ 0)
  if text.length = buf.length ∧ text.getLast? = some newline then text.dropLast else text

theorem storedText_nulFree (buf : List UInt8) : (0 : UInt8) ∉ storedText buf := by
  have htext : (0 : UInt8) ∉ buf.takeWhile (· ≠ 0) := by
    intro h
    simpa using List.mem_takeWhile_imp h
  unfold storedText
  dsimp only
  split
  · exact fun h => htext (List.mem_of_mem_dropLast h)
  · exact htext

def storedName (buf : List UInt8) : CStr := ⟨storedText buf, storedText_nulFree buf⟩

def deviceNameStore (buf : List UInt8) (carrier : Bool) (s : State) : State :=
  if buf.length ≥ ifnamsiz then s
  else
    let t := { s.trigger with deviceName := storedName buf }
    if storedName buf = .empty then { s with trigger := t }
    else match devGetByName s (storedName buf) with
      | none => { s with trigger := setBaselineState { t with netDev := none } }
      | some d =>
          { s with
            trigger := setBaselineState { t with netDev := some d, linkUp := lowerUp (s.phase d) carrier }
            refs := devHold s.refs d }

def isSeparator (b : UInt8) : Bool := b = 32 || b = 9 || b = newline

def modeToken (mode : ℕ) (token : List UInt8) : Option ℕ :=
  if token = (CStr.lit "none").bytes then some 0
  else if token = (CStr.lit "tx").bytes then some (mode ||| modeTx)
  else if token = (CStr.lit "rx").bytes then some (mode ||| modeRx)
  else if token = (CStr.lit "link").bytes then some (mode ||| modeLink)
  else none

/-- The tokens of the first 1023 characters; `none` is `-EINVAL`. -/
def parseMode (buf : List UInt8) : Option ℕ :=
  let tokens := (((buf.takeWhile (· ≠ 0)).take 1023).splitOnP isSeparator).filter (· ≠ [])
  if tokens = [] then none else tokens.foldlM modeToken 0

def modeStore (buf : List UInt8) (s : State) : State :=
  match parseMode buf with
  | none => s
  | some mode => { s with trigger := setBaselineState { s.trigger with mode := mode } }

def isDigit (b : UInt8) : Bool := 48 ≤ b && b ≤ 57

/-- The kernel's `isspace` takes the no-break space too. -/
def isSpace (b : UInt8) : Bool := b = 32 || (9 ≤ b && b ≤ 13) || b = 160

/-- The number at the start of the buffer and the number of characters taken, one white space included. -/
def parseInterval (buf : List UInt8) : ℕ × ℕ :=
  let digits := buf.takeWhile isDigit
  let value := digits.foldl (fun n b => (10 * n + (b.toNat - 48)) % 2 ^ 32) 0
  (value, digits.length + if (buf.drop digits.length).head?.any isSpace then 1 else 0)

/-- `jiffies` is `msecs_to_jiffies`. -/
def intervalStore (jiffies : ℕ → ℕ) (buf : List UInt8) (s : State) : State :=
  let (value, count) := parseInterval buf
  if count = buf.length ∧ 5 ≤ value ∧ value ≤ 10000 then
    { s with trigger := setBaselineState { s.trigger with interval := jiffies value } }
  else s

/-! ## Notifications and the timer -/

/-- `netdev_trig_notify`; `carrier` is what `netif_carrier_ok` says. -/
def trigNotify (evt : NetdevEvent) (dev : NetDevice) (carrier : Bool) (s : State) : State :=
  if evt = .other then s
  else if dev.name ≠ s.trigger.deviceName then s
  else match evt, s.trigger.netDev with
    | .register, some old =>
        { s with
          trigger := { s.trigger with netDev := some dev, linkUp := false }
          refs := devHold (devPut s.refs old) dev }
    | .register, none =>
        { s with
          trigger := { s.trigger with netDev := some dev, linkUp := false }
          refs := devHold s.refs dev }
    | .unregister, some old =>
        { s with
          trigger := { s.trigger with netDev := none }
          refs := devPut s.refs old }
    | evt, _ => { s with trigger := setBaselineState { s.trigger with linkUp := evt ≠ .down && carrier } }

/-- One blink: the LED leaves its base state when there was activity, and comes back to it. -/
def blink (t : LedNetdevData) (activity : ℕ) : ℕ :=
  if t.mode &&& modeLink ≠ 0 then
    if t.brightness = ledOff then ledFull
    else if t.lastActivity ≠ activity then ledOff else t.brightness
  else if t.brightness = ledFull then ledOff
  else if t.lastActivity ≠ activity then ledFull else t.brightness

/-- `netdev_trig_timer`; the packets are those of the statistics of the device. -/
def trigTimer (txPackets rxPackets : ℕ) (s : State) : State :=
  let t := s.trigger
  if t.linkUp = false ∨ t.netDev = none ∨ t.mode &&& (modeTx ||| modeRx) = 0 then
    { s with trigger :=
        { t with
          brightness := if t.mode &&& modeLink ≠ 0 ∧ t.linkUp then ledFull else ledOff
          timer := none } }
  else
    let activity := ((if t.mode &&& modeTx ≠ 0 then txPackets else 0) +
      (if t.mode &&& modeRx ≠ 0 then rxPackets else 0)) % 2 ^ 32
    { s with trigger := { t with brightness := blink t activity, lastActivity := activity, timer := some t.interval } }

/-! ## Activation -/

/-- `netdev_trig_activate` on an LED; the devices that are there already are told of again, which changes nothing
as no name is stored yet. -/
def activate (jiffies : ℕ → ℕ) (brightness : ℕ) (phase : NetDevice → Phase) : State where
  trigger := ⟨none, .empty, jiffies 50, 0, false, 0, brightness, none⟩
  refs := fun _ => 0
  phase := phase

def deactivate (s : State) : State :=
  match s.trigger.netDev with
  | none => s
  | some d => { s with trigger := { s.trigger with netDev := none }, refs := devPut s.refs d }

/-! ## Runs -/

inductive Op where
  /-- A device comes into the list, leaves it, or is freed. -/
  | list (d : NetDevice)
  | unlist (d : NetDevice)
  | release (d : NetDevice)
  | storeName (buf : List UInt8) (carrier : Bool)
  | storeMode (buf : List UInt8)
  | storeInterval (buf : List UInt8)
  | notify (evt : NetdevEvent) (d : NetDevice) (carrier : Bool)
  | timer (txPackets rxPackets : ℕ)

def State.setPhase (s : State) (d : NetDevice) (p : Phase) : State := { s with phase := Function.update s.phase d p }

@[simp] theorem setPhase_self (s : State) (d : NetDevice) (p : Phase) : (s.setPhase d p).phase d = p := by
  simp [State.setPhase]

/-- The phase of a device that an event was told of. -/
def eventPhase (p : Phase) : NetdevEvent → Phase
  | .up => .up
  | .down => .down
  | .register => .down
  | .unregister => .unregistered
  | _ => p

def step (jiffies : ℕ → ℕ) (s : State) : Op → State
  | .list d => s.setPhase d .listed
  | .unlist d => s.setPhase d .unlisted
  | .release d => s.setPhase d .absent
  | .storeName buf carrier => deviceNameStore buf carrier s
  | .storeMode buf => modeStore buf s
  | .storeInterval buf => intervalStore jiffies buf s
  | .notify evt d carrier => (trigNotify evt d carrier s).setPhase d (eventPhase (s.phase d) evt)
  | .timer txPackets rxPackets => trigTimer txPackets rxPackets s

/-- The order in which the kernel tells of a device. The end of a device is told again until nobody holds it. -/
def Legal (s : State) : Op → Prop
  | .list d => s.phase d = .absent
  | .unlist d => s.phase d = .down
  | .release d => s.phase d = .unregistered ∧ s.refs d = 0
  | .notify .register d _ => s.phase d = .listed
  | .notify .up d _ => s.phase d = .down
  | .notify .change d _ => s.phase d = .up
  | .notify .down d _ => s.phase d = .up
  | .notify .unregister d _ => s.phase d = .unlisted ∨ s.phase d = .unregistered
  | _ => True

instance Legal.decidable (s : State) : ∀ op, Decidable (Legal s op)
  | .list _ => inferInstanceAs (Decidable (_ = _))
  | .unlist _ => inferInstanceAs (Decidable (_ = _))
  | .release _ => inferInstanceAs (Decidable (_ ∧ _))
  | .notify .register _ _ => inferInstanceAs (Decidable (_ = _))
  | .notify .up _ _ => inferInstanceAs (Decidable (_ = _))
  | .notify .change _ _ => inferInstanceAs (Decidable (_ = _))
  | .notify .down _ _ => inferInstanceAs (Decidable (_ = _))
  | .notify .unregister _ _ => inferInstanceAs (Decidable (_ ∨ _))
  | .notify .other _ _ => isTrue trivial
  | .storeName _ _ => isTrue trivial
  | .storeMode _ => isTrue trivial
  | .storeInterval _ => isTrue trivial
  | .timer _ _ => isTrue trivial

end Neufbox.Leds.Netdev
