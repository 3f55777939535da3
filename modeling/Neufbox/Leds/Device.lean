import Neufbox.Library.RunAlong

/-! # The LEDs of the box

`leds-neufbox.c`: users store commands into one register a LED, and a timer executes them while the device
is in control mode; in the other modes the timer shows patterns of its own. A blinking command puts itself
back into its register. On the way back to control mode the last executed commands are stored again.

Every LED has a pin of its own, and `gpio` holds the values of the pins; which of them light with a low pin
is a matter of the board. The shift register behind some of the pins is flushed at the end of each function
that writes to it, so the pins stand for what the LEDs show. -/
namespace Neufbox.Leds
set_option autoImplicit false
set_option maxHeartbeats 250000
set_option maxRecDepth 120000

inductive LedMode
  | disable | control | downloading | burning | panic | demo
  deriving DecidableEq, Repr

inductive LedId
  | wan | traffic | tel | tv | wifi | alarm
  | red | green | blue
  deriving DecidableEq, Repr

inductive LedState
  | unchanged | on | off | toggle | blinkonce | slowblinks | blinks
  deriving DecidableEq, Repr

/-- The order of the loops over the LEDs. -/
def allLeds : List LedId := [.wan, .traffic, .tel, .tv, .wifi, .alarm, .red, .green, .blue]

/-- The LEDs up to the alarm. -/
def frontLeds : List LedId := [.wan, .traffic, .tel, .tv, .wifi, .alarm]

/-- `struct leds_device` and the pins; `process` is the mode whose function `fn_leds_mode_process` is. -/
structure LedsDevice where
  counter : ℕ
  mode : LedMode
  process : LedMode
  command : LedId → LedState
  state : LedId → LedState
  gpio : LedId → Bool

/-! ## Single LEDs -/

section Single
variable (activeLow : LedId → Bool)

def setGpio (id : LedId) (value : Bool) (dev : LedsDevice) : LedsDevice :=
  { dev with gpio := Function.update dev.gpio id value }

def ledOff (id : LedId) (dev : LedsDevice) : LedsDevice := setGpio id (activeLow id) dev

def ledOn (id : LedId) (dev : LedsDevice) : LedsDevice := setGpio id (!activeLow id) dev

/-- The result says whether the LED is dark now. -/
def ledToggle (id : LedId) (dev : LedsDevice) : LedsDevice × Bool :=
  let value := !dev.gpio id
  (setGpio id value dev, if activeLow id then value else !value)

/-- Whether the LED is on. -/
def lit (dev : LedsDevice) (id : LedId) : Bool := dev.gpio id != activeLow id

/-- `atomic_set` on a command register. -/
def setCommand (id : LedId) (st : LedState) (dev : LedsDevice) : LedsDevice :=
  { dev with command := Function.update dev.command id st }

/-- `atomic_cmpxchg` on a command register. -/
def cmpxchg (id : LedId) (old new : LedState) (dev : LedsDevice) : LedsDevice :=
  if dev.command id = old then setCommand id new dev else dev

def recordState (id : LedId) (st : LedState) (dev : LedsDevice) : LedsDevice :=
  { dev with state := Function.update dev.state id st }

/-! ## Control mode -/

/-- The `switch` of `leds_process_control`, with the command that was read and `blink_state`, which is
`none` while it is negative. -/
def execute (id : LedId) (st : LedState) (blink : Option Bool) (dev : LedsDevice) : LedsDevice × Option Bool :=
  match st with
  | .unchanged => (dev, blink)
  | .on => (ledOn activeLow id dev, blink)
  | .off => (ledOff activeLow id dev, blink)
  | .toggle => ((ledToggle activeLow id dev).1, blink)
  | .blinkonce => (cmpxchg id .unchanged .toggle (ledToggle activeLow id dev).1, blink)
  | .slowblinks =>
      (cmpxchg id .unchanged .slowblinks
        (if dev.counter % 8 = 0 then (ledToggle activeLow id dev).1 else dev), blink)
  | .blinks =>
      match blink with
      | none =>
          let r := ledToggle activeLow id dev
          (cmpxchg id .unchanged .blinks r.1, some r.2)
      | some true => (cmpxchg id .unchanged .blinks (ledOff activeLow id dev), some true)
      | some false => (cmpxchg id .unchanged .blinks (ledOn activeLow id dev), some false)

/-- A round of the loop of `leds_process_control`. -/
def processLed (r : LedsDevice × Option Bool) (id : LedId) : LedsDevice × Option Bool :=
  let st := r.1.command id
  let dev := cmpxchg id st .unchanged r.1
  if st = .unchanged then (dev, r.2)
  else
    let r := execute activeLow id st r.2 dev
    (recordState id st r.1, r.2)

def ledsProcessControl (dev : LedsDevice) : LedsDevice := (allLeds.foldl (processLed activeLow) (dev, none)).1

/-! ## The other modes -/

def allOn (ids : List LedId) (dev : LedsDevice) : LedsDevice := ids.foldl (fun dev id => ledOn activeLow id dev) dev

def allOff (ids : List LedId) (dev : LedsDevice) : LedsDevice := ids.foldl (fun dev id => ledOff activeLow id dev) dev

/-- The LED that runs to and fro. -/
def runningLed (counter : ℕ) : LedId :=
  match counter % 10 with
  | 0 => .wan
  | 1 | 9 => .traffic
  | 2 | 8 => .tel
  | 3 | 7 => .tv
  | 4 | 6 => .wifi
  | _ => .alarm

def ledsProcessK2000 (dev : LedsDevice) : LedsDevice :=
  ledOn activeLow (runningLed dev.counter) (allOff activeLow frontLeds dev)

def ledsProcessDownloading (dev : LedsDevice) : LedsDevice :=
  ledOff activeLow .blue (allOn activeLow [.red, .green] (ledsProcessK2000 activeLow dev))

def ledsProcessBurning (dev : LedsDevice) : LedsDevice :=
  allOff activeLow [.green, .blue] (ledOn activeLow .red (ledsProcessK2000 activeLow dev))

def ledsProcessPanic (dev : LedsDevice) : LedsDevice :=
  if dev.counter % 2 = 1 then allOn activeLow allLeds dev else allOff activeLow allLeds dev

/-- The colour of the service LED in the demo. -/
def demoColour (counter : ℕ) (dev : LedsDevice) : LedsDevice :=
  if counter % 6 = 0 then dev
  else
    match counter / 6 % 3 with
    | 0 => allOff activeLow [.green, .blue] (ledOn activeLow .red dev)
    | 1 => ledOff activeLow .blue (ledOn activeLow .green (ledOff activeLow .red dev))
    | _ => ledOn activeLow .blue (allOff activeLow [.red, .green] dev)

def demoPair (counter : ℕ) : List LedId :=
  match counter % 6 with
  | 0 | 5 => [.wan, .alarm]
  | 1 | 4 => [.traffic, .wifi]
  | _ => [.tel, .tv]

def ledsProcessDemo (dev : LedsDevice) : LedsDevice :=
  allOn activeLow (demoPair dev.counter) (demoColour activeLow dev.counter (allOff activeLow frontLeds dev))

/-- `fn_leds_mode_process`. -/
def ledsProcess (dev : LedsDevice) : LedsDevice :=
  match dev.process with
  | .disable => dev
  | .control => ledsProcessControl activeLow dev
  | .downloading => ledsProcessDownloading activeLow dev
  | .burning => ledsProcessBurning activeLow dev
  | .panic => ledsProcessPanic activeLow dev
  | .demo => ledsProcessDemo activeLow dev

def nextCounter (dev : LedsDevice) : LedsDevice := { dev with counter := (dev.counter + 1) % 2 ^ 32 }

def ledsTimerFunction (dev : LedsDevice) : LedsDevice := nextCounter (ledsProcess activeLow dev)

/-! ## Users -/

def ledsControl (id : LedId) (st : LedState) (dev : LedsDevice) : LedsDevice := setCommand id st dev

/-- What a round of the loop at the end of `leds_set_mode` does with a LED. -/
def enterMode (mode : LedMode) (dev : LedsDevice) (id : LedId) : LedsDevice :=
  if mode = .control then cmpxchg id .unchanged (dev.state id) dev else ledOff activeLow id dev

/-- The result is the mode before. -/
def ledsSetMode (mode : LedMode) (dev : LedsDevice) : LedsDevice × LedMode :=
  if mode = dev.mode then (dev, dev.mode)
  else (allLeds.foldl (enterMode activeLow mode) { dev with process := mode, mode := mode }, dev.mode)

/-- The device as it is allocated, with its states set. -/
def freshDevice : LedsDevice := ⟨0, .disable, .disable, fun _ => .unchanged, fun _ => .off, fun _ => false⟩

/-- The service LED of `leds_init`; `neufboxMain` is the configuration. -/
def serviceColour (neufboxMain : Bool) (dev : LedsDevice) : LedsDevice :=
  if neufboxMain then ledOff activeLow .blue (allOn activeLow [.red, .green] dev)
  else ledOn activeLow .blue (allOff activeLow [.red, .green] dev)

def serviceCommands (neufboxMain : Bool) (dev : LedsDevice) : LedsDevice :=
  if neufboxMain then ledsControl .blue .off (ledsControl .green .on (ledsControl .red .on dev))
  else ledsControl .blue .on (ledsControl .green .off (ledsControl .red .off dev))

/-- The device when its timer is added. -/
def ledsInit (neufboxMain : Bool) : LedsDevice :=
  serviceCommands neufboxMain (serviceColour activeLow neufboxMain (ledsSetMode activeLow .control freshDevice).1)

end Single

/-! ## What belongs to a LED -/

/-- The registers and the pin of a LED. -/
structure LedView where
  command : LedState
  state : LedState
  gpio : Bool
  deriving DecidableEq, Repr

def LedsDevice.view (dev : LedsDevice) (id : LedId) : LedView := ⟨dev.command id, dev.state id, dev.gpio id⟩

/-- What is common to all LEDs. -/
def LedsDevice.shared (dev : LedsDevice) : ℕ × LedMode × LedMode := (dev.counter, dev.mode, dev.process)

section View
variable (activeLow : LedId → Bool) (dev : LedsDevice)

@[simp] theorem shared_setGpio (id : LedId) (v : Bool) : (setGpio id v dev).shared = dev.shared := rfl
@[simp] theorem shared_ledOn (id : LedId) : (ledOn activeLow id dev).shared = dev.shared := rfl
@[simp] theorem shared_ledOff (id : LedId) : (ledOff activeLow id dev).shared = dev.shared := rfl
@[simp] theorem shared_ledToggle (id : LedId) : (ledToggle activeLow id dev).1.shared = dev.shared := rfl
@[simp] theorem shared_setCommand (id : LedId) (st : LedState) : (setCommand id st dev).shared = dev.shared := rfl
@[simp] theorem shared_recordState (id : LedId) (st : LedState) : (recordState id st dev).shared = dev.shared := rfl

@[simp] theorem shared_cmpxchg (id : LedId) (old new : LedState) : (cmpxchg id old new dev).shared = dev.shared := by
  rw [cmpxchg]
  split <;> rfl

theorem view_setGpio_self (id : LedId) (v : Bool) :
    (setGpio id v dev).view id = { dev.view id with gpio := v } := by
  simp [LedsDevice.view, setGpio]

theorem view_setGpio_other {id j : LedId} (h : j ≠ id) (v : Bool) : (setGpio id v dev).view j = dev.view j := by
  simp [LedsDevice.view, setGpio, h]

theorem view_setCommand_self (id : LedId) (st : LedState) :
    (setCommand id st dev).view id = { dev.view id with command := st } := by
  simp [LedsDevice.view, setCommand]

theorem view_setCommand_other {id j : LedId} (h : j ≠ id) (st : LedState) :
    (setCommand id st dev).view j = dev.view j := by
  simp [LedsDevice.view, setCommand, h]

theorem view_recordState_self (id : LedId) (st : LedState) :
    (recordState id st dev).view id = { dev.view id with state := st } := by
  simp [LedsDevice.view, recordState]

theorem view_recordState_other {id j : LedId} (h : j ≠ id) (st : LedState) :
    (recordState id st dev).view j = dev.view j := by
  simp [LedsDevice.view, recordState, h]

theorem view_cmpxchg_self (id : LedId) (old new : LedState) : (cmpxchg id old new dev).view id =
    { dev.view id with command := if (dev.view id).command = old then new else (dev.view id).command } := by
  have hcommand : (dev.view id).command = dev.command id := rfl
  rw [cmpxchg, hcommand]
  split
  · rw [view_setCommand_self]
  · rfl

theorem view_cmpxchg_other {id j : LedId} (h : j ≠ id) (old new : LedState) :
    (cmpxchg id old new dev).view j = dev.view j := by
  rw [cmpxchg]
  split
  · exact view_setCommand_other dev h new
  · rfl

/-- The register that was read is cleared when nothing was stored in between. -/
theorem view_cleared (id : LedId) :
    (cmpxchg id (dev.command id) .unchanged dev).view id = ⟨.unchanged, dev.state id, dev.gpio id⟩ := by
  rw [cmpxchg, if_pos rfl, view_setCommand_self]
  rfl

@[simp] theorem shared_execute (id : LedId) (st : LedState) (blink : Option Bool) :
    (execute activeLow id st blink dev).1.shared = dev.shared := by
  cases st with
  | slowblinks =>
    rw [execute, shared_cmpxchg]
    split <;> rfl
  | blinks =>
    match blink with
    | none => exact shared_cmpxchg _ _ _ _
    | some true => exact shared_cmpxchg _ _ _ _
    | some false => exact shared_cmpxchg _ _ _ _
  | blinkonce => exact shared_cmpxchg _ _ _ _
  | _ => rfl

theorem view_execute_other {id j : LedId} (h : j ≠ id) (st : LedState) (blink : Option Bool) :
    (execute activeLow id st blink dev).1.view j = dev.view j := by
  have htoggle : (ledToggle activeLow id dev).1.view j = dev.view j := view_setGpio_other dev h _
  cases st with
  | unchanged => rfl
  | on => exact view_setGpio_other dev h _
  | off => exact view_setGpio_other dev h _
  | toggle => exact htoggle
  | blinkonce => exact (view_cmpxchg_other _ h _ _).trans htoggle
  | slowblinks =>
    rw [execute, view_cmpxchg_other _ h]
    split
    · exact htoggle
    · rfl
  | blinks =>
    match blink with
    | none => exact (view_cmpxchg_other _ h _ _).trans htoggle
    | some true => exact (view_cmpxchg_other _ h _ _).trans (view_setGpio_other dev h _)
    | some false => exact (view_cmpxchg_other _ h _ _).trans (view_setGpio_other dev h _)

/-- The command a register holds when the one that was read from it has been executed. -/
def rearmed : LedState → LedState
  | .unchanged | .on | .off | .toggle => .unchanged
  | .blinkonce => .toggle
  | .slowblinks => .slowblinks
  | .blinks => .blinks

/-- Executing leaves the state register alone, re-arms an empty command register and sets the pin. -/
theorem view_execute_self (id : LedId) (st : LedState) (blink : Option Bool) :
    ∃ gpio, (execute activeLow id st blink dev).1.view id =
        ⟨if dev.command id = .unchanged then rearmed st else dev.command id, dev.state id, gpio⟩ ∧
      (st = .on → gpio = !activeLow id) ∧ (st = .off → gpio = activeLow id) ∧
      (st = .toggle ∨ st = .blinkonce → gpio = !dev.gpio id) := by
  have hset : ∀ v, (setGpio id v dev).view id = ⟨dev.command id, dev.state id, v⟩ := view_setGpio_self dev id
  have hkept : (if dev.command id = .unchanged then LedState.unchanged else dev.command id) = dev.command id := by
    split
    · rename_i h
      exact h.symm
    · rfl
  cases st with
  | unchanged => exact ⟨dev.gpio id, by rw [rearmed, hkept]; rfl, by simp, by simp, by simp⟩
  | on => exact ⟨!activeLow id, by rw [rearmed, hkept]; exact hset _, by simp, by simp, by simp⟩
  | off => exact ⟨activeLow id, by rw [rearmed, hkept]; exact hset _, by simp, by simp, by simp⟩
  | toggle => exact ⟨!dev.gpio id, by rw [rearmed, hkept]; exact hset _, by simp, by simp, by simp⟩
  | blinkonce =>
    refine ⟨!dev.gpio id, ?_, by simp, by simp, by simp⟩
    rw [execute, view_cmpxchg_self, ledToggle, hset]
    rfl
  | slowblinks =>
    have hgpio : ∃ v, (if dev.counter % 8 = 0 then (ledToggle activeLow id dev).1 else dev).view id =
        ⟨dev.command id, dev.state id, v⟩ := by
      split
      · exact ⟨_, hset _⟩
      · exact ⟨_, rfl⟩
    obtain ⟨v, hv⟩ := hgpio
    refine ⟨v, ?_, by simp, by simp, by simp⟩
    rw [execute, view_cmpxchg_self, hv]
    rfl
  | blinks =>
    match blink with
    | none =>
      refine ⟨!dev.gpio id, ?_, by simp, by simp, by simp⟩
      show (cmpxchg id .unchanged .blinks (ledToggle activeLow id dev).1).view id = _
      rw [view_cmpxchg_self, ledToggle, hset]
      rfl
    | some true =>
      refine ⟨activeLow id, ?_, by simp, by simp, by simp⟩
      show (cmpxchg id .unchanged .blinks (ledOff activeLow id dev)).view id = _
      rw [view_cmpxchg_self, ledOff, hset]
      rfl
    | some false =>
      refine ⟨!activeLow id, ?_, by simp, by simp, by simp⟩
      show (cmpxchg id .unchanged .blinks (ledOn activeLow id dev)).view id = _
      rw [view_cmpxchg_self, ledOn, hset]
      rfl

/-! ## A tick in control mode -/

@[simp] theorem shared_processLed (r : LedsDevice × Option Bool) (id : LedId) :
    (processLed activeLow r id).1.shared = r.1.shared := by
  rw [processLed]
  split
  · exact shared_cmpxchg r.1 id _ _
  · show (recordState id _ _).shared = _
    rw [shared_recordState, shared_execute, shared_cmpxchg]

theorem view_processLed_other (r : LedsDevice × Option Bool) (id j : LedId) (h : j ≠ id) :
    (processLed activeLow r id).1.view j = r.1.view j := by
  rw [processLed]
  split
  · exact view_cmpxchg_other r.1 h _ _
  · show (recordState id _ _).view j = _
    rw [view_recordState_other _ h, view_execute_other _ _ h, view_cmpxchg_other _ h]

/-- What a tick makes of a LED. -/
structure Ticked (id : LedId) (v v' : LedView) : Prop where
  command : v'.command = rearmed v.command
  state : v'.state = if v.command = .unchanged then v.state else v.command
  kept : v.command = .unchanged → v'.gpio = v.gpio
  on : v.command = .on → v'.gpio = !activeLow id
  off : v.command = .off → v'.gpio = activeLow id
  toggle : v.command = .toggle ∨ v.command = .blinkonce → v'.gpio = !v.gpio

theorem processLed_ticked (r : LedsDevice × Option Bool) (id : LedId) :
    Ticked activeLow id (r.1.view id) ((processLed activeLow r id).1.view id) := by
  rw [processLed]
  by_cases hc : r.1.command id = .unchanged
  · have hv : (r.1.view id).command = .unchanged := hc
    have hview : (cmpxchg id (r.1.command id) .unchanged r.1).view id = r.1.view id := by
      rw [view_cleared, LedsDevice.view, hc]
    simp only [if_pos hc]
    rw [hview]
    refine ⟨by rw [hv]; rfl, by rw [if_pos hv], fun _ => rfl, ?_, ?_, ?_⟩ <;> simp [hv]
  · have hclear := view_cleared r.1 id
    obtain ⟨gpio, hview, hon, hoff, htoggle⟩ := view_execute_self activeLow
      (cmpxchg id (r.1.command id) .unchanged r.1) id (r.1.command id) r.2
    have hcommand : (cmpxchg id (r.1.command id) .unchanged r.1).command id = .unchanged :=
      congrArg LedView.command hclear
    have hgpio : (cmpxchg id (r.1.command id) .unchanged r.1).gpio id = r.1.gpio id := congrArg LedView.gpio hclear
    rw [if_pos hcommand] at hview
    rw [hgpio] at htoggle
    simp only [if_neg hc]
    rw [view_recordState_self, hview]
    exact ⟨rfl, (if_neg hc).symm, fun h => absurd h hc, hon, hoff, htoggle⟩

theorem allLeds_nodup : allLeds.Nodup := by decide

theorem mem_allLeds (id : LedId) : id ∈ allLeds := by cases id <;> decide

theorem ledsProcessControl_ticked (id : LedId) :
    Ticked activeLow id (dev.view id) ((ledsProcessControl activeLow dev).view id) := by
  obtain ⟨r, hview, hrun⟩ := @RunAlong.runSteps_view _ _ _ (processLed activeLow)
    (fun (r : LedsDevice × Option Bool) j => r.1.view j) (view_processLed_other activeLow) (dev, none) allLeds
    allLeds_nodup id (mem_allLeds id)
  have hticked := processLed_ticked activeLow r id
  rw [hview] at hticked
  show Ticked activeLow id _ ((RunAlong.runSteps (processLed activeLow) (dev, none) allLeds).1.view id)
  rw [hrun]
  exact hticked

theorem shared_ledsProcessControl : (ledsProcessControl activeLow dev).shared = dev.shared :=
  RunAlong.run_preserves (fun r : LedsDevice × Option Bool => r.1.shared = dev.shared) allLeds
    (fun r id h => (shared_processLed activeLow r id).trans h) rfl

/-! ## The other functions -/

/-- Everything but the pins. -/
def LedsDevice.registers (dev : LedsDevice) : (LedId → LedState) × (LedId → LedState) × ℕ × LedMode × LedMode :=
  (dev.command, dev.state, dev.shared)

theorem registers_allOn (ids : List LedId) : (allOn activeLow ids dev).registers = dev.registers :=
  RunAlong.run_preserves (fun d : LedsDevice => d.registers = dev.registers) ids (fun _ _ h => h) rfl

theorem registers_allOff (ids : List LedId) : (allOff activeLow ids dev).registers = dev.registers :=
  RunAlong.run_preserves (fun d : LedsDevice => d.registers = dev.registers) ids (fun _ _ h => h) rfl

/-- In the other modes a tick writes to pins only. -/
theorem registers_ledsProcess (h : dev.process ≠ .control) : (ledsProcess activeLow dev).registers = dev.registers := by
  have hk2000 : (ledsProcessK2000 activeLow dev).registers = dev.registers := registers_allOff activeLow dev frontLeds
  have hcolour : ∀ (counter : ℕ) (d : LedsDevice), (demoColour activeLow counter d).registers = d.registers := by
    intro counter d
    rw [demoColour]
    split
    · rfl
    · split <;> rfl
  rw [ledsProcess]
  cases hp : dev.process with
  | disable => rfl
  | control => exact absurd hp h
  | downloading =>
    show (allOn activeLow [.red, .green] _).registers = _
    rw [registers_allOn]
    exact hk2000
  | burning =>
    show (allOff activeLow [.green, .blue] _).registers = _
    rw [registers_allOff]
    exact hk2000
  | panic =>
    show (if dev.counter % 2 = 1 then allOn activeLow allLeds dev else allOff activeLow allLeds dev).registers = _
    split
    · exact registers_allOn activeLow dev allLeds
    · exact registers_allOff activeLow dev allLeds
  | demo =>
    show (allOn activeLow _ _).registers = _
    rw [registers_allOn, hcolour, registers_allOff]

theorem registers_serviceColour (neufboxMain : Bool) :
    (serviceColour activeLow neufboxMain dev).registers = dev.registers := by
  rw [serviceColour]
  split
  · exact registers_allOn activeLow dev [.red, .green]
  · exact registers_allOff activeLow dev [.red, .green]

theorem view_enterMode_other (mode : LedMode) (id j : LedId) (h : j ≠ id) :
    (enterMode activeLow mode dev id).view j = dev.view j := by
  rw [enterMode]
  split
  · exact view_cmpxchg_other dev h _ _
  · exact view_setGpio_other dev h _

theorem shared_enterMode (mode : LedMode) (id : LedId) : (enterMode activeLow mode dev id).shared = dev.shared := by
  rw [enterMode]
  split
  · exact shared_cmpxchg dev id _ _
  · rfl

/-- What a change of the mode makes of a LED. -/
def entered (mode : LedMode) (id : LedId) (v : LedView) : LedView :=
  if mode = .control then { v with command := if v.command = .unchanged then v.state else v.command }
  else { v with gpio := activeLow id }

theorem view_enterMode_self (mode : LedMode) (id : LedId) :
    (enterMode activeLow mode dev id).view id = entered activeLow mode id (dev.view id) := by
  rw [enterMode, entered]
  split
  · exact view_cmpxchg_self dev id _ _
  · exact view_setGpio_self dev id _

theorem ledsSetMode_changes (mode : LedMode) (h : mode ≠ dev.mode) :
    (∀ id, (ledsSetMode activeLow mode dev).1.view id = entered activeLow mode id (dev.view id)) ∧
      (ledsSetMode activeLow mode dev).1.shared = (dev.counter, mode, mode) := by
  rw [ledsSetMode, if_neg h]
  constructor
  · intro id
    have hother : ∀ (d : LedsDevice) (i j : LedId), j ≠ i → (enterMode activeLow mode d i).view j = d.view j :=
      fun d i j => view_enterMode_other activeLow d mode i j
    obtain ⟨d, hview, hrun⟩ := RunAlong.runSteps_view hother { dev with process := mode, mode := mode } allLeds_nodup
      (mem_allLeds id)
    show (RunAlong.runSteps (enterMode activeLow mode) _ allLeds).view id = _
    rw [hrun, view_enterMode_self, hview]
    rfl
  · exact RunAlong.run_preserves (fun d : LedsDevice => d.shared = (dev.counter, mode, mode)) allLeds
      (fun d id hd => (shared_enterMode activeLow d mode id).trans hd) rfl

end View

end Neufbox.Leds
