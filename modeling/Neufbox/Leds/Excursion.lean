import Neufbox.Leds.Device

/-! # Leaving control mode and coming back

On the way back `leds_set_mode` stores the last executed commands again, and the next tick executes them.
That restores what `on` and `off` show; a toggling command toggles once more, from whatever the other mode
has left on the pin. -/
namespace Neufbox.Leds
open RunAlong
set_option autoImplicit false
set_option maxHeartbeats 250000
set_option maxRecDepth 120000

/-! ## Histories -/

inductive Call
  | control (id : LedId) (st : LedState)
  | tick
  | setMode (mode : LedMode)
  deriving DecidableEq, Repr

variable (activeLow : LedId → Bool)

def perform (dev : LedsDevice) : Call → LedsDevice
  | .control id st => ledsControl id st dev
  | .tick => ledsTimerFunction activeLow dev
  | .setMode mode => (ledsSetMode activeLow mode dev).1

def afterCalls (dev : LedsDevice) (calls : List Call) : LedsDevice := runSteps (perform activeLow) dev calls

/-- No command waits for its execution; one that blinks is in its register all the time. -/
def NoPending (dev : LedsDevice) : Prop :=
  ∀ id, dev.command id = .unchanged ∨
    ((dev.command id = .slowblinks ∨ dev.command id = .blinks) ∧ dev.command id = dev.state id)

def Steady (dev : LedsDevice) (id : LedId) : Prop := dev.state id ≠ .slowblinks ∧ dev.state id ≠ .blinks

/-- What happens while the device is in other modes. -/
def Away : Call → Prop
  | .control _ _ => False
  | .tick => True
  | .setMode mode => mode ≠ .control

/-! ## What every call keeps -/

/-- The function belongs to the mode, and no LED is without an executed command. -/
structure Sound (dev : LedsDevice) : Prop where
  process : dev.process = dev.mode
  state : ∀ id, dev.state id ≠ .unchanged

theorem ledsTimerFunction_control {dev : LedsDevice} (h : dev.process = .control) (id : LedId) :
    Ticked activeLow id (dev.view id) ((ledsTimerFunction activeLow dev).view id) := by
  have hview : (ledsTimerFunction activeLow dev).view id = (ledsProcess activeLow dev).view id := rfl
  rw [hview, ledsProcess, h]
  exact ledsProcessControl_ticked activeLow dev id

theorem ledsTimerFunction_mode (dev : LedsDevice) : (ledsTimerFunction activeLow dev).mode = dev.mode ∧
    (ledsTimerFunction activeLow dev).process = dev.process := by
  have hshared : (ledsProcess activeLow dev).shared = dev.shared := by
    by_cases h : dev.process = .control
    · rw [ledsProcess, h]
      exact shared_ledsProcessControl activeLow dev
    · exact congrArg (fun r => r.2.2) (registers_ledsProcess activeLow dev h)
  exact ⟨congrArg (fun r => r.2.1) hshared, congrArg (fun r => r.2.2) hshared⟩

theorem ledsTimerFunction_away {dev : LedsDevice} (h : dev.process ≠ .control) :
    (ledsTimerFunction activeLow dev).command = dev.command ∧ (ledsTimerFunction activeLow dev).state = dev.state := by
  have hregisters := registers_ledsProcess activeLow dev h
  exact ⟨congrArg Prod.fst hregisters, congrArg (fun r => r.2.1) hregisters⟩

theorem ledsSetMode_shared {dev : LedsDevice} {mode : LedMode} (h : mode ≠ dev.mode) :
    (ledsSetMode activeLow mode dev).1.mode = mode ∧ (ledsSetMode activeLow mode dev).1.process = mode ∧
      (ledsSetMode activeLow mode dev).1.counter = dev.counter := by
  obtain ⟨-, hshared⟩ := ledsSetMode_changes activeLow dev mode h
  exact ⟨congrArg (fun r => r.2.1) hshared, congrArg (fun r => r.2.2) hshared, congrArg (fun r => r.1) hshared⟩

theorem sound_setMode {dev : LedsDevice} (h : Sound dev) (mode : LedMode) : Sound (ledsSetMode activeLow mode dev).1 := by
  by_cases hmode : mode = dev.mode
  · rw [ledsSetMode, if_pos hmode]
    exact h
  · obtain ⟨hview, -⟩ := ledsSetMode_changes activeLow dev mode hmode
    obtain ⟨hnew, hprocess, -⟩ := ledsSetMode_shared activeLow hmode
    refine ⟨?_, fun id => ?_⟩
    · exact hprocess.trans hnew.symm
    · have hstate : (ledsSetMode activeLow mode dev).1.state id = dev.state id := by
        have hcopy := congrArg LedView.state (hview id)
        rw [entered] at hcopy
        split at hcopy <;> exact hcopy
      rw [hstate]
      exact h.state id

theorem Sound.perform {dev : LedsDevice} (h : Sound dev) (call : Call) : Sound (perform activeLow dev call) := by
  cases call with
  | control id st => exact ⟨h.process, h.state⟩
  | tick =>
    obtain ⟨hmode, hprocess⟩ := ledsTimerFunction_mode activeLow dev
    refine ⟨hprocess.trans (h.process.trans hmode.symm), fun id => ?_⟩
    by_cases hp : dev.process = .control
    · have hstate := (ledsTimerFunction_control activeLow hp id).state
      show ((ledsTimerFunction activeLow dev).view id).state ≠ _
      rw [hstate]
      split
      · exact h.state id
      · assumption
    · show (ledsTimerFunction activeLow dev).state id ≠ _
      rw [(ledsTimerFunction_away activeLow hp).2]
      exact h.state id
  | setMode mode => exact sound_setMode activeLow h mode

theorem Sound.of_registers {dev d : LedsDevice} (h : Sound dev) (heq : d.registers = dev.registers) : Sound d where
  process := (congrArg (fun r => r.2.2.2.2) heq).trans (h.process.trans (congrArg (fun r => r.2.2.2.1) heq).symm)
  state id := by
    have hstate : d.state = dev.state := congrArg (fun r => r.2.1) heq
    rw [hstate]
    exact h.state id

theorem sound_fresh : Sound freshDevice := ⟨rfl, fun _ => LedState.noConfusion⟩

theorem sound_init (neufboxMain : Bool) : Sound (ledsInit activeLow neufboxMain) := by
  have hset := (sound_setMode activeLow sound_fresh .control).of_registers (registers_serviceColour activeLow _ neufboxMain)
  rw [ledsInit]
  generalize serviceColour activeLow neufboxMain _ = dev at hset
  cases neufboxMain <;> exact ⟨hset.process, hset.state⟩

theorem afterCalls_sound (neufboxMain : Bool) (calls : List Call) :
    Sound (afterCalls activeLow (ledsInit activeLow neufboxMain) calls) :=
  run_preserves Sound calls (fun _ call h => h.perform activeLow call) (sound_init activeLow neufboxMain)

/-! ## The excursion -/

/-- The device away from control mode, with the registers of a LED as they were. -/
structure Elsewhere (dev : LedsDevice) (id : LedId) (d : LedsDevice) : Prop where
  mode : d.mode ≠ .control
  process : d.process = d.mode
  command : d.command id = dev.command id
  state : d.state id = dev.state id

theorem elsewhere_setMode {dev d : LedsDevice} {id : LedId} {mode : LedMode} (hmode : mode ≠ .control)
    (hcommand : d.command id = dev.command id) (hstate : d.state id = dev.state id) (hchange : mode ≠ d.mode) :
    Elsewhere dev id (ledsSetMode activeLow mode d).1 := by
  obtain ⟨hview, -⟩ := ledsSetMode_changes activeLow d mode hchange
  obtain ⟨hnew, hprocess, -⟩ := ledsSetMode_shared activeLow hchange
  have hid := hview id
  rw [entered, if_neg hmode] at hid
  refine ⟨by rwa [hnew], ?_, (congrArg LedView.command hid).trans hcommand, (congrArg LedView.state hid).trans hstate⟩
  exact hprocess.trans hnew.symm

theorem Elsewhere.perform {dev d : LedsDevice} {id : LedId} (h : Elsewhere dev id d) {call : Call} (hcall : Away call) :
    Elsewhere dev id (perform activeLow d call) := by
  cases call with
  | control id' st => exact hcall.elim
  | tick =>
    have hp : d.process ≠ .control := by
      rw [h.process]
      exact h.mode
    obtain ⟨hcommand, hstate⟩ := ledsTimerFunction_away activeLow hp
    obtain ⟨hmode, hprocess⟩ := ledsTimerFunction_mode activeLow d
    refine ⟨?_, hprocess.trans (h.process.trans hmode.symm), ?_, ?_⟩
    · show (ledsTimerFunction activeLow d).mode ≠ _
      rw [hmode]
      exact h.mode
    · exact (congrFun hcommand id).trans h.command
    · exact (congrFun hstate id).trans h.state
  | setMode mode =>
    by_cases hsame : mode = d.mode
    · have hself : Leds.perform activeLow d (.setMode mode) = d := by
        rw [Leds.perform, ledsSetMode, if_pos hsame]
      rw [hself]
      exact h
    · exact elsewhere_setMode activeLow hcall h.command h.state hsame

/-- Leaving control mode for `mode` and spending some calls there. -/
def leave (mode : LedMode) (away : List Call) (dev : LedsDevice) : LedsDevice :=
  afterCalls activeLow dev (.setMode mode :: away)

/-- Coming back, and one tick. -/
def comeBack (dev : LedsDevice) : LedsDevice := afterCalls activeLow dev [.setMode .control, .tick]

theorem leave_elsewhere {dev : LedsDevice} (hdev : dev.mode = .control) {mode : LedMode} (hmode : mode ≠ .control)
    {away : List Call} (haway : ∀ call ∈ away, Away call) (id : LedId) :
    Elsewhere dev id (leave activeLow mode away dev) := by
  have hfirst : Elsewhere dev id (perform activeLow dev (.setMode mode)) :=
    elsewhere_setMode activeLow hmode rfl rfl (by rw [hdev]; exact hmode)
  show Elsewhere dev id (runSteps (perform activeLow) _ away)
  generalize perform activeLow dev (.setMode mode) = d at hfirst
  induction away generalizing d with
  | nil => exact hfirst
  | cons call away ih =>
    exact ih (fun c hc => haway c (List.mem_cons_of_mem _ hc)) _
      (hfirst.perform activeLow (haway call List.mem_cons_self))

/-- The tick behind the return executes the last command again. -/
theorem comeBack_ticked {dev d : LedsDevice} {id : LedId} (h : Elsewhere dev id d)
    (hcommand : dev.command id = .unchanged) :
    Ticked activeLow id ⟨dev.state id, dev.state id, d.gpio id⟩ ((comeBack activeLow d).view id) := by
  obtain ⟨hview, -⟩ := ledsSetMode_changes activeLow d .control (Ne.symm h.mode)
  have hid := hview id
  have hempty : (d.view id).command = .unchanged := h.command.trans hcommand
  rw [entered, if_pos rfl, if_pos hempty] at hid
  have hticked := ledsTimerFunction_control activeLow (ledsSetMode_shared activeLow (Ne.symm h.mode)).2.1 id
  rw [hid] at hticked
  have hstate : (d.view id).state = dev.state id := h.state
  rw [hstate] at hticked
  exact hticked

/-! ## What the other modes show -/

/-- The part of the service LED that the demo lights. -/
def demoService (counter : ℕ) : LedId :=
  match counter / 6 % 3 with
  | 0 => .red
  | 1 => .green
  | _ => .blue

/-- What a tick of a mode shows on a LED, where it sets the LED at all. -/
def pattern (mode : LedMode) (counter : ℕ) (id : LedId) : Option Bool :=
  match mode, id with
  | .disable, _ => none
  | .control, _ => none
  | .downloading, .red | .downloading, .green | .burning, .red => some true
  | .downloading, .blue | .burning, .green | .burning, .blue => some false
  | .downloading, id | .burning, id => some (id = runningLed counter)
  | .panic, _ => some (counter % 2 = 1)
  | .demo, .red | .demo, .green | .demo, .blue =>
      if counter % 6 = 0 then none else some (id = demoService counter)
  | .demo, id => some (id ∈ demoPair counter)

/-- What a LED shows behind some calls in other modes: `leds_set_mode` switches it off, and the ticks set it. -/
def shownAway (id : LedId) (mode : LedMode) (counter : ℕ) (shown : Bool) : List Call → Bool
  | [] => shown
  | .tick :: away =>
      shownAway id mode ((counter + 1) % 2 ^ 32) ((pattern mode counter id).getD shown) away
  | .setMode mode' :: away => shownAway id mode' counter (if mode' = mode then shown else false) away
  | .control _ _ :: away => shownAway id mode counter shown away

theorem lit_ledOn (j id : LedId) (d : LedsDevice) :
    lit activeLow (ledOn activeLow j d) id = if id = j then true else lit activeLow d id := by
  by_cases h : id = j
  · subst h
    simp [lit, ledOn, setGpio]
  · simp [lit, ledOn, setGpio, h]

theorem lit_ledOff (j id : LedId) (d : LedsDevice) :
    lit activeLow (ledOff activeLow j d) id = if id = j then false else lit activeLow d id := by
  by_cases h : id = j
  · subst h
    simp [lit, ledOff, setGpio]
  · simp [lit, ledOff, setGpio, h]

theorem lit_allOn (ids : List LedId) (id : LedId) (d : LedsDevice) :
    lit activeLow (allOn activeLow ids d) id = if id ∈ ids then true else lit activeLow d id := by
  induction ids generalizing d with
  | nil => rfl
  | cons j ids ih =>
    have hstep : allOn activeLow (j :: ids) d = allOn activeLow ids (ledOn activeLow j d) := rfl
    rw [hstep, ih, lit_ledOn]
    by_cases hj : id = j <;> simp [hj]

theorem lit_allOff (ids : List LedId) (id : LedId) (d : LedsDevice) :
    lit activeLow (allOff activeLow ids d) id = if id ∈ ids then false else lit activeLow d id := by
  induction ids generalizing d with
  | nil => rfl
  | cons j ids ih =>
    have hstep : allOff activeLow (j :: ids) d = allOff activeLow ids (ledOff activeLow j d) := rfl
    rw [hstep, ih, lit_ledOff]
    by_cases hj : id = j <;> simp [hj]

theorem runningLed_front (counter : ℕ) : runningLed counter ∈ frontLeds := by
  rw [runningLed]
  split <;> decide

theorem lit_k2000 (id : LedId) (d : LedsDevice) : lit activeLow (ledsProcessK2000 activeLow d) id =
    if id ∈ frontLeds then decide (id = runningLed d.counter) else lit activeLow d id := by
  have hfront := runningLed_front d.counter
  rw [ledsProcessK2000, lit_ledOn, lit_allOff]
  by_cases h : id = runningLed d.counter
  · rw [if_pos h, h, if_pos hfront, decide_eq_true rfl]
  · rw [if_neg h, decide_eq_false h]

theorem demoPair_front (counter : ℕ) : ∀ id ∈ demoPair counter, id ∈ frontLeds := by
  rw [demoPair]
  split <;> decide

theorem lit_demoColour (counter : ℕ) (id : LedId) (d : LedsDevice) : lit activeLow (demoColour activeLow counter d) id =
    if counter % 6 = 0 ∨ id ∈ frontLeds then lit activeLow d id else decide (id = demoService counter) := by
  rw [demoColour]
  by_cases hcounter : counter % 6 = 0
  · rw [if_pos hcounter, if_pos (Or.inl hcounter)]
  · rw [if_neg hcounter]
    obtain h | h | h : counter / 6 % 3 = 0 ∨ counter / 6 % 3 = 1 ∨ counter / 6 % 3 = 2 := by omega
    all_goals
      simp only [demoService, h, lit_ledOn, lit_ledOff, lit_allOff]
      cases id <;> simp [hcounter, frontLeds]

/-- A tick away from control mode shows the pattern of the mode. -/
theorem lit_ledsProcess {d : LedsDevice} (h : d.process ≠ .control) (id : LedId) :
    lit activeLow (ledsProcess activeLow d) id = (pattern d.process d.counter id).getD (lit activeLow d id) := by
  rw [ledsProcess]
  cases hp : d.process with
  | disable => rfl
  | control => exact absurd hp h
  | downloading =>
    show lit activeLow (ledOff activeLow .blue (allOn activeLow [.red, .green] (ledsProcessK2000 activeLow d))) id = _
    rw [lit_ledOff, lit_allOn, lit_k2000]
    cases id <;> rfl
  | burning =>
    show lit activeLow (allOff activeLow [.green, .blue] (ledOn activeLow .red (ledsProcessK2000 activeLow d))) id = _
    rw [lit_allOff, lit_ledOn, lit_k2000]
    cases id <;> rfl
  | panic =>
    show lit activeLow (if d.counter % 2 = 1 then _ else _) id = (some (decide (d.counter % 2 = 1))).getD _
    have hall : id ∈ allLeds := by cases id <;> decide
    by_cases hodd : d.counter % 2 = 1
    · rw [if_pos hodd, lit_allOn, if_pos hall, decide_eq_true hodd]
      rfl
    · rw [if_neg hodd, lit_allOff, if_pos hall, decide_eq_false hodd]
      rfl
  | demo =>
    show lit activeLow (allOn activeLow (demoPair d.counter) (demoColour activeLow d.counter
      (allOff activeLow frontLeds d))) id = _
    have hservice : id ∉ frontLeds → id ∉ demoPair d.counter := mt (demoPair_front d.counter id)
    rw [lit_allOn, lit_demoColour, lit_allOff]
    cases id with
    | red | green | blue =>
      rw [if_neg (hservice (by decide))]
      by_cases hcounter : d.counter % 6 = 0 <;> simp [pattern, frontLeds, hcounter]
    | _ => simp [pattern, frontLeds]

theorem lit_entered {d : LedsDevice} {mode : LedMode} (hmode : mode ≠ .control) (hchange : mode ≠ d.mode) (id : LedId) :
    lit activeLow (ledsSetMode activeLow mode d).1 id = false := by
  obtain ⟨hview, -⟩ := ledsSetMode_changes activeLow d mode hchange
  have hgpio := congrArg LedView.gpio (hview id)
  rw [entered, if_neg hmode] at hgpio
  show (((ledsSetMode activeLow mode d).1.view id).gpio != activeLow id) = false
  rw [hgpio]
  exact bne_self_eq_false _

theorem lit_afterCalls {d : LedsDevice} (hmode : d.mode ≠ .control) (hprocess : d.process = d.mode) {away : List Call}
    (haway : ∀ call ∈ away, Away call) (id : LedId) :
    lit activeLow (afterCalls activeLow d away) id = shownAway id d.mode d.counter (lit activeLow d id) away := by
  induction away generalizing d with
  | nil => rfl
  | cons call away ih =>
    have hcall := haway call List.mem_cons_self
    have hrest : ∀ c ∈ away, Away c := fun c hc => haway c (List.mem_cons_of_mem _ hc)
    show lit activeLow (afterCalls activeLow (perform activeLow d call) away) id = _
    cases call with
    | control id' st => exact hcall.elim
    | tick =>
      obtain ⟨hmode', hprocess'⟩ := ledsTimerFunction_mode activeLow d
      have hp : d.process ≠ .control := by rwa [hprocess]
      have hlit : lit activeLow (ledsTimerFunction activeLow d) id = _ := lit_ledsProcess activeLow hp id
      have hcounter : (ledsTimerFunction activeLow d).counter = (d.counter + 1) % 2 ^ 32 := by
        have hkept := congrArg (fun r => r.2.2.1) (registers_ledsProcess activeLow d hp)
        show ((ledsProcess activeLow d).counter + 1) % 2 ^ 32 = _
        rw [show (ledsProcess activeLow d).counter = d.counter from hkept]
      rw [perform, ih (by rwa [hmode']) (by rw [hprocess', hmode', hprocess]) hrest, hlit, hmode', hcounter, hprocess,
        shownAway]
    | setMode mode =>
      by_cases hsame : mode = d.mode
      · rw [perform, ledsSetMode, if_pos hsame, ih hmode hprocess hrest, shownAway, if_pos hsame, hsame]
      · obtain ⟨hnew, hprocess', hcounter⟩ := ledsSetMode_shared activeLow hsame
        rw [perform, ih (by rwa [hnew]) (hprocess'.trans hnew.symm) hrest, lit_entered activeLow hcall hsame, hnew,
          hcounter, shownAway, if_neg hsame]

theorem lit_leave {dev : LedsDevice} (hdev : dev.mode = .control) {mode : LedMode} (hmode : mode ≠ .control)
    {away : List Call} (haway : ∀ call ∈ away, Away call) (id : LedId) :
    lit activeLow (leave activeLow mode away dev) id = shownAway id mode dev.counter false away := by
  have hchange : mode ≠ dev.mode := by rwa [hdev]
  obtain ⟨hnew, hprocess, hcounter⟩ := ledsSetMode_shared activeLow hchange
  show lit activeLow (afterCalls activeLow (ledsSetMode activeLow mode dev).1 away) id = _
  rw [lit_afterCalls activeLow (by rwa [hnew]) (hprocess.trans hnew.symm) haway,
    lit_entered activeLow hmode hchange, hnew, hcounter]

/-- When a LED shows the same again: with `on` and `off` it shows what they say, and with a toggling command the
other modes leave it the other way round. -/
def Restored (dev : LedsDevice) (mode : LedMode) (away : List Call) (id : LedId) : Prop :=
  match dev.state id with
  | .on => lit activeLow dev id = true
  | .off => lit activeLow dev id = false
  | _ => shownAway id mode dev.counter false away ≠ lit activeLow dev id

theorem lit_comeBack_iff {dev d : LedsDevice} {id : LedId} (h : Elsewhere dev id d) {mode : LedMode} {away : List Call}
    (hshown : lit activeLow d id = shownAway id mode dev.counter false away) (hcommand : dev.command id = .unchanged)
    (hstate : dev.state id ≠ .unchanged) (hsteady : Steady dev id) :
    lit activeLow (comeBack activeLow d) id = lit activeLow dev id ↔ Restored activeLow dev mode away id := by
  have hticked := comeBack_ticked activeLow h hcommand
  have hlit : lit activeLow (comeBack activeLow d) id =
      (((comeBack activeLow d).view id).gpio != activeLow id) := rfl
  have hon : ∀ a c : Bool, ((!a) != a) = c ↔ c = true := by decide
  have hoff : ∀ a c : Bool, (a != a) = c ↔ c = false := by decide
  have htoggled : ∀ a b c : Bool, ((!a) != b) = c ↔ (a != b) ≠ c := by decide
  rw [hlit, Restored, ← hshown]
  generalize lit activeLow dev id = before
  cases hst : dev.state id with
  | unchanged => exact absurd hst hstate
  | on =>
    rw [hticked.on hst]
    exact hon _ _
  | off =>
    rw [hticked.off hst]
    exact hoff _ _
  | toggle =>
    rw [hticked.toggle (Or.inl hst)]
    exact htoggled _ _ _
  | blinkonce =>
    rw [hticked.toggle (Or.inr hst)]
    exact htoggled _ _ _
  | slowblinks => exact absurd hst hsteady.1
  | blinks => exact absurd hst hsteady.2

/-- A steady LED survives an excursion exactly when it is restored in this sense. -/
theorem led_survives_excursion_iff (neufboxMain : Bool) (history : List Call) (mode : LedMode) (away : List Call)
    {dev : LedsDevice} (hdev : dev = afterCalls activeLow (ledsInit activeLow neufboxMain) history)
    (hcontrol : dev.mode = .control) (hpending : NoPending dev) (hmode : mode ≠ .control)
    (haway : ∀ call ∈ away, Away call) (id : LedId) (hsteady : Steady dev id) :
    lit activeLow (comeBack activeLow (leave activeLow mode away dev)) id = lit activeLow dev id ↔
      Restored activeLow dev mode away id := by
  have hsound : Sound dev := by
    rw [hdev]
    exact afterCalls_sound activeLow neufboxMain history
  have hcommand : dev.command id = .unchanged := by
    rcases hpending id with h | ⟨hblinks, hsame⟩
    · exact h
    · rw [hsame] at hblinks
      rcases hblinks with h | h
      · exact absurd h hsteady.1
      · exact absurd h hsteady.2
  exact lit_comeBack_iff activeLow (leave_elsewhere activeLow hcontrol hmode haway id)
    (lit_leave activeLow hcontrol hmode haway id) hcommand (hsound.state id) hsteady

/-! ## Histories without toggling -/

def Plain (st : LedState) : Prop := st = .on ∨ st = .off ∨ st = .slowblinks ∨ st = .blinks

def PlainCall : Call → Prop
  | .control _ st => Plain st
  | _ => True

theorem Plain.ne_unchanged {st : LedState} (h : Plain st) : st ≠ .unchanged := by
  rintro rfl
  simp [Plain] at h

/-- In control mode a LED without a pending command shows the last one. -/
structure Shows (mode : LedMode) (id : LedId) (v : LedView) : Prop where
  state : Plain v.state
  command : v.command = .unchanged ∨ Plain v.command
  shows : mode = .control → v.command = .unchanged → v.state = if v.gpio != activeLow id then .on else .off

/-- All LEDs show their last command. -/
structure AllShow (dev : LedsDevice) : Prop where
  sound : Sound dev
  shows : ∀ id, Shows activeLow dev.mode id (dev.view id)

variable {activeLow}

theorem Shows.ticked {mode : LedMode} {id : LedId} {v v' : LedView} (h : Shows activeLow mode id v)
    (ht : Ticked activeLow id v v') : Shows activeLow mode id v' := by
  have hlit : ∀ a : Bool, ((!a) != a) = true ∧ (a != a) = false := by decide
  rcases h.command with hc | hc
  · have hstate : v'.state = v.state := by rw [ht.state, if_pos hc]
    have hcommand : v'.command = .unchanged := by rw [ht.command, hc]; rfl
    refine ⟨by rw [hstate]; exact h.state, Or.inl hcommand, fun hm _ => ?_⟩
    rw [hstate, ht.kept hc]
    exact h.shows hm hc
  · have hstate : v'.state = v.command := by rw [ht.state, if_neg hc.ne_unchanged]
    refine ⟨by rw [hstate]; exact hc, ?_, fun _ hempty => ?_⟩
    · rw [ht.command]
      rcases hc with hc | hc | hc | hc <;> simp [hc, rearmed, Plain]
    · rw [ht.command] at hempty
      rcases hc with hc | hc | hc | hc
      · rw [hstate, ht.on hc, (hlit _).1, if_pos rfl, hc]
      · rw [hstate, ht.off hc, (hlit _).2, if_neg Bool.false_ne_true, hc]
      · rw [hc] at hempty
        cases hempty
      · rw [hc] at hempty
        cases hempty

theorem Shows.entered {mode mode' : LedMode} {id : LedId} {v : LedView} (h : Shows activeLow mode id v) :
    Shows activeLow mode' id (entered activeLow mode' id v) := by
  rw [Leds.entered]
  split
  · refine ⟨h.state, ?_, ?_⟩
    · simp only
      split
      · exact Or.inr h.state
      · exact h.command
    · intro _ hempty
      simp only at hempty
      split at hempty
      · exact absurd hempty h.state.ne_unchanged
      · contradiction
  · rename_i hmode
    exact ⟨h.state, h.command, fun hm => absurd hm hmode⟩

theorem AllShow.setMode {dev : LedsDevice} (h : AllShow activeLow dev) (mode : LedMode) :
    AllShow activeLow (ledsSetMode activeLow mode dev).1 := by
  refine ⟨sound_setMode activeLow h.sound mode, fun id => ?_⟩
  by_cases hmode : mode = dev.mode
  · rw [ledsSetMode, if_pos hmode]
    exact h.shows id
  · obtain ⟨hview, -⟩ := ledsSetMode_changes activeLow dev mode hmode
    obtain ⟨hnew, -, -⟩ := ledsSetMode_shared activeLow hmode
    rw [hnew, hview]
    exact (h.shows id).entered

theorem AllShow.control {dev : LedsDevice} (h : AllShow activeLow dev) (id : LedId) {st : LedState}
    (hst : Plain st) : AllShow activeLow (ledsControl id st dev) := by
  refine ⟨⟨h.sound.process, h.sound.state⟩, fun j => ?_⟩
  by_cases hj : j = id
  · subst hj
    rw [ledsControl, view_setCommand_self]
    exact ⟨(h.shows j).state, Or.inr hst, fun _ hempty => absurd hempty hst.ne_unchanged⟩
  · rw [ledsControl, view_setCommand_other dev hj]
    exact h.shows j

theorem AllShow.perform {dev : LedsDevice} (h : AllShow activeLow dev) {call : Call}
    (hcall : PlainCall call) : AllShow activeLow (perform activeLow dev call) := by
  cases call with
  | control id st => exact h.control id hcall
  | setMode mode => exact h.setMode mode
  | tick =>
    have hmode : (ledsTimerFunction activeLow dev).mode = dev.mode := (ledsTimerFunction_mode activeLow dev).1
    refine ⟨h.sound.perform activeLow .tick, fun id => ?_⟩
    show Shows activeLow (ledsTimerFunction activeLow dev).mode id ((ledsTimerFunction activeLow dev).view id)
    rw [hmode]
    by_cases hp : dev.process = .control
    · exact (h.shows id).ticked (ledsTimerFunction_control activeLow hp id)
    · obtain ⟨hcommand, hstate⟩ := ledsTimerFunction_away activeLow hp
      have hshows := h.shows id
      refine ⟨?_, ?_, fun hm => absurd (h.sound.process.trans hm) hp⟩
      · show Plain ((ledsTimerFunction activeLow dev).state id)
        rw [hstate]
        exact hshows.state
      · show (ledsTimerFunction activeLow dev).command id = .unchanged ∨ Plain ((ledsTimerFunction activeLow dev).command id)
        rw [hcommand]
        exact hshows.command

theorem allShow_init (neufboxMain : Bool) : AllShow activeLow (ledsInit activeLow neufboxMain) := by
  -- the first change of the mode leaves `off` in every register
  have hpending : ∀ dev : LedsDevice, Sound dev → (∀ id, dev.command id = .off ∧ dev.state id = .off) →
      AllShow activeLow dev := by
    intro dev hsound hoff
    refine ⟨hsound, fun id => ⟨?_, ?_, ?_⟩⟩
    · exact Or.inr (Or.inl (hoff id).2)
    · exact Or.inr (Or.inr (Or.inl (hoff id).1))
    · intro _ hempty
      have hcommand : (dev.view id).command = .off := (hoff id).1
      rw [hcommand] at hempty
      cases hempty
  obtain ⟨hview, -⟩ := ledsSetMode_changes activeLow freshDevice .control (by decide)
  have hregisters := registers_serviceColour activeLow (ledsSetMode activeLow .control freshDevice).1 neufboxMain
  have hset := (sound_setMode activeLow sound_fresh .control).of_registers hregisters
  have hoff : ∀ id, (serviceColour activeLow neufboxMain (ledsSetMode activeLow .control freshDevice).1).command id = .off ∧
      (serviceColour activeLow neufboxMain (ledsSetMode activeLow .control freshDevice).1).state id = .off := by
    intro id
    have hcommand := congrFun (congrArg (fun r => r.1) hregisters) id
    have hstate := congrFun (congrArg (fun r => r.2.1) hregisters) id
    exact ⟨hcommand.trans (congrArg LedView.command (hview id)), hstate.trans (congrArg LedView.state (hview id))⟩
  have hon : Plain .on := Or.inl rfl
  have hoffPlain : Plain .off := Or.inr (Or.inl rfl)
  have hshow := hpending _ hset hoff
  rw [ledsInit]
  generalize serviceColour activeLow neufboxMain _ = dev at hshow
  cases neufboxMain with
  | false => exact ((hshow.control .red hoffPlain).control .green hoffPlain).control .blue hon
  | true => exact ((hshow.control .red hon).control .green hon).control .blue hoffPlain

theorem plain_history_shows (neufboxMain : Bool) {history : List Call} (hplain : ∀ call ∈ history, PlainCall call) :
    AllShow activeLow (afterCalls activeLow (ledsInit activeLow neufboxMain) history) := by
  have hinit : AllShow activeLow (ledsInit activeLow neufboxMain) := allShow_init neufboxMain
  generalize ledsInit activeLow neufboxMain = dev at hinit
  induction history generalizing dev with
  | nil => exact hinit
  | cons call history ih =>
    exact ih (fun c hc => hplain c (List.mem_cons_of_mem _ hc)) _ (hinit.perform (hplain call List.mem_cons_self))

/-- Without toggling commands in the history every steady LED is restored. -/
theorem restored_of_plain_history (neufboxMain : Bool) {history : List Call}
    (hplain : ∀ call ∈ history, PlainCall call) {dev : LedsDevice}
    (hdev : dev = afterCalls activeLow (ledsInit activeLow neufboxMain) history) (hcontrol : dev.mode = .control)
    (mode : LedMode) (away : List Call) {id : LedId} (hcommand : dev.command id = .unchanged) :
    Restored activeLow dev mode away id := by
  have hshows : AllShow activeLow dev := by
    rw [hdev]
    exact plain_history_shows neufboxMain hplain
  have hstate : dev.state id = if lit activeLow dev id then .on else .off := (hshows.shows id).shows hcontrol hcommand
  rw [Restored]
  cases hlit : lit activeLow dev id with
  | false => rw [hstate, hlit]; rfl
  | true => rw [hstate, hlit]; rfl

/-! ## A LED that was toggled off -/

def allLow : LedId → Bool := fun _ => true

/-- The first LED is switched on and toggled off again. -/
def toggledOff : List Call := [.control .wan .on, .tick, .control .wan .toggle, .tick]

theorem led_survives_switched_on :
    lit allLow (comeBack allLow (leave allLow .panic [.tick] (afterCalls allLow (ledsInit allLow true)
      [.control .wan .on, .tick]))) .wan = true := by
  have hpending : NoPending (afterCalls allLow (ledsInit allLow true) [.control .wan .on, .tick]) := by
    intro id
    cases id <;> decide
  have haway : ∀ call ∈ [Call.tick], Away call := by
    intro call hcall
    rw [List.mem_singleton.mp hcall]
    trivial
  have hiff := led_survives_excursion_iff allLow true [.control .wan .on, .tick] .panic [.tick] rfl (by decide) hpending
    (by decide) haway .wan ⟨by decide, by decide⟩
  have hlit : lit allLow (afterCalls allLow (ledsInit allLow true) [.control .wan .on, .tick]) .wan = true := by decide
  rw [hiff.mpr hlit, hlit]

theorem led_toggled_off_lights :
    NoPending (afterCalls allLow (ledsInit allLow true) toggledOff) ∧
      lit allLow (afterCalls allLow (ledsInit allLow true) toggledOff) .wan = false ∧
      lit allLow (comeBack allLow (leave allLow .disable [] (afterCalls allLow (ledsInit allLow true) toggledOff))) .wan =
        true := by
  refine ⟨?_, by decide, by decide⟩
  intro id
  cases id <;> decide

end Neufbox.Leds
