import Neufbox.Leds.Excursion

/-! # Commands and ticks, step by step

Users store commands at any time, also between the read, the clearing and the re-arming of a register by a
tick. A call of `leds_set_mode` goes LED by LED too, and it has loaded the state of a LED when it stores that as
a command again; there is one call at a time, since the ioctl holds the kernel lock. A tick in between can
execute a command that the store then follows with the old state. `Orderly` says of a step that it does no such
thing, and then no command is lost. -/
namespace Neufbox.Leds
open RunAlong
set_option autoImplicit false
set_option maxHeartbeats 250000
set_option maxRecDepth 120000

/-! ## The system -/

/-- The next thing `leds_process_control` does with the LED at hand; `st` is what it has read. -/
inductive Phase
  | read
  | clear (st : LedState)
  | execute (st : LedState)
  | record (st : LedState)
  deriving DecidableEq, Repr

/-- A tick in control mode: the LEDs from the one at hand on, and `blink_state`. -/
structure Tick where
  rest : List LedId
  phase : Phase
  blink : Option Bool
  deriving DecidableEq, Repr

/-- Where a call of `leds_set_mode` stands; `st` is the state it has loaded. -/
inductive Setter
  | idle
  | entered (mode : LedMode)
  | assigned (mode : LedMode)
  | looping (mode : LedMode) (rest : List LedId)
  | loaded (id : LedId) (st : LedState) (rest : List LedId)
  deriving DecidableEq, Repr

/-- `executed` records the commands executed in the tick. -/
structure System where
  dev : LedsDevice
  tick : Option Tick
  setter : Setter
  executed : LedId → Option LedState

inductive Op
  | control (id : LedId) (st : LedState)
  | tick
  | setMode (mode : LedMode)
  | setModeStep
  deriving DecidableEq, Repr

variable (activeLow : LedId → Bool)

/-- The next step of the timer. In the other modes a tick does not touch the command registers. -/
def tickStep (s : System) : System :=
  match s.tick with
  | none =>
      if s.dev.process = .control then { s with tick := some ⟨allLeds, .read, none⟩, executed := fun _ => none }
      else { s with dev := ledsTimerFunction activeLow s.dev }
  | some ⟨[], _, _⟩ => { s with dev := nextCounter s.dev, tick := none }
  | some ⟨id :: rest, .read, blink⟩ => { s with tick := some ⟨id :: rest, .clear (s.dev.command id), blink⟩ }
  | some ⟨id :: rest, .clear st, blink⟩ =>
      { s with
        dev := cmpxchg id st .unchanged s.dev
        tick := some (if st = .unchanged then ⟨rest, .read, blink⟩ else ⟨id :: rest, .execute st, blink⟩) }
  | some ⟨id :: rest, .execute st, blink⟩ =>
      let r := execute activeLow id st blink s.dev
      { s with
        dev := r.1
        tick := some ⟨id :: rest, .record st, r.2⟩
        executed := Function.update s.executed id (some st) }
  | some ⟨id :: rest, .record st, blink⟩ =>
      { s with dev := recordState id st s.dev, tick := some ⟨rest, .read, blink⟩ }

/-- The next step of `leds_set_mode`. -/
def setterStep (s : System) : System :=
  match s.setter with
  | .idle => s
  | .entered mode => { s with dev := { s.dev with process := mode }, setter := .assigned mode }
  | .assigned mode => { s with dev := { s.dev with mode := mode }, setter := .looping mode allLeds }
  | .looping _ [] => { s with setter := .idle }
  | .looping mode (id :: rest) =>
      if mode = .control then { s with setter := .loaded id (s.dev.state id) rest }
      else { s with dev := ledOff activeLow id s.dev, setter := .looping mode rest }
  | .loaded id st rest => { s with dev := cmpxchg id .unchanged st s.dev, setter := .looping .control rest }

def step (s : System) : Op → System
  | .control id st => { s with dev := ledsControl id st s.dev }
  | .tick => tickStep activeLow s
  | .setMode mode => if s.setter = .idle ∧ mode ≠ s.dev.mode then { s with setter := .entered mode } else s
  | .setModeStep => setterStep activeLow s

def initial (neufboxMain : Bool) : System := ⟨ledsInit activeLow neufboxMain, none, .idle, fun _ => none⟩

def afterOps (s : System) (ops : List Op) : System := runSteps (step activeLow) s ops

def SetsMode : Op → Prop
  | .setMode _ => True
  | .setModeStep => True
  | _ => False

instance SetsMode.decidable : DecidablePred SetsMode
  | .setMode _ => isTrue trivial
  | .setModeStep => isTrue trivial
  | .control _ _ => isFalse id
  | .tick => isFalse id

/-- The phase of the tick, for the LED. -/
def phaseAt (id : LedId) : Option Tick → Phase
  | some ⟨j :: _, phase, _⟩ => if j = id then phase else .read
  | _ => .read

/-- The state of the LED, or the one that the tick is about to give it. -/
def lastState (s : System) (id : LedId) : LedState :=
  match phaseAt id s.tick with
  | .read => s.dev.state id
  | .clear _ => s.dev.state id
  | .execute st => st
  | .record st => st

def SetterOrderly (s : System) : Setter → Prop
  | .loaded id st _ => s.dev.command id = .unchanged → st = lastState s id
  | .looping mode (id :: _) => mode ≠ .control → s.tick ≠ none → s.executed id ≠ some .blinks
  | _ => True

instance SetterOrderly.decidable (s : System) : DecidablePred (SetterOrderly s)
  | .loaded id st _ => inferInstanceAs (Decidable (s.dev.command id = .unchanged → st = lastState s id))
  | .looping mode (id :: _) =>
      inferInstanceAs (Decidable (mode ≠ .control → s.tick ≠ none → s.executed id ≠ some .blinks))
  | .looping _ [] => isTrue trivial
  | .idle => isTrue trivial
  | .entered _ => isTrue trivial
  | .assigned _ => isTrue trivial

/-- Into an empty register `leds_set_mode` stores no state that was replaced since it was loaded, and no LED that
blinks in a tick is put out by it in that tick. -/
def Orderly (s : System) (op : Op) : Prop := op = .setModeStep → SetterOrderly s s.setter

instance Orderly.decidable (s : System) (op : Op) : Decidable (Orderly s op) :=
  inferInstanceAs (Decidable (op = .setModeStep → SetterOrderly s s.setter))

/-! ## Ticks without interruption -/

/-- The first two steps at a LED. -/
theorem tick_read_clear (dev : LedsDevice) (id : LedId) (rest : List LedId) (blink : Option Bool) (setter : Setter)
    (executed : LedId → Option LedState) :
    step activeLow (step activeLow ⟨dev, some ⟨id :: rest, .read, blink⟩, setter, executed⟩ .tick) .tick =
      ⟨cmpxchg id (dev.command id) .unchanged dev,
        some (if dev.command id = .unchanged then ⟨rest, .read, blink⟩ else ⟨id :: rest, .execute (dev.command id), blink⟩),
        setter, executed⟩ := rfl

/-- A tick that nothing interrupts is the timer's function. -/
theorem tick_rounds (r : LedsDevice × Option Bool) (ids : List LedId) (setter : Setter)
    (executed : LedId → Option LedState) : ∃ n executed', afterOps activeLow ⟨r.1, some ⟨ids, .read, r.2⟩, setter, executed⟩
      (List.replicate n .tick) = ⟨nextCounter (ids.foldl (processLed activeLow) r).1, none, setter, executed'⟩ := by
  induction ids generalizing r executed with
  | nil => exact ⟨1, executed, rfl⟩
  | cons id ids ih =>
    by_cases hc : r.1.command id = .unchanged
    · obtain ⟨n, executed', hrun⟩ := ih (processLed activeLow r id) executed
      refine ⟨n + 2, executed', ?_⟩
      have hround : processLed activeLow r id = (cmpxchg id (r.1.command id) .unchanged r.1, r.2) := by
        rw [processLed]
        exact if_pos hc
      rw [hround] at hrun
      rw [List.foldl_cons, hround, ← hrun]
      show runSteps (step activeLow) (step activeLow (step activeLow _ .tick) .tick) _ = _
      rw [tick_read_clear, if_pos hc]
      rfl
    · obtain ⟨n, executed', hrun⟩ := ih (processLed activeLow r id)
        (Function.update executed id (some (r.1.command id)))
      refine ⟨n + 4, executed', ?_⟩
      have hround : processLed activeLow r id = (recordState id (r.1.command id)
          (execute activeLow id (r.1.command id) r.2 (cmpxchg id (r.1.command id) .unchanged r.1)).1,
          (execute activeLow id (r.1.command id) r.2 (cmpxchg id (r.1.command id) .unchanged r.1)).2) := by
        rw [processLed]
        exact if_neg hc
      rw [hround] at hrun
      rw [List.foldl_cons, hround, ← hrun]
      show runSteps (step activeLow) (step activeLow (step activeLow _ .tick) .tick) _ = _
      rw [tick_read_clear, if_neg hc]
      rfl

theorem tick_uninterrupted (s : System) (h : s.tick = none) : ∃ n executed,
    afterOps activeLow s (List.replicate n .tick) = ⟨ledsTimerFunction activeLow s.dev, none, s.setter, executed⟩ := by
  rcases s with ⟨dev, tick, setter, executed⟩
  obtain rfl : tick = none := h
  by_cases hp : dev.process = .control
  · obtain ⟨n, executed', hrun⟩ := tick_rounds activeLow (dev, none) allLeds setter fun _ => none
    refine ⟨n + 1, executed', ?_⟩
    have hstart : step activeLow ⟨dev, none, setter, executed⟩ .tick =
        ⟨dev, some ⟨allLeds, .read, none⟩, setter, fun _ => none⟩ := if_pos hp
    have htimer : ledsTimerFunction activeLow dev =
        nextCounter (allLeds.foldl (processLed activeLow) (dev, none)).1 := by
      rw [ledsTimerFunction, ledsProcess, hp]
      rfl
    rw [htimer, ← hrun, afterOps, List.replicate_succ, runSteps_cons, hstart]
    rfl
  · exact ⟨1, executed, if_neg hp⟩

/-! ## The command of a LED -/

/-- The LED shows what `on` and `off` say. -/
structure Level (id : LedId) (st : LedState) (v : LedView) : Prop where
  on : st = .on → v.gpio = !activeLow id
  off : st = .off → v.gpio = activeLow id

def OnOff (st : LedState) : Prop := st = .on ∨ st = .off

theorem plain_cases {st : LedState} (h : Plain st) : OnOff st ∧ rearmed st = .unchanged ∨ rearmed st = st := by
  rcases h with rfl | rfl | rfl | rfl
  · exact Or.inl ⟨Or.inl rfl, rfl⟩
  · exact Or.inl ⟨Or.inr rfl, rfl⟩
  · exact Or.inr rfl
  · exact Or.inr rfl

/-- The executed command of a LED stays: a blinking one is in its register again. -/
structure Executed (id : LedId) (st : LedState) (v : LedView) : Prop where
  state : v.state = st
  command : v.command = rearmed st
  level : Level activeLow id st v

/-- The setter will store the executed commands again, `id` among them. -/
def WillRestore (id : LedId) : Setter → Prop
  | .assigned .control => True
  | .looping .control rest => id ∈ rest
  | .loaded j _ rest => id = j ∨ id ∈ rest
  | _ => False

/-- The LED shows what was executed, or another mode does as it likes with the LED, or it is about to be executed
again. -/
def Shown (id : LedId) (st : LedState) (s : System) : Prop :=
  Level activeLow id st (s.dev.view id) ∨ s.dev.process ≠ .control ∨ WillRestore id s.setter

/-- `on` or `off` was executed. -/
structure Consumed (id : LedId) (st : LedState) (s : System) : Prop where
  onOff : OnOff st
  command : s.dev.command id = .unchanged
  state : s.dev.state id = st
  shown : Shown activeLow id st s

/-- The command stored last is in its register, or the tick at hand has it, or it was executed. -/
def Kept (id : LedId) (st : LedState) (s : System) : Prop :=
  s.dev.command id = st ∨
    match phaseAt id s.tick with
    | .read => Consumed activeLow id st s
    | .clear st' => st' = .unchanged ∧ Consumed activeLow id st s
    | .execute st' => st' = st ∧ s.dev.command id = .unchanged
    | .record st' => st' = st ∧ OnOff st ∧ s.dev.command id = .unchanged ∧ Shown activeLow id st s

/-- `leds_set_mode` has set the function already when it goes over the LEDs. -/
def SetterSound (s : System) : Prop :=
  match s.setter with
  | .assigned mode => s.dev.process = mode
  | .looping mode _ => s.dev.process = mode
  | .loaded _ _ _ => s.dev.process = .control
  | _ => True

variable {activeLow}

theorem Shown.of_eq {id : LedId} {st : LedState} {s s' : System} (h : Shown activeLow id st s)
    (hview : s'.dev.view id = s.dev.view id) (hprocess : s'.dev.process = s.dev.process)
    (hsetter : s'.setter = s.setter) : Shown activeLow id st s' := by
  rw [Shown, hview, hprocess, hsetter]
  exact h

theorem Consumed.of_eq {id : LedId} {st : LedState} {s s' : System} (h : Consumed activeLow id st s)
    (hview : s'.dev.view id = s.dev.view id) (hprocess : s'.dev.process = s.dev.process)
    (hsetter : s'.setter = s.setter) : Consumed activeLow id st s' where
  onOff := h.onOff
  command := (congrArg LedView.command hview).trans h.command
  state := (congrArg LedView.state hview).trans h.state
  shown := h.shown.of_eq hview hprocess hsetter

/-- What happens to other LEDs does not matter. -/
theorem Kept.of_eq {id : LedId} {st : LedState} {s s' : System} (h : Kept activeLow id st s)
    (hview : s'.dev.view id = s.dev.view id) (hprocess : s'.dev.process = s.dev.process)
    (hsetter : s'.setter = s.setter) (hphase : phaseAt id s'.tick = phaseAt id s.tick) : Kept activeLow id st s' := by
  have hcommand : s'.dev.command id = s.dev.command id := congrArg LedView.command hview
  rw [Kept, hphase, hcommand]
  rcases h with h | h
  · exact Or.inl h
  · refine Or.inr ?_
    generalize phaseAt id s.tick = phase at h
    cases phase with
    | read => exact h.of_eq hview hprocess hsetter
    | clear st' => exact ⟨h.1, h.2.of_eq hview hprocess hsetter⟩
    | execute st' => exact h
    | record st' => exact ⟨h.1, h.2.1, h.2.2.1, h.2.2.2.of_eq hview hprocess hsetter⟩

/-- A step outside of the tick that leaves the register and the state of the LED alone. -/
theorem Kept.of_shown {id : LedId} {st : LedState} {s s' : System} (h : Kept activeLow id st s)
    (hcommand : s'.dev.command id = s.dev.command id) (hstate : s'.dev.state id = s.dev.state id)
    (htick : s'.tick = s.tick) (hshown : Shown activeLow id st s → Shown activeLow id st s') :
    Kept activeLow id st s' := by
  have hconsumed : Consumed activeLow id st s → Consumed activeLow id st s' :=
    fun hc => ⟨hc.onOff, hcommand.trans hc.command, hstate.trans hc.state, hshown hc.shown⟩
  rw [Kept, htick, hcommand]
  rcases h with h | h
  · exact Or.inl h
  · refine Or.inr ?_
    generalize phaseAt id s.tick = phase at h
    cases phase with
    | read => exact hconsumed h
    | clear st' => exact ⟨h.1, hconsumed h.2⟩
    | execute st' => exact h
    | record st' => exact ⟨h.1, h.2.1, h.2.2.1, hshown h.2.2.2⟩

theorem Kept.command_of_full {id : LedId} {st : LedState} {s : System} (h : Kept activeLow id st s)
    (hfull : s.dev.command id ≠ .unchanged) : s.dev.command id = st := by
  rcases h with h | h
  · exact h
  · generalize phaseAt id s.tick = phase at h
    cases phase with
    | read => exact absurd h.command hfull
    | clear st' => exact absurd h.2.command hfull
    | execute st' => exact absurd h.2 hfull
    | record st' => exact absurd h.2.2.1 hfull

/-- A command that is not in its register is the last state. -/
theorem Kept.lastState {id : LedId} {st : LedState} (hst : Plain st) {s : System} (h : Kept activeLow id st s)
    (hempty : s.dev.command id = .unchanged) : lastState s id = st := by
  rcases h with h | h
  · exact absurd (h.symm.trans hempty) hst.ne_unchanged
  · rw [Leds.lastState]
    generalize phaseAt id s.tick = phase at h
    cases phase with
    | read => exact h.state
    | clear st' => exact h.2.state
    | execute st' => exact h.1
    | record st' => exact h.1

theorem process_of_shared {dev dev' : LedsDevice} (h : dev'.shared = dev.shared) : dev'.process = dev.process :=
  congrArg (fun r => r.2.2) h

theorem phaseAt_self (id : LedId) (rest : List LedId) (phase : Phase) (blink : Option Bool) :
    phaseAt id (some ⟨id :: rest, phase, blink⟩) = phase := if_pos rfl

theorem phaseAt_other {id j : LedId} (h : j ≠ id) (rest : List LedId) (phase : Phase) (blink : Option Bool) :
    phaseAt id (some ⟨j :: rest, phase, blink⟩) = .read := if_neg h

theorem phaseAt_read (id : LedId) (rest : List LedId) (blink : Option Bool) :
    phaseAt id (some ⟨rest, .read, blink⟩) = .read := by
  cases rest with
  | nil => rfl
  | cons j rest => exact ite_self _

theorem Kept.no_tick {id : LedId} {st : LedState} {s : System} (h : Kept activeLow id st s) (htick : s.tick = none) :
    s.dev.command id = st ∨ Consumed activeLow id st s := by
  rw [Kept, htick] at h
  exact h

theorem kept_of_no_tick {id : LedId} {st : LedState} {s : System} (htick : s.tick = none)
    (h : s.dev.command id = st ∨ Consumed activeLow id st s) : Kept activeLow id st s := by
  rw [Kept, htick]
  exact h

/-! ## Steps of a tick -/

theorem Kept.clear {id : LedId} {st st' : LedState} (hst : Plain st) {s : System} {rest : List LedId}
    {blink : Option Bool} (htick : s.tick = some ⟨id :: rest, .clear st', blink⟩) (h : Kept activeLow id st s) :
    Kept activeLow id st (tickStep activeLow s) := by
  have hstep : tickStep activeLow s = { s with
      dev := cmpxchg id st' .unchanged s.dev
      tick := some (if st' = .unchanged then ⟨rest, .read, blink⟩ else ⟨id :: rest, .execute st', blink⟩) } := by
    rw [tickStep, htick]
  have hview := view_cmpxchg_self s.dev id st' .unchanged
  rw [hstep]
  rw [Kept, htick, phaseAt_self] at h
  rcases h with h | ⟨hempty, h⟩
  · by_cases hsame : st' = st
    · refine Or.inr ?_
      have hnot : st' ≠ .unchanged := by
        rw [hsame]
        exact hst.ne_unchanged
      have hcommand : (s.dev.view id).command = st' := h.trans hsame.symm
      rw [if_pos hcommand] at hview
      rw [if_neg hnot, phaseAt_self]
      exact ⟨hsame, congrArg LedView.command hview⟩
    · have hcommand : (s.dev.view id).command ≠ st' := by
        intro heq
        exact hsame (heq.symm.trans h)
      rw [if_neg hcommand] at hview
      exact Or.inl ((congrArg LedView.command hview).trans h)
  · refine Or.inr ?_
    have hcommand : (s.dev.view id).command = st' := h.command.trans hempty.symm
    have hsame : (cmpxchg id st' .unchanged s.dev).view id = s.dev.view id := by
      rw [hview, if_pos hcommand, ← hempty, ← hcommand]
    rw [if_pos hempty, phaseAt_read]
    exact h.of_eq hsame (process_of_shared (shared_cmpxchg _ _ _ _)) rfl

theorem Kept.execute {id : LedId} {st st' : LedState} (hst : Plain st) {s : System} {rest : List LedId}
    {blink : Option Bool} (htick : s.tick = some ⟨id :: rest, .execute st', blink⟩) (h : Kept activeLow id st s) :
    Kept activeLow id st (tickStep activeLow s) := by
  have hstep : tickStep activeLow s = { s with
      dev := (Leds.execute activeLow id st' blink s.dev).1
      tick := some ⟨id :: rest, .record st', (Leds.execute activeLow id st' blink s.dev).2⟩
      executed := Function.update s.executed id (some st') } := by
    rw [tickStep, htick]
  obtain ⟨gpio, hview, hon, hoff, -⟩ := view_execute_self activeLow s.dev id st' blink
  rw [hstep]
  rw [Kept, htick, phaseAt_self] at h
  rcases h with h | ⟨hsame, hempty⟩
  · have hfull : s.dev.command id ≠ .unchanged := by
      rw [h]
      exact hst.ne_unchanged
    rw [if_neg hfull] at hview
    exact Or.inl ((congrArg LedView.command hview).trans h)
  · subst hsame
    rw [if_pos hempty] at hview
    have hcommand := congrArg LedView.command hview
    rcases plain_cases hst with ⟨honoff, hrearm⟩ | hrearm
    · refine Or.inr ?_
      rw [phaseAt_self]
      refine ⟨rfl, honoff, hcommand.trans hrearm, Or.inl ?_⟩
      rw [hview]
      exact ⟨hon, hoff⟩
    · exact Or.inl (hcommand.trans hrearm)

theorem Kept.record {id : LedId} {st st' : LedState} {s : System} {rest : List LedId} {blink : Option Bool}
    (htick : s.tick = some ⟨id :: rest, .record st', blink⟩) (h : Kept activeLow id st s) :
    Kept activeLow id st (tickStep activeLow s) := by
  have hstep : tickStep activeLow s =
      { s with dev := recordState id st' s.dev, tick := some ⟨rest, .read, blink⟩ } := by
    rw [tickStep, htick]
  have hview := view_recordState_self s.dev id st'
  rw [hstep]
  rw [Kept, htick, phaseAt_self] at h
  rcases h with h | ⟨hsame, honoff, hempty, hshown⟩
  · exact Or.inl h
  · refine Or.inr ?_
    rw [phaseAt_read]
    refine ⟨honoff, hempty, (congrArg LedView.state hview).trans hsame, hshown.imp_left fun hlevel => ?_⟩
    rw [hview]
    exact ⟨hlevel.on, hlevel.off⟩

/-- What a step at another LED leaves alone. -/
theorem tickStep_other {id j : LedId} (hj : j ≠ id) {s : System} {rest : List LedId} {phase : Phase}
    {blink : Option Bool} (htick : s.tick = some ⟨j :: rest, phase, blink⟩) :
    (tickStep activeLow s).dev.view id = s.dev.view id ∧ (tickStep activeLow s).dev.shared = s.dev.shared ∧
      (tickStep activeLow s).setter = s.setter ∧ phaseAt id (tickStep activeLow s).tick = .read := by
  have hid : id ≠ j := Ne.symm hj
  rw [tickStep, htick]
  cases phase with
  | read => exact ⟨rfl, rfl, rfl, phaseAt_other hj _ _ _⟩
  | clear st =>
    refine ⟨view_cmpxchg_other _ hid _ _, shared_cmpxchg _ _ _ _, rfl, ?_⟩
    show phaseAt id (some (if st = .unchanged then _ else _)) = _
    split
    · exact phaseAt_read _ _ _
    · exact phaseAt_other hj _ _ _
  | execute st =>
    exact ⟨view_execute_other activeLow s.dev hid _ _, shared_execute activeLow s.dev _ _ _, rfl, phaseAt_other hj _ _ _⟩
  | record st => exact ⟨view_recordState_other s.dev hid _, rfl, rfl, phaseAt_read _ _ _⟩

theorem Kept.tick {id : LedId} {st : LedState} (hst : Plain st) {s : System} (h : Kept activeLow id st s) :
    Kept activeLow id st (tickStep activeLow s) := by
  match htick : s.tick with
  | none =>
    have hread : phaseAt id s.tick = .read := by rw [htick]; rfl
    rw [tickStep, htick]
    by_cases hp : s.dev.process = .control
    · simp only [if_pos hp]
      exact h.of_eq rfl rfl rfl ((phaseAt_read _ _ _).trans hread.symm)
    · -- the patterns of another mode
      simp only [if_neg hp]
      obtain ⟨hcommand, hstate⟩ := ledsTimerFunction_away activeLow hp
      apply kept_of_no_tick rfl
      rcases h.no_tick htick with h | h
      · exact Or.inl ((congrFun hcommand id).trans h)
      · refine Or.inr ⟨h.onOff, (congrFun hcommand id).trans h.command, (congrFun hstate id).trans h.state, Or.inr (Or.inl ?_)⟩
        show (ledsTimerFunction activeLow s.dev).process ≠ _
        rw [(ledsTimerFunction_mode activeLow s.dev).2]
        exact hp
  | some ⟨[], phase, blink⟩ =>
    have hread : phaseAt id s.tick = .read := by rw [htick]; rfl
    rw [tickStep, htick]
    exact h.of_eq rfl rfl rfl hread.symm
  | some ⟨j :: rest, phase, blink⟩ =>
    by_cases hj : j = id
    · subst hj
      cases phase with
      | read =>
        have hread : phaseAt j s.tick = .read := by rw [htick, phaseAt_self]
        rw [tickStep, htick]
        rw [Kept, hread] at h
        rcases h with h | h
        · exact Or.inl h
        · refine Or.inr ?_
          rw [phaseAt_self]
          exact ⟨h.command, h.of_eq rfl rfl rfl⟩
      | clear st' => exact h.clear hst htick
      | execute st' => exact h.execute hst htick
      | record st' => exact h.record htick
    · obtain ⟨hview, hshared, hsetter, hphase⟩ := @tickStep_other activeLow _ _ hj _ _ _ _ htick
      refine h.of_eq hview (process_of_shared hshared) hsetter ?_
      rw [hphase, htick, phaseAt_other hj]

/-! ## Changes of the mode -/

theorem setterSound_step {s : System} (h : SetterSound s) (op : Op) : SetterSound (step activeLow s op) := by
  cases op with
  | control id st => exact h
  | tick =>
    have hshared : (tickStep activeLow s).dev.process = s.dev.process ∧ (tickStep activeLow s).setter = s.setter := by
      rw [tickStep]
      split
      · split
        · exact ⟨rfl, rfl⟩
        · exact ⟨(ledsTimerFunction_mode activeLow s.dev).2, rfl⟩
      · exact ⟨rfl, rfl⟩
      · exact ⟨rfl, rfl⟩
      · exact ⟨process_of_shared (shared_cmpxchg _ _ _ _), rfl⟩
      · exact ⟨process_of_shared (shared_execute activeLow s.dev _ _ _), rfl⟩
      · exact ⟨rfl, rfl⟩
    show SetterSound (tickStep activeLow s)
    rw [SetterSound, hshared.1, hshared.2]
    exact h
  | setMode mode =>
    show SetterSound (if s.setter = .idle ∧ mode ≠ s.dev.mode then { s with setter := .entered mode } else s)
    split
    · trivial
    · exact h
  | setModeStep =>
    show SetterSound (setterStep activeLow s)
    rw [SetterSound] at h
    rw [setterStep]
    split
    · exact h
    · exact rfl
    · rename_i mode hs
      rw [hs] at h
      exact h
    · trivial
    · rename_i mode id rest hs
      rw [hs] at h
      split
      · rename_i hmode
        subst hmode
        exact h
      · exact h
    · rename_i id st rest hs
      rw [hs] at h
      exact (process_of_shared (shared_cmpxchg s.dev id _ _)).trans h

theorem Kept.setterStep {id : LedId} {st : LedState} (hst : Plain st) {s : System} (hsound : SetterSound s)
    (horderly : Orderly s .setModeStep) (h : Kept activeLow id st s) :
    Kept activeLow id st (setterStep activeLow s) := by
  have hloaded := horderly rfl
  rw [SetterSound] at hsound
  rw [Leds.setterStep]
  match hs : s.setter with
  | .idle => exact h
  | .entered mode =>
    refine h.of_shown rfl rfl rfl fun _ => Or.inr ?_
    by_cases hmode : mode = .control
    · subst hmode
      exact Or.inr trivial
    · exact Or.inl hmode
  | .assigned mode =>
    refine h.of_shown rfl rfl rfl fun hshown => ?_
    rw [Shown, hs] at hshown
    refine hshown.imp_right fun hother => hother.imp_right fun hwill => ?_
    cases mode with
    | control => exact mem_allLeds id
    | _ => exact hwill.elim
  | .looping mode [] =>
    refine h.of_shown rfl rfl rfl fun hshown => ?_
    rw [Shown, hs] at hshown
    refine hshown.imp_right fun hother => hother.imp_right fun hwill => ?_
    cases mode with
    | control => exact absurd hwill List.not_mem_nil
    | _ => exact hwill.elim
  | .looping mode (j :: rest) =>
    rw [hs] at hsound
    by_cases hmode : mode = .control
    · subst hmode
      refine h.of_shown rfl rfl rfl fun hshown => ?_
      rw [Shown, hs] at hshown
      exact hshown.imp_right fun hother => hother.imp_right fun hwill => List.mem_cons.mp hwill
    · simp only [if_neg hmode]
      refine h.of_shown rfl rfl rfl fun _ => Or.inr (Or.inl ?_)
      exact fun hcontrol => hmode (hsound.symm.trans hcontrol)
  | .loaded j st' rest =>
    rw [hs] at hloaded
    by_cases hj : j = id
    · -- an executed command is stored again
      subst hj
      refine Or.inl ((congrArg LedView.command (view_cmpxchg_self s.dev j _ _)).trans ?_)
      by_cases hempty : s.dev.command j = .unchanged
      · have hview : (s.dev.view j).command = .unchanged := hempty
        rw [if_pos hview]
        exact (hloaded hempty).trans (h.lastState hst hempty)
      · have hview : ¬ (s.dev.view j).command = .unchanged := hempty
        rw [if_neg hview]
        exact h.command_of_full hempty
    · have hview := view_cmpxchg_other s.dev (Ne.symm hj) .unchanged st'
      refine h.of_shown (congrArg LedView.command hview) (congrArg LedView.state hview) rfl fun hshown => ?_
      rw [Shown, hs] at hshown
      show Level activeLow id st ((cmpxchg j .unchanged st' s.dev).view id) ∨
        (cmpxchg j .unchanged st' s.dev).process ≠ _ ∨ _
      rw [hview, process_of_shared (shared_cmpxchg s.dev j _ _)]
      refine hshown.imp_right fun hother => hother.imp_right fun hwill => ?_
      exact hwill.resolve_left (Ne.symm hj)

/-- Other users do not touch the LED. -/
def Spares (id : LedId) : Op → Prop
  | .control j _ => j ≠ id
  | _ => True

instance Spares.decidable (id : LedId) : DecidablePred (Spares id)
  | .control j _ => inferInstanceAs (Decidable (j ≠ id))
  | .tick => isTrue trivial
  | .setMode _ => isTrue trivial
  | .setModeStep => isTrue trivial

theorem Kept.step {id : LedId} {st : LedState} (hst : Plain st) {s : System} (hsound : SetterSound s)
    (h : Kept activeLow id st s) {op : Op} (hspares : Spares id op) (horderly : Orderly s op) :
    Kept activeLow id st (step activeLow s op) := by
  cases op with
  | control j st' => exact h.of_eq (view_setCommand_other s.dev (Ne.symm hspares) st') rfl rfl rfl
  | tick => exact h.tick hst
  | setMode mode =>
    show Kept activeLow id st (if s.setter = .idle ∧ mode ≠ s.dev.mode then { s with setter := .entered mode } else s)
    split
    · rename_i hidle
      refine h.of_shown rfl rfl rfl fun hshown => ?_
      rw [Shown, hidle.1] at hshown
      exact hshown
    · exact h
  | setModeStep => exact h.setterStep hst hsound horderly

theorem setterSound_run (neufboxMain : Bool) (ops : List Op) :
    SetterSound (afterOps activeLow (initial activeLow neufboxMain) ops) :=
  run_preserves SetterSound ops (fun _ op h => setterSound_step h op) trivial

/-- From the store on. -/
theorem kept_after_store {id : LedId} {st : LedState} (hst : Plain st) {s : System} (hsound : SetterSound s)
    {mid : List Op} (hspares : ∀ op ∈ mid, Spares id op)
    (horderly : Along (step activeLow) Orderly (step activeLow s (.control id st)) mid) :
    Kept activeLow id st (afterOps activeLow s (.control id st :: mid)) := by
  have hstore : Kept activeLow id st (Leds.step activeLow s (.control id st)) :=
    Or.inl (congrArg LedView.command (view_setCommand_self s.dev id st))
  have hboth := @setterSound_step activeLow s hsound (.control id st)
  show Kept activeLow id st (runSteps (Leds.step activeLow) (Leds.step activeLow s (.control id st)) mid)
  generalize Leds.step activeLow s (.control id st) = s' at hstore hboth horderly
  induction mid generalizing s' with
  | nil => exact hstore
  | cons op mid ih =>
    obtain ⟨hop, hmid⟩ := List.forall_mem_cons.mp hspares
    exact ih hmid _ (hstore.step hst hboth hop horderly.1) (setterSound_step hboth op) horderly.2

/-! ## A tick without a change of the mode -/

/-- What the tick at hand still has to do with the LED. -/
def Due (activeLow : LedId → Bool) (id : LedId) (st : LedState) (t : Tick) (v : LedView) : Prop :=
  if id ∈ t.rest then
    match phaseAt id (some t) with
    | .read => v.command = st ∨ Executed activeLow id st v
    | .clear st' => st' = st ∧ v.command = st ∨ st' = .unchanged ∧ Executed activeLow id st v
    | .execute st' => st' = st ∧ v.command = .unchanged
    | .record st' => st' = st ∧ v.command = rearmed st ∧ Level activeLow id st v
  else Executed activeLow id st v

def Ticking (activeLow : LedId → Bool) (id : LedId) (st : LedState) (s : System) : Prop :=
  match s.tick with
  | none => Executed activeLow id st (s.dev.view id)
  | some t => t.rest.Nodup ∧ Due activeLow id st t (s.dev.view id)

theorem due_self {id : LedId} {st : LedState} {rest : List LedId} {phase : Phase} {blink : Option Bool} {v : LedView} :
    Due activeLow id st ⟨id :: rest, phase, blink⟩ v ↔
      match phase with
      | .read => v.command = st ∨ Executed activeLow id st v
      | .clear st' => st' = st ∧ v.command = st ∨ st' = .unchanged ∧ Executed activeLow id st v
      | .execute st' => st' = st ∧ v.command = .unchanged
      | .record st' => st' = st ∧ v.command = rearmed st ∧ Level activeLow id st v := by
  rw [Due, if_pos List.mem_cons_self, phaseAt_self]

theorem due_done {id : LedId} {st : LedState} {rest : List LedId} {blink : Option Bool} {v : LedView}
    (hid : id ∉ rest) : Due activeLow id st ⟨rest, .read, blink⟩ v ↔ Executed activeLow id st v := by
  rw [Due, if_neg hid]

theorem due_other {id j : LedId} (hj : j ≠ id) {st : LedState} {rest : List LedId} {phase : Phase}
    {blink blink' : Option Bool} {v : LedView} :
    Due activeLow id st ⟨j :: rest, phase, blink⟩ v ↔ Due activeLow id st ⟨rest, .read, blink'⟩ v := by
  have hmem : id ∈ j :: rest ↔ id ∈ rest := by
    rw [List.mem_cons]
    exact or_iff_right (Ne.symm hj)
  rw [Due, Due, phaseAt_other hj, phaseAt_read]
  simp only [hmem]

/-- The steps of the tick at the LED. -/
theorem ticking_self {id : LedId} {st : LedState} (hst : Plain st) {s : System} {rest : List LedId} {phase : Phase}
    {blink : Option Bool} (htick : s.tick = some ⟨id :: rest, phase, blink⟩) (hid : id ∉ rest) (hnodup : rest.Nodup)
    (h : Due activeLow id st ⟨id :: rest, phase, blink⟩ (s.dev.view id)) :
    Ticking activeLow id st (tickStep activeLow s) := by
  have hall : (id :: rest).Nodup := List.nodup_cons.mpr ⟨hid, hnodup⟩
  rw [due_self] at h
  rw [tickStep, htick]
  cases phase with
  | read =>
    refine ⟨hall, due_self.mpr ?_⟩
    rcases h with h | h
    · exact Or.inl ⟨h, h⟩
    · rcases plain_cases hst with ⟨-, hrearm⟩ | hrearm
      · exact Or.inr ⟨h.command.trans hrearm, h⟩
      · exact Or.inl ⟨h.command.trans hrearm, h.command.trans hrearm⟩
  | clear st' =>
    have hview := view_cmpxchg_self s.dev id st' .unchanged
    rcases h with ⟨rfl, hcommand⟩ | ⟨hempty, hexecuted⟩
    · show List.Nodup (if st' = .unchanged then Tick.mk rest .read blink else _).rest ∧
        Due activeLow id st' (if st' = .unchanged then _ else _) _
      rw [if_pos hcommand] at hview
      rw [if_neg hst.ne_unchanged]
      exact ⟨hall, due_self.mpr ⟨rfl, congrArg LedView.command hview⟩⟩
    · show List.Nodup (if st' = .unchanged then Tick.mk rest .read blink else _).rest ∧
        Due activeLow id st (if st' = .unchanged then _ else _) ((cmpxchg id st' .unchanged s.dev).view id)
      have hsame : (cmpxchg id st' .unchanged s.dev).view id = s.dev.view id := by
        rw [hview, hempty]
        split
        · rename_i hc
          rw [← hc]
        · rfl
      rw [if_pos hempty, hsame]
      exact ⟨hnodup, (due_done hid).mpr hexecuted⟩
  | execute st' =>
    obtain ⟨rfl, hempty⟩ := h
    obtain ⟨gpio, hview, hon, hoff, -⟩ := view_execute_self activeLow s.dev id st' blink
    refine ⟨hall, due_self.mpr ?_⟩
    have hcommand : s.dev.command id = .unchanged := hempty
    rw [if_pos hcommand] at hview
    show st' = st' ∧ ((execute activeLow id st' blink s.dev).1.view id).command = _ ∧
      Level activeLow id st' ((execute activeLow id st' blink s.dev).1.view id)
    rw [hview]
    exact ⟨rfl, rfl, hon, hoff⟩
  | record st' =>
    obtain ⟨rfl, hcommand, hlevel⟩ := h
    refine ⟨hnodup, (due_done hid).mpr ?_⟩
    show Executed activeLow id st' ((recordState id st' s.dev).view id)
    rw [view_recordState_self]
    exact ⟨rfl, hcommand, hlevel.on, hlevel.off⟩

theorem tickStep_other_tick {id j : LedId} {st : LedState} (hj : j ≠ id) {s : System} {rest : List LedId}
    {phase : Phase} {blink : Option Bool} {v : LedView} (htick : s.tick = some ⟨j :: rest, phase, blink⟩)
    (hnodup : (j :: rest).Nodup) (h : Due activeLow id st ⟨j :: rest, phase, blink⟩ v) :
    ∃ t, (tickStep activeLow s).tick = some t ∧ t.rest.Nodup ∧ Due activeLow id st t v := by
  have hrest : rest.Nodup := (List.nodup_cons.mp hnodup).2
  have hnext : ∀ blink', Due activeLow id st ⟨rest, .read, blink'⟩ v := fun _ => (due_other hj).mp h
  have hhere : ∀ phase' blink', Due activeLow id st ⟨j :: rest, phase', blink'⟩ v :=
    fun _ blink' => (due_other hj).mpr (hnext blink')
  rw [tickStep, htick]
  cases phase with
  | read => exact ⟨_, rfl, hnodup, hhere _ _⟩
  | clear st' =>
    refine ⟨_, rfl, ?_⟩
    split
    · exact ⟨hrest, hnext _⟩
    · exact ⟨hnodup, hhere _ _⟩
  | execute st' => exact ⟨_, rfl, hnodup, hhere _ _⟩
  | record st' => exact ⟨_, rfl, hrest, hnext _⟩

theorem Ticking.step {id : LedId} {st : LedState} (hst : Plain st) {s : System} (h : Ticking activeLow id st s)
    {op : Op} (htick : s.tick ≠ none) (hop : ¬SetsMode op) (hspares : Spares id op) :
    Ticking activeLow id st (step activeLow s op) := by
  cases op with
  | control j st' =>
    have hview : (ledsControl j st' s.dev).view id = s.dev.view id := view_setCommand_other s.dev (Ne.symm hspares) st'
    show match s.tick with | none => _ | some _ => _
    rw [Ticking] at h
    rw [← hview] at h
    exact h
  | setMode mode => exact absurd trivial hop
  | setModeStep => exact absurd trivial hop
  | tick =>
    rw [Ticking] at h
    match ht : s.tick with
    | none => exact absurd ht htick
    | some ⟨[], phase, blink⟩ =>
      rw [ht] at h
      have hdone := h.2
      rw [Due, if_neg List.not_mem_nil] at hdone
      show Ticking activeLow id st (tickStep activeLow s)
      rw [tickStep, ht]
      exact hdone
    | some ⟨j :: rest, phase, blink⟩ =>
      rw [ht] at h
      by_cases hj : j = id
      · subst hj
        obtain ⟨hnot, hrest⟩ := List.nodup_cons.mp h.1
        exact ticking_self hst ht hnot hrest h.2
      · obtain ⟨hview, -⟩ := @tickStep_other activeLow _ _ hj _ _ _ _ ht
        obtain ⟨t, ht', hnodup, hdue⟩ := tickStep_other_tick hj ht h.1 h.2
        show Ticking activeLow id st (tickStep activeLow s)
        rw [Ticking, ht', hview]
        exact ⟨hnodup, hdue⟩

/-- A whole tick in control mode, with no call of `leds_set_mode` under way; users may store commands inside it. -/
structure CleanTick (activeLow : LedId → Bool) (s : System) (ops : List Op) : Prop where
  before : s.tick = none
  control : s.dev.process = .control
  idle : s.setter = .idle
  steps : Along (step activeLow) (fun s op => s.tick ≠ none ∧ ¬SetsMode op) (step activeLow s .tick) ops
  finished : (afterOps activeLow s (.tick :: ops)).tick = none

theorem CleanTick.executed {id : LedId} {st : LedState} (hst : Plain st) {s : System} (h : Kept activeLow id st s)
    {ops : List Op} (hclean : CleanTick activeLow s ops) (hspares : ∀ op ∈ ops, Spares id op) :
    Executed activeLow id st ((afterOps activeLow s (.tick :: ops)).dev.view id) := by
  have hstart : step activeLow s .tick =
      { s with tick := some ⟨allLeds, .read, none⟩, executed := fun _ => none } := by
    show tickStep activeLow s = _
    rw [tickStep, hclean.before]
    exact if_pos hclean.control
  have hfirst : Ticking activeLow id st (step activeLow s .tick) := by
    rw [hstart]
    refine ⟨allLeds_nodup, ?_⟩
    rw [Due, if_pos (mem_allLeds id), phaseAt_read]
    rcases h.no_tick hclean.before with hc | hc
    · exact Or.inl hc
    · refine Or.inr ⟨hc.state, ?_, ?_⟩
      · rcases hc.onOff with rfl | rfl <;> exact hc.command
      · rcases hc.shown with hlevel | hprocess | hwill
        · exact hlevel
        · exact absurd hclean.control hprocess
        · rw [hclean.idle] at hwill
          exact hwill.elim
  have hfinished := hclean.finished
  have hrun : Ticking activeLow id st (afterOps activeLow s (.tick :: ops)) := by
    have hsteps := hclean.steps
    show Ticking activeLow id st (runSteps (step activeLow) (step activeLow s .tick) ops)
    clear hclean hfinished hstart
    generalize step activeLow s .tick = s' at hfirst hsteps
    induction ops generalizing s' with
    | nil => exact hfirst
    | cons op ops ih =>
      obtain ⟨hop, hrest⟩ := List.forall_mem_cons.mp hspares
      exact ih hrest _ (hfirst.step hst hsteps.1.1 hsteps.1.2 hop) hsteps.2
  rw [Ticking, hfinished] at hrun
  exact hrun

/-! ## Blinking together -/

/-- The tick will not execute a command for the LED any more. -/
def Passed (id : LedId) (t : Tick) : Prop := id ∈ t.rest → ∃ st, phaseAt id (some t) = .record st

/-- The LEDs that blink in the tick at hand are alike. -/
def Synced (activeLow : LedId → Bool) (s : System) : Prop :=
  ∀ t, s.tick = some t → t.rest.Nodup ∧ ∀ id, s.executed id ≠ none →
    Passed id t ∧ (s.executed id = some .blinks → t.blink = some (!lit activeLow s.dev id))

theorem passed_of_not_mem {id : LedId} {t : Tick} (h : id ∉ t.rest) : Passed id t := fun hmem => absurd hmem h

theorem Passed.not_mem_tail {id j : LedId} {rest : List LedId} {phase : Phase} {blink : Option Bool}
    (h : Passed id ⟨j :: rest, phase, blink⟩) (hnodup : (j :: rest).Nodup) : id ∉ rest := by
  intro hmem
  have hne : j ≠ id := by
    rintro rfl
    exact (List.nodup_cons.mp hnodup).1 hmem
  obtain ⟨st, hst⟩ := h (List.mem_cons_of_mem _ hmem)
  rw [phaseAt_other hne] at hst
  cases hst

theorem Passed.not_mem {id j : LedId} {rest : List LedId} {phase : Phase} {blink : Option Bool}
    (h : Passed id ⟨j :: rest, phase, blink⟩) (hphase : ∀ st, phase ≠ .record st) : id ∉ j :: rest := by
  intro hmem
  obtain ⟨st, hst⟩ := h hmem
  by_cases hj : j = id
  · subst hj
    rw [phaseAt_self] at hst
    exact hphase st hst
  · rw [phaseAt_other hj] at hst
    cases hst

theorem execute_blink (id : LedId) (st : LedState) (blink : Option Bool) (dev : LedsDevice) :
    (st ≠ .blinks → (execute activeLow id st blink dev).2 = blink) ∧
      (∀ b, blink = some b → (execute activeLow id st blink dev).2 = some b) ∧
      (st = .blinks → (execute activeLow id st blink dev).2 =
        some (!lit activeLow (execute activeLow id st blink dev).1 id)) := by
  have hgpio : ∀ (d : LedsDevice), (cmpxchg id .unchanged .blinks d).gpio id = d.gpio id := by
    intro d
    exact congrArg LedView.gpio (view_cmpxchg_self d id _ _)
  cases st with
  | blinks =>
    refine ⟨fun h => absurd rfl h, ?_, fun _ => ?_⟩
    · rintro b rfl
      cases b <;> rfl
    · have hset : ∀ v, (setGpio id v dev).gpio id = v := fun v => congrArg LedView.gpio (view_setGpio_self dev id v)
      rw [lit]
      cases blink with
      | none =>
        show some (if activeLow id then !dev.gpio id else !!dev.gpio id) =
          some (!((cmpxchg id .unchanged .blinks (ledToggle activeLow id dev).1).gpio id != activeLow id))
        rw [hgpio, ledToggle, hset]
        cases activeLow id <;> cases dev.gpio id <;> rfl
      | some dark =>
        cases dark with
        | true =>
          show some true = some (!((cmpxchg id .unchanged .blinks (ledOff activeLow id dev)).gpio id != activeLow id))
          rw [hgpio, ledOff, hset]
          cases activeLow id <;> rfl
        | false =>
          show some false = some (!((cmpxchg id .unchanged .blinks (ledOn activeLow id dev)).gpio id != activeLow id))
          rw [hgpio, ledOn, hset]
          cases activeLow id <;> rfl
  | _ => exact ⟨fun _ => rfl, fun _ h => h, fun h => LedState.noConfusion h⟩

theorem synced_of_none {s : System} (h : s.tick = none) : Synced activeLow s := by
  intro t ht
  rw [h] at ht
  cases ht

theorem Synced.tick {s : System} (h : Synced activeLow s) : Synced activeLow (tickStep activeLow s) := by
  match htick : s.tick with
  | none =>
    rw [tickStep, htick]
    by_cases hp : s.dev.process = .control
    · simp only [if_pos hp]
      intro t ht
      obtain rfl := Option.some.inj ht
      exact ⟨allLeds_nodup, fun id hid => absurd rfl hid⟩
    · simp only [if_neg hp]
      exact synced_of_none rfl
  | some ⟨[], phase, blink⟩ =>
    rw [tickStep, htick]
    exact synced_of_none rfl
  | some ⟨j :: rest, phase, blink⟩ =>
    obtain ⟨hnodup, hall⟩ := h _ htick
    have hrest : rest.Nodup := (List.nodup_cons.mp hnodup).2
    rw [tickStep, htick]
    cases phase with
    | read =>
      intro t ht
      obtain rfl := Option.some.inj ht
      refine ⟨hnodup, fun id hid => ⟨passed_of_not_mem ?_, (hall id hid).2⟩⟩
      exact (hall id hid).1.not_mem fun st => Phase.noConfusion
    | clear st =>
      intro t ht
      obtain rfl := Option.some.inj ht
      have hlit : ∀ id, lit activeLow (cmpxchg j st .unchanged s.dev) id = lit activeLow s.dev id := by
        intro id
        rw [lit, cmpxchg]
        split <;> rfl
      have hmem : ∀ id, s.executed id ≠ none → id ∉ j :: rest :=
        fun id hid => (hall id hid).1.not_mem fun st => Phase.noConfusion
      split
      · refine ⟨hrest, fun id hid => ⟨passed_of_not_mem ?_, ?_⟩⟩
        · exact fun h => hmem id hid (List.mem_cons_of_mem _ h)
        · rw [hlit]
          exact (hall id hid).2
      · refine ⟨hnodup, fun id hid => ⟨passed_of_not_mem (hmem id hid), ?_⟩⟩
        rw [hlit]
        exact (hall id hid).2
    | execute st =>
      intro t ht
      obtain rfl := Option.some.inj ht
      obtain ⟨-, hkept, hblinks⟩ := @execute_blink activeLow j st blink s.dev
      refine ⟨hnodup, fun id hid => ?_⟩
      simp only at hid ⊢
      by_cases hj : id = j
      · subst hj
        refine ⟨fun _ => ⟨st, phaseAt_self _ _ _ _⟩, fun hexecuted => hblinks ?_⟩
        rw [Function.update_self] at hexecuted
        exact Option.some.inj hexecuted
      · rw [Function.update_of_ne hj] at hid ⊢
        have hlit : lit activeLow (execute activeLow j st blink s.dev).1 id = lit activeLow s.dev id :=
          congrArg (fun v : LedView => v.gpio != activeLow id) (view_execute_other activeLow s.dev hj st blink)
        refine ⟨passed_of_not_mem ?_, fun hexecuted => ?_⟩
        · exact (hall id hid).1.not_mem fun st => Phase.noConfusion
        · rw [hlit]
          exact hkept _ ((hall id hid).2 hexecuted)
    | record st =>
      intro t ht
      obtain rfl := Option.some.inj ht
      refine ⟨hrest, fun id hid => ⟨passed_of_not_mem ?_, (hall id hid).2⟩⟩
      exact (hall id hid).1.not_mem_tail hnodup

/-- A step outside of the tick that leaves the LEDs that blinked as they are. -/
theorem Synced.of_lit {s s' : System} (h : Synced activeLow s) (htick : s'.tick = s.tick)
    (hexecuted : s'.executed = s.executed)
    (hlit : s.tick ≠ none → ∀ id, s.executed id = some .blinks → lit activeLow s'.dev id = lit activeLow s.dev id) :
    Synced activeLow s' := by
  intro t ht
  rw [htick] at ht
  obtain ⟨hnodup, hall⟩ := h t ht
  have hsome : s.tick ≠ none := by
    rw [ht]
    exact Option.some_ne_none t
  refine ⟨hnodup, fun id hid => ?_⟩
  rw [hexecuted] at hid ⊢
  exact ⟨(hall id hid).1, fun hblinks => by rw [hlit hsome id hblinks]; exact (hall id hid).2 hblinks⟩

theorem Synced.setterStep {s : System} (h : Synced activeLow s) (horderly : Orderly s .setModeStep) :
    Synced activeLow (setterStep activeLow s) := by
  have hput := horderly rfl
  rw [Leds.setterStep]
  match hs : s.setter with
  | .idle => exact h
  | .entered mode => exact h.of_lit rfl rfl fun _ _ _ => rfl
  | .assigned mode => exact h.of_lit rfl rfl fun _ _ _ => rfl
  | .looping mode [] => exact h.of_lit rfl rfl fun _ _ _ => rfl
  | .looping mode (j :: rest) =>
    rw [hs] at hput
    by_cases hmode : mode = .control
    · simp only [if_pos hmode]
      exact h.of_lit rfl rfl fun _ _ _ => rfl
    · simp only [if_neg hmode]
      refine h.of_lit rfl rfl fun htick id hid => ?_
      have hj : id ≠ j := by
        rintro rfl
        exact hput hmode htick hid
      exact congrArg (fun v : LedView => v.gpio != activeLow id) (view_setGpio_other s.dev hj _)
  | .loaded j st rest =>
    refine h.of_lit rfl rfl fun _ id _ => ?_
    show lit activeLow (cmpxchg j .unchanged st s.dev) id = _
    rw [lit, cmpxchg]
    split <;> rfl

theorem Synced.step {s : System} (h : Synced activeLow s) {op : Op} (horderly : Orderly s op) :
    Synced activeLow (step activeLow s op) := by
  cases op with
  | control id st => exact h
  | tick => exact h.tick
  | setMode mode =>
    show Synced activeLow (if s.setter = .idle ∧ mode ≠ s.dev.mode then { s with setter := .entered mode } else s)
    split
    · exact h.of_lit rfl rfl fun _ _ _ => rfl
    · exact h
  | setModeStep => exact h.setterStep horderly

/-! ## No command is lost -/

/-- What is left of a command after its tick. -/
structure CommandKept (activeLow : LedId → Bool) (dev : LedsDevice) (id : LedId) (st : LedState) : Prop where
  state : dev.state id = st
  on : st = .on → lit activeLow dev id = true ∧ dev.command id = .unchanged
  off : st = .off → lit activeLow dev id = false ∧ dev.command id = .unchanged
  blinking : st = .slowblinks ∨ st = .blinks → dev.command id = st

theorem Executed.commandKept {id : LedId} {st : LedState} {dev : LedsDevice}
    (h : Executed activeLow id st (dev.view id)) : CommandKept activeLow dev id st := by
  have hlit : ∀ a : Bool, ((!a) != a) = true ∧ (a != a) = false := by decide
  refine ⟨h.state, ?_, ?_, ?_⟩
  · rintro rfl
    have hgpio : dev.gpio id = !activeLow id := h.level.on rfl
    rw [lit, hgpio, (hlit _).1]
    exact ⟨rfl, h.command⟩
  · rintro rfl
    have hgpio : dev.gpio id = activeLow id := h.level.off rfl
    rw [lit, hgpio, (hlit _).2]
    exact ⟨rfl, h.command⟩
  · rintro (rfl | rfl)
    · exact h.command
    · exact h.command

theorem Synced.alike {s : System} (h : Synced activeLow s) (htick : s.tick ≠ none) {id id' : LedId}
    (hid : s.executed id = some .blinks) (hid' : s.executed id' = some .blinks) :
    lit activeLow s.dev id = lit activeLow s.dev id' := by
  obtain ⟨t, ht⟩ := Option.ne_none_iff_exists'.mp htick
  have hblinks : ∀ j, s.executed j = some .blinks → t.blink = some (!lit activeLow s.dev j) := by
    intro j hj
    have hsome : s.executed j ≠ none := by
      rw [hj]
      exact Option.some_ne_none _
    exact ((h t ht).2 j hsome).2 hj
  have heq := (hblinks id hid).symm.trans (hblinks id' hid')
  exact Bool.not_inj (Option.some.inj heq)

theorem tickStep_finish {s : System} (htick : s.tick ≠ none) (hdone : (tickStep activeLow s).tick = none) :
    tickStep activeLow s = { s with dev := nextCounter s.dev, tick := none } := by
  rw [tickStep] at hdone ⊢
  split at hdone
  · contradiction
  · rfl
  all_goals cases hdone

/-- In every run whose steps are orderly no command is lost, and LEDs blink together. -/
theorem no_command_lost (neufboxMain : Bool) {ops : List Op}
    (horderly : Along (step activeLow) Orderly (initial activeLow neufboxMain) ops) :
    (∀ (pre mid tick : List Op) (id : LedId) (st : LedState), ops = pre ++ .control id st :: (mid ++ .tick :: tick) →
      Plain st → (∀ op ∈ mid, Spares id op) → (∀ op ∈ tick, Spares id op) →
      CleanTick activeLow (afterOps activeLow (initial activeLow neufboxMain) (pre ++ .control id st :: mid)) tick →
      CommandKept activeLow (afterOps activeLow (initial activeLow neufboxMain) ops).dev id st) ∧
    (∀ pre : List Op, ops = pre ++ [.tick] →
      (afterOps activeLow (initial activeLow neufboxMain) pre).tick ≠ none →
      (afterOps activeLow (initial activeLow neufboxMain) ops).tick = none →
      ∀ id id', (afterOps activeLow (initial activeLow neufboxMain) ops).executed id = some .blinks →
        (afterOps activeLow (initial activeLow neufboxMain) ops).executed id' = some .blinks →
        lit activeLow (afterOps activeLow (initial activeLow neufboxMain) ops).dev id =
          lit activeLow (afterOps activeLow (initial activeLow neufboxMain) ops).dev id') := by
  constructor
  · intro pre mid tick id st hops hst hmid htick hclean
    rw [hops, along_append, along_cons, along_append] at horderly
    have hkept := kept_after_store hst (setterSound_run neufboxMain pre) hmid horderly.2.2.1
    have hstore : afterOps activeLow (initial activeLow neufboxMain) (pre ++ .control id st :: mid) =
        afterOps activeLow (afterOps activeLow (initial activeLow neufboxMain) pre) (.control id st :: mid) :=
      runSteps_append _ _ _ _
    have hall : afterOps activeLow (initial activeLow neufboxMain) ops = afterOps activeLow
        (afterOps activeLow (initial activeLow neufboxMain) (pre ++ .control id st :: mid)) (.tick :: tick) := by
      have hlist : ops = (pre ++ .control id st :: mid) ++ .tick :: tick := by
        rw [hops, List.append_assoc, List.cons_append]
      rw [hlist]
      exact runSteps_append _ _ _ _
    rw [← hstore] at hkept
    rw [hall]
    exact (hclean.executed hst hkept htick).commandKept
  · intro pre hops htick hdone id id'
    have hsynced : Synced activeLow (afterOps activeLow (initial activeLow neufboxMain) pre) := by
      rw [hops, along_append] at horderly
      exact Along.preserves (fun s op h hop => h.step hop) (synced_of_none rfl) horderly.1
    have hlast : afterOps activeLow (initial activeLow neufboxMain) ops =
        tickStep activeLow (afterOps activeLow (initial activeLow neufboxMain) pre) := by
      rw [hops]
      exact runSteps_append _ _ _ _
    rw [hlast] at hdone ⊢
    rw [tickStep_finish htick hdone]
    exact hsynced.alike htick

/-! ## A tick inside a change of the mode -/

/-- A tick with a pending command for every LED. -/
def fullTick : List Op := List.replicate 38 .tick

def setPanic : List Op := .setMode .panic :: List.replicate 12 .setModeStep

/-- `leds_set_mode` up to the point where it has loaded the state of the first LED, and the rest of it. -/
def setControlLoads : List Op := .setMode .control :: List.replicate 3 .setModeStep

def setControlStores : List Op := List.replicate 18 .setModeStep

theorem command_kept_over_modes : CommandKept allLow
    (afterOps allLow (initial allLow true)
      ((fullTick ++ setPanic) ++ .control .wan .on :: ((setControlLoads ++ setControlStores) ++ fullTick))).dev .wan .on := by
  have hclean : CleanTick allLow
      (afterOps allLow (initial allLow true)
        ((fullTick ++ setPanic) ++ .control .wan .on :: (setControlLoads ++ setControlStores)))
      (List.replicate 37 .tick) :=
    ⟨by decide +kernel, by decide +kernel, by decide +kernel, by decide +kernel, by decide +kernel⟩
  exact (no_command_lost true (by decide +kernel)).1 (fullTick ++ setPanic) (setControlLoads ++ setControlStores)
    (List.replicate 37 .tick) .wan .on rfl (Or.inl rfl) (by decide) (by decide) hclean

/-- Behind `before` the first LED is switched on, `after` follows without another command for it, and then the next
clean tick switches it off; `leds_set_mode` takes no step inside a tick. -/
structure Lost (before after : List Op) : Prop where
  spares : ∀ op ∈ after, Spares .wan op
  whole : Along (step allLow) (fun s op => SetsMode op → s.tick = none) (initial allLow true)
    (before ++ .control .wan .on :: after)
  clean : CleanTick allLow (afterOps allLow (initial allLow true) (before ++ .control .wan .on :: after))
    (List.replicate 37 .tick)
  state : (afterOps allLow (initial allLow true) (before ++ .control .wan .on :: (after ++ fullTick))).dev.state .wan = .off

/-- The tick behind the load executes the command: one that comes inside of that tick, or one that was there before the
mode was set. -/
theorem command_lost_behind_load :
    Lost (fullTick ++ setPanic ++ setControlLoads ++ [.tick]) (List.replicate 21 .tick ++ setControlStores) ∧
      Lost (fullTick ++ setPanic) (setControlLoads ++ List.replicate 22 .tick ++ setControlStores) := by
  constructor
  · exact ⟨by decide, by decide +kernel, ⟨by decide +kernel, by decide +kernel, by decide +kernel, by decide +kernel,
      by decide +kernel⟩, by decide +kernel⟩
  · exact ⟨by decide, by decide +kernel, ⟨by decide +kernel, by decide +kernel, by decide +kernel, by decide +kernel,
      by decide +kernel⟩, by decide +kernel⟩

end Neufbox.Leds
