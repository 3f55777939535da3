import Neufbox.Library.RunAlong
import Neufbox.Library.WrapArith

/-! # Polled buttons

`gpio_poll` samples a pin every 20 ms. Its counter goes up with every poll and down by two with every
sample that differs from the debounced value, which changes when the counter reaches zero. The counter
is an `u32`, so everything rests on its range; the long-press timer may expire between any two polls. -/
namespace Neufbox.Board
open RunAlong WrapArith
set_option autoImplicit false
set_option maxHeartbeats 250000
set_option maxRecDepth 120000

/-! ## The button -/

def pollTrigger : ℕ := 5

/-- `struct gpio_poll_struct`. Of the callbacks it matters whether they are set; `timerPending` is the
state of `timer`. -/
structure GpioPoll where
  trigger : ℕ
  value : Bool
  timerPending : Bool
  fnUp : Bool
  fnDown : Bool
  fnLong : Bool
  deriving DecidableEq, Repr

inductive Effect
  | addTimer
  | delTimer
  | fnUp
  | fnDown
  | fnLong
  deriving DecidableEq, Repr

/-- The counter behind the first `if`. -/
def raiseTrigger (trigger : ℕ) : ℕ :=
  let trigger := (trigger + 1) % 2 ^ 32
  if pollTrigger < trigger then pollTrigger else trigger

def gpioPoll (level : Bool) (gpio : GpioPoll) : GpioPoll × List Effect :=
  let trigger := raiseTrigger gpio.trigger
  if level ≠ gpio.value then
    let trigger := wrapSub 32 trigger 2
    if trigger ≤ 0 then
      if !gpio.value then
        -- low to high
        ({ gpio with trigger := pollTrigger, value := true, timerPending := false },
          (if gpio.timerPending then [.delTimer] else []) ++ (if gpio.fnUp then [.fnUp] else []))
      else
        -- high to low
        ({ gpio with trigger := pollTrigger, value := false, timerPending := gpio.fnLong || gpio.timerPending },
          (if gpio.fnLong then [.addTimer] else []) ++ (if gpio.fnDown then [.fnDown] else []))
    else ({ gpio with trigger := trigger }, [])
  else ({ gpio with trigger := trigger }, [])

/-- The timer's expiry; its function is `fn_long`. -/
def timerExpires (gpio : GpioPoll) : GpioPoll × List Effect :=
  if gpio.timerPending then ({ gpio with timerPending := false }, [.fnLong]) else (gpio, [])

def gpioPollInit (fnUp fnDown fnLong : Bool) : GpioPoll := ⟨pollTrigger, true, false, fnUp, fnDown, fnLong⟩

inductive Op
  | poll (level : Bool)
  | expire
  deriving DecidableEq, Repr

def perform (gpio : GpioPoll) : Op → GpioPoll × List Effect
  | .poll level => gpioPoll level gpio
  | .expire => timerExpires gpio

/-- A button and all it has done. -/
structure Button where
  gpio : GpioPoll
  log : List Effect

def step (b : Button) (op : Op) : Button := ⟨(perform b.gpio op).1, b.log ++ (perform b.gpio op).2⟩

/-! ## One step -/

/-- What a step can do while the counter is in range. -/
inductive Stepped (gpio : GpioPoll) : Op → GpioPoll × List Effect → Prop
  | same : Stepped gpio (.poll gpio.value) ({ gpio with trigger := raiseTrigger gpio.trigger }, [])
  | differs (h : 2 < raiseTrigger gpio.trigger) :
      Stepped gpio (.poll !gpio.value) ({ gpio with trigger := raiseTrigger gpio.trigger - 2 }, [])
  | up (h : raiseTrigger gpio.trigger = 2) (hvalue : gpio.value = false) :
      Stepped gpio (.poll true) ({ gpio with trigger := pollTrigger, value := true, timerPending := false },
        (if gpio.timerPending then [.delTimer] else []) ++ (if gpio.fnUp then [.fnUp] else []))
  | down (h : raiseTrigger gpio.trigger = 2) (hvalue : gpio.value = true) :
      Stepped gpio (.poll false)
        ({ gpio with trigger := pollTrigger, value := false, timerPending := gpio.fnLong || gpio.timerPending },
        (if gpio.fnLong then [.addTimer] else []) ++ (if gpio.fnDown then [.fnDown] else []))
  | expired (h : gpio.timerPending = true) : Stepped gpio .expire ({ gpio with timerPending := false }, [.fnLong])
  | idle : Stepped gpio .expire (gpio, [])

theorem pollTrigger_pos : 1 ≤ pollTrigger := by decide

theorem raiseTrigger_range {trigger : ℕ} (hpos : 1 ≤ trigger) (hle : trigger ≤ pollTrigger) :
    raiseTrigger trigger = min (trigger + 1) pollTrigger ∧ 2 ≤ raiseTrigger trigger := by
  rw [pollTrigger] at hle
  rw [raiseTrigger, pollTrigger, Nat.mod_eq_of_lt (by omega)]
  split
  · omega
  · omega

theorem perform_stepped {gpio : GpioPoll} (hpos : 1 ≤ gpio.trigger) (hle : gpio.trigger ≤ pollTrigger) (op : Op) :
    Stepped gpio op (perform gpio op) := by
  obtain ⟨hraise, htwo⟩ := raiseTrigger_range hpos hle
  have hsub : wrapSub 32 (raiseTrigger gpio.trigger) 2 = raiseTrigger gpio.trigger - 2 :=
    wrapSub_of_le htwo (by rw [hraise, pollTrigger]; omega)
  cases op with
  | expire =>
    rw [perform, timerExpires]
    split
    · rename_i hpending
      exact .expired hpending
    · exact .idle
  | poll level =>
    rw [perform, gpioPoll]
    simp only [hsub]
    split
    · rename_i hdiffers
      obtain rfl : level = !gpio.value := by
        cases hv : gpio.value <;> cases level <;> simp_all
      split
      · rename_i hzero
        have heq : raiseTrigger gpio.trigger = 2 := by omega
        cases hv : gpio.value with
        | false => exact .up heq hv
        | true => exact .down heq hv
      · exact .differs (by omega)
    · rename_i hsame
      obtain rfl : level = gpio.value := by simpa using hsame
      exact .same

/-! ## Runs -/

/-- The counter's range, and the timer at rest while the button is up. -/
structure InRange (b : Button) : Prop where
  pos : 1 ≤ b.gpio.trigger
  le : b.gpio.trigger ≤ pollTrigger
  rest : b.gpio.value = true → b.gpio.timerPending = false

theorem InRange.step {b : Button} (h : InRange b) (op : Op) : InRange (step b op) := by
  obtain ⟨hraise, htwo⟩ := raiseTrigger_range h.pos h.le
  have hstep := perform_stepped h.pos h.le op
  rw [Board.step]
  generalize perform b.gpio op = r at hstep
  cases hstep with
  | same => exact ⟨by show 1 ≤ raiseTrigger _; omega, by show raiseTrigger _ ≤ _; omega, h.rest⟩
  | differs hgt => exact ⟨by show 1 ≤ raiseTrigger _ - 2; omega, by show raiseTrigger _ - 2 ≤ _; omega, h.rest⟩
  | up => exact ⟨pollTrigger_pos, le_refl _, fun _ => rfl⟩
  | down => exact ⟨pollTrigger_pos, le_refl _, fun hup => by cases hup⟩
  | expired => exact ⟨h.pos, h.le, fun _ => rfl⟩
  | idle => exact ⟨h.pos, h.le, h.rest⟩

section Runs
variable (fnUp fnDown fnLong : Bool)

/-- The button after its initialisation and some steps. -/
def after (ops : List Op) : Button := runSteps step ⟨gpioPollInit fnUp fnDown fnLong, []⟩ ops

theorem after_concat (ops : List Op) (op : Op) :
    after fnUp fnDown fnLong (ops ++ [op]) = step (after fnUp fnDown fnLong ops) op := by
  rw [after, runSteps_append]
  rfl

theorem after_inRange (ops : List Op) : InRange (after fnUp fnDown fnLong ops) :=
  run_preserves InRange ops (fun _ op h => h.step op) ⟨pollTrigger_pos, le_refl _, fun _ => rfl⟩

/-! ## Changes of the value -/

/-- The number of samples that differ from a value. -/
def differing (value : Bool) (ops : List Op) : ℕ := ops.count (.poll !value)

/-- Each of the differing samples since the counter was full takes at most one from it, but for one of
the first that takes two. -/
theorem trigger_differing {b : Button} (h : InRange b) {d : ℕ} (hd : 4 ≤ b.gpio.trigger + d) (mid : List Op)
    (hsame : ∀ m, m <+: mid → (runSteps step b m).gpio.value = b.gpio.value) :
    4 ≤ (runSteps step b mid).gpio.trigger + d + differing b.gpio.value mid := by
  induction mid generalizing b d with
  | nil => exact hd
  | cons op mid ih =>
    have hvalue : (step b op).gpio.value = b.gpio.value := hsame [op] ⟨mid, rfl⟩
    have hrest : ∀ m, m <+: mid → (runSteps step (step b op) m).gpio.value = (step b op).gpio.value := by
      intro m hm
      rw [hvalue]
      exact hsame (op :: m) (List.cons_prefix_cons.mpr ⟨rfl, hm⟩)
    obtain ⟨hraise, htwo⟩ := raiseTrigger_range h.pos h.le
    have hstep := perform_stepped h.pos h.le op
    have hfull : pollTrigger = 5 := rfl
    rw [runSteps_cons]
    have hnext : 4 ≤ (step b op).gpio.trigger + (d + differing b.gpio.value [op]) := by
      show 4 ≤ (perform b.gpio op).1.trigger + _
      have hkept : (perform b.gpio op).1.value = b.gpio.value := hvalue
      generalize perform b.gpio op = r at hstep hkept
      cases hstep with
      | same =>
        show 4 ≤ raiseTrigger _ + _
        omega
      | differs hgt =>
        have hone : differing b.gpio.value [.poll !b.gpio.value] = 1 := List.count_singleton_self
        show 4 ≤ raiseTrigger _ - 2 + _
        omega
      | up heq hlow =>
        rw [hlow] at hkept
        cases hkept
      | down heq hhigh =>
        rw [hhigh] at hkept
        cases hkept
      | expired => exact hd
      | idle => exact hd
    have hgo := ih (h.step op) hnext hrest
    rw [hvalue] at hgo
    have hcons : differing b.gpio.value (op :: mid) = differing b.gpio.value [op] + differing b.gpio.value mid := by
      rw [differing, ← List.singleton_append, List.count_append]
      rfl
    omega

/-- The start, or a point where the value has just changed. -/
def ChangePoint (pre : List Op) : Prop :=
  pre = [] ∨ ∃ ops op, pre = ops ++ [op] ∧
    (after fnUp fnDown fnLong pre).gpio.value ≠ (after fnUp fnDown fnLong ops).gpio.value

/-- A changed value leaves the counter full. -/
theorem step_changed {b : Button} (h : InRange b) {op : Op} (hchange : (step b op).gpio.value ≠ b.gpio.value) :
    op = .poll (!b.gpio.value) ∧ raiseTrigger b.gpio.trigger = 2 ∧ (step b op).gpio.trigger = pollTrigger := by
  have hstep := perform_stepped h.pos h.le op
  have hgpio : (step b op).gpio = (perform b.gpio op).1 := rfl
  rw [hgpio] at hchange ⊢
  generalize perform b.gpio op = r at hstep hchange
  cases hstep with
  | same => exact absurd rfl hchange
  | differs => exact absurd rfl hchange
  | up heq hlow => exact ⟨by rw [hlow]; rfl, heq, rfl⟩
  | down heq hhigh => exact ⟨by rw [hhigh]; rfl, heq, rfl⟩
  | expired => exact absurd rfl hchange
  | idle => exact absurd rfl hchange

theorem changePoint_trigger {pre : List Op} (h : ChangePoint fnUp fnDown fnLong pre) :
    (after fnUp fnDown fnLong pre).gpio.trigger = pollTrigger := by
  rcases h with rfl | ⟨ops, op, rfl, hchange⟩
  · rfl
  · rw [after_concat] at hchange ⊢
    exact (step_changed (after_inRange fnUp fnDown fnLong ops) hchange).2.2

/-- Four differing samples at least lie between two changes. -/
theorem differing_since {pre mid : List Op} {op : Op} (hpre : ChangePoint fnUp fnDown fnLong pre)
    (hsame : ∀ m, m <+: mid →
      (after fnUp fnDown fnLong (pre ++ m)).gpio.value = (after fnUp fnDown fnLong pre).gpio.value)
    (hchange : (after fnUp fnDown fnLong (pre ++ mid ++ [op])).gpio.value ≠
      (after fnUp fnDown fnLong (pre ++ mid)).gpio.value) :
    4 ≤ differing (after fnUp fnDown fnLong pre).gpio.value (mid ++ [op]) := by
  have hstart := changePoint_trigger fnUp fnDown fnLong hpre
  have hrun : ∀ m, after fnUp fnDown fnLong (pre ++ m) = runSteps step (after fnUp fnDown fnLong pre) m :=
    fun m => runSteps_append step _ pre m
  have hcount := trigger_differing (after_inRange fnUp fnDown fnLong pre) (d := 0)
    (by rw [hstart]; decide) mid (fun m hm => by rw [← hrun]; exact hsame m hm)
  rw [after_concat] at hchange
  obtain ⟨rfl, htwo, -⟩ := step_changed (after_inRange fnUp fnDown fnLong (pre ++ mid)) hchange
  have hlast : (after fnUp fnDown fnLong (pre ++ mid)).gpio.trigger = 1 := by
    have hrange := after_inRange fnUp fnDown fnLong (pre ++ mid)
    have hraise := (raiseTrigger_range hrange.pos hrange.le).1
    have hfull : pollTrigger = 5 := rfl
    omega
  rw [← hrun, hlast] at hcount
  rw [hsame mid (List.prefix_refl mid), differing, List.count_append, List.count_singleton_self]
  rw [differing] at hcount
  omega

/-! ## The callbacks -/

/-- Down and up in turns. -/
def turns (n : ℕ) : List Effect := (List.range n).map fun i => if i % 2 = 0 then .fnDown else .fnUp

def isUpDown (e : Effect) : Bool := e = .fnUp || e = .fnDown

/-- Whether a callback is set. -/
def isSet (fnUp fnDown : Bool) : Effect → Bool
  | .fnUp => fnUp
  | .fnDown => fnDown
  | _ => false

/-- The calls so far were in turns, and the value tells whose turn it is. -/
structure InTurns (b : Button) : Prop where
  callbacks : b.gpio.fnUp = fnUp ∧ b.gpio.fnDown = fnDown
  calls : ∃ n, b.log.filter isUpDown = (turns n).filter (isSet fnUp fnDown) ∧ b.gpio.value = decide (n % 2 = 0)

theorem turns_succ (n : ℕ) : turns (n + 1) = turns n ++ [if n % 2 = 0 then .fnDown else .fnUp] := by
  rw [turns, List.range_succ, List.map_append, List.map_singleton, turns]

theorem InTurns.step {b : Button} (hrange : InRange b) (h : InTurns fnUp fnDown b) (op : Op) :
    InTurns fnUp fnDown (step b op) := by
  obtain ⟨⟨hup, hdown⟩, n, hcalls, hvalue⟩ := h
  have hstep := perform_stepped hrange.pos hrange.le op
  rw [Board.step]
  generalize perform b.gpio op = r at hstep
  cases hstep with
  | same => exact ⟨⟨hup, hdown⟩, n, by simpa using hcalls, hvalue⟩
  | differs => exact ⟨⟨hup, hdown⟩, n, by simpa using hcalls, hvalue⟩
  | up heq hlow =>
    rw [hlow] at hvalue
    have hodd : n % 2 ≠ 0 := by simpa using hvalue.symm
    refine ⟨⟨hup, hdown⟩, n + 1, ?_, by simp; omega⟩
    rw [turns_succ, if_neg hodd, List.filter_append, List.filter_append, List.filter_append, hcalls, ← hup]
    cases b.gpio.timerPending <;> cases hset : b.gpio.fnUp <;> simp [isUpDown, isSet, List.filter_cons]
  | down heq hhigh =>
    rw [hhigh] at hvalue
    have heven : n % 2 = 0 := by simpa using hvalue.symm
    refine ⟨⟨hup, hdown⟩, n + 1, ?_, by simp; omega⟩
    rw [turns_succ, if_pos heven, List.filter_append, List.filter_append, List.filter_append, hcalls, ← hdown]
    cases b.gpio.fnLong <;> cases hset : b.gpio.fnDown <;> simp [isUpDown, isSet, List.filter_cons]
  | expired => exact ⟨⟨hup, hdown⟩, n, by rw [List.filter_append, hcalls]; simp [isUpDown], hvalue⟩
  | idle => exact ⟨⟨hup, hdown⟩, n, by simpa using hcalls, hvalue⟩

theorem after_inTurns (ops : List Op) : InTurns fnUp fnDown (after fnUp fnDown fnLong ops) := by
  have h : InRange (after fnUp fnDown fnLong ops) ∧ InTurns fnUp fnDown (after fnUp fnDown fnLong ops) :=
    run_preserves (fun b => InRange b ∧ InTurns fnUp fnDown b) ops
      (fun _ op hb => ⟨hb.1.step op, hb.2.step fnUp fnDown hb.1 op⟩)
      ⟨after_inRange fnUp fnDown fnLong [], ⟨rfl, rfl⟩, 0, rfl, rfl⟩
  exact h.2

/-! ## The debouncer -/

/-- What is asked of the button behind some steps. -/
structure Debounced (ops : List Op) : Prop where
  trigger : 1 ≤ (after fnUp fnDown fnLong ops).gpio.trigger ∧
    (after fnUp fnDown fnLong ops).gpio.trigger ≤ pollTrigger
  noUnderflow : 2 ≤ raiseTrigger (after fnUp fnDown fnLong ops).gpio.trigger
  changes : ∀ op, (after fnUp fnDown fnLong (ops ++ [op])).gpio.value ≠ (after fnUp fnDown fnLong ops).gpio.value →
    op = .poll (!(after fnUp fnDown fnLong ops).gpio.value) ∧
    ∀ pre mid, ops = pre ++ mid → ChangePoint fnUp fnDown fnLong pre →
      (∀ m, m <+: mid → (after fnUp fnDown fnLong (pre ++ m)).gpio.value = (after fnUp fnDown fnLong pre).gpio.value) →
      4 ≤ differing (after fnUp fnDown fnLong ops).gpio.value (mid ++ [op])
  calls : ∃ n, (after fnUp fnDown fnLong ops).log.filter isUpDown = (turns n).filter (isSet fnUp fnDown)
  armed : ∀ op, Effect.addTimer ∈ (perform (after fnUp fnDown fnLong ops).gpio op).2 →
    (after fnUp fnDown fnLong ops).gpio.value = true ∧
    (after fnUp fnDown fnLong (ops ++ [op])).gpio.value = false ∧
    (after fnUp fnDown fnLong ops).gpio.timerPending = false
  rest : (after fnUp fnDown fnLong ops).gpio.value = true → (after fnUp fnDown fnLong ops).gpio.timerPending = false

theorem step_armed {b : Button} (h : InRange b) {op : Op} (harm : Effect.addTimer ∈ (perform b.gpio op).2) :
    b.gpio.value = true ∧ (step b op).gpio.value = false := by
  have hstep := perform_stepped h.pos h.le op
  have hgpio : (step b op).gpio = (perform b.gpio op).1 := rfl
  rw [hgpio]
  generalize perform b.gpio op = r at hstep harm
  cases hstep with
  | same => cases harm
  | differs => cases harm
  | up heq hlow => cases hset : b.gpio.timerPending <;> cases hcall : b.gpio.fnUp <;> simp [hset, hcall] at harm
  | down heq hhigh => exact ⟨hhigh, rfl⟩
  | expired => simp at harm
  | idle => cases harm

/-- The debouncer, for every sequence of samples and expiries. -/
theorem gpio_poll_debounces (ops : List Op) : Debounced fnUp fnDown fnLong ops := by
  have hrange := after_inRange fnUp fnDown fnLong ops
  refine ⟨⟨hrange.pos, hrange.le⟩, (raiseTrigger_range hrange.pos hrange.le).2, ?_, ?_, ?_, hrange.rest⟩
  · intro op hchange
    constructor
    · rw [after_concat] at hchange
      exact (step_changed hrange hchange).1
    · rintro pre mid rfl hpre hsame
      rw [hsame mid (List.prefix_refl mid)]
      exact differing_since fnUp fnDown fnLong hpre hsame hchange
  · obtain ⟨n, hcalls, -⟩ := (after_inTurns fnUp fnDown fnLong ops).calls
    exact ⟨n, hcalls⟩
  · intro op harm
    obtain ⟨hhigh, hlow⟩ := step_armed hrange harm
    rw [after_concat]
    exact ⟨hhigh, hlow, hrange.rest hhigh⟩

end Runs

end Neufbox.Board
