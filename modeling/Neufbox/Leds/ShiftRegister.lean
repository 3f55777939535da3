import Neufbox.Library.Bits
import Neufbox.Library.RunAlong

/-! # The shift register behind the LEDs

`nxp_74hc164.c`: eight LEDs hang on a 74HC164, an 8-bit shift register behind a data and a clock pin. Setting
a LED changes a bit of `data` and marks the chip dirty, in two steps; a flush clears the mark and then sends the
eight bits, in two steps too. Any number of calls may be on their way at a time, and their steps come in any
order. A serialisation holds the chip's lock and is one step. -/
namespace Neufbox.Leds.ShiftRegister
open RunAlong Library.Bits
set_option autoImplicit false
set_option maxHeartbeats 250000
set_option maxRecDepth 120000

/-! ## The bits of a word in memory -/

def testBit (nr : ℕ) (word : BitVec 32) : Bool := word.getLsbD nr

def setBit (nr : ℕ) (word : BitVec 32) : BitVec 32 := word ||| BitVec.twoPow 32 nr

def clearBit (nr : ℕ) (word : BitVec 32) : BitVec 32 := word &&& ~~~BitVec.twoPow 32 nr

/-- A test as a number. -/
def testResult (bit : Bool) : ℤ := if bit then 1 else 0

/-! ## The chip -/

inductive Pin
  | data
  | clk
  deriving DecidableEq, Repr

/-- The pins and what the 74HC164 behind them puts out; bit `k` is output `k`. -/
structure Hardware where
  data : Bool
  clk : Bool
  outputs : BitVec 8
  deriving DecidableEq, Repr

/-- What a rising edge of the clock does: the outputs move up by one, the data pin comes in below. -/
def shiftIn (outputs : BitVec 8) (bit : Bool) : BitVec 8 := outputs <<< 1 ||| if bit then 1#8 else 0#8

def gpioSetValue (pin : Pin) (value : Bool) (hw : Hardware) : Hardware :=
  match pin with
  | .data => { hw with data := value }
  | .clk =>
      { hw with
        clk := value
        outputs := if value && !hw.clk then shiftIn hw.outputs hw.data else hw.outputs }

/-- `struct nxp_74hc164_chip`; the pins are two different ones, and the number of the clock pin is negative
until the chip is probed. -/
structure Chip where
  dirty : BitVec 32
  data : BitVec 32
  gpioPinClk : ℤ
  deriving DecidableEq, Repr

/-- A round of the loop, with the byte that is left. -/
def clockFrame (r : BitVec 8 × Hardware) : BitVec 8 × Hardware :=
  let hw := gpioSetValue .data (r.1 &&& 0x80#8 != 0#8) r.2
  let hw := gpioSetValue .clk true hw
  let hw := gpioSetValue .clk false hw
  (r.1 <<< 1, hw)

def serialize (nxp : Chip) (hw : Hardware) : Hardware :=
  if nxp.gpioPinClk < 0 then hw else (clockFrame^[8] (nxp.data.setWidth 8, hw)).2

/-! ## Calls, step by step -/

/-- The next thing a call does. -/
inductive Call
  | setValue (gpio : Fin 8) (val : ℤ)
  | setDirty
  | flush
  | serialize
  deriving DecidableEq, Repr

/-- `calls` are the calls on their way, each under a number of its own; `serialised` counts the completed
serialisations, and `last` is the value each LED was set to last. -/
structure System where
  nxp : Chip
  hw : Hardware
  calls : ℕ → Option Call
  serialised : ℕ
  last : Fin 8 → Option Bool

/-- `test_and_set_bit` or `test_and_clear_bit`, and whether the chip gets dirty. -/
def changeData (gpio : Fin 8) (val : ℤ) (nxp : Chip) : Chip × Bool :=
  let old := testResult (testBit gpio nxp.data)
  if val ≠ 0 then ({ nxp with data := setBit gpio nxp.data }, old != val)
  else ({ nxp with data := clearBit gpio nxp.data }, old != val)

/-- What a call does next. -/
def callStep (s : System) (id : ℕ) : Call → System
  | .setValue gpio val =>
      let r := changeData gpio val s.nxp
      { s with
        nxp := r.1
        calls := Function.update s.calls id (if r.2 then some .setDirty else none)
        last := Function.update s.last gpio (some (val != 0)) }
  | .setDirty =>
      { s with
        nxp := { s.nxp with dirty := setBit 1 s.nxp.dirty }
        calls := Function.update s.calls id none }
  | .flush =>
      { s with
        nxp := { s.nxp with dirty := clearBit 1 s.nxp.dirty }
        calls := Function.update s.calls id (if testBit 1 s.nxp.dirty then some .serialize else none) }
  | .serialize =>
      { s with
        hw := serialize s.nxp s.hw
        calls := Function.update s.calls id none
        serialised := s.serialised + 1 }

inductive Op
  | setValue (id : ℕ) (gpio : Fin 8) (val : ℤ)
  | flush (id : ℕ)
  | step (id : ℕ)
  deriving DecidableEq, Repr

/-- A call enters under a number that is free. -/
def enter (s : System) (id : ℕ) (call : Call) : System :=
  match s.calls id with
  | none => { s with calls := Function.update s.calls id (some call) }
  | some _ => s

def step (s : System) : Op → System
  | .setValue id gpio val => enter s id (.setValue gpio val)
  | .flush id => enter s id .flush
  | .step id =>
      match s.calls id with
      | none => s
      | some call => callStep s id call

def afterOps (s : System) (ops : List Op) : System := runSteps step s ops

/-- The probed chip. The outputs of the 74HC164 are what they are when the power comes. -/
def probed (gpioPinClk : ℤ) (outputs : BitVec 8) : System where
  nxp := ⟨0#32, 0#32, gpioPinClk⟩
  hw := ⟨false, false, outputs⟩
  calls := fun _ => none
  serialised := 0
  last := fun _ => none

/-! ## Serialising -/

theorem getLsbD_shiftIn (outputs : BitVec 8) (bit : Bool) {k : ℕ} (hk : k < 8) :
    (shiftIn outputs bit).getLsbD k = if k = 0 then bit else outputs.getLsbD (k - 1) := by
  rw [shiftIn, BitVec.getLsbD_or, BitVec.getLsbD_shiftLeft]
  rcases Nat.eq_zero_or_pos k with rfl | hpos
  · cases bit <;> rfl
  · have hne : ¬k = 0 := by omega
    have hbit : (if bit then 1#8 else 0#8).getLsbD k = false := by
      cases bit <;> simp [BitVec.getLsbD_one, hne]
    rw [hbit, if_neg hne, Bool.or_false]
    simp [hk, hne]

theorem clockFrame_eq (byte : BitVec 8) {hw : Hardware} (hclk : hw.clk = false) :
    clockFrame (byte, hw) = (byte <<< 1, ⟨byte.getLsbD 7, false, shiftIn hw.outputs (byte.getLsbD 7)⟩) := by
  have htop : (byte &&& 0x80#8 != 0#8) = byte.getLsbD 7 := by
    rw [Bool.eq_iff_iff, bne_iff_ne]
    exact and_twoPow_ne_zero_iff byte 7
  simp [clockFrame, gpioSetValue, hclk, htop]

/-- After `i` frames the upper `i` bits of the byte are the lower outputs. -/
theorem clockFrames (byte : BitVec 8) {hw : Hardware} (hclk : hw.clk = false) {i : ℕ} (hi : i ≤ 8) :
    (clockFrame^[i] (byte, hw)).1 = byte <<< i ∧ (clockFrame^[i] (byte, hw)).2.clk = false ∧
      ∀ k < i, (clockFrame^[i] (byte, hw)).2.outputs.getLsbD k = byte.getLsbD (8 - i + k) := by
  induction i with
  | zero => exact ⟨(BitVec.shiftLeft_zero byte).symm, hclk, fun k hk => absurd hk (Nat.not_lt_zero k)⟩
  | succ i ih =>
    obtain ⟨hbyte, hlow, hout⟩ := ih (by omega)
    have hframe := clockFrame_eq (clockFrame^[i] (byte, hw)).1 hlow
    rw [Function.iterate_succ_apply', hframe]
    refine ⟨?_, rfl, fun k hk => ?_⟩
    · show (clockFrame^[i] (byte, hw)).1 <<< 1 = _
      rw [hbyte, BitVec.shiftLeft_add]
    · show (shiftIn _ ((clockFrame^[i] (byte, hw)).1.getLsbD 7)).getLsbD k = _
      rw [getLsbD_shiftIn _ _ (by omega), hbyte, BitVec.getLsbD_shiftLeft]
      by_cases hk0 : k = 0
      · have hlt : ¬7 < i := by omega
        have hidx : 8 - (i + 1) + k = 7 - i := by omega
        rw [if_pos hk0, hidx]
        simp [hlt]
      · have hidx : 8 - (i + 1) + k = 8 - i + (k - 1) := by omega
        rw [if_neg hk0, hidx]
        exact hout (k - 1) (by omega)

theorem serialize_clk {nxp : Chip} (hpin : 0 ≤ nxp.gpioPinClk) {hw : Hardware} (hclk : hw.clk = false) :
    (serialize nxp hw).clk = false := by
  rw [serialize, if_neg (by omega)]
  exact (clockFrames _ hclk (Nat.le_refl 8)).2.1

theorem serialize_outputs {nxp : Chip} (hpin : 0 ≤ nxp.gpioPinClk) {hw : Hardware} (hclk : hw.clk = false) :
    (serialize nxp hw).outputs = nxp.data.setWidth 8 := by
  rw [serialize, if_neg (by omega)]
  apply BitVec.eq_of_getLsbD_eq
  intro k hk
  have hout := (clockFrames (nxp.data.setWidth 8) hclk (Nat.le_refl 8)).2.2 k hk
  rw [hout]
  congr 1
  omega

/-! ## Changing the data -/

theorem testBit_setBit {nr : ℕ} (hnr : nr < 32) (word : BitVec 32) (k : ℕ) :
    testBit k (setBit nr word) = if nr = k then true else testBit k word := by
  rw [testBit, setBit, getLsbD_or_twoPow word nr k hnr]
  by_cases h : nr = k <;> simp [h, testBit]

theorem testBit_clearBit {nr : ℕ} (hnr : nr < 32) (word : BitVec 32) (k : ℕ) :
    testBit k (clearBit nr word) = if nr = k then false else testBit k word := by
  rw [testBit, clearBit, getLsbD_and_not_twoPow word nr k hnr]
  by_cases h : nr = k <;> simp [h, testBit]

@[simp] theorem changeData_dirty (gpio : Fin 8) (val : ℤ) (nxp : Chip) :
    (changeData gpio val nxp).1.dirty = nxp.dirty := by
  rw [changeData]
  split <;> rfl

@[simp] theorem changeData_pin (gpio : Fin 8) (val : ℤ) (nxp : Chip) :
    (changeData gpio val nxp).1.gpioPinClk = nxp.gpioPinClk := by
  rw [changeData]
  split <;> rfl

theorem testBit_changeData (gpio : Fin 8) (val : ℤ) (nxp : Chip) (k : ℕ) :
    testBit k (changeData gpio val nxp).1.data = if (gpio : ℕ) = k then val != 0 else testBit k nxp.data := by
  have hgpio : (gpio : ℕ) < 32 := by omega
  rw [changeData]
  by_cases hval : val = 0
  · simp [hval, testBit_clearBit hgpio]
  · have hset : (val != 0) = true := by simp [hval]
    rw [if_pos hval, hset]
    exact testBit_setBit hgpio nxp.data k

/-- A change that leaves the chip clean is none. -/
theorem changeData_clean {gpio : Fin 8} {val : ℤ} {nxp : Chip} (h : (changeData gpio val nxp).2 = false) :
    (changeData gpio val nxp).1.data = nxp.data := by
  have hold : testResult (testBit gpio nxp.data) = val := by
    rw [changeData] at h
    split at h <;> simpa using h
  apply BitVec.eq_of_getLsbD_eq
  intro k _
  have hbit := testBit_changeData gpio val nxp k
  rw [testBit, testBit] at hbit
  rw [hbit]
  split
  · rename_i hk
    rw [← hk, ← hold]
    show _ = testBit gpio nxp.data
    cases testBit gpio nxp.data <;> rfl
  · rfl

/-! ## What holds in every run -/

/-- Someone will see to it that the outputs are sent again. -/
def Pending (s : System) : Prop :=
  testBit 1 s.nxp.dirty = true ∨ ∃ id, s.calls id = some .setDirty ∨ s.calls id = some .serialize

structure Sound (s : System) : Prop where
  pin : 0 ≤ s.nxp.gpioPinClk
  clk : s.hw.clk = false
  last : ∀ k v, s.last k = some v → testBit k s.nxp.data = v
  sent : 1 ≤ s.serialised → s.hw.outputs = s.nxp.data.setWidth 8 ∨ Pending s

theorem Pending.of_other {s s' : System} {id : ℕ} {call : Call} (h : Pending s) (hcall : s.calls id = some call)
    (hdirty : call ≠ .setDirty) (hserialize : call ≠ .serialize)
    (hbit : testBit 1 s.nxp.dirty → testBit 1 s'.nxp.dirty) (hother : ∀ j ≠ id, s'.calls j = s.calls j) : Pending s' := by
  rcases h with h | ⟨j, hj⟩
  · exact Or.inl (hbit h)
  · have hne : j ≠ id := by
      rintro rfl
      rw [hcall] at hj
      simp [hdirty, hserialize] at hj
    exact Or.inr ⟨j, by rw [hother j hne]; exact hj⟩

theorem Sound.enter {s : System} (h : Sound s) (id : ℕ) (call : Call) : Sound (enter s id call) := by
  rw [ShiftRegister.enter]
  split
  · rename_i hfree
    refine ⟨h.pin, h.clk, h.last, fun hsent => (h.sent hsent).imp_right ?_⟩
    rintro (hdirty | ⟨j, hj⟩)
    · exact Or.inl hdirty
    · have hne : j ≠ id := by
        rintro rfl
        simp [hfree] at hj
      exact Or.inr ⟨j, by simpa [hne] using hj⟩
  · exact h

/-- The value asked for is in the data, and if that changed the data the chip is about to get dirty. -/
theorem Sound.setValue {s : System} (h : Sound s) {id : ℕ} {gpio : Fin 8} {val : ℤ}
    (hcall : s.calls id = some (.setValue gpio val)) : Sound (callStep s id (.setValue gpio val)) where
  pin := (changeData_pin gpio val s.nxp).symm ▸ h.pin
  clk := h.clk
  last := by
    intro k v hk
    show testBit k (changeData gpio val s.nxp).1.data = v
    rw [testBit_changeData]
    by_cases hkg : k = gpio
    · subst hkg
      simpa [callStep] using hk
    · have hkn : ¬(gpio : ℕ) = k := fun heq => hkg (Fin.ext heq.symm)
      rw [if_neg hkn]
      exact h.last k v (by simpa [callStep, hkg] using hk)
  sent := by
    intro hsent
    show s.hw.outputs = (changeData gpio val s.nxp).1.data.setWidth 8 ∨ _
    cases hr : (changeData gpio val s.nxp).2 with
    | true => exact Or.inr (Or.inr ⟨id, Or.inl (by simp [callStep, hr])⟩)
    | false =>
      rw [changeData_clean hr]
      refine (h.sent hsent).imp_right fun hpending => hpending.of_other hcall (by simp) (by simp) ?_ ?_
      · simp [callStep]
      · intro j hj
        simp [callStep, hj]

theorem Sound.setDirty {s : System} (h : Sound s) (id : ℕ) : Sound (callStep s id .setDirty) where
  pin := h.pin
  clk := h.clk
  last := h.last
  sent := fun _ => Or.inr (Or.inl (by simp [callStep, testBit_setBit]))

/-- The mark goes and the serialisation it stands for comes. -/
theorem Sound.flush {s : System} (h : Sound s) {id : ℕ} (hcall : s.calls id = some .flush) :
    Sound (callStep s id .flush) where
  pin := h.pin
  clk := h.clk
  last := h.last
  sent := by
    intro hsent
    cases hdirty : testBit 1 s.nxp.dirty with
    | true => exact Or.inr (Or.inr ⟨id, Or.inr (by simp [callStep, hdirty])⟩)
    | false =>
      refine (h.sent hsent).imp_right fun hpending => hpending.of_other hcall (by simp) (by simp) ?_ ?_
      · simp [hdirty]
      · intro j hj
        simp [callStep, hj]

theorem Sound.serialize {s : System} (h : Sound s) (id : ℕ) : Sound (callStep s id .serialize) where
  pin := h.pin
  clk := serialize_clk h.pin h.clk
  last := h.last
  sent := fun _ => Or.inl (serialize_outputs h.pin h.clk)

theorem Sound.step {s : System} (h : Sound s) (op : Op) : Sound (step s op) := by
  cases op with
  | setValue id gpio val => exact h.enter id _
  | flush id => exact h.enter id _
  | step id =>
    rw [ShiftRegister.step]
    split
    · exact h
    · rename_i call hcall
      cases call with
      | setValue gpio val => exact h.setValue hcall
      | setDirty => exact h.setDirty id
      | flush => exact h.flush hcall
      | serialize => exact h.serialize id

theorem sound_probed {gpioPinClk : ℤ} (hpin : 0 ≤ gpioPinClk) (outputs : BitVec 8) :
    Sound (probed gpioPinClk outputs) where
  pin := hpin
  clk := rfl
  last := fun _ _ h => absurd h (by simp [probed])
  sent := fun h => absurd h (by simp [probed])

theorem sound_afterOps {gpioPinClk : ℤ} (hpin : 0 ≤ gpioPinClk) (outputs : BitVec 8) (ops : List Op) :
    Sound (afterOps (probed gpioPinClk outputs) ops) :=
  run_preserves Sound ops (fun _ op h => h.step op) (sound_probed hpin outputs)

/-! ## In sync -/

/-- No call of `nxp_74hc164_set_value` is on its way. -/
def SettersDone (s : System) : Prop :=
  ∀ id call, s.calls id = some call → call = .flush ∨ call = .serialize

/-- The next step of the call is the last one of a flush. -/
def FlushCompletes (s : System) (id : ℕ) : Prop :=
  s.calls id = some .flush ∧ testBit 1 s.nxp.dirty = false ∨ s.calls id = some .serialize

/-- Every LED that was set shows the value it was set to last. -/
def ShowsLast (s : System) : Prop :=
  ∀ k v, s.last k = some v → s.hw.outputs.getLsbD k = v

theorem Sound.in_sync {s : System} (h : Sound s) (hdone : ¬Pending s) (hsent : 1 ≤ s.serialised) :
    s.hw.outputs = s.nxp.data.setWidth 8 := (h.sent hsent).resolve_right hdone

theorem Sound.showsLast {s : System} (h : Sound s) (hsync : s.hw.outputs = s.nxp.data.setWidth 8) : ShowsLast s := by
  intro k v hk
  rw [hsync, ← h.last k v hk, BitVec.getLsbD_setWidth]
  simp [testBit]

/-- A flush that serialises brings the LEDs up to date whatever else is on its way. -/
theorem Sound.showsLast_of_serialize {s : System} (h : Sound s) {id : ℕ} (hcall : s.calls id = some .serialize) :
    ShowsLast (ShiftRegister.step s (.step id)) := by
  apply (h.step (.step id)).showsLast
  simp only [ShiftRegister.step, hcall]
  exact serialize_outputs h.pin h.clk

/-- A flush that finds the chip clean has nothing to do, unless another one is about to serialise. -/
theorem Sound.showsLast_of_clean {s : System} (h : Sound s) {id : ℕ} (hcall : s.calls id = some .flush)
    (hclean : testBit 1 s.nxp.dirty = false) (hsetters : SettersDone s) (hflushes : ∀ j, s.calls j ≠ some .serialize)
    (hsent : 1 ≤ s.serialised) : ShowsLast (ShiftRegister.step s (.step id)) := by
  have hstep : ShiftRegister.step s (.step id) = callStep s id .flush := by
    rw [ShiftRegister.step, hcall]
  have hdone : ¬Pending s := by
    rintro (hdirty | ⟨j, hj | hj⟩)
    · rw [hclean] at hdirty
      cases hdirty
    · rcases hsetters j _ hj with h | h <;> cases h
    · exact hflushes j hj
  have hsound := h.step (.step id)
  rw [hstep] at hsound ⊢
  apply hsound.showsLast
  exact h.in_sync hdone hsent

/-- An idle clean chip shows its data once it has serialised. A flush that completes shows what was set last if
it serialises, or if the chip has serialised and no other flush has taken the mark away and not serialised yet. -/
theorem leds_in_sync {gpioPinClk : ℤ} (hpin : 0 ≤ gpioPinClk) (outputs : BitVec 8) (ops : List Op) :
    let s := afterOps (probed gpioPinClk outputs) ops
    ((∀ id, s.calls id = none) → testBit 1 s.nxp.dirty = false → 1 ≤ s.serialised →
      ∀ k < 8, s.hw.outputs.getLsbD k = testBit k s.nxp.data) ∧
    ∀ id, SettersDone s → FlushCompletes s id →
      s.calls id = some .serialize ∨ 1 ≤ s.serialised ∧ (∀ j, s.calls j ≠ some .serialize) →
      ShowsLast (step s (.step id)) := by
  intro s
  have h : Sound s := sound_afterOps hpin outputs ops
  constructor
  · intro hidle hclean hsent k hk
    have hdone : ¬Pending s := by
      rintro (hdirty | ⟨id, hid⟩)
      · rw [hclean] at hdirty
        cases hdirty
      · simp [hidle id] at hid
    rw [h.in_sync hdone hsent, BitVec.getLsbD_setWidth]
    simp [hk, testBit]
  · intro id hsetters hcompletes hwhen
    rcases hwhen with hcall | ⟨hsent, hflushes⟩
    · exact h.showsLast_of_serialize hcall
    · rcases hcompletes with ⟨hcall, hclean⟩ | hcall
      · exact h.showsLast_of_clean hcall hclean hsetters hflushes hsent
      · exact absurd hcall (hflushes id)

/-- LED 2 is set, and a flush serialises it. -/
theorem leds_in_sync_one_led :
    (∀ k < 8, (afterOps (probed 5 0xff#8)
      [.setValue 0 2 1, .step 0, .step 0, .flush 1, .step 1, .step 1]).hw.outputs.getLsbD k = testBit k 4#32) ∧
    ShowsLast (afterOps (probed 5 0xff#8) [.setValue 0 2 1, .step 0, .step 0, .flush 1, .step 1, .step 1]) := by
  have hcall : (afterOps (probed 5 0xff#8) [.setValue 0 2 1, .step 0, .step 0, .flush 1, .step 1]).calls 1 =
      some .serialize := by decide
  have hsetters : SettersDone (afterOps (probed 5 0xff#8) [.setValue 0 2 1, .step 0, .step 0, .flush 1, .step 1])
    | 0, _, h => by cases h
    | 1, _, h => by cases h; exact Or.inr rfl
    | _ + 2, _, h => by cases h
  have hidle : ∀ id, (afterOps (probed 5 0xff#8)
      [.setValue 0 2 1, .step 0, .step 0, .flush 1, .step 1, .step 1]).calls id = none
    | 0 => rfl
    | 1 => rfl
    | _ + 2 => rfl
  exact ⟨(leds_in_sync (by decide) 0xff#8 _).1 hidle (by decide) (by decide),
    (leds_in_sync (by decide) 0xff#8 [.setValue 0 2 1, .step 0, .step 0, .flush 1, .step 1]).2 1 hsetters
      (Or.inr hcall) (Or.inl hcall)⟩

/-- The outputs that came with the power stay if a LED is set to the value its bit has already. And of two
flushes the second one may complete while the first one has not serialised yet. -/
theorem leds_out_of_sync :
    ¬(∀ outputs ops id, SettersDone (afterOps (probed 5 outputs) ops) →
      FlushCompletes (afterOps (probed 5 outputs) ops) id →
      ShowsLast (step (afterOps (probed 5 outputs) ops) (.step id))) ∧
    ¬(∀ outputs ops id, SettersDone (afterOps (probed 5 outputs) ops) →
      FlushCompletes (afterOps (probed 5 outputs) ops) id → 1 ≤ (afterOps (probed 5 outputs) ops).serialised →
      ShowsLast (step (afterOps (probed 5 outputs) ops) (.step id))) := by
  constructor
  · intro h
    have hsetters : SettersDone (afterOps (probed 5 0xff#8) [.setValue 0 0 0, .step 0, .flush 0])
      | 0, _, h => by cases h; exact Or.inl rfl
      | _ + 1, _, h => by cases h
    have hlast := h 0xff#8 [.setValue 0 0 0, .step 0, .flush 0] 0 hsetters (Or.inl ⟨by decide, by decide⟩) 0 false
      (by decide)
    revert hlast
    decide
  · intro h
    have hsetters : SettersDone (afterOps (probed 5 0#8) [.setValue 0 0 1, .step 0, .step 0, .flush 0, .step 0,
        .step 0, .setValue 0 0 0, .step 0, .step 0, .flush 0, .step 0, .flush 1])
      | 0, _, h => by cases h; exact Or.inr rfl
      | 1, _, h => by cases h; exact Or.inl rfl
      | _ + 2, _, h => by cases h
    have hlast := h 0#8 [.setValue 0 0 1, .step 0, .step 0, .flush 0, .step 0, .step 0, .setValue 0 0 0, .step 0, .step 0,
      .flush 0, .step 0, .flush 1] 1 hsetters (Or.inl ⟨by decide, by decide⟩) (by decide) 0 false (by decide)
    revert hlast
    decide

end Neufbox.Leds.ShiftRegister
