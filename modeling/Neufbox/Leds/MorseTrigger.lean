import Neufbox.Library.Emission
import Neufbox.Library.Memory
import Neufbox.Library.RunAlong

/-! # The morse trigger

`ledtrig-morse.c`: a store copies a message into fresh memory, and a timer blinks it letter by letter for ever.
Between two letters the trigger looks at the next character through `msgpos`. What is left of a letter stays in
`morse` when the message changes. -/
namespace Neufbox.Leds.Morse
open RunAlong Emission Memory
set_option autoImplicit false
set_option maxHeartbeats 250000
set_option maxRecDepth 120000

/-! ## The code -/

/-- Dits and dahs from the lowest bit up, with a one above the last. -/
def morsetable : List ℕ := [
  0o122, 0, 0o310, 0, 0, 0o163,                                         -- "#$%&'
  0o55, 0o155, 0, 0, 0o163, 0o141, 0o152, 0o51,                         -- ()*+,-./
  0o77, 0o76, 0o74, 0o70, 0o60, 0o40, 0o41, 0o43, 0o47, 0o57,           -- 0-9
  0o107, 0o125, 0, 0o61, 0, 0o114, 0,                                   -- :;<=>?@
  0o6, 0o21, 0o25, 0o11, 0o2, 0o24, 0o13, 0o20, 0o4,                    -- A-I
  0o36, 0o15, 0o22, 0o7, 0o5, 0o17, 0o26, 0o33, 0o12,                   -- J-R
  0o10, 0o3, 0o14, 0o30, 0o16, 0o31, 0o35, 0o23,                        -- S-Z
  0, 0, 0, 0, 0o154]                                                    -- [\]^_

def tomorse (c : UInt8) : ℕ :=
  let c := if 97 ≤ c ∧ c ≤ 122 then c - 97 + 65 else c
  if 34 ≤ c ∧ c ≤ 95 then morsetable.getD (c - 34).toNat 0 else 0

def morseDitLen : ℕ := 1

def morseDahLen : ℕ := 3

def morseSpaceLen : ℕ := 7

/-! ## The trigger -/

inductive BlinkState
  | start
  | stop
  deriving DecidableEq, Repr

/-- `struct morse_trig_data` without the delay and the timer. The message is the memory from its first byte on,
and `msgpos` is an offset in it. -/
structure MorseTrigData where
  msg : Option (ℕ → UInt8)
  morse : ℕ
  state : BlinkState
  msgpos : Option ℕ

/-- The LED is on or off until the timer comes again; `units` is the factor of the trigger's delay. -/
structure Phase where
  on : Bool
  units : ℕ
  deriving DecidableEq, Repr

/-- What a tick does to the LED, and the places of the message it looks at. Without a message the LED goes off
and the timer is not armed again. -/
structure Tick where
  phase : Option Phase
  reads : List ℕ
  deriving DecidableEq, Repr

def morseTimerFunction (d : MorseTrigData) : MorseTrigData × Tick :=
  match d.msg with
  | none => (d, ⟨none, []⟩)
  | some msg =>
    match d.state with
    | .start =>
        ({ d with state := .stop, morse := d.morse / 2 },
          ⟨some ⟨true, if d.morse % 2 = 1 then morseDahLen else morseDitLen⟩, []⟩)
    | .stop =>
        if 1 < d.morse then ({ d with state := .start }, ⟨some ⟨false, morseDitLen⟩, []⟩)
        else
          let msgpos := d.msgpos.getD 0
          let repeating := msg msgpos = 0
          let pos := if repeating then 0 else msgpos
          let delay := if repeating then morseSpaceLen else morseDahLen
          let morse := tomorse (msg pos)
          ({ d with
              morse := morse
              state := if morse = 0 then .stop else .start
              msgpos := some (pos + 1) },
            ⟨some ⟨false, if morse = 0 then morseSpaceLen else delay⟩, [msgpos, pos]⟩)

/-- `alloc` is the memory that `kmalloc` finds, also behind the bytes it was asked for. -/
def morseMsgStore (buf : List UInt8) (alloc : Option (ℕ → UInt8)) (d : MorseTrigData) : MorseTrigData :=
  match alloc with
  | none => d
  | some m => { d with msg := some (store (store m 0 buf) buf.length [0]), msgpos := none, state := .stop }

inductive Op
  | store (buf : List UInt8) (alloc : Option (ℕ → UInt8))
  | tick

def step (d : MorseTrigData) : Op → MorseTrigData
  | .store buf alloc => morseMsgStore buf alloc d
  | .tick => (morseTimerFunction d).1

def activated : MorseTrigData := ⟨none, 0, .start, none⟩

def afterOps (ops : List Op) : MorseTrigData := runSteps step activated ops

def next (d : MorseTrigData) : MorseTrigData := (morseTimerFunction d).1

def phase (d : MorseTrigData) : Option Phase := (morseTimerFunction d).2.phase

def reads (d : MorseTrigData) : List ℕ := (morseTimerFunction d).2.reads

/-- The phases of the next `n` ticks. -/
def phases (n : ℕ) (d : MorseTrigData) : List (Option Phase) := outputs next phase n d

/-- The places of the message that the next `n` ticks look at. -/
def readsOf (n : ℕ) (d : MorseTrigData) : List ℕ := (outputs next reads n d).flatten

/-! ## What a message looks like -/

/-- The dits (`false`) and dahs of a code. -/
def elements (code : ℕ) : List Bool := if code ≤ 1 then [] else (code % 2 == 1) :: elements (code / 2)
termination_by code

def blink (dah : Bool) : Phase := ⟨true, if dah then morseDahLen else morseDitLen⟩

def blinks (code : ℕ) : List Phase := ((elements code).map blink).intersperse ⟨false, morseDitLen⟩

/-- A character behind a gap. An unsupported one is a gap of its own. -/
def charPhases (gap : ℕ) (c : UInt8) : List Phase :=
  if tomorse c = 0 then [⟨false, morseSpaceLen⟩] else ⟨false, gap⟩ :: blinks (tomorse c)

/-- The text once, with the gap before its first letter. -/
def textPhases (gap : ℕ) : List UInt8 → List Phase
  | [] => [⟨false, morseSpaceLen⟩]
  | c :: cs => charPhases gap c ++ cs.flatMap (charPhases morseDahLen)

/-- The first `n` phases of a text that is repeated for ever. -/
def messagePhases (n : ℕ) (text : List UInt8) : List Phase :=
  cyclic (textPhases morseDahLen text) (textPhases morseSpaceLen text) n

/-- The text of a message ends before the first NUL. -/
def textOf (buf : List UInt8) : List UInt8 := buf.takeWhile (· ≠ 0)

/-- The characters that follow the first byte, whatever that is. -/
def textBehindFirst (buf : List UInt8) : List UInt8 := textOf (buf.drop 1)

/-! ## Codes -/

theorem tomorse_nul : tomorse 0 = 0 := rfl

/-- A code has at least one element. -/
theorem one_lt_tomorse {c : UInt8} (h : tomorse c ≠ 0) : 1 < tomorse c := by
  have htable : ∀ code ∈ morsetable, code ≠ 1 := by decide
  have hget : ∀ i, morsetable.getD i 0 ≠ 1 := by
    intro i
    rw [List.getD_eq_getElem?_getD]
    cases hi : morsetable[i]? with
    | none => simp
    | some code => exact htable code (List.mem_of_getElem? hi)
  have hone : tomorse c ≠ 1 := by
    rw [tomorse]
    generalize (if 97 ≤ c ∧ c ≤ 122 then c - 97 + 65 else c) = upper
    split
    · exact hget _
    · exact Nat.zero_ne_one
  omega

theorem blinks_last {code : ℕ} (hcode : 1 < code) (hrest : code / 2 ≤ 1) : blinks code = [blink (code % 2 == 1)] := by
  rw [blinks, elements, if_neg (by omega), elements, if_pos hrest]
  rfl

theorem blinks_more {code : ℕ} (hcode : 1 < code) (hrest : 1 < code / 2) :
    blinks code = blink (code % 2 == 1) :: ⟨false, morseDitLen⟩ :: blinks (code / 2) := by
  have htail : elements (code / 2) = (code / 2 % 2 == 1) :: elements (code / 2 / 2) := by
    rw [elements, if_neg (by omega)]
  rw [blinks, elements, if_neg (by omega), blinks, htail]
  rfl

theorem mem_blinks {code : ℕ} (hcode : 1 < code) : blink (code % 2 == 1) ∈ blinks code := by
  rcases Nat.lt_or_ge 1 (code / 2) with hrest | hrest
  · rw [blinks_more hcode hrest]
    exact List.mem_cons_self
  · rw [blinks_last hcode hrest]
    exact List.mem_cons_self

/-! ## Letters -/

/-- Between two letters, with the character at `pos` to look at next. -/
structure Between (msg : ℕ → UInt8) (pos : ℕ) (d : MorseTrigData) : Prop where
  msg : d.msg = some msg
  state : d.state = .stop
  morse : d.morse ≤ 1
  pos : d.msgpos.getD 0 = pos

theorem tick_start {msg : ℕ → UInt8} {d : MorseTrigData} (hmsg : d.msg = some msg) (hstate : d.state = .start) :
    morseTimerFunction d =
      ({ d with state := .stop, morse := d.morse / 2 }, ⟨some (blink (d.morse % 2 == 1)), []⟩) := by
  simp only [morseTimerFunction, hmsg, hstate, blink]
  simp

theorem tick_pause {msg : ℕ → UInt8} {d : MorseTrigData} (hmsg : d.msg = some msg) (hstate : d.state = .stop)
    (hmorse : 1 < d.morse) :
    morseTimerFunction d = ({ d with state := .start }, ⟨some ⟨false, morseDitLen⟩, []⟩) := by
  simp only [morseTimerFunction, hmsg, hstate, if_pos hmorse]

/-- The place of the next character, and the gap before it. -/
def nextPos (msg : ℕ → UInt8) (pos : ℕ) : ℕ := if msg pos = 0 then 0 else pos

def gapAt (msg : ℕ → UInt8) (pos : ℕ) : ℕ := if msg pos = 0 then morseSpaceLen else morseDahLen

theorem tick_between {msg : ℕ → UInt8} {pos : ℕ} {d : MorseTrigData} (h : Between msg pos d) :
    morseTimerFunction d =
      ({ d with
          morse := tomorse (msg (nextPos msg pos))
          state := if tomorse (msg (nextPos msg pos)) = 0 then .stop else .start
          msgpos := some (nextPos msg pos + 1) },
        ⟨some ⟨false, if tomorse (msg (nextPos msg pos)) = 0 then morseSpaceLen else gapAt msg pos⟩,
          [pos, nextPos msg pos]⟩) := by
  have hmorse : ¬1 < d.morse := Nat.not_lt.mpr h.morse
  simp only [morseTimerFunction, h.msg, h.state, if_neg hmorse, h.pos]
  rfl

theorem emits_tick {d d' : MorseTrigData} {t : Tick} (h : morseTimerFunction d = (d', t)) :
    Emits next phase d [t.phase] d' :=
  Emits.of_eq (by rw [phase, h]) (by rw [next, h])

/-- The letter at hand is blinked to its end. -/
theorem emits_letter {msg : ℕ → UInt8} {d : MorseTrigData} (hmsg : d.msg = some msg) (hstate : d.state = .start)
    (hmorse : 1 < d.morse) :
    ∃ d', Between msg (d.msgpos.getD 0) d' ∧ Emits next phase d ((blinks d.morse).map some) d' := by
  induction hm : d.morse using Nat.strong_induction_on generalizing d with
  | _ m ih =>
    subst hm
    have htick := tick_start hmsg hstate
    have hblink : Emits next phase d [some (blink (d.morse % 2 == 1))] { d with state := .stop, morse := d.morse / 2 } :=
      emits_tick htick
    rcases Nat.lt_or_ge 1 (d.morse / 2) with hrest | hrest
    · have hpause := tick_pause (d := { d with state := .stop, morse := d.morse / 2 }) hmsg rfl hrest
      have hgap : Emits next phase { d with state := .stop, morse := d.morse / 2 } [some ⟨false, morseDitLen⟩]
          { d with state := .start, morse := d.morse / 2 } :=
        emits_tick hpause
      obtain ⟨d', hbetween, hletter⟩ := ih (d.morse / 2) (by omega)
        (d := { d with state := .start, morse := d.morse / 2 }) hmsg rfl hrest rfl
      refine ⟨d', hbetween, ?_⟩
      rw [blinks_more hmorse hrest]
      exact hblink.trans (hgap.trans hletter)
    · refine ⟨{ d with state := .stop, morse := d.morse / 2 }, ⟨hmsg, rfl, hrest, rfl⟩, ?_⟩
      rw [blinks_last hmorse hrest]
      exact hblink

/-- The next character, with its gap. -/
theorem Between.emits_char {msg : ℕ → UInt8} {pos : ℕ} {d : MorseTrigData} (h : Between msg pos d) :
    ∃ d', Between msg (nextPos msg pos + 1) d' ∧
      Emits next phase d ((charPhases (gapAt msg pos) (msg (nextPos msg pos))).map some) d' := by
  have htick := tick_between h
  by_cases hcode : tomorse (msg (nextPos msg pos)) = 0
  · simp only [hcode, if_true] at htick
    rw [charPhases, if_pos hcode]
    exact ⟨{ d with morse := 0, state := .stop, msgpos := some (nextPos msg pos + 1) },
      ⟨h.msg, rfl, Nat.zero_le 1, rfl⟩, emits_tick htick⟩
  · simp only [if_neg hcode] at htick
    rw [charPhases, if_neg hcode]
    obtain ⟨d', hbetween, hletter⟩ := emits_letter (d := { d with
        morse := tomorse (msg (nextPos msg pos))
        state := .start
        msgpos := some (nextPos msg pos + 1) }) h.msg rfl (one_lt_tomorse hcode)
    exact ⟨d', hbetween, (emits_tick htick).trans hletter⟩

/-- The rest of a letter is blinked before anything else. -/
theorem reaches_between {msg : ℕ → UInt8} {d : MorseTrigData} (hmsg : d.msg = some msg) (hstate : d.state = .stop) :
    ∃ l d', Between msg (d.msgpos.getD 0) d' ∧ Emits next phase d l d' := by
  rcases Nat.lt_or_ge 1 d.morse with hmorse | hmorse
  · have hpause := tick_pause hmsg hstate hmorse
    have hgap : Emits next phase d [some ⟨false, morseDitLen⟩] { d with state := .start } :=
      emits_tick hpause
    obtain ⟨d', hbetween, hletter⟩ := emits_letter (d := { d with state := .start }) hmsg rfl hmorse
    exact ⟨_, d', hbetween, hgap.trans hletter⟩
  · exact ⟨[], d, ⟨hmsg, hstate, hmorse, rfl⟩, Emits.done d⟩

/-! ## Texts -/

/-- The text at `pos`, with a NUL behind it. -/
def Spells (msg : ℕ → UInt8) : ℕ → List UInt8 → Prop
  | pos, [] => msg pos = 0
  | pos, c :: cs => msg pos = c ∧ c ≠ 0 ∧ Spells msg (pos + 1) cs

theorem spells_textOf {msg : ℕ → UInt8} {pos : ℕ} {buf : List UInt8}
    (hbuf : ∀ i (hi : i < buf.length), msg (pos + i) = buf[i]) (hend : msg (pos + buf.length) = 0) :
    Spells msg pos (textOf buf) := by
  induction buf generalizing pos with
  | nil => exact hend
  | cons c cs ih =>
    have hhead : msg pos = c := hbuf 0 (Nat.succ_pos _)
    by_cases hc : c = 0
    · subst hc
      exact hhead
    · have htext : textOf (c :: cs) = c :: textOf cs := by simp [textOf, hc]
      rw [htext]
      refine ⟨hhead, hc, ih (fun i hi => ?_) ?_⟩
      · have hcell := hbuf (i + 1) (Nat.succ_lt_succ hi)
        rw [← Nat.add_assoc, Nat.add_right_comm] at hcell
        exact hcell
      · rw [List.length_cons, ← Nat.add_assoc, Nat.add_right_comm] at hend
        exact hend

theorem Between.emits_text {msg : ℕ → UInt8} {pos : ℕ} {d : MorseTrigData} {text : List UInt8}
    (h : Between msg pos d) (htext : Spells msg pos text) :
    ∃ d', Between msg (pos + text.length) d' ∧
      Emits next phase d ((text.flatMap (charPhases morseDahLen)).map some) d' := by
  induction text generalizing pos d with
  | nil => exact ⟨d, h, Emits.done d⟩
  | cons c cs ih =>
    obtain ⟨hhead, hc, hrest⟩ := htext
    have hne : msg pos ≠ 0 := hhead ▸ hc
    have hpos : nextPos msg pos = pos := if_neg hne
    have hgap : gapAt msg pos = morseDahLen := if_neg hne
    obtain ⟨d₁, hbetween, hchar⟩ := h.emits_char
    rw [hpos, hgap, hhead] at hchar
    rw [hpos] at hbetween
    obtain ⟨d', hlast, hrest⟩ := ih hbetween hrest
    refine ⟨d', ?_, ?_⟩
    · rw [List.length_cons, Nat.add_comm cs.length, ← Nat.add_assoc]
      exact hlast
    · rw [List.flatMap_cons, List.map_append]
      exact hchar.trans hrest

theorem Spells.nul {msg : ℕ → UInt8} {pos : ℕ} {text : List UInt8} (h : Spells msg pos text) :
    msg (pos + text.length) = 0 := by
  induction text generalizing pos with
  | nil => exact h
  | cons c cs ih =>
    rw [List.length_cons, Nat.add_comm cs.length, ← Nat.add_assoc]
    exact ih h.2.2

/-! ## Behind a store -/

section Stored
variable (buf : List UInt8) (m : ℕ → UInt8) (d : MorseTrigData)

/-- The memory of the new message. -/
def messageMem : ℕ → UInt8 := store (store m 0 buf) buf.length [0]

theorem messageMem_getElem {i : ℕ} (hi : i < buf.length) : messageMem buf m i = buf[i] := by
  rw [messageMem, store_outside _ (Or.inl hi)]
  simpa using store_inside m 0 hi

theorem messageMem_end : messageMem buf m buf.length = 0 := by
  have hone : 0 < [(0 : UInt8)].length := Nat.one_pos
  exact store_inside (store m 0 buf) buf.length hone

theorem spells_message : Spells (messageMem buf m) 0 (textOf buf) := by
  apply spells_textOf
  · intro i hi
    rw [Nat.zero_add]
    exact messageMem_getElem buf m hi
  · rw [Nat.zero_add]
    exact messageMem_end buf m

theorem spells_behindFirst (hne : buf ≠ []) : Spells (messageMem buf m) 1 (textBehindFirst buf) := by
  have hpos : 1 ≤ buf.length := List.length_pos_of_ne_nil hne
  have hlen : (buf.drop 1).length = buf.length - 1 := List.length_drop
  apply spells_textOf
  · intro i hi
    rw [messageMem_getElem buf m (by omega), List.getElem_drop]
  · have hend : 1 + (buf.drop 1).length = buf.length := by omega
    rw [hend]
    exact messageMem_end buf m

theorem store_between (hmorse : d.morse ≤ 1) : Between (messageMem buf m) 0 (morseMsgStore buf (some m) d) :=
  ⟨rfl, rfl, hmorse, rfl⟩

theorem stored_reaches :
    ∃ l d', Between (messageMem buf m) 0 d' ∧ Emits next phase (morseMsgStore buf (some m) d) l d' :=
  reaches_between (d := morseMsgStore buf (some m) d) rfl rfl

end Stored

/-! ## What is read -/

/-- The trigger goes no further than the first NUL behind the first byte. -/
structure Within (msg : ℕ → UInt8) (last : ℕ) (d : MorseTrigData) : Prop where
  msg : d.msg = some msg
  pos : d.msgpos.getD 0 ≤ last

theorem Within.step {msg : ℕ → UInt8} {last : ℕ} (hpos : 1 ≤ last) (hlast : msg last = 0) {d : MorseTrigData}
    (h : Within msg last d) : Within msg last (next d) ∧ ∀ i ∈ reads d, i ≤ last := by
  cases hstate : d.state with
  | start =>
    have htick := tick_start h.msg hstate
    rw [next, reads, htick]
    exact ⟨⟨h.msg, h.pos⟩, by simp⟩
  | stop =>
    rcases Nat.lt_or_ge 1 d.morse with hmorse | hmorse
    · have htick := tick_pause h.msg hstate hmorse
      rw [next, reads, htick]
      exact ⟨⟨h.msg, h.pos⟩, by simp⟩
    · have hle := h.pos
      have hbetween : Between msg (d.msgpos.getD 0) d := ⟨h.msg, hstate, hmorse, rfl⟩
      have htick := tick_between hbetween
      have hnext : nextPos msg (d.msgpos.getD 0) + 1 ≤ last := by
        rw [nextPos]
        split
        · exact hpos
        · rename_i hne
          have hother : d.msgpos.getD 0 ≠ last := fun heq => hne (heq ▸ hlast)
          omega
      rw [next, reads, htick]
      refine ⟨⟨h.msg, hnext⟩, ?_⟩
      simp only [List.mem_cons, List.not_mem_nil, or_false]
      rintro i (rfl | rfl)
      · exact hle
      · exact Nat.le_of_succ_le hnext

theorem mem_readsOf {n i : ℕ} {d : MorseTrigData} : i ∈ readsOf n d ↔ ∃ k < n, i ∈ reads (next^[k] d) := by
  rw [readsOf, List.mem_flatten]
  constructor
  · rintro ⟨l, hl, hi⟩
    obtain ⟨k, hk, rfl⟩ := mem_outputs.mp hl
    exact ⟨k, hk, hi⟩
  · rintro ⟨k, hk, hi⟩
    exact ⟨_, mem_outputs.mpr ⟨k, hk, rfl⟩, hi⟩

theorem Within.reads_le {msg : ℕ → UInt8} {last : ℕ} (hpos : 1 ≤ last) (hlast : msg last = 0) {d : MorseTrigData}
    (h : Within msg last d) {n i : ℕ} (hi : i ∈ readsOf n d) : i ≤ last := by
  obtain ⟨k, -, hi⟩ := mem_readsOf.mp hi
  have hwithin : Within msg last (next^[k] d) := by
    clear hi
    induction k with
    | zero => exact h
    | succ k ih =>
      rw [Function.iterate_succ_apply']
      exact (ih.step hpos hlast).1
  exact (hwithin.step hpos hlast).2 i hi

theorem Between.reads {msg : ℕ → UInt8} {pos : ℕ} {d : MorseTrigData} (h : Between msg pos d) :
    pos ∈ Morse.reads d := by
  rw [Morse.reads, tick_between h]
  exact List.mem_cons_self

theorem read_of_emits {msg : ℕ → UInt8} {pos : ℕ} {d d' : MorseTrigData} {l : List (Option Phase)}
    (hemits : Emits next phase d l d') (h : Between msg pos d') : pos ∈ readsOf (l.length + 1) d := by
  rw [mem_readsOf]
  refine ⟨l.length, Nat.lt_succ_self _, ?_⟩
  rw [hemits.iterate]
  exact h.reads

/-- Behind the first byte, the text up to the next NUL. -/
theorem stored_emits_behindFirst {buf : List UInt8} (m : ℕ → UInt8) {d : MorseTrigData} (hne : buf ≠ [])
    (h : Between (messageMem buf m) 0 d) :
    ∃ d', Between (messageMem buf m) (1 + (textBehindFirst buf).length) d' ∧
      Emits next phase d ((charPhases (gapAt (messageMem buf m) 0) (messageMem buf m 0) ++
        (textBehindFirst buf).flatMap (charPhases morseDahLen)).map some) d' := by
  have hzero : nextPos (messageMem buf m) 0 = 0 := ite_self 0
  obtain ⟨d₁, hfirst, hchar⟩ := h.emits_char
  rw [hzero] at hchar hfirst
  obtain ⟨d', hlast, htext⟩ := hfirst.emits_text (spells_behindFirst buf m hne)
  rw [List.map_append]
  exact ⟨d', hlast, hchar.trans htext⟩

theorem length_textOf_lt {l : List UInt8} : (textOf l).length < l.length ↔ 0 ∈ l := by
  induction l with
  | nil => simp
  | cons c cs ih =>
    by_cases hc : c = 0
    · simp [textOf, hc]
    · have htext : textOf (c :: cs) = c :: textOf cs := by simp [textOf, hc]
      rw [htext, List.length_cons, List.length_cons, Nat.add_lt_add_iff_right, ih, List.mem_cons]
      simp [Ne.symm hc]

/-- The ticks stay inside the buffer when it has a NUL of its own behind the first byte. -/
theorem stored_reads_inside (buf : List UInt8) (m : ℕ → UInt8) (d : MorseTrigData) :
    (∀ n, ∀ i ∈ readsOf n (morseMsgStore buf (some m) d), i < buf.length) ↔ 0 ∈ buf.drop 1 := by
  obtain ⟨l, d₁, hbetween, hemits⟩ := stored_reaches buf m d
  rcases eq_or_ne buf [] with rfl | hne
  · constructor
    · intro h
      exact absurd (h _ 0 (read_of_emits hemits hbetween)) (Nat.not_lt_zero 0)
    · intro h
      cases h
  · have hlen : (buf.drop 1).length = buf.length - 1 := List.length_drop
    have hpos : 1 ≤ buf.length := List.length_pos_of_ne_nil hne
    have hlt : 1 + (textBehindFirst buf).length < buf.length ↔ 0 ∈ buf.drop 1 := by
      rw [← length_textOf_lt, hlen, textBehindFirst]
      omega
    rw [← hlt]
    constructor
    · intro h
      obtain ⟨d₂, hlast, htext⟩ := stored_emits_behindFirst m hne hbetween
      exact h _ _ (read_of_emits (hemits.trans htext) hlast)
    · intro h n i hi
      have hwithin : Within (messageMem buf m) (1 + (textBehindFirst buf).length) (morseMsgStore buf (some m) d) :=
        ⟨rfl, Nat.zero_le _⟩
      exact Nat.lt_of_le_of_lt
        (hwithin.reads_le (Nat.le_add_right 1 _) (spells_behindFirst buf m hne).nul hi) h

/-! ## What is blinked -/

theorem textPhases_ne_nil (gap : ℕ) (text : List UInt8) : textPhases gap text ≠ [] := by
  cases text with
  | nil => simp [textPhases]
  | cons c cs =>
    rw [textPhases, charPhases]
    split <;> simp

/-- Behind a text that is not empty, it comes again. -/
theorem Between.emits_again {msg : ℕ → UInt8} {pos : ℕ} {d : MorseTrigData} {text : List UInt8}
    (h : Between msg pos d) (hend : msg pos = 0) (hne : text ≠ []) (htext : Spells msg 0 text) :
    ∃ d', Between msg text.length d' ∧ Emits next phase d ((textPhases morseSpaceLen text).map some) d' := by
  cases text with
  | nil => exact absurd rfl hne
  | cons c cs =>
    obtain ⟨hhead, -, hrest⟩ := htext
    have hpos : nextPos msg pos = 0 := if_pos hend
    have hgap : gapAt msg pos = morseSpaceLen := if_pos hend
    obtain ⟨d₁, hfirst, hchar⟩ := h.emits_char
    rw [hpos] at hfirst
    rw [hpos, hgap, hhead] at hchar
    obtain ⟨d', hlast, hemits⟩ := hfirst.emits_text hrest
    refine ⟨d', ?_, ?_⟩
    · rw [List.length_cons, Nat.add_comm]
      rw [Nat.zero_add] at hlast
      exact hlast
    · rw [textPhases, List.map_append]
      exact hchar.trans hemits

theorem stored_phases_text (buf : List UInt8) (m : ℕ → UInt8) {d : MorseTrigData} (hmorse : d.morse ≤ 1)
    (hne : textOf buf ≠ []) (n : ℕ) :
    phases n (morseMsgStore buf (some m) d) = (messagePhases n (textOf buf)).map some := by
  have hspells := spells_message buf m
  have hend : messageMem buf m (textOf buf).length = 0 := by simpa using hspells.nul
  obtain ⟨d', hlast, hemits⟩ := (store_between buf m d hmorse).emits_text hspells
  rw [Nat.zero_add] at hlast
  have hfirst : (textOf buf).flatMap (charPhases morseDahLen) = textPhases morseDahLen (textOf buf) := by
    cases htext : textOf buf with
    | nil => exact absurd htext hne
    | cons c cs => rfl
  rw [hfirst] at hemits
  rw [phases, messagePhases, map_cyclic]
  exact outputs_of_cycle (fun d₁ h => h.emits_again hend hne hspells) (by simpa using textPhases_ne_nil _ _) hemits
    hlast n

/-- The phases of an empty text: the LED stays off. -/
theorem messagePhases_nil (n : ℕ) : messagePhases n [] = List.replicate n ⟨false, morseSpaceLen⟩ :=
  cyclic_of_forall_eq (by simp [textPhases]) (by simp [textPhases]) (by simp [textPhases]) n

theorem charPhases_unsupported {gap : ℕ} {c : UInt8} (h : tomorse c = 0) :
    charPhases gap c = [⟨false, morseSpaceLen⟩] := if_pos h

theorem flatMap_unsupported {text : List UInt8} (h : ∀ c ∈ text, tomorse c = 0) :
    ∀ y ∈ text.flatMap (charPhases morseDahLen), y = ⟨false, morseSpaceLen⟩ := by
  intro y hy
  obtain ⟨c, hc, hyc⟩ := List.mem_flatMap.mp hy
  rw [charPhases_unsupported (h c hc)] at hyc
  exact List.mem_singleton.mp hyc

/-- A message that begins with a NUL and goes on with unsupported characters only. -/
theorem stored_phases_silent {buf : List UInt8} (m : ℕ → UInt8) {d : MorseTrigData} (hmorse : d.morse ≤ 1)
    (hempty : textOf buf = []) (hne : buf ≠ []) (hrest : ∀ c ∈ textBehindFirst buf, tomorse c = 0) (n : ℕ) :
    phases n (morseMsgStore buf (some m) d) = (messagePhases n (textOf buf)).map some := by
  have hnul : messageMem buf m 0 = 0 := by
    have hspells := spells_message buf m
    rw [hempty] at hspells
    exact hspells
  have hcycle : ∀ pos d₁, messageMem buf m pos = 0 → Between (messageMem buf m) pos d₁ →
      ∃ d₂, Between (messageMem buf m) (1 + (textBehindFirst buf).length) d₂ ∧ Emits next phase d₁
        ((⟨false, morseSpaceLen⟩ :: (textBehindFirst buf).flatMap (charPhases morseDahLen)).map some) d₂ := by
    intro pos d₁ hpos h
    have hnext : nextPos (messageMem buf m) pos = 0 := if_pos hpos
    obtain ⟨d₂, hfirst, hchar⟩ := h.emits_char
    rw [hnext, hnul, charPhases_unsupported tomorse_nul] at hchar
    rw [hnext] at hfirst
    obtain ⟨d₃, hlast, hemits⟩ := hfirst.emits_text (spells_behindFirst buf m hne)
    exact ⟨d₃, hlast, hchar.trans hemits⟩
  have hend := (spells_behindFirst buf m hne).nul
  obtain ⟨d₁, hlast, hemits⟩ := hcycle 0 _ hnul (store_between buf m d hmorse)
  have hquiet : ∀ y ∈ (⟨false, morseSpaceLen⟩ :: (textBehindFirst buf).flatMap (charPhases morseDahLen) : List Phase),
      y = ⟨false, morseSpaceLen⟩ := by
    intro y hy
    rcases List.mem_cons.mp hy with rfl | hy
    · rfl
    · exact flatMap_unsupported hrest y hy
  rw [phases, outputs_of_cycle (fun d₁ h => hcycle _ d₁ hend h) (by simp) hemits hlast n, ← map_cyclic,
    cyclic_of_forall_eq (by simp) hquiet hquiet, hempty, messagePhases_nil]

theorem quiet_of_phases {d d' : MorseTrigData} {l : List (Option Phase)} (hemits : Emits next phase d l d')
    (hquiet : ∀ n, phases n d = (List.replicate n ⟨false, morseSpaceLen⟩).map some) :
    ∀ x ∈ l, x = some ⟨false, morseSpaceLen⟩ := by
  intro x hx
  have hall := hquiet l.length
  rw [phases, hemits.outputs_eq, List.map_replicate] at hall
  rw [hall] at hx
  exact List.eq_of_mem_replicate hx

theorem unsupported_of_quiet {gap : ℕ} {c : UInt8}
    (h : ∀ x ∈ (charPhases gap c).map some, x = some ⟨false, morseSpaceLen⟩) : tomorse c = 0 := by
  by_contra hcode
  have hblink : blink (tomorse c % 2 == 1) ∈ charPhases gap c := by
    rw [charPhases, if_neg hcode]
    exact List.mem_cons_of_mem _ (mem_blinks (one_lt_tomorse hcode))
  have hon := Option.some.inj (h _ (List.mem_map_of_mem hblink))
  exact Bool.noConfusion (congrArg Phase.on hon)

/-- A store in the middle of a letter: the pause inside the letter comes first. -/
theorem morse_of_phases {buf : List UInt8} {m : ℕ → UInt8} {d : MorseTrigData}
    (h : phases 1 (morseMsgStore buf (some m) d) = (messagePhases 1 (textOf buf)).map some) : d.morse ≤ 1 := by
  by_contra hmorse
  have hpause := tick_pause (d := morseMsgStore buf (some m) d) rfl rfl (Nat.lt_of_not_le hmorse)
  rw [phases, outputs, outputs, phase, hpause] at h
  have hhead : ∃ gap l, gap ≠ morseDitLen ∧ textPhases morseDahLen (textOf buf) = ⟨false, gap⟩ :: l := by
    cases textOf buf with
    | nil => exact ⟨morseSpaceLen, [], by decide, rfl⟩
    | cons c cs =>
      rw [textPhases, charPhases]
      split
      · exact ⟨morseSpaceLen, _, by decide, rfl⟩
      · exact ⟨morseDahLen, _, by decide, rfl⟩
  obtain ⟨gap, l, hgap, htext⟩ := hhead
  rw [messagePhases, cyclic, htext, List.cons_append, List.take_succ_cons, List.map_cons] at h
  have hphase := Option.some.inj (List.cons.inj h).1
  exact hgap (congrArg Phase.units hphase).symm

/-- A message whose text is empty has to keep quiet behind its first byte too. -/
theorem silent_of_phases {buf : List UInt8} {d : MorseTrigData} (hmorse : d.morse ≤ 1) (hempty : textOf buf = [])
    (h : ∀ m n, phases n (morseMsgStore buf (some m) d) = (messagePhases n (textOf buf)).map some) :
    buf ≠ [] ∧ ∀ c ∈ textBehindFirst buf, tomorse c = 0 := by
  have hquiet : ∀ m n, phases n (morseMsgStore buf (some m) d) =
      (List.replicate n ⟨false, morseSpaceLen⟩).map some := by
    intro m n
    rw [h, hempty, messagePhases_nil]
  have hne : buf ≠ [] := by
    rintro rfl
    -- the memory behind the buffer may hold a letter
    obtain ⟨d₁, hbetween, hnul⟩ := (store_between [] (fun _ => 69) d hmorse).emits_char
    obtain ⟨d₂, -, hchar⟩ := hbetween.emits_char
    have hall := quiet_of_phases (hnul.trans hchar) (hquiet fun _ => 69)
    have hcode := unsupported_of_quiet fun x hx => hall x (List.mem_append_right _ hx)
    revert hcode
    decide
  refine ⟨hne, fun c hc => ?_⟩
  obtain ⟨d₁, -, hemits⟩ := stored_emits_behindFirst (fun _ => 0) hne (store_between buf (fun _ => 0) d hmorse)
  have hall := quiet_of_phases hemits (hquiet fun _ => 0)
  refine @unsupported_of_quiet morseDahLen c fun x hx => hall x ?_
  obtain ⟨y, hy, rfl⟩ := List.mem_map.mp hx
  exact List.mem_map_of_mem (List.mem_append_right _ (List.mem_flatMap.mpr ⟨c, hc, hy⟩))

/-- After every run: a store changes a byte behind its buffer; the ticks stay inside if the message has a NUL
behind its first byte; and the message is sent if no letter was at hand, and the text is not empty or what
follows the first NUL is silent. -/
theorem morse_message_sent (ops : List Op) (buf : List UInt8) :
    ¬(∀ m msg, (step (afterOps ops) (.store buf (some m))).msg = some msg → ∀ i, buf.length ≤ i → msg i = m i) ∧
    (∀ m, (∀ n, ∀ i ∈ readsOf n (step (afterOps ops) (.store buf (some m))), i < buf.length) ↔ 0 ∈ buf.drop 1) ∧
    ((∀ m n, phases n (step (afterOps ops) (.store buf (some m))) = (messagePhases n (textOf buf)).map some) ↔
      (afterOps ops).morse ≤ 1 ∧
        (textOf buf ≠ [] ∨ buf ≠ [] ∧ ∀ c ∈ textBehindFirst buf, tomorse c = 0)) := by
  refine ⟨fun h => ?_, fun m => stored_reads_inside buf m (afterOps ops), ?_⟩
  · have hlast := h (fun _ => 1) (messageMem buf fun _ => 1) rfl buf.length (Nat.le_refl _)
    rw [messageMem_end] at hlast
    revert hlast
    decide
  · constructor
    · intro h
      have hmorse : (afterOps ops).morse ≤ 1 := morse_of_phases (h (fun _ => 0) 1)
      refine ⟨hmorse, ?_⟩
      by_cases hempty : textOf buf = []
      · exact Or.inr (silent_of_phases hmorse hempty h)
      · exact Or.inl hempty
    · rintro ⟨hmorse, hwhen⟩ m n
      by_cases hempty : textOf buf = []
      · obtain ⟨hne, hrest⟩ := hwhen.resolve_left (fun hne => hne hempty)
        exact stored_phases_silent m hmorse hempty hne hrest n
      · exact stored_phases_text buf m hmorse hempty n

/-- An `E` is one byte, and the third tick looks at the second; an `E` stored behind the dit of an `A` waits for
the dah; and an empty message plays what lies behind it. -/
theorem morse_message_spoilt :
    1 ∈ readsOf 3 (afterOps [.store [69] (some fun _ => 0)]) ∧
    phases 1 (afterOps [.store [65] (some fun _ => 0), .tick, .tick, .store [69] (some fun _ => 0)]) ≠
      (messagePhases 1 (textOf [69])).map some ∧
    phases 3 (afterOps [.store [] (some fun _ => 69)]) ≠ (messagePhases 3 (textOf [])).map some := by
  decide

end Neufbox.Leds.Morse
