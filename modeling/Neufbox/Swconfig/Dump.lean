import Mathlib.Tactic

/-! # Dumps of the registered switches

`swconfig_dump_switches` goes over the list from its head in every batch and skips the switches that its
counter covers. The counter is raised before a switch is sent, so it also covers the switch that did not fit
into a message, and the batches behind that message leave this switch out. -/
namespace Neufbox.Swconfig
set_option autoImplicit false
set_option maxHeartbeats 250000
set_option maxRecDepth 120000

/-! ## The dump -/

/-- What is sent of a `struct switch_dev`. The strings are without their terminators. -/
structure SwitchInfo where
  id : BitVec 32
  name : List UInt8
  devname : List UInt8
  vlans : BitVec 32
  ports : BitVec 32
  deriving DecidableEq, Repr

/-- The netlink and the generic netlink header. -/
def genlHeaderLen : ℕ := 20

/-- The room that an attribute takes: its header and its data, up to a multiple of four bytes. -/
def nlaTotalSize (len : ℕ) : ℕ := (4 + len + 3) / 4 * 4

/-- Room is taken from the message, or the room does not suffice. -/
def take (len room : ℕ) : Option ℕ := if room < len then none else some (room - len)

/-- The sizes of what `swconfig_send_switch` puts into a message, one after the other. -/
def switchParts (dev : SwitchInfo) : List ℕ :=
  [genlHeaderLen, nlaTotalSize 4, nlaTotalSize (dev.name.length + 1), nlaTotalSize (dev.devname.length + 1),
    nlaTotalSize 4, nlaTotalSize 4]

/-- The room that is left, or `none` when a part did not fit and the message was taken back. -/
def sendSwitch (room : ℕ) (dev : SwitchInfo) : Option ℕ :=
  (switchParts dev).foldlM (fun room len => take len room) room

/-- The loop over the switches: what it sends, and the counter behind it. -/
def dumpSwitchesLoop (start : ℕ) : ℕ → ℕ → List SwitchInfo → List SwitchInfo × ℕ
  | idx, _, [] => ([], idx)
  | idx, room, dev :: devs =>
    if idx + 1 ≤ start then dumpSwitchesLoop start (idx + 1) room devs
    else
      match sendSwitch room dev with
      | none => ([], idx + 1)
      | some room =>
        let r := dumpSwitchesLoop start (idx + 1) room devs
        (dev :: r.1, r.2)

/-- A call with the counter `cb->args[0]`. -/
def dumpSwitches (room : ℕ) (swdevs : List SwitchInfo) (start : ℕ) : List SwitchInfo × ℕ :=
  dumpSwitchesLoop start 0 room swdevs

/-- The calls of a dump, one after the other with the same callback. -/
def switchCalls (swdevs : List SwitchInfo) (rooms : ℕ → ℕ) : ℕ → List SwitchInfo × ℕ
  | 0 => dumpSwitches (rooms 0) swdevs 0
  | n + 1 => dumpSwitches (rooms (n + 1)) swdevs (switchCalls swdevs rooms n).2

/-- The first call that adds nothing comes behind calls that reported every switch once, in the order of the
list. -/
def DumpsAllSwitches (swdevs : List SwitchInfo) (rooms : ℕ → ℕ) : Prop :=
  ∃ n, (∀ k < n, (switchCalls swdevs rooms k).1 ≠ []) ∧ (switchCalls swdevs rooms n).1 = [] ∧
    (List.range n).flatMap (fun k => (switchCalls swdevs rooms k).1) = swdevs

/-! ## One batch -/

def switchLen (dev : SwitchInfo) : ℕ := (switchParts dev).sum

theorem take_all (lens : List ℕ) (room : ℕ) :
    lens.foldlM (fun room len => take len room) room =
      if room < lens.sum then none else some (room - lens.sum) := by
  induction lens generalizing room with
  | nil => simp
  | cons len lens ih =>
    rw [List.foldlM_cons, List.sum_cons, take]
    by_cases hlen : room < len
    · rw [if_pos hlen, if_pos (by omega)]
      rfl
    · simp only [if_neg hlen, Option.bind_eq_bind, Option.bind_some, ih]
      by_cases hrest : room - len < lens.sum
      · rw [if_pos hrest, if_pos (by omega)]
      · rw [if_neg hrest, if_neg (by omega), Nat.sub_sub]

theorem sendSwitch_eq (room : ℕ) (dev : SwitchInfo) :
    sendSwitch room dev = if room < switchLen dev then none else some (room - switchLen dev) :=
  take_all (switchParts dev) room

section Batch
variable (start : ℕ)

/-- The loop passes the switches that the counter covers. -/
theorem dumpSwitchesLoop_skip (k idx room : ℕ) (devs : List SwitchInfo) (hk : k ≤ devs.length)
    (hstart : idx + k = start) :
    dumpSwitchesLoop start idx room devs = dumpSwitchesLoop start start room (devs.drop k) := by
  induction k generalizing idx devs with
  | zero => rw [← hstart, List.drop_zero, Nat.add_zero]
  | succ k ih =>
    match devs with
    | [] => exact absurd hk (by simp)
    | dev :: devs =>
      rw [dumpSwitchesLoop, if_pos (by omega), List.drop_succ_cons]
      exact ih (idx + 1) devs (by simpa using hk) (by omega)

/-- Behind the counter, the loop sends all switches when they fit into the message. -/
theorem dumpSwitchesLoop_fits (idx room : ℕ) (devs : List SwitchInfo) (hidx : start ≤ idx)
    (hfit : (devs.map switchLen).sum ≤ room) :
    dumpSwitchesLoop start idx room devs = (devs, idx + devs.length) := by
  induction devs generalizing idx room with
  | nil => rfl
  | cons dev devs ih =>
    rw [List.map_cons, List.sum_cons] at hfit
    rw [dumpSwitchesLoop, if_neg (by omega), sendSwitch_eq, if_neg (by omega)]
    simp only [ih (idx + 1) (room - switchLen dev) (by omega) (by omega), List.length_cons]
    rw [Nat.add_assoc, Nat.add_comm 1]

/-- The counter rises by what is sent at least, and it never passes the end of the list. -/
theorem dumpSwitchesLoop_counts (idx room : ℕ) (devs : List SwitchInfo) (hidx : start ≤ idx) :
    idx + (dumpSwitchesLoop start idx room devs).1.length ≤ (dumpSwitchesLoop start idx room devs).2 ∧
      (dumpSwitchesLoop start idx room devs).2 ≤ idx + devs.length := by
  induction devs generalizing idx room with
  | nil => simp [dumpSwitchesLoop]
  | cons dev devs ih =>
    rw [dumpSwitchesLoop, if_neg (by omega), List.length_cons]
    cases sendSwitch room dev with
    | none => simp
    | some room =>
      have h := ih (idx + 1) room (by omega)
      simp only [List.length_cons]
      omega

/-- When the switches do not fit, the counter covers one that was not sent. -/
theorem dumpSwitchesLoop_loses (idx room : ℕ) (devs : List SwitchInfo) (hidx : start ≤ idx)
    (hfull : room < (devs.map switchLen).sum) :
    idx + (dumpSwitchesLoop start idx room devs).1.length < (dumpSwitchesLoop start idx room devs).2 := by
  induction devs generalizing idx room with
  | nil => simp at hfull
  | cons dev devs ih =>
    rw [List.map_cons, List.sum_cons] at hfull
    rw [dumpSwitchesLoop, if_neg (by omega), sendSwitch_eq]
    by_cases hdev : room < switchLen dev
    · simp [hdev]
    · have h := ih (idx + 1) (room - switchLen dev) (by omega) (by omega)
      simp only [if_neg hdev, List.length_cons]
      omega

end Batch

/-! ## Whole dumps -/

section Dump
variable (swdevs : List SwitchInfo) (rooms : ℕ → ℕ)

/-- A call whose counter is inside the list goes on behind it. -/
theorem dumpSwitches_eq (room start : ℕ) (hstart : start ≤ swdevs.length) :
    dumpSwitches room swdevs start = dumpSwitchesLoop start start room (swdevs.drop start) :=
  dumpSwitchesLoop_skip start start 0 room swdevs hstart (Nat.zero_add start)

theorem dumpSwitches_counts (room start : ℕ) (hstart : start ≤ swdevs.length) :
    start + (dumpSwitches room swdevs start).1.length ≤ (dumpSwitches room swdevs start).2 ∧
      (dumpSwitches room swdevs start).2 ≤ swdevs.length := by
  rw [dumpSwitches_eq swdevs room start hstart]
  have h := dumpSwitchesLoop_counts start start room (swdevs.drop start) (le_refl start)
  rw [List.length_drop] at h
  omega

theorem switchCalls_le (n : ℕ) : (switchCalls swdevs rooms n).2 ≤ swdevs.length := by
  induction n with
  | zero => exact (dumpSwitches_counts swdevs _ 0 (Nat.zero_le _)).2
  | succ n ih => exact (dumpSwitches_counts swdevs _ _ ih).2

variable {swdevs rooms}

/-- A switch that the first message loses is not made up for by the later ones. -/
theorem switchCalls_loses (hfull : rooms 0 < (swdevs.map switchLen).sum) (n : ℕ) :
    ((List.range (n + 1)).flatMap fun k => (switchCalls swdevs rooms k).1).length <
      (switchCalls swdevs rooms n).2 := by
  induction n with
  | zero =>
    have h := dumpSwitchesLoop_loses 0 0 (rooms 0) swdevs (le_refl 0) hfull
    simpa [switchCalls, dumpSwitches] using h
  | succ n ih =>
    have h := dumpSwitches_counts swdevs (rooms (n + 1)) _ (switchCalls_le swdevs rooms n)
    rw [List.range_succ, List.flatMap_append, List.length_append, List.flatMap_singleton, switchCalls]
    omega

theorem not_dumpsAllSwitches (hfull : rooms 0 < (swdevs.map switchLen).sum) : ¬ DumpsAllSwitches swdevs rooms := by
  rintro ⟨n, -, -, hall⟩
  cases n with
  | zero =>
    rw [List.range_zero, List.flatMap_nil] at hall
    simp [← hall] at hfull
  | succ n =>
    have hless := switchCalls_loses hfull n
    have hle := switchCalls_le swdevs rooms n
    rw [hall] at hless
    omega

/-- A dump reports every switch once exactly when all of them fit into its first message. -/
theorem swconfig_dump_switches_complete_iff (hrooms : ∀ k, ∀ dev ∈ swdevs, switchLen dev ≤ rooms k) :
    DumpsAllSwitches swdevs rooms ↔ (swdevs.map switchLen).sum ≤ rooms 0 := by
  constructor
  · intro h
    by_contra hfull
    exact not_dumpsAllSwitches (by omega) h
  · intro hfit
    have hzero : switchCalls swdevs rooms 0 = (swdevs, swdevs.length) := by
      have h := dumpSwitchesLoop_fits 0 0 (rooms 0) swdevs (le_refl 0) hfit
      rwa [Nat.zero_add] at h
    have hone : (switchCalls swdevs rooms 1).1 = [] := by
      rw [switchCalls, hzero, dumpSwitches_eq _ _ _ (le_refl _), List.drop_length, dumpSwitchesLoop]
    by_cases hnil : swdevs = []
    · subst hnil
      exact ⟨0, by simp, congrArg Prod.fst hzero, by simp⟩
    · refine ⟨1, ?_, hone, ?_⟩
      · intro k hk
        obtain rfl : k = 0 := by omega
        rwa [hzero]
      · rw [List.range_one, List.flatMap_singleton, hzero]

end Dump

/-- Two switches with names of three bytes. -/
def twoNamed : List SwitchInfo := [⟨0, [97, 98, 99], [101, 48, 49], 16, 6⟩, ⟨1, [97, 98, 100], [101, 49, 49], 16, 5⟩]

theorem swconfig_dump_two_named : DumpsAllSwitches twoNamed fun _ => 120 :=
  (swconfig_dump_switches_complete_iff fun _ => by decide).mpr (by decide)

theorem swconfig_dump_loses_second :
    (∀ dev ∈ twoNamed, switchLen dev ≤ 60) ∧ ¬ DumpsAllSwitches twoNamed fun _ => 60 :=
  ⟨by decide, not_dumpsAllSwitches (by decide)⟩

end Neufbox.Swconfig
