import Neufbox.Library.Bits
import Neufbox.Library.Decimal
import Neufbox.Library.Words

/-! # VLAN strings of switch-core

`switch_parse_vlan` reads port numbers with flags into three masks. Its `int` has 32 bits and wraps around, and the
count of a shift is taken modulo 32; the memory for the result is there. -/
namespace Neufbox.Switch
open Neufbox.Decimal Neufbox.Library.Bits Neufbox.Library.Words
set_option autoImplicit false
set_option maxHeartbeats 250000
set_option maxRecDepth 120000

/-! ## The parser -/

/-- `isspace` of `switch-core.c`: a blank, a tab and the two line ends. -/
def isspace (c : UInt8) : Bool := c = 32 || c = 9 || c = 10 || c = 13

structure SwitchDriver where
  cpuport : BitVec 32
  ports : ℕ

structure VlanConfig where
  port : BitVec 32
  untag : BitVec 32
  pvid : BitVec 32
  deriving DecidableEq, Repr

/-- `1 << j` -/
def bit (j : ℕ) : BitVec 32 := BitVec.twoPow 32 (j % 32)

/-- The cases of the `switch`, on `u` and `p`. -/
def flagStep (up : Bool × Bool) (b : UInt8) : Bool × Bool :=
  if b = 117 then (true, up.2)
  else if b = 116 then (false, up.2)
  else if b = 42 then (up.1, true)
  else up

def VlanConfig.add (c : VlanConfig) (j : BitVec 32) (up : Bool × Bool) : VlanConfig where
  port := c.port ||| bit j.toNat
  untag := if up.1 then c.untag ||| bit j.toNat else c.untag
  pvid := if up.2 then c.pvid ||| bit j.toNat else c.pvid

def nextDigit (j : BitVec 32) (b : UInt8) : BitVec 32 := j * 10 + BitVec.ofNat 32 (b.toNat - 48)

/-- The outer loop: the configuration and the text that is left. -/
def parseLoop (driver : SwitchDriver) : ℕ → BitVec 32 → VlanConfig → List UInt8 → VlanConfig × List UInt8
  | 0, _, c, buf => (c, buf)
  | _ + 1, _, c, [] => (c, [])
  | n + 1, j, c, b :: buf =>
    if isDigit b then
      if buf.head?.any isDigit then parseLoop driver n (nextDigit j b) c (buf.dropWhile isspace)
      else
        let up := (buf.takeWhile fun b => !isspace b).foldl flagStep (nextDigit j b ≠ driver.cpuport, false)
        parseLoop driver n 0 (c.add (nextDigit j b) up) ((buf.dropWhile fun b => !isspace b).dropWhile isspace)
    else (c, b :: buf)

def VlanConfig.mask (c : VlanConfig) (driver : SwitchDriver) : VlanConfig where
  port := c.port &&& (bit driver.ports - 1)
  untag := c.untag &&& (bit driver.ports - 1)
  pvid := c.pvid &&& (bit driver.ports - 1)

def switchParseVlan (driver : SwitchDriver) (buf : List UInt8) : Option VlanConfig :=
  let text := buf.dropWhile isspace
  let r := parseLoop driver text.length 0 ⟨0, 0, 0⟩ text
  if r.2 ≠ [] then none else some (r.1.mask driver)

/-! ## Strings of port numbers with flags -/

structure PortToken where
  digits : List UInt8
  digits_ne_nil : digits ≠ []
  isDigits : ∀ b ∈ digits, isDigit b = true
  flags : List UInt8
  flags_word : ∀ b ∈ flags, isspace b = false ∧ b ≠ 0
  flags_start : flags.head?.any isDigit = false

namespace PortToken
variable (t : PortToken)

def bytes : List UInt8 := t.digits ++ t.flags

def number : ℕ := digitsValue t.digits

/-- What the last `u` or `t` says. -/
def lastFlag : Option Bool :=
  t.flags.foldl (fun u b => if b = 117 then some true else if b = 116 then some false else u) none

def Untagged (driver : SwitchDriver) : Prop :=
  t.lastFlag = some true ∨ t.lastFlag = none ∧ (t.number : ℤ) ≠ driver.cpuport.toInt

def Starred : Prop := 42 ∈ t.flags

end PortToken

/-- The masks that the tokens ask for. -/
structure Reads (driver : SwitchDriver) (tokens : List PortToken) (c : VlanConfig) : Prop where
  port : ∀ p, c.port.getLsbD p = true ↔ p < driver.ports ∧ ∃ t ∈ tokens, t.number = p
  untag : ∀ p, c.untag.getLsbD p = true ↔ p < driver.ports ∧ ∃ t ∈ tokens, t.number = p ∧ t.Untagged driver
  pvid : ∀ p, c.pvid.getLsbD p = true ↔ p < driver.ports ∧ ∃ t ∈ tokens, t.number = p ∧ t.Starred

/-! ## What the loop makes of a token -/

def valueFrom (j : BitVec 32) (digits : List UInt8) : BitVec 32 := digits.foldl nextDigit j

theorem valueFrom_eq (digits : List UInt8) : valueFrom 0 digits = BitVec.ofNat 32 (digitsValue digits) := by
  have hfold : ∀ (v : ℕ), digits.foldl nextDigit (BitVec.ofNat 32 v) =
      BitVec.ofNat 32 (digits.foldl (fun v b => 10 * v + (b.toNat - 48)) v) := by
    induction digits with
    | nil => exact fun v => rfl
    | cons b digits ih =>
      intro v
      have hnext : nextDigit (BitVec.ofNat 32 v) b = BitVec.ofNat 32 (10 * v + (b.toNat - 48)) := by
        rw [nextDigit, BitVec.ofNat_add, BitVec.ofNat_mul, BitVec.mul_comm]
        rfl
      rw [List.foldl_cons, List.foldl_cons, hnext, ih]
  exact hfold 0

theorem isspace_of_isDigit {b : UInt8} (hb : isDigit b = true) : isspace b = false := by
  simp only [isDigit, Bool.and_eq_true, decide_eq_true_eq, UInt8.le_iff_toNat_le] at hb
  have h48 : (48 : UInt8).toNat = 48 := rfl
  rw [h48] at hb
  simp only [isspace, Bool.or_eq_false_iff, decide_eq_false_iff_not]
  refine ⟨⟨⟨?_, ?_⟩, ?_⟩, ?_⟩
  all_goals
    rintro rfl
    exact absurd hb.1 (by decide)

/-- The digits of a token, one after the other. -/
theorem parseLoop_digits (driver : SwitchDriver) (c : VlanConfig) {digits : List UInt8} (hne : digits ≠ [])
    (hdigits : ∀ b ∈ digits, isDigit b = true) {rest : List UInt8} (hrest : rest.head?.any isDigit = false)
    (j : BitVec 32) {n : ℕ} (hn : digits.length ≤ n) :
    parseLoop driver n j c (digits ++ rest) =
      parseLoop driver (n - digits.length) 0
        (c.add (valueFrom j digits) ((rest.takeWhile fun b => !isspace b).foldl flagStep
          (valueFrom j digits ≠ driver.cpuport, false)))
        ((rest.dropWhile fun b => !isspace b).dropWhile isspace) := by
  induction digits generalizing j n with
  | nil => exact absurd rfl hne
  | cons b digits ih =>
    obtain ⟨n, rfl⟩ : ∃ m, n = m + 1 := ⟨n - 1, by rw [List.length_cons] at hn; omega⟩
    have hb := hdigits b List.mem_cons_self
    rw [List.cons_append, parseLoop, if_pos hb, List.length_cons, Nat.add_sub_add_right]
    cases digits with
    | nil =>
      rw [List.nil_append, hrest, if_neg Bool.false_ne_true]
      rfl
    | cons b' digits =>
      have hb' := hdigits b' (List.mem_cons_of_mem _ List.mem_cons_self)
      have hspace : (b' :: digits ++ rest).dropWhile isspace = b' :: digits ++ rest := by
        rw [List.cons_append, List.dropWhile_cons_of_neg (by rw [isspace_of_isDigit hb']; exact Bool.false_ne_true)]
      rw [if_pos (by rw [List.cons_append, List.head?_cons, Option.any_some, hb']), hspace,
        ih (List.cons_ne_nil _ _) (fun d hd => hdigits d (List.mem_cons_of_mem _ hd)) _
          (by rw [List.length_cons] at hn; omega)]
      rfl

/-- The flags as the code sees them: the number it compares has wrapped around. -/
def PortToken.codeFlags (t : PortToken) (driver : SwitchDriver) : Bool × Bool :=
  t.flags.foldl flagStep (BitVec.ofNat 32 t.number ≠ driver.cpuport, false)

def VlanConfig.addToken (driver : SwitchDriver) (c : VlanConfig) (t : PortToken) : VlanConfig :=
  c.add (BitVec.ofNat 32 t.number) (t.codeFlags driver)

theorem flags_rest (t : PortToken) {rest : List UInt8} (hrest : ∀ b ∈ rest.head?, isspace b = true) :
    (t.flags ++ rest).takeWhile (fun b => !isspace b) = t.flags ∧
      (t.flags ++ rest).dropWhile (fun b => !isspace b) = rest ∧ (t.flags ++ rest).head?.any isDigit = false := by
  have hword : ∀ b ∈ t.flags, (!isspace b) = true := fun b hb => by rw [(t.flags_word b hb).1]; rfl
  have hplain : rest.takeWhile (fun b => !isspace b) = [] ∧ rest.dropWhile (fun b => !isspace b) = rest := by
    cases rest with
    | nil => exact ⟨rfl, rfl⟩
    | cons b rest =>
      have hb : ¬(!isspace b) = true := by
        rw [hrest b rfl]
        exact Bool.false_ne_true
      exact ⟨List.takeWhile_cons_of_neg hb, List.dropWhile_cons_of_neg hb⟩
  refine ⟨?_, ?_, ?_⟩
  · rw [List.takeWhile_append_of_pos hword, hplain.1, List.append_nil]
  · rw [List.dropWhile_append_of_pos hword, hplain.2]
  · have hstart := t.flags_start
    cases hflags : t.flags with
    | nil =>
      cases rest with
      | nil => rfl
      | cons b rest =>
        have hb := hrest b rfl
        rw [List.nil_append, List.head?_cons, Option.any_some]
        by_contra hdigit
        rw [isspace_of_isDigit (Bool.not_eq_false _ ▸ hdigit)] at hb
        cases hb
    | cons b flags =>
      rw [hflags] at hstart
      exact hstart

theorem itemsText_dropWhile (items : List (PortToken × List UInt8)) :
    (itemsText PortToken.bytes items).dropWhile isspace = itemsText PortToken.bytes items := by
  cases items with
  | nil => rfl
  | cons k items =>
    obtain ⟨b, digits, hcons⟩ := List.exists_cons_of_ne_nil k.1.digits_ne_nil
    have hb := k.1.isDigits b (hcons ▸ List.mem_cons_self)
    rw [itemsText_cons, PortToken.bytes, hcons, List.cons_append, List.cons_append,
      List.dropWhile_cons_of_neg (by rw [isspace_of_isDigit hb]; exact Bool.false_ne_true)]

theorem parseLoop_items (driver : SwitchDriver) {items : List (PortToken × List UInt8)}
    (hblank : ∀ i ∈ items, ∀ b ∈ i.2, isspace b = true) (hseparated : Separated items) (c : VlanConfig) {n : ℕ}
    (hn : (itemsText PortToken.bytes items).length ≤ n) :
    parseLoop driver n 0 c (itemsText PortToken.bytes items) =
      ((items.map Prod.fst).foldl (VlanConfig.addToken driver) c, []) := by
  induction items generalizing c n with
  | nil => cases n <;> rfl
  | cons i items ih =>
    have hi := hblank i List.mem_cons_self
    obtain ⟨htake, hdrop, hstart⟩ := flags_rest i.1 (hseparated.head?_rest PortToken.bytes hi)
    have hnext : (i.2 ++ itemsText PortToken.bytes items).dropWhile isspace = itemsText PortToken.bytes items := by
      rw [dropWhile_blanks hi, itemsText_dropWhile]
    rw [itemsText_cons, List.length_append, PortToken.bytes, List.length_append, List.length_append] at hn
    rw [itemsText_cons, PortToken.bytes, List.append_assoc,
      parseLoop_digits driver c i.1.digits_ne_nil i.1.isDigits hstart 0 (by omega), htake, hdrop, hnext, valueFrom_eq,
      ih (fun k hk => hblank k (List.mem_cons_of_mem _ hk)) hseparated.tail _ (by omega), List.map_cons, List.foldl_cons]
    rfl

theorem switchParseVlan_text (driver : SwitchDriver) (text : Text isspace PortToken) :
    switchParseVlan driver (text.text PortToken.bytes) =
      some (((text.items.map Prod.fst).foldl (VlanConfig.addToken driver) ⟨0, 0, 0⟩).mask driver) := by
  have hlead : (text.text PortToken.bytes).dropWhile isspace = itemsText PortToken.bytes text.items := by
    rw [Text.text, dropWhile_blanks text.lead_blank, itemsText_dropWhile]
  unfold switchParseVlan
  simp only [hlead, parseLoop_items driver text.blank text.separated _ le_rfl, ne_eq, not_true_eq_false, if_false]

/-! ## The masks -/

theorem foldl_flagStep (flags : List UInt8) (last : Option Bool) (u p : Bool) :
    flags.foldl flagStep (last.getD u, p) =
      ((flags.foldl (fun u b => if b = 117 then some true else if b = 116 then some false else u) last).getD u,
        p || decide (42 ∈ flags)) := by
  induction flags generalizing last p with
  | nil => simp
  | cons b flags ih =>
    rw [List.foldl_cons, List.foldl_cons, flagStep]
    by_cases hu : b = 117
    · subst hu
      rw [if_pos rfl, if_pos rfl]
      exact (ih (some true) p).trans (by simp)
    · by_cases ht : b = 116
      · subst ht
        rw [if_neg hu, if_neg hu, if_pos rfl, if_pos rfl]
        exact (ih (some false) p).trans (by simp)
      · rw [if_neg hu, if_neg hu, if_neg ht, if_neg ht]
        by_cases hp : b = 42
        · subst hp
          rw [if_pos rfl, ih last true]
          simp
        · rw [if_neg hp, ih last p]
          simp [Ne.symm hp]

/-- `u` for a token: the number has 32 bits where the code compares it. -/
def PortToken.CodeUntagged (t : PortToken) (driver : SwitchDriver) : Prop :=
  t.lastFlag = some true ∨ t.lastFlag = none ∧ BitVec.ofNat 32 t.number ≠ driver.cpuport

theorem PortToken.codeFlags_iff (t : PortToken) (driver : SwitchDriver) :
    ((t.codeFlags driver).1 = true ↔ t.CodeUntagged driver) ∧ ((t.codeFlags driver).2 = true ↔ t.Starred) := by
  have hflags := foldl_flagStep t.flags none (BitVec.ofNat 32 t.number ≠ driver.cpuport) false
  rw [Option.getD_none, Bool.false_or] at hflags
  unfold PortToken.codeFlags PortToken.CodeUntagged PortToken.Starred PortToken.lastFlag
  rw [hflags, decide_eq_true_iff]
  refine ⟨?_, Iff.rfl⟩
  cases List.foldl (fun u b => if b = 117 then some true else if b = 116 then some false else u) none t.flags with
  | none => simp
  | some u => simp

theorem getLsbD_or_bit (x : BitVec 32) (n p : ℕ) :
    (x ||| bit (BitVec.ofNat 32 n).toNat).getLsbD p = true ↔ x.getLsbD p = true ∨ n % 32 = p := by
  have hmod : (BitVec.ofNat 32 n).toNat % 32 = n % 32 := by
    rw [BitVec.toNat_ofNat]
    omega
  rw [bit, hmod, getLsbD_or_twoPow x _ _ (Nat.mod_lt _ (by decide)), Bool.or_eq_true, decide_eq_true_iff]

theorem getLsbD_ite_or_bit {u : Bool} {P : Prop} (hu : u = true ↔ P) (x : BitVec 32) (n p : ℕ) :
    (if u then x ||| bit (BitVec.ofNat 32 n).toNat else x).getLsbD p = true ↔ x.getLsbD p = true ∨ n % 32 = p ∧ P := by
  rw [← hu]
  cases u with
  | true => rw [if_pos rfl, getLsbD_or_bit, and_iff_left rfl]
  | false => simp

/-- The bits of a mask after a list of tokens, where one token sets its bit if `Q` holds of it. -/
theorem getLsbD_foldl (driver : SwitchDriver) (sel : VlanConfig → BitVec 32) (Q : PortToken → Prop) {p : ℕ}
    (hstep : ∀ c t, (sel (c.addToken driver t)).getLsbD p = true ↔ (sel c).getLsbD p = true ∨ t.number % 32 = p ∧ Q t)
    (tokens : List PortToken) (c : VlanConfig) :
    (sel (tokens.foldl (VlanConfig.addToken driver) c)).getLsbD p = true ↔
      (sel c).getLsbD p = true ∨ ∃ t ∈ tokens, t.number % 32 = p ∧ Q t := by
  induction tokens generalizing c with
  | nil => simp
  | cons t tokens ih => rw [List.foldl_cons, ih, hstep, List.exists_mem_cons_iff, or_assoc]

theorem getLsbD_mask (x : BitVec 32) (n p : ℕ) :
    (x &&& (bit n - 1)).getLsbD p = true ↔ x.getLsbD p = true ∧ p < n % 32 := by
  have hlt : n % 32 < 32 := Nat.mod_lt _ (by decide)
  have hpow : 2 ^ (n % 32) < 2 ^ 32 := Nat.pow_lt_pow_right (by decide) hlt
  have hpos : 0 < 2 ^ (n % 32) := Nat.two_pow_pos _
  have hvalue : (bit n - 1).toNat = 2 ^ (n % 32) - 1 := by
    have hone : (1 : BitVec 32).toNat = 1 := rfl
    rw [BitVec.toNat_sub, bit, BitVec.toNat_twoPow, hone, Nat.mod_eq_of_lt hpow]
    omega
  rw [BitVec.getLsbD_and, Bool.and_eq_true, BitVec.getLsbD, BitVec.getLsbD, hvalue, Nat.testBit_two_pow_sub_one,
    decide_eq_true_iff]

/-- The masks of `switch_parse_vlan`: a number counts modulo 32, and so do the ports of the switch. -/
theorem masks_iff (driver : SwitchDriver) (tokens : List PortToken) (p : ℕ) :
    let c := (tokens.foldl (VlanConfig.addToken driver) ⟨0, 0, 0⟩).mask driver
    (c.port.getLsbD p = true ↔ p < driver.ports % 32 ∧ ∃ t ∈ tokens, t.number % 32 = p) ∧
      (c.untag.getLsbD p = true ↔ p < driver.ports % 32 ∧ ∃ t ∈ tokens, t.number % 32 = p ∧ t.CodeUntagged driver) ∧
      (c.pvid.getLsbD p = true ↔ p < driver.ports % 32 ∧ ∃ t ∈ tokens, t.number % 32 = p ∧ t.Starred) := by
  have hempty : ((0 : BitVec 32).getLsbD p = true) ↔ False := by simp
  refine ⟨?_, ?_, ?_⟩
  · have hfold := getLsbD_foldl driver VlanConfig.port (fun _ => True) (p := p)
      (fun c t => by rw [and_true]; exact getLsbD_or_bit _ _ _) tokens ⟨0, 0, 0⟩
    rw [VlanConfig.mask, getLsbD_mask, hfold, hempty, false_or, and_comm]
    simp only [and_true]
  · have hfold := getLsbD_foldl driver VlanConfig.untag (fun t => t.CodeUntagged driver) (p := p)
      (fun c t => getLsbD_ite_or_bit (t.codeFlags_iff driver).1 _ _ _) tokens ⟨0, 0, 0⟩
    rw [VlanConfig.mask, getLsbD_mask, hfold, hempty, false_or, and_comm]
  · have hfold := getLsbD_foldl driver VlanConfig.pvid PortToken.Starred (p := p)
      (fun c t => getLsbD_ite_or_bit (t.codeFlags_iff driver).2 _ _ _) tokens ⟨0, 0, 0⟩
    rw [VlanConfig.mask, getLsbD_mask, hfold, hempty, false_or, and_comm]

/-! ## Numbers that are no ports -/

/-- Every port of the switch that is named has a bit of its own, and a number from 32 on that falls on a port adds
nothing to what the tokens of that port ask for. -/
structure NoAlias (driver : SwitchDriver) (tokens : List PortToken) : Prop where
  known : ∀ t ∈ tokens, t.number < driver.ports → t.number < driver.ports % 32
  port : ∀ t ∈ tokens, 32 ≤ t.number → t.number % 32 < driver.ports % 32 →
    ∃ t' ∈ tokens, t'.number = t.number % 32
  untag : ∀ t ∈ tokens, 32 ≤ t.number → t.number % 32 < driver.ports % 32 → t.CodeUntagged driver →
    ∃ t' ∈ tokens, t'.number = t.number % 32 ∧ t'.Untagged driver
  pvid : ∀ t ∈ tokens, 32 ≤ t.number → t.number % 32 < driver.ports % 32 → t.Starred →
    ∃ t' ∈ tokens, t'.number = t.number % 32 ∧ t'.Starred

/-- A mask by numbers modulo 32 and one by the numbers themselves. -/
theorem masks_agree_iff (ports : ℕ) (tokens : List PortToken) {P Q : PortToken → Prop}
    (hPQ : ∀ t : PortToken, t.number < 32 → (P t ↔ Q t)) :
    (∀ p, (p < ports % 32 ∧ ∃ t ∈ tokens, t.number % 32 = p ∧ P t) ↔ p < ports ∧ ∃ t ∈ tokens, t.number = p ∧ Q t) ↔
      (∀ t ∈ tokens, Q t → t.number < ports → t.number < ports % 32) ∧
        ∀ t ∈ tokens, 32 ≤ t.number → t.number % 32 < ports % 32 → P t →
          ∃ t' ∈ tokens, t'.number = t.number % 32 ∧ Q t' := by
  have hle : ports % 32 ≤ ports := Nat.mod_le _ _
  have hlt : ports % 32 < 32 := Nat.mod_lt _ (by decide)
  constructor
  · intro h
    refine ⟨fun t ht hQ hport => ?_, fun t ht _ hport hP => ?_⟩
    · exact ((h t.number).mpr ⟨hport, t, ht, rfl, hQ⟩).1
    · exact ((h (t.number % 32)).mp ⟨hport, t, ht, rfl, hP⟩).2
  · rintro ⟨hknown, hcovered⟩ p
    constructor
    · rintro ⟨hp, t, ht, rfl, hP⟩
      refine ⟨hp.trans_le hle, ?_⟩
      by_cases hsmall : t.number < 32
      · exact ⟨t, ht, (Nat.mod_eq_of_lt hsmall).symm, (hPQ t hsmall).mp hP⟩
      · exact hcovered t ht (not_lt.mp hsmall) hp hP
    · rintro ⟨hp, t, ht, rfl, hQ⟩
      have hsmall := (hknown t ht hQ hp).trans hlt
      exact ⟨hknown t ht hQ hp, t, ht, Nat.mod_eq_of_lt hsmall, (hPQ t hsmall).mpr hQ⟩

theorem PortToken.codeUntagged_iff (t : PortToken) (driver : SwitchDriver) (h : t.number < 32) :
    t.CodeUntagged driver ↔ t.Untagged driver := by
  have hvalue : (BitVec.ofNat 32 t.number).toInt = t.number := by
    rw [BitVec.toInt_eq_toNat_of_lt] <;> rw [BitVec.toNat_ofNat] <;> omega
  rw [CodeUntagged, Untagged, Ne, ← BitVec.toInt_inj, hvalue]

theorem reads_iff (driver : SwitchDriver) (tokens : List PortToken) :
    Reads driver tokens ((tokens.foldl (VlanConfig.addToken driver) ⟨0, 0, 0⟩).mask driver) ↔ NoAlias driver tokens := by
  have hport := masks_agree_iff driver.ports tokens (P := fun _ => True) (Q := fun _ => True)
    fun _ _ => Iff.rfl
  have huntag := masks_agree_iff driver.ports tokens fun t h => t.codeUntagged_iff driver h
  have hpvid := masks_agree_iff driver.ports tokens (P := PortToken.Starred) (Q := PortToken.Starred) fun _ _ => Iff.rfl
  simp only [and_true, true_implies] at hport
  constructor
  · intro h
    obtain ⟨hknown, hcovered⟩ := hport.mp fun p => (masks_iff driver tokens p).1.symm.trans (h.port p)
    exact ⟨hknown, hcovered, (huntag.mp fun p => (masks_iff driver tokens p).2.1.symm.trans (h.untag p)).2,
      (hpvid.mp fun p => (masks_iff driver tokens p).2.2.symm.trans (h.pvid p)).2⟩
  · intro h
    exact ⟨fun p => (masks_iff driver tokens p).1.trans (hport.mpr ⟨h.known, h.port⟩ p),
      fun p => (masks_iff driver tokens p).2.1.trans (huntag.mpr ⟨fun t ht _ => h.known t ht, h.untag⟩ p),
      fun p => (masks_iff driver tokens p).2.2.trans (hpvid.mpr ⟨fun t ht _ => h.known t ht, h.pvid⟩ p)⟩

/-- A string of port numbers with flags is read as it says if and only if no number from 32 on falls on a port that
is not named for itself with the same marks. -/
theorem switchParseVlan_reads_iff (driver : SwitchDriver) (text : Text isspace PortToken) :
    ∃ c, switchParseVlan driver (text.text PortToken.bytes) = some c ∧
      (Reads driver (text.items.map Prod.fst) c ↔ NoAlias driver (text.items.map Prod.fst)) :=
  ⟨_, switchParseVlan_text driver text, reads_iff driver _⟩

def token32 : PortToken where
  digits := [51, 50]
  digits_ne_nil := List.cons_ne_nil _ _
  isDigits := by decide
  flags := []
  flags_word := fun b hb => by cases hb
  flags_start := rfl

/-- `32` on a switch with six ports is port 0. -/
theorem switchParseVlan_port_32 :
    switchParseVlan ⟨5, 6⟩ (token32.bytes) = some ⟨1, 1, 0⟩ ∧ ¬Reads ⟨5, 6⟩ [token32] ⟨1, 1, 0⟩ := by
  refine ⟨by decide, fun h => ?_⟩
  obtain ⟨t, ht, hnumber⟩ := ((h.port 0).mp (by decide)).2
  rw [List.mem_singleton.mp ht] at hnumber
  exact absurd hnumber (by decide)

end Neufbox.Switch
