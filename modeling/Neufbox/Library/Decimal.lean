import Mathlib.Tactic
import Mathlib.Data.Nat.Digits.Lemmas

/-! Decimal numbers as text: what `%lu` prints, and what `%u` reads back. -/
namespace Neufbox.Decimal
set_option autoImplicit false
set_option maxHeartbeats 250000

def isDigit (b : UInt8) : Bool := 48 ≤ b && b ≤ 57

def decimal (n : ℕ) : List UInt8 :=
  if n = 0 then [48] else (Nat.digits 10 n).reverse.map fun d => UInt8.ofNat (48 + d)

def digitsValue (bs : List UInt8) : ℕ := bs.foldl (fun v b => 10 * v + (b.toNat - 48)) 0

/-- The number at the front of a text, in its first `width` bytes. -/
def numberAt (width : ℕ) (bs : List UInt8) : ℕ := digitsValue ((bs.take width).takeWhile isDigit)

def isSpace (b : UInt8) : Bool := b = 32 || (9 ≤ b && b ≤ 13)

/-- `sscanf(text, "%u", ..)` into an `unsigned int`; `none` when no digit comes, so that nothing is
stored. -/
def scanUnsigned (bs : List UInt8) : Option ℕ :=
  let text := bs.dropWhile isSpace
  if text.head?.any isDigit then some (digitsValue (text.takeWhile isDigit) % 2 ^ 32) else none

/-! ## Digits -/

theorem decimal_isDigit {n : ℕ} {b : UInt8} (hb : b ∈ decimal n) : isDigit b = true := by
  unfold decimal at hb
  split at hb
  · rw [List.mem_singleton.mp hb]
    rfl
  · obtain ⟨d, hd, rfl⟩ := List.mem_map.mp hb
    have hlt : d < 10 := Nat.digits_lt_base (by norm_num) (List.mem_reverse.mp hd)
    interval_cases d <;> rfl

theorem decimal_ne_nil (n : ℕ) : decimal n ≠ [] := by
  unfold decimal
  split
  · simp
  · next h => simpa using Nat.digits_ne_nil_iff_ne_zero.mpr h

theorem digitsValue_append (xs ys : List UInt8) :
    digitsValue (xs ++ ys) = digitsValue xs * 10 ^ ys.length + digitsValue ys := by
  have hfold : ∀ v, ys.foldl (fun v b => 10 * v + (b.toNat - 48)) v = v * 10 ^ ys.length + digitsValue ys := by
    induction ys with
    | nil => simp [digitsValue]
    | cons b ys ih =>
      intro v
      have hb : digitsValue (b :: ys) = (10 * 0 + (b.toNat - 48)) * 10 ^ ys.length + digitsValue ys := ih _
      rw [List.foldl_cons, ih, hb, List.length_cons, pow_succ]
      ring
  rw [digitsValue, List.foldl_append, hfold]
  rfl

theorem digitsValue_decimal (n : ℕ) : digitsValue (decimal n) = n := by
  unfold decimal
  split
  · next h => rw [h]; rfl
  · have hdigits : ∀ ds : List ℕ, (∀ d ∈ ds, d < 10) →
        digitsValue (ds.reverse.map fun d => UInt8.ofNat (48 + d)) = Nat.ofDigits 10 ds := by
      intro ds hds
      induction ds with
      | nil => rfl
      | cons d ds ih =>
        have hd : d < 10 := hds d List.mem_cons_self
        have hbyte : (UInt8.ofNat (48 + d)).toNat - 48 = d := by
          rw [UInt8.toNat_ofNat']
          omega
        rw [List.reverse_cons, List.map_append, digitsValue_append,
          ih fun e he => hds e (List.mem_cons_of_mem d he), Nat.ofDigits_cons]
        simp only [List.map_cons, List.map_nil, List.length_singleton, digitsValue, List.foldl_cons,
          List.foldl_nil, hbyte]
        push_cast
        ring
    rw [hdigits _ fun d hd => Nat.digits_lt_base (by norm_num) hd, Nat.ofDigits_digits]

theorem decimal_length_le {n k : ℕ} (hk : 0 < k) (hn : n < 10 ^ k) : (decimal n).length ≤ k := by
  unfold decimal
  split
  · exact hk
  · rw [List.length_map, List.length_reverse]
    exact (Nat.digits_length_le_iff (by norm_num) n).mpr hn

theorem lt_decimal_length {n k : ℕ} (hn : 10 ^ k ≤ n) : k < (decimal n).length := by
  have hpow : 0 < 10 ^ k := by positivity
  rw [decimal, if_neg (by omega), List.length_map, List.length_reverse]
  exact (Nat.lt_digits_length_iff (by norm_num) n).mpr hn

/-! ## Reading back -/

theorem isSpace_of_isDigit {b : UInt8} (hb : isDigit b = true) : isSpace b = false := by
  simp only [isDigit, Bool.and_eq_true, decide_eq_true_eq, UInt8.le_iff_toNat_le] at hb
  simp only [isSpace, Bool.or_eq_false_iff, Bool.and_eq_false_iff, decide_eq_false_iff_not,
    UInt8.le_iff_toNat_le, ← UInt8.toNat_inj]
  have h48 : (48 : UInt8).toNat = 48 := rfl
  have h32 : (32 : UInt8).toNat = 32 := rfl
  have h13 : (13 : UInt8).toNat = 13 := rfl
  omega

theorem takeWhile_digits {xs rest : List UInt8} (hxs : ∀ b ∈ xs, isDigit b = true)
    (hrest : rest.head?.any isDigit = false) : (xs ++ rest).takeWhile isDigit = xs := by
  induction xs with
  | nil =>
    cases rest with
    | nil => rfl
    | cons b rest =>
      rw [List.head?_cons, Option.any_some] at hrest
      exact List.takeWhile_cons_of_neg (by simp [hrest])
  | cons b xs ih =>
    rw [List.cons_append, List.takeWhile_cons_of_pos (hxs b List.mem_cons_self),
      ih fun c hc => hxs c (List.mem_cons_of_mem b hc)]

theorem scanUnsigned_decimal {n : ℕ} (hn : n < 2 ^ 32) (rest : List UInt8) :
    scanUnsigned (decimal n ++ 0 :: rest) = some n := by
  have hdigits : ∀ b ∈ decimal n, isDigit b = true := fun b hb => decimal_isDigit hb
  cases hd : decimal n with
  | nil => exact absurd hd (decimal_ne_nil n)
  | cons b bs =>
    have hb : isDigit b = true := hdigits b (by rw [hd]; exact List.mem_cons_self)
    have hspace : isSpace b = false := isSpace_of_isDigit hb
    have htext : (b :: bs ++ 0 :: rest).dropWhile isSpace = decimal n ++ 0 :: rest := by
      rw [List.cons_append, List.dropWhile_cons_of_neg (by simp [hspace]), hd, List.cons_append]
    rw [scanUnsigned, htext, takeWhile_digits hdigits rfl, digitsValue_decimal, Nat.mod_eq_of_lt hn,
      hd, List.cons_append, List.head?_cons, Option.any_some, if_pos hb]

/-! ## Numbers in a slot of fixed width -/

theorem numberAt_decimal {width n : ℕ} {bs rest : List UInt8}
    (hbs : bs.take width = decimal n ++ rest) (hrest : rest.head?.any isDigit = false) :
    numberAt width bs = n := by
  rw [numberAt, hbs, takeWhile_digits (fun b hb => decimal_isDigit hb) hrest, digitsValue_decimal]

/-- A slot that is too narrow for the number shows a tenth of it at most. -/
theorem numberAt_narrow {width n : ℕ} {bs : List UInt8} (hbs : bs.take width = (decimal n).take width)
    (hwidth : width < (decimal n).length) : 10 * numberAt width bs ≤ n := by
  have hdigits : ∀ b ∈ (decimal n).take width, isDigit b = true :=
    fun b hb => decimal_isDigit (List.mem_of_mem_take hb)
  have hslot : numberAt width bs = digitsValue ((decimal n).take width) := by
    have htake : ((decimal n).take width ++ []).takeWhile isDigit = (decimal n).take width :=
      takeWhile_digits hdigits rfl
    rw [List.append_nil] at htake
    rw [numberAt, hbs, htake]
  have hsplit := digitsValue_append ((decimal n).take width) ((decimal n).drop width)
  rw [List.take_append_drop, digitsValue_decimal, List.length_drop] at hsplit
  have hten : 10 ^ 1 ≤ 10 ^ ((decimal n).length - width) := Nat.pow_le_pow_right (by norm_num) (by omega)
  have hmul := Nat.mul_le_mul_left (digitsValue ((decimal n).take width)) hten
  rw [hslot]
  omega

end Neufbox.Decimal
