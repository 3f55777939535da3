import Mathlib.Tactic

/-! The checksum of the internet protocols: 16-bit words are added with the carry brought around, and the complement
of the sum goes into a field that counts as zero in it.

* `onesSum bs`: the sum of the words of `bs`; a last single byte is the upper half of a word.
* `checksum bs`: its complement. `Verifies bs`: with the field in place, all bits of the sum are set.
* `checksum_verifies`: the checksum in its field verifies.
* `checksum_of_verifies`: what verifies is the checksum, but for the two ways to write zero.
-/
namespace Neufbox.OnesComplement
set_option autoImplicit false
set_option maxHeartbeats 250000

/-- Addition with the carry added to the lowest bit. -/
def onesAdd (a b : ℕ) : ℕ := if a + b < 65536 then a + b else a + b - 65535

def halves : List UInt8 → List ℕ
  | a :: b :: bs => (256 * a.toNat + b.toNat) :: halves bs
  | [a] => [256 * a.toNat]
  | [] => []

def onesSum (bs : List UInt8) : ℕ := (halves bs).foldl onesAdd 0

def checksum (bs : List UInt8) : ℕ := 65535 - onesSum bs

def Verifies (bs : List UInt8) : Prop := onesSum bs = 65535

instance Verifies.decidable (bs : List UInt8) : Decidable (Verifies bs) := inferInstanceAs (Decidable (_ = _))

/-- A 16-bit field, high byte first. -/
def half (n : ℕ) : List UInt8 := [UInt8.ofNat (n / 256), UInt8.ofNat n]

theorem half_length (n : ℕ) : (half n).length = 2 := rfl

theorem halves_half_append {n : ℕ} (hn : n < 65536) (bs : List UInt8) : halves (half n ++ bs) = n :: halves bs := by
  show (256 * (UInt8.ofNat (n / 256)).toNat + (UInt8.ofNat n).toNat) :: halves bs = _
  rw [UInt8.toNat_ofNat', UInt8.toNat_ofNat']
  congr 1
  omega

theorem halves_lt (bs : List UInt8) : ∀ n ∈ halves bs, n < 65536 := by
  fun_induction halves bs with
  | case1 a b bs ih =>
    intro n hn
    rcases List.mem_cons.mp hn with rfl | hn
    · have ha := a.toNat_lt
      have hb := b.toNat_lt
      omega
    · exact ih n hn
  | case2 a =>
    intro n hn
    obtain rfl := List.mem_singleton.mp hn
    have ha := a.toNat_lt
    omega
  | case3 => exact fun n hn => absurd hn List.not_mem_nil

theorem halves_append {bs : List UInt8} (h : 2 ∣ bs.length) (cs : List UInt8) :
    halves (bs ++ cs) = halves bs ++ halves cs := by
  fun_induction halves bs with
  | case1 a b bs ih =>
    have hbs : 2 ∣ bs.length := (Nat.dvd_add_left (dvd_refl 2)).mp h
    show (256 * a.toNat + b.toNat) :: halves (bs ++ cs) = _
    rw [ih hbs]
    rfl
  | case2 a =>
    rw [List.length_singleton] at h
    omega
  | case3 => rfl

/-! ## The sum as a remainder -/

/-- What is left of a sum: its remainder, where a sum that is not zero does not become zero. -/
def residue (n : ℕ) : ℕ := if n = 0 then 0 else (n - 1) % 65535 + 1

theorem onesAdd_residue (n : ℕ) {m : ℕ} (hm : m < 65536) : onesAdd (residue n) m = residue (n + m) := by
  unfold onesAdd residue
  split_ifs <;> omega

/-- A sum and its complement have all bits set. -/
theorem residue_complement (n : ℕ) : residue (n + (65535 - residue n)) = 65535 := by
  by_cases hn : n = 0
  · rw [hn]
    rfl
  · have hr : residue n = (n - 1) % 65535 + 1 := if_neg hn
    have hsplit := Nat.div_add_mod (n - 1) 65535
    have hlt : (n - 1) % 65535 < 65535 := Nat.mod_lt _ (by norm_num)
    have hsum : n + (65535 - residue n) = 65535 * ((n - 1) / 65535) + 65534 + 1 := by
      rw [hr]
      omega
    rw [hsum, residue, if_neg (Nat.succ_ne_zero _), Nat.add_sub_cancel, Nat.mul_add_mod]

theorem foldl_onesAdd (n : ℕ) {ws : List ℕ} (hws : ∀ w ∈ ws, w < 65536) :
    ws.foldl onesAdd (residue n) = residue (n + ws.sum) := by
  induction ws generalizing n with
  | nil => rfl
  | cons w ws ih =>
    rw [List.foldl_cons, onesAdd_residue n (hws w List.mem_cons_self), ih _ fun v hv => hws v (List.mem_cons_of_mem w hv),
      List.sum_cons, Nat.add_assoc]

theorem onesSum_eq (bs : List UInt8) : onesSum bs = residue (halves bs).sum := by
  have h := foldl_onesAdd 0 (halves_lt bs)
  rwa [Nat.zero_add] at h

theorem onesSum_le (bs : List UInt8) : onesSum bs ≤ 65535 := by
  rw [onesSum_eq, residue]
  split_ifs <;> omega

theorem onesSum_pos {bs : List UInt8} : 0 < onesSum bs ↔ 0 < (halves bs).sum := by
  rw [onesSum_eq, residue]
  split_ifs <;> omega

@[simp] theorem onesAdd_zero (bs : List UInt8) : onesAdd 0 (onesSum bs) = onesSum bs := by
  have hle := onesSum_le bs
  rw [onesAdd, Nat.zero_add, if_pos (by omega)]

theorem checksum_eq_zero (bs : List UInt8) : checksum bs = 0 ↔ onesSum bs = 65535 := by
  have hle := onesSum_le bs
  rw [checksum]
  omega

theorem onesSum_append {bs : List UInt8} (h : 2 ∣ bs.length) (cs : List UInt8) :
    onesSum (bs ++ cs) = onesAdd (onesSum bs) (onesSum cs) := by
  rw [onesSum_eq, onesSum_eq, onesSum_eq, halves_append h, List.sum_append]
  unfold onesAdd residue
  split_ifs <;> omega

/-! ## The field -/

section Field
variable {front : List UInt8} (hfront : 2 ∣ front.length) (back : List UInt8)

/-- The sum of all words but the field. -/
def others (front back : List UInt8) : ℕ := (halves front).sum + (halves back).sum

include hfront in
theorem onesSum_field {n : ℕ} (hn : n < 65536) :
    onesSum (front ++ (half n ++ back)) = residue (others front back + n) := by
  rw [onesSum_eq, halves_append hfront, halves_half_append hn, List.sum_append, List.sum_cons, others]
  congr 1
  omega

include hfront in
theorem checksum_field : checksum (front ++ (half 0 ++ back)) = 65535 - residue (others front back) := by
  rw [checksum, onesSum_field hfront back (by norm_num), Nat.add_zero]

include hfront in
theorem checksum_verifies : Verifies (front ++ (half (checksum (front ++ (half 0 ++ back))) ++ back)) := by
  rw [Verifies, checksum_field hfront, onesSum_field hfront back (by omega)]
  exact residue_complement _

include hfront in
/-- A field that verifies is the checksum, unless it has all bits set and the other words are not all zero. -/
theorem checksum_of_verifies {n : ℕ} (hn : n < 65536) (h : Verifies (front ++ (half n ++ back))) :
    checksum (front ++ (half 0 ++ back)) = if n = 65535 ∧ others front back ≠ 0 then 0 else n := by
  rw [Verifies, onesSum_field hfront back hn] at h
  rw [checksum_field hfront]
  unfold residue at h ⊢
  split_ifs at h ⊢ <;> omega

end Field

end Neufbox.OnesComplement
