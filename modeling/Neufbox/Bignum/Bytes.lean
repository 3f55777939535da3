import Neufbox.Bignum.Shift
import Neufbox.Library.Blocks

/-! # Big numbers as bytes

`BN_bin2bn` and `BN_bn2bin` of `bn_lib.c` in `package/ead/src/tinysrp`: the bytes are the digits of the number, the most
significant first, whatever the size of a word. -/
namespace Neufbox.Bignum
open Radix Blocks
set_option autoImplicit false
set_option maxHeartbeats 250000
set_option maxRecDepth 120000

/-- `BN_BYTES`. -/
def WordSize.bytes : WordSize → ℕ
  | .thirtyTwoBit => 4
  | .sixtyFourBitLong => 8

section Model
variable (z : WordSize)

/-- The loop of `BN_bin2bn`, with the words it writes from the top down; `m` bytes come after this one in its word. -/
def binLoop : List UInt8 → ℕ → ℕ → List ℕ
  | [], _, _ => []
  | b :: s, m, l =>
    let l := l <<< 8 % z.base ||| b.toNat
    if m = 0 then l :: binLoop s (z.bytes - 1) 0 else binLoop s (m - 1) l

def binWords (s : List UInt8) : List ℕ :=
  if s.length = 0 then [] else (binLoop z s ((s.length - 1) % z.bytes) 0).reverse

end Model

section Specs
variable {z : WordSize}

theorem WordSize.bytes_pos (z : WordSize) : 0 < z.bytes := by cases z <;> decide

theorem base_bytes (z : WordSize) : z.base = 256 ^ z.bytes := by cases z <;> rfl

theorem foldl_from (s : List UInt8) (l : ℕ) :
    s.foldl (fun n b => 256 * n + b.toNat) l = l * 256 ^ s.length + beWord s := by
  rw [beWord]
  induction s using List.reverseRecOn with
  | nil => simp
  | append_singleton s b ih =>
    rw [List.foldl_append, List.foldl_append, ih, List.length_append, List.length_singleton, pow_succ]
    simp only [List.foldl_cons, List.foldl_nil]
    ring

/-- What is read so far is in `l` and fits below the bytes to come. -/
theorem binLoop_spec {s : List UInt8} {m l : ℕ} (hm : m < z.bytes) (hl : l < 256 ^ (z.bytes - 1 - m))
    (hlen : (s.length + (z.bytes - 1 - m)) % z.bytes = 0) :
    Small z.base (binLoop z s m l) ∧ (binLoop z s m l).length * z.bytes = s.length + (z.bytes - 1 - m) ∧
      Nat.ofDigits z.base (binLoop z s m l).reverse = l * 256 ^ s.length + beWord s := by
  induction s generalizing m l with
  | nil =>
    rw [List.length_nil, Nat.zero_add, Nat.mod_eq_of_lt (by omega)] at hlen
    rw [hlen, pow_zero, Nat.lt_one_iff] at hl
    rw [hl, hlen]
    exact ⟨Small.nil, Nat.zero_mul _, rfl⟩
  | cons b s ih =>
    have hb : b.toNat < 2 ^ 8 := b.toNat_lt
    have hup : (l + 1) * 256 ≤ 256 ^ (z.bytes - m) := by
      calc (l + 1) * 256 ≤ 256 ^ (z.bytes - 1 - m) * 256 := Nat.mul_le_mul_right _ hl
        _ = 256 ^ (z.bytes - m) := by
          rw [← pow_succ]
          congr 1
          omega
    have hbase : 256 ^ (z.bytes - m) ≤ z.base := by
      rw [base_bytes]
      exact Nat.pow_le_pow_right (by norm_num) (Nat.sub_le _ _)
    have hword : l <<< 8 % z.base ||| b.toNat = l * 256 + b.toNat := by
      rw [Nat.shiftLeft_eq, Nat.mod_eq_of_lt (by omega), Nat.mul_comm l, ← Nat.two_pow_add_eq_or_of_lt hb]
    have hvalue : beWord (b :: s) = b.toNat * 256 ^ s.length + beWord s := by
      rw [← foldl_from, beWord, List.foldl_cons, Nat.mul_zero, Nat.zero_add]
    rw [List.length_cons] at hlen
    rw [binLoop, hword, hvalue, List.length_cons, pow_succ]
    split
    · next hzero =>
      have hlen' : (s.length + (z.bytes - 1 - (z.bytes - 1))) % z.bytes = 0 := by
        rw [hzero, Nat.sub_zero, Nat.add_assoc, Nat.add_sub_cancel' z.bytes_pos, Nat.add_mod_right] at hlen
        rwa [Nat.sub_self, Nat.add_zero]
      obtain ⟨hs, hl', hv⟩ := ih (m := z.bytes - 1) (l := 0) (Nat.sub_lt z.bytes_pos Nat.one_pos)
        (Nat.pow_pos (by norm_num)) hlen'
      rw [Nat.sub_self, Nat.add_zero] at hl'
      have hpow : z.base ^ (binLoop z s (z.bytes - 1) 0).length = 256 ^ s.length := by
        rw [base_bytes, ← pow_mul, Nat.mul_comm, hl']
      have hpos := z.bytes_pos
      refine ⟨small_cons.mpr ⟨by omega, hs⟩, ?_, ?_⟩
      · rw [List.length_cons, Nat.add_mul, hl']
        omega
      · rw [List.reverse_cons, Nat.ofDigits_append, Nat.ofDigits_singleton, List.length_reverse, hpow, hv]
        ring
    · next hne =>
      have hsub : z.bytes - 1 - (m - 1) = z.bytes - m := by omega
      have hlen' : (s.length + (z.bytes - 1 - (m - 1))) % z.bytes = 0 := by
        rw [show s.length + 1 + (z.bytes - 1 - m) = s.length + (z.bytes - m) from by omega] at hlen
        rwa [hsub]
      obtain ⟨hs, hl', hv⟩ := ih (m := m - 1) (l := l * 256 + b.toNat) (by omega) (by rw [hsub]; omega) hlen'
      refine ⟨hs, by omega, ?_⟩
      rw [hv]
      ring

theorem binWords_spec (s : List UInt8) : Small z.base (binWords z s) ∧ Nat.ofDigits z.base (binWords z s) = beWord s := by
  rw [binWords]
  split
  · next h =>
    rw [List.length_eq_zero_iff.mp h]
    exact ⟨Small.nil, rfl⟩
  · next h =>
    have hpos := z.bytes_pos
    have hmod := Nat.mod_lt (s.length - 1) hpos
    have hdivmod := Nat.div_add_mod (s.length - 1) z.bytes
    have hwords : s.length + (z.bytes - 1 - (s.length - 1) % z.bytes) = z.bytes * ((s.length - 1) / z.bytes + 1) := by
      rw [Nat.mul_add, Nat.mul_one]
      have hlen : 0 < s.length := Nat.pos_of_ne_zero h
      omega
    obtain ⟨hs, -, hv⟩ := binLoop_spec (z := z) (s := s) (l := 0) hmod (Nat.pow_pos (by norm_num)) (by
      rw [hwords, Nat.mul_mod_right])
    rw [Nat.zero_mul, Nat.zero_add] at hv
    exact ⟨fun d hd => hs d (List.mem_reverse.mp hd), hv⟩

end Specs

variable {z : WordSize}

/-- `BN_bin2bn` into a new number. -/
def bnBin2bn (s : List UInt8) : BigNum z := .ofWords (binWords z s) (binWords_spec s).1 false

/-- `BN_bn2bin`, with `BN_num_bytes`. -/
def bnBn2bin (a : BigNum z) : List UInt8 :=
  (List.range ((a.numBits + 7) / 8)).reverse.map fun i =>
    UInt8.ofNat (a.d.getD (i / z.bytes) 0 >>> (8 * (i % z.bytes)))

theorem bnBin2bn_abs (s : List UInt8) : (bnBin2bn s : BigNum z).abs = beWord s := by
  rw [bnBin2bn, BigNum.ofWords_abs]
  exact (binWords_spec s).2

/-- A byte of a word is a byte of the number. -/
theorem byte_eq (a : BigNum z) (i : ℕ) :
    UInt8.ofNat (a.d.getD (i / z.bytes) 0 >>> (8 * (i % z.bytes))) = UInt8.ofNat (a.abs / 256 ^ i % 256) := by
  have hlt : i % z.bytes < z.bytes := Nat.mod_lt _ z.bytes_pos
  have hsplit : z.base = 256 ^ (i % z.bytes) * 256 ^ (z.bytes - i % z.bytes) := by
    rw [base_bytes, ← pow_add, Nat.add_sub_cancel' hlt.le]
  have hdvd : 256 ∣ 256 ^ (z.bytes - i % z.bytes) := dvd_pow_self _ (by omega)
  have hword : a.abs / z.base ^ (i / z.bytes) / 256 ^ (i % z.bytes) = a.abs / 256 ^ i := by
    rw [Nat.div_div_eq_div_mul, base_bytes, ← pow_mul, ← pow_add, Nat.div_add_mod]
  have hbyte : a.d.getD (i / z.bytes) 0 >>> (8 * (i % z.bytes)) % 2 ^ 8 = a.abs / 256 ^ i % 256 := by
    rw [getD_eq_div z.base_pos a.small, Nat.shiftRight_eq_div_pow, pow_mul]
    change a.abs / _ % z.base / 256 ^ (i % z.bytes) % 256 = _
    rw [hsplit, Nat.mod_mul_right_div_self, Nat.mod_mod_of_dvd _ hdvd, ← hsplit, hword]
  rw [← hbyte, UInt8.ofNat_mod_size]

theorem digits_length_eq (n : ℕ) : (Nat.digits 256 n).length = (Nat.size n + 7) / 8 := by
  have hpow (k : ℕ) : (256 : ℕ) ^ k = 2 ^ (8 * k) := by
    rw [pow_mul]
    norm_num
  refine Nat.le_antisymm ((Nat.digits_length_le_iff (by norm_num) n).mpr ?_) ?_
  · rw [hpow]
    exact Nat.size_le.mp (by omega)
  · have hlt := (Nat.digits_length_le_iff (b := 256) (by norm_num) n).mp le_rfl
    rw [hpow] at hlt
    have hsize := Nat.size_le.mpr hlt
    omega

theorem bnBn2bin_eq (a : BigNum z) : bnBn2bin a = (Nat.digits 256 a.abs).reverse.map UInt8.ofNat := by
  have hdigits : Nat.digits 256 a.abs = (List.range ((a.numBits + 7) / 8)).map fun i => a.abs / 256 ^ i % 256 := by
    refine List.ext_getElem ?_ fun i h _ => ?_
    · rw [List.length_map, List.length_range, a.numBits_eq, digits_length_eq]
    · rw [List.getElem_map, List.getElem_range, ← Nat.getD_digits _ _ (by norm_num), List.getD_eq_getElem _ _ h]
  rw [bnBn2bin, hdigits, ← List.map_reverse, List.map_map]
  exact List.map_congr_left fun i _ => byte_eq a i

end Neufbox.Bignum
