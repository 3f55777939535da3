import Neufbox.Bignum.Arith

/-! # Products and squares of the big numbers

`bn_mul.c` and `bn_sqr.c` of `package/ead/src/tinysrp`. The rows of a product are added into memory one after
another; a square adds the products of different words first, doubles them, and adds the squares
of the words. What the memory held before does not matter. -/
namespace Neufbox.Bignum
open Radix
set_option autoImplicit false
set_option maxHeartbeats 250000
set_option maxRecDepth 120000

section Model
variable (z : WordSize)

/-- Words of memory before they are written. -/
def fresh (mem : ℕ → ℕ) (n : ℕ) : List ℕ := (List.range n).map mem

/-! ## Products -/

/-- One row: `a` times the word `i` of `b` is added from the word `i` of `r` on, and the carry is the word above. -/
def mulRow (a b r : List ℕ) (i : ℕ) : List ℕ :=
  let row := bnMulAddWords z ((r.drop i).take a.length) a (b.getD i 0)
  write r i (row.1 ++ [row.2])

def mulRows (r a b : List ℕ) : List ℕ :=
  let row := bnMulWords z a (b.getD 0 0)
  (List.range' 1 (b.length - 1)).foldl (mulRow z a b) (write r 0 (row.1 ++ [row.2]))

def bnMulNormal (r a b : List ℕ) : List ℕ := if a.length < b.length then mulRows z r b a else mulRows z r a b

/-! ## Squares -/

/-- One row of the products of different words: the words above `k` times the word `k`. -/
def sqrRow (a r : List ℕ) (k : ℕ) : List ℕ :=
  let row := bnMulAddWords z ((r.drop (2 * k + 1)).take (a.length - 1 - k)) (a.drop (k + 1)) (a.getD k 0)
  write r (2 * k + 1) (row.1 ++ [row.2])

/-- The rows, after the first and the last word are cleared. -/
def sqrRows (r a : List ℕ) : List ℕ :=
  let r := write (write r 0 [0]) (2 * a.length - 1) [0]
  if a.length - 1 > 0 then
    let row := bnMulWords z (a.drop 1) (a.getD 0 0)
    (List.range' 1 (a.length - 2)).foldl (sqrRow z a) (write r 1 (row.1 ++ [row.2]))
  else r

/-- `bn_sqr_normal`; the carries of the two sums are not looked at. -/
def bnSqrNormal (r a : List ℕ) : List ℕ :=
  let r := sqrRows z r a
  let r := (bnAddWords z r r).1
  (bnAddWords z r (bnSqrWords z a)).1

end Model

section Specs
variable {z : WordSize}

@[simp] theorem fresh_length (mem : ℕ → ℕ) (n : ℕ) : (fresh mem n).length = n := by
  rw [fresh, List.length_map, List.length_range]

/-- The first `k` rows of a product are in memory. -/
structure Rows (z : WordSize) (a b : List ℕ) (k : ℕ) (r : List ℕ) : Prop where
  length : r.length = a.length + b.length
  small : Small z.base (r.take (a.length + k))
  value : Nat.ofDigits z.base (r.take (a.length + k)) = Nat.ofDigits z.base a * Nat.ofDigits z.base (b.take k)

theorem Rows.step {a b r : List ℕ} {k : ℕ} (ha : Small z.base a) (hb : Small z.base b) (hk : k < b.length)
    (h : Rows z a b k r) : Rows z a b (k + 1) (mulRow z a b r k) := by
  have hlen := h.length
  have hsplit := take_split r k a.length
  rw [Nat.add_comm k] at hsplit
  have hrlen : ((r.drop k).take a.length).length = a.length := by
    rw [List.length_take, List.length_drop]
    omega
  have hklen : (r.take k).length = k := by
    rw [List.length_take]
    omega
  have hs := h.small
  rw [hsplit] at hs
  obtain ⟨hlow, hhigh⟩ := small_append.mp hs
  obtain ⟨hl, hrs, hrc, hv⟩ := bnMulAddWords_spec hrlen hhigh ha (hb.getD z.base_pos k)
  have hwlen : ((bnMulAddWords z ((r.drop k).take a.length) a (b.getD k 0)).1 ++
      [(bnMulAddWords z ((r.drop k).take a.length) a (b.getD k 0)).2]).length = a.length + 1 := by
    rw [List.length_append, hl, List.length_singleton]
  have htake := write_take r k ((bnMulAddWords z ((r.drop k).take a.length) a (b.getD k 0)).1 ++
      [(bnMulAddWords z ((r.drop k).take a.length) a (b.getD k 0)).2]) (by omega)
  rw [hwlen, show k + (a.length + 1) = a.length + (k + 1) from by omega] at htake
  refine ⟨?_, ?_, ?_⟩
  · rw [mulRow, write_length (by rw [hwlen]; omega), hlen]
  · rw [mulRow, htake]
    exact small_append.mpr ⟨hlow, small_append.mpr ⟨hrs, small_cons.mpr ⟨hrc, Small.nil⟩⟩⟩
  · have hvalue := h.value
    rw [hsplit, Nat.ofDigits_append, hklen] at hvalue
    rw [mulRow, htake, Nat.ofDigits_append, Nat.ofDigits_append, Nat.ofDigits_singleton, hklen, hl, hv,
      ofDigits_take_succ b hk]
    linarith

theorem mulRows_spec {a b r : List ℕ} (ha : Small z.base a) (hb : Small z.base b) (hpos : 0 < b.length)
    (hr : r.length = a.length + b.length) :
    (mulRows z r a b).length = a.length + b.length ∧ Small z.base (mulRows z r a b) ∧
      Nat.ofDigits z.base (mulRows z r a b) = Nat.ofDigits z.base a * Nat.ofDigits z.base b := by
  obtain ⟨hl, hrs, hrc, hv⟩ := bnMulWords_spec ha (hb.getD z.base_pos 0)
  have hwlen : ((bnMulWords z a (b.getD 0 0)).1 ++ [(bnMulWords z a (b.getD 0 0)).2]).length = a.length + 1 := by
    rw [List.length_append, hl, List.length_singleton]
  have htake := write_take r 0 ((bnMulWords z a (b.getD 0 0)).1 ++ [(bnMulWords z a (b.getD 0 0)).2])
    (Nat.zero_le _)
  rw [hwlen, Nat.zero_add, List.take_zero, List.nil_append] at htake
  have hfirst : Rows z a b 1 (write r 0 ((bnMulWords z a (b.getD 0 0)).1 ++ [(bnMulWords z a (b.getD 0 0)).2])) := by
    refine ⟨?_, ?_, ?_⟩
    · rw [write_length (by rw [hwlen]; omega), hr]
    · rw [htake]
      exact small_append.mpr ⟨hrs, small_cons.mpr ⟨hrc, Small.nil⟩⟩
    · rw [htake, Nat.ofDigits_append, Nat.ofDigits_singleton, hl, hv, ofDigits_take_succ b hpos]
      simp
  have hall := foldl_range' (s := 1) (n := b.length - 1) (f := mulRow z a b) (P := Rows z a b)
    (fun i r _ hi h => h.step ha hb (by omega)) hfirst
  rw [show 1 + (b.length - 1) = b.length from by omega] at hall
  have hlen := hall.length
  have hsmall := hall.small
  have hvalue := hall.value
  rw [List.take_of_length_le hlen.le] at hsmall hvalue
  rw [List.take_length] at hvalue
  exact ⟨hlen, hsmall, hvalue⟩

theorem bnMulNormal_spec {a b r : List ℕ} (ha : Small z.base a) (hb : Small z.base b) (hapos : 0 < a.length)
    (hbpos : 0 < b.length) (hr : r.length = a.length + b.length) :
    (bnMulNormal z r a b).length = a.length + b.length ∧ Small z.base (bnMulNormal z r a b) ∧
      Nat.ofDigits z.base (bnMulNormal z r a b) = Nat.ofDigits z.base a * Nat.ofDigits z.base b := by
  rw [bnMulNormal]
  split
  · rw [Nat.add_comm] at hr ⊢
    rw [Nat.mul_comm]
    exact mulRows_spec hb ha hapos hr
  · exact mulRows_spec ha hb hbpos hr

/-! ## Squares -/

/-- The squares of the words. -/
def squares (b : ℕ) (a : List ℕ) (k : ℕ) : ℕ := ∑ i ∈ Finset.range k, b ^ (2 * i) * (a.getD i 0 * a.getD i 0)

/-- The products of different words, each once. -/
def crossed (b : ℕ) (a : List ℕ) (k : ℕ) : ℕ :=
  ∑ i ∈ Finset.range k, b ^ (2 * i + 1) * (a.getD i 0 * Nat.ofDigits b (a.drop (i + 1)))

theorem square_split (b : ℕ) (a : List ℕ) {k : ℕ} (hk : k ≤ a.length) :
    Nat.ofDigits b a * Nat.ofDigits b a =
      squares b a k + 2 * crossed b a k + b ^ (2 * k) * (Nat.ofDigits b (a.drop k) * Nat.ofDigits b (a.drop k)) := by
  induction k with
  | zero => simp [squares, crossed]
  | succ k ih =>
    rw [ih (by omega), squares, squares, crossed, crossed, Finset.sum_range_succ, Finset.sum_range_succ,
      drop_eq_getD_cons a (show k < a.length by omega), Nat.ofDigits_cons]
    rw [show 2 * (k + 1) = 2 * k + 1 + 1 from by ring, pow_succ b (2 * k + 1), pow_succ b (2 * k)]
    ring

theorem square_eq (b : ℕ) (a : List ℕ) :
    Nat.ofDigits b a * Nat.ofDigits b a = squares b a a.length + 2 * crossed b a (a.length - 1) := by
  have h := square_split b a le_rfl
  rw [List.drop_length, Nat.ofDigits_nil, Nat.mul_zero, Nat.add_zero] at h
  rw [h]
  cases hlen : a.length with
  | zero => rfl
  | succ n =>
    rw [crossed, Finset.sum_range_succ, ← crossed, ← hlen, List.drop_length, Nat.ofDigits_nil, Nat.mul_zero, Nat.mul_zero,
      Nat.add_zero, hlen, Nat.add_sub_cancel]

theorem bnSqrWords_value {a : List ℕ} (ha : Small z.base a) :
    Nat.ofDigits z.base (bnSqrWords z a) = squares z.base a a.length := by
  have htake (k : ℕ) (hk : k ≤ a.length) :
      Nat.ofDigits z.base (bnSqrWords z (a.take k)) = squares z.base a k := by
    induction k with
    | zero => rfl
    | succ k ih =>
      have hd : a.getD k 0 < z.base := ha.getD z.base_pos k
      have hlen := bnSqrWords_length (z := z) (a.take k)
      rw [List.length_take, Nat.min_eq_left (by omega)] at hlen
      rw [take_succ_getD a (by omega), bnSqrWords, List.flatMap_append, ← bnSqrWords, List.flatMap_singleton,
        Nat.ofDigits_append, ih (by omega), hlen, sqr64_eq hd, Nat.ofDigits_cons, Nat.ofDigits_singleton, squares, squares,
        Finset.sum_range_succ, Nat.mod_add_div]
  have h := htake a.length le_rfl
  rwa [List.take_length] at h

/-- The first `k` rows of the crossed products are in memory, and the last word is clear. -/
structure Crossed (z : WordSize) (a : List ℕ) (k : ℕ) (r : List ℕ) : Prop where
  length : r.length = 2 * a.length
  small : Small z.base (r.take (a.length + k))
  value : Nat.ofDigits z.base (r.take (a.length + k)) = crossed z.base a k
  last : r.drop (2 * a.length - 1) = [0]

theorem Crossed.step {a r : List ℕ} {k : ℕ} (ha : Small z.base a) (hk : k + 1 < a.length) (h : Crossed z a k r) :
    Crossed z a (k + 1) (sqrRow z a r k) := by
  have hlen := h.length
  have hsplit := take_split r (2 * k + 1) (a.length - 1 - k)
  rw [show 2 * k + 1 + (a.length - 1 - k) = a.length + k from by omega] at hsplit
  have hdlen : (a.drop (k + 1)).length = a.length - 1 - k := by
    rw [List.length_drop]
    omega
  have hrlen : ((r.drop (2 * k + 1)).take (a.length - 1 - k)).length = (a.drop (k + 1)).length := by
    rw [hdlen, List.length_take, List.length_drop]
    omega
  have hklen : (r.take (2 * k + 1)).length = 2 * k + 1 := by
    rw [List.length_take]
    omega
  have hs := h.small
  rw [hsplit] at hs
  obtain ⟨hlow, hhigh⟩ := small_append.mp hs
  obtain ⟨hl, hrs, hrc, hv⟩ := bnMulAddWords_spec hrlen hhigh (ha.drop (k + 1)) (ha.getD z.base_pos k)
  rw [hdlen] at hl hv
  obtain ⟨row, hrow⟩ : ∃ row, row =
      bnMulAddWords z ((r.drop (2 * k + 1)).take (a.length - 1 - k)) (a.drop (k + 1)) (a.getD k 0) := ⟨_, rfl⟩
  rw [← hrow] at hl hrs hrc hv
  have hwlen : (row.1 ++ [row.2]).length = a.length - k := by
    rw [List.length_append, hl, List.length_singleton]
    omega
  have hfits : 2 * k + 1 + (row.1 ++ [row.2]).length ≤ r.length := by omega
  have htake := write_take r (2 * k + 1) (row.1 ++ [row.2]) (by omega)
  rw [hwlen, show 2 * k + 1 + (a.length - k) = a.length + (k + 1) from by omega] at htake
  have hdef : sqrRow z a r k = write r (2 * k + 1) (row.1 ++ [row.2]) := by rw [sqrRow, hrow]
  rw [hdef]
  refine ⟨by rw [write_length hfits, hlen], ?_, ?_, ?_⟩
  · rw [htake]
    exact small_append.mpr ⟨hlow, small_append.mpr ⟨hrs, small_cons.mpr ⟨hrc, Small.nil⟩⟩⟩
  · have hvalue := h.value
    rw [hsplit, Nat.ofDigits_append, hklen] at hvalue
    rw [htake, Nat.ofDigits_append, Nat.ofDigits_append, Nat.ofDigits_singleton, hklen, hl, hv, crossed,
      Finset.sum_range_succ, ← crossed, ← hvalue]
    ring
  · rw [write_drop hfits (by omega)]
    exact h.last

theorem sqrRows_spec {a r : List ℕ} (ha : Small z.base a) (hpos : 0 < a.length) (hr : r.length = 2 * a.length) :
    (sqrRows z r a).length = 2 * a.length ∧ Small z.base (sqrRows z r a) ∧
      Nat.ofDigits z.base (sqrRows z r a) = crossed z.base a (a.length - 1) := by
  have hfits : 0 + [0].length ≤ r.length := by
    rw [List.length_singleton]
    omega
  have hlen0 : (write r 0 [0]).length = 2 * a.length := by rw [write_length hfits, hr]
  have hfits' : 2 * a.length - 1 + [0].length ≤ (write r 0 [0]).length := by
    rw [hlen0, List.length_singleton]
    omega
  obtain ⟨r', hr'⟩ : ∃ r', r' = write (write r 0 [0]) (2 * a.length - 1) [0] := ⟨_, rfl⟩
  have hlen' : r'.length = 2 * a.length := by rw [hr', write_length hfits', hlen0]
  have hfirst : r'.take 1 = [0] := by
    rw [hr', write, List.append_assoc, List.take_append_of_le_length (by rw [List.length_take]; omega), List.take_take,
      Nat.min_eq_left (by omega)]
    exact write_take r 0 [0] (Nat.zero_le _)
  have hlast : r'.drop (2 * a.length - 1) = [0] := by
    rw [hr', write, List.append_assoc, List.drop_left' (by rw [List.length_take]; omega), List.drop_eq_nil_of_le]
    · rfl
    · rw [hlen0, List.length_singleton]
      omega
  have hall : Crossed z a (a.length - 1) (sqrRows z r a) := by
    rw [sqrRows, ← hr']
    dsimp only
    split
    · next hmany =>
      obtain ⟨hl, hrs, hrc, hv⟩ := bnMulWords_spec (ha.drop 1) (ha.getD z.base_pos 0)
      rw [List.length_drop] at hl hv
      have hwlen : ((bnMulWords z (a.drop 1) (a.getD 0 0)).1 ++ [(bnMulWords z (a.drop 1) (a.getD 0 0)).2]).length =
          a.length := by
        rw [List.length_append, hl, List.length_singleton]
        omega
      have htake := write_take r' 1
        ((bnMulWords z (a.drop 1) (a.getD 0 0)).1 ++ [(bnMulWords z (a.drop 1) (a.getD 0 0)).2]) (by omega)
      rw [hwlen, Nat.add_comm 1, hfirst] at htake
      have hrow : Crossed z a 1
          (write r' 1 ((bnMulWords z (a.drop 1) (a.getD 0 0)).1 ++ [(bnMulWords z (a.drop 1) (a.getD 0 0)).2])) := by
        refine ⟨?_, ?_, ?_, ?_⟩
        · rw [write_length (by rw [hwlen]; omega), hlen']
        · rw [htake]
          exact small_append.mpr ⟨small_cons.mpr ⟨z.base_pos, Small.nil⟩,
            small_append.mpr ⟨hrs, small_cons.mpr ⟨hrc, Small.nil⟩⟩⟩
        · rw [htake, Nat.ofDigits_append, Nat.ofDigits_append, Nat.ofDigits_singleton, Nat.ofDigits_singleton, hl, hv,
            crossed, Finset.sum_range_one, List.length_singleton]
          ring
        · rw [write_drop (by rw [hwlen]; omega) (by rw [hwlen]; omega), hlast]
      have hrows := foldl_range' (s := 1) (n := a.length - 2) (f := sqrRow z a) (P := Crossed z a)
        (fun i r _ hi h => h.step ha (by omega)) hrow
      rwa [show 1 + (a.length - 2) = a.length - 1 from by omega] at hrows
    · next hone =>
      have hlen1 : a.length = 1 := by omega
      refine ⟨hlen', ?_, ?_, hlast⟩
      · rw [hlen1, hfirst]
        exact small_cons.mpr ⟨z.base_pos, Small.nil⟩
      · rw [hlen1, hfirst]
        rfl
  have hlen := hall.length
  have htop := List.take_append_drop (2 * a.length - 1) (sqrRows z r a)
  rw [hall.last] at htop
  have hsmall := hall.small
  have hvalue := hall.value
  rw [show a.length + (a.length - 1) = 2 * a.length - 1 from by omega] at hsmall hvalue
  rw [← htop]
  refine ⟨by rw [htop, hlen], small_append.mpr ⟨hsmall, small_cons.mpr ⟨z.base_pos, Small.nil⟩⟩, ?_⟩
  rw [Nat.ofDigits_append_zero, hvalue]

theorem bnAddWords_noCarry {a b : List ℕ} (hlen : a.length = b.length) (ha : Small z.base a) (hb : Small z.base b)
    (hlt : Nat.ofDigits z.base a + Nat.ofDigits z.base b < z.base ^ a.length) :
    (bnAddWords z a b).1.length = a.length ∧ Small z.base (bnAddWords z a b).1 ∧
      Nat.ofDigits z.base (bnAddWords z a b).1 = Nat.ofDigits z.base a + Nat.ofDigits z.base b := by
  obtain ⟨hl, hs, hc, hv⟩ := addLoop_spec hlen ha hb (Nat.zero_le 1)
  refine ⟨hl, hs, ?_⟩
  have hzero : (addLoop z a b 0).2 = 0 := by
    by_contra hne
    have hone : (addLoop z a b 0).2 = 1 := by omega
    rw [hone, Nat.mul_one] at hv
    omega
  rw [hzero, Nat.mul_zero, Nat.add_zero, Nat.add_zero] at hv
  exact hv

theorem bnSqrNormal_spec {a r : List ℕ} (ha : Small z.base a) (hpos : 0 < a.length) (hr : r.length = 2 * a.length) :
    (bnSqrNormal z r a).length = 2 * a.length ∧ Small z.base (bnSqrNormal z r a) ∧
      Nat.ofDigits z.base (bnSqrNormal z r a) = Nat.ofDigits z.base a * Nat.ofDigits z.base a := by
  obtain ⟨hl, hs, hv⟩ := sqrRows_spec ha hpos hr
  have hsq := square_eq z.base a
  have hlt : Nat.ofDigits z.base a * Nat.ofDigits z.base a < z.base ^ (2 * a.length) := by
    rw [two_mul, pow_add]
    exact Nat.mul_lt_mul'' (ha.lt z.one_lt_base) (ha.lt z.one_lt_base)
  obtain ⟨hl2, hs2, hv2⟩ := bnAddWords_noCarry rfl hs hs (by rw [hl, hv]; omega)
  rw [hl] at hl2
  rw [hv, ← two_mul] at hv2
  have hwlen : (bnAddWords z (sqrRows z r a) (sqrRows z r a)).1.length = (bnSqrWords z a).length := by
    rw [hl2, bnSqrWords_length]
  obtain ⟨hl3, hs3, hv3⟩ := bnAddWords_noCarry hwlen hs2 (bnSqrWords_small ha)
    (by rw [hl2, hv2, bnSqrWords_value ha]; omega)
  refine ⟨hl3.trans hl2, hs3, ?_⟩
  rw [bnSqrNormal, hv3, hv2, bnSqrWords_value ha, hsq]
  ring

end Specs

/-! ## Numbers -/

section Numbers
variable {z : WordSize} (mem : ℕ → ℕ)

/-- `BN_mul`, with what the memory of the result holds. -/
def bnMul (a b : BigNum z) : BigNum z :=
  if h : a.top = 0 ∨ b.top = 0 then .zero
  else
    have hspec := bnMulNormal_spec a.small b.small (Nat.pos_of_ne_zero fun h0 => h (Or.inl h0))
      (Nat.pos_of_ne_zero fun h0 => h (Or.inr h0)) (fresh_length mem (a.top + b.top))
    .ofWords (bnMulNormal z (fresh mem (a.top + b.top)) a.d b.d) hspec.2.1 (a.neg ^^ b.neg)

/-- Less one word at the top where it is zero. -/
def dropZero (ds : List ℕ) : List ℕ := if ds.getLast? = some 0 then ds.dropLast else ds

theorem dropZero_spec {ds : List ℕ} (h : Small z.base ds) :
    Small z.base (dropZero ds) ∧ Nat.ofDigits z.base (dropZero ds) = Nat.ofDigits z.base ds ∧
      (z.base ^ (ds.length - 2) ≤ Nat.ofDigits z.base ds → Fixed (dropZero ds)) := by
  rw [dropZero]
  split
  · next hlast =>
    obtain ⟨es, rfl⟩ := List.getLast?_eq_some_iff.mp hlast
    rw [List.dropLast_concat, Nat.ofDigits_append_zero, List.length_append, List.length_singleton]
    have hes := (small_append.mp h).1
    exact ⟨hes, rfl, fun hle => fixed_of_le z.one_lt_base hes fun _ => hle⟩
  · next hlast => exact ⟨h, rfl, fun _ => hlast⟩

theorem dropZero_square (a : BigNum z) (h : a.top ≠ 0) :
    Small z.base (dropZero (bnSqrNormal z (fresh mem (2 * a.top)) a.d)) ∧
      Fixed (dropZero (bnSqrNormal z (fresh mem (2 * a.top)) a.d)) ∧
      Nat.ofDigits z.base (dropZero (bnSqrNormal z (fresh mem (2 * a.top)) a.d)) = a.abs * a.abs := by
  have hpos : 0 < a.d.length := Nat.pos_of_ne_zero h
  obtain ⟨hl, hs, hv⟩ := bnSqrNormal_spec a.small hpos (fresh_length mem (2 * a.top))
  obtain ⟨hds, hdv, hdf⟩ := dropZero_spec hs
  refine ⟨hds, hdf ?_, hdv.trans hv⟩
  have hle : z.base ^ (a.d.length - 1) ≤ Nat.ofDigits z.base a.d := a.fixed.le (List.ne_nil_of_length_pos hpos)
  rw [hl, hv, show 2 * a.d.length - 2 = a.d.length - 1 + (a.d.length - 1) from by omega, pow_add]
  exact Nat.mul_le_mul hle hle

/-- `BN_sqr` into another number; `mem` is what its memory holds. -/
def bnSqr (a : BigNum z) : BigNum z :=
  if h : a.top = 0 then .zero
  else
    have hspec := dropZero_square mem a h
    ⟨dropZero (bnSqrNormal z (fresh mem (2 * a.top)) a.d), false, hspec.1, hspec.2.1⟩

theorem BigNum.abs_of_top {a : BigNum z} (h : a.top = 0) : a.abs = 0 := by
  rw [abs, List.length_eq_zero_iff.mp h, Nat.ofDigits_nil]

theorem bnMul_spec (a b : BigNum z) : (bnMul mem a b).abs = a.abs * b.abs ∧
    ((bnMul mem a b).top ≠ 0 → (bnMul mem a b).neg = (a.neg ^^ b.neg)) := by
  rw [bnMul]
  split
  · next h =>
    refine ⟨?_, fun hne => absurd rfl hne⟩
    rcases h with h | h
    · rw [BigNum.abs_of_top h, Nat.zero_mul]
      rfl
    · rw [BigNum.abs_of_top h, Nat.mul_zero]
      rfl
  · next h =>
    have hspec := bnMulNormal_spec a.small b.small (Nat.pos_of_ne_zero fun h0 => h (Or.inl h0))
      (Nat.pos_of_ne_zero fun h0 => h (Or.inr h0)) (fresh_length mem (a.top + b.top))
    refine ⟨?_, fun _ => rfl⟩
    rw [BigNum.ofWords_abs]
    exact hspec.2.2

theorem bnMul_value (a b : BigNum z) : (bnMul mem a b).value = a.value * b.value := by
  obtain ⟨habs, hneg⟩ := bnMul_spec mem a b
  by_cases htop : (bnMul mem a b).top = 0
  · have hzero := BigNum.abs_of_top htop
    rw [habs] at hzero
    rw [BigNum.value, habs, BigNum.value, BigNum.value]
    rcases Nat.mul_eq_zero.mp hzero with h | h <;> rw [h] <;> simp
  · rw [BigNum.value, habs, hneg htop, BigNum.value, BigNum.value]
    cases a.neg <;> cases b.neg <;> simp

theorem bnSqr_abs (a : BigNum z) : (bnSqr mem a).abs = a.abs * a.abs ∧ (bnSqr mem a).neg = false := by
  rw [bnSqr]
  split
  · next h =>
    rw [BigNum.abs_of_top h]
    exact ⟨rfl, rfl⟩
  · next h => exact ⟨(dropZero_square mem a h).2.2, rfl⟩

/-- `BN_mul` and `BN_sqr` give the product and the square, whatever their memory held. -/
theorem bn_products (a b : BigNum z) :
    (bnMul mem a b).value = a.value * b.value ∧ (bnSqr mem a).value = a.value * a.value := by
  obtain ⟨habs, hneg⟩ := bnSqr_abs mem a
  refine ⟨bnMul_value mem a b, ?_⟩
  rw [BigNum.value_of_neg habs hneg, if_neg Bool.false_ne_true, BigNum.value]
  push_cast
  split <;> ring

end Numbers

end Neufbox.Bignum
