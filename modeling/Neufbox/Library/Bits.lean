import Mathlib.Tactic

/-! # Bits of words

Words as sets of bits: single bits that are tested, set and cleared, and fields that are replaced in a word. -/
namespace Neufbox.Library.Bits
set_option autoImplicit false
set_option maxHeartbeats 250000
set_option maxRecDepth 120000

variable {w : ℕ}

/-! ## Single bits -/

theorem and_twoPow_ne_zero_iff (x : BitVec w) (i : ℕ) : x &&& BitVec.twoPow w i ≠ 0 ↔ x.getLsbD i = true := by
  rw [BitVec.and_twoPow]
  by_cases hbit : x.getLsbD i = true
  · have hi : i < w := BitVec.lt_of_getLsbD hbit
    rw [if_pos hbit]
    refine ⟨fun _ => hbit, fun _ h => ?_⟩
    have hzero := congrArg (fun y => y.getLsbD i) h
    simp [hi] at hzero
  · simp [hbit]

theorem getLsbD_or_twoPow (x : BitVec w) (i j : ℕ) (hi : i < w) :
    (x ||| BitVec.twoPow w i).getLsbD j = (x.getLsbD j || decide (i = j)) := by
  rw [BitVec.getLsbD_or, BitVec.getLsbD_twoPow]
  simp [hi]

theorem getLsbD_and_not_twoPow (x : BitVec w) (i j : ℕ) (hi : i < w) :
    (x &&& ~~~BitVec.twoPow w i).getLsbD j = (x.getLsbD j && !decide (i = j)) := by
  rw [BitVec.getLsbD_and, BitVec.getLsbD_not, BitVec.getLsbD_twoPow]
  by_cases hj : j < w
  · simp [hi, hj]
  · simp [BitVec.getLsbD_of_ge x j (by omega)]

/-! ## Fields -/

/-- Behind a read, a mask and a write, the bits of the mask are those of the value. -/
theorem getLsbD_replace (old mask val : BitVec w) {i : ℕ} (hmask : mask.getLsbD i = true) :
    ((old &&& ~~~mask) ||| val).getLsbD i = val.getLsbD i := by
  rw [BitVec.getLsbD_or, BitVec.getLsbD_and, BitVec.getLsbD_not, hmask]
  simp

/-! ## Parities over a list -/

section Parity
variable {ι : Type} {l : List ι} {f g : ι → BitVec w}

theorem xor_and (x y mask : BitVec w) : (x ^^^ y) &&& mask = (x &&& mask) ^^^ (y &&& mask) := by
  ext i hi
  simp [Bool.and_xor_distrib_right]

theorem foldl_xor_out (l : List ι) (f : ι → BitVec w) (a b : BitVec w) :
    l.foldl (fun acc j => acc ^^^ f j) (a ^^^ b) = l.foldl (fun acc j => acc ^^^ f j) a ^^^ b := by
  induction l generalizing a with
  | nil => rfl
  | cons j l ih =>
    have hswap : a ^^^ b ^^^ f j = a ^^^ f j ^^^ b := by
      rw [BitVec.xor_assoc, BitVec.xor_comm b, ← BitVec.xor_assoc]
    rw [List.foldl_cons, List.foldl_cons, hswap, ih]

/-- A parity over values of which one is changed. -/
theorem foldl_xor_change {i : ι} (hnodup : l.Nodup) (hi : i ∈ l) (hother : ∀ j ∈ l, j ≠ i → g j = f j) (a : BitVec w) :
    l.foldl (fun acc j => acc ^^^ g j) a = l.foldl (fun acc j => acc ^^^ f j) a ^^^ (f i ^^^ g i) := by
  induction l generalizing a with
  | nil => cases hi
  | cons j l ih =>
    obtain ⟨hj, hnodup⟩ := List.nodup_cons.mp hnodup
    rw [List.foldl_cons, List.foldl_cons]
    by_cases hij : j = i
    · subst hij
      have hrest : ∀ b, l.foldl (fun acc k => acc ^^^ g k) b = l.foldl (fun acc k => acc ^^^ f k) b := by
        intro b
        apply List.foldl_ext
        intro acc k hk
        rw [hother k (List.mem_cons_of_mem _ hk) fun h => hj (h ▸ hk)]
      have hchange : a ^^^ g j = a ^^^ f j ^^^ (f j ^^^ g j) := by
        rw [BitVec.xor_assoc, ← BitVec.xor_assoc (f j), BitVec.xor_self, BitVec.zero_xor]
      rw [hrest, hchange, foldl_xor_out]
    · have hmem : i ∈ l := (List.mem_cons.mp hi).resolve_left (Ne.symm hij)
      rw [ih hnodup hmem (fun k hk => hother k (List.mem_cons_of_mem _ hk)), hother j List.mem_cons_self hij]

end Parity

end Neufbox.Library.Bits
