import Mathlib.Tactic

/-! Absorbing a stream into a chained state block by block: what is left over waits for more input. The
result depends on what is absorbed, not on the pieces it comes in. -/
namespace Neufbox.Absorb
set_option autoImplicit false
set_option maxHeartbeats 250000

section Absorb
variable {σ α : Type} (f : σ → List α → σ) (k : ℕ)

/-- One element goes to the end of the waiting ones; a full block is chained. -/
def push (st : σ × List α) (x : α) : σ × List α :=
  if st.2.length + 1 = k then (f st.1 (st.2 ++ [x]), []) else (st.1, st.2 ++ [x])

def absorb (st : σ × List α) (xs : List α) : σ × List α := xs.foldl (push f k) st

/-- The first `n` blocks of a stream. -/
def blocks (n : ℕ) (xs : List α) : List (List α) := (List.range n).map fun i => (xs.drop (i * k)).take k

@[simp] theorem absorb_nil (st : σ × List α) : absorb f k st [] = st := rfl

theorem absorb_append (st : σ × List α) (xs ys : List α) :
    absorb f k st (xs ++ ys) = absorb f k (absorb f k st xs) ys := List.foldl_append

variable {k}

/-- Less than a block only waits. -/
theorem absorb_short (st : σ × List α) (xs : List α) (h : st.2.length + xs.length < k) :
    absorb f k st xs = (st.1, st.2 ++ xs) := by
  induction xs generalizing st with
  | nil => rw [absorb_nil, List.append_nil]
  | cons x xs ih =>
    rw [List.length_cons] at h
    have hpush : push f k st x = (st.1, st.2 ++ [x]) := if_neg (by omega)
    rw [absorb, List.foldl_cons, hpush, ← absorb, ih _ (by
      rw [List.length_append, List.length_singleton]
      omega), List.append_assoc, List.singleton_append]

/-- What fills a block is chained with what waits. -/
theorem absorb_fill (st : σ × List α) (xs : List α) (hst : st.2.length < k) (h : st.2.length + xs.length = k) :
    absorb f k st xs = (f st.1 (st.2 ++ xs), []) := by
  obtain ⟨ys, y, rfl⟩ : ∃ ys y, xs = ys ++ [y] := by
    rcases List.eq_nil_or_concat xs with hnil | ⟨ys, y, hys⟩
    · rw [hnil, List.length_nil] at h
      omega
    · exact ⟨ys, y, by rw [hys, List.concat_eq_append]⟩
  rw [List.length_append, List.length_singleton] at h
  rw [absorb_append, absorb_short f st ys (by omega), absorb, List.foldl_cons, List.foldl_nil, push,
    if_pos (by rw [List.length_append]; omega), List.append_assoc]

/-- Whole blocks, with nothing waiting. -/
theorem absorb_blocks (hk : 0 < k) (n : ℕ) (s : σ) (xs : List α) (hxs : xs.length = n * k) :
    absorb f k (s, []) xs = ((blocks k n xs).foldl f s, []) := by
  induction n generalizing s xs with
  | zero =>
    rw [Nat.zero_mul, List.length_eq_zero_iff] at hxs
    rw [hxs]
    rfl
  | succ n ih =>
    rw [Nat.succ_mul] at hxs
    have htake : (xs.take k).length = k := by rw [List.length_take]; omega
    have hblocks : blocks k (n + 1) xs = xs.take k :: blocks k n (xs.drop k) := by
      rw [blocks, List.range_succ_eq_map, List.map_cons, List.map_map, Nat.zero_mul, List.drop_zero]
      refine congrArg _ (List.map_congr_left fun i _ => ?_)
      rw [Function.comp_apply, List.drop_drop, Nat.succ_mul, Nat.add_comm]
    conv_lhs => rw [← List.take_append_drop k xs]
    rw [absorb_append, absorb_fill f (s, []) (xs.take k) hk (by rw [List.length_nil, htake, Nat.zero_add]),
      List.nil_append, ih _ _ (by rw [List.length_drop]; omega), hblocks, List.foldl_cons]

end Absorb

end Neufbox.Absorb
