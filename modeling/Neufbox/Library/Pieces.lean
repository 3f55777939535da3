import Mathlib.Tactic

/-! # Work done in pieces

A loop that takes up to `n` items at a time and feeds them to a step. Where two steps in a row do what one step
does on the items together, the loop does what one step on all items does, whatever `n` is. -/
namespace Neufbox.Library.Pieces
set_option autoImplicit false
set_option maxHeartbeats 250000
set_option maxRecDepth 120000

variable {σ α : Type}

/-- The loop; the first number bounds its turns. -/
def inPieces (n : ℕ) (step : σ → List α → σ) : ℕ → List α → σ → σ
  | 0, _, s => s
  | k + 1, items, s => if items = [] then s else inPieces n step k (items.drop n) (step s (items.take n))

theorem inPieces_eq {n : ℕ} (hn : 0 < n) (step : σ → List α → σ) (hnil : ∀ s, step s [] = s)
    (happend : ∀ s xs ys, step (step s xs) ys = step s (xs ++ ys)) (k : ℕ) (items : List α) (s : σ)
    (hk : items.length ≤ k) : inPieces n step k items s = step s items := by
  induction k generalizing items s with
  | zero =>
    rw [List.length_eq_zero_iff.mp (Nat.le_zero.mp hk), hnil]
    rfl
  | succ k ih =>
    rw [inPieces]
    by_cases hitems : items = []
    · rw [if_pos hitems, hitems, hnil]
    · have hpos := List.length_pos_iff.mpr hitems
      rw [if_neg hitems, ih _ _ (by rw [List.length_drop]; omega), happend, List.take_append_drop]

/-- What a step does to a part of the state, the loop does to it. -/
theorem inPieces_map {τ : Type} (part : σ → τ) {n : ℕ} {step : σ → List α → σ} (step' : τ → List α → τ)
    (hstep : ∀ s items, part (step s items) = step' (part s) items) (k : ℕ) (items : List α) (s : σ) :
    part (inPieces n step k items s) = inPieces n step' k items (part s) := by
  induction k generalizing items s with
  | zero => rfl
  | succ k ih =>
    rw [inPieces, inPieces]
    by_cases hitems : items = []
    · rw [if_pos hitems, if_pos hitems]
    · rw [if_neg hitems, if_neg hitems, ih, hstep]

/-- A loop whose steps append to a part of the state appends everything. -/
theorem inPieces_appends {part : σ → List α} {n : ℕ} (hn : 0 < n) {step : σ → List α → σ}
    (hstep : ∀ s items, part (step s items) = part s ++ items) {k : ℕ} {items : List α} (hk : items.length ≤ k) (s : σ) :
    part (inPieces n step k items s) = part s ++ items := by
  rw [inPieces_map part (fun bytes items => bytes ++ items) hstep]
  exact inPieces_eq hn _ List.append_nil (fun bytes xs ys => List.append_assoc bytes xs ys) _ _ _ hk

/-- The loop takes the items in some pieces, none of them empty. -/
theorem inPieces_split {n : ℕ} (hn : 0 < n) (step : σ → List α → σ) {k : ℕ} {items : List α} (hk : items.length ≤ k)
    (s : σ) : ∃ ps : List (List α), (∀ p ∈ ps, p ≠ []) ∧ ps.flatten = items ∧ inPieces n step k items s = ps.foldl step s := by
  induction k generalizing items s with
  | zero =>
    obtain rfl := List.length_eq_zero_iff.mp (Nat.le_zero.mp hk)
    exact ⟨[], by simp, rfl, rfl⟩
  | succ k ih =>
    rw [inPieces]
    by_cases hitems : items = []
    · rw [if_pos hitems]
      exact ⟨[], by simp, hitems.symm, rfl⟩
    · have hpos := List.length_pos_iff.mpr hitems
      obtain ⟨ps, hne, hflat, hrun⟩ := @ih (items.drop n) (by rw [List.length_drop]; omega) (step s (items.take n))
      have hfirst : items.take n ≠ [] := by
        rw [← List.length_pos_iff, List.length_take]
        omega
      rw [if_neg hitems, hrun]
      refine ⟨items.take n :: ps, ?_, ?_, rfl⟩
      · intro p hp
        rcases List.mem_cons.mp hp with rfl | hp
        · exact hfirst
        · exact hne p hp
      · rw [List.flatten_cons, hflat, List.take_append_drop]

end Neufbox.Library.Pieces
