import Mathlib.Tactic

/-! # Sums over pairs

A sum over a stream that takes its items in pairs. What is left of a stream is the sum and the item, if there is one,
that waits for the next. A state that is fed in calls of any length has seen the stream of all calls
(`seen_foldl`), however it keeps the waiting item. -/
namespace Neufbox.Library.Pairs
set_option autoImplicit false
set_option maxHeartbeats 250000
set_option maxRecDepth 120000

variable {σ α τ γ : Type} (add : σ → α → α → σ)

def foldPairs : σ → List α → σ × List α
  | s, a :: b :: xs => foldPairs (add s a b) xs
  | s, xs => (s, xs)

theorem foldPairs_append (s : σ) (xs ys : List α) :
    foldPairs add s (xs ++ ys) = foldPairs add (foldPairs add s xs).1 ((foldPairs add s xs).2 ++ ys) := by
  induction s, xs using foldPairs.induct add with
  | case1 s a b xs ih => exact ih
  | case2 s xs hrest => rw [foldPairs.eq_2 add s xs hrest]

theorem foldPairs_short (s : σ) {xs : List α} (h : xs.length ≤ 1) : foldPairs add s xs = (s, xs) := by
  apply foldPairs.eq_2
  intro a b ys hxs
  rw [hxs, List.length_cons, List.length_cons] at h
  omega

/-- No more than one item waits, and none behind an even number. -/
theorem foldPairs_rest (s : σ) (xs : List α) : (foldPairs add s xs).2.length = xs.length % 2 := by
  induction s, xs using foldPairs.induct add with
  | case1 s a b xs ih =>
    rw [foldPairs, ih, List.length_cons, List.length_cons]
    omega
  | case2 s xs hrest =>
    rw [foldPairs.eq_2 add s xs hrest]
    match xs with
    | [] => rfl
    | [a] => rfl
    | a :: b :: xs => exact (hrest a b xs rfl).elim

theorem foldPairs_even (s : σ) {xs : List α} (h : 2 ∣ xs.length) : (foldPairs add s xs).2 = [] :=
  List.length_eq_zero_iff.mp ((foldPairs_rest add s xs).trans (Nat.mod_eq_zero_of_dvd h))

section Calls
variable {add} {seen : τ → σ × List α} {update : τ → γ → τ} {items : γ → List α}
  (hupdate : ∀ t p, seen (update t p) = foldPairs add (seen t).1 ((seen t).2 ++ items p))
include hupdate

/-- A state has seen what all calls together bring. -/
theorem seen_foldl {t : τ} (ht : (seen t).2.length ≤ 1) (ps : List γ) :
    seen (ps.foldl update t) = foldPairs add (seen t).1 ((seen t).2 ++ ps.flatMap items) := by
  induction ps generalizing t with
  | nil => rw [List.flatMap_nil, List.append_nil, foldPairs_short add _ ht]; rfl
  | cons p ps ih =>
    have hrest : (seen (update t p)).2.length ≤ 1 := by
      rw [hupdate, foldPairs_rest]
      omega
    rw [List.foldl_cons, ih hrest, hupdate, ← foldPairs_append, List.append_assoc, List.flatMap_cons]

end Calls

end Neufbox.Library.Pairs
