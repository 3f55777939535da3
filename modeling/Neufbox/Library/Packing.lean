import Neufbox.Library.WrapArith

/-! # Items one behind the other

Items with lengths and alignments, each at the first place behind the one before it that its alignment allows. -/
namespace Neufbox.Packing
open Neufbox.WrapArith
set_option autoImplicit false
set_option maxHeartbeats 250000
set_option maxRecDepth 120000

/-- Something that lies at `start` and may lie at multiples of `unit`. -/
structure Item where
  unit : ℕ
  start : ℕ
  size : ℕ

/-- No item could start earlier behind the one before it. -/
def Packed : ℕ → List Item → Prop
  | _, [] => True
  | prev, i :: items => IsLeast {m | i.unit ∣ m ∧ prev ≤ m} i.start ∧ Packed (i.start + i.size) items

/-- Where packed items of these units and sizes end. -/
def packEnd (prev : ℕ) (items : List (ℕ × ℕ)) : ℕ :=
  items.foldl (fun prev i => roundUp prev i.1 + i.2) prev

section Ends
variable {prev : ℕ} {items : List (ℕ × ℕ)} (hunits : ∀ i ∈ items, 0 < i.1)
include hunits

theorem le_packEnd : prev ≤ packEnd prev items := by
  induction items generalizing prev with
  | nil => exact le_rfl
  | cons i items ih =>
    have hround := le_roundUp (x := prev) (hunits i List.mem_cons_self)
    have hrest : roundUp prev i.1 + i.2 ≤ packEnd (roundUp prev i.1 + i.2) items :=
      ih fun j hj => hunits j (List.mem_cons_of_mem _ hj)
    rw [packEnd, List.foldl_cons]
    exact le_trans (by omega) hrest

/-- An item behind something that is not empty ends behind its own unit. -/
theorem unit_le_packEnd (hprev : 0 < prev) {i : ℕ × ℕ} (hi : i ∈ items) : i.1 ≤ packEnd prev items := by
  induction items generalizing prev with
  | nil => simp at hi
  | cons j items ih =>
    have hj := hunits j List.mem_cons_self
    have hround := le_roundUp (x := prev) hj
    have hothers : ∀ j ∈ items, 0 < j.1 := fun j hj => hunits j (List.mem_cons_of_mem _ hj)
    rw [packEnd, List.foldl_cons]
    rcases List.mem_cons.mp hi with rfl | hi
    · have hunit : i.1 ≤ roundUp prev i.1 := Nat.le_of_dvd (by omega) (dvd_roundUp prev i.1)
      exact le_trans (by omega) (le_packEnd hothers)
    · exact ih hothers (by omega) hi

end Ends

end Neufbox.Packing
