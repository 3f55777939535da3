import Mathlib.Tactic

/-! # Registers as bits

Registers whose bits are assigned one after the other, by words that are read, changed and written back. A list
of assignments says which bits are given which values; the last value counts, and all other bits stay. -/
namespace Neufbox.Library.BitCells
set_option autoImplicit false
set_option maxHeartbeats 250000
set_option maxRecDepth 120000

variable {ρ : Type} [DecidableEq ρ] {w : ℕ}

/-- The last value that is assigned to a bit of a register. -/
def lastAssigned (l : List ((ρ × ℕ) × Bool)) (c : ρ × ℕ) : Option Bool :=
  l.foldl (fun last a => if a.1 = c then some a.2 else last) none

/-- Registers behind a list of assignments. -/
def Assigned (l : List ((ρ × ℕ) × Bool)) (regs regs' : ρ → BitVec w) : Prop :=
  ∀ r b, b < w → (regs' r).getLsbD b = (lastAssigned l (r, b)).getD ((regs r).getLsbD b)

theorem lastAssigned_concat (l : List ((ρ × ℕ) × Bool)) (a : (ρ × ℕ) × Bool) (c : ρ × ℕ) :
    lastAssigned (l ++ [a]) c = if a.1 = c then some a.2 else lastAssigned l c := by
  simp [lastAssigned]

theorem lastAssigned_append (l l' : List ((ρ × ℕ) × Bool)) (c : ρ × ℕ) :
    lastAssigned (l ++ l') c = (lastAssigned l' c).or (lastAssigned l c) := by
  induction l' using List.reverseRecOn with
  | nil => simp [lastAssigned]
  | append_singleton l' a ih =>
    rw [← List.append_assoc, lastAssigned_concat, lastAssigned_concat]
    by_cases ha : a.1 = c
    · simp [ha]
    · rw [if_neg ha, if_neg ha]
      exact ih

theorem lastAssigned_cons (a : (ρ × ℕ) × Bool) (l : List ((ρ × ℕ) × Bool)) (c : ρ × ℕ) :
    lastAssigned (a :: l) c = (lastAssigned l c).or (if a.1 = c then some a.2 else none) := by
  rw [← List.singleton_append, lastAssigned_append]
  rfl

theorem lastAssigned_of_not_mem (l : List ((ρ × ℕ) × Bool)) (c : ρ × ℕ) (hc : c ∉ l.map Prod.fst) :
    lastAssigned l c = none := by
  induction l with
  | nil => rfl
  | cons a l ih =>
    rw [List.map_cons, List.mem_cons, not_or] at hc
    rw [lastAssigned_cons, ih hc.2, if_neg (Ne.symm hc.1)]
    rfl

/-- Where every bit is assigned once, each has the value of its assignment. -/
theorem lastAssigned_of_mem (l : List ((ρ × ℕ) × Bool)) (hnodup : (l.map Prod.fst).Nodup) {c : ρ × ℕ} {v : Bool}
    (hc : (c, v) ∈ l) : lastAssigned l c = some v := by
  induction l with
  | nil => simp at hc
  | cons a l ih =>
    rw [List.map_cons, List.nodup_cons] at hnodup
    rw [lastAssigned_cons]
    rcases List.mem_cons.mp hc with rfl | hc
    · rw [lastAssigned_of_not_mem l c hnodup.1, if_pos rfl]
      rfl
    · rw [ih hnodup.2 hc]
      rfl

section Steps
variable {regs regs₁ regs' : ρ → BitVec w}

theorem Assigned.append {l l' : List ((ρ × ℕ) × Bool)} (h : Assigned l regs regs₁) (h' : Assigned l' regs₁ regs') :
    Assigned (l ++ l') regs regs' := by
  intro r b hb
  rw [h' r b hb, h r b hb, lastAssigned_append]
  cases lastAssigned l' (r, b) <;> rfl

theorem assigned_nil (regs : ρ → BitVec w) : Assigned [] regs regs := fun _ _ _ => rfl

/-- A word that is written to one register. -/
theorem assigned_update {l : List ((ρ × ℕ) × Bool)} (r : ρ) (value : BitVec w) (hkeys : ∀ a ∈ l, a.1.1 = r)
    (hvalue : ∀ b < w, value.getLsbD b = (lastAssigned l (r, b)).getD ((regs r).getLsbD b)) :
    Assigned l regs (Function.update regs r value) := by
  intro r' b hb
  by_cases hr : r' = r
  · rw [hr, Function.update_self]
    exact hvalue b hb
  · have hnone : lastAssigned l (r', b) = none := by
      refine lastAssigned_of_not_mem l _ fun hmem => ?_
      obtain ⟨a, ha, hkey⟩ := List.mem_map.mp hmem
      exact hr ((congrArg Prod.fst hkey).symm.trans (hkeys a ha))
    rw [Function.update_of_ne hr, hnone]
    rfl

/-- A loop of steps that assign bits. -/
theorem assigned_foldlM {ι : Type} (step : (ρ → BitVec w) → ι → Option (ρ → BitVec w))
    (cells : ι → List ((ρ × ℕ) × Bool)) (items : List ι)
    (hstep : ∀ i ∈ items, ∀ regs, ∃ regs', step regs i = some regs' ∧ Assigned (cells i) regs regs')
    (regs : ρ → BitVec w) : ∃ regs', items.foldlM step regs = some regs' ∧ Assigned (items.flatMap cells) regs regs' := by
  induction items generalizing regs with
  | nil => exact ⟨regs, rfl, assigned_nil regs⟩
  | cons i items ih =>
    obtain ⟨regs₁, hfirst, hassigned⟩ := hstep i List.mem_cons_self regs
    obtain ⟨regs', hrest, hassigned'⟩ := ih (fun i hi => hstep i (List.mem_cons_of_mem _ hi)) regs₁
    refine ⟨regs', ?_, ?_⟩
    · rw [List.foldlM_cons, hfirst]
      exact hrest
    · rw [List.flatMap_cons]
      exact hassigned.append hassigned'

/-- A bit that is assigned once. -/
theorem Assigned.get {l : List ((ρ × ℕ) × Bool)} (h : Assigned l regs regs') (hnodup : (l.map Prod.fst).Nodup) {r : ρ}
    {b : ℕ} {v : Bool} (hb : b < w) (hmem : ((r, b), v) ∈ l) : (regs' r).getLsbD b = v := by
  rw [h r b hb, lastAssigned_of_mem l hnodup hmem]
  rfl

/-- A bit that is not assigned. -/
theorem Assigned.get_other {l : List ((ρ × ℕ) × Bool)} (h : Assigned l regs regs') {r : ρ} {b : ℕ} (hb : b < w)
    (hmem : (r, b) ∉ l.map Prod.fst) : (regs' r).getLsbD b = (regs r).getLsbD b := by
  rw [h r b hb, lastAssigned_of_not_mem l _ hmem]
  rfl

end Steps

end Neufbox.Library.BitCells
