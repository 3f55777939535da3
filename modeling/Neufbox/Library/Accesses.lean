import Mathlib.Tactic

/-! Accesses to a buffer: what a program reads or writes, as the list of the places it touches. A buffer has a
size; `Inside` says that no access leaves it. Nothing here names a program. -/
namespace Neufbox.Accesses
set_option autoImplicit false
set_option maxHeartbeats 250000

/-- `len` bytes from `off` on. -/
structure Access where
  off : ℕ
  len : ℕ
  deriving DecidableEq

def Inside (size : ℕ) (as : List Access) : Prop := ∀ a ∈ as, a.off + a.len ≤ size

instance (size : ℕ) (as : List Access) : Decidable (Inside size as) :=
  inferInstanceAs (Decidable (∀ a ∈ as, _))

/-- A loop over `n` blocks of `k` bytes. -/
def blocks (off k n : ℕ) : List Access := (List.range n).map fun i => ⟨off + k * i, k⟩

variable {size : ℕ}

@[simp] theorem inside_nil : Inside size [] := by
  simp [Inside]

@[simp] theorem inside_cons (a : Access) (as : List Access) :
    Inside size (a :: as) ↔ a.off + a.len ≤ size ∧ Inside size as := by
  simp [Inside]

@[simp] theorem inside_append (as bs : List Access) :
    Inside size (as ++ bs) ↔ Inside size as ∧ Inside size bs := by
  simp only [Inside, List.mem_append, or_imp, forall_and]

theorem inside_blocks {off : ℕ} (k n : ℕ) (hoff : off ≤ size) :
    Inside size (blocks off k n) ↔ off + k * n ≤ size := by
  induction n with
  | zero => simp [blocks, hoff]
  | succ n ih =>
    have hlast : blocks off k (n + 1) = blocks off k n ++ [⟨off + k * n, k⟩] := by
      rw [blocks, blocks, List.range_succ, List.map_append, List.map_singleton]
    rw [hlast, inside_append, ih, inside_cons, Nat.mul_succ]
    simp only [inside_nil, and_true]
    omega

end Neufbox.Accesses
