import Neufbox.Library.Blocks

/-! Memory behind a pointer, as a function of the offset. A program that writes past the end of its
buffer changes cells behind it; what lies there is part of the function. `store` and `load` move
blocks; a load sees the stores that overlap it and no others. -/
namespace Neufbox.Memory
open Blocks
set_option autoImplicit false
set_option maxHeartbeats 250000

variable {α : Type}

def store (m : ℕ → α) (off : ℕ) (bs : List α) : ℕ → α :=
  fun x => if off ≤ x then (bs[x - off]?).getD (m x) else m x

def load (m : ℕ → α) (off n : ℕ) : List α := (List.range n).map fun i => m (off + i)

@[simp] theorem load_length (m : ℕ → α) (off n : ℕ) : (load m off n).length = n := by
  simp [load]

theorem load_getElem? (m : ℕ → α) (off : ℕ) {n i : ℕ} (hi : i < n) : (load m off n)[i]? = some (m (off + i)) := by
  simp [load, hi]

theorem store_outside (m : ℕ → α) {off x : ℕ} {bs : List α} (hx : x < off ∨ off + bs.length ≤ x) :
    store m off bs x = m x := by
  unfold store
  split
  · rw [List.getElem?_eq_none (by omega), Option.getD_none]
  · rfl

theorem store_inside (m : ℕ → α) (off : ℕ) {bs : List α} {j : ℕ} (hj : j < bs.length) :
    store m off bs (off + j) = bs[j] := by
  rw [store, if_pos (Nat.le_add_right off j), Nat.add_sub_cancel_left, List.getElem?_eq_getElem hj,
    Option.getD_some]

@[simp] theorem store_nil (m : ℕ → α) (off : ℕ) : store m off [] = m := by
  funext x
  exact store_outside m (by rw [List.length_nil]; omega)

theorem load_store_same (m : ℕ → α) (off : ℕ) (bs : List α) : load (store m off bs) off bs.length = bs := by
  apply List.ext_getElem?
  intro j
  by_cases hj : j < bs.length
  · rw [load_getElem? _ _ hj, store_inside m off hj, List.getElem?_eq_getElem hj]
  · rw [List.getElem?_eq_none (by rw [load_length]; omega), List.getElem?_eq_none (by omega)]

theorem load_store_disjoint (m : ℕ → α) {off off' n : ℕ} {bs : List α}
    (h : off + n ≤ off' ∨ off' + bs.length ≤ off) : load (store m off' bs) off n = load m off n := by
  apply List.map_congr_left
  intro i hi
  rw [List.mem_range] at hi
  apply store_outside
  omega

theorem load_add (m : ℕ → α) (off n k : ℕ) : load m off (n + k) = load m off n ++ load m (off + n) k := by
  rw [load, List.range_add, List.map_append, List.map_map]
  apply congrArg (load m off n ++ ·)
  apply List.map_congr_left
  intro i _
  show m (off + (n + i)) = m (off + n + i)
  rw [Nat.add_assoc]

theorem load_drop (m : ℕ → α) (off : ℕ) {n d : ℕ} (hd : d ≤ n) : (load m off n).drop d = load m (off + d) (n - d) := by
  obtain ⟨k, rfl⟩ := Nat.exists_eq_add_of_le hd
  rw [load_add, List.drop_left' (load_length m off d), Nat.add_sub_cancel_left]

theorem load_take (m : ℕ → α) (off : ℕ) {n k : ℕ} (hk : k ≤ n) : (load m off n).take k = load m off k := by
  obtain ⟨j, rfl⟩ := Nat.exists_eq_add_of_le hk
  rw [load_add, List.take_left' (load_length m off k)]

theorem load_slice (m : ℕ → α) {n d k : ℕ} (h : d + k ≤ n) : ((load m 0 n).drop d).take k = load m d k := by
  rw [load_drop m 0 (by omega), load_take _ _ (by omega), Nat.zero_add]

/-! ## Little-endian words -/

def leBytes (n : ℕ) : List UInt8 := (beBytes n).reverse

def leWord (bs : List UInt8) : ℕ := beWord bs.reverse

@[simp] theorem leBytes_length (n : ℕ) : (leBytes n).length = 4 := rfl

theorem leWord_leBytes {n : ℕ} (hn : n < 2 ^ 32) : leWord (leBytes n) = n := by
  rw [leWord, leBytes, List.reverse_reverse, beWord_beBytes hn]

theorem leWord_cons (b : UInt8) (bs : List UInt8) : leWord (b :: bs) = 256 * leWord bs + b.toNat := by
  rw [leWord, leWord, beWord, beWord, List.foldl_reverse, List.foldl_reverse, List.foldr_cons]

theorem leWord_lt (bs : List UInt8) : leWord bs < 256 ^ bs.length := by
  induction bs with
  | nil => exact Nat.one_pos
  | cons b bs ih =>
    have hb := b.toNat_lt
    rw [leWord_cons, List.length_cons, pow_succ]
    omega

theorem beWord_lt (bs : List UInt8) : beWord bs < 256 ^ bs.length := by
  have h := leWord_lt bs.reverse
  rwa [leWord, List.reverse_reverse, List.length_reverse] at h

end Neufbox.Memory
