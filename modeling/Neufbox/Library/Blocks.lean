import Mathlib.Tactic

/-! Byte strings as messages: 32-bit words in network byte order, and a transformation applied in
place to the blocks of a buffer, one after the other. A transformation of blocks that has an inverse
gives one of buffers: `mapBlocks_inverse`. -/
namespace Neufbox.Blocks
set_option autoImplicit false
set_option maxHeartbeats 250000

/-! ## Words -/

def beWord (bs : List UInt8) : ℕ := bs.foldl (fun n b => 256 * n + b.toNat) 0

def beBytes (n : ℕ) : List UInt8 :=
  [UInt8.ofNat (n / 2 ^ 24), UInt8.ofNat (n / 2 ^ 16), UInt8.ofNat (n / 2 ^ 8), UInt8.ofNat n]

@[simp] theorem beBytes_length (n : ℕ) : (beBytes n).length = 4 := rfl

theorem beWord_beBytes {n : ℕ} (hn : n < 2 ^ 32) : beWord (beBytes n) = n := by
  simp only [beWord, beBytes, List.foldl_cons, List.foldl_nil, UInt8.toNat_ofNat']
  omega

/-! ## Blocks -/

section Blocks
variable {α : Type} {k : ℕ} {f g : List α → List α}

/-- `f` applied to the first `n` blocks of `k` elements; what follows them is left alone. -/
def mapBlocks (k : ℕ) (f : List α → List α) : ℕ → List α → List α
  | 0, xs => xs
  | n + 1, xs => f (xs.take k) ++ mapBlocks k f n (xs.drop k)

theorem mapBlocks_length (hf : ∀ b, b.length = k → (f b).length = k) (n : ℕ) (xs : List α)
    (hxs : n * k ≤ xs.length) : (mapBlocks k f n xs).length = xs.length := by
  induction n generalizing xs with
  | zero => rfl
  | succ n ih =>
    rw [Nat.succ_mul] at hxs
    have htake : (xs.take k).length = k := by rw [List.length_take]; omega
    rw [mapBlocks, List.length_append, hf _ htake, ih (xs.drop k) (by rw [List.length_drop]; omega),
      List.length_drop]
    omega

theorem mapBlocks_inverse (hf : ∀ b, b.length = k → (f b).length = k)
    (hg : ∀ b, b.length = k → g (f b) = b) (n : ℕ) (xs : List α) (hxs : n * k ≤ xs.length) :
    mapBlocks k g n (mapBlocks k f n xs) = xs := by
  induction n generalizing xs with
  | zero => rfl
  | succ n ih =>
    rw [Nat.succ_mul] at hxs
    have htake : (xs.take k).length = k := by rw [List.length_take]; omega
    have hblock : (f (xs.take k)).length = k := hf _ htake
    rw [mapBlocks, mapBlocks, List.take_left' hblock, List.drop_left' hblock, hg _ htake,
      ih (xs.drop k) (by rw [List.length_drop]; omega), List.take_append_drop]

theorem mapBlocks_append (n : ℕ) (xs ys : List α)
    (hxs : xs.length = n * k) : mapBlocks k f n (xs ++ ys) = mapBlocks k f n xs ++ ys := by
  induction n generalizing xs with
  | zero =>
    rw [Nat.zero_mul, List.length_eq_zero_iff] at hxs
    rw [hxs]
    rfl
  | succ n ih =>
    rw [Nat.succ_mul] at hxs
    rw [mapBlocks, mapBlocks, List.take_append_of_le_length (by omega),
      List.drop_append_of_le_length (by omega), ih (xs.drop k) (by rw [List.length_drop]; omega),
      List.append_assoc]

/-! ## Rows of blocks -/

theorem drop_flatten (bs : List (List α)) (hbs : ∀ b ∈ bs, b.length = k) (i : ℕ) (hi : i ≤ bs.length) (rest : List α) :
    (bs.flatten ++ rest).drop (k * i) = (bs.drop i).flatten ++ rest := by
  induction bs generalizing i with
  | nil =>
    rw [List.length_nil, Nat.le_zero] at hi
    rw [hi]
    rfl
  | cons b bs ih =>
    cases i with
    | zero => rfl
    | succ i =>
      have hb := hbs b List.mem_cons_self
      rw [List.length_cons] at hi
      rw [List.flatten_cons, List.append_assoc, Nat.mul_succ, Nat.add_comm, ← List.drop_drop, List.drop_left' hb,
        List.drop_succ_cons]
      exact ih (fun b hb => hbs b (List.mem_cons_of_mem _ hb)) i (by omega)

/-- A block among blocks of the same length. -/
theorem block_flatten (bs : List (List α)) (hbs : ∀ b ∈ bs, b.length = k) (i : ℕ) (hi : i < bs.length) (rest : List α) :
    ((bs.flatten ++ rest).drop (k * i)).take k = bs[i] := by
  rw [drop_flatten bs hbs i hi.le, List.drop_eq_getElem_cons hi, List.flatten_cons, List.append_assoc,
    List.take_left' (hbs _ (List.getElem_mem hi))]

end Blocks

end Neufbox.Blocks
